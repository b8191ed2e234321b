import QuietQuic.Proto.Actionable
import QuietQuic.Proto.FirstFlight
import QuietQuic.Proto.Provenance

/-!
# A server that has met only strangers

A server that has admitted nobody is `Blank`: no connection, no CID, nothing queued. Without a CID no
datagram bypasses the pre-filter, and a servicing pass has nothing to do, so the next datagram is
admitted or changes nothing that could ever be sent.

* `Blank.step`: a call that admits nobody leaves the server blank, and hands out nothing.
* `Blank.run`: so do the calls of a run whose datagrams are strangers'.
-/

namespace QuietQuic.Proto

open QuietQuic.Lib

variable {Q : Quinn} {H : KeyedHash}

/-- A server nobody was admitted by. -/
structure Blank (core : Core Q) : Prop where
  role : core.role = .server
  connections : core.connections = ∅
  issued : core.issuedCids = ∅
  pending : core.pendingCids = []
  outbound : core.outbound = []
  events : core.events = []

/-- The datagram carries, within the window, the DCID that a PSK writes. -/
def Genuine (H : KeyedHash) (psk : Psk) (minute : UInt32) (data : List UInt8) : Prop :=
  ∃ nonce freshness, Carries data (buildDcid H psk nonce freshness).toList ∧
    freshness.toNat ≤ minute.toNat + WINDOW_MINUTES.toNat ∧
    minute.toNat ≤ freshness.toNat + WINDOW_MINUTES.toNat

/-- A genuine datagram is one that reaches the guard of its PSK, when there is no other. -/
theorem genuine_iff {psk : Psk} {minute : UInt32} {data : List UInt8} :
    Genuine H psk minute data ↔ (reaches H [psk] minute data).isSome := by
  constructor
  · rintro ⟨nonce, freshness, hcarries, hfresh⟩
    have hreach : reaches H [psk] minute data = some (0, (nonce, freshness)) :=
      reaches_eq_some_iff.mpr ⟨psk, rfl, hcarries, hfresh, fun j _ hj _ => absurd hj (by omega)⟩
    rw [hreach]
    rfl
  · intro h
    obtain ⟨⟨i, nonce, freshness⟩, hreach⟩ := Option.isSome_iff_exists.mp h
    obtain ⟨psk', hat, hcarries, hfresh, -⟩ := reaches_eq_some_iff.mp hreach
    obtain rfl := List.mem_singleton.mp (List.mem_of_getElem? hat)
    exact ⟨nonce, freshness, hcarries, hfresh⟩

/-- The call brings no datagram a PSK of the list is behind. -/
def Strange (H : KeyedHash) (psks : List Psk) : Call → Prop
  | .handleDatagram _ _ _ minute data => ∀ psk ∈ psks, ¬ Genuine H psk minute data
  | _ => True

namespace Blank

variable {core : Core Q}

/-- A pass over no connection. -/
theorem pass (h : Blank core) (ord : IterOrder) (now : Instant) :
    Blank (core.serviceConnections ord now) := by
  have hkeys : ord.order core.connections.keys = [] := by
    rw [h.connections]
    exact List.perm_nil.mp (ord.perm _)
  have heq : core.serviceConnections ord now =
      { core with
        lastService := some now
        pendingCids := []
        nextTimeout := none } := by
    unfold Core.serviceConnections
    dsimp only
    rw [hkeys]
    simp [Core.routeAll, Core.serviceAll, Core.flush, Core.reapAll, Core.sweepOrphanCids,
      Core.refreshNextTimeout, h.pending, h.connections, AMap.values]
  rw [heq]
  exact ⟨h.role, h.connections, h.issued, rfl, h.outbound, h.events⟩

theorem pop (h : Blank core) : core.popTransmit = (none, core) := by
  unfold Core.popTransmit
  rw [h.outbound]

/-- **A call that admits nobody** leaves the server blank, and hands out nothing. -/
theorem step {ep : Endpoint Q} (h : Blank ep.toCore) {call : Call}
    (hstrange : Strange H ep.psks call) : Blank (ep.step H call).2.toCore ∧
      Endpoint.handed (ep.step H call).1 = [] ∧ taken (ep.step H call).1 = [] := by
  cases call with
  | handleDatagram ord now src minute data =>
    refine ⟨?_, rfl, rfl⟩
    have hrejected : (ep.gate H now src minute data).1 = .rejected := by
      cases hgate : (ep.gate H now src minute data).1 with
      | rejected => rfl
      | bypass =>
        obtain ⟨dcid, -, hissued⟩ := Endpoint.gate_bypass h.role hgate
        rw [h.issued] at hissued
        exact absurd hissued (Finset.notMem_empty dcid)
      | admitted idx =>
        obtain ⟨-, -, hpre⟩ := Endpoint.gate_admitted hgate
        cases hreach : reaches H ep.psks minute data with
        | none =>
          rw [prefilter_of_not_reaches hreach] at hpre
          exact absurd hpre (by simp)
        | some r =>
          obtain ⟨i, nonce, freshness⟩ := r
          obtain ⟨psk, hat, hcarries, hfresh, -⟩ := reaches_eq_some_iff.mp hreach
          exact absurd ⟨nonce, freshness, hcarries, hfresh⟩
            (hstrange psk (List.mem_of_getElem? hat))
    rw [Endpoint.step_of_rejected hrejected]
    exact h
  | handleTimeout ord now =>
    refine ⟨?_, rfl, rfl⟩
    have htimers : Blank (ep.toCore.fireTimers now) := by
      refine ⟨h.role, ?_, h.issued, h.pending, h.outbound, h.events⟩
      unfold Core.fireTimers
      rw [h.connections]
      rfl
    exact htimers.pass ord now
  | pollTransmit ord now =>
    have hpoll : ep.toCore.pollTransmit ord now = (none, ep.toCore.serviceConnections ord now) := by
      unfold Core.pollTransmit
      rw [h.pop]
      exact (h.pass ord now).pop
    have hstep : ep.step H (.pollTransmit ord now) =
        (.transmit none, { ep with toCore := ep.toCore.serviceConnections ord now }) := by
      show ((.transmit (ep.toCore.pollTransmit ord now).1,
        { ep with toCore := (ep.toCore.pollTransmit ord now).2 }) : Answer × Endpoint Q) = _
      rw [hpoll]
    rw [hstep]
    exact ⟨h.pass ord now, rfl, rfl⟩
  | pollEvent =>
    have hpoll : ep.toCore.pollEvent = (none, ep.toCore) := by
      unfold Core.pollEvent
      rw [h.events]
    have hstep : ep.step H .pollEvent = (.event none, ep) := by
      show ((.event ep.toCore.pollEvent.1, { ep with toCore := ep.toCore.pollEvent.2 }) :
        Answer × Endpoint Q) = _
      rw [hpoll]
    rw [hstep]
    exact ⟨h, rfl, rfl⟩
  | conn ch c =>
    refine ⟨?_, rfl, rfl⟩
    show Blank (ep.toCore.onConn ch c).2
    unfold Core.onConn
    rw [h.connections]
    exact h
  | nextTimeout | clientId | issuedCidCount => exact ⟨h, rfl, rfl⟩

/-- **A run among strangers** is silent. -/
theorem run (calls : List Call) {ep : Endpoint Q} (h : Blank ep.toCore)
    (hstrange : ∀ call ∈ calls, Strange H ep.psks call) : Blank (ep.run H calls).toCore ∧
      Endpoint.handedOut H ep calls = [] ∧
      (Endpoint.answers H ep calls).flatMap taken = [] := by
  induction calls generalizing ep with
  | nil => exact ⟨h, rfl, rfl⟩
  | cons call calls ih =>
    obtain ⟨hnext, hhanded, htaken⟩ := h.step (hstrange call List.mem_cons_self)
    have hpsks : (ep.step H call).2.psks = ep.psks := Endpoint.psks_run [call]
    obtain ⟨hafter, hout, hevents⟩ := ih hnext fun call' hcall' =>
      hpsks ▸ hstrange call' (List.mem_cons_of_mem _ hcall')
    unfold Endpoint.handedOut at hout ⊢
    refine ⟨hafter, ?_, ?_⟩
    · rw [Endpoint.answers, List.flatMap_cons, hhanded, hout, List.append_nil]
    · rw [Endpoint.answers, List.flatMap_cons, htaken, hevents, List.append_nil]

/-- A new server. -/
theorem new {tls : Tls Q} {secrets : ServerSecrets} {ep : Endpoint Q}
    (hnew : Endpoint.newServer tls secrets = .ok ep) : Blank ep.toCore := by
  obtain ⟨clients, -, hcore⟩ := Endpoint.newServer_core hnew
  rw [hcore]
  exact ⟨rfl, rfl, rfl, rfl, rfl, rfl⟩

end Blank

/-- The PSKs a server screens for are its clients'. -/
theorem mem_psks_new {tls : Tls Q} {secrets : ServerSecrets} {ep : Endpoint Q}
    (hnew : Endpoint.newServer tls secrets = .ok ep) {psk : Psk} (hpsk : psk ∈ ep.psks) :
    ∃ entry ∈ secrets.clients, entry.psk = psk := by
  obtain ⟨clients, hbuild, hcore⟩ := Endpoint.newServer_core hnew
  have hclients : ep.clients = clients := congrArg (fun core => core.clients) hcore
  rw [Endpoint.psks, hclients] at hpsk
  obtain ⟨client, hclient, rfl⟩ := List.mem_map.mp hpsk
  obtain ⟨i, hi⟩ := List.mem_iff_getElem?.mp hclient
  obtain ⟨entry, hentry, -, hsame, -⟩ := Endpoint.client_of_entry hbuild hi
  exact ⟨entry, List.mem_of_getElem? hentry, hsame.symm⟩

end QuietQuic.Proto
