import QuietQuic.Proto.Actionable
import QuietQuic.Proto.Provenance

/-!
# A client is one connection

Nothing admits a datagram on a client, so nothing but `new_client` opens a connection in it: whatever
arrives and whatever quinn-proto answers, the endpoint has the connection it dialled, until that is
reaped. `Lone` says so of an endpoint's state, and of its queue of events.

* `Lone.step`, `Lone.run`: every public call keeps it.
* `Lone.handedOut_own`: whatever a run hands out to send, the connection's own `poll_transmit`
  answered.
-/

namespace QuietQuic.Proto

open QuietQuic.Lib

variable {Q : Quinn} {H : KeyedHash}

/-- A client's state, of the connection it dialled. -/
structure Lone (ch : ConnectionHandle) (core : Core Q) : Prop where
  role : core.role = .client
  clients : core.clients = []
  live : ∀ a ∈ core.connections, a = ch
  events : ∀ e ∈ core.events, e.conn = ch

namespace Lone

variable {ch : ConnectionHandle} {core core' : Core Q}

theorem book (h : Lone ch core) (hframe : Core.Frame core' core)
    (hmem : ∀ a, a ∈ core'.connections ↔ a ∈ core.connections) : Lone ch core' where
  role := hframe.role.trans h.role
  clients := hframe.clients.trans h.clients
  live a ha := h.live a ((hmem a).mp ha)
  events e he := h.events e (hframe.events ▸ he)

/-- **A servicing pass reports the connection alone.** -/
theorem pass (h : Lone ch core) (ord : IterOrder) (now : Instant) :
    Lone ch (core.serviceConnections ord now) := by
  have hkept : (core.serviceConnections ord now).role = .client ∧
      (core.serviceConnections ord now).clients = [] :=
    Core.serviceConnections_inv (I := fun core => core.role = .client ∧ core.clients = [])
      (fun _ _ hf _ hI => ⟨hf.role.trans hI.1, hf.clients.trans hI.2⟩) (fun _ _ _ hI => hI)
      (fun _ _ hI hl => by rw [Core.reap_eq hl]; exact hI) ord now ⟨h.role, h.clients⟩
  refine ⟨hkept.1, hkept.2, fun a ha => h.live a (Endpoint.mem_serviceConnections ha),
    fun e he => ?_⟩
  rw [events_pass] at he
  rcases List.mem_append.mp he with he | he
  · exact h.events e he
  · obtain ⟨s, hs, -⟩ := mem_passEvents.mp he
    exact h.live _ (Core.mem_routed.mp (AMap.mem_iff_lookup.mpr ⟨s, hs⟩))

/-- Where a pass starts nothing was registered: nobody can be admitted. -/
theorem start {ep : Endpoint Q} {call : Call} {ord : IterOrder} {now : Instant}
    (h : Lone ch ep.toCore) (hpass : Endpoint.passStart H ep call = some (core, ord, now)) :
    Lone ch core := by
  rcases Endpoint.passStart_cases hpass with rfl | rfl | ⟨g, src, data, hfits, hg, rfl⟩
  · exact h
  · exact h.book ⟨rfl, rfl, rfl, rfl, rfl, rfl⟩ fun _ => AMap.mem_mapValues
  · rcases Endpoint.fed_spec now src data hfits hg with ⟨hframe, hmem, -⟩ |
      ⟨idx, client, _, _, _, _, _, hclient, _, _, _⟩
    · exact h.book hframe hmem
    · rw [h.clients] at hclient
      exact absurd hclient (by simp)

/-- **Every public call keeps it.** -/
theorem step {ep : Endpoint Q} (call : Call) (h : Lone ch ep.toCore) :
    Lone ch (ep.step H call).2.toCore := by
  cases hpass : Endpoint.passStart H ep call with
  | some start =>
    obtain ⟨core, ord, now⟩ := start
    obtain ⟨outbound, heq⟩ := Endpoint.step_of_pass hpass
    have hafter := (h.start hpass).pass ord now
    rw [heq]
    exact ⟨hafter.role, hafter.clients, hafter.live, hafter.events⟩
  | none =>
    have hqueue := taken_of_no_pass hpass
    obtain ⟨a, c, -, heq⟩ | ⟨outbound, events, heq⟩ := Endpoint.step_of_no_pass hpass
    · rw [heq]
      refine h.book ?_ fun _ => Core.mem_onConn
      rw [Core.onConn_eq]
      exact ⟨rfl, rfl, rfl, rfl, rfl, rfl⟩
    · rw [heq] at hqueue ⊢
      exact ⟨h.role, h.clients, h.live, fun e he =>
        h.events e (hqueue ▸ List.mem_append_right _ he)⟩

/-- The events a call hands out are of the connection. -/
theorem taken {ep : Endpoint Q} (call : Call) (h : Lone ch ep.toCore) :
    ∀ e ∈ Proto.taken (ep.step H call).1, e.conn = ch := by
  cases hpass : Endpoint.passStart H ep call with
  | none =>
    have hqueue := taken_of_no_pass hpass
    exact fun e he => h.events e (hqueue ▸ List.mem_append_left _ he)
  | some start =>
    intro e he
    cases call with
    | pollEvent => exact absurd hpass (by simp [Endpoint.passStart])
    | _ => exact absurd he (by simp [Endpoint.step, Core.step, Proto.taken])

theorem run {ep : Endpoint Q} (calls : List Call) (h : Lone ch ep.toCore) :
    Lone ch (ep.run H calls).toCore := by
  induction calls generalizing ep with
  | nil => exact h
  | cons call calls ih => exact ih (h.step call)

theorem taken_run {ep : Endpoint Q} (calls : List Call) (h : Lone ch ep.toCore) :
    ∀ e ∈ (Endpoint.answers H ep calls).flatMap Proto.taken, e.conn = ch := by
  induction calls generalizing ep with
  | nil => simp [Endpoint.answers]
  | cons call calls ih =>
    intro e he
    rw [Endpoint.answers, List.flatMap_cons] at he
    rcases List.mem_append.mp he with he | he
    · exact h.taken call e he
    · exact ih (h.step call) e he

/-- Whatever a call may send the connection has answered: nothing else sends on a client. -/
theorem produces_own {ep : Endpoint Q} {call : Call} (h : Lone ch ep.toCore)
    {x : ByteSource × Transmit} (hx : x ∈ ep.produces H call) (hleaves : x.1.mayLeave = true) :
    Endpoint.Justified H ep call x.2 (.conn ch) := by
  have hjust := Endpoint.produces_justified hx hleaves
  cases hsrc : x.1 with
  | conn a =>
    rw [hsrc] at hjust
    obtain ⟨core, ord, now, s, c, hpass, hs, hsteps⟩ := hjust
    obtain rfl := (h.start hpass).live a (AMap.mem_iff_lookup.mpr ⟨s, hs⟩)
    exact ⟨core, ord, now, s, c, hpass, hs, hsteps⟩
  | response | accepted =>
    rw [hsrc] at hjust
    exact absurd (h.role.symm.trans hjust.1) (by simp)
  | refused =>
    rw [hsrc] at hleaves
    exact absurd hleaves (by simp [ByteSource.mayLeave])

end Lone

/-- What a run produces, a call of it produces. -/
theorem mem_produced {ep : Endpoint Q} {calls : List Call} {x : ByteSource × Transmit}
    (hx : x ∈ ep.produced H calls) : ∃ before call after, calls = before ++ call :: after ∧
      x ∈ (ep.run H before).produces H call := by
  induction calls generalizing ep with
  | nil => exact absurd hx List.not_mem_nil
  | cons call calls ih =>
    rcases List.mem_append.mp hx with hx | hx
    · exact ⟨[], call, calls, rfl, hx⟩
    · obtain ⟨before, later, after, rfl, hlater⟩ := ih hx
      exact ⟨call :: before, later, after, rfl, hlater⟩

/-- **A client sends nothing but its connection's own packets.** -/
theorem Lone.handedOut_own {ch : ConnectionHandle} {ep : Endpoint Q} (h : Lone ch ep.toCore)
    (hempty : ep.outbound = []) (calls : List Call) :
    ∀ t ∈ Endpoint.handedOut H ep calls, ∃ before call after, calls = before ++ call :: after ∧
      Endpoint.Justified H (ep.run H before) call t (.conn ch) := by
  intro t ht
  have hall := Endpoint.run_outbound (H := H) calls ep
  rw [hempty, List.nil_append] at hall
  have hleaves : t ∈ (ep.produced H calls).leaving := hall ▸ List.mem_append_left _ ht
  obtain ⟨x, hx, rfl⟩ := List.mem_map.mp hleaves
  obtain ⟨hx, hmay⟩ := List.mem_filter.mp hx
  obtain ⟨before, call, after, rfl, hcall⟩ := mem_produced hx
  have hmay' : x.1.mayLeave = true := (Bool.and_eq_true_iff.mp hmay).1
  exact ⟨before, call, after, rfl, (h.run before).produces_own hcall hmay'⟩

/-- A new client. -/
theorem Lone.new {tls : Tls Q} {now : Instant} {minute : UInt32} {cfg : ClientConfigFile}
    {ep : Endpoint Q} {ch : ConnectionHandle}
    (hnew : Endpoint.newClient H tls now minute cfg = .ok (ep, ch)) :
    Lone ch ep.toCore ∧ ep.outbound = [] := by
  obtain ⟨dialCfg, conn, -, -, hcore⟩ := Endpoint.newClient_core hnew
  rw [hcore]
  refine ⟨⟨rfl, rfl, fun a ha => ?_, fun e he => absurd he List.not_mem_nil⟩, rfl⟩
  exact ((AList.mem_insert _).mp ha).resolve_right (AList.notMem_empty a)

end QuietQuic.Proto
