import QuietQuic.Proto.Mini
import QuietQuic.Proto.Pass

/-!
# One public call

What the gates decide, what feeding a datagram does to the bookkeeping, where in a call the
servicing pass starts, and the invariant rules for one call and for a run.

* `gate_admitted`, `gate_bypass`: who gets past the gates.
* `fed_spec`: a fed datagram changes no handle, or registers exactly one.
* `step_of_pass`, `step_of_no_pass`: a call is a servicing pass, a stream operation, or a change
  of the queues.
* `step_inv`, `step_inv_when`, `step_book_inv`, `run_inv`: the invariant rules.
-/

namespace QuietQuic.Proto

open QuietQuic.Lib

namespace Endpoint

variable {Q : Quinn} {H : KeyedHash}

/-! ## The gates -/

/-- A verdict fits the state: only a server admits, for an index of its client list. -/
def Gate.Fits (core : Core Q) : Gate → Prop
  | .admitted clientIdx => core.role = .server ∧ clientIdx < core.clients.length
  | _ => True

/-- The gates touch only the pre-filter's own state. -/
theorem gate_toCore (ep : Endpoint Q) (now : Instant) (src : SocketAddr) (minute : UInt32)
    (data : List UInt8) : (ep.gate H now src minute data).2.toCore = ep.toCore := by
  unfold gate
  split
  · unfold screen
    dsimp only
    split
    · split <;> rfl
    · rfl
  · rfl

/-- A datagram that is not rejected is fed, then every connection is serviced. -/
theorem step_of_gate {ep : Endpoint Q} {ord : IterOrder} {now : Instant} {src : SocketAddr}
    {minute : UInt32} {data : List UInt8} (h : (ep.gate H now src minute data).1 ≠ .rejected) :
    (ep.step H (.handleDatagram ord now src minute data)).2.toCore =
      (fed ep.toCore (ep.gate H now src minute data).1 now src data).2.serviceConnections ord
        now := by
  simp only [step, handleDatagram]
  rw [gate_toCore]

/-- A rejected datagram leaves the core as it is. -/
theorem step_of_rejected {ep : Endpoint Q} {ord : IterOrder} {now : Instant} {src : SocketAddr}
    {minute : UInt32} {data : List UInt8} (h : (ep.gate H now src minute data).1 = .rejected) :
    (ep.step H (.handleDatagram ord now src minute data)).2.toCore = ep.toCore := by
  simp only [step, handleDatagram, h]
  exact gate_toCore ..

/-- The limiter's verdict on a datagram from `src`. -/
def limiterSays (ep : Endpoint Q) (now : Instant) (src : SocketAddr) : Bool :=
  ((ep.rateLimiter.check src.ip now).getD (false, ep.rateLimiter)).1

theorem psks_withLimiter (ep : Endpoint Q) (rateLimiter : RateLimiter) :
    psks { ep with rateLimiter := rateLimiter } = ep.psks := rfl

theorem screen_fst (ep : Endpoint Q) (now : Instant) (src : SocketAddr) (minute : UInt32)
    (data : List UInt8) :
    (ep.screen H now src minute data).1 =
      if ep.limiterSays now src then
        match (prefilter H ep.psks ep.replay minute data).1 with
        | some clientIdx => .admitted clientIdx
        | none => .rejected
      else .rejected := by
  unfold screen limiterSays
  dsimp only
  split
  · rw [psks_withLimiter]
    split <;> simp_all
  · rfl

theorem screen_replay (ep : Endpoint Q) (now : Instant) (src : SocketAddr) (minute : UInt32)
    (data : List UInt8) :
    (ep.screen H now src minute data).2.replay =
      if ep.limiterSays now src then (prefilter H ep.psks ep.replay minute data).2
      else ep.replay := by
  unfold screen limiterSays
  dsimp only
  split
  · rw [psks_withLimiter]
    split <;> simp_all
  · rfl

/-- An admission: a server, no active DCID, the pre-filter's index. -/
theorem gate_admitted {ep : Endpoint Q} {now : Instant} {src : SocketAddr} {minute : UInt32}
    {data : List UInt8} {idx : Nat}
    (h : (ep.gate H now src minute data).1 = .admitted idx) :
    ep.role = .server ∧ ep.isActiveDcid data = false ∧
      (prefilter H ep.psks ep.replay minute data).1 = some idx := by
  unfold gate at h
  split at h
  · rename_i hserver
    refine ⟨hserver.1, hserver.2, ?_⟩
    rw [screen_fst] at h
    split at h
    · split at h
      · rename_i clientIdx hpre
        rw [hpre, Gate.admitted.inj h]
      · exact absurd h (by simp)
    · exact absurd h (by simp)
  · exact absurd h (by simp)

theorem gate_fits (ep : Endpoint Q) (now : Instant) (src : SocketAddr) (minute : UInt32)
    (data : List UInt8) : (ep.gate H now src minute data).1.Fits ep.toCore := by
  cases h : (ep.gate H now src minute data).1 with
  | admitted idx =>
    obtain ⟨hserver, -, hpre⟩ := gate_admitted h
    exact ⟨hserver, by simpa [psks] using prefilter_lt hpre⟩
  | rejected => trivial
  | bypass => trivial

/-- A datagram bypasses a server's gates with an issued DCID only. -/
theorem gate_bypass {ep : Endpoint Q} {now : Instant} {src : SocketAddr} {minute : UInt32}
    {data : List UInt8} (hserver : ep.role = .server)
    (h : (ep.gate H now src minute data).1 = .bypass) :
    ∃ dcid, Core.readDcidAny data = some dcid ∧ dcid ∈ ep.issuedCids := by
  unfold gate at h
  split at h
  · rw [screen_fst] at h
    split at h
    · split at h <;> exact absurd h (by simp)
    · exact absurd h (by simp)
  · rename_i hnot
    have hactive : ep.isActiveDcid data = true := by
      by_contra hc
      exact hnot ⟨hserver, by simpa using hc⟩
    unfold Core.isActiveDcid at hactive
    split at hactive
    · exact absurd hactive (by simp)
    · rename_i dcid hread
      exact ⟨dcid, hread, by simpa using hactive⟩

/-! ## Feeding -/

/-- `core'` is `core` with one more connection, under the new handle `ch`, registered for `id`. -/
structure Registered (core core' : Core Q) (ch : ConnectionHandle) (conn : Q.Conn) (id : String) :
    Prop where
  role : core'.role = core.role
  clients : core'.clients = core.clients
  events : core'.events = core.events
  generation : ch.generation = core.nextGeneration
  nextGeneration : core'.nextGeneration = core.nextGeneration + 1
  connections : core'.connections = core.connections.insert ch (ConnState.new conn)
  clientIds : core'.clientIds = core.clientIds.insert ch id
  byQuinn : core'.byQuinn = core.byQuinn.insert ch.quinn ch

theorem register_registered {core : Core Q} (quinn : QuinnHandle) (conn : Q.Conn)
    (buf : List UInt8) {clientIdx : Nat} {client : ClientCrypto Q}
    (hclient : core.clients[clientIdx]? = some client) :
    Registered core (core.register quinn conn buf clientIdx).2 ⟨quinn, core.nextGeneration⟩ conn
      client.clientId := by
  rw [Core.register_eq]
  refine ⟨rfl, rfl, rfl, rfl, rfl, rfl, ?_, rfl⟩
  simp only [hclient]

/-- Feeding leaves the bookkeeping alone, or quinn-proto accepted the admitted client's
connection. -/
theorem feed_spec (core : Core Q) (now : Instant) (src : SocketAddr) (data : List UInt8)
    (admitted : Option Nat) :
    (Core.Frame (core.feed now src data admitted).2 core ∧
      (∀ ch, ch ∈ (core.feed now src data admitted).2.connections ↔ ch ∈ core.connections) ∧
      Core.Moved (fun l => ∃ ev, l = .handleEvent ev) (core.feed now src data admitted).2 core) ∨
    ∃ incoming clientIdx quinn conn buf, admitted = some clientIdx ∧
      (Q.accept (core.handOver now src data).2.inner core.serverConfig incoming now).out =
        (some (quinn, conn), buf) ∧
      core.feed now src data admitted =
        (.accepted ⟨quinn, core.nextGeneration⟩,
          (((core.handOver now src data).2.afterCall
            (Q.accept (core.handOver now src data).2.inner core.serverConfig incoming
              now)).register quinn conn buf clientIdx).2.sweepOrphanCids) := by
  rcases Core.feed_cases core now src data admitted with h | h | ⟨ch, cev, h⟩ |
    ⟨incoming, clientIdx, hadm, ⟨buf, hacc, h⟩ | ⟨quinn, conn, buf, hacc, h⟩⟩
  · rw [h, Core.handOver_eq]
    exact Or.inl ⟨⟨rfl, rfl, rfl, rfl, rfl, rfl⟩, fun ch => Iff.rfl, .refl rfl⟩
  · rw [h, Core.handOver_eq]
    exact Or.inl ⟨⟨rfl, rfl, rfl, rfl, rfl, rfl⟩, fun ch => Iff.rfl, .refl rfl⟩
  · rw [h, Core.handOver_eq]
    refine Or.inl ⟨⟨rfl, rfl, rfl, rfl, rfl, rfl⟩, fun ch => AMap.mem_modify, ?_⟩
    have hmoved := Core.updateConn_moved (P := fun l => ∃ ev, l = .handleEvent ev)
      (core.handOver now src data).2 ch fun c => .single ⟨cev, rfl⟩ (.handleEvent c cev)
    rw [Core.handOver_eq] at hmoved
    exact hmoved
  · rw [h, Core.handOver_eq]
    exact Or.inl ⟨⟨rfl, rfl, rfl, rfl, rfl, rfl⟩, fun ch => Iff.rfl, .refl rfl⟩
  · exact Or.inr ⟨incoming, clientIdx, quinn, conn, buf, hadm, hacc, h⟩

/-- **What feeding a datagram does to the bookkeeping**: nothing, or it registers one connection,
for the admitted client, accepted under that client's config. -/
theorem fed_spec {core : Core Q} {g : Gate} (now : Instant) (src : SocketAddr) (data : List UInt8)
    (hfits : g.Fits core) (hg : g ≠ .rejected) :
    (Core.Frame (fed core g now src data).2 core ∧
      (∀ ch, ch ∈ (fed core g now src data).2.connections ↔ ch ∈ core.connections) ∧
      Core.Moved (fun l => ∃ ev, l = .handleEvent ev) (fed core g now src data).2 core) ∨
    ∃ clientIdx client incoming ch conn buf, g = .admitted clientIdx ∧
      core.clients[clientIdx]? = some client ∧
      (Q.accept (Q.handle core.inner (some client.serverConfig) now src data).ep
        (some client.serverConfig) incoming now).out = (some (ch.quinn, conn), buf) ∧
      (fed core g now src data).1 = .accepted ch ∧
      Registered core (fed core g now src data).2 ch conn client.clientId := by
  cases g with
  | rejected => exact absurd rfl hg
  | bypass =>
    rcases feed_spec core now src data none with h | ⟨_, _, _, _, _, hadm, -⟩
    · exact Or.inl h
    · exact absurd hadm (by simp)
  | admitted clientIdx =>
    obtain ⟨-, hlt⟩ := hfits
    have hclient : core.clients[clientIdx]? = some core.clients[clientIdx] :=
      List.getElem?_eq_getElem hlt
    have hcfg : (install core clientIdx).serverConfig =
        some core.clients[clientIdx].serverConfig := by
      simp [install, hclient]
    rcases feed_spec (install core clientIdx) now src data (some clientIdx) with ⟨h, hmem, hmoved⟩ |
      ⟨incoming, clientIdx', quinn, conn, buf, hadm, hacc, h⟩
    · exact Or.inl ⟨⟨h.role, h.clients, h.clientIds, h.byQuinn, h.nextGeneration, h.events⟩, hmem,
        hmoved⟩
    · obtain rfl := Option.some.inj hadm
      refine Or.inr ⟨clientIdx, core.clients[clientIdx], incoming, ⟨quinn, core.nextGeneration⟩,
        conn, buf, rfl, hclient, ?_, ?_, ?_⟩
      · rw [Core.handOver_eq, hcfg] at hacc
        exact hacc
      · show ((install core clientIdx).feed now src data (some clientIdx)).1 = _
        rw [h]
        rfl
      · show Registered core ((install core clientIdx).feed now src data (some clientIdx)).2 _ _ _
        rw [h, Core.register_eq, Core.handOver_eq]
        refine ⟨rfl, rfl, rfl, rfl, rfl, rfl, ?_, rfl⟩
        simp only [Core.sweepOrphanCids, Core.afterCall, install, hclient]

/-! ## Where a pass starts -/

/-- The servicing pass of a call: the state it starts from, its order and its instant. -/
def passStart (H : KeyedHash) (ep : Endpoint Q) : Call → Option (Core Q × IterOrder × Instant)
  | .handleDatagram ord now src minute data =>
    if (ep.gate H now src minute data).1 = .rejected then none
    else some ((fed ep.toCore (ep.gate H now src minute data).1 now src data).2, ord, now)
  | .handleTimeout ord now => some (ep.fireTimers now, ord, now)
  | .pollTransmit ord now => if ep.outbound = [] then some (ep.toCore, ord, now) else none
  | _ => none

/-- The calls with a pass, with where each starts. -/
inductive Starts (H : KeyedHash) (ep : Endpoint Q) : Call → Core Q → IterOrder → Instant → Prop
  | datagram {ord : IterOrder} {now : Instant} {src : SocketAddr} {minute : UInt32}
      {data : List UInt8} (hg : (ep.gate H now src minute data).1 ≠ .rejected) :
      Starts H ep (.handleDatagram ord now src minute data)
        (fed ep.toCore (ep.gate H now src minute data).1 now src data).2 ord now
  | timeout {ord : IterOrder} {now : Instant} :
      Starts H ep (.handleTimeout ord now) (ep.fireTimers now) ord now
  | transmit {ord : IterOrder} {now : Instant} (hempty : ep.outbound = []) :
      Starts H ep (.pollTransmit ord now) ep.toCore ord now

theorem passStart_starts {ep : Endpoint Q} {call : Call} {core : Core Q} {ord : IterOrder}
    {now : Instant} (h : passStart H ep call = some (core, ord, now)) :
    Starts H ep call core ord now := by
  cases call with
  | handleDatagram ord' now' src minute data =>
    simp only [passStart] at h
    split at h
    · exact absurd h (by simp)
    · rename_i hg
      obtain ⟨rfl, rfl, rfl⟩ : _ ∧ _ ∧ _ := by simpa using h
      exact .datagram hg
  | handleTimeout ord' now' =>
    obtain ⟨rfl, rfl, rfl⟩ : _ ∧ _ ∧ _ := by simpa [passStart] using h
    exact .timeout
  | pollTransmit ord' now' =>
    simp only [passStart] at h
    split at h
    · rename_i hempty
      obtain ⟨rfl, rfl, rfl⟩ : _ ∧ _ ∧ _ := by simpa using h
      exact .transmit hempty
    · exact absurd h (by simp)
  | _ => exact absurd h (by simp [passStart])

/-- A datagram without a pass was rejected. -/
theorem gate_of_no_pass {ep : Endpoint Q} {ord : IterOrder} {now : Instant} {src : SocketAddr}
    {minute : UInt32} {data : List UInt8}
    (h : passStart H ep (.handleDatagram ord now src minute data) = none) :
    (ep.gate H now src minute data).1 = .rejected := by
  by_contra hg
  rw [passStart, if_neg hg] at h
  exact absurd h (by simp)

/-- A call with a pass leaves what the pass leaves, less a datagram taken from the queue. -/
theorem step_of_pass {ep : Endpoint Q} {call : Call} {core : Core Q} {ord : IterOrder}
    {now : Instant} (h : passStart H ep call = some (core, ord, now)) :
    ∃ outbound, (ep.step H call).2.toCore =
      { core.serviceConnections ord now with outbound := outbound } := by
  cases passStart_starts h with
  | datagram hg => exact ⟨_, step_of_gate hg⟩
  | timeout => exact ⟨_, rfl⟩
  | transmit hempty =>
    have hpop : ∀ core : Core Q, ∃ outbound,
        core.popTransmit.2 = { core with outbound := outbound } := by
      intro core
      unfold Core.popTransmit
      split
      · exact ⟨_, rfl⟩
      · exact ⟨core.outbound, rfl⟩
    have hnone : ep.toCore.popTransmit = (none, ep.toCore) := by
      unfold Core.popTransmit
      rw [hempty]
    show ∃ outbound, (ep.toCore.pollTransmit ord now).2 = _
    rw [Core.pollTransmit, hnone]
    exact hpop _

/-- A call without a pass is a stream operation, or touches at most the queues. -/
theorem step_of_no_pass {ep : Endpoint Q} {call : Call} (h : passStart H ep call = none) :
    (∃ ch c, call = .conn ch c ∧ (ep.step H call).2.toCore = (ep.toCore.onConn ch c).2) ∨
      ∃ outbound events, (ep.step H call).2.toCore =
        { ep.toCore with outbound := outbound, events := events } := by
  cases call with
  | handleDatagram ord now src minute data =>
    exact Or.inr ⟨_, _, step_of_rejected (gate_of_no_pass h)⟩
  | handleTimeout ord now => exact absurd h (by simp [passStart])
  | pollTransmit ord now =>
    simp only [passStart] at h
    split at h
    · exact absurd h (by simp)
    · rename_i hne
      refine Or.inr ⟨ep.outbound.tail, ep.events, ?_⟩
      show (ep.toCore.pollTransmit ord now).2 = _
      unfold Core.pollTransmit Core.popTransmit
      cases hq : ep.outbound with
      | nil => exact absurd hq hne
      | cons t rest => rfl
  | pollEvent =>
    refine Or.inr ?_
    show ∃ outbound events, ep.toCore.pollEvent.2 = _
    unfold Core.pollEvent
    split
    · exact ⟨ep.outbound, _, rfl⟩
    · exact ⟨ep.outbound, ep.events, rfl⟩
  | conn ch c => exact Or.inl ⟨ch, c, rfl, rfl⟩
  | nextTimeout => exact Or.inr ⟨_, _, rfl⟩
  | clientId ch => exact Or.inr ⟨_, _, rfl⟩
  | issuedCidCount => exact Or.inr ⟨_, _, rfl⟩

/-- A pass starts from the state itself, from fired timers, or from a fed datagram. -/
theorem passStart_cases {ep : Endpoint Q} {call : Call} {core : Core Q} {ord : IterOrder}
    {now : Instant} (h : passStart H ep call = some (core, ord, now)) :
    core = ep.toCore ∨ core = ep.fireTimers now ∨
      ∃ g src data, g.Fits ep.toCore ∧ g ≠ .rejected ∧ core = (fed ep.toCore g now src data).2 := by
  cases passStart_starts h with
  | datagram hg => exact Or.inr (Or.inr ⟨_, _, _, gate_fits .., hg, rfl⟩)
  | timeout => exact Or.inr (Or.inl rfl)
  | transmit => exact Or.inl rfl

/-! ## The invariant rules -/

/-- **The invariant rule of a public call.** `J` is what holds where a servicing pass starts; `P`
is what is assumed of that state. -/
theorem step_inv_when {I J P : Core Q → Prop}
    (hstart : ∀ core, I core → J core)
    (hfed : ∀ core g now src data, I core → g.Fits core → g ≠ .rejected →
      J (fed core g now src data).2)
    (htimers : ∀ core now, I core → J (core.fireTimers now))
    (hpass : ∀ core ord now, J core → P core → I (core.serviceConnections ord now))
    (hconn : ∀ core ch call, I core → I (core.onConn ch call).2)
    (hqueues : ∀ core outbound events, I core →
      I { core with outbound := outbound, events := events })
    {ep : Endpoint Q} (call : Call)
    (hP : ∀ core ord now, passStart H ep call = some (core, ord, now) → P core)
    (h : I ep.toCore) : I (ep.step H call).2.toCore := by
  cases hstep : passStart H ep call with
  | some start =>
    obtain ⟨core, ord, now⟩ := start
    have hJ : J core := by
      rcases passStart_cases hstep with rfl | rfl | ⟨g, src, data, hfits, hg, rfl⟩
      · exact hstart _ h
      · exact htimers _ _ h
      · exact hfed _ _ _ _ _ h hfits hg
    obtain ⟨outbound, heq⟩ := step_of_pass hstep
    rw [heq]
    exact hqueues _ _ _ (hpass core ord now hJ (hP core ord now hstep))
  | none =>
    obtain ⟨ch, c, -, heq⟩ | ⟨outbound, events, heq⟩ := step_of_no_pass hstep
    · rw [heq]
      exact hconn _ _ _ h
    · rw [heq]
      exact hqueues _ _ _ h

/-- The rule without an assumption on the passes. -/
theorem step_inv {I J : Core Q → Prop}
    (hstart : ∀ core, I core → J core)
    (hfed : ∀ core g now src data, I core → g.Fits core → g ≠ .rejected →
      J (fed core g now src data).2)
    (htimers : ∀ core now, I core → J (core.fireTimers now))
    (hpass : ∀ core ord now, J core → I (core.serviceConnections ord now))
    (hconn : ∀ core ch call, I core → I (core.onConn ch call).2)
    (hqueues : ∀ core outbound events, I core →
      I { core with outbound := outbound, events := events })
    {ep : Endpoint Q} (call : Call) (h : I ep.toCore) : I (ep.step H call).2.toCore :=
  step_inv_when (P := fun _ => True) hstart hfed htimers
    (fun core ord now hJ _ => hpass core ord now hJ) hconn hqueues call (fun _ _ _ _ => trivial) h

/-- **The rule for bookkeeping**: what reads only the handles, their ids, the slots, the generation
and the events, and survives a registration, a reap and the queues, survives every public call. -/
theorem step_book_inv {I : Core Q → Prop}
    (hbook : ∀ a b : Core Q, Core.Frame a b → (∀ ch, ch ∈ a.connections ↔ ch ∈ b.connections) →
      I b → I a)
    (hqueues : ∀ (core : Core Q) outbound events, I core →
      I { core with outbound := outbound, events := events })
    (hreap : ∀ core l, I core → l.1 ∈ core.connections → I (core.reap l))
    (hregister : ∀ core core' ch conn id, I core → Registered core core' ch conn id → I core')
    {ep : Endpoint Q} (call : Call) (h : I ep.toCore) : I (ep.step H call).2.toCore := by
  refine step_inv (J := I) (fun _ h => h) ?_ ?_ ?_ ?_ hqueues call h
  · intro core g now src data hI hfits hg
    rcases fed_spec now src data hfits hg with ⟨hframe, hmem, -⟩ |
      ⟨_, client, _, ch, conn, _, _, _, _, _, hreg⟩
    · exact hbook _ _ hframe hmem hI
    · exact hregister _ _ ch conn _ hI hreg
  · intro core now hI
    exact hbook _ core ⟨rfl, rfl, rfl, rfl, rfl, rfl⟩ (fun ch => AMap.mem_mapValues) hI
  · intro core ord now hI
    exact Core.serviceConnections_inv hbook hqueues hreap ord now hI
  · intro core ch call hI
    refine hbook _ core ?_ (fun a => Core.mem_onConn) hI
    rw [Core.onConn_eq]
    exact ⟨rfl, rfl, rfl, rfl, rfl, rfl⟩

/-- What every call keeps holds after any run. -/
theorem run_inv {I : Endpoint Q → Prop} (hstep : ∀ ep call, I ep → I (ep.step H call).2)
    (calls : List Call) {ep : Endpoint Q} (h : I ep) : I (ep.run H calls) := by
  induction calls generalizing ep with
  | nil => exact h
  | cons call calls ih => exact ih (hstep ep call h)

/-- Every pass of a run starts from a state in `P`. -/
def PassesMeet (H : KeyedHash) (P : Core Q → Prop) : Endpoint Q → List Call → Prop
  | _, [] => True
  | ep, call :: calls =>
    (∀ core ord now, passStart H ep call = some (core, ord, now) → P core) ∧
      PassesMeet H P (ep.step H call).2 calls

theorem run_inv_when {P : Core Q → Prop} {I : Endpoint Q → Prop}
    (hstep : ∀ ep call, (∀ core ord now, passStart H ep call = some (core, ord, now) → P core) →
      I ep → I (ep.step H call).2)
    (calls : List Call) {ep : Endpoint Q} (hP : PassesMeet H P ep calls) (h : I ep) :
    I (ep.run H calls) := by
  induction calls generalizing ep with
  | nil => exact h
  | cons call calls ih => exact ih hP.2 (hstep ep call hP.1 h)

/-! ## New endpoints -/

theorem newServer_core {tls : Tls Q} {secrets : ServerSecrets} {ep : Endpoint Q}
    (h : newServer tls secrets = .ok ep) :
    ∃ clients, buildClients tls secrets = .ok clients ∧
      ep.toCore = Core.fresh .server clients none := by
  unfold newServer at h
  split at h
  · exact absurd h (by simp)
  · rename_i clients hbuild
    obtain rfl := Except.ok.inj h
    exact ⟨clients, hbuild, rfl⟩

/-- A new client owns the one connection `connect` made, under the first generation. -/
theorem newClient_core {tls : Tls Q} {now : Instant} {minute : UInt32} {cfg : ClientConfigFile}
    {ep : Endpoint Q} {ch : ConnectionHandle} (h : newClient H tls now minute cfg = .ok (ep, ch)) :
    ∃ dialCfg conn,
      (Q.connect Q.new now dialCfg cfg.server SERVER_NAME).out = .ok (ch.quinn, conn) ∧
      ch.generation = 1 ∧
      ep.toCore =
        { (Core.fresh .client [] (some now)).afterCall
            (Q.connect Q.new now dialCfg cfg.server SERVER_NAME) with
          nextGeneration := 2
          byQuinn := (∅ : AMap QuinnHandle ConnectionHandle).insert ch.quinn ch
          pendingCids := []
          cidsByConn :=
            if ((Core.fresh .client [] (some now)).afterCall
                (Q.connect Q.new now dialCfg cfg.server SERVER_NAME)).pendingCids = [] then ∅
            else (∅ : AMap ConnectionHandle (List ConnectionId)).insert ch
              (((∅ : AMap ConnectionHandle (List ConnectionId)).lookup ch).getD [] ++
                ((Core.fresh .client [] (some now)).afterCall
                  (Q.connect Q.new now dialCfg cfg.server SERVER_NAME)).pendingCids)
          connections :=
            (∅ : AMap ConnectionHandle (ConnState Q)).insert ch (ConnState.new conn)
          nextTimeout := ep.nextTimeout } := by
  unfold newClient at h
  split at h
  · exact absurd h (by simp)
  · dsimp only at h
    split at h
    · exact absurd h (by simp)
    · rename_i quinn conn hout
      obtain ⟨rfl, rfl⟩ := Prod.mk.inj (Except.ok.inj h)
      refine ⟨_, conn, hout, rfl, ?_⟩
      simp only [Core.drainPendingCids_eq]
      rfl

/-- A new endpoint has queued nothing, knows no client and owns at most one connection, under a
generation that was handed out. -/
theorem IsNew.spec {ep : Endpoint Q} (h : IsNew H ep) :
    ep.events = [] ∧ ep.clientIds = ∅ ∧
      ∀ ch ∈ ep.connections, ch.generation < ep.nextGeneration := by
  rcases h with ⟨tls, secrets, h⟩ | ⟨tls, now, minute, cfg, ch, h⟩
  · obtain ⟨clients, -, hcore⟩ := newServer_core h
    rw [hcore]
    exact ⟨rfl, rfl, fun ch hch => absurd hch (AList.notMem_empty ch)⟩
  · obtain ⟨dialCfg, conn, hout, hch, hcore⟩ := newClient_core h
    rw [hcore]
    refine ⟨rfl, rfl, fun a ha => ?_⟩
    rcases (AList.mem_insert _).mp ha with rfl | ha
    · show a.generation < 2
      omega
    · exact absurd ha (AList.notMem_empty a)

/-! ## Endpoints of `Mini` -/

/-- Configs without content, and a fixed nonce. -/
def miniTls : Tls Mini where
  Identity := Unit
  generate := .ok ()
  quicServerConfig := fun _ => .ok ()
  quicClientConfig := .ok ()
  tokenKey := ()
  nonce := List.Vector.replicate 8 1
  debugStr := id

def miniAddr : SocketAddr := ⟨.v4 0, 0⟩

def miniPsk : Psk := List.Vector.replicate 32 7

/-- The secrets of a server with one client. -/
def miniSecrets : ServerSecrets := ⟨[⟨"alice", miniPsk⟩]⟩

/-- That server. -/
def miniServer : Endpoint Mini :=
  { Core.fresh .server (miniSecrets.clients.map (clientCrypto (Q := Mini) () ())) none with
    replay := [ReplayGuard.new WINDOW_MINUTES]
    rateLimiter := RateLimiter.new }

theorem miniServer_new : newServer miniTls miniSecrets = .ok miniServer := rfl

/-- A client of it. -/
def miniClient : Endpoint Mini :=
  (dialed (Mini.connect Mini.new 0
    (dialConfig zeroHash miniTls 100 ⟨miniPsk, miniAddr⟩ ()) miniAddr SERVER_NAME) 0 0
    (MiniConn.new miniAddr 0)).1

theorem miniClient_new : IsNew zeroHash miniClient :=
  Or.inr ⟨miniTls, 0, 100, ⟨miniPsk, miniAddr⟩, ⟨0, 1⟩, rfl⟩

/-- The map's own order. -/
def keyOrder : IterOrder := ⟨id, fun l => List.Perm.refl l⟩

/-- A datagram at minute 100. -/
def arrival (data : List UInt8) : Call := .handleDatagram keyOrder 0 miniAddr 100 data

/-- The first flight of the client. -/
def firstFlight : List UInt8 :=
  initialWith (buildDcid zeroHash miniPsk (List.Vector.replicate 8 1) 100)

/-- A datagram to the first connection of an endpoint. -/
def toFirst (frame : List UInt8) : List UInt8 := 0x40 :: (MiniEp.cidOf 0 ++ frame)

end Endpoint

end QuietQuic.Proto
