import QuietQuic.Proto.Actionable
import QuietQuic.Tokio.System

/-!
# The endpoint's work on one connection

What a call of the endpoint does to a connection that is live after it, as actions of that
connection's `Sys`: the datagram's event, the timer, the endpoint events of stage 1, and stage 2.

* `pass_drives`: a servicing pass.
* `call_drives`: a whole call, for a connection that was live before it or that it made.
-/

namespace QuietQuic.Tokio

open QuietQuic.Lib QuietQuic.Proto

variable {Q : Quinn} {H : KeyedHash}

/-- Actions of the endpoint bring a connection from `s` to `s'` and queue `events`, in any system
around it. -/
def Drove (ch : ConnectionHandle) (s s' : ConnState Q) (events : List Event) : Prop :=
  ∃ actions : List (Action Q), ∀ sys : Sys Q, sys.handle = ch → sys.core = s →
    sys.run actions = { sys with core := s', events := sys.events ++ events }

namespace Drove

variable {ch : ConnectionHandle} {s s' s'' : ConnState Q} {events events' : List Event}

theorem refl (ch : ConnectionHandle) (s : ConnState Q) : Drove ch s s [] := by
  refine ⟨[], ?_⟩
  rintro sys rfl rfl
  rw [List.append_nil]
  rfl

theorem trans (h : Drove ch s s' events) (h' : Drove ch s' s'' events') :
    Drove ch s s'' (events ++ events') := by
  obtain ⟨actions, hrun⟩ := h
  obtain ⟨actions', hrun'⟩ := h'
  refine ⟨actions ++ actions', fun sys hhandle hcore => ?_⟩
  rw [Sys.run, List.foldl_append]
  change (sys.run actions).run actions' = _
  rw [hrun sys hhandle hcore,
    hrun' { sys with core := s', events := sys.events ++ events } hhandle rfl]
  simp only [List.append_assoc]

/-- One call of the endpoint on the quinn-proto connection. -/
theorem conn {a : Action Q} {f : Q.Conn → Q.Conn}
    (ha : ∀ sys : Sys Q, sys.step a = sys.withConn (f sys.core.conn)) (ch : ConnectionHandle)
    (s : ConnState Q) : Drove ch s { s with conn := f s.conn } [] := by
  refine ⟨[a], ?_⟩
  rintro sys rfl rfl
  show sys.step a = _
  rw [ha, List.append_nil]
  rfl

/-- Stage 2 of a pass, on a connection it sees no loss of. -/
theorem service (now : Instant) (ch : ConnectionHandle) (s : ConnState Q)
    (h : Core.lossOf s.serviceStreams.1 s.serviceStreams.2 = none) :
    Drove ch s (Core.serviceOne now ch s).1 (Core.progressEvents ch s.serviceStreams.1) := by
  have hlost : (Core.serviceOne now ch s).2.lost = [] := by
    simp [Core.serviceOne, h]
  refine ⟨[.service now], ?_⟩
  rintro sys rfl rfl
  show sys.step (.service now) = _
  simp only [Sys.step, hlost, if_true]
  rfl

end Drove

/-! ## A pass -/

/-- Stage 1 hands the connection's endpoint events out, and what comes back. -/
theorem routeAll_drives (handles : List ConnectionHandle) (core : Core Q) {ch : ConnectionHandle}
    {s' : ConnState Q} (h : (core.routeAll handles).connections.lookup ch = some s') :
    ∃ s, core.connections.lookup ch = some s ∧ Drove ch s s' [] := by
  have hpolled : ∀ (a : ConnectionHandle) (t : ConnState Q), Drove a t
      { t with conn := (Q.pollEndpointEvents t.conn).2 } [] :=
    fun a t => .conn (a := .endpointEvent) (f := fun c => (Q.pollEndpointEvents c).2)
      (fun _ => rfl) a t
  refine Core.routeAll_inv (I := fun core' => ∀ s', core'.connections.lookup ch = some s' →
    ∃ s, core.connections.lookup ch = some s ∧ Drove ch s s' []) ?_ ?_ handles
    (fun s' hs' => ⟨s', hs', .refl ch s'⟩) s' h
  · intro core' a t ev c hI ht hpoll s' hs'
    rw [Core.lookup_deliver] at hs'
    split at hs'
    · rename_i ha
      subst ha
      rw [ht] at hs'
      obtain rfl := Option.some.inj hs'
      obtain ⟨s, hs, hdrove⟩ := hI t ht
      refine ⟨s, hs, hdrove.trans ?_⟩
      have hout := hpolled ch t
      rw [hpoll] at hout
      unfold Core.delivered
      split
      · rename_i cev hcev
        exact hout.trans (.conn (a := .handleEvent cev) (f := fun c => Q.connHandleEvent c cev)
          (fun _ => rfl) ch { t with conn := c })
      · exact hout
    · exact hI s' hs'
  · intro core' a t c hI ht hpoll s' hs'
    rw [Core.lookup_updateConn] at hs'
    split at hs'
    · rename_i ha
      subst ha
      rw [ht] at hs'
      obtain rfl := Option.some.inj hs'
      obtain ⟨s, hs, hdrove⟩ := hI t ht
      have hout := hpolled ch t
      rw [hpoll] at hout
      exact ⟨s, hs, hdrove.trans hout⟩
    · exact hI s' hs'

/-- **A servicing pass**, on a connection that is live after it. -/
theorem pass_drives {core : Core Q} {ord : IterOrder} {now : Instant} {ch : ConnectionHandle}
    {s' : ConnState Q}
    (h : (core.serviceConnections ord now).connections.lookup ch = some s') :
    ∃ s, core.connections.lookup ch = some s ∧
      Drove ch s s' (naming ch (passEvents core ord now)) := by
  obtain ⟨t, ht, hloss, rfl⟩ := (Core.lookup_serviceConnections core ord now ch s').mp h
  obtain ⟨s, hs, hrouted⟩ := routeAll_drives _ _ ht
  refine ⟨s, hs, ?_⟩
  have hserviced := hrouted.trans (.service now ch t hloss)
  rw [naming_passEvents, ht]
  dsimp only
  rw [hloss]
  simpa using hserviced

/-! ## A call -/

/-- A fed datagram, on a connection that is live after it. -/
theorem feed_drives {core : Core Q} {now : Instant} {src : SocketAddr} {data : List UInt8}
    {admitted : Option Nat} {ch : ConnectionHandle} {s' : ConnState Q}
    (h : (core.feed now src data admitted).2.connections.lookup ch = some s') :
    (∃ s, core.connections.lookup ch = some s ∧ Drove ch s s' []) ∨
      ch.generation = core.nextGeneration ∧ ∃ conn, s' = .new conn := by
  rcases Core.feed_cases core now src data admitted with hfeed | hfeed | ⟨a, cev, hfeed⟩ |
    ⟨incoming, clientIdx, -, ⟨buf, -, hfeed⟩ | ⟨quinn, conn, buf, -, hfeed⟩⟩
  · rw [hfeed, Core.handOver_eq] at h
    exact .inl ⟨s', h, .refl ch s'⟩
  · rw [hfeed, Core.handOver_eq] at h
    exact .inl ⟨s', h, .refl ch s'⟩
  · rw [hfeed, Core.handOver_eq] at h
    change (Core.updateConn _ a fun c =>
      Q.connHandleEvent c cev).connections.lookup ch = some s' at h
    rw [Core.lookup_updateConn] at h
    split at h
    · rename_i ha
      subst ha
      obtain ⟨s, hs, rfl⟩ := Option.map_eq_some_iff.mp h
      exact .inl ⟨s, hs, .conn (a := .handleEvent cev) (f := fun c => Q.connHandleEvent c cev)
        (fun _ => rfl) ch s⟩
    · exact .inl ⟨s', h, .refl ch s'⟩
  · rw [hfeed, Core.handOver_eq] at h
    exact .inl ⟨s', h, .refl ch s'⟩
  · rw [hfeed, Core.register_eq, Core.handOver_eq] at h
    change (core.connections.insert ⟨quinn, core.nextGeneration⟩ (.new conn)).lookup ch =
      some s' at h
    rw [AMap.lookup_insert_eq] at h
    split at h
    · rename_i hch
      exact .inr ⟨congrArg ConnectionHandle.generation hch, conn, (Option.some.inj h).symm⟩
    · exact .inl ⟨s', h, .refl ch s'⟩

/-- A connection that is live after a call: it comes from the one before the call, or is new, by the
endpoint's actions, and what they queue is what the call queues about it. -/
def Driven (ep : Endpoint Q) (ch : ConnectionHandle) (s' : ConnState Q) (after : List Event) :
    Prop :=
  ∃ events, naming ch after = naming ch ep.events ++ events ∧
    ((∃ s, ep.connections.lookup ch = some s ∧ Drove ch s s' events) ∨
      ch.generation = ep.nextGeneration ∧ ∃ conn, Drove ch (.new conn) s' events)

/-- The timers that have run out fire. -/
theorem fireTimers_drives {core : Core Q} {now : Instant} {ch : ConnectionHandle}
    {s' : ConnState Q} (h : (core.fireTimers now).connections.lookup ch = some s') :
    ∃ s, core.connections.lookup ch = some s ∧ Drove ch s s' [] := by
  change (AMap.mapValues _ core.connections).lookup ch = some s' at h
  rw [AMap.lookup_mapValues, Option.map_eq_some_iff] at h
  obtain ⟨s, hs, rfl⟩ := h
  refine ⟨s, hs, ?_⟩
  split
  · split
    · exact .conn (a := .handleTimeout now) (f := fun c => Q.handleTimeout c now)
        (fun _ => rfl) ch s
    · exact .refl ch s
  · exact .refl ch s

/-- A pass behind what the call did first. -/
theorem pass_driven {ep : Endpoint Q} {core core' : Core Q} {ord : IterOrder} {now : Instant}
    {ch : ConnectionHandle} {s' : ConnState Q} (hevents : core.events = ep.events)
    (hcore' : core'.connections = (core.serviceConnections ord now).connections)
    (hevents' : core'.events = (core.serviceConnections ord now).events)
    (h : core'.connections.lookup ch = some s')
    (hfirst : ∀ s, core.connections.lookup ch = some s →
      (∃ s₀, ep.connections.lookup ch = some s₀ ∧ Drove ch s₀ s []) ∨
        ch.generation = ep.nextGeneration ∧ ∃ conn, s = .new conn) :
    Driven ep ch s' core'.events := by
  rw [hcore'] at h
  obtain ⟨s, hs, hdrove⟩ := pass_drives h
  refine ⟨naming ch (passEvents core ord now), ?_, ?_⟩
  · rw [hevents', events_pass, naming_append, hevents]
  · rcases hfirst s hs with ⟨s₀, hs₀, hbefore⟩ | ⟨hgen, conn, rfl⟩
    · exact .inl ⟨s₀, hs₀, hbefore.trans hdrove⟩
    · exact .inr ⟨hgen, conn, hdrove⟩

/-- **A call of the loop's**, on a connection that is live after it. -/
theorem call_drives {ep : Endpoint Q} {call : Call} {ch : ConnectionHandle} {s' : ConnState Q}
    (hcall : (∃ ord now src minute data, call = .handleDatagram ord now src minute data) ∨
      (∃ ord now, call = .handleTimeout ord now) ∨ ∃ ord now, call = .pollTransmit ord now)
    (h : (ep.step H call).2.connections.lookup ch = some s') :
    Driven ep ch s' (ep.step H call).2.events := by
  have hsame : (ep.step H call).2.connections = ep.connections →
      (ep.step H call).2.events = ep.events → Driven ep ch s' (ep.step H call).2.events := by
    intro hconns hevents
    rw [hconns] at h
    rw [hevents]
    exact ⟨[], (List.append_nil _).symm, .inl ⟨s', h, .refl ch s'⟩⟩
  cases hpass : Endpoint.passStart H ep call with
  | some start =>
    obtain ⟨core, ord, now⟩ := start
    obtain ⟨outbound, hstep⟩ := Endpoint.step_of_pass hpass
    have hconns : (ep.step H call).2.toCore.connections =
        (core.serviceConnections ord now).connections := by rw [hstep]
    have hevents : (ep.step H call).2.toCore.events =
        (core.serviceConnections ord now).events := by rw [hstep]
    cases Endpoint.passStart_starts hpass with
    | timeout =>
      have hfired : (ep.fireTimers now).events = ep.events := rfl
      exact pass_driven hfired hconns hevents h fun s hs => .inl (fireTimers_drives hs)
    | transmit => exact pass_driven rfl hconns hevents h fun s hs => .inl ⟨s, hs, .refl ch s⟩
    | @datagram ord now src minute data hg =>
      have hfits := Endpoint.gate_fits (H := H) ep now src minute data
      have hfed : (Endpoint.fed ep.toCore (ep.gate H now src minute data).1 now src data).2.events =
          ep.events := by
        rcases Endpoint.fed_spec now src data hfits hg with ⟨hframe, -⟩ |
          ⟨_, _, _, _, _, _, _, _, _, _, hreg⟩
        · exact hframe.events
        · exact hreg.events
      refine pass_driven hfed hconns hevents h fun s hs => ?_
      unfold Endpoint.fed at hs
      split at hs
      · exact .inl ⟨s, hs, .refl ch s⟩
      · exact feed_drives hs
      · rename_i clientIdx _
        exact @feed_drives _ (Endpoint.install ep.toCore clientIdx) _ _ _ _ _ _ hs
  | none =>
    obtain ⟨ord, now, src, minute, data, rfl⟩ | ⟨ord, now, rfl⟩ | ⟨ord, now, rfl⟩ := hcall
    · have hstep := @Endpoint.step_of_rejected _ H _ ord _ _ _ _ (Endpoint.gate_of_no_pass hpass)
      exact hsame (congrArg Core.connections hstep) (congrArg Core.events hstep)
    · exact absurd hpass (by simp [Endpoint.passStart])
    · simp only [Endpoint.passStart] at hpass
      split at hpass
      · exact absurd hpass (by simp)
      · rename_i hne
        have hpop : (ep.toCore.pollTransmit ord now).2.connections = ep.connections ∧
            (ep.toCore.pollTransmit ord now).2.events = ep.events := by
          unfold Core.pollTransmit Core.popTransmit
          cases hq : ep.outbound with
          | nil => exact absurd hq hne
          | cons t rest => exact ⟨rfl, rfl⟩
        exact hsame hpop.1 hpop.2

end QuietQuic.Tokio
