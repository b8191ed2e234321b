import QuietQuic.Proto.Routing

/-!
# When a slab entry is released

quinn-proto keeps a slab entry for a connection until `handle_event` is given that connection's
Drained event. A pass routes endpoint events before it looks for losses, and it reaps a connection
on a polled `ConnectionLost` or on `is_drained`. A loss that is reported long before the Drained
event is queued (a peer's CONNECTION_CLOSE, a transport error) is therefore reaped without it, and
nobody is left to route the event later: the entry stays.

`released` is the exact extent of that: as long as every loss a pass finds pending belongs to a
connection that is drained by then, the allocated entries are exactly the slots of the live
connections after every call, and every connection a pass reaps had handed its Drained event over.
-/

namespace QuietQuic.Proto

open QuietQuic.Lib

variable {Q : Quinn}

/-- Every allocated entry belongs to a live connection. -/
def NoLeak (S : Q.Slots) (core : Core Q) : Prop :=
  ∀ slot, S.allocated core.inner slot → ∃ ch ∈ core.connections, ch.quinn = slot

/-- A live connection that has handed its Drained event out has lost its entry. -/
def Out (S : Q.Slots) (E : Q.Endings) (core : Core Q) : Prop :=
  ∀ ch s, core.connections.lookup ch = some s → E.drainedOut s.conn →
    ¬ S.allocated core.inner ch.quinn

/-- **The condition**: a loss still to be reported belongs to a drained connection. -/
def LossDrained (E : Q.Endings) (core : Core Q) : Prop :=
  ∀ ch s, core.connections.lookup ch = some s → E.lossPending s.conn → Q.isDrained s.conn = true

variable {S : Q.Slots} {E : Q.Endings} {D : Q.Drains} {core core' : Core Q}

/-! ## One connection -/

/-- Calls that hand no endpoint event out do not hand the Drained event out. -/
theorem drainedOut_of_steps {P : Q.ConnLabel → Prop} (hP : ∀ ev, ¬ P (.endpointEvent ev))
    {c c' : Q.Conn} (h : Q.ConnSteps P c c') : E.drainedOut c' → E.drainedOut c := by
  induction h with
  | refl => exact fun h => h
  | tail _ hstep ih =>
    obtain ⟨l, hl, hstep⟩ := hstep
    intro hout
    rcases E.handedOut hstep hout with hout | ⟨ev, rfl, -⟩
    · exact ih hout
    · exact absurd hl (hP _)

/-- A loss that `service_streams` reports was pending before. -/
theorem lossPending_of_lost (s : ConnState Q) (h : s.serviceStreams.1.lost ≠ none) :
    E.lossPending s.conn := by
  have hinv := ConnState.serviceStreams_inv (s := s)
    (I := fun p => (p.2.lost ≠ none → E.lossPending s.conn) ∧
      (E.lossPending p.1.conn → E.lossPending s.conn)) ?_ ?_ ⟨fun h => absurd rfl h, fun h => h⟩
  · exact hinv.1 h
  · intro t pr ev c ⟨hlost, hback⟩ hpoll
    have hstep : Q.ConnStep t.conn (.poll (some ev)) c := by
      simpa [hpoll] using Quinn.ConnStep.poll t.conn
    constructor
    · intro hne
      rcases ConnState.onPolled_lost ev ({ t with conn := c }, pr) with hsame | ⟨reason, rfl⟩
      · exact hlost (by rw [hsame] at hne; exact hne)
      · exact hback (E.reports hpoll)
    · refine ConnState.onPolled_conn (I := fun c' => E.lossPending c' → E.lossPending s.conn) ?_ ev _
        (fun hc => hback (E.noLoss (l := .poll _) trivial hstep hc))
      exact fun c' hc' h => hc' (E.noLoss (l := .acceptBi _) trivial (.acceptBi c') h)
  · intro t pr c ⟨hlost, hback⟩ hpoll
    have hstep : Q.ConnStep t.conn (.poll none) c := by
      simpa [hpoll] using Quinn.ConnStep.poll t.conn
    exact ⟨hlost, fun hc => hback (E.noLoss (l := .poll _) trivial hstep hc)⟩

/-- **A connection a pass sees lost has handed its Drained event out**, when its loss is a drained
one and its endpoint events are routed. -/
theorem drainedOut_of_lossOf {s : ConnState Q}
    (hloss : Core.lossOf s.serviceStreams.1 s.serviceStreams.2 ≠ none)
    (hdrained : E.lossPending s.conn → Q.isDrained s.conn = true)
    (hquiet : ∃ c, Q.pollEndpointEvents c = (none, s.conn)) : E.drainedOut s.conn := by
  obtain ⟨c, hquiet⟩ := hquiet
  refine E.queued hquiet ?_
  by_cases hlost : s.serviceStreams.1.lost = none
  · have hback : Q.isDrained s.serviceStreams.2.conn = true → Q.isDrained s.conn = true := by
      refine (ConnState.serviceStreams_steps s).keeps
        (I := fun c => Q.isDrained c = true → Q.isDrained s.conn = true) ?_ fun h => h
      intro c l c' hl hstep hc hdr
      exact hc (E.noDrain (by cases l <;> trivial) hstep hdr)
    unfold Core.lossOf at hloss
    rw [hlost] at hloss
    refine hback ?_
    by_contra hc
    exact hloss (by simp [ConnState.isDrained, hc])
  · exact hdrained (lossPending_of_lost s hlost)

/-! ## The invariants through a call -/

/-- Both invariants at once: what holds where a pass starts. -/
structure Tight (S : Q.Slots) (E : Q.Endings) (core : Core Q) : Prop where
  routes : Routes S core
  noLeak : NoLeak S core
  out : Out S E core

namespace Tight

/-- The slab may lose entries nobody holds, and a connection may move on by calls that hand no
Drained event out. -/
theorem frame (h : Tight S E core) (hroutes : Routes S core')
    (hslab : ∀ slot, S.allocated core'.inner slot ↔ S.allocated core.inner slot)
    (hmem : ∀ ch, ch ∈ core'.connections ↔ ch ∈ core.connections)
    (hconn : ∀ ch s', core'.connections.lookup ch = some s' →
      ∃ s, core.connections.lookup ch = some s ∧ (E.drainedOut s'.conn → E.drainedOut s.conn)) :
    Tight S E core' := by
  refine ⟨hroutes, fun slot hslot => ?_, fun ch s' hs' hout => ?_⟩
  · obtain ⟨ch, hch, rfl⟩ := h.noLeak slot ((hslab slot).mp hslot)
    exact ⟨ch, (hmem ch).mpr hch, rfl⟩
  · obtain ⟨s, hs, hback⟩ := hconn ch s' hs'
    rw [hslab]
    exact h.out ch s hs (hback hout)

theorem timers {now : Instant} (h : Tight S E core) (hroutes : Routes S (core.fireTimers now)) :
    Tight S E (core.fireTimers now) := by
  refine h.frame hroutes (fun _ => Iff.rfl) (fun _ => AMap.mem_mapValues) fun ch s' hs' => ?_
  obtain ⟨s, hs, hsteps⟩ := core.fireTimers_moved now ch s' hs'
  exact ⟨s, hs, drainedOut_of_steps (fun ev h => by simp at h) hsteps⟩

theorem conn (h : Tight S E core) {ch : ConnectionHandle} {call : ConnCall}
    (hroutes : Routes S (core.onConn ch call).2) : Tight S E (core.onConn ch call).2 := by
  refine h.frame hroutes ?_ (fun _ => Core.mem_onConn) fun a s' hs' => ?_
  · rw [Core.onConn_eq]
    exact fun _ => Iff.rfl
  · obtain ⟨s, hs, hsteps⟩ := core.onConn_moved ch call a s' hs'
    exact ⟨s, hs, drainedOut_of_steps (fun ev h => h) hsteps⟩

theorem handOver (h : Tight S E core) (now : Instant) (src : SocketAddr) (data : List UInt8) :
    Tight S E (core.handOver now src data).2 := by
  have hroutes := h.routes.handOver now src data
  have hkeep := S.keeps (.handle core.inner core.serverConfig now src data)
  rw [Core.handOver_eq] at hroutes ⊢
  exact h.frame hroutes hkeep (fun _ => Iff.rfl) fun _ s' hs' => ⟨s', hs', fun h => h⟩

/-- Feeding a datagram: an accepted connection takes its own entry, and has handed nothing out. -/
theorem feed (h : Tight S E core) (hheld : AllHeld S core) {now : Instant} {src : SocketAddr}
    {data : List UInt8} {admitted : Option Nat}
    (hroutes : Routes S (core.feed now src data admitted).2) :
    Tight S E (core.feed now src data admitted).2 := by
  have hh := h.handOver now src data
  rcases Core.feed_cases core now src data admitted with h' | h' | ⟨ch, cev, h'⟩ |
    ⟨incoming, clientIdx, hsome, ⟨buf, hacc, h'⟩ | ⟨quinn, conn, buf, hacc, h'⟩⟩
  · rw [h']
    exact hh
  · rw [h'] at hroutes ⊢
    exact hh.frame hroutes (fun _ => Iff.rfl) (fun _ => Iff.rfl) fun _ s' hs' => ⟨s', hs', fun h => h⟩
  · rw [h'] at hroutes ⊢
    refine hh.frame hroutes (fun _ => Iff.rfl) (fun _ => AMap.mem_modify) fun a s' hs' => ?_
    obtain ⟨s, hs, hsteps⟩ := Core.updateConn_moved (P := fun l => ∃ ev, l = .handleEvent ev)
      (core.handOver now src data).2 ch (fun c => .single ⟨cev, rfl⟩ (.handleEvent c cev)) a s' hs'
    exact ⟨s, hs, drainedOut_of_steps (fun ev h => by simp at h) hsteps⟩
  · rw [h'] at hroutes ⊢
    exact hh.frame hroutes (S.keeps (.acceptErr _ _ _ _ _ hacc)) (fun _ => Iff.rfl)
      fun _ s' hs' => ⟨s', hs', fun h => h⟩
  · rw [h'] at hroutes ⊢
    obtain ⟨hnew, hslab⟩ := S.allocates (.acceptOk _ _ _ _ _ _ _ hacc)
    have hfree : ∀ a ∈ (core.handOver now src data).2.connections, a.quinn ≠ quinn := by
      intro a ha hq
      exact hnew (hq ▸ hheld.handOver now src data a ha)
    rw [Core.register_eq] at hroutes ⊢
    refine ⟨hroutes, fun slot hslot => ?_, fun a s' hs' hout hslot => ?_⟩
    · rcases (hslab slot).mp hslot with rfl | hslot
      · exact ⟨_, (AList.mem_insert _).mpr (Or.inl rfl), rfl⟩
      · obtain ⟨a, ha, rfl⟩ := hh.noLeak slot hslot
        exact ⟨a, (AList.mem_insert _).mpr (Or.inr ha), rfl⟩
    · have hlook : ((core.handOver now src data).2.connections.insert
        (⟨quinn, (core.handOver now src data).2.nextGeneration⟩ : ConnectionHandle)
          (ConnState.new conn)).lookup a = some s' := hs'
      rw [AMap.lookup_insert_eq] at hlook
      split at hlook
      · obtain rfl := Option.some.inj hlook
        exact E.accepted hacc hout
      · rcases (hslab _).mp hslot with hq | hslot
        · exact hfree a (AMap.mem_iff_lookup.mpr ⟨s', hlook⟩) hq
        · exact hh.out a s' hlook hout hslot

theorem fed (D : Q.Drains) (h : Tight S E core) (hheld : AllHeld S core) {g : Endpoint.Gate}
    (hfits : g.Fits core) (now : Instant) (src : SocketAddr) (data : List UInt8) :
    Tight S E (Endpoint.fed core g now src data).2 := by
  have hroutes := h.routes.fed D hheld hfits now src data
  cases g with
  | rejected => exact h
  | bypass => exact h.feed hheld hroutes
  | admitted clientIdx =>
    have hinstall : Tight S E (Endpoint.install core clientIdx) :=
      ⟨⟨h.routes.slots, h.routes.ids, h.routes.held⟩, h.noLeak, h.out⟩
    exact hinstall.feed hheld hroutes

/-- One routed endpoint event: a Drained event takes the entry of its own connection away. -/
theorem deliver {ch : ConnectionHandle} {s : ConnState Q} {ev : Q.EpEvent} {c : Q.Conn}
    (h : Tight S E core) (hroutes : Routes S (core.deliver ch c ev))
    (hs : core.connections.lookup ch = some s)
    (hpoll : Q.pollEndpointEvents s.conn = (some ev, c)) : Tight S E (core.deliver ch c ev) := by
  have hinner : (core.deliver ch c ev).inner = (Q.epHandleEvent core.inner ch.quinn ev).ep := by
    rw [Core.deliver_eq, Core.drainPendingCids_eq]
    rfl
  have hcall := Quinn.EpStep.ofEvent core.inner ch.quinn ev
  unfold Quinn.SlabEffect.ofEvent at hcall
  have hshrink : ∀ slot, S.allocated (core.deliver ch c ev).inner slot →
      S.allocated core.inner slot ∧ (Q.isDrainedEvent ev = true → slot ≠ ch.quinn) := by
    intro slot hslot
    rw [hinner] at hslot
    split at hcall
    · have := (S.releases hcall slot).mp hslot
      exact ⟨this.2, fun _ => this.1⟩
    · rename_i hdr
      exact ⟨(S.keeps hcall slot).mp hslot, fun h => absurd h hdr⟩
  refine ⟨hroutes, fun slot hslot => ?_, fun a s' hs' hout hslot => ?_⟩
  · obtain ⟨a, ha, rfl⟩ := h.noLeak slot (hshrink slot hslot).1
    exact ⟨a, Core.mem_deliver.mpr ha, rfl⟩
  · obtain ⟨hold, hne⟩ := hshrink _ hslot
    rw [Core.lookup_deliver] at hs'
    split at hs'
    · rename_i ha
      subst ha
      rw [hs, Option.map_some] at hs'
      obtain rfl := Option.some.inj hs'
      have hout' : E.drainedOut c := by
        change E.drainedOut (core.delivered a c ev) at hout
        unfold Core.delivered at hout
        split at hout
        · rename_i cev _
          rcases E.handedOut (.handleEvent c cev) hout with hout | ⟨ev', hev, -⟩
          · exact hout
          · exact absurd hev (by simp)
        · exact hout
      have hstep : Q.ConnStep s.conn (.endpointEvent (some ev)) c := by
        simpa [hpoll] using Quinn.ConnStep.endpointEvent s.conn
      rcases E.handedOut hstep hout' with hout | ⟨ev', hev, hdr⟩
      · exact h.out a s hs hout hold
      · simp only [Quinn.ConnLabel.endpointEvent.injEq, Option.some.injEq] at hev
        subst hev
        exact hne hdr rfl
    · exact h.out a s' hs' hout hold

end Tight

/-- Routing an endpoint event ends no connection, so the condition survives it. -/
theorem LossDrained.deliver (D : Q.Drains) {ch : ConnectionHandle} {s : ConnState Q}
    {ev : Q.EpEvent} {c : Q.Conn} (h : LossDrained E core)
    (hs : core.connections.lookup ch = some s)
    (hpoll : Q.pollEndpointEvents s.conn = (some ev, c)) :
    LossDrained E (core.deliver ch c ev) := by
  have hstep : Q.ConnStep s.conn (.endpointEvent (some ev)) c := by
    simpa [hpoll] using Quinn.ConnStep.endpointEvent s.conn
  intro a s' hs' hloss
  rw [Core.lookup_deliver] at hs'
  split at hs'
  · rw [hs, Option.map_some] at hs'
    obtain rfl := Option.some.inj hs'
    have hc : E.lossPending c → Q.isDrained c = true := fun hc =>
      D.stays hstep (h ch s hs (E.noLoss (l := .endpointEvent _) trivial hstep hc))
    change E.lossPending (core.delivered ch c ev) at hloss
    show Q.isDrained (core.delivered ch c ev) = true
    unfold Core.delivered at hloss ⊢
    split at hloss
    · rename_i cev hout
      exact D.stays (.handleEvent c cev) (hc (E.replyNoLoss hout hloss))
    · exact hc hloss
  · exact h a s' hs' hloss

/-- **Stage 1** keeps the invariants and the condition. -/
theorem Tight.routed (D : Q.Drains) (h : Tight S E core) (hcond : LossDrained E core)
    (ord : IterOrder) (now : Instant) :
    Tight S E (core.routed ord now) ∧ LossDrained E (core.routed ord now) := by
  refine Core.routeAll_inv (I := fun core => Tight S E core ∧ LossDrained E core) ?_ ?_ _
    ⟨⟨⟨h.routes.slots, h.routes.ids, h.routes.held⟩, h.noLeak, h.out⟩, hcond⟩
  · intro core ch s ev c ⟨hI, hcond⟩ hs hpoll
    exact ⟨hI.deliver (hI.routes.deliver D hs hpoll) hs hpoll, hcond.deliver D hs hpoll⟩
  · intro core ch s c ⟨hI, hcond⟩ hs hpoll
    have hstep : Q.ConnStep s.conn (.endpointEvent none) c := by
      simpa [hpoll] using Quinn.ConnStep.endpointEvent s.conn
    have hlook : ∀ a s', (core.updateConn ch fun _ => c).connections.lookup a = some s' →
        a = ch ∧ s'.conn = c ∨ core.connections.lookup a = some s' := by
      intro a s' hs'
      rw [Core.lookup_updateConn, hs] at hs'
      split at hs'
      · rename_i ha
        obtain rfl := Option.some.inj hs'
        exact Or.inl ⟨ha, rfl⟩
      · exact Or.inr hs'
    have hroutes : Routes S (core.updateConn ch fun _ => c) := by
      refine hI.routes.moved (t := { s with conn := c }) hs (D.stays hstep)
        ⟨rfl, rfl, rfl, rfl, rfl, rfl⟩ rfl fun a => ?_
      rw [Core.lookup_updateConn, hs]
      rfl
    refine ⟨hI.frame hroutes (fun _ => Iff.rfl) (fun _ => AMap.mem_modify) fun a s' hs' => ?_,
      fun a s' hs' hloss => ?_⟩
    · rcases hlook a s' hs' with ⟨rfl, hc⟩ | hs'
      · refine ⟨s, hs, fun hout => ?_⟩
        rw [hc] at hout
        rcases E.handedOut hstep hout with hout | ⟨ev, hev, -⟩
        · exact hout
        · exact absurd hev (by simp)
      · exact ⟨s', hs', fun h => h⟩
    · rcases hlook a s' hs' with ⟨rfl, hc⟩ | hs'
      · rw [hc] at hloss ⊢
        exact D.stays hstep (hcond a s hs (E.noLoss (l := .endpointEvent _) trivial hstep hloss))
      · exact hcond a s' hs' hloss

/-- **What a pass reaps has handed its Drained event out**, under the condition. -/
theorem drainedOut_of_mem_lost (D : Q.Drains) (h : Tight S E core) (hcond : LossDrained E core)
    {ord : IterOrder} {now : Instant} {l : ConnectionHandle × ConnectionError}
    (hl : l ∈ (core.serviced ord now).2.lost) :
    ∃ s, (core.routed ord now).connections.lookup l.1 = some s ∧ E.drainedOut s.conn := by
  obtain ⟨s, hs, hloss⟩ := Core.mem_lost.mp hl
  have hmem : l.1 ∈ core.handles ord :=
    Core.mem_handles.mpr (Core.mem_routed.mp (AMap.mem_iff_lookup.mpr ⟨s, hs⟩))
  exact ⟨s, hs, drainedOut_of_lossOf (by rw [hloss]; simp)
    ((h.routed D hcond ord now).2 l.1 s hs) (Core.routeAll_quiet _ _ l.1 s hmem hs)⟩

/-- **A pass under the condition leaks nothing.** -/
theorem Tight.pass (D : Q.Drains) (h : Tight S E core) (hcond : LossDrained E core)
    (ord : IterOrder) (now : Instant) :
    Tight S E (core.serviceConnections ord now) ∧
      AllHeld S (core.serviceConnections ord now) := by
  obtain ⟨hroutes, hheld⟩ := h.routes.pass D ord now
  obtain ⟨hrouted, -⟩ := h.routed D hcond ord now
  have hinner := Core.inner_serviceConnections core ord now
  refine ⟨⟨hroutes, fun slot hslot => ?_, fun ch s hs hout => ?_⟩, hheld⟩
  · rw [hinner] at hslot
    obtain ⟨ch, hch, rfl⟩ := hrouted.noLeak slot hslot
    obtain ⟨s, hs⟩ := AMap.mem_iff_lookup.mp hch
    refine ⟨ch, ?_, rfl⟩
    cases hloss : Core.lossOf s.serviceStreams.1 s.serviceStreams.2 with
    | none =>
      exact AMap.mem_iff_lookup.mpr
        ⟨_, (Core.lookup_serviceConnections core ord now ch _).mpr ⟨s, hs, hloss, rfl⟩⟩
    | some reason =>
      -- A lost connection has handed its Drained event out, so its entry is gone.
      obtain ⟨t, ht, hout⟩ := drainedOut_of_mem_lost D h hcond (l := (ch, reason))
        (Core.mem_lost.mpr ⟨s, hs, hloss⟩)
      exact absurd hslot (hrouted.out ch t ht hout)
  · obtain ⟨t, ht, -, rfl⟩ := (Core.lookup_serviceConnections core ord now ch s).mp hs
    rw [hinner]
    refine hrouted.out ch t ht (drainedOut_of_steps ?_ (Core.serviceOne_steps now ch t) hout)
    exact fun ev h => h

/-! ## Whole runs -/

variable {H : KeyedHash}

theorem Tight.step (D : Q.Drains) {ep : Endpoint Q} (call : Call)
    (hcond : ∀ core ord now, Endpoint.passStart H ep call = some (core, ord, now) →
      LossDrained E core)
    (h : Tight S E ep.toCore ∧ AllHeld S ep.toCore) :
    Tight S E (ep.step H call).2.toCore ∧ AllHeld S (ep.step H call).2.toCore := by
  refine Endpoint.step_inv_when (I := fun core => Tight S E core ∧ AllHeld S core)
    (J := Tight S E) (P := LossDrained E) (fun _ h => h.1) ?_ ?_ ?_ ?_ ?_ call hcond h
  · exact fun core g now src data h hfits _ => h.1.fed D h.2 hfits now src data
  · exact fun core now h => h.1.timers (h.1.routes.timers D now)
  · exact fun core ord now h hcond => h.pass D hcond ord now
  · refine fun core ch call h => ⟨h.1.conn (h.1.routes.conn D ch call), fun a ha => ?_⟩
    have hheld := h.2 a (Core.mem_onConn.mp ha)
    rw [Core.onConn_eq]
    exact hheld
  · exact fun core _ _ h =>
      ⟨⟨⟨h.1.routes.slots, h.1.routes.ids, h.1.routes.held⟩, h.1.noLeak, h.1.out⟩, h.2⟩

theorem tight_new (S : Q.Slots) (E : Q.Endings) {ep : Endpoint Q} (h : Endpoint.IsNew H ep) :
    Tight S E ep.toCore := by
  refine ⟨(settled_new S h).1, ?_, ?_⟩
  · rcases h with ⟨tls, secrets, h⟩ | ⟨tls, now, minute, cfg, ch, h⟩
    · obtain ⟨clients, -, hcore⟩ := Endpoint.newServer_core h
      rw [hcore]
      exact fun slot hslot => absurd hslot (S.new slot)
    · obtain ⟨dialCfg, conn, hout, -, hcore⟩ := Endpoint.newClient_core h
      obtain ⟨-, hslab⟩ := S.allocates
        (.connectOk Q.new now dialCfg cfg.server SERVER_NAME _ conn hout)
      rw [hcore]
      intro slot hslot
      rcases (hslab slot).mp hslot with rfl | hslot
      · exact ⟨ch, (AList.mem_insert _).mpr (Or.inl rfl), rfl⟩
      · exact absurd hslot (S.new slot)
  · rcases h with ⟨tls, secrets, h⟩ | ⟨tls, now, minute, cfg, ch, h⟩
    · obtain ⟨clients, -, hcore⟩ := Endpoint.newServer_core h
      rw [hcore]
      exact fun a s hs => absurd hs (by simp [Core.fresh, AList.lookup_empty])
    · obtain ⟨dialCfg, conn, hout, -, hcore⟩ := Endpoint.newClient_core h
      intro a s hs hout'
      rw [hcore] at hs
      have hlook : ((∅ : AMap ConnectionHandle (ConnState Q)).insert ch
        (ConnState.new conn)).lookup a = some s := hs
      rw [AMap.lookup_insert_eq, AList.lookup_empty] at hlook
      split at hlook
      · obtain rfl := Option.some.inj hlook
        exact absurd hout' (E.connected hout)
      · exact absurd hlook (by simp)

/-- **Slab entries are released with their connections, exactly as far as losses are drained.** In
every run all of whose passes find only drained connections with a loss to report, the allocated
slab entries after every call are exactly the slots of the live connections, and every connection
a further such pass reaps has handed its Drained event to `handle_event`. -/
theorem released (H : KeyedHash) (S : Q.Slots) (D : Q.Drains) (E : Q.Endings) (ep₀ : Endpoint Q)
    (hnew : Endpoint.IsNew H ep₀) (calls : List Call)
    (hcond : Endpoint.PassesMeet H (LossDrained E) ep₀ calls) :
    (∀ slot, S.allocated (ep₀.run H calls).inner slot ↔ slot ∈ (ep₀.run H calls).byQuinn) ∧
    ∀ call core ord now,
      Endpoint.passStart H (ep₀.run H calls) call = some (core, ord, now) → LossDrained E core →
      ∀ l ∈ (core.serviced ord now).2.lost,
        ∃ s, (core.routed ord now).connections.lookup l.1 = some s ∧ E.drainedOut s.conn := by
  obtain ⟨htight, hheld⟩ : Tight S E (ep₀.run H calls).toCore ∧ AllHeld S (ep₀.run H calls).toCore :=
    Endpoint.run_inv_when (I := fun ep => Tight S E ep.toCore ∧ AllHeld S ep.toCore)
      (fun ep call hP h => Tight.step D call hP h) calls hcond
      ⟨tight_new S E hnew, (settled_new S hnew).2⟩
  refine ⟨fun slot => ⟨fun hslot => ?_, fun hslot => ?_⟩, fun call core ord now hpass hcore l hl => ?_⟩
  · obtain ⟨ch, hch, rfl⟩ := htight.noLeak slot hslot
    exact AMap.mem_iff_lookup.mpr ⟨ch, (htight.routes.slots _ _).mpr ⟨hch, rfl⟩⟩
  · obtain ⟨ch, hlook⟩ := AMap.mem_iff_lookup.mp hslot
    obtain ⟨hch, rfl⟩ := (htight.routes.slots slot ch).mp hlook
    exact hheld ch hch
  · have hstart : Tight S E core := by
      rcases Endpoint.passStart_cases hpass with rfl | rfl | ⟨g, src, data, hfits, -, rfl⟩
      · exact htight
      · exact htight.timers (htight.routes.timers D now)
      · exact htight.fed D hheld hfits now src data
    exact drainedOut_of_mem_lost D hstart hcore hl

/-- The client closes, its close timer fires, and the pass after that reaps the connection. -/
def closeThenTimer : List Call :=
  [.conn ⟨0, 1⟩ (.close 0 0 []), .handleTimeout Endpoint.keyOrder 0]

theorem released_after_timer :
    Endpoint.IsNew zeroHash Endpoint.miniClient ∧
      Endpoint.PassesMeet zeroHash (LossDrained Mini.endings) Endpoint.miniClient closeThenTimer ∧
      (Endpoint.miniClient.run zeroHash closeThenTimer).connections.keys = [] ∧
      ¬ Mini.slots.allocated (Endpoint.miniClient.run zeroHash closeThenTimer).inner 0 := by
  have hcond : Endpoint.PassesMeet zeroHash (LossDrained Mini.endings) Endpoint.miniClient
      closeThenTimer := by
    refine ⟨fun core ord now h => absurd h (by simp [Endpoint.passStart]),
      fun core ord now h ch s hs _ => ?_, trivial⟩
    obtain ⟨rfl, -⟩ := Prod.mk.inj (Option.some.inj h)
    have hdrained : ∀ x ∈ ((Endpoint.miniClient.run zeroHash (closeThenTimer.take 1)).fireTimers
        0).connections.entries, Mini.isDrained x.2.conn = true := by decide
    exact hdrained ⟨ch, s⟩ (AList.mem_lookup_iff.mp hs)
  obtain ⟨hslots, -⟩ := released zeroHash Mini.slots Mini.drains Mini.endings Endpoint.miniClient
    Endpoint.miniClient_new closeThenTimer hcond
  refine ⟨Endpoint.miniClient_new, hcond, by decide, fun h => ?_⟩
  exact absurd ((hslots 0).mp h) (by decide)

/-- The peer closes the client's connection. -/
def peerCloses : List Call := [Endpoint.arrival (Endpoint.toFirst [0x1c])]

/-- **A slab entry outlives its connection.** After the peer's CONNECTION_CLOSE the connection is
reaped, and its entry is still allocated: the Drained event, which the close timer would have
queued, is never asked for. -/
theorem slot_outlives_connection :
    (Endpoint.miniClient.run zeroHash peerCloses).connections.keys = [] ∧
    Mini.slots.allocated (Endpoint.miniClient.run zeroHash peerCloses).inner 0 ∧
    ¬ ∀ slot, Mini.slots.allocated (Endpoint.miniClient.run zeroHash peerCloses).inner slot ↔
      slot ∈ (Endpoint.miniClient.run zeroHash peerCloses).byQuinn := by
  have hallocated : Mini.slots.allocated (Endpoint.miniClient.run zeroHash peerCloses).inner 0 :=
    List.mem_of_elem_eq_true (by decide)
  exact ⟨by decide, hallocated, fun h => absurd ((h 0).mp hallocated) (by decide)⟩

end QuietQuic.Proto
