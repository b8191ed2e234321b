import QuietQuic.Proto.Endpoint

/-!
# What a servicing pass does

Spec lemmas for the stages of `service_connections` and for the small table updates, from which
the invariants over runs are derived without unfolding the stages again.

* `routeAll_inv`: an invariant of one delivered endpoint event is one of stage 1, and
  `routeAll_quiet`: after stage 1 every live connection has answered `None`.
* `serviceAll_lookup`, `serviceAll_staged`: stage 2 in closed form. Each connection is serviced
  once, from the state stage 1 left it in, and what is staged is the concatenation over the
  handles.
* `reapAll_inv`, `reapAll_lookup`, `reapAll_events`: stage 3 removes exactly the lost handles and
  queues one `ConnectionLost` for each.
* `lookup_serviceConnections`, `events_serviceConnections`: the pass as a whole.
-/

namespace QuietQuic.Proto

open QuietQuic.Lib

namespace Core

variable {Q : Quinn}

/-! ## The table updates -/

/-- `drain_pending_cids` touches two tables. -/
theorem drainPendingCids_eq (core : Core Q) (ch : ConnectionHandle) :
    core.drainPendingCids ch =
      { core with
        pendingCids := []
        cidsByConn :=
          if core.pendingCids = [] then core.cidsByConn
          else core.cidsByConn.insert ch
            ((core.cidsByConn.lookup ch).getD [] ++ core.pendingCids) } := by
  unfold drainPendingCids
  split
  · rename_i h
    cases core
    simp only at h
    subst h
    rfl
  · rfl

/-- `prune_connection_cids` touches two tables. -/
theorem pruneConnectionCids_eq (core : Core Q) (ch : ConnectionHandle) :
    core.pruneConnectionCids ch =
      { core with
        cidsByConn := core.cidsByConn.erase ch
        issuedCids := ((core.cidsByConn.lookup ch).getD []).foldl Finset.erase core.issuedCids } := by
  unfold pruneConnectionCids
  split
  · rename_i h
    have herase : core.cidsByConn.erase ch = core.cidsByConn :=
      AList.ext (List.kerase_of_notMem_keys (AList.lookup_eq_none.mp h))
    rw [herase, h]
    rfl
  · rename_i cids h
    rw [h]
    rfl

@[simp] theorem drainPendingCids_connections (core : Core Q) (ch : ConnectionHandle) :
    (core.drainPendingCids ch).connections = core.connections := by
  rw [drainPendingCids_eq]

theorem lookup_updateConn (core : Core Q) (ch a : ConnectionHandle) (f : Q.Conn → Q.Conn) :
    (core.updateConn ch f).connections.lookup a =
      if a = ch then (core.connections.lookup ch).map fun s => { s with conn := f s.conn }
      else core.connections.lookup a :=
  AMap.lookup_modify ..

/-- The connection `deliver` leaves, from the one that handed the event out. -/
def delivered (core : Core Q) (ch : ConnectionHandle) (c : Q.Conn) (ev : Q.EpEvent) : Q.Conn :=
  match (Q.epHandleEvent core.inner ch.quinn ev).out with
  | some cev => Q.connHandleEvent c cev
  | none => c

/-- `deliver`, apart from the connections: the call and its drain. -/
theorem deliver_eq (core : Core Q) (ch : ConnectionHandle) (c : Q.Conn) (ev : Q.EpEvent) :
    core.deliver ch c ev =
      { ((core.afterCall (Q.epHandleEvent core.inner ch.quinn ev)).drainPendingCids ch) with
        connections := (core.deliver ch c ev).connections } := by
  unfold deliver
  dsimp only
  split <;> simp only [drainPendingCids_eq] <;> rfl

theorem lookup_deliver (core : Core Q) (ch a : ConnectionHandle) (c : Q.Conn) (ev : Q.EpEvent) :
    (core.deliver ch c ev).connections.lookup a =
      if a = ch then
        (core.connections.lookup ch).map fun s => { s with conn := core.delivered ch c ev }
      else core.connections.lookup a := by
  have hinner : (core.updateConn ch fun _ => c).inner = core.inner := rfl
  unfold deliver delivered
  simp only [hinner]
  cases (Q.epHandleEvent core.inner ch.quinn ev).out with
  | none =>
    simp only [drainPendingCids_connections, Core.afterCall]
    exact lookup_updateConn ..
  | some cev =>
    simp only [lookup_updateConn, drainPendingCids_connections, Core.afterCall, if_true]
    split
    · simp [Option.map_map, Function.comp_def]
    · rfl

theorem mem_deliver {core : Core Q} {ch a : ConnectionHandle} {c : Q.Conn} {ev : Q.EpEvent} :
    a ∈ (core.deliver ch c ev).connections ↔ a ∈ core.connections := by
  rw [← AList.lookup_isSome, ← AList.lookup_isSome, lookup_deliver]
  split
  · rename_i ha
    rw [ha, Option.isSome_map]
  · rfl

/-! ## Feeding a datagram -/

/-- `handOver` makes the call and may queue a response. -/
theorem handOver_eq (core : Core Q) (now : Instant) (src : SocketAddr) (data : List UInt8) :
    (core.handOver now src data).2 =
      { core.afterCall (Q.handle core.inner core.serverConfig now src data) with
        outbound := (core.handOver now src data).2.outbound } := by
  unfold handOver
  dsimp only
  split <;> rfl

/-- `register` in one equation. -/
theorem register_eq (core : Core Q) (quinn : QuinnHandle) (conn : Q.Conn) (buf : List UInt8)
    (clientIdx : Nat) :
    core.register quinn conn buf clientIdx =
      (⟨quinn, core.nextGeneration⟩,
        { core with
          nextGeneration := core.nextGeneration + 1
          byQuinn := core.byQuinn.insert quinn ⟨quinn, core.nextGeneration⟩
          outbound :=
            if buf = [] then core.outbound
            else core.outbound ++ [⟨Q.remoteAddress conn, buf⟩]
          pendingCids := []
          cidsByConn :=
            if core.pendingCids = [] then core.cidsByConn
            else core.cidsByConn.insert ⟨quinn, core.nextGeneration⟩
              ((core.cidsByConn.lookup ⟨quinn, core.nextGeneration⟩).getD [] ++ core.pendingCids)
          connections := core.connections.insert ⟨quinn, core.nextGeneration⟩ (ConnState.new conn)
          clientIds :=
            match core.clients[clientIdx]? with
            | some client => core.clientIds.insert ⟨quinn, core.nextGeneration⟩ client.clientId
            | none => core.clientIds }) := by
  unfold register allocateHandle pushTransmit
  simp only [drainPendingCids_eq]
  split <;> rfl

/-- **The ways a fed datagram can go**: no connection involved (with the early return before the
sweep), an event for a live connection, an accept that failed, and an accept that made a
connection. -/
theorem feed_cases (core : Core Q) (now : Instant) (src : SocketAddr) (data : List UInt8)
    (admitted : Option Nat) :
    core.feed now src data admitted = (.dropped, (core.handOver now src data).2) ∨
    core.feed now src data admitted =
        (.dropped, (core.handOver now src data).2.sweepOrphanCids) ∨
    (∃ ch cev, core.feed now src data admitted =
        (.accepted ch, ((core.handOver now src data).2.updateConn ch fun c =>
          Q.connHandleEvent c cev).sweepOrphanCids)) ∨
    ∃ incoming clientIdx, admitted = some clientIdx ∧
      ((∃ buf, (Q.accept (core.handOver now src data).2.inner core.serverConfig incoming now).out =
          (none, buf) ∧
        core.feed now src data admitted =
          (.dropped, ((core.handOver now src data).2.afterCall
            (Q.accept (core.handOver now src data).2.inner core.serverConfig incoming
              now)).sweepOrphanCids)) ∨
      ∃ quinn conn buf,
        (Q.accept (core.handOver now src data).2.inner core.serverConfig incoming now).out =
          (some (quinn, conn), buf) ∧
        core.feed now src data admitted =
          (.accepted ⟨quinn, core.nextGeneration⟩,
            (((core.handOver now src data).2.afterCall
              (Q.accept (core.handOver now src data).2.inner core.serverConfig incoming
                now)).register quinn conn buf clientIdx).2.sweepOrphanCids)) := by
  have hcfg : (core.handOver now src data).2.serverConfig = core.serverConfig := by
    rw [handOver_eq]
    rfl
  have hgen : (core.handOver now src data).2.nextGeneration = core.nextGeneration := by
    rw [handOver_eq]
    rfl
  unfold feed
  dsimp only
  split
  · exact Or.inl rfl
  · cases (core.handOver now src data).1 with
    | none => exact Or.inr (Or.inl rfl)
    | some event =>
      cases event with
      | response => exact Or.inr (Or.inl rfl)
      | connectionEvent quinn cev =>
        unfold react
        dsimp only
        cases hq : (core.handOver now src data).2.byQuinn.lookup quinn with
        | none => exact Or.inr (Or.inl rfl)
        | some ch => exact Or.inr (Or.inr (Or.inl ⟨ch, cev, rfl⟩))
      | newConnection incoming =>
        unfold react
        dsimp only
        split
        · rename_i clientIdx _ _
          refine Or.inr (Or.inr (Or.inr ⟨incoming, clientIdx, rfl, ?_⟩))
          unfold admitIncoming
          dsimp only
          rw [hcfg]
          cases hacc : (Q.accept (core.handOver now src data).2.inner core.serverConfig incoming
            now).out with
          | mk out buf =>
            cases out with
            | none => exact Or.inl ⟨buf, rfl, rfl⟩
            | some made =>
              obtain ⟨quinn, conn⟩ := made
              refine Or.inr ⟨quinn, conn, buf, rfl, ?_⟩
              simp only [register_eq]
              rw [← hgen]
              rfl
        · exact Or.inr (Or.inl rfl)

/-- A long header's DCID is read as it stands. -/
theorem readDcidAny_of_peek {data dcid : List UInt8} (h : peekDcid data = some dcid) :
    readDcidAny data = some dcid := by
  cases data with
  | nil => simp [peekDcid] at h
  | cons first rest =>
    unfold readDcidAny
    dsimp only
    split
    · exact h
    · rename_i hshort
      have hzero : first &&& 0x80 = 0 := by simpa using hshort
      simp [peekDcid, hzero] at h

/-! ## The calls each part makes on a connection -/

/-- A round of the transmit loop is one `poll_transmit`, whatever it decides. -/
theorem transmitRound_conn {now : Instant} {p p' : Q.Conn × List Transmit}
    (h : transmitRound now p = .again p' ∨ transmitRound now p = .done p') :
    p'.1 = (Q.pollTransmit p.1 now).2 := by
  unfold transmitRound at h
  split at h
  · rename_i c hpoll
    rcases h with h | h
    · exact absurd h (by simp)
    · rw [← Ctl.done.inj h, hpoll]
  · rename_i destination buf c hpoll
    split at h
    · rcases h with h | h
      · exact absurd h (by simp)
      · rw [← Ctl.done.inj h, hpoll]
    · rcases h with h | h
      · rw [← Ctl.again.inj h, hpoll]
      · exact absurd h (by simp)

theorem drainTransmits_steps (now : Instant) (c : Q.Conn) :
    Q.ConnSteps (fun l => l = .transmit now) c (drainTransmits now c).1 := by
  refine loop_inv (I := fun p : Q.Conn × List Transmit =>
    Q.ConnSteps (fun l => l = .transmit now) c p.1) ?_ ?_ _ .refl
  · intro p p' hp hround
    rw [transmitRound_conn (.inl hround)]
    exact hp.tail ⟨_, rfl, .transmit p.1 now⟩
  · intro p p' hp hround
    rw [transmitRound_conn (.inr hround)]
    exact hp.tail ⟨_, rfl, .transmit p.1 now⟩

/-- The calls stage 2 makes. -/
def IsPass : Q.ConnLabel → Prop
  | .poll _ | .acceptBi _ | .transmit _ => True
  | _ => False

theorem serviceOne_steps (now : Instant) (ch : ConnectionHandle) (s : ConnState Q) :
    Q.ConnSteps IsPass s.conn (serviceOne now ch s).1.conn := by
  have hpoll := (ConnState.serviceStreams_steps s).mono (R := IsPass) fun l hl => by
    cases l <;> first | exact hl | trivial
  have htransmit := (drainTransmits_steps now s.serviceStreams.2.conn).mono (R := IsPass)
    fun l hl => by
      subst hl
      trivial
  exact hpoll.trans htransmit

/-- The calls a caller's own operation makes. -/
def IsCaller : Q.ConnLabel → Prop
  | .endpointEvent _ | .handleEvent _ | .handleTimeout _ | .transmit _ => False
  | _ => True

theorem call_steps (s : ConnState Q) (call : ConnCall) :
    Q.ConnSteps IsCaller s.conn (s.call call).2.conn := by
  cases call with
  | openBi => exact s.openBi_steps.mono fun l hl => by subst hl; trivial
  | acceptBi => exact s.acceptBi_steps.mono fun l ⟨_, hl⟩ => by subst hl; trivial
  | streamRead id len => exact (s.streamRead_steps id len).mono fun l ⟨_, hl⟩ => by subst hl; trivial
  | streamWrite id buf =>
    exact (s.streamWrite_steps id buf).mono fun l ⟨_, hl⟩ => by subst hl; trivial
  | streamFinish id => exact (s.streamFinish_steps id).mono fun l ⟨_, hl⟩ => by subst hl; trivial
  | streamReset id code =>
    exact (s.streamReset_steps id code).mono fun l ⟨_, hl⟩ => by subst hl; trivial
  | streamStop id code => exact (s.streamStop_steps id code).mono fun l hl => by subst hl; trivial
  | serviceStreams =>
    exact s.serviceStreams_steps.mono fun l hl => by cases l <;> first | exact hl | trivial
  | close now code reason =>
    exact .single (l := .close) trivial (.close s.conn now code reason)
  | forgetStream | forgetRecv | forgetSend | sendFin | isDrained | isDirty | clearDirty =>
    exact .refl

/-- A caller's operation adds and removes no connection. -/
theorem mem_onConn {core : Core Q} {ch a : ConnectionHandle} {call : ConnCall} :
    a ∈ (core.onConn ch call).2.connections ↔ a ∈ core.connections := by
  unfold onConn
  split
  · rfl
  · rename_i s hs
    show a ∈ core.connections.insert ch (s.call call).2 ↔ a ∈ core.connections
    rw [AList.mem_insert]
    refine ⟨fun ha => ha.elim (fun ha => ?_) (fun ha => ha), Or.inr⟩
    rw [ha]
    exact AMap.mem_iff_lookup.mpr ⟨s, hs⟩

/-- A caller's operation touches the connections only. -/
theorem onConn_eq (core : Core Q) (ch : ConnectionHandle) (call : ConnCall) :
    (core.onConn ch call).2 =
      { core with connections := (core.onConn ch call).2.connections } := by
  unfold onConn
  split <;> rfl

/-- Each connection of `a` is one of `b`, moved on by calls in `P`. -/
def Moved (P : Q.ConnLabel → Prop) (a b : Core Q) : Prop :=
  ∀ ch s', a.connections.lookup ch = some s' →
    ∃ s, b.connections.lookup ch = some s ∧ Q.ConnSteps P s.conn s'.conn

theorem Moved.refl {P : Q.ConnLabel → Prop} {a b : Core Q} (h : a.connections = b.connections) :
    Moved P a b :=
  fun _ s' hs' => ⟨s', h ▸ hs', .refl⟩

theorem Moved.trans {P : Q.ConnLabel → Prop} {a b c : Core Q} (h : Moved P a b)
    (h' : Moved P b c) : Moved P a c := by
  intro ch s'' hs''
  obtain ⟨s', hs', hsteps'⟩ := h ch s'' hs''
  obtain ⟨s, hs, hsteps⟩ := h' ch s' hs'
  exact ⟨s, hs, hsteps.trans hsteps'⟩

/-- One connection is replaced by a state its calls lead to. -/
theorem moved_of_one {P : Q.ConnLabel → Prop} {a b : Core Q} {ch : ConnectionHandle}
    {s t : ConnState Q} (hs : b.connections.lookup ch = some s) (hsteps : Q.ConnSteps P s.conn t.conn)
    (hlook : ∀ x, a.connections.lookup x = if x = ch then some t else b.connections.lookup x) :
    Moved P a b := by
  intro x s' hs'
  rw [hlook] at hs'
  split at hs'
  · rename_i hx
    subst hx
    obtain rfl := Option.some.inj hs'
    exact ⟨s, hs, hsteps⟩
  · exact ⟨s', hs', .refl⟩

theorem onConn_moved (core : Core Q) (ch : ConnectionHandle) (call : ConnCall) :
    Moved IsCaller (core.onConn ch call).2 core := by
  unfold onConn
  split
  · exact Moved.refl rfl
  · rename_i s hs
    exact moved_of_one hs (call_steps s call) fun x => AMap.lookup_insert_eq ..

theorem updateConn_moved {P : Q.ConnLabel → Prop} (core : Core Q) (ch : ConnectionHandle)
    {f : Q.Conn → Q.Conn} (hf : ∀ c, Q.ConnSteps P c (f c)) :
    Moved P (core.updateConn ch f) core := by
  cases hs : core.connections.lookup ch with
  | none =>
    intro x s' hs'
    rw [lookup_updateConn, hs] at hs'
    split at hs'
    · exact absurd hs' (by simp)
    · exact ⟨s', hs', .refl⟩
  | some s =>
    refine moved_of_one (t := { s with conn := f s.conn }) hs (hf s.conn) fun x => ?_
    rw [lookup_updateConn, hs]
    rfl

theorem fireTimers_moved (core : Core Q) (now : Instant) :
    Moved (fun l => l = .handleTimeout now) (core.fireTimers now) core := by
  intro ch s' hs'
  have hmap : (AMap.mapValues _ core.connections).lookup ch = some s' := hs'
  rw [AMap.lookup_mapValues, Option.map_eq_some_iff] at hmap
  obtain ⟨s, hs, rfl⟩ := hmap
  refine ⟨s, hs, ?_⟩
  split
  · split
    · exact .single rfl (.handleTimeout s.conn now)
    · exact .refl
  · exact .refl

/-! ## Stage 1 -/

theorem routeRound_again {ch : ConnectionHandle} {core core' : Core Q}
    (h : routeRound ch core = .again core') :
    ∃ s ev c, core.connections.lookup ch = some s ∧
      Q.pollEndpointEvents s.conn = (some ev, c) ∧ core' = core.deliver ch c ev := by
  unfold routeRound at h
  split at h
  · exact absurd h (by simp)
  · rename_i s hs
    split at h
    · exact absurd h (by simp)
    · rename_i ev c hpoll
      exact ⟨s, ev, c, hs, hpoll, (Ctl.again.inj h).symm⟩

theorem routeRound_done {ch : ConnectionHandle} {core core' : Core Q}
    (h : routeRound ch core = .done core') :
    core.connections.lookup ch = none ∧ core' = core ∨
      ∃ s c, core.connections.lookup ch = some s ∧ Q.pollEndpointEvents s.conn = (none, c) ∧
        core' = core.updateConn ch fun _ => c := by
  unfold routeRound at h
  split at h
  · rename_i hs
    exact Or.inl ⟨hs, (Ctl.done.inj h).symm⟩
  · rename_i s hs
    split at h
    · rename_i c hpoll
      exact Or.inr ⟨s, c, hs, hpoll, (Ctl.done.inj h).symm⟩
    · exact absurd h (by simp)

/-- An invariant of every delivered endpoint event, and of the final `None`, holds after the loop
of one connection. -/
theorem route_inv {I : Core Q → Prop} {ch : ConnectionHandle}
    (hdeliver : ∀ core s ev c, I core → core.connections.lookup ch = some s →
      Q.pollEndpointEvents s.conn = (some ev, c) → I (core.deliver ch c ev))
    (hnone : ∀ core s c, I core → core.connections.lookup ch = some s →
      Q.pollEndpointEvents s.conn = (none, c) → I (core.updateConn ch fun _ => c))
    {core : Core Q} (h : I core) : I (core.route ch) := by
  refine loop_inv ?_ ?_ _ h
  · intro core core' hI hround
    obtain ⟨s, ev, c, hs, hpoll, rfl⟩ := routeRound_again hround
    exact hdeliver core s ev c hI hs hpoll
  · intro core core' hI hround
    obtain ⟨-, rfl⟩ | ⟨s, c, hs, hpoll, rfl⟩ := routeRound_done hround
    · exact hI
    · exact hnone core s c hI hs hpoll

/-- **The invariant rule of stage 1.** -/
theorem routeAll_inv {I : Core Q → Prop}
    (hdeliver : ∀ core ch s ev c, I core → core.connections.lookup ch = some s →
      Q.pollEndpointEvents s.conn = (some ev, c) → I (core.deliver ch c ev))
    (hnone : ∀ core ch s c, I core → core.connections.lookup ch = some s →
      Q.pollEndpointEvents s.conn = (none, c) → I (core.updateConn ch fun _ => c)) :
    ∀ (handles : List ConnectionHandle) {core : Core Q}, I core → I (core.routeAll handles)
  | [], _, h => h
  | ch :: handles, _, h =>
    routeAll_inv hdeliver hnone handles
      (route_inv (fun core => hdeliver core ch) (fun core => hnone core ch) h)

theorem route_lookup_ne {ch a : ConnectionHandle} (hne : a ≠ ch) (core : Core Q) :
    (core.route ch).connections.lookup a = core.connections.lookup a := by
  refine route_inv (I := fun core' => core'.connections.lookup a = core.connections.lookup a)
    ?_ ?_ rfl
  · intro core' s ev c h _ _
    rw [lookup_deliver, if_neg hne, h]
  · intro core' s c h _ _
    rw [lookup_updateConn, if_neg hne, h]

theorem mem_route {ch a : ConnectionHandle} {core : Core Q} :
    a ∈ (core.route ch).connections ↔ a ∈ core.connections := by
  refine route_inv (I := fun core' => a ∈ core'.connections ↔ a ∈ core.connections) ?_ ?_ Iff.rfl
  · exact fun core' s ev c h _ _ => mem_deliver.trans h
  · exact fun core' s c h _ _ => AMap.mem_modify.trans h

/-- The loop of one connection leaves when it answers `None`: the fuel is enough. -/
theorem route_quiet (core : Core Q) (ch : ConnectionHandle) :
    ∀ s, (core.route ch).connections.lookup ch = some s →
      ∃ c, Q.pollEndpointEvents c = (none, s.conn) := by
  have hrank : ∀ core core' : Core Q, True → routeRound ch core = .again core' →
      True ∧ routeRank ch core' < routeRank ch core := by
    intro core core' _ hround
    obtain ⟨s, ev, c, hs, hpoll, rfl⟩ := routeRound_again hround
    obtain ⟨hlt, hlt'⟩ := Q.endpoint_lt _ _ _ hpoll
    refine ⟨trivial, ?_⟩
    simp only [routeRank, lookup_deliver, if_true, hs, Option.map_some, delivered]
    split
    · rename_i cev hout
      exact hlt' _ _ _ hout
    · exact hlt
  obtain ⟨t, -, hround⟩ := loop_exit (n := routeRank ch core + 1) (s := core) hrank
    (Nat.lt_succ_self _) trivial
  intro s hs
  change ((loop (routeRound ch) (routeRank ch core + 1) core).connections.lookup ch) = some s at hs
  obtain ⟨hnone, heq⟩ | ⟨s', c, hs', hpoll, heq⟩ := routeRound_done hround
  · rw [heq, hnone] at hs
    exact absurd hs (by simp)
  · rw [heq, lookup_updateConn, if_pos rfl, hs'] at hs
    obtain rfl := Option.some.inj hs
    exact ⟨s'.conn, hpoll⟩

theorem routeAll_lookup_of_notMem {ch : ConnectionHandle} :
    ∀ (handles : List ConnectionHandle) (core : Core Q), ch ∉ handles →
      (core.routeAll handles).connections.lookup ch = core.connections.lookup ch
  | [], _, _ => rfl
  | a :: handles, core, hnot => by
    simp only [List.mem_cons, not_or] at hnot
    exact (routeAll_lookup_of_notMem handles (core.route a) hnot.2).trans
      (route_lookup_ne hnot.1 core)

/-- **After stage 1 every serviced connection has answered `None`.** -/
theorem routeAll_quiet : ∀ (handles : List ConnectionHandle) (core : Core Q) (ch : ConnectionHandle)
    (s : ConnState Q), ch ∈ handles → (core.routeAll handles).connections.lookup ch = some s →
      ∃ c, Q.pollEndpointEvents c = (none, s.conn)
  | [], _, _, _, hch, _ => absurd hch List.not_mem_nil
  | a :: handles, core, ch, s, hch, hs => by
    change ((core.route a).routeAll handles).connections.lookup ch = some s at hs
    by_cases hrest : ch ∈ handles
    · exact routeAll_quiet handles _ ch s hrest hs
    · obtain rfl : ch = a := (List.mem_cons.mp hch).resolve_right hrest
      rw [routeAll_lookup_of_notMem handles _ hrest] at hs
      exact route_quiet core ch s hs

theorem mem_routeAll {a : ConnectionHandle} : ∀ (handles : List ConnectionHandle) {core : Core Q},
    a ∈ (core.routeAll handles).connections ↔ a ∈ core.connections
  | [], _ => Iff.rfl
  | _ :: handles, _ => (mem_routeAll handles).trans mem_route

/-- The calls stage 1 makes. -/
def IsRouting : Q.ConnLabel → Prop
  | .endpointEvent _ | .handleEvent _ => True
  | _ => False

theorem deliver_moved {core : Core Q} {ch : ConnectionHandle} {s : ConnState Q} {ev : Q.EpEvent}
    {c : Q.Conn} (hs : core.connections.lookup ch = some s)
    (hpoll : Q.pollEndpointEvents s.conn = (some ev, c)) :
    Moved IsRouting (core.deliver ch c ev) core := by
  have hfirst : Q.ConnSteps IsRouting s.conn c := by
    refine .single (l := .endpointEvent (some ev)) trivial ?_
    simpa [hpoll] using Quinn.ConnStep.endpointEvent s.conn
  refine moved_of_one (t := { s with conn := core.delivered ch c ev }) hs ?_ fun x => ?_
  · show Q.ConnSteps IsRouting s.conn (core.delivered ch c ev)
    unfold delivered
    split
    · rename_i cev _
      exact hfirst.tail ⟨.handleEvent cev, trivial, .handleEvent c cev⟩
    · exact hfirst
  · rw [lookup_deliver, hs]
    rfl

theorem routeAll_moved (handles : List ConnectionHandle) (core : Core Q) :
    Moved IsRouting (core.routeAll handles) core := by
  refine routeAll_inv (I := fun core' => Moved IsRouting core' core) ?_ ?_ _ (Moved.refl rfl)
  · exact fun core' ch s ev c h hs hpoll => (deliver_moved hs hpoll).trans h
  · intro core' ch s c h hs hpoll
    refine Moved.trans (moved_of_one (t := { s with conn := c }) hs ?_ fun x => ?_) h
    · refine .single (l := .endpointEvent none) trivial ?_
      simpa [hpoll] using Quinn.ConnStep.endpointEvent s.conn
    · rw [lookup_updateConn, hs]
      rfl

/-! ## Stage 2 -/

/-- What handle `ch` stages from a state. -/
def stagedOf (now : Instant) (core : Core Q) (ch : ConnectionHandle) : Staged :=
  match core.connections.lookup ch with
  | none => {}
  | some s => (serviceOne now ch s).2

theorem serviceAt_lookup (now : Instant) (p : Core Q × Staged) (ch a : ConnectionHandle) :
    (serviceAt now p ch).1.connections.lookup a =
      if a = ch then (p.1.connections.lookup a).map fun s => (serviceOne now a s).1
      else p.1.connections.lookup a := by
  unfold serviceAt
  split
  · rename_i hs
    split
    · rename_i h
      rw [h, hs]
      rfl
    · rfl
  · rename_i s hs
    simp only [AMap.lookup_insert_eq]
    split
    · rename_i h
      rw [h, hs]
      rfl
    · rfl

/-- Stage 2 touches the connections only. -/
theorem serviceAt_eq (now : Instant) (p : Core Q × Staged) (ch : ConnectionHandle) :
    (serviceAt now p ch).1 =
        { p.1 with connections := (serviceAt now p ch).1.connections } ∧
      (serviceAt now p ch).2 = p.2.append (stagedOf now p.1 ch) := by
  unfold serviceAt stagedOf
  cases p.1.connections.lookup ch with
  | none => exact ⟨rfl, by simp [Staged.append]⟩
  | some s => exact ⟨rfl, rfl⟩

/-- Stage 2 from any point of its loop, in closed form: the frame, the connections, and what is
staged. -/
theorem foldl_serviceAt (now : Instant) : ∀ (handles : List ConnectionHandle)
    (p : Core Q × Staged), handles.Nodup →
      (handles.foldl (serviceAt now) p).1 =
          { p.1 with connections := (handles.foldl (serviceAt now) p).1.connections } ∧
        (∀ a, (handles.foldl (serviceAt now) p).1.connections.lookup a =
          if a ∈ handles then (p.1.connections.lookup a).map fun s => (serviceOne now a s).1
          else p.1.connections.lookup a) ∧
        (handles.foldl (serviceAt now) p).2 =
          (handles.map (stagedOf now p.1)).foldl Staged.append p.2
  | [], p, _ => ⟨rfl, fun a => by simp, rfl⟩
  | ch :: handles, p, hnd => by
    obtain ⟨hch, hnd⟩ := List.nodup_cons.mp hnd
    obtain ⟨hframe, hlook, hstaged⟩ := foldl_serviceAt now handles (serviceAt now p ch) hnd
    obtain ⟨hframe', hstaged'⟩ := serviceAt_eq now p ch
    rw [List.foldl_cons]
    refine ⟨?_, fun a => ?_, ?_⟩
    · rw [hframe, hframe']
    · rw [hlook, serviceAt_lookup]
      by_cases ha : a = ch
      · subst ha
        simp [hch]
      · simp [ha]
    · have hsame : ∀ a ∈ handles, stagedOf now (serviceAt now p ch).1 a = stagedOf now p.1 a := by
        intro a ha
        have hne : a ≠ ch := fun h => hch (h ▸ ha)
        simp only [stagedOf, serviceAt_lookup, if_neg hne]
      rw [hstaged, hstaged', List.map_cons, List.foldl_cons, List.map_congr_left hsame]

/-- **Stage 2 services each connection once**, from the state stage 1 left it in. -/
theorem serviceAll_lookup (core : Core Q) (now : Instant) {handles : List ConnectionHandle}
    (hnd : handles.Nodup) (a : ConnectionHandle) :
    (core.serviceAll now handles).1.connections.lookup a =
      if a ∈ handles then (core.connections.lookup a).map fun s => (serviceOne now a s).1
      else core.connections.lookup a :=
  (foldl_serviceAt now handles (core, {}) hnd).2.1 a

theorem serviceAll_eq (core : Core Q) (now : Instant) {handles : List ConnectionHandle}
    (hnd : handles.Nodup) :
    (core.serviceAll now handles).1 =
      { core with connections := (core.serviceAll now handles).1.connections } :=
  (foldl_serviceAt now handles (core, {}) hnd).1

theorem foldl_append_staged : ∀ (l : List Staged) (a : Staged),
    l.foldl Staged.append a =
      ⟨a.events ++ l.flatMap Staged.events, a.transmits ++ l.flatMap Staged.transmits,
        a.lost ++ l.flatMap Staged.lost⟩
  | [], a => by simp
  | b :: l, a => by
    rw [List.foldl_cons, foldl_append_staged l]
    simp [Staged.append]

/-- **What stage 2 stages** is the concatenation of what each handle stages. -/
theorem serviceAll_staged (core : Core Q) (now : Instant) {handles : List ConnectionHandle}
    (hnd : handles.Nodup) :
    (core.serviceAll now handles).2 =
      ⟨handles.flatMap fun ch => (stagedOf now core ch).events,
        handles.flatMap fun ch => (stagedOf now core ch).transmits,
        handles.flatMap fun ch => (stagedOf now core ch).lost⟩ := by
  have h := (foldl_serviceAt now handles (core, {}) hnd).2.2
  rw [foldl_append_staged] at h
  rw [serviceAll, h]
  simp [List.flatMap_map]

/-! ## Stage 3 -/

/-- **The invariant rule of stage 3.** -/
theorem reapAll_inv {I : Core Q → Prop} {lost : List (ConnectionHandle × ConnectionError)}
    (hreap : ∀ core, ∀ l ∈ lost, I core → l.1 ∈ core.connections → I (core.reap l))
    {core : Core Q} (h : I core) : I (core.reapAll lost) := by
  induction lost generalizing core with
  | nil => exact h
  | cons l lost ih =>
    refine ih (fun core l' hl' => hreap core l' (List.mem_cons_of_mem _ hl')) ?_
    by_cases hl : l.1 ∈ core.connections
    · exact hreap core l List.mem_cons_self h hl
    · rw [reap, if_neg hl]
      exact h

/-- `reap` of a live connection, in one equation. -/
theorem reap_eq {core : Core Q} {l : ConnectionHandle × ConnectionError}
    (h : l.1 ∈ core.connections) :
    core.reap l =
      { core with
        connections := core.connections.erase l.1
        byQuinn := core.byQuinn.erase l.1.quinn
        clientIds := core.clientIds.erase l.1
        cidsByConn := core.cidsByConn.erase l.1
        issuedCids := ((core.cidsByConn.lookup l.1).getD []).foldl Finset.erase core.issuedCids
        events := core.events ++ [.connectionLost l.1 l.2] } := by
  rw [reap, if_pos h]
  simp only [pruneConnectionCids_eq]

theorem reap_lookup (core : Core Q) (l : ConnectionHandle × ConnectionError)
    (a : ConnectionHandle) :
    (core.reap l).connections.lookup a =
      if a = l.1 then none else core.connections.lookup a := by
  by_cases h : l.1 ∈ core.connections
  · rw [reap_eq h]
    exact AMap.lookup_erase_eq ..
  · rw [reap, if_neg h]
    split
    · rename_i ha
      rw [ha]
      exact AList.lookup_eq_none.mpr h
    · rfl

/-- **Stage 3 removes exactly the lost handles.** -/
theorem reapAll_lookup : ∀ (lost : List (ConnectionHandle × ConnectionError)) (core : Core Q)
    (a : ConnectionHandle), (core.reapAll lost).connections.lookup a =
      if a ∈ lost.map Prod.fst then none else core.connections.lookup a
  | [], _, _ => by simp [reapAll]
  | l :: lost, core, a => by
    show ((core.reap l).reapAll lost).connections.lookup a = _
    rw [reapAll_lookup lost, reap_lookup, List.map_cons]
    by_cases ha : a = l.1
    · simp [ha]
    · simp only [List.mem_cons, ha, false_or, if_false]

/-- **Stage 3 queues one `ConnectionLost` for each lost handle**, in order. -/
theorem reapAll_events : ∀ (lost : List (ConnectionHandle × ConnectionError)) (core : Core Q),
    (lost.map Prod.fst).Nodup → (∀ l ∈ lost, l.1 ∈ core.connections) →
      (core.reapAll lost).events =
        core.events ++ lost.map fun l => .connectionLost l.1 l.2
  | [], core, _, _ => by simp [reapAll]
  | l :: lost, core, hnd, hmem => by
    obtain ⟨hl, hnd⟩ := List.nodup_cons.mp hnd
    have hlive : l.1 ∈ core.connections := hmem l List.mem_cons_self
    show ((core.reap l).reapAll lost).events = _
    rw [reapAll_events lost _ hnd, reap_eq hlive]
    · simp
    · intro l' hl'
      have hne : l'.1 ≠ l.1 := fun h => hl (List.mem_map.mpr ⟨l', hl', h⟩)
      rw [reap_eq hlive]
      exact AList.mem_erase.mpr ⟨hne, hmem l' (List.mem_cons_of_mem _ hl')⟩

/-! ## The pass as a whole -/

/-- The handles of a pass. -/
def handles (core : Core Q) (ord : IterOrder) : List ConnectionHandle :=
  ord.order core.connections.keys

theorem nodup_handles (core : Core Q) (ord : IterOrder) : (core.handles ord).Nodup :=
  (ord.perm _).nodup_iff.mpr core.connections.keys_nodup

theorem mem_handles {core : Core Q} {ord : IterOrder} {ch : ConnectionHandle} :
    ch ∈ core.handles ord ↔ ch ∈ core.connections :=
  (ord.perm _).mem_iff

/-- The state stage 1 of a pass leaves. -/
def routed (core : Core Q) (ord : IterOrder) (now : Instant) : Core Q :=
  routeAll { core with lastService := some now } (core.handles ord)

/-- The state stage 2 of a pass leaves, with what it stages. -/
def serviced (core : Core Q) (ord : IterOrder) (now : Instant) : Core Q × Staged :=
  (core.routed ord now).serviceAll now (core.handles ord)

theorem serviceConnections_eq (core : Core Q) (ord : IterOrder) (now : Instant) :
    core.serviceConnections ord now =
      (((core.serviced ord now).1.flush (core.serviced ord now).2).reapAll
        (core.serviced ord now).2.lost).sweepOrphanCids.refreshNextTimeout := rfl

theorem mem_routed {core : Core Q} {ord : IterOrder} {now : Instant} {ch : ConnectionHandle} :
    ch ∈ (core.routed ord now).connections ↔ ch ∈ core.connections :=
  mem_routeAll _

/-- Every live connection is serviced, from the state stage 1 left it in. -/
theorem serviced_lookup (core : Core Q) (ord : IterOrder) (now : Instant) (a : ConnectionHandle) :
    (core.serviced ord now).1.connections.lookup a =
      ((core.routed ord now).connections.lookup a).map fun s => (serviceOne now a s).1 := by
  rw [serviced, serviceAll_lookup _ _ (nodup_handles core ord)]
  split
  · rfl
  · rename_i h
    have hnone : (core.routed ord now).connections.lookup a = none := by
      rw [AList.lookup_eq_none, mem_routed]
      exact fun hmem => h (mem_handles.mpr hmem)
    rw [hnone]
    rfl

/-- A handle is lost in a pass when the pass sees a loss on its connection. -/
theorem mem_lost {core : Core Q} {ord : IterOrder} {now : Instant}
    {l : ConnectionHandle × ConnectionError} :
    l ∈ (core.serviced ord now).2.lost ↔
      ∃ s, (core.routed ord now).connections.lookup l.1 = some s ∧
        lossOf s.serviceStreams.1 s.serviceStreams.2 = some l.2 := by
  rw [serviced, serviceAll_staged _ _ (nodup_handles core ord), List.mem_flatMap]
  constructor
  · rintro ⟨ch, hch, hl⟩
    unfold stagedOf at hl
    split at hl
    · exact absurd hl List.not_mem_nil
    · rename_i s hs
      simp only [serviceOne, Option.mem_toList, Option.map_eq_some_iff] at hl
      obtain ⟨reason, hreason, rfl⟩ := hl
      exact ⟨s, hs, hreason⟩
  · rintro ⟨s, hs, hloss⟩
    refine ⟨l.1, mem_handles.mpr (mem_routed.mp (AMap.mem_iff_lookup.mpr ⟨s, hs⟩)), ?_⟩
    simp [stagedOf, hs, serviceOne, hloss]

theorem nodup_lost (core : Core Q) (ord : IterOrder) (now : Instant) :
    ((core.serviced ord now).2.lost.map Prod.fst).Nodup := by
  rw [serviced, serviceAll_staged _ _ (nodup_handles core ord), List.map_flatMap]
  have hone : ∀ ch : ConnectionHandle,
      ((stagedOf now (core.routed ord now) ch).lost.map Prod.fst).Nodup ∧
        ∀ a ∈ (stagedOf now (core.routed ord now) ch).lost.map Prod.fst, a = ch := by
    intro ch
    unfold stagedOf
    split
    · simp
    · rename_i s hs
      simp only [serviceOne]
      cases lossOf s.serviceStreams.1 s.serviceStreams.2 <;> simp
  refine List.nodup_flatMap.mpr ⟨fun ch _ => (hone ch).1, ?_⟩
  refine (nodup_handles core ord).imp fun {a b} hne => ?_
  intro x hx hx'
  exact hne (((hone a).2 x hx).symm.trans ((hone b).2 x hx'))

/-- **Which connections a pass leaves**: those on which it sees no loss, each in its serviced
state. -/
theorem lookup_serviceConnections (core : Core Q) (ord : IterOrder) (now : Instant)
    (ch : ConnectionHandle) (s' : ConnState Q) :
    (core.serviceConnections ord now).connections.lookup ch = some s' ↔
      ∃ s, (core.routed ord now).connections.lookup ch = some s ∧
        lossOf s.serviceStreams.1 s.serviceStreams.2 = none ∧ s' = (serviceOne now ch s).1 := by
  rw [serviceConnections_eq]
  show (((core.serviced ord now).1.flush (core.serviced ord now).2).reapAll
    (core.serviced ord now).2.lost).connections.lookup ch = some s' ↔ _
  rw [reapAll_lookup]
  show (if _ then none else (core.serviced ord now).1.connections.lookup ch) = some s' ↔ _
  rw [serviced_lookup]
  constructor
  · intro h
    split at h
    · exact absurd h (by simp)
    · rename_i hnot
      obtain ⟨s, hs, rfl⟩ := Option.map_eq_some_iff.mp h
      refine ⟨s, hs, ?_, rfl⟩
      by_contra hloss
      obtain ⟨reason, hreason⟩ := Option.ne_none_iff_exists'.mp hloss
      exact hnot (List.mem_map.mpr ⟨(ch, reason), mem_lost.mpr ⟨s, hs, hreason⟩, rfl⟩)
  · rintro ⟨s, hs, hloss, rfl⟩
    rw [if_neg, hs]
    · rfl
    · intro hmem
      obtain ⟨l, hl, rfl⟩ := List.mem_map.mp hmem
      obtain ⟨t, ht, hreason⟩ := mem_lost.mp hl
      obtain rfl := Option.some.inj (hs.symm.trans ht)
      rw [hloss] at hreason
      exact absurd hreason (by simp)

/-- A pass calls quinn-proto's endpoint in stage 1 only. -/
theorem inner_serviceConnections (core : Core Q) (ord : IterOrder) (now : Instant) :
    (core.serviceConnections ord now).inner = (core.routed ord now).inner := by
  show (((core.serviced ord now).1.flush (core.serviced ord now).2).reapAll
    (core.serviced ord now).2.lost).inner = _
  refine reapAll_inv (I := fun core' => core'.inner = (core.routed ord now).inner)
    (fun core' l _ h hl => by rw [reap_eq hl]; exact h) ?_
  show (core.serviced ord now).1.inner = _
  rw [serviced, serviceAll_eq _ _ (nodup_handles core ord)]

/-- A connection a pass sees no loss on is not drained. -/
theorem not_drained_of_lossOf_none {progress : ConnProgress} {s : ConnState Q}
    (h : lossOf progress s = none) : Q.isDrained s.conn ≠ true := by
  intro hdr
  unfold lossOf at h
  split at h
  · exact absurd h (by simp)
  · simp [ConnState.isDrained, hdr] at h

/-- The events a pass queues: what each connection stages, then one loss for each lost handle. -/
theorem events_serviceConnections (core : Core Q) (ord : IterOrder) (now : Instant) :
    (core.serviceConnections ord now).events =
      (core.serviced ord now).1.events ++ (core.serviced ord now).2.events ++
        (core.serviced ord now).2.lost.map fun l => .connectionLost l.1 l.2 := by
  rw [serviceConnections_eq]
  show (((core.serviced ord now).1.flush (core.serviced ord now).2).reapAll
    (core.serviced ord now).2.lost).events = _
  rw [reapAll_events _ _ (nodup_lost core ord now)]
  · rfl
  · intro l hl
    obtain ⟨s, hs, -⟩ := mem_lost.mp hl
    show l.1 ∈ (core.serviced ord now).1.connections
    rw [AMap.mem_iff_lookup, serviced_lookup, hs]
    exact ⟨_, rfl⟩

/-- What the bookkeeping outside the tables of stage 1 is made of. -/
structure Frame (a b : Core Q) : Prop where
  role : a.role = b.role
  clients : a.clients = b.clients
  clientIds : a.clientIds = b.clientIds
  byQuinn : a.byQuinn = b.byQuinn
  nextGeneration : a.nextGeneration = b.nextGeneration
  events : a.events = b.events

/-- **Stage 1 writes five tables**: what reads none of them is what it was, but for the instant. -/
theorem routed_kept {α : Type} (f : Core Q → α)
    (hf : ∀ core inner issuedCids pendingCids cidsByConn connections,
      f { core with inner, issuedCids, pendingCids, cidsByConn, connections } = f core)
    (core : Core Q) (ord : IterOrder) (now : Instant) :
    f (core.routed ord now) = f { core with lastService := some now } := by
  refine routeAll_inv (I := fun core' => f core' = f { core with lastService := some now })
    ?_ ?_ _ rfl
  · intro core' ch s ev c h _ _
    rw [deliver_eq, drainPendingCids_eq]
    exact (hf core' _ _ _ _ _).trans h
  · intro core' ch s c h _ _
    exact (hf core' core'.inner core'.issuedCids core'.pendingCids core'.cidsByConn _).trans h

theorem routed_frame (core : Core Q) (ord : IterOrder) (now : Instant) :
    Frame (core.routed ord now) core where
  role := routed_kept Core.role (fun _ _ _ _ _ _ => rfl) core ord now
  clients := routed_kept Core.clients (fun _ _ _ _ _ _ => rfl) core ord now
  clientIds := routed_kept Core.clientIds (fun _ _ _ _ _ _ => rfl) core ord now
  byQuinn := routed_kept Core.byQuinn (fun _ _ _ _ _ _ => rfl) core ord now
  nextGeneration := routed_kept Core.nextGeneration (fun _ _ _ _ _ _ => rfl) core ord now
  events := routed_kept Core.events (fun _ _ _ _ _ _ => rfl) core ord now

/-- Stage 2 leaves every table but the connections alone. -/
theorem serviced_eq (core : Core Q) (ord : IterOrder) (now : Instant) :
    (core.serviced ord now).1 =
      { core.routed ord now with connections := (core.serviced ord now).1.connections } :=
  serviceAll_eq _ _ (nodup_handles core ord)

theorem mem_serviced {core : Core Q} {ord : IterOrder} {now : Instant} {ch : ConnectionHandle} :
    ch ∈ (core.serviced ord now).1.connections ↔ ch ∈ core.connections := by
  have hrouted : ch ∈ (core.routed ord now).connections ↔ ch ∈ core.connections := mem_routed
  rw [← hrouted, ← AList.lookup_isSome, ← AList.lookup_isSome, serviced_lookup, Option.isSome_map]

/-- **A pass keeps what only the bookkeeping decides**: `I` may read the handles, their ids and
the generation, and every reap must keep it. -/
theorem serviceConnections_inv {I : Core Q → Prop}
    (hbook : ∀ a b : Core Q, Frame a b → (∀ ch, ch ∈ a.connections ↔ ch ∈ b.connections) →
      I b → I a)
    (hqueues : ∀ (core : Core Q) outbound events, I core →
      I { core with outbound := outbound, events := events })
    (hreap : ∀ core l, I core → l.1 ∈ core.connections → I (core.reap l))
    {core : Core Q} (ord : IterOrder) (now : Instant) (h : I core) :
    I (core.serviceConnections ord now) := by
  have hf := routed_frame core ord now
  have hserviced : I (core.serviced ord now).1 := by
    refine hbook _ core ?_ (fun ch => mem_serviced) h
    rw [serviced_eq]
    exact ⟨hf.role, hf.clients, hf.clientIds, hf.byQuinn, hf.nextGeneration, hf.events⟩
  have hreaped : I (((core.serviced ord now).1.flush (core.serviced ord now).2).reapAll
      (core.serviced ord now).2.lost) :=
    reapAll_inv (fun core l _ hI hl => hreap core l hI hl) (hqueues _ _ _ hserviced)
  refine hbook _ _ ?_ ?_ hreaped
  · exact ⟨rfl, rfl, rfl, rfl, rfl, rfl⟩
  · exact fun ch => Iff.rfl

end Core

end QuietQuic.Proto
