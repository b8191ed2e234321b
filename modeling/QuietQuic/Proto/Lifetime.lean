import QuietQuic.Proto.Identity

/-!
# Handle lifetimes and event traces

`Traced` is a run with its history: the handles allocated so far and the events handed out by
`poll_event`. The queue is first in, first out, so the events handed out followed by the ones still
queued are the sequence of events queued over the whole run (`Traced.trace`).

`Story` is the invariant: what the trace says about each handle agrees with where the handle is.
A live handle's part of the trace is `Opening`, and it is empty as long as its connection has not
announced itself; a handle that is not live any more has its one `ConnectionLost` at the end.

* `Story.pass`: a servicing pass continues the story of every live handle, and ends the lost ones.
* `Traced.lifetimes`: the whole run.
-/

namespace QuietQuic.Proto

open QuietQuic.Lib

variable {Q : Quinn} {H : KeyedHash}

/-! ## What one connection reports in a pass -/

/-- The stream events of one connection's progress. -/
def streamEvents (ch : ConnectionHandle) (progress : ConnProgress) : List Event :=
  Core.progressEvents ch { progress with connected := false }

theorem progressEvents_eq (ch : ConnectionHandle) (progress : ConnProgress) :
    Core.progressEvents ch progress =
      (if progress.connected then [.connected ch] else []) ++ streamEvents ch progress := by
  simp [streamEvents, Core.progressEvents]

/-- A connection's stream events are stream events, and name its handle. -/
theorem streamEvents_spec {ch : ConnectionHandle} {progress : ConnProgress} {e : Event}
    (h : e ∈ streamEvents ch progress) : e.isStream = true ∧ e.conn = ch := by
  simp only [streamEvents, Core.progressEvents, List.mem_append, List.mem_map, Bool.false_eq_true,
    if_false, List.not_mem_nil, false_or] at h
  rcases h with (((⟨_, _, rfl⟩ | ⟨_, _, rfl⟩) | ⟨_, _, rfl⟩) | ⟨_, _, rfl⟩) | ⟨_, _, rfl⟩ <;>
    exact ⟨rfl, rfl⟩

theorem progressEvents_conn {ch : ConnectionHandle} {progress : ConnProgress} {e : Event}
    (h : e ∈ Core.progressEvents ch progress) : e.conn = ch := by
  rw [progressEvents_eq, List.mem_append] at h
  rcases h with h | h
  · split at h
    · rw [List.mem_singleton.mp h]
      rfl
    · exact absurd h List.not_mem_nil
  · exact (streamEvents_spec h).2

theorem acceptLoop_connected (p : ConnState Q × ConnProgress) :
    (ConnState.acceptLoop p).2.connected = p.2.connected :=
  ConnState.acceptLoop_inv (I := fun p' => p'.2.connected = p.2.connected) (fun _ _ _ _ h _ => h)
    (fun _ _ _ h _ => h) rfl

/-- Only a polled `Connected` sets the flag, and only a polled stream event adds one. -/
theorem onPolled_progress (ev : QuinnEvent) (p : ConnState Q × ConnProgress) :
    ((ConnState.onPolled ev p).2.connected = p.2.connected ∨ ev = .connected) ∧
      ((∀ ch, streamEvents ch (ConnState.onPolled ev p).2 = streamEvents ch p.2) ∨
        ∃ e, ev = .stream e) := by
  cases ev with
  | connected => exact ⟨Or.inr rfl, Or.inl fun _ => rfl⟩
  | stream e =>
    refine ⟨Or.inl ?_, Or.inr ⟨e, rfl⟩⟩
    unfold ConnState.onPolled
    split
    case h_3 => exact acceptLoop_connected p
    case h_6 | h_7 =>
      dsimp only
      split <;> rfl
    all_goals first | rfl | simp_all
  | _ => exact ⟨Or.inl rfl, Or.inl fun _ => rfl⟩

/-- **What a pass reports of one connection**: `Connected` only if it had not announced itself, and
whatever is reported, it has announced itself afterwards. -/
theorem serviceStreams_announced (A : Q.Announces) (s : ConnState Q) (ch : ConnectionHandle) :
    (s.serviceStreams.1.connected = true → ¬ A.announced s.conn) ∧
      (Core.progressEvents ch s.serviceStreams.1 ≠ [] → A.announced s.serviceStreams.2.conn) := by
  have hinv := ConnState.serviceStreams_inv (s := s)
    (I := fun p => (A.announced s.conn → A.announced p.1.conn) ∧
      (p.2.connected = true → ¬ A.announced s.conn ∧ A.announced p.1.conn) ∧
      (streamEvents ch p.2 ≠ [] → A.announced p.1.conn)) ?_ ?_
    ⟨fun h => h, fun h => absurd h (by simp), fun h => absurd rfl h⟩
  · obtain ⟨-, hconn, hstream⟩ := hinv
    refine ⟨fun h => (hconn h).1, fun h => ?_⟩
    rw [progressEvents_eq] at h
    cases hc : s.serviceStreams.1.connected with
    | true => exact (hconn hc).2
    | false => exact hstream (by simpa [hc] using h)
  · intro t pr ev c ⟨hstay, hconn, hstream⟩ hpoll
    have hstep : Q.ConnStep t.conn (.poll (some ev)) c := by
      simpa [hpoll] using Quinn.ConnStep.poll t.conn
    -- What holds of the polled connection holds after the accepts of the reaction.
    have hafter : A.announced c →
        A.announced (ConnState.onPolled ev ({ t with conn := c }, pr)).1.conn :=
      ConnState.onPolled_conn (I := fun c' => A.announced c')
        (fun c' => A.stays (.acceptBi c')) ev ({ t with conn := c }, pr)
    obtain ⟨hflag, hevents⟩ := onPolled_progress ev ({ t with conn := c }, pr)
    refine ⟨fun h => hafter (A.stays hstep (hstay h)), fun h => ?_, fun h => ?_⟩
    · rcases hflag with hflag | rfl
      · obtain ⟨hnot, hann⟩ := hconn (hflag ▸ h)
        exact ⟨hnot, hafter (A.stays hstep hann)⟩
      · obtain ⟨hnot, hann⟩ := A.connected hpoll
        exact ⟨fun h => hnot (hstay h), hafter hann⟩
    · rcases hevents with hevents | ⟨e, rfl⟩
      · exact hafter (A.stays hstep (hstream (hevents ch ▸ h)))
      · exact hafter (A.stream hpoll)
  · intro t pr c ⟨hstay, hconn, hstream⟩ hpoll
    have hstep : Q.ConnStep t.conn (.poll none) c := by
      simpa [hpoll] using Quinn.ConnStep.poll t.conn
    exact ⟨fun h => A.stays hstep (hstay h), fun h => (hconn h).imp_right (A.stays hstep),
      fun h => A.stays hstep (hstream h)⟩

/-! ## The part of a trace that names a handle -/

/-- The events of a trace that name `ch`. -/
def naming (ch : ConnectionHandle) (trace : List Event) : List Event :=
  trace.filter fun e => e.conn = ch

@[simp] theorem naming_append (ch : ConnectionHandle) (l l' : List Event) :
    naming ch (l ++ l') = naming ch l ++ naming ch l' :=
  List.filter_append ..

theorem naming_eq_self {ch : ConnectionHandle} {l : List Event} (h : ∀ e ∈ l, e.conn = ch) :
    naming ch l = l :=
  List.filter_eq_self.mpr fun e he => by simpa using h e he

theorem naming_eq_nil {ch : ConnectionHandle} {l : List Event} (h : ∀ e ∈ l, e.conn ≠ ch) :
    naming ch l = [] :=
  List.filter_eq_nil_iff.mpr fun e he => by simpa using h e he

/-- Of events grouped by handle, those that name `ch` are its group. -/
theorem naming_flatMap {ch : ConnectionHandle} {f : ConnectionHandle → List Event}
    (hf : ∀ a, ∀ e ∈ f a, e.conn = a) : ∀ {handles : List ConnectionHandle}, handles.Nodup →
      naming ch (handles.flatMap f) = if ch ∈ handles then f ch else []
  | [], _ => rfl
  | a :: handles, hnd => by
    obtain ⟨ha, hnd⟩ := List.nodup_cons.mp hnd
    rw [List.flatMap_cons, naming_append, naming_flatMap hf hnd]
    by_cases hch : ch = a
    · subst hch
      simp [ha, naming_eq_self (hf ch)]
    · have hnil : naming ch (f a) = [] :=
        naming_eq_nil fun e he hc => hch (hc.symm.trans (hf a e he))
      simp [hch, hnil]

/-- At most one `Connected`, then stream events. -/
def Opening (ch : ConnectionHandle) (l : List Event) : Prop :=
  ∃ head streams, l = head ++ streams ∧ (head = [] ∨ head = [.connected ch]) ∧
    ∀ e ∈ streams, e.isStream = true

/-- A live handle's part of the trace, with its connection at `c`. -/
def Speaking (A : Q.Announces) (ch : ConnectionHandle) (c : Q.Conn) (l : List Event) : Prop :=
  Opening ch l ∧ (l ≠ [] → A.announced c)

/-- The part of the trace of a handle that is not live any more. -/
def Ended (ch : ConnectionHandle) (l : List Event) : Prop :=
  ∃ opening reason, Opening ch opening ∧ l = opening ++ [.connectionLost ch reason]

/-- Stream events and `Connected` are not losses. -/
theorem Opening.not_lost {ch : ConnectionHandle} {l : List Event} (h : Opening ch l) :
    ∀ e ∈ l, e.isLost = false := by
  obtain ⟨head, streams, rfl, hhead, hstreams⟩ := h
  intro e he
  rcases List.mem_append.mp he with he | he
  · rcases hhead with rfl | rfl
    · exact absurd he List.not_mem_nil
    · rw [List.mem_singleton.mp he]
      rfl
  · have := hstreams e he
    simp only [Event.isStream, Bool.and_eq_true, Bool.not_eq_true'] at this
    exact this.2

theorem Speaking.nil {A : Q.Announces} {ch : ConnectionHandle} {c : Q.Conn} :
    Speaking A ch c [] :=
  ⟨⟨[], [], rfl, Or.inl rfl, by simp⟩, fun h => absurd rfl h⟩

theorem Speaking.moved {A : Q.Announces} {ch : ConnectionHandle} {c c' : Q.Conn} {l : List Event}
    {P : Q.ConnLabel → Prop} (h : Speaking A ch c l) (hsteps : Q.ConnSteps P c c') :
    Speaking A ch c' l :=
  ⟨h.1, fun hne => hsteps.keeps (fun _ hstep => A.stays hstep) (h.2 hne)⟩

/-- **A pass continues the story of a connection.** -/
theorem Speaking.serviced {A : Q.Announces} {ch : ConnectionHandle} {s : ConnState Q}
    {l : List Event} (h : Speaking A ch s.conn l) :
    Speaking A ch s.serviceStreams.2.conn
      (l ++ Core.progressEvents ch s.serviceStreams.1) := by
  obtain ⟨⟨head, streams, rfl, hhead, hstreams⟩, hann⟩ := h
  obtain ⟨hfirst, hafter⟩ := serviceStreams_announced A s ch
  have hsteps := ConnState.serviceStreams_steps s
  refine ⟨?_, fun hne => ?_⟩
  · rw [progressEvents_eq]
    cases hc : s.serviceStreams.1.connected with
    | true =>
      -- It had not announced itself, so nothing was said before.
      have hnil : head ++ streams = [] := by
        by_contra hne
        exact hfirst hc (hann hne)
      exact ⟨[.connected ch], streamEvents ch s.serviceStreams.1, by simp [hnil], Or.inr rfl,
        fun e he => (streamEvents_spec he).1⟩
    | false =>
      refine ⟨head, streams ++ streamEvents ch s.serviceStreams.1, by simp, hhead, fun e he => ?_⟩
      rcases List.mem_append.mp he with he | he
      · exact hstreams e he
      · exact (streamEvents_spec he).1
  · by_cases hnew : Core.progressEvents ch s.serviceStreams.1 = []
    · rw [hnew, List.append_nil] at hne
      exact hsteps.keeps (fun _ hstep => A.stays hstep) (hann hne)
    · exact hafter hnew

/-! ## The invariant -/

/-- What the trace says about each handle agrees with where the handle is. -/
structure Story (A : Q.Announces) (core : Core Q) (allocated : List ConnectionHandle)
    (trace : List Event) : Prop where
  nodup : allocated.Nodup
  older : ∀ ch ∈ allocated, ch.generation < core.nextGeneration
  live : ∀ ch ∈ core.connections, ch ∈ allocated
  named : ∀ e ∈ trace, e.conn ∈ allocated
  speaking : ∀ ch s, core.connections.lookup ch = some s → Speaking A ch s.conn (naming ch trace)
  ended : ∀ ch ∈ allocated, ch ∉ core.connections → Ended ch (naming ch trace)

namespace Story

variable {A : Q.Announces} {core core' : Core Q} {allocated : List ConnectionHandle}
  {trace : List Event}

/-- Connections that move on, with the same handles and generation. -/
theorem moved {P : Q.ConnLabel → Prop} (h : Story A core allocated trace)
    (hgen : core'.nextGeneration = core.nextGeneration)
    (hmem : ∀ ch, ch ∈ core'.connections ↔ ch ∈ core.connections)
    (hmoved : Core.Moved P core' core) : Story A core' allocated trace where
  nodup := h.nodup
  older := hgen ▸ h.older
  live ch hch := h.live ch ((hmem ch).mp hch)
  named := h.named
  speaking ch s' hs' := by
    obtain ⟨s, hs, hsteps⟩ := hmoved ch s' hs'
    exact (h.speaking ch s hs).moved hsteps
  ended ch hch hnot := h.ended ch hch fun hmem' => hnot ((hmem ch).mpr hmem')

/-- A registered handle starts with nothing said. -/
theorem registered {ch : ConnectionHandle} {conn : Q.Conn} {id : String}
    (h : Story A core allocated trace) (hreg : Endpoint.Registered core core' ch conn id) :
    Story A core' (allocated ++ [ch]) trace := by
  have hnew : ch ∉ allocated := by
    intro hch
    have := h.older ch hch
    have := hreg.generation
    omega
  have hmem : ∀ a, a ∈ core'.connections ↔ a = ch ∨ a ∈ core.connections := by
    intro a
    rw [hreg.connections, AList.mem_insert]
  refine ⟨?_, fun a ha => ?_, fun a ha => ?_, fun e he => ?_, fun a s hs => ?_, fun a ha hnot => ?_⟩
  · exact List.nodup_append.mpr ⟨h.nodup, List.nodup_singleton ch,
      fun a ha b hb hab => hnew (by rw [← List.mem_singleton.mp hb, ← hab]; exact ha)⟩
  · rw [hreg.nextGeneration]
    rcases List.mem_append.mp ha with ha | ha
    · exact Nat.lt_succ_of_lt (h.older a ha)
    · rw [List.mem_singleton.mp ha, hreg.generation]
      exact Nat.lt_succ_self _
  · rcases (hmem a).mp ha with rfl | ha
    · exact List.mem_append_right _ (List.mem_singleton_self _)
    · exact List.mem_append_left _ (h.live a ha)
  · exact List.mem_append_left _ (h.named e he)
  · rw [hreg.connections, AMap.lookup_insert_eq] at hs
    split at hs
    · rename_i ha
      subst ha
      have hnil : naming a trace = [] := naming_eq_nil fun e he heq => hnew (heq ▸ h.named e he)
      rw [hnil]
      exact .nil
    · exact h.speaking a s hs
  · have hne : a ≠ ch := fun hc => hnot ((hmem a).mpr (Or.inl hc))
    have ha' : a ∈ allocated := by
      rcases List.mem_append.mp ha with ha | ha
      · exact ha
      · exact absurd (List.mem_singleton.mp ha) hne
    exact h.ended a ha' fun hc => hnot ((hmem a).mpr (Or.inr hc))

end Story

/-! ## A servicing pass -/

/-- The event stage 3 queues for a lost handle. -/
def lostEvent (l : ConnectionHandle × ConnectionError) : Event := .connectionLost l.1 l.2

/-- The events a pass queues. -/
def passEvents (core : Core Q) (ord : IterOrder) (now : Instant) : List Event :=
  (core.serviced ord now).2.events ++ (core.serviced ord now).2.lost.map lostEvent

theorem events_pass (core : Core Q) (ord : IterOrder) (now : Instant) :
    (core.serviceConnections ord now).events = core.events ++ passEvents core ord now := by
  rw [Core.events_serviceConnections, Core.serviced_eq, passEvents, ← List.append_assoc]
  congr 2
  exact (Core.routed_frame core ord now).events

/-- **What a pass says about a handle**: its connection's progress, then its loss. -/
theorem naming_passEvents (core : Core Q) (ord : IterOrder) (now : Instant)
    (ch : ConnectionHandle) :
    naming ch (passEvents core ord now) =
      match (core.routed ord now).connections.lookup ch with
      | none => []
      | some s => Core.progressEvents ch s.serviceStreams.1 ++
          ((Core.lossOf s.serviceStreams.1 s.serviceStreams.2).map
            (Event.connectionLost ch)).toList := by
  have hevents : ∀ a, ∀ e ∈ (Core.stagedOf now (core.routed ord now) a).events, e.conn = a := by
    intro a e he
    unfold Core.stagedOf at he
    split at he
    · exact absurd he List.not_mem_nil
    · exact progressEvents_conn he
  have hlost : ∀ a, ∀ e ∈ (Core.stagedOf now (core.routed ord now) a).lost.map lostEvent,
      e.conn = a := by
    intro a e he
    unfold Core.stagedOf at he
    split at he
    · exact absurd he List.not_mem_nil
    · rename_i s hs
      simp only [Core.serviceOne, List.mem_map, Option.mem_toList, Option.map_eq_some_iff] at he
      obtain ⟨_, ⟨reason, -, rfl⟩, rfl⟩ := he
      rfl
  have hnd := Core.nodup_handles core ord
  rw [passEvents, naming_append, Core.serviced, Core.serviceAll_staged _ _ hnd, List.map_flatMap,
    naming_flatMap hevents hnd, naming_flatMap hlost hnd]
  cases hs : (core.routed ord now).connections.lookup ch with
  | none => simp [Core.stagedOf, hs]
  | some s =>
    have hch : ch ∈ core.handles ord :=
      Core.mem_handles.mpr (Core.mem_routed.mp (AMap.mem_iff_lookup.mpr ⟨s, hs⟩))
    simp only [hch, if_true, Core.stagedOf, hs, Core.serviceOne]
    cases Core.lossOf s.serviceStreams.1 s.serviceStreams.2 <;> rfl

theorem Story.pass {A : Q.Announces} {core : Core Q} {allocated : List ConnectionHandle}
    {trace : List Event} (h : Story A core allocated trace) (ord : IterOrder) (now : Instant) :
    Story A (core.serviceConnections ord now) allocated (trace ++ passEvents core ord now) := by
  have hframe := Core.routed_frame core ord now
  have hrouted : Story A (core.routed ord now) allocated trace :=
    h.moved hframe.nextGeneration (fun _ => Core.mem_routed) (Core.routeAll_moved _ _)
  have hmem : ∀ ch, ch ∈ (core.serviceConnections ord now).connections ↔
      ∃ s, (core.routed ord now).connections.lookup ch = some s ∧
        Core.lossOf s.serviceStreams.1 s.serviceStreams.2 = none := by
    intro ch
    rw [AMap.mem_iff_lookup]
    constructor
    · rintro ⟨s', hs'⟩
      obtain ⟨s, hs, hloss, -⟩ := (Core.lookup_serviceConnections core ord now ch s').mp hs'
      exact ⟨s, hs, hloss⟩
    · rintro ⟨s, hs, hloss⟩
      exact ⟨_, (Core.lookup_serviceConnections core ord now ch _).mpr ⟨s, hs, hloss, rfl⟩⟩
  have hgen : (core.serviceConnections ord now).nextGeneration = core.nextGeneration :=
    Core.serviceConnections_inv (I := fun core' => core'.nextGeneration = core.nextGeneration)
      (fun _ _ hf _ hI => hf.nextGeneration.trans hI) (fun _ _ _ hI => hI)
      (fun _ _ hI hl => by rw [Core.reap_eq hl]; exact hI) ord now rfl
  refine ⟨h.nodup, hgen ▸ h.older, fun ch hch => ?_, fun e he => ?_, fun ch s' hs' => ?_,
    fun ch hch hnot => ?_⟩
  · obtain ⟨s, hs, -⟩ := (hmem ch).mp hch
    exact hrouted.live ch (AMap.mem_iff_lookup.mpr ⟨s, hs⟩)
  · rcases List.mem_append.mp he with he | he
    · exact h.named e he
    · -- An event a pass queues names a connection it services.
      have hnaming : e ∈ naming e.conn (passEvents core ord now) :=
        List.mem_filter.mpr ⟨he, by simp⟩
      rw [naming_passEvents] at hnaming
      split at hnaming
      · exact absurd hnaming List.not_mem_nil
      · rename_i s hs
        exact hrouted.live _ (AMap.mem_iff_lookup.mpr ⟨s, hs⟩)
  · obtain ⟨s, hs, hloss, rfl⟩ := (Core.lookup_serviceConnections core ord now ch s').mp hs'
    rw [naming_append, naming_passEvents, hs]
    simp only [hloss, Option.map_none, Option.toList_none, List.append_nil]
    exact (hrouted.speaking ch s hs).serviced.moved (Core.drainTransmits_steps now _)
  · rw [naming_append, naming_passEvents]
    cases hs : (core.routed ord now).connections.lookup ch with
    | none =>
      rw [List.append_nil]
      exact hrouted.ended ch hch (AList.lookup_eq_none.mp hs)
    | some s =>
      cases hloss : Core.lossOf s.serviceStreams.1 s.serviceStreams.2 with
      | none => exact absurd ((hmem ch).mpr ⟨s, hs, hloss⟩) hnot
      | some reason =>
        exact ⟨_, reason, (hrouted.speaking ch s hs).serviced.1, by simp [hloss]⟩

/-! ## A public call -/

/-- The event an answer hands out. -/
def taken : Answer → List Event
  | .event (some e) => [e]
  | _ => []

theorem created_of_no_pass {ep : Endpoint Q} {call : Call}
    (h : Endpoint.passStart H ep call = none) : Endpoint.created H ep call = [] := by
  cases call with
  | handleDatagram ord now src minute data =>
    simp only [Endpoint.created, Endpoint.gate_of_no_pass h, Endpoint.fed]
    exact List.filter_eq_nil_iff.mpr fun ch hch => by
      simpa using AList.mem_keys.mpr hch
  | _ => rfl

/-- Without a pass, what is handed out comes off the front of the queue. -/
theorem taken_of_no_pass {ep : Endpoint Q} {call : Call}
    (h : Endpoint.passStart H ep call = none) :
    taken (ep.step H call).1 ++ (ep.step H call).2.events = ep.events := by
  cases call with
  | handleDatagram ord now src minute data =>
    show (ep.step H (.handleDatagram ord now src minute data)).2.events = ep.events
    rw [Endpoint.step_of_rejected (Endpoint.gate_of_no_pass h)]
  | handleTimeout ord now => exact absurd h (by simp [Endpoint.passStart])
  | pollTransmit ord now =>
    simp only [Endpoint.passStart] at h
    split at h
    · exact absurd h (by simp)
    · rename_i hne
      show (ep.toCore.pollTransmit ord now).2.events = ep.events
      unfold Core.pollTransmit Core.popTransmit
      cases hq : ep.outbound with
      | nil => exact absurd hq hne
      | cons t rest => rfl
  | pollEvent =>
    show taken (.event ep.toCore.pollEvent.1) ++ ep.toCore.pollEvent.2.events = ep.events
    unfold Core.pollEvent
    cases hq : ep.events with
    | nil => exact hq
    | cons e rest => rfl
  | conn ch c =>
    show (ep.toCore.onConn ch c).2.events = ep.events
    rw [Core.onConn_eq]
  | nextTimeout => rfl
  | clientId ch => rfl
  | issuedCidCount => rfl

/-- The state a pass starts from: the story so far, with the handle a fed datagram registered. -/
theorem Story.start {A : Q.Announces} {ep : Endpoint Q} {allocated : List ConnectionHandle}
    {trace : List Event} {call : Call} {core : Core Q} {ord : IterOrder} {now : Instant}
    (h : Story A ep.toCore allocated trace)
    (hpass : Endpoint.passStart H ep call = some (core, ord, now)) :
    Story A core (allocated ++ Endpoint.created H ep call) trace ∧ core.events = ep.events ∧
      taken (ep.step H call).1 = [] := by
  cases Endpoint.passStart_starts hpass with
  | @datagram _ _ src minute data hg =>
    refine ⟨?_, ?_, rfl⟩
    · rcases Endpoint.fed_spec now src data (Endpoint.gate_fits ep now src minute data) hg with
        ⟨hframe, hmem, hmoved⟩ | ⟨_, client, _, ch, conn, _, _, _, _, _, hreg⟩
      · have hnone : Endpoint.created H ep (.handleDatagram ord now src minute data) = [] :=
          List.filter_eq_nil_iff.mpr fun ch hch => by simpa using (hmem ch).mp hch
        rw [hnone, List.append_nil]
        exact h.moved hframe.nextGeneration hmem hmoved
      · have hold : ch ∉ ep.connections := by
          intro hch
          have := h.older ch (h.live ch hch)
          have := hreg.generation
          omega
        have hone : Endpoint.created H ep (.handleDatagram ord now src minute data) = [ch] := by
          have hrest : (ep.connections.keys.erase ch).filter (fun a => a ∉ ep.connections) = [] :=
            List.filter_eq_nil_iff.mpr fun a ha => by
              simpa using AList.mem_keys.mpr (List.mem_of_mem_erase ha)
          simp only [Endpoint.created, hreg.connections, AList.keys_insert, List.filter_cons, hold,
            not_false_eq_true, decide_true, if_true, hrest]
        rw [hone]
        exact h.registered hreg
    · rcases Endpoint.fed_spec now src data (Endpoint.gate_fits ep now src minute data) hg with
        ⟨hframe, -, -⟩ | ⟨_, client, _, ch, conn, _, _, _, _, _, hreg⟩
      · exact hframe.events
      · exact hreg.events
  | timeout =>
    refine ⟨?_, rfl, rfl⟩
    show Story A _ (allocated ++ []) trace
    rw [List.append_nil]
    exact h.moved rfl (fun _ => AMap.mem_mapValues) (Core.fireTimers_moved _ _)
  | transmit =>
    refine ⟨?_, rfl, rfl⟩
    show Story A _ (allocated ++ []) trace
    rw [List.append_nil]
    exact h

/-- The queues are not part of the story. -/
theorem Story.queues {A : Q.Announces} {core : Core Q} {allocated : List ConnectionHandle}
    {trace : List Event} (h : Story A core allocated trace) (outbound : List Transmit)
    (events : List Event) :
    Story A { core with outbound := outbound, events := events } allocated trace :=
  ⟨h.nodup, h.older, h.live, h.named, h.speaking, h.ended⟩

/-- **One public call continues the story.** -/
theorem Story.step {A : Q.Announces} {ep : Endpoint Q} {allocated : List ConnectionHandle}
    {polled : List Event} (call : Call) (h : Story A ep.toCore allocated (polled ++ ep.events)) :
    Story A (ep.step H call).2.toCore (allocated ++ Endpoint.created H ep call)
      (polled ++ taken (ep.step H call).1 ++ (ep.step H call).2.events) := by
  cases hpass : Endpoint.passStart H ep call with
  | some start =>
    obtain ⟨core, ord, now⟩ := start
    obtain ⟨hstart, hevents, htaken⟩ := h.start hpass
    obtain ⟨outbound, heq⟩ := Endpoint.step_of_pass hpass
    have hqueue : (ep.step H call).2.events = ep.events ++ passEvents core ord now := by
      rw [heq, ← hevents]
      exact events_pass core ord now
    rw [htaken, hqueue, List.append_nil, ← List.append_assoc, heq]
    exact (hstart.pass ord now).queues outbound _
  | none =>
    rw [created_of_no_pass hpass, List.append_nil, List.append_assoc, taken_of_no_pass hpass]
    obtain ⟨ch, c, -, heq⟩ | ⟨outbound, events, heq⟩ := Endpoint.step_of_no_pass hpass
    · rw [heq]
      refine h.moved ?_ (fun _ => Core.mem_onConn) (Core.onConn_moved _ _ _)
      rw [Core.onConn_eq]
    · rw [heq]
      exact h.queues outbound events

/-- Only live handles have an id. -/
def IdsLive (core : Core Q) : Prop := ∀ ch ∈ core.clientIds, ch ∈ core.connections

theorem IdsLive.step {ep : Endpoint Q} (call : Call) (h : IdsLive ep.toCore) :
    IdsLive (ep.step H call).2.toCore := by
  refine Endpoint.step_book_inv ?_ (fun _ _ _ h => h) ?_ ?_ call h
  · intro a b hframe hmem hb ch hch
    rw [hframe.clientIds] at hch
    exact (hmem ch).mpr (hb ch hch)
  · intro core l hI hl
    rw [Core.reap_eq hl]
    intro ch hch
    obtain ⟨hne, hch⟩ := AList.mem_erase.mp hch
    exact AList.mem_erase.mpr ⟨hne, hI ch hch⟩
  · intro core core' ch conn id hI hreg a ha
    rw [hreg.clientIds, AList.mem_insert] at ha
    rw [hreg.connections, AList.mem_insert]
    exact ha.imp_right (hI a)

/-! ## What the story says about one handle -/

section Read

variable {A : Q.Announces} {core : Core Q} {allocated : List ConnectionHandle} {trace : List Event}

theorem Story.losses (h : Story A core allocated trace) {ch : ConnectionHandle}
    (hch : ch ∈ allocated) :
    ch ∈ core.connections ∧ (naming ch trace).countP Event.isLost = 0 ∨
      ch ∉ core.connections ∧ (naming ch trace).countP Event.isLost = 1 := by
  by_cases hlive : ch ∈ core.connections
  · obtain ⟨s, hs⟩ := AMap.mem_iff_lookup.mp hlive
    refine Or.inl ⟨hlive, List.countP_eq_zero.mpr fun e he => ?_⟩
    simp [(h.speaking ch s hs).1.not_lost e he]
  · obtain ⟨opening, reason, hopening, heq⟩ := h.ended ch hch hlive
    refine Or.inr ⟨hlive, ?_⟩
    rw [heq, List.countP_append, List.countP_eq_zero.mpr fun e he => by
      simp [hopening.not_lost e he]]
    rfl

theorem Story.shape (h : Story A core allocated trace) (ch : ConnectionHandle) :
    ∃ head streams tail, naming ch trace = head ++ streams ++ tail ∧
      (head = [] ∨ head = [.connected ch]) ∧ (∀ e ∈ streams, e.isStream = true) ∧
      (tail = [] ∨ ∃ reason, tail = [.connectionLost ch reason]) := by
  by_cases hch : ch ∈ allocated
  · by_cases hlive : ch ∈ core.connections
    · obtain ⟨s, hs⟩ := AMap.mem_iff_lookup.mp hlive
      obtain ⟨head, streams, heq, hhead, hstreams⟩ := (h.speaking ch s hs).1
      exact ⟨head, streams, [], by rw [heq, List.append_nil], hhead, hstreams, Or.inl rfl⟩
    · obtain ⟨opening, reason, ⟨head, streams, rfl, hhead, hstreams⟩, heq⟩ := h.ended ch hch hlive
      exact ⟨head, streams, [.connectionLost ch reason], heq, hhead, hstreams,
        Or.inr ⟨reason, rfl⟩⟩
  · refine ⟨[], [], [], ?_, Or.inl rfl, by simp, Or.inl rfl⟩
    exact naming_eq_nil fun e he heq => hch (heq ▸ h.named e he)

/-- A handle whose loss was queued is gone. -/
theorem Story.gone (h : Story A core allocated trace) (hids : IdsLive core) {ch : ConnectionHandle}
    {reason : ConnectionError} (hlost : .connectionLost ch reason ∈ trace) :
    Endpoint.Gone ch core := by
  have hnot : ch ∉ core.connections := by
    intro hlive
    obtain ⟨s, hs⟩ := AMap.mem_iff_lookup.mp hlive
    have hquiet := (h.speaking ch s hs).1.not_lost (.connectionLost ch reason)
      (List.mem_filter.mpr ⟨hlost, by simp [Event.conn]⟩)
    exact absurd hquiet (by simp [Event.isLost])
  exact ⟨h.older ch (h.named _ hlost), hnot, AList.lookup_eq_none.mpr fun h => hnot (hids ch h)⟩

end Read

/-! ## Whole runs -/

/-- A run with its history. -/
structure Traced (Q : Quinn) where
  ep : Endpoint Q
  /-- Every handle allocated so far. -/
  allocated : List ConnectionHandle
  /-- Every event `poll_event` has handed out. -/
  polled : List Event

namespace Traced

/-- A new endpoint: a client has allocated its one handle, a server none. -/
def start (ep : Endpoint Q) : Traced Q := ⟨ep, ep.connections.keys, []⟩

/-- One public call. -/
def step (H : KeyedHash) (t : Traced Q) (call : Call) : Traced Q where
  ep := (t.ep.step H call).2
  allocated := t.allocated ++ Endpoint.created H t.ep call
  polled := t.polled ++ taken (t.ep.step H call).1

/-- A run of calls. -/
def run (H : KeyedHash) (t : Traced Q) (calls : List Call) : Traced Q := calls.foldl (step H) t

/-- Every event queued so far, in order. -/
def trace (t : Traced Q) : List Event := t.polled ++ t.ep.events

theorem run_ep (t : Traced Q) (calls : List Call) : (t.run H calls).ep = t.ep.run H calls := by
  induction calls generalizing t with
  | nil => rfl
  | cons call calls ih => exact ih (t.step H call)

theorem story_run {A : Q.Announces} {t : Traced Q} (h : Story A t.ep.toCore t.allocated t.trace)
    (calls : List Call) :
    Story A (t.run H calls).ep.toCore (t.run H calls).allocated (t.run H calls).trace := by
  induction calls generalizing t with
  | nil => exact h
  | cons call calls ih => exact ih (h.step call)

/-- The story of a new endpoint: nothing queued, at most the client's own handle. -/
theorem story_new (A : Q.Announces) {ep : Endpoint Q} (h : Endpoint.IsNew H ep) :
    Story A ep.toCore ep.connections.keys ep.events ∧ IdsLive ep.toCore := by
  obtain ⟨hevents, hclients, hgen⟩ := h.spec
  have hids : IdsLive ep.toCore := by
    intro ch hch
    rw [hclients] at hch
    exact absurd hch (AList.notMem_empty ch)
  rw [hevents]
  exact ⟨⟨ep.connections.keys_nodup, fun ch hch => hgen ch (AList.mem_keys.mpr hch),
    fun ch hch => AList.mem_keys.mp hch, by simp, fun _ _ _ => .nil,
    fun ch hch hnot => absurd (AList.mem_keys.mpr hch) hnot⟩, hids⟩

/-- **Handle lifetimes and event traces.** In every run of an endpoint of either role, with Quinn
slots reused in any way: the handles allocated are pairwise distinct; each of them is live with no
`ConnectionLost` queued, or not live with exactly one; the events that name a handle are at most
one `Connected`, then stream events, then at most one `ConnectionLost`; and once that is queued,
`conn_mut` and `client_id` answer `None` for the handle in every later state. -/
theorem lifetimes (H : KeyedHash) (A : Q.Announces) (ep₀ : Endpoint Q)
    (hnew : Endpoint.IsNew H ep₀) (calls : List Call) :
    let t := (start ep₀).run H calls
    t.ep = ep₀.run H calls ∧ t.allocated.Nodup ∧ (∀ ch ∈ t.ep.connections, ch ∈ t.allocated) ∧
    (∀ ch ∈ t.allocated,
      ch ∈ t.ep.connections ∧ (naming ch t.trace).countP Event.isLost = 0 ∨
        ch ∉ t.ep.connections ∧ (naming ch t.trace).countP Event.isLost = 1) ∧
    (∀ ch, ∃ head streams tail, naming ch t.trace = head ++ streams ++ tail ∧
      (head = [] ∨ head = [.connected ch]) ∧ (∀ e ∈ streams, e.isStream = true) ∧
      (tail = [] ∨ ∃ reason, tail = [.connectionLost ch reason])) ∧
    ∀ ch reason, .connectionLost ch reason ∈ t.trace → ∀ later,
      (∀ call, ((t.ep.run H later).step H (.conn ch call)).1 = .conn none) ∧
        ((t.ep.run H later).step H (.clientId ch)).1 = .clientId none := by
  intro t
  obtain ⟨hstory₀, hids₀⟩ := story_new A hnew
  have hstory : Story A t.ep.toCore t.allocated t.trace :=
    story_run (t := start ep₀) (by simpa [start, trace] using hstory₀) calls
  have hep : t.ep = ep₀.run H calls := run_ep (start ep₀) calls
  have hids : IdsLive t.ep.toCore := by
    rw [hep]
    exact Endpoint.run_inv (I := fun ep => IdsLive ep.toCore) (fun _ call h => h.step call) calls
      hids₀
  refine ⟨hep, hstory.nodup, hstory.live, fun ch hch => hstory.losses hch, hstory.shape,
    fun ch reason hlost later => ?_⟩
  have hlater := Endpoint.run_inv (H := H) (I := fun ep => Endpoint.Gone ch ep.toCore)
    (fun _ call h => h.step call) later (hstory.gone hids hlost)
  refine ⟨fun call => ?_, ?_⟩
  · show Answer.conn ((t.ep.run H later).toCore.onConn ch call).1 = _
    rw [Core.onConn, AList.lookup_eq_none.mpr hlater.notLive]
  · show Answer.clientId ((t.ep.run H later).clientId ch) = _
    rw [hlater.noId]

/-- The client's handshake completes, and the peer closes the connection. -/
def greetThenClose : List Call :=
  [Endpoint.arrival (Endpoint.toFirst [0x1e]), Endpoint.arrival (Endpoint.toFirst [0x1c])]

theorem lifetimes_closed :
    Endpoint.IsNew zeroHash Endpoint.miniClient ∧
      ((start Endpoint.miniClient).run zeroHash greetThenClose).trace =
        [.connected ⟨0, 1⟩, .connectionLost ⟨0, 1⟩ (.applicationClosed 0 [])] ∧
      ∀ later call, ((((start Endpoint.miniClient).run zeroHash greetThenClose).ep.run zeroHash
        later).step zeroHash (.conn ⟨0, 1⟩ call)).1 = .conn none := by
  have htrace : ((start Endpoint.miniClient).run zeroHash greetThenClose).trace =
      [.connected ⟨0, 1⟩, .connectionLost ⟨0, 1⟩ (.applicationClosed 0 [])] := by decide
  obtain ⟨-, -, -, -, -, hgone⟩ := lifetimes zeroHash Mini.announces Endpoint.miniClient
    Endpoint.miniClient_new greetThenClose
  refine ⟨Endpoint.miniClient_new, htrace, fun later call => ?_⟩
  exact (hgone ⟨0, 1⟩ (.applicationClosed 0 []) (by rw [htrace]; simp) later).1 call

end Traced

end QuietQuic.Proto
