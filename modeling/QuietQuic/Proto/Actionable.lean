import QuietQuic.Proto.Lifetime

/-!
# Acting on an event

An event is queued in a servicing pass and handed out later. In between its connection may be
reaped: by the rest of the pass that queued it, or by a later pass before the caller polls. The
`ConnectionLost` then stands behind it in the queue, but the handle is dead already.

`Queued` is the invariant: an event in the queue names a live handle, or the `ConnectionLost` of
its handle stands behind it.

* `Queued.pass`, `Queued.step`: a pass, and a whole call, keep it.
* `Orderly`: a pass that reaps no connection with an event in the queue or to report.
* `events_actionable`: which polled events name a live handle, in every run.
-/

namespace QuietQuic.Proto

open QuietQuic.Lib

variable {Q : Quinn} {H : KeyedHash}

/-! ## The queue -/

/-- Each event of the queue names a live handle, or its handle's loss stands behind it. -/
def Covered (live : ConnectionHandle → Prop) : List Event → Prop
  | [] => True
  | e :: rest =>
    (e.isLost = false → live e.conn ∨ ∃ reason, .connectionLost e.conn reason ∈ rest) ∧
      Covered live rest

/-- Handles that die are covered by their losses, queued behind everything. -/
theorem Covered.append {live live' : ConnectionHandle → Prop} {new : List Event}
    (hnew : Covered live' new)
    (hdies : ∀ ch, live ch → live' ch ∨ ∃ reason, .connectionLost ch reason ∈ new) :
    ∀ {queue : List Event}, Covered live queue → Covered live' (queue ++ new)
  | [], _ => hnew
  | e :: rest, h => by
    refine ⟨fun hlost => ?_, hnew.append hdies h.2⟩
    rcases h.1 hlost with hlive | ⟨reason, hmem⟩
    · rcases hdies e.conn hlive with hlive' | ⟨reason, hmem⟩
      · exact Or.inl hlive'
      · exact Or.inr ⟨reason, List.mem_append_right _ hmem⟩
    · exact Or.inr ⟨reason, List.mem_append_left _ hmem⟩

theorem Covered.behind {live : ConnectionHandle → Prop} {rest : List Event} :
    ∀ {front : List Event}, Covered live (front ++ rest) → Covered live rest
  | [], h => h
  | _ :: _, h => Covered.behind h.2

/-- A queue without events of dead handles. -/
theorem covered_of_live {live : ConnectionHandle → Prop} : ∀ {queue : List Event},
    (∀ e ∈ queue, e.isLost = false → live e.conn) → Covered live queue
  | [], _ => trivial
  | e :: _, h => ⟨fun hlost => Or.inl (h e List.mem_cons_self hlost),
      covered_of_live fun e' he' => h e' (List.mem_cons_of_mem _ he')⟩

theorem Covered.mono {live live' : ConnectionHandle → Prop} (hlive : ∀ ch, live ch → live' ch)
    {queue : List Event} (h : Covered live queue) : Covered live' queue := by
  have hnil : Covered live' [] := trivial
  rw [← List.append_nil queue]
  exact hnil.append (fun ch hch => Or.inl (hlive ch hch)) h

/-! ## What a pass queues -/

theorem isLost_progressEvents {ch : ConnectionHandle} {progress : ConnProgress} {e : Event}
    (h : e ∈ Core.progressEvents ch progress) : e.isLost = false := by
  rw [progressEvents_eq, List.mem_append] at h
  rcases h with h | h
  · split at h
    · rw [List.mem_singleton.mp h]
      rfl
    · exact absurd h List.not_mem_nil
  · have hstream := (streamEvents_spec h).1
    simp only [Event.isStream, Bool.and_eq_true, Bool.not_eq_true'] at hstream
    exact hstream.2

/-- **What a pass queues about a handle**: the progress of its connection, and the loss of it. -/
theorem mem_passEvents {core : Core Q} {ord : IterOrder} {now : Instant} {e : Event} :
    e ∈ passEvents core ord now ↔
      ∃ s, (core.routed ord now).connections.lookup e.conn = some s ∧
        (e ∈ Core.progressEvents e.conn s.serviceStreams.1 ∨
          ∃ reason, Core.lossOf s.serviceStreams.1 s.serviceStreams.2 = some reason ∧
            e = .connectionLost e.conn reason) := by
  have hnaming : e ∈ passEvents core ord now ↔ e ∈ naming e.conn (passEvents core ord now) := by
    simp [naming]
  rw [hnaming, naming_passEvents]
  cases (core.routed ord now).connections.lookup e.conn with
  | none => simp
  | some s =>
    simp only [List.mem_append, Option.mem_toList, Option.map_eq_some_iff, Option.some.injEq,
      exists_eq_left']
    exact or_congr_right ⟨fun ⟨reason, hloss, heq⟩ => ⟨reason, hloss, heq.symm⟩,
      fun ⟨reason, hloss, heq⟩ => ⟨reason, hloss, heq.symm⟩⟩

/-- A handle a pass finds live stays, or its loss is queued. -/
theorem mem_pass_or_lost {core : Core Q} (ord : IterOrder) (now : Instant) {ch : ConnectionHandle}
    {s : ConnState Q} (hs : (core.routed ord now).connections.lookup ch = some s) :
    ch ∈ (core.serviceConnections ord now).connections ∨
      ∃ reason, .connectionLost ch reason ∈ (core.serviced ord now).2.lost.map lostEvent := by
  cases hloss : Core.lossOf s.serviceStreams.1 s.serviceStreams.2 with
  | none =>
    have hstays := (Core.lookup_serviceConnections core ord now ch _).mpr ⟨s, hs, hloss, rfl⟩
    exact Or.inl (AMap.mem_iff_lookup.mpr ⟨_, hstays⟩)
  | some reason =>
    refine Or.inr ⟨reason, List.mem_map.mpr ⟨(ch, reason), ?_, rfl⟩⟩
    exact Core.mem_lost.mpr ⟨s, hs, hloss⟩

/-- A handle whose loss a pass queues is gone after it. -/
theorem notMem_of_loss {core : Core Q} {ord : IterOrder} {now : Instant} {ch : ConnectionHandle}
    {s : ConnState Q} {reason : ConnectionError}
    (hs : (core.routed ord now).connections.lookup ch = some s)
    (hloss : Core.lossOf s.serviceStreams.1 s.serviceStreams.2 = some reason) :
    ch ∉ (core.serviceConnections ord now).connections := by
  intro hmem
  obtain ⟨s', hs'⟩ := AMap.mem_iff_lookup.mp hmem
  obtain ⟨t, ht, hnone, -⟩ := (Core.lookup_serviceConnections core ord now ch s').mp hs'
  obtain rfl := Option.some.inj (hs.symm.trans ht)
  exact absurd (hloss.symm.trans hnone) (by simp)

theorem covered_passEvents (core : Core Q) (ord : IterOrder) (now : Instant) :
    Covered (· ∈ (core.serviceConnections ord now).connections) (passEvents core ord now) := by
  have hstaged : Covered (fun ch => ∃ s, (core.routed ord now).connections.lookup ch = some s)
      (core.serviced ord now).2.events := by
    refine covered_of_live fun e he _ => ?_
    have hpass : e ∈ passEvents core ord now := List.mem_append_left _ he
    obtain ⟨s, hs, -⟩ := mem_passEvents.mp hpass
    exact ⟨s, hs⟩
  have hlosses : Covered (· ∈ (core.serviceConnections ord now).connections)
      ((core.serviced ord now).2.lost.map lostEvent) := by
    refine covered_of_live fun e he hlost => ?_
    obtain ⟨l, -, rfl⟩ := List.mem_map.mp he
    exact absurd hlost (by simp [lostEvent, Event.isLost])
  refine hlosses.append (fun ch hch => ?_) hstaged
  obtain ⟨s, hs⟩ := hch
  exact mem_pass_or_lost ord now hs

/-! ## The invariant -/

/-- Every queued event names a live handle or stands before its handle's loss; handles are not
used again. -/
structure Queued (core : Core Q) : Prop where
  older : ∀ ch ∈ core.connections, ch.generation < core.nextGeneration
  named : ∀ e ∈ core.events, e.conn.generation < core.nextGeneration
  covered : Covered (· ∈ core.connections) core.events
  gone : ∀ ch reason, .connectionLost ch reason ∈ core.events → ch ∉ core.connections

namespace Queued

variable {core core' : Core Q}

theorem book (h : Queued core) (hframe : Core.Frame core' core)
    (hmem : ∀ ch, ch ∈ core'.connections ↔ ch ∈ core.connections) : Queued core' where
  older ch hch := hframe.nextGeneration ▸ h.older ch ((hmem ch).mp hch)
  named e he := hframe.nextGeneration ▸ h.named e (hframe.events ▸ he)
  covered := hframe.events ▸ h.covered.mono fun ch hch => (hmem ch).mpr hch
  gone ch reason hlost hch := h.gone ch reason (hframe.events ▸ hlost) ((hmem ch).mp hch)

theorem registered {ch : ConnectionHandle} {conn : Q.Conn} {id : String} (h : Queued core)
    (hreg : Endpoint.Registered core core' ch conn id) : Queued core' := by
  have hmem : ∀ a, a ∈ core'.connections ↔ a = ch ∨ a ∈ core.connections := by
    intro a
    rw [hreg.connections, AList.mem_insert]
  refine ⟨fun a ha => ?_, fun e he => ?_, ?_, fun a reason hlost ha => ?_⟩
  · rw [hreg.nextGeneration]
    rcases (hmem a).mp ha with rfl | ha
    · rw [hreg.generation]
      exact Nat.lt_succ_self _
    · exact Nat.lt_succ_of_lt (h.older a ha)
  · rw [hreg.nextGeneration]
    exact Nat.lt_succ_of_lt (h.named e (hreg.events ▸ he))
  · exact hreg.events ▸ h.covered.mono fun a ha => (hmem a).mpr (Or.inr ha)
  · have hlost' : .connectionLost a reason ∈ core.events := hreg.events ▸ hlost
    rcases (hmem a).mp ha with rfl | ha
    · -- The new handle's generation is in no event yet.
      exact absurd (h.named _ hlost') (by simp [Event.conn, hreg.generation])
    · exact h.gone a reason hlost' ha

/-- **A servicing pass keeps the invariant.** -/
theorem pass (h : Queued core) (ord : IterOrder) (now : Instant) :
    Queued (core.serviceConnections ord now) := by
  have hgen : (core.serviceConnections ord now).nextGeneration = core.nextGeneration :=
    Core.serviceConnections_inv (I := fun core' => core'.nextGeneration = core.nextGeneration)
      (fun _ _ hf _ hI => hf.nextGeneration.trans hI) (fun _ _ _ hI => hI)
      (fun _ _ hI hl => by rw [Core.reap_eq hl]; exact hI) ord now rfl
  have hlive : ∀ ch s, (core.routed ord now).connections.lookup ch = some s →
      ch ∈ core.connections := fun ch s hs => Core.mem_routed.mp (AMap.mem_iff_lookup.mpr ⟨s, hs⟩)
  refine ⟨fun ch hch => ?_, fun e he => ?_, ?_, fun ch reason hlost hch => ?_⟩
  · rw [hgen]
    exact h.older ch (Endpoint.mem_serviceConnections hch)
  · rw [hgen]
    rw [events_pass] at he
    rcases List.mem_append.mp he with he | he
    · exact h.named e he
    · obtain ⟨s, hs, -⟩ := mem_passEvents.mp he
      exact h.older _ (hlive _ s hs)
  · rw [events_pass]
    refine (covered_passEvents core ord now).append (fun ch hch => ?_) h.covered
    obtain ⟨s, hs⟩ := AMap.mem_iff_lookup.mp (Core.mem_routed.mpr hch)
    rcases mem_pass_or_lost ord now hs with hstays | ⟨reason, hmem⟩
    · exact Or.inl hstays
    · exact Or.inr ⟨reason, List.mem_append_right _ hmem⟩
  · rw [events_pass] at hlost
    rcases List.mem_append.mp hlost with hlost | hlost
    · exact h.gone ch reason hlost (Endpoint.mem_serviceConnections hch)
    · obtain ⟨s, hs, hprogress | ⟨why, hloss, -⟩⟩ := mem_passEvents.mp hlost
      · exact absurd (isLost_progressEvents hprogress) (by simp [Event.isLost])
      · exact notMem_of_loss hs hloss hch

/-- The queue, less what was taken from its front. -/
theorem behind {front rest : List Event} (h : Queued core) (hq : front ++ rest = core.events)
    (outbound : List Transmit) : Queued { core with outbound := outbound, events := rest } := by
  have hmem : ∀ e ∈ rest, e ∈ core.events := fun e he => hq ▸ List.mem_append_right _ he
  exact ⟨h.older, fun e he => h.named e (hmem e he), Covered.behind (hq ▸ h.covered),
    fun ch reason hlost => h.gone ch reason (hmem _ hlost)⟩

end Queued

/-! ## A public call -/

/-- Where a pass starts, the invariant holds, nothing was queued since the call, and no handle was
reaped. -/
theorem Queued.start {ep : Endpoint Q} {call : Call} {core : Core Q} {ord : IterOrder}
    {now : Instant} (h : Queued ep.toCore)
    (hpass : Endpoint.passStart H ep call = some (core, ord, now)) :
    Queued core ∧ core.events = ep.events ∧ ∀ ch ∈ ep.connections, ch ∈ core.connections := by
  rcases Endpoint.passStart_cases hpass with rfl | rfl | ⟨g, src, data, hfits, hg, rfl⟩
  · exact ⟨h, rfl, fun _ hch => hch⟩
  · exact ⟨h.book ⟨rfl, rfl, rfl, rfl, rfl, rfl⟩ fun _ => AMap.mem_mapValues, rfl,
      fun _ hch => AMap.mem_mapValues.mpr hch⟩
  · rcases Endpoint.fed_spec now src data hfits hg with ⟨hframe, hmem, -⟩ |
      ⟨_, client, _, ch, conn, _, _, _, _, _, hreg⟩
    · exact ⟨h.book hframe hmem, hframe.events, fun a ha => (hmem a).mpr ha⟩
    · refine ⟨h.registered hreg, hreg.events, fun a ha => ?_⟩
      rw [hreg.connections, AList.mem_insert]
      exact Or.inr ha

/-- Without a pass no handle comes or goes. -/
theorem mem_of_no_pass {ep : Endpoint Q} {call : Call} (h : Endpoint.passStart H ep call = none)
    (ch : ConnectionHandle) : ch ∈ (ep.step H call).2.connections ↔ ch ∈ ep.connections := by
  obtain ⟨a, c, -, heq⟩ | ⟨outbound, events, heq⟩ := Endpoint.step_of_no_pass h
  · rw [heq]
    exact Core.mem_onConn
  · rw [heq]

/-- **Every public call keeps the invariant.** -/
theorem Queued.step {ep : Endpoint Q} (call : Call) (h : Queued ep.toCore) :
    Queued (ep.step H call).2.toCore := by
  cases hpass : Endpoint.passStart H ep call with
  | some start =>
    obtain ⟨core, ord, now⟩ := start
    obtain ⟨outbound, heq⟩ := Endpoint.step_of_pass hpass
    have hafter := (h.start hpass).1.pass ord now
    rw [heq]
    exact ⟨hafter.older, hafter.named, hafter.covered, hafter.gone⟩
  | none =>
    have hqueue := taken_of_no_pass hpass
    obtain ⟨ch, c, rfl, heq⟩ | ⟨outbound, events, heq⟩ := Endpoint.step_of_no_pass hpass
    · rw [heq]
      refine h.book ?_ fun _ => Core.mem_onConn
      rw [Core.onConn_eq]
      exact ⟨rfl, rfl, rfl, rfl, rfl, rfl⟩
    · rw [heq] at hqueue ⊢
      exact h.behind hqueue outbound

theorem Queued.new {ep : Endpoint Q} (h : Endpoint.IsNew H ep) : Queued ep.toCore := by
  obtain ⟨hevents, -, holder⟩ := h.spec
  refine ⟨holder, ?_, ?_, ?_⟩ <;> rw [hevents]
  · simp
  · trivial
  · simp

/-! ## Draining -/

/-- `n` calls of `poll_event`. -/
def polls (n : Nat) : List Call := List.replicate n .pollEvent

/-- `poll_event` takes the front of the queue and leaves the connections. -/
theorem step_pollEvent (ep : Endpoint Q) :
    (ep.step H .pollEvent).1 = .event ep.events.head? ∧
      (ep.step H .pollEvent).2.events = ep.events.tail ∧
      (ep.step H .pollEvent).2.connections = ep.connections := by
  show Answer.event ep.toCore.pollEvent.1 = _ ∧ ep.toCore.pollEvent.2.events = _ ∧
    ep.toCore.pollEvent.2.connections = _
  unfold Core.pollEvent
  cases hq : ep.events with
  | nil => exact ⟨rfl, hq, rfl⟩
  | cons e rest => exact ⟨rfl, rfl, rfl⟩

theorem run_polls (ep : Endpoint Q) (n : Nat) :
    (ep.run H (polls n)).events = ep.events.drop n ∧
      (ep.run H (polls n)).connections = ep.connections := by
  induction n generalizing ep with
  | zero => exact ⟨rfl, rfl⟩
  | succ n ih =>
    obtain ⟨-, hevents, hconns⟩ := step_pollEvent (H := H) ep
    obtain ⟨hdrop, hconns'⟩ := ih (ep.step H .pollEvent).2
    exact ⟨by rw [← List.drop_tail, ← hevents]; exact hdrop, hconns'.trans hconns⟩

/-- `conn_mut` finds the connection of each event a drain of the queue hands out, `ConnectionLost`
apart. -/
def Actionable (H : KeyedHash) (ep : Endpoint Q) : Prop :=
  ∀ n e, ((ep.run H (polls n)).step H .pollEvent).1 = .event (some e) → e.isLost = false →
    (((ep.run H (polls n)).step H .pollEvent).2.connections.lookup e.conn).isSome

theorem actionable_iff {ep : Endpoint Q} :
    Actionable H ep ↔ ∀ e ∈ ep.events, e.isLost = false → e.conn ∈ ep.connections := by
  have hpoll : ∀ n, ((ep.run H (polls n)).step H .pollEvent).1 = .event ep.events[n]? ∧
      ((ep.run H (polls n)).step H .pollEvent).2.connections = ep.connections := by
    intro n
    obtain ⟨hdrop, hconns⟩ := run_polls (H := H) ep n
    obtain ⟨hans, -, hconns'⟩ := step_pollEvent (H := H) (ep.run H (polls n))
    rw [hdrop, List.head?_drop] at hans
    exact ⟨hans, hconns'.trans hconns⟩
  constructor
  · intro h e he hlost
    obtain ⟨n, hn⟩ := List.getElem?_of_mem he
    have hlive := h n e (by rw [(hpoll n).1, hn]) hlost
    rw [(hpoll n).2] at hlive
    exact AList.lookup_isSome.mp hlive
  · intro h n e hans hlost
    rw [(hpoll n).1] at hans
    rw [(hpoll n).2, AList.lookup_isSome]
    exact h e (List.mem_of_getElem? (Answer.event.inj hans)) hlost

/-! ## Orderly passes -/

/-- Every connection the pass will find lost has no event in the queue, and nothing to report but
its end. -/
def Orderly (core : Core Q) (ord : IterOrder) (now : Instant) : Prop :=
  ∀ ch s, (core.routed ord now).connections.lookup ch = some s →
    Core.lossOf s.serviceStreams.1 s.serviceStreams.2 ≠ none →
      (∀ e ∈ core.events, e.isLost = false → e.conn ≠ ch) ∧
        Core.progressEvents ch s.serviceStreams.1 = []

/-- Every servicing pass of a run is orderly. -/
def OrderlyPasses (H : KeyedHash) : Endpoint Q → List Call → Prop
  | _, [] => True
  | ep, call :: calls =>
    (∀ core ord now, Endpoint.passStart H ep call = some (core, ord, now) → Orderly core ord now) ∧
      OrderlyPasses H (ep.step H call).2 calls

/-- **A pass strands an event exactly when it is not orderly.** -/
theorem orderly_iff {core : Core Q} (ord : IterOrder) (now : Instant)
    (h : ∀ e ∈ core.events, e.isLost = false → e.conn ∈ core.connections) :
    Orderly core ord now ↔ ∀ e ∈ core.events ++ passEvents core ord now, e.isLost = false →
      e.conn ∈ (core.serviceConnections ord now).connections := by
  have hstays : ∀ ch s, (core.routed ord now).connections.lookup ch = some s →
      Core.lossOf s.serviceStreams.1 s.serviceStreams.2 = none →
        ch ∈ (core.serviceConnections ord now).connections := by
    intro ch s hs hloss
    have hfound := (Core.lookup_serviceConnections core ord now ch _).mpr ⟨s, hs, hloss, rfl⟩
    exact AMap.mem_iff_lookup.mpr ⟨_, hfound⟩
  constructor
  · intro hord e he hlost
    rcases List.mem_append.mp he with he | he
    · have hrouted : e.conn ∈ (core.routed ord now).connections :=
        Core.mem_routed.mpr (h e he hlost)
      obtain ⟨s, hs⟩ := AMap.mem_iff_lookup.mp hrouted
      by_contra hdead
      exact (hord e.conn s hs fun hloss => hdead (hstays _ s hs hloss)).1 e he hlost rfl
    · obtain ⟨s, hs, hprogress | ⟨reason, -, heq⟩⟩ := mem_passEvents.mp he
      · by_contra hdead
        have hnil := (hord e.conn s hs fun hloss => hdead (hstays _ s hs hloss)).2
        rw [hnil] at hprogress
        exact absurd hprogress List.not_mem_nil
      · rw [heq] at hlost
        exact absurd hlost (by simp [Event.isLost])
  · intro hlive ch s hs hloss
    obtain ⟨reason, hreason⟩ := Option.ne_none_iff_exists'.mp hloss
    have hdead := notMem_of_loss hs hreason
    refine ⟨fun e he hlost hconn => ?_, List.eq_nil_iff_forall_not_mem.mpr fun e he => ?_⟩
    · exact hdead (hconn ▸ hlive e (List.mem_append_left _ he) hlost)
    · have hconn := progressEvents_conn he
      refine hdead (hconn ▸ hlive e (List.mem_append_right _ (mem_passEvents.mpr ⟨s, ?_, ?_⟩))
        (isLost_progressEvents he))
      · rw [hconn]
        exact hs
      · rw [hconn]
        exact Or.inl he

/-- One public call, from a state whose queue is actionable. -/
theorem orderly_step {ep : Endpoint Q} (call : Call) (h : Queued ep.toCore)
    (hact : Actionable H ep) :
    (∀ core ord now, Endpoint.passStart H ep call = some (core, ord, now) →
      Orderly core ord now) ↔ Actionable H (ep.step H call).2 := by
  rw [actionable_iff] at hact ⊢
  cases hpass : Endpoint.passStart H ep call with
  | some start =>
    obtain ⟨core, ord, now⟩ := start
    obtain ⟨-, hevents, hlive⟩ := h.start hpass
    obtain ⟨outbound, heq⟩ := Endpoint.step_of_pass hpass
    have hqueue : ∀ e ∈ core.events, e.isLost = false → e.conn ∈ core.connections :=
      fun e he hlost => hlive _ (hact e (hevents ▸ he) hlost)
    rw [heq]
    show _ ↔ ∀ e ∈ (core.serviceConnections ord now).events, e.isLost = false →
      e.conn ∈ (core.serviceConnections ord now).connections
    rw [events_pass, ← orderly_iff ord now hqueue]
    constructor
    · intro horderly
      exact horderly core ord now rfl
    · rintro horderly core' ord' now' ⟨⟩
      exact horderly
  | none =>
    refine ⟨fun _ e he hlost => (mem_of_no_pass hpass e.conn).mpr (hact e ?_ hlost),
      fun _ core ord now hsome => absurd hsome (by simp)⟩
    rw [← taken_of_no_pass hpass]
    exact List.mem_append_right _ he

theorem orderly_run {ep : Endpoint Q} (h : Queued ep.toCore) (hact : Actionable H ep)
    (calls : List Call) :
    OrderlyPasses H ep calls ↔ ∀ done, done <+: calls → Actionable H (ep.run H done) := by
  induction calls generalizing ep with
  | nil =>
    refine ⟨fun _ done hdone => ?_, fun _ => trivial⟩
    rw [List.prefix_nil.mp hdone]
    exact hact
  | cons call calls ih =>
    have hstep := orderly_step call h hact
    constructor
    · rintro ⟨hfirst, hrest⟩ done hdone
      rcases List.prefix_cons_iff.mp hdone with rfl | ⟨rest, rfl, hprefix⟩
      · exact hact
      · exact (ih (h.step call) (hstep.mp hfirst)).mp hrest rest hprefix
    · intro hall
      have hnext : Actionable H (ep.step H call).2 :=
        hall [call] (List.prefix_cons_iff.mpr (Or.inr ⟨[], rfl, List.nil_prefix⟩))
      exact ⟨hstep.mpr hnext, (ih (h.step call) hnext).mpr fun done hdone =>
        hall (call :: done) (List.prefix_cons_iff.mpr (Or.inr ⟨done, rfl, hdone⟩))⟩

/-! ## Whole runs -/

/-- **Which events can be acted on.** In every run of an endpoint of either role: `conn_mut` finds
the connection of a polled event, `ConnectionLost` apart, exactly when the `ConnectionLost` of that
connection was not in the queue; and it finds the connection of every event, whenever it is polled,
exactly when no servicing pass reaps a connection that has an event in the queue, or something else
than its end to report in that pass. -/
theorem events_actionable (H : KeyedHash) (ep₀ : Endpoint Q) (hnew : Endpoint.IsNew H ep₀)
    (calls : List Call) :
    (∀ e, ((ep₀.run H calls).step H .pollEvent).1 = .event (some e) → e.isLost = false →
      ((((ep₀.run H calls).step H .pollEvent).2.connections.lookup e.conn).isSome ↔
        ∀ reason, .connectionLost e.conn reason ∉ (ep₀.run H calls).events)) ∧
    (OrderlyPasses H ep₀ calls ↔
      ∀ done, done <+: calls → Actionable H (ep₀.run H done)) := by
  have h₀ : Queued ep₀.toCore := .new hnew
  refine ⟨fun e hans hlost => ?_, orderly_run h₀ ?_ calls⟩
  · have h : Queued (ep₀.run H calls).toCore :=
      Endpoint.run_inv (I := fun ep => Queued ep.toCore) (fun _ call h => h.step call) calls h₀
    obtain ⟨hhead, -, hconns⟩ := step_pollEvent (H := H) (ep₀.run H calls)
    rw [hhead] at hans
    rw [hconns, AList.lookup_isSome]
    obtain ⟨rest, hq⟩ := List.head?_eq_some_iff.mp (Answer.event.inj hans)
    have hcovered := h.covered
    rw [hq] at hcovered
    refine ⟨fun hlive reason hmem => h.gone e.conn reason hmem hlive, fun hnone => ?_⟩
    rcases hcovered.1 hlost with hlive | ⟨reason, hmem⟩
    · exact hlive
    · exact absurd (hq ▸ List.mem_cons_of_mem _ hmem) (hnone reason)
  · rw [actionable_iff, hnew.spec.1]
    simp

/-- The handshake completes, and the peer says nothing else. -/
def greeting : List Call := [Endpoint.arrival (Endpoint.toFirst [0x1e])]

theorem events_actionable_greeting :
    Endpoint.IsNew zeroHash Endpoint.miniClient ∧
      OrderlyPasses zeroHash Endpoint.miniClient greeting ∧
      ((Endpoint.miniClient.run zeroHash greeting).step zeroHash .pollEvent).1 =
        .event (some (.connected ⟨0, 1⟩)) ∧
      (((Endpoint.miniClient.run zeroHash greeting).step zeroHash .pollEvent).2.connections.lookup
        ⟨0, 1⟩).isSome := by
  have hpolled : ((Endpoint.miniClient.run zeroHash greeting).step zeroHash .pollEvent).1 =
      .event (some (.connected ⟨0, 1⟩)) := by
    rw [(step_pollEvent _).1]
    exact congrArg Answer.event (by decide)
  have hnone : ∀ reason, Event.connectionLost ⟨0, 1⟩ reason ∉
      (Endpoint.miniClient.run zeroHash greeting).events := by
    have hevents : (Endpoint.miniClient.run zeroHash greeting).events = [.connected ⟨0, 1⟩] := by
      decide
    simp [hevents]
  obtain ⟨hpoll, horderly⟩ := events_actionable zeroHash Endpoint.miniClient
    Endpoint.miniClient_new greeting
  refine ⟨Endpoint.miniClient_new, horderly.mpr fun done hdone => actionable_iff.mpr ?_, hpolled,
    (hpoll _ hpolled rfl).mpr hnone⟩
  rcases List.prefix_cons_iff.mp hdone with rfl | ⟨rest, rfl, hrest⟩
  · decide
  · rw [List.prefix_nil.mp hrest]
    decide

/-- A peer's stream with a byte, and its CONNECTION_CLOSE, in one datagram. -/
def lastWords : List Call := [Endpoint.arrival (Endpoint.toFirst [0x0a, 1, 7])]

/-- The stream is announced, and nobody can accept it any more. -/
theorem stream_announced_dead :
    Endpoint.IsNew zeroHash Endpoint.miniClient ∧
      ((Endpoint.miniClient.run zeroHash lastWords).step zeroHash .pollEvent).1 =
        .event (some (.streamOpened ⟨0, 1⟩ 1 .bi)) ∧
      (((Endpoint.miniClient.run zeroHash lastWords).step zeroHash .pollEvent).2.connections.lookup
        ⟨0, 1⟩).isSome = false := by
  refine ⟨Endpoint.miniClient_new, ?_, by decide⟩
  rw [(step_pollEvent _).1]
  exact congrArg Answer.event (by decide)

end QuietQuic.Proto
