import QuietQuic.Proto.Terminal
import QuietQuic.Tokio.Calls

/-!
# Waiting for the end of a send half

A `WaitFinished` is answered from the core's `send_fin` when its command is applied, or parked while
that says `Queued`, and then answered by the `StreamFinAcked` or `StreamStopped` of its stream. The
core learns of the end of a stream in a servicing pass, or from a `Finish` that a stop refuses, and
the event is dispatched some time later.

A `FinLog` is the history of one stream: whether a `Finish` has succeeded, what the core was told
about the end of the stream and in which order, and which `WaitFinished` were applied, `early` ones
before any of that and `late` ones after.

* `Facts.step`: `send_fin` is the first report, and so is every event that announces one.
* `Waits.step`: a waiter that is still parked waits for an event that is queued or to come.
* `wait_finished_agrees`: every run without a `Reset` or `ReleaseSend` of the stream.
-/

namespace QuietQuic.Tokio

open QuietQuic.Lib QuietQuic.Proto

variable {Q : Quinn}

/-! ## The history of a stream's end -/

/-- The terminal fact of `id` that an event announces. -/
def endOf (id : StreamId) : Event → Option SendFin
  | .streamFinAcked _ a => if a = id then some .acked else none
  | .streamStopped _ a code => if a = id then some (.stopped code) else none
  | _ => none

/-- What a waiter is told about a terminal fact. -/
def waitAnswer : SendFin → Except ConnError Unit
  | .acked => .ok ()
  | .stopped code => .error (.stopped code)
  | .queued => .error .closedStream

/-- The command does not release the send half of `id`. -/
def Cmd.Keeps (id : StreamId) : Cmd → Prop
  | .reset a _ _ | .releaseSend a => a ≠ id
  | _ => True

namespace Sys

/-- The action is a `Finish` of `id` that succeeds. -/
def finishes (id : StreamId) (s : Sys Q) : Action Q → Bool
  | .execute _ =>
    match s.commands with
    | .finish a _ :: _ => a = id && (s.core.streamFinish id).1.isOk
    | _ => false
  | _ => false

/-- What the core is told about the end of `id` in an action. -/
def reports (id : StreamId) (s : Sys Q) : Action Q → List SendFin
  | .execute _ =>
    match s.commands with
    | .finish a _ :: _ => if a = id then s.core.finishReport id else []
    | _ => []
  | .service now =>
    if (Core.serviceOne now s.handle s.core).2.lost = [] then s.core.reported id else []
  | _ => []

/-- The `WaitFinished` of `id` an action applies. -/
def waits (id : StreamId) (s : Sys Q) : Action Q → Option Token
  | .execute _ =>
    match s.commands with
    | .waitFinished a t :: _ => if a = id then some t else none
    | _ => none
  | _ => none

/-- The terminal fact of `id` an action dispatches. -/
def dispatches (id : StreamId) (s : Sys Q) : Action Q → Option SendFin
  | .dispatch => s.events.head?.bind (endOf id)
  | _ => none

/-- The application does not release the send half of `id` in an action. -/
def Keeps (id : StreamId) (_ : Sys Q) : Action Q → Prop
  | .issue cmd => cmd.Keeps id
  | _ => True

end Sys

/-- The history of the end of a stream. -/
structure FinLog where
  /-- A `Finish` has succeeded. -/
  finished : Bool
  /-- What the core was told about the end of the stream, in order. -/
  reports : List SendFin
  /-- What was dispatched of it. -/
  dispatched : List SendFin
  /-- The `WaitFinished` applied before any `Finish` that succeeded and any stop. -/
  early : List Token
  /-- The others. -/
  late : List Token

namespace FinLog

def empty : FinLog := ⟨false, [], [], [], []⟩

/-- No `Finish` has succeeded and no stop was recorded. -/
def untouched (log : FinLog) : Bool :=
  !log.finished && !log.reports.any fun
    | .stopped _ => true
    | _ => false

/-- One action is entered. -/
def enter (id : StreamId) (log : FinLog) (s : Sys Q) (a : Action Q) : FinLog where
  finished := log.finished || s.finishes id a
  reports := log.reports ++ s.reports id a
  dispatched := log.dispatched ++ (s.dispatches id a).toList
  early := log.early ++ if log.untouched then (s.waits id a).toList else []
  late := log.late ++ if log.untouched then [] else (s.waits id a).toList

/-- A run is entered. -/
def enterAll (id : StreamId) : FinLog → Sys Q → List (Action Q) → FinLog
  | log, _, [] => log
  | log, s, a :: actions => (log.enter id s a).enterAll id (s.step a) actions

end FinLog

/-! ## The core -/

section Core

variable {id : StreamId} {s : Sys Q} {a : Action Q}

/-- An action that is neither a pass nor a finish of `id` calls nothing that touches the fact. -/
theorem asks_quiet (hkept : ∀ cmd ∈ s.commands, cmd.Keeps id) (hservice : ∀ now, a ≠ .service now)
    (hfinish : ∀ t rest now, s.commands = .finish id t :: rest → a ≠ .execute now)
    {o : ConnOp Q} (ho : s.Asks a o) :
    ¬ ConnState.Drops id o ∧ o ≠ .call .serviceStreams ∧ o ≠ .call (.streamFinish id) := by
  have hreads : ∀ {b : StreamId}, ReadsOf b o →
      ¬ ConnState.Drops id o ∧ o ≠ .call .serviceStreams ∧ o ≠ .call (.streamFinish id) := by
    rintro b (⟨len, rfl⟩ | rfl) <;> exact ⟨fun h => h, by simp, by simp⟩
  have hwrites : ∀ {b : StreamId}, WritesOf b o →
      ¬ ConnState.Drops id o ∧ o ≠ .call .serviceStreams ∧ o ≠ .call (.streamFinish id) := by
    rintro b ⟨buf, rfl⟩
    exact ⟨fun h => h, by simp, by simp⟩
  cases a with
  | execute now =>
    obtain ⟨cmd, rest, hcmds, ho⟩ := ho
    have hkeep : cmd.Keeps id := hkept cmd (by rw [hcmds]; exact List.mem_cons_self)
    cases cmd with
    | write => exact hwrites ho
    | readToEnd | read => exact hreads ho
    | finish b t =>
      obtain rfl := ho
      refine ⟨fun h => h, by simp, fun heq => ?_⟩
      obtain rfl : b = id := by simpa using heq
      exact hfinish t rest now hcmds rfl
    | reset b code t =>
      obtain rfl := ho
      exact ⟨hkeep, by simp, by simp⟩
    | releaseSend b =>
      obtain rfl := ho
      exact ⟨hkeep, by simp, by simp⟩
    | waitFinished => exact ho.elim
    | close =>
      obtain ⟨_, rfl⟩ := ho
      exact ⟨fun h => h, by simp, by simp⟩
    | _ =>
      obtain rfl := ho
      exact ⟨fun h => h, by simp, by simp⟩
  | dispatch =>
    obtain ⟨e, rest, -, ho⟩ := ho
    cases e with
    | streamOpened =>
      obtain rfl := ho
      exact ⟨fun h => h, by simp, by simp⟩
    | streamReadable => exact hreads ho
    | streamWritable | streamStopped => exact hwrites ho
    | _ => exact ho.elim
  | service now => exact absurd rfl (hservice now)
  | handleEvent | handleTimeout | endpointEvent =>
    obtain ⟨f, rfl⟩ := ho
    exact ⟨fun h => h, by simp, by simp⟩
  | issue | cancel | receive => exact ho.elim

/-- **The facts of a stream**: `send_fin` is the first thing the core was told about its end, or
else says whether a `Finish` has succeeded; what is queued for the driver, and what was dispatched,
is that same report. -/
structure Facts (F : Q.FinAcks) (id : StreamId) (log : FinLog) (s : Sys Q) : Prop where
  kept : ∀ cmd ∈ s.commands, cmd.Keeps id
  ends : ∀ f ∈ log.reports, f.Ends
  fact : s.core.sendFin id = ConnState.factOf (ConnState.baseOf log.finished) log.reports
  queued : F.queued s.core.conn id → log.finished = true
  acked : .acked ∈ log.reports → log.finished = true
  events : ∀ e ∈ s.events, ∀ f, endOf id e = some f → log.reports.head? = some f
  dispatched : ∀ f ∈ log.dispatched, log.reports.head? = some f

/-- What an action does to the core's view of the end of `id`. -/
structure CoreStep (F : Q.FinAcks) (id : StreamId) (log : FinLog) (s : Sys Q) (core : ConnState Q)
    (finishes : Bool) (reports : List SendFin) : Prop where
  ends : ∀ f ∈ reports, f.Ends
  fact : core.sendFin id =
    ConnState.factOf (ConnState.baseOf (log.finished || finishes)) (log.reports ++ reports)
  queued : F.queued core.conn id → (log.finished || finishes) = true
  acked : .acked ∈ reports → log.finished = true

variable {F : Q.FinAcks} {log : FinLog}

/-- Nothing about `id`. -/
theorem CoreStep.quiet (h : Facts F id log s) {core : ConnState Q}
    (hfact : core.sendFin id = s.core.sendFin id)
    (hqueued : F.queued core.conn id → F.queued s.core.conn id) :
    CoreStep F id log s core false [] := by
  refine ⟨by simp, ?_, fun hq => ?_, by simp⟩
  · rw [Bool.or_false, List.append_nil, hfact]
    exact h.fact
  · rw [Bool.or_false]
    exact h.queued (hqueued hq)

/-- A `Finish`. -/
theorem CoreStep.finish (h : Facts F id log s) :
    CoreStep F id log s (s.core.streamFinish id).2 (s.core.streamFinish id).1.isOk
      (s.core.finishReport id) := by
  have hstop : ∀ f ∈ s.core.finishReport id, ∃ code, f = .stopped code := by
    intro f hf
    unfold ConnState.finishReport at hf
    split at hf
    · exact ⟨_, List.mem_singleton.mp hf⟩
    · exact absurd hf List.not_mem_nil
  refine ⟨fun f hf => ?_, ConnState.streamFinish_reports h.fact, fun hq => ?_, fun hmem => ?_⟩
  · obtain ⟨code, rfl⟩ := hstop f hf
    trivial
  · cases hok : (s.core.streamFinish id).1.isOk with
    | true => exact Bool.or_true _
    | false =>
      rw [Bool.or_false]
      exact h.queued (ConnState.streamFinish_queued F hok hq)
  · obtain ⟨code, hcode⟩ := hstop _ hmem
    exact absurd hcode (by simp)

/-- A servicing pass. -/
theorem CoreStep.service (h : Facts F id log s) (now : Instant) :
    CoreStep F id log s (Core.serviceOne now s.handle s.core).1 false (s.core.reported id) := by
  obtain ⟨hconn, hacked⟩ := ConnState.serviceStreams_queued F s.core id
  refine ⟨fun f hf => ConnState.endsPolled_ends hf, ?_, fun hq => ?_, fun hmem => ?_⟩
  · rw [Bool.or_false]
    exact (ConnState.serviceStreams_reports (ConnState.baseOf_cases _) h.ends h.fact).1
  · rw [Bool.or_false]
    refine h.queued (hconn ?_)
    exact (Core.drainTransmits_steps now s.core.serviceStreams.2.conn).keeps
      (I := fun c => F.queued c id → F.queued s.core.serviceStreams.2.conn id)
      (by rintro c l c' rfl hstep hc hq; exact hc (F.finishes hstep (by simp) hq)) (fun hq => hq) hq
  · exact h.queued (hacked hmem)

/-- **What one action does to the core.** -/
theorem Facts.core_step (h : Facts F id log s) (a : Action Q) :
    CoreStep F id log s (s.step a).core (s.finishes id a) (s.reports id a) := by
  have hquiet : (∀ now, a ≠ .service now) →
      (∀ t rest now, s.commands = .finish id t :: rest → a ≠ .execute now) →
      CoreStep F id log s (s.step a).core false [] := by
    intro hservice hfinish
    have hkeeps := (s.step_driven a).keeps
      (I := fun c => c.sendFin id = s.core.sendFin id ∧ (F.queued c.conn id → F.queued s.core.conn id))
      (fun o c ho hasks hc => by
        obtain ⟨hdrop, hpass, hfin⟩ := asks_quiet h.kept hservice hfinish hasks
        exact ⟨(ConnState.op_sendFin hdrop hpass hfin).trans hc.1,
          fun hq => hc.2 (ConnState.op_queued F ho hfin hq)⟩)
      ⟨rfl, fun hq => hq⟩
    exact .quiet h hkeeps.1 hkeeps.2
  cases a with
  | service now =>
    simp only [Sys.step, Sys.finishes, Sys.reports]
    split
    · exact .service h now
    · exact .quiet h rfl fun hq => hq
  | execute now =>
    simp only [Sys.finishes, Sys.reports]
    split
    · rename_i b t rest hcmds
      by_cases hb : b = id
      · subst hb
        simp only [Sys.step, hcmds, decide_true, Bool.true_and, if_true]
        exact .finish h
      · simp only [hb, decide_false, Bool.false_and, if_false]
        refine hquiet (by simp) fun t' rest' now' hcmds' _ => hb ?_
        exact (Cmd.finish.inj (List.cons.inj (hcmds.symm.trans hcmds')).1).1
    · rename_i hnot
      exact hquiet (by simp) fun t rest _ hcmds => absurd hcmds (hnot id t rest)
  | _ => exact hquiet (by simp) (by simp)

/-! ## The events -/

/-- A command in the channel was there before or is issued. -/
theorem mem_commands_step {cmd : Cmd} (h : cmd ∈ (s.step a).commands) :
    cmd ∈ s.commands ∨ a = .issue cmd := by
  have hstep := Sys.taken s a
  generalize s.step a = s' at hstep h
  cases hstep with
  | told | issued => exact (List.mem_append.mp h).imp_right fun h => by rw [List.mem_singleton.mp h]
  | executed now hcmds =>
    rw [hcmds]
    exact Or.inl (List.mem_cons_of_mem _ h)
  | _ => exact Or.inl h

/-- A queued event was there before or comes from a pass. -/
theorem mem_events_step {e : Event} (h : e ∈ (s.step a).events) :
    e ∈ s.events ∨ ∃ now, a = .service now ∧ (Core.serviceOne now s.handle s.core).2.lost = [] ∧
      e ∈ Core.progressEvents s.handle s.core.serviceStreams.1 := by
  cases a with
  | service now =>
    simp only [Sys.step] at h
    split at h
    · rename_i hlost
      exact (List.mem_append.mp h).imp_right fun h => ⟨now, rfl, hlost, h⟩
    · exact Or.inl h
  | dispatch =>
    simp only [Sys.step] at h
    split at h
    · exact Or.inl h
    · rename_i hevents
      rw [hevents]
      exact Or.inl (List.mem_cons_of_mem _ h)
  | execute now =>
    simp only [Sys.step] at h
    split at h <;> exact Or.inl h
  | issue cmd =>
    simp only [Sys.step] at h
    split at h
    · exact Or.inl h
    · split at h <;> exact Or.inl h
  | receive t =>
    simp only [Sys.step] at h
    split at h
    · split at h <;> exact Or.inl h
    · exact Or.inl h
  | _ => exact Or.inl h

/-- A pass queues the events of what it announces. -/
theorem endOf_progressEvents (ch : ConnectionHandle) {progress : ConnProgress} {f : SendFin} :
    (∃ e ∈ Core.progressEvents ch progress, endOf id e = some f) ↔ f ∈ progress.announced id := by
  constructor
  · rintro ⟨e, he, hf⟩
    simp only [Core.progressEvents, List.mem_append, List.mem_map] at he
    rcases he with ((((he | ⟨_, -, rfl⟩) | ⟨_, -, rfl⟩) | ⟨_, -, rfl⟩) | ⟨b, hb, rfl⟩) | ⟨x, hx, rfl⟩
    · split at he
      · rw [List.mem_singleton.mp he] at hf
        exact absurd hf (by simp [endOf])
      · exact absurd he List.not_mem_nil
    · exact absurd hf (by simp [endOf])
    · exact absurd hf (by simp [endOf])
    · exact absurd hf (by simp [endOf])
    · obtain ⟨rfl, rfl⟩ : b = id ∧ .acked = f := by simpa [endOf] using hf
      refine List.mem_append_left _ (List.mem_map.mpr ⟨b, List.mem_filter.mpr ⟨hb, by simp⟩, rfl⟩)
    · obtain ⟨rfl, rfl⟩ : x.1 = id ∧ .stopped x.2 = f := by simpa [endOf] using hf
      refine List.mem_append_right _ (List.mem_map.mpr ⟨x, List.mem_filter.mpr ⟨hx, by simp⟩, rfl⟩)
  · intro hf
    rcases List.mem_append.mp hf with hf | hf
    · obtain ⟨b, hb, rfl⟩ := List.mem_map.mp hf
      obtain ⟨hmem, heq⟩ := List.mem_filter.mp hb
      obtain rfl : b = id := by simpa using heq
      exact ⟨.streamFinAcked ch b, by simp [Core.progressEvents, hmem], by simp [endOf]⟩
    · obtain ⟨x, hx, rfl⟩ := List.mem_map.mp hf
      obtain ⟨hmem, heq⟩ := List.mem_filter.mp hx
      obtain rfl : x.1 = id := by simpa using heq
      refine ⟨.streamStopped ch x.1 x.2, ?_, by simp [endOf]⟩
      exact List.mem_append_right _ (List.mem_map.mpr ⟨x, hmem, rfl⟩)

/-- What is dispatched was at the front of the queue. -/
theorem dispatches_event {f : SendFin} (h : s.dispatches id a = some f) :
    ∃ e rest, s.events = e :: rest ∧ endOf id e = some f := by
  cases a with
  | dispatch =>
    obtain ⟨e, hhead, hend⟩ := Option.bind_eq_some_iff.mp h
    obtain ⟨rest, hevents⟩ := List.head?_eq_some_iff.mp hhead
    exact ⟨e, rest, hevents, hend⟩
  | _ => exact absurd h (by simp [Sys.dispatches])

/-- **One action**, which does not release the stream. -/
theorem Facts.step (h : Facts F id log s) (hkeep : s.Keeps id a) :
    Facts F id (log.enter id s a) (s.step a) := by
  have hcore := h.core_step a
  have hhead : ∀ f, log.reports.head? = some f → (log.reports ++ s.reports id a).head? = some f := by
    intro f hf
    rw [List.head?_append, hf]
    rfl
  refine ⟨fun cmd hcmd => ?_, fun f hf => ?_, hcore.fact, hcore.queued, fun hmem => ?_,
    fun e he f hf => ?_, fun f hf => ?_⟩
  · rcases mem_commands_step hcmd with hcmd | rfl
    · exact h.kept cmd hcmd
    · exact hkeep
  · rcases List.mem_append.mp hf with hf | hf
    · exact h.ends f hf
    · exact hcore.ends f hf
  · show (log.finished || s.finishes id a) = true
    rcases List.mem_append.mp hmem with hmem | hmem
    · rw [h.acked hmem, Bool.true_or]
    · rw [hcore.acked hmem, Bool.true_or]
  · rcases mem_events_step he with he | ⟨now, rfl, hlost, he⟩
    · exact hhead f (h.events e he f hf)
    · have hann := (endOf_progressEvents s.handle).mp ⟨e, he, hf⟩
      rw [(ConnState.serviceStreams_reports (ConnState.baseOf_cases _) h.ends h.fact).2] at hann
      show (log.reports ++ s.reports id (.service now)).head? = some f
      rw [Sys.reports, if_pos hlost]
      split at hann
      · rename_i hnil
        rw [hnil]
        simpa using hann
      · exact absurd hann List.not_mem_nil
  · rcases List.mem_append.mp hf with hf | hf
    · exact hhead f (h.dispatched f hf)
    · obtain ⟨e, rest, hevents, hend⟩ := dispatches_event (Option.mem_toList.mp hf)
      exact hhead f (h.events e (by rw [hevents]; exact List.mem_cons_self) f hend)

end Core

/-! ## The waiters -/

section Waiters

variable {id : StreamId} {p : Parked} {core : ConnState Q}

/-- A command that neither waits for `id` nor releases it leaves its waiters parked. -/
theorem applyCmd_waiters {cmd : Cmd} (hkeep : cmd.Keeps id) (hwait : cmd.slot ≠ some (.fin id))
    (now : Instant) :
    (p.applyCmd core cmd now).parked.tokens (.fin id) = p.tokens (.fin id) := by
  have hsame : ∀ {q : Parked}, q.finWaiters.lookup id = p.finWaiters.lookup id →
      q.tokens (.fin id) = p.tokens (.fin id) := fun h => by
    simp only [Parked.tokens, h]
  cases cmd with
  | acceptBi t =>
    simp only [Parked.applyCmd]
    split <;> exact hsame rfl
  | write a data t =>
    exact hsame (congrArg (AList.lookup id) (p.offerWrite_parked core a _).2)
  | waitFinished a t =>
    have hne : id ≠ a := fun heq => hwait (by rw [heq]; rfl)
    simp only [Parked.applyCmd]
    split
    case h_3 => exact hsame (AList.lookup_insert_ne hne)
    all_goals exact hsame rfl
  | reset a code t =>
    simp only [Parked.applyCmd]
    split
    · exact hsame (AList.lookup_erase_ne (Ne.symm hkeep))
    · exact hsame rfl
  | stop a code t =>
    simp only [Parked.applyCmd]
    split <;> exact hsame rfl
  | readToEnd a limit t => exact hsame (congrArg (AList.lookup id) (p.offerRead_parked core a _).2)
  | read a len t => exact hsame (congrArg (AList.lookup id) (p.offerRead_parked core a _).2)
  | _ => exact hsame rfl

/-- Only the end of `id` touches its waiters. -/
theorem onEvent_waiters {e : Event} (h : endOf id e = none) :
    (p.onEvent core e).parked.tokens (.fin id) = p.tokens (.fin id) := by
  have hwritable : ∀ (q : Parked) (a : StreamId),
      (q.onWritable core a).parked.tokens (.fin id) = q.tokens (.fin id) := fun q a =>
    (onWritable_releases q a core).other (.fin id) (by simp)
  cases e with
  | streamReadable ch a => exact (onReadable_releases p a core).other (.fin id) (by simp)
  | streamWritable ch a => exact hwritable p a
  | streamFinAcked ch a =>
    have hne : id ≠ a := fun heq => absurd h (by simp [endOf, heq])
    exact (waiters_releases p a (.done (.ok ())) trivial).other (.fin id) (by simpa using hne)
  | streamStopped ch a code =>
    have hne : id ≠ a := fun heq => absurd h (by simp [endOf, heq])
    refine (hwritable _ a).trans ?_
    exact (waiters_releases p a (.done (.error (.stopped code))) trivial).other (.fin id)
      (by simpa using hne)
  | _ => rfl

/-- **The end of `id` is dispatched**: every waiter is told, and none is left. -/
theorem onEvent_end (p : Parked) (core : ConnState Q) {e : Event} {f : SendFin}
    (h : endOf id e = some f) :
    (p.onEvent core e).parked.tokens (.fin id) = [] ∧
      ∀ t ∈ p.tokens (.fin id), (t, .done (waitAnswer f)) ∈ (p.onEvent core e).sent := by
  cases e with
  | streamFinAcked ch a =>
    obtain ⟨rfl, rfl⟩ : a = id ∧ .acked = f := by simpa [endOf] using h
    refine ⟨by simp [Parked.onEvent, Parked.onFinAcked, Parked.tokens], fun t ht => ?_⟩
    exact List.mem_map.mpr ⟨t, ht, rfl⟩
  | streamStopped ch a code =>
    obtain ⟨rfl, rfl⟩ : a = id ∧ .stopped code = f := by simpa [endOf] using h
    refine ⟨?_, fun t ht => List.mem_append_left _ (List.mem_map.mpr ⟨t, ht, rfl⟩)⟩
    refine ((onWritable_releases _ a core).other (.fin a) (by simp)).trans ?_
    simp [Parked.tokens]
  | _ => exact absurd h (by simp [endOf])

/-- **A `WaitFinished` is applied**: it is parked while the FIN is queued, and otherwise told. -/
theorem applyCmd_wait (p : Parked) (core : ConnState Q) (t : Token) (now : Instant) :
    ((core.sendFin id = some .queued ∧
        (p.applyCmd core (.waitFinished id t) now).parked.tokens (.fin id) =
          p.tokens (.fin id) ++ [t]) ∨
      (core.sendFin id ≠ some .queued ∧
        (p.applyCmd core (.waitFinished id t) now).parked = p ∧
        (t, .done (waitAnswer ((core.sendFin id).getD .queued))) ∈
          (p.applyCmd core (.waitFinished id t) now).sent)) := by
  simp only [Parked.applyCmd]
  split
  · rename_i hfact
    exact Or.inr ⟨by simp [hfact], rfl, by simp [hfact, waitAnswer]⟩
  · rename_i hfact
    exact Or.inr ⟨by simp [hfact], rfl, by simp [hfact, waitAnswer]⟩
  · rename_i hfact
    exact Or.inl ⟨hfact, by simp [Parked.tokens]⟩
  · rename_i hfact
    exact Or.inr ⟨by simp [hfact], rfl, by simp [hfact, waitAnswer]⟩

end Waiters

section Actions

variable {F : Q.FinAcks} {id : StreamId} {log : FinLog} {s : Sys Q} {a : Action Q}

/-- A `WaitFinished` is applied. -/
theorem step_waits {t : Token} (h : s.waits id a = some t) :
    ∃ rest now, a = .execute now ∧ s.commands = .waitFinished id t :: rest ∧
      s.step a = Sys.after { s with commands := rest }
        (s.parked.applyCmd s.core (.waitFinished id t) now) := by
  cases a with
  | execute now =>
    simp only [Sys.waits] at h
    split at h
    · rename_i b t' rest hcmds
      obtain ⟨rfl, rfl⟩ : b = id ∧ t' = t := by simpa using h
      exact ⟨rest, now, rfl, hcmds, by simp [Sys.step, hcmds]⟩
    · exact absurd h (by simp)
  | _ => exact absurd h (by simp [Sys.waits])

/-- The end of the stream is dispatched. -/
theorem step_end {f : SendFin} (h : s.dispatches id a = some f) :
    (s.step a).parked.tokens (.fin id) = [] ∧
      ∀ t ∈ s.parked.tokens (.fin id), (t, .done (waitAnswer f)) ∈ (s.step a).sent := by
  cases a with
  | dispatch =>
    obtain ⟨e, rest, hevents, hend⟩ := dispatches_event h
    obtain ⟨hnone, htold⟩ := onEvent_end s.parked s.core hend
    simp only [Sys.step, hevents]
    exact ⟨hnone, fun t ht => List.mem_append_right _ (htold t ht)⟩
  | _ => exact absurd h (by simp [Sys.dispatches])

/-- An action that neither waits for the stream nor dispatches its end. -/
theorem step_waiters (hkept : ∀ cmd ∈ s.commands, cmd.Keeps id) (hwaits : s.waits id a = none)
    (hend : s.dispatches id a = none) :
    (s.step a).parked.tokens (.fin id) = s.parked.tokens (.fin id) := by
  have hstep := Sys.taken s a
  generalize s.step a = s' at hstep ⊢
  cases hstep with
  | @executed cmd rest now hcmds =>
    have hkeep : cmd.Keeps id := hkept cmd (by rw [hcmds]; exact List.mem_cons_self)
    refine applyCmd_waiters hkeep (fun hslot => ?_) now
    cases cmd with
    | waitFinished b t =>
      obtain rfl : b = id := by simpa [Cmd.slot] using hslot
      exact absurd hwaits (by simp [Sys.waits, hcmds])
    | _ => exact absurd hslot (by simp [Cmd.slot])
  | @dispatched e rest hevents => exact onEvent_waiters (by simpa [Sys.dispatches, hevents] using hend)
  | _ => rfl

/-- An event that is not dispatched stays queued. -/
theorem mem_events_kept {e : Event} (he : e ∈ s.events) (hend : endOf id e ≠ none)
    (hnot : s.dispatches id a = none) : e ∈ (s.step a).events := by
  have hstep := Sys.taken s a
  generalize s.step a = s' at hstep ⊢
  cases hstep with
  | @dispatched e' rest hevents =>
    rw [hevents] at he
    refine (List.mem_cons.mp he).resolve_left ?_
    rintro rfl
    exact hend (by simpa [Sys.dispatches, hevents] using hnot)
  | serviced now => exact List.mem_append_left _ he
  | _ => exact he

/-! ## One action -/

/-- **The waiters of a stream.** A parked one waits for a FIN that is queued, or for an event that
is; the others have been told. -/
structure Waits (id : StreamId) (log : FinLog) (s : Sys Q) : Prop where
  parked : s.parked.tokens (.fin id) ≠ [] →
    log.reports = [] ∧ log.finished = true ∨ ∃ e ∈ s.events, endOf id e ≠ none
  settled : log.dispatched ≠ [] → s.parked.tokens (.fin id) = []
  early : ∀ t ∈ log.early, (t, .done (.error .closedStream)) ∈ s.sent
  late : ∀ t ∈ log.late, t ∈ s.parked.tokens (.fin id) ∨
    ∃ f, log.reports.head? = some f ∧ (t, .done (waitAnswer f)) ∈ s.sent

/-- The fact is `Queued` while a `Finish` has succeeded and nothing was reported. -/
theorem Facts.queued_iff (h : Facts F id log s) :
    s.core.sendFin id = some .queued ↔ log.reports = [] ∧ log.finished = true := by
  rw [h.fact]
  cases hreports : log.reports with
  | nil =>
    cases hfin : log.finished <;> simp [ConnState.factOf, ConnState.baseOf]
  | cons f rest =>
    have hf : f.Ends := h.ends f (by rw [hreports]; exact List.mem_cons_self)
    simp only [ConnState.factOf, List.head?_cons, Option.some_or]
    constructor
    · intro heq
      obtain rfl := Option.some.inj heq
      exact hf.elim
    · intro heq
      exact absurd heq.1 (by simp)

theorem Facts.told (h : Facts F id log s) {f : SendFin} (hf : log.reports.head? = some f) :
    s.core.sendFin id = some f := by
  rw [h.fact, ConnState.factOf, hf]
  rfl

/-- Nothing was reported of a stream that was neither finished nor stopped. -/
theorem Facts.untouched (h : Facts F id log s) (hu : log.untouched = true) :
    log.reports = [] ∧ log.finished = false := by
  obtain ⟨hfin, hstop⟩ : log.finished = false ∧ _ := by simpa [FinLog.untouched] using hu
  refine ⟨List.eq_nil_iff_forall_not_mem.mpr fun f hf => ?_, hfin⟩
  cases f with
  | queued => exact h.ends _ hf
  | acked => exact absurd (h.acked hf) (by simp [hfin])
  | stopped code => exact absurd (hstop _ hf) (by simp)

/-- A `WaitFinished` is applied. -/
theorem Waits.step_waits (h : Waits id log s) (hfacts : Facts F id log s) {t : Token}
    (hwaits : s.waits id a = some t) : Waits id (log.enter id s a) (s.step a) := by
  obtain ⟨rest, now, rfl, hcmds, hstep⟩ := Tokio.step_waits hwaits
  have hlog : log.enter id s (.execute now) =
      { log with
        early := log.early ++ if log.untouched then [t] else []
        late := log.late ++ if log.untouched then [] else [t] } := by
    simp [FinLog.enter, Sys.finishes, Sys.reports, Sys.dispatches, Sys.waits, hcmds]
  have hsent : ∀ x ∈ s.sent, x ∈ (s.step (.execute now)).sent := fun x hx =>
    (Sys.taken s (.execute now)).mem_sent hx
  rw [hstep] at hsent
  rw [hlog, hstep]
  rcases applyCmd_wait s.parked s.core t now with ⟨hqueued, htokens⟩ | ⟨hnot, hparked, htold⟩
  · obtain ⟨hnone, hfin⟩ := hfacts.queued_iff.mp hqueued
    have htouched : ¬ log.untouched = true := fun hu =>
      absurd (hfacts.untouched hu).2 (by simp [hfin])
    refine ⟨fun _ => Or.inl ⟨hnone, hfin⟩, fun hne => ?_, fun u hu => ?_, fun u hu => ?_⟩
    · obtain ⟨f, hf⟩ := List.exists_mem_of_ne_nil _ hne
      exact absurd (hfacts.dispatched f hf) (by simp [hnone])
    · rw [if_neg htouched, List.append_nil] at hu
      exact hsent _ (h.early u hu)
    · dsimp only at hu
      rw [if_neg htouched] at hu
      show u ∈ (s.parked.applyCmd s.core _ now).parked.tokens (.fin id) ∨ _
      rw [htokens, List.mem_append]
      rcases List.mem_append.mp hu with hu | hu
      · exact (h.late u hu).imp Or.inl fun ⟨f, hf, hx⟩ => ⟨f, hf, hsent _ hx⟩
      · exact Or.inl (Or.inr hu)
  · have htokens : (s.parked.applyCmd s.core (.waitFinished id t) now).parked.tokens (.fin id) =
        s.parked.tokens (.fin id) := by rw [hparked]
    have htold' := List.mem_append_right s.sent htold
    refine ⟨fun hne => h.parked (htokens ▸ hne), fun hne => htokens.trans (h.settled hne),
      fun u hu => ?_, fun u hu => ?_⟩
    · rcases List.mem_append.mp hu with hu | hu
      · exact hsent _ (h.early u hu)
      · split at hu
        · rename_i huntouched
          obtain ⟨hnone, hfin⟩ := hfacts.untouched huntouched
          rw [List.mem_singleton.mp hu]
          have hfact : s.core.sendFin id = none := by
            rw [hfacts.fact, hnone, hfin]
            rfl
          rw [hfact] at htold'
          exact htold'
        · exact absurd hu List.not_mem_nil
    · show u ∈ (s.parked.applyCmd s.core _ now).parked.tokens (.fin id) ∨ _
      rw [htokens]
      rcases List.mem_append.mp hu with hu | hu
      · exact (h.late u hu).imp_right fun ⟨f, hf, hx⟩ => ⟨f, hf, hsent _ hx⟩
      · split at hu
        · exact absurd hu List.not_mem_nil
        · rename_i htouched
          rw [List.mem_singleton.mp hu]
          cases hreports : log.reports with
          | nil =>
            -- with nothing reported it is a `Finish` that makes it late, and that parks it
            have hfin : log.finished = true := by
              simpa [FinLog.untouched, hreports] using htouched
            exact absurd (hfacts.queued_iff.mpr ⟨hreports, hfin⟩) hnot
          | cons f rest =>
            rw [hfacts.told (by rw [hreports]; rfl)] at htold'
            exact Or.inr ⟨f, rfl, htold'⟩

/-- The end of the stream is dispatched. -/
theorem Waits.step_end (h : Waits id log s) (hfacts : Facts F id log s) {f : SendFin}
    (hend : s.dispatches id a = some f) : Waits id (log.enter id s a) (s.step a) := by
  obtain ⟨hnone, htold⟩ := Tokio.step_end hend
  obtain ⟨e, rest, hevents, hf⟩ := dispatches_event hend
  have hfirst := hfacts.events e (by rw [hevents]; exact List.mem_cons_self) f hf
  have hsent : ∀ x ∈ s.sent, x ∈ (s.step a).sent := fun x hx => (Sys.taken s a).mem_sent hx
  have ha : a = .dispatch := by
    cases a with
    | dispatch => rfl
    | _ => exact absurd hend (by simp [Sys.dispatches])
  have hlog : log.enter id s a = { log with dispatched := log.dispatched ++ [f] } := by
    subst ha
    simp [FinLog.enter, Sys.finishes, Sys.reports, Sys.waits, hend]
  rw [hlog]
  refine ⟨fun hne => absurd hnone hne, fun _ => hnone, fun t ht => hsent _ (h.early t ht),
    fun t ht => Or.inr ?_⟩
  rcases h.late t ht with hparked | ⟨g, hg, hx⟩
  · exact ⟨f, hfirst, htold t hparked⟩
  · exact ⟨g, hg, hsent _ hx⟩

/-- What is reported while a waiter is parked is queued for it. -/
theorem Facts.reports_queued (h : Facts F id log s) (hnone : log.reports = [])
    (hfin : log.finished = true) :
    s.reports id a = [] ∨ ∃ e ∈ (s.step a).events, endOf id e ≠ none := by
  cases a with
  | execute now =>
    refine Or.inl ?_
    simp only [Sys.reports]
    split
    · -- the FIN is queued already, and `stream_finish` says `ClosedStream`
      have hrefused : s.core.streamFinish id = (.error .closedStream, s.core) :=
        ConnState.streamFinish_refused (h.queued_iff.mpr ⟨hnone, hfin⟩) s.core.conn
      have hreport : s.core.finishReport id = [] := by
        rw [ConnState.finishReport, hrefused]
      rw [hreport, ite_self]
    · rfl
  | service now =>
    simp only [Sys.reports, Sys.step]
    split
    · have hann := (ConnState.serviceStreams_reports (ConnState.baseOf_cases _) h.ends h.fact).2
      rw [if_pos hnone] at hann
      cases hreported : s.core.reported id with
      | nil => exact Or.inl rfl
      | cons f rest =>
        rw [hreported] at hann
        obtain ⟨e, he, hend⟩ := (endOf_progressEvents (f := f) s.handle).mpr
          (by rw [hann]; exact List.mem_singleton_self f)
        exact Or.inr ⟨e, List.mem_append_right _ he, by simp [hend]⟩
    · exact Or.inl rfl
  | _ => exact Or.inl rfl

/-- Neither. -/
theorem Waits.step_other (h : Waits id log s) (hfacts : Facts F id log s)
    (hwaits : s.waits id a = none) (hend : s.dispatches id a = none) :
    Waits id (log.enter id s a) (s.step a) := by
  have htokens := step_waiters hfacts.kept hwaits hend
  have hsent : ∀ x ∈ s.sent, x ∈ (s.step a).sent := fun x hx => (Sys.taken s a).mem_sent hx
  have hlog : log.enter id s a =
      { log with
        finished := log.finished || s.finishes id a
        reports := log.reports ++ s.reports id a } := by
    simp [FinLog.enter, hwaits, hend]
  rw [hlog]
  refine ⟨fun hne => ?_, fun hne => htokens.trans (h.settled hne), fun t ht => hsent _ (h.early t ht),
    fun t ht => ?_⟩
  · rcases h.parked (htokens ▸ hne) with ⟨hnone, hfin⟩ | ⟨e, he, hterm⟩
    · refine (hfacts.reports_queued (a := a) hnone hfin).imp_left fun hsilent => ?_
      exact ⟨by rw [hnone, hsilent]; rfl, by rw [hfin, Bool.true_or]⟩
    · exact Or.inr ⟨e, mem_events_kept he hterm hend, hterm⟩
  · rw [htokens]
    refine (h.late t ht).imp_right fun ⟨f, hf, hx⟩ => ⟨f, ?_, hsent _ hx⟩
    rw [List.head?_append, hf]
    rfl

/-- **One action.** -/
theorem Waits.step (h : Waits id log s) (hfacts : Facts F id log s) :
    Waits id (log.enter id s a) (s.step a) := by
  cases hwaits : s.waits id a with
  | some t => exact h.step_waits hfacts hwaits
  | none =>
    cases hend : s.dispatches id a with
    | some f => exact h.step_end hfacts hend
    | none => exact h.step_other hfacts hwaits hend

/-- Every `WaitFinished` that was issued is in the channel or was applied. -/
def Entered (id : StreamId) (log : FinLog) (s : Sys Q) : Prop :=
  ∀ t, s.issued.lookup t = some (.waitFinished id t) →
    .waitFinished id t ∈ s.commands ∨ t ∈ log.early ∨ t ∈ log.late

theorem Entered.step (h : Entered id log s) : Entered id (log.enter id s a) (s.step a) := by
  intro t ht
  have hgrown : t ∈ log.early ∨ t ∈ log.late →
      t ∈ (log.enter id s a).early ∨ t ∈ (log.enter id s a).late :=
    Or.imp (List.mem_append_left _) (List.mem_append_left _)
  have hstep := Sys.taken s a
  generalize s.step a = s' at hstep ht ⊢
  cases hstep with
  | told => exact (h t ht).imp (List.mem_append_left _) hgrown
  | @issued cmd t' hreply hfresh hfree =>
    change (s.issued.insert t' cmd).lookup t = _ at ht
    rw [AMap.lookup_insert_eq] at ht
    split at ht
    · rw [Option.some.inj ht]
      exact Or.inl (List.mem_append_right _ (List.mem_singleton_self _))
    · exact (h t ht).imp (List.mem_append_left _) hgrown
  | @executed cmd rest now hcmds =>
    rcases h t ht with hmem | hmem
    · rw [hcmds] at hmem
      rcases List.mem_cons.mp hmem with rfl | hmem
      · have hwaits : s.waits id (.execute now) = some t := by simp [Sys.waits, hcmds]
        refine Or.inr ?_
        simp only [FinLog.enter, hwaits, List.mem_append]
        split
        · exact Or.inl (Or.inr (List.mem_singleton_self t))
        · exact Or.inr (Or.inr (List.mem_singleton_self t))
      · exact Or.inl hmem
    · exact Or.inr (hgrown hmem)
  | _ => exact (h t ht).imp_right hgrown

end Actions

/-! ## Every run -/

/-- The invariant of a run in which the application keeps the send half. -/
structure Waiting (F : Q.FinAcks) (id : StreamId) (log : FinLog) (s : Sys Q) : Prop where
  sound : s.Sound
  facts : Facts F id log s
  waits : Waits id log s
  entered : Entered id log s

namespace Waiting

variable {F : Q.FinAcks} {id : StreamId} {log : FinLog} {s : Sys Q}

theorem start (handle : ConnectionHandle) {c : Q.Conn} (hnew : ¬ F.queued c id) :
    Waiting F id .empty (Sys.start handle (.new c)) where
  sound := .start handle _
  facts := ⟨by simp [Sys.start], by simp [FinLog.empty], rfl, fun hq => absurd hq hnew,
    by simp [FinLog.empty], by simp [Sys.start], by simp [FinLog.empty]⟩
  waits := ⟨fun hne => absurd rfl hne, fun hne => absurd rfl hne, by simp [FinLog.empty],
    by simp [FinLog.empty]⟩
  entered := by simp [Entered, Sys.start]

theorem run {actions : List (Action Q)} (h : Waiting F id log s)
    (hkeep : Sys.Meets (Sys.Keeps id) s actions) :
    Waiting F id (log.enterAll id s actions) (s.run actions) := by
  induction actions generalizing log s with
  | nil => exact h
  | cons a actions ih =>
    exact ih ⟨h.sound.step a, h.facts.step hkeep.1, h.waits.step h.facts, h.entered.step⟩ hkeep.2

/-- A channel that was told something was told nothing else. -/
theorem only (h : Waiting F id log s) {t : Token} {r : Reply} (ht : (t, r) ∈ s.sent) (r' : Reply) :
    (t, r') ∈ s.sent ↔ r' = r := by
  constructor
  · intro ht'
    exact congrArg Prod.snd (List.inj_on_of_nodup_map h.sound.nodup_sent ht' ht rfl)
  · rintro rfl
    exact ht

end Waiting

/-- **`wait_finished` answers the same whether it waits or not.** In every run on a new connection
in which the application issues no `Reset` and no `ReleaseSend` of the stream, every `WaitFinished`
is still in the channel or was applied; one that was applied before any `Finish` succeeded and any
stop was recorded is answered `ClosedStream`, by the time the next action is taken; every other one
is parked, or answered by the first report of the stream's end, `Ok` if that was `Finished` and
`Stopped` with its code if it was a stop. What is dispatched to the waiters is that same report, none
is parked once it was, and until then a parked one waits for a report or for the queued event. -/
theorem wait_finished_agrees (F : Q.FinAcks) (handle : ConnectionHandle) (c : Q.Conn)
    (id : StreamId) (hnew : ¬ F.queued c id) (actions : List (Action Q))
    (hkeep : Sys.Meets (Sys.Keeps id) (Sys.start handle (.new c)) actions) :
    let s := (Sys.start handle (.new c)).run actions
    let log := FinLog.empty.enterAll id (Sys.start handle (.new c)) actions
    (∀ t, s.issued.lookup t = some (.waitFinished id t) →
      .waitFinished id t ∈ s.commands ∨ t ∈ log.early ∨ t ∈ log.late) ∧
    (∀ t ∈ log.early, ∀ r, (t, r) ∈ s.sent ↔ r = .done (.error .closedStream)) ∧
    (∀ t ∈ log.late, (t ∈ s.parked.tokens (.fin id) ∧ ∀ r, (t, r) ∉ s.sent) ∨
      ∃ f, log.reports.head? = some f ∧ f.Ends ∧
        ∀ r, (t, r) ∈ s.sent ↔ r = .done (waitAnswer f)) ∧
    (∀ f ∈ log.dispatched, log.reports.head? = some f) ∧
    (log.dispatched ≠ [] → s.parked.tokens (.fin id) = []) ∧
    (s.parked.tokens (.fin id) ≠ [] →
      log.reports = [] ∨ ∃ e ∈ s.events, endOf id e = log.reports.head?) := by
  intro s log
  have h : Waiting F id log s := (Waiting.start handle hnew).run hkeep
  refine ⟨h.entered, fun t ht => h.only (h.waits.early t ht), fun t ht => ?_, h.facts.dispatched,
    h.waits.settled, fun hne => ?_⟩
  · rcases h.waits.late t ht with hparked | ⟨f, hf, hx⟩
    · refine Or.inl ⟨hparked, fun r hr => ?_⟩
      exact (h.sound.parked_only hparked).2 (List.mem_map_of_mem hr)
    · exact Or.inr ⟨f, hf, h.facts.ends f (List.mem_of_mem_head? hf), h.only hx⟩
  · refine (h.waits.parked hne).imp And.left fun ⟨e, he, hend⟩ => ⟨e, he, ?_⟩
    obtain ⟨f, hf⟩ := Option.ne_none_iff_exists'.mp hend
    rw [hf, h.facts.events e he f hf]

/-- A wait before the finish; a finish and a second wait; the acknowledgement is polled, and a stop
comes too late; a third wait before the event is dispatched, and a fourth after. -/
def waitAroundAck : List (Action Mini) :=
  [.issue (.waitFinished 0 0), .execute 0, .issue (.finish 0 1), .execute 0,
    .issue (.waitFinished 0 2), .execute 0, .handleEvent (.finAck 0), .service 0,
    .handleEvent (.stopSending 0 9), .service 1, .issue (.waitFinished 0 3), .execute 1, .dispatch,
    .issue (.waitFinished 0 4), .execute 2]

theorem wait_finished_agrees_ack :
    let log := FinLog.empty.enterAll 0 Sys.miniStart waitAroundAck
    ¬ Mini.finAcks.queued (MiniConn.new ⟨.v4 0, 0⟩ 0) 0 ∧
      Sys.Meets (Sys.Keeps 0) Sys.miniStart waitAroundAck ∧
      log.early = [0] ∧ log.late = [2, 3, 4] ∧ log.reports.head? = some .acked ∧
      ((0, .done (.error .closedStream)) ∈ (Sys.miniStart.run waitAroundAck).sent ∧
        ∀ t ∈ [2, 3, 4], (t, .done (.ok ())) ∈ (Sys.miniStart.run waitAroundAck).sent) := by
  have hnew : ¬ Mini.finAcks.queued (MiniConn.new ⟨.v4 0, 0⟩ 0) 0 := by
    rintro (hsend | hmem)
    · exact absurd hsend (by simp [MiniConn.new])
    · exact absurd hmem (by simp [MiniConn.new])
  have hkeep : Sys.Meets (Sys.Keeps 0) Sys.miniStart waitAroundAck :=
    ⟨trivial, trivial, trivial, trivial, trivial, trivial, trivial, trivial, trivial, trivial,
      trivial, trivial, trivial, trivial, trivial, trivial⟩
  have hearly : (FinLog.empty.enterAll 0 Sys.miniStart waitAroundAck).early = [0] := by decide
  have hlate : (FinLog.empty.enterAll 0 Sys.miniStart waitAroundAck).late = [2, 3, 4] := by decide
  have hfirst : (FinLog.empty.enterAll 0 Sys.miniStart waitAroundAck).reports.head? =
      some .acked := by decide
  have hnone : (Sys.miniStart.run waitAroundAck).parked.tokens (.fin 0) = [] := by decide
  obtain ⟨-, htold, hothers, -⟩ := wait_finished_agrees Mini.finAcks ⟨0, 1⟩
    (MiniConn.new ⟨.v4 0, 0⟩ 0) 0 hnew waitAroundAck hkeep
  refine ⟨hnew, hkeep, hearly, hlate, hfirst, (htold 0 ?_ _).mpr rfl, fun t ht => ?_⟩
  · show 0 ∈ (FinLog.empty.enterAll 0 Sys.miniStart waitAroundAck).early
    rw [hearly]
    exact List.mem_singleton_self 0
  · rw [← hlate] at ht
    rcases hothers t ht with ⟨hparked, -⟩ | ⟨f, hf, -, hr⟩
    · change t ∈ (Sys.miniStart.run waitAroundAck).parked.tokens (.fin 0) at hparked
      exact absurd hparked (by simp [hnone])
    · obtain rfl : .acked = f := Option.some.inj (hfirst.symm.trans hf)
      exact (hr _).mpr rfl

end QuietQuic.Tokio
