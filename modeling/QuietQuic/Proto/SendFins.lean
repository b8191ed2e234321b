import QuietQuic.Proto.Mini
import QuietQuic.Proto.Endpoint

/-!
# Releasing a send half

The facts of a connection's send halves (`send_fins`) are written by the caller's operations and by
the events quinn-proto reports. `ConnOp` is either: a call on the `ConnState`, or the endpoint
driving the quinn-proto connection underneath.

* `serviceStreams_reports`: of the reports of a stream's end the first one is the fact, and is
  announced by the pass that polls it.
* `serviceStreams_fin`: what polling does to the fact of one stream, by the events polled.
* `release_durable_iff`: a release lasts exactly as long as no terminal event of the stream is
  polled. A late one is recorded again, and reported.
-/

namespace QuietQuic.Proto

open QuietQuic.Lib

variable {Q : Quinn}

/-! ## Terminal events -/

/-- The event ends the send half of `id`. -/
def QuinnEvent.Terminal (id : StreamId) (ev : QuinnEvent) : Prop :=
  ev = .stream (.finished id) ∨ ∃ code, ev = .stream (.stopped id code)

/-- The fact ends the send half. -/
def SendFin.Ends : SendFin → Prop
  | .queued => False
  | .acked | .stopped _ => True

/-- The terminal fact of `id` that an event reports. -/
def QuinnEvent.endOf (id : StreamId) : QuinnEvent → Option SendFin
  | .stream (.finished a) => if a = id then some .acked else none
  | .stream (.stopped a code) => if a = id then some (.stopped code) else none
  | _ => none

/-- What the lists of a pass say about `id`: `fin_acked` and `stopped` together. -/
def ConnProgress.announced (id : StreamId) (progress : ConnProgress) : List SendFin :=
  (progress.finAcked.filter (· = id)).map (fun _ => .acked) ++
    (progress.stopped.filter (·.1 = id)).map fun stop => .stopped stop.2

namespace ConnState

/-- A pass observed the end of the send half of `id`. -/
def Reported (id : StreamId) (progress : ConnProgress) : Prop :=
  id ∈ progress.finAcked ∨ ∃ code, (id, code) ∈ progress.stopped

/-- The events that `service_streams` polls. -/
def polledEvents (s : ConnState Q) : List QuinnEvent :=
  (visited pollRound (Q.pollRank s.conn + 1) (s, {})).filterMap fun p => (Q.poll p.1.conn).1

/-- A fact of another stream is not touched. -/
theorem recordSendFin_other {s : ConnState Q} {id a : StreamId} {fact : SendFin} (hne : id ≠ a) :
    (s.recordSendFin a fact).2.sendFins.lookup id = s.sendFins.lookup id := by
  unfold recordSendFin
  split
  · rfl
  · rfl
  · exact AList.lookup_insert_ne hne
  · exact AList.lookup_insert_ne hne

/-- The accept loop announces nothing. -/
theorem acceptLoop_announced (id : StreamId) (p : ConnState Q × ConnProgress) :
    (acceptLoop p).1.sendFins = p.1.sendFins ∧
      (acceptLoop p).2.announced id = p.2.announced id :=
  acceptLoop_inv (I := fun p' => p'.1.sendFins = p.1.sendFins ∧
    p'.2.announced id = p.2.announced id) (fun _ _ _ _ h _ => h) (fun _ _ _ h _ => h) ⟨rfl, rfl⟩

/-! ## Reports -/

/-- The fact after some reports: the first one, or where there is none what was there before. -/
def factOf (base : Option SendFin) (reports : List SendFin) : Option SendFin :=
  reports.head?.or base

/-- A report is recorded if it is the first. -/
theorem recordSendFin_report {s : ConnState Q} {id : StreamId} {base : Option SendFin}
    {old : List SendFin} {fact : SendFin} (hbase : base = none ∨ base = some .queued)
    (hold : ∀ f ∈ old, f.Ends) (hfact : fact.Ends) (h : s.sendFin id = factOf base old) :
    (s.recordSendFin id fact).2.sendFin id = factOf base (old ++ [fact]) ∧
      ((s.recordSendFin id fact).1 = true ↔ old = []) := by
  cases old with
  | nil =>
    have hlook : s.sendFins.lookup id = none ∨ s.sendFins.lookup id = some .queued := by
      rcases hbase with rfl | rfl
      · exact .inl h
      · exact .inr h
    have hnew : (s.sendFins.insert id fact).lookup id = some fact := AList.lookup_insert _
    unfold recordSendFin
    rcases hlook with hlook | hlook <;> rw [hlook] <;> cases fact with
    | queued => exact hfact.elim
    | acked | stopped => exact ⟨hnew, by simp⟩
  | cons f old =>
    have hlook : s.sendFins.lookup id = some f := h
    have hf : f.Ends := hold f List.mem_cons_self
    unfold recordSendFin
    rw [hlook]
    cases f with
    | queued => exact hf.elim
    | acked | stopped => exact ⟨h, by simp⟩

/-- What the reaction to an event does about `id`, by the reports before it and its own. -/
structure Reports (id : StreamId) (base : Option SendFin) (old new : List SendFin)
    (p p' : ConnState Q × ConnProgress) : Prop where
  fact : p'.1.sendFin id = factOf base (old ++ new)
  later : old ≠ [] → p'.2.announced id = p.2.announced id
  first : old = [] → p.2.announced id = [] → p'.2.announced id = new

section Reports

variable {id : StreamId} {base : Option SendFin} {old : List SendFin}
  {p : ConnState Q × ConnProgress}

/-- An event that says nothing about the end of `id`. -/
theorem Reports.silent {p' : ConnState Q × ConnProgress} (h : p.1.sendFin id = factOf base old)
    (hfact : p'.1.sendFin id = p.1.sendFin id) (hann : p'.2.announced id = p.2.announced id) :
    Reports id base old [] p p' := by
  refine ⟨?_, fun _ => hann, fun _ hnone => hann.trans hnone⟩
  rw [List.append_nil, hfact]
  exact h

/-- A fact of `id` is recorded, with a list that is longer by its announcement. -/
theorem Reports.recorded {fact : SendFin} {longer : ConnProgress}
    (hbase : base = none ∨ base = some .queued) (hold : ∀ f ∈ old, f.Ends) (hfact : fact.Ends)
    (h : p.1.sendFin id = factOf base old)
    (hlonger : p.2.announced id = [] → longer.announced id = [fact]) :
    Reports id base old [fact] p ((p.1.recordSendFin id fact).2,
      if (p.1.recordSendFin id fact).1 then longer else p.2) := by
  obtain ⟨hnow, hnew⟩ := recordSendFin_report hbase hold hfact h
  refine ⟨hnow, fun hne => ?_, fun hnil hnone => ?_⟩
  · dsimp only
    rw [if_neg (mt hnew.mp hne)]
  · dsimp only
    rw [if_pos (hnew.mpr hnil)]
    exact hlonger hnone

/-- **One event**: what it reports of `id` counts if it is the first, and is announced then. -/
theorem onPolled_reports (ev : QuinnEvent) (hbase : base = none ∨ base = some .queued)
    (hold : ∀ f ∈ old, f.Ends) (h : p.1.sendFin id = factOf base old) :
    Reports id base old (ev.endOf id).toList p (onPolled ev p) := by
  -- a report of another stream, with a list that may be longer by its announcement
  have hother : ∀ (a : StreamId) (fact : SendFin) (longer : ConnProgress), id ≠ a →
      longer.announced id = p.2.announced id →
      Reports id base old [] p ((p.1.recordSendFin a fact).2,
        if (p.1.recordSendFin a fact).1 then longer else p.2) := by
    intro a fact longer hne hlonger
    refine .silent h (recordSendFin_other hne) ?_
    dsimp only
    split
    · exact hlonger
    · rfl
  cases ev with
  | stream e =>
    cases e with
    | opened dir =>
      cases dir with
      | bi =>
        obtain ⟨hfins, hann⟩ := acceptLoop_announced id p
        exact .silent h (congrArg (AList.lookup id) hfins) hann
      | uni => exact .silent h rfl rfl
    | finished a =>
      by_cases ha : a = id
      · subst ha
        simp only [QuinnEvent.endOf, if_true, Option.toList_some]
        refine .recorded hbase hold trivial h fun hnone => ?_
        obtain ⟨hacks, hstops⟩ := List.append_eq_nil_iff.mp hnone
        rw [List.map_eq_nil_iff] at hacks hstops
        simp [ConnProgress.announced, hacks, hstops]
      · simp only [QuinnEvent.endOf, if_neg ha, Option.toList_none]
        exact hother a .acked { p.2 with finAcked := p.2.finAcked ++ [a] } (Ne.symm ha)
          (by simp [ConnProgress.announced, ha])
    | stopped a code =>
      by_cases ha : a = id
      · subst ha
        simp only [QuinnEvent.endOf, if_true, Option.toList_some]
        refine .recorded hbase hold trivial h fun hnone => ?_
        obtain ⟨hacks, hstops⟩ := List.append_eq_nil_iff.mp hnone
        rw [List.map_eq_nil_iff] at hacks hstops
        simp [ConnProgress.announced, hacks, hstops]
      · simp only [QuinnEvent.endOf, if_neg ha, Option.toList_none]
        exact hother a (.stopped code) { p.2 with stopped := p.2.stopped ++ [(a, code)] }
          (Ne.symm ha) (by simp [ConnProgress.announced, ha])
    | _ => exact .silent h rfl rfl
  | _ => exact .silent h rfl rfl

theorem endOf_ends {ev : QuinnEvent} {fact : SendFin} (h : ev.endOf id = some fact) : fact.Ends := by
  unfold QuinnEvent.endOf at h
  split at h
  · obtain rfl : SendFin.acked = fact := by simpa using (Option.ite_none_right_eq_some.mp h).2
    trivial
  · obtain rfl : SendFin.stopped _ = fact := by simpa using (Option.ite_none_right_eq_some.mp h).2
    trivial
  · exact absurd h (by simp)

theorem endOf_acked {ev : QuinnEvent} (h : ev.endOf id = some .acked) :
    ev = .stream (.finished id) := by
  unfold QuinnEvent.endOf at h
  split at h
  · rw [(Option.ite_none_right_eq_some.mp h).1]
  · exact absurd (Option.ite_none_right_eq_some.mp h).2 (by simp)
  · exact absurd h (by simp)

/-- The terminal facts of `id` polled in some rounds of a pass. -/
def endsPolled (id : StreamId) (rounds : List (ConnState Q × ConnProgress)) : List SendFin :=
  rounds.filterMap fun p => (Q.poll p.1.conn).1.bind (QuinnEvent.endOf id)

theorem endsPolled_ends {rounds : List (ConnState Q × ConnProgress)} {f : SendFin}
    (h : f ∈ endsPolled id rounds) : f.Ends := by
  obtain ⟨p, -, hp⟩ := List.mem_filterMap.mp h
  obtain ⟨ev, -, hev⟩ := Option.bind_eq_some_iff.mp hp
  exact endOf_ends hev

/-- The terminal facts of `id` that a pass polls, in order. -/
def reported (s : ConnState Q) (id : StreamId) : List SendFin :=
  endsPolled id (visited pollRound (Q.pollRank s.conn + 1) (s, {}))

theorem reported_ends {s : ConnState Q} {f : SendFin} (h : f ∈ s.reported id) : f.Ends :=
  endsPolled_ends h

theorem reported_eq (s : ConnState Q) (id : StreamId) :
    s.reported id = s.polledEvents.filterMap (QuinnEvent.endOf id) :=
  List.filterMap_filterMap.symm

/-- **One pass**: of the reports before it and its own the first one counts, and is announced by the
pass that polls it. -/
theorem serviceStreams_reports {s : ConnState Q} (hbase : base = none ∨ base = some .queued)
    (hold : ∀ f ∈ old, f.Ends) (h : s.sendFin id = factOf base old) :
    s.serviceStreams.2.sendFin id = factOf base (old ++ s.reported id) ∧
      s.serviceStreams.1.announced id = if old = [] then (s.reported id).head?.toList else [] := by
  refine loop_visited (I := fun l (p : ConnState Q × ConnProgress) =>
    p.1.sendFin id = factOf base (old ++ endsPolled id l) ∧
      p.2.announced id = if old = [] then (endsPolled id l).head?.toList else []) ?_ ?_ _ ⟨?_, ?_⟩
  · rintro l p p' ⟨hfact, hann⟩ hround
    obtain ⟨ev, c, hpoll, rfl⟩ := pollRound_again hround
    have hsoFar : ∀ f ∈ old ++ endsPolled id l, f.Ends := by
      intro f hf
      rcases List.mem_append.mp hf with hf | hf
      · exact hold f hf
      · exact endsPolled_ends hf
    have hlast : endsPolled id (l ++ [p]) = endsPolled id l ++ (ev.endOf id).toList := by
      simp only [endsPolled, List.filterMap_append, List.filterMap_cons, List.filterMap_nil, hpoll]
      cases hend : ev.endOf id <;> simp [hend]
    have hreports := onPolled_reports (p := ({ p.1 with conn := c }, p.2)) ev hbase hsoFar hfact
    rw [hlast]
    refine ⟨by rw [← List.append_assoc]; exact hreports.fact, ?_⟩
    by_cases hsilent : old ++ endsPolled id l = []
    · obtain ⟨hnil, hnone⟩ := List.append_eq_nil_iff.mp hsilent
      rw [hnone, if_pos hnil] at hann
      rw [hreports.first hsilent hann, hnone, if_pos hnil]
      cases ev.endOf id <;> rfl
    · rw [hreports.later hsilent]
      refine hann.trans ?_
      split
      · rename_i hnil
        cases hfacts : endsPolled id l with
        | nil => exact absurd (by rw [hnil, hfacts]; rfl) hsilent
        | cons f rest => rfl
      · rfl
  · rintro l p p' ⟨hfact, hann⟩ hround
    obtain ⟨c, hpoll, rfl⟩ := pollRound_done hround
    have hlast : endsPolled id (l ++ [p]) = endsPolled id l := by
      simp [endsPolled, hpoll]
    rw [hlast]
    exact ⟨hfact, hann⟩
  · simpa [endsPolled] using h
  · simp [endsPolled, ConnProgress.announced]

/-- Where there is no terminal fact, the first report is recorded and announced. -/
theorem serviceStreams_first {s : ConnState Q}
    (h : s.sendFin id = none ∨ s.sendFin id = some .queued) :
    s.serviceStreams.2.sendFin id = (s.reported id).head?.or (s.sendFin id) ∧
      s.serviceStreams.1.announced id = (s.reported id).head?.toList :=
  serviceStreams_reports h (show ∀ f ∈ ([] : List SendFin), f.Ends by simp) rfl

/-- A terminal fact stays, and nothing is announced. -/
theorem serviceStreams_later {s : ConnState Q} {fact : SendFin} (hfact : fact.Ends)
    (h : s.sendFin id = some fact) :
    s.serviceStreams.2.sendFin id = some fact ∧ s.serviceStreams.1.announced id = [] :=
  serviceStreams_reports (.inl rfl) (show ∀ f ∈ [fact], f.Ends by simpa using hfact) h

end Reports

/-- The fact of a stream is terminal or not. -/
theorem sendFin_cases (s : ConnState Q) (id : StreamId) :
    (s.sendFin id = none ∨ s.sendFin id = some .queued) ∨
      ∃ fact : SendFin, fact.Ends ∧ s.sendFin id = some fact := by
  cases s.sendFin id with
  | none => exact .inl (.inl rfl)
  | some fact =>
    cases fact with
    | queued => exact .inl (.inr rfl)
    | acked => exact .inr ⟨.acked, trivial, rfl⟩
    | stopped code => exact .inr ⟨.stopped code, trivial, rfl⟩

theorem endOf_eq_none_iff {id : StreamId} {ev : QuinnEvent} :
    ev.endOf id = none ↔ ¬ ev.Terminal id := by
  unfold QuinnEvent.endOf QuinnEvent.Terminal
  split <;> simp_all

theorem announced_eq_nil_iff {id : StreamId} {progress : ConnProgress} :
    progress.announced id = [] ↔ ¬ Reported id progress := by
  have hacked : progress.finAcked.filter (· = id) = [] ↔ id ∉ progress.finAcked := by
    simp only [List.filter_eq_nil_iff, decide_eq_true_eq]
    exact ⟨fun h hmem => h id hmem rfl, fun h a ha heq => h (heq ▸ ha)⟩
  have hstopped : progress.stopped.filter (·.1 = id) = [] ↔
      ¬ ∃ code, (id, code) ∈ progress.stopped := by
    simp only [List.filter_eq_nil_iff, decide_eq_true_eq]
    constructor
    · rintro h ⟨code, hmem⟩
      exact h _ hmem rfl
    · rintro h ⟨a, code⟩ hmem rfl
      exact h ⟨code, hmem⟩
  rw [ConnProgress.announced, List.append_eq_nil_iff, List.map_eq_nil_iff, List.map_eq_nil_iff,
    hacked, hstopped, ← not_or]
  rfl

/-- **What polling does to the fact of one stream.** Without a terminal event of it, nothing; and
where there was no fact, a terminal event is recorded and reported. -/
theorem serviceStreams_fin (s : ConnState Q) (id : StreamId) :
    ((∀ ev ∈ s.polledEvents, ¬ ev.Terminal id) →
      s.serviceStreams.2.sendFins.lookup id = s.sendFins.lookup id ∧
        ¬ Reported id s.serviceStreams.1) ∧
    ((∃ ev ∈ s.polledEvents, ev.Terminal id) → s.sendFins.lookup id = none →
      s.serviceStreams.2.sendFins.lookup id ≠ none ∧ Reported id s.serviceStreams.1) := by
  constructor
  · intro hquiet
    have hnone : s.reported id = [] := by
      rw [reported_eq]
      exact List.filterMap_eq_nil_iff.mpr fun ev hev => endOf_eq_none_iff.mpr (hquiet ev hev)
    rw [← announced_eq_nil_iff]
    rcases s.sendFin_cases id with hopen | ⟨fact, hfact, hnow⟩
    · obtain ⟨hlater, hann⟩ := serviceStreams_first hopen
      rw [hnone] at hlater hann
      exact ⟨hlater, hann⟩
    · obtain ⟨hlater, hann⟩ := serviceStreams_later hfact hnow
      exact ⟨hlater.trans hnow.symm, hann⟩
  · rintro ⟨ev, hev, hterm⟩ hnone
    obtain ⟨f, rest, hrep⟩ : ∃ f rest, s.reported id = f :: rest := by
      refine List.exists_cons_of_ne_nil fun hnil => ?_
      rw [reported_eq] at hnil
      exact endOf_eq_none_iff.mp (List.filterMap_eq_nil_iff.mp hnil ev hev) hterm
    obtain ⟨hnow, hann⟩ := serviceStreams_first (s := s) (.inl hnone)
    rw [hrep] at hnow hann
    refine ⟨fun h => absurd (hnow.symm.trans h) (by simp), ?_⟩
    refine of_not_not fun h => ?_
    exact absurd (hann.symm.trans (announced_eq_nil_iff.mpr h)) (by simp)

end ConnState

/-! ## Runs -/

/-- What happens to a `ConnState`: a caller's operation or the pass's `service_streams`, and the
endpoint driving the quinn-proto connection (datagrams, timers, transmits) in any way. -/
inductive ConnOp (Q : Quinn) where
  | call (c : ConnCall)
  | drive (f : Q.Conn → Q.Conn)

namespace ConnState

/-- One of them, with its answer. -/
def op (s : ConnState Q) : ConnOp Q → Option ConnAnswer × ConnState Q
  | .call c => (some (s.call c).1, (s.call c).2)
  | .drive f => (none, { s with conn := f s.conn })

/-- A run of them. -/
def runOps (s : ConnState Q) (ops : List (ConnOp Q)) : ConnState Q :=
  ops.foldl (fun s o => (s.op o).2) s

/-- The answer makes a pass queue `StreamFinAcked` or `StreamStopped` for `id`. -/
def EndsIn (id : StreamId) : Option ConnAnswer → Prop
  | some (.progress progress) => ∃ ch, .streamFinAcked ch id ∈ Core.progressEvents ch progress ∨
      ∃ code, .streamStopped ch id code ∈ Core.progressEvents ch progress
  | _ => False

/-- The call releases the send half of `id`. -/
def Releases (s : ConnState Q) (id : StreamId) : ConnCall → Prop
  | .forgetSend a | .forgetStream a => a = id
  | .streamReset a code => a = id ∧ (s.streamReset a code).1 = .ok ()
  | _ => False

/-- The step polls an event that ends the send half of `id`. -/
def Polls (s : ConnState Q) (id : StreamId) : ConnOp Q → Prop
  | .call .serviceStreams => ∃ ev ∈ s.polledEvents, ev.Terminal id
  | _ => False

/-- No fact about `id` in any state of the run, and no event for it. -/
def Durable (s : ConnState Q) (id : StreamId) (ops : List (ConnOp Q)) : Prop :=
  (∀ before after, ops = before ++ after → (s.runOps before).sendFin id = none) ∧
    ∀ before o after, ops = before ++ o :: after → ¬ EndsIn id ((s.runOps before).op o).1

/-- No terminal event of `id` is polled. -/
def Undisturbed (s : ConnState Q) (id : StreamId) (ops : List (ConnOp Q)) : Prop :=
  ∀ before o after, ops = before ++ o :: after → ¬ (s.runOps before).Polls id o

theorem endsIn_progress {id : StreamId} {progress : ConnProgress} :
    EndsIn id (some (.progress progress)) ↔ Reported id progress := by
  constructor
  · rintro ⟨ch, h⟩
    simpa [Reported, Core.progressEvents] using h
  · intro h
    exact ⟨⟨0, 0⟩, by simpa [Reported, Core.progressEvents] using h⟩

/-- `stream_finish` adds no fact about another stream. -/
theorem streamFinish_other {s : ConnState Q} {id a : StreamId} (hne : id ≠ a) :
    (s.streamFinish a).2.sendFins.lookup id = s.sendFins.lookup id := by
  unfold streamFinish
  split
  · rfl
  · rfl
  · rfl
  · dsimp only
    split
    · exact AList.lookup_insert_ne hne
    · exact recordSendFin_other hne
    · rfl

/-- The operation drops the fact of `id`. -/
def Drops (id : StreamId) : ConnOp Q → Prop
  | .call (.forgetSend a) | .call (.forgetStream a) => a = id
  | .call (.streamReset a _) => a = id
  | _ => False

/-- An operation that is neither a pass nor a finish of the stream leaves its fact alone. -/
theorem op_sendFin {s : ConnState Q} {id : StreamId} {o : ConnOp Q} (h : ¬ Drops id o)
    (hpass : o ≠ .call .serviceStreams) (hfinish : o ≠ .call (.streamFinish id)) :
    (s.op o).2.sendFin id = s.sendFin id := by
  have herase : ∀ {a}, a ≠ id → (s.sendFins.erase a).lookup id = s.sendFins.lookup id :=
    fun hne => AList.lookup_erase_ne hne.symm
  cases o with
  | drive f => rfl
  | call c =>
    cases c with
    | openBi => exact congrArg (AList.lookup id) s.openBi_frame.1
    | acceptBi => exact congrArg (AList.lookup id) s.acceptBi_frame.1
    | streamRead a len => exact congrArg (AList.lookup id) (s.streamRead_frame a len).2
    | streamWrite a buf => exact congrArg (AList.lookup id) (s.streamWrite_frame a buf).2.1
    | streamFinish a =>
      have hne : id ≠ a := fun heq => hfinish (by rw [heq])
      exact streamFinish_other hne
    | streamReset a code =>
      show (s.streamReset a code).2.sendFins.lookup id = _
      unfold streamReset
      split
      · rfl
      · exact herase h
    | streamStop a code =>
      show (s.streamStop a code).2.sendFins.lookup id = _
      unfold streamStop
      split <;> rfl
    | forgetStream a => exact herase h
    | forgetSend a => exact herase h
    | serviceStreams => exact absurd rfl hpass
    | forgetRecv | sendFin | isDrained | isDirty | clearDirty | close => rfl

/-- A caller's operation adds no fact about `id` but `stream_finish`. -/
theorem call_fin {s : ConnState Q} {id : StreamId} {c : ConnCall}
    (hnone : s.sendFins.lookup id = none) (hfinish : c ≠ .streamFinish id)
    (hservice : c ≠ .serviceStreams) : (s.call c).2.sendFins.lookup id = none := by
  by_cases hdrop : Drops id (.call c : ConnOp Q)
  · have herase : ∀ a, (s.sendFins.erase a).lookup id = none := fun a => by
      rw [AMap.lookup_erase_eq, hnone, ite_self]
    cases c with
    | forgetSend a => exact herase a
    | forgetStream a => exact herase a
    | streamReset a code =>
      show (s.streamReset a code).2.sendFins.lookup id = none
      unfold streamReset
      split
      · exact hnone
      · exact herase a
    | _ => exact hdrop.elim
  · have hsame : (s.op (.call c)).2.sendFin id = s.sendFin id :=
      op_sendFin hdrop (by simpa using hservice) (by simpa using hfinish)
    exact hsame.trans hnone

/-- **One step without a fact**: it stays so and nothing is reported, exactly when no terminal event
is polled. -/
theorem op_fin {s : ConnState Q} {id : StreamId} {o : ConnOp Q} (hnone : s.sendFin id = none)
    (hfinish : o ≠ .call (.streamFinish id)) :
    (¬ s.Polls id o → (s.op o).2.sendFin id = none ∧ ¬ EndsIn id (s.op o).1) ∧
      (s.Polls id o → EndsIn id (s.op o).1) := by
  cases o with
  | drive f => exact ⟨fun _ => ⟨hnone, fun h => h⟩, fun h => h.elim⟩
  | call c =>
    by_cases hservice : c = .serviceStreams
    · subst hservice
      obtain ⟨hquiet, hended⟩ := s.serviceStreams_fin id
      refine ⟨fun hpolls => ?_, fun hpolls => endsIn_progress.mpr (hended hpolls hnone).2⟩
      obtain ⟨hsame, hrep⟩ := hquiet fun ev hmem hterm => hpolls ⟨ev, hmem, hterm⟩
      exact ⟨hsame.trans hnone, fun h => hrep (endsIn_progress.mp h)⟩
    · have hcall : c ≠ .streamFinish id := fun h => hfinish (h ▸ rfl)
      refine ⟨fun _ => ⟨call_fin hnone hcall hservice, ?_⟩, ?_⟩
      · cases c <;> first | exact absurd rfl hservice | exact fun h => h
      · cases c <;> first | exact absurd rfl hservice | exact fun h => h.elim

/-- The release itself. -/
theorem releases_fin {s : ConnState Q} {id : StreamId} {c : ConnCall} (h : s.Releases id c) :
    (s.call c).2.sendFin id = none := by
  cases c with
  | forgetSend a =>
    obtain rfl : a = id := h
    exact AList.lookup_erase a s.sendFins
  | forgetStream a =>
    obtain rfl : a = id := h
    exact AList.lookup_erase a s.sendFins
  | streamReset a code =>
    obtain ⟨rfl, hok⟩ : a = id ∧ (s.streamReset a code).1 = .ok () := h
    show (s.streamReset a code).2.sendFins.lookup a = none
    unfold streamReset at hok ⊢
    split at hok
    · exact absurd hok (by simp)
    · exact AList.lookup_erase a s.sendFins
  | _ => exact absurd h (by simp [Releases])

theorem durable_cons {s : ConnState Q} {id : StreamId} {o : ConnOp Q} {ops : List (ConnOp Q)} :
    s.Durable id (o :: ops) ↔
      s.sendFin id = none ∧ ¬ EndsIn id (s.op o).1 ∧ (s.op o).2.Durable id ops := by
  have hevents : (∀ before o' after, o :: ops = before ++ o' :: after →
      ¬ EndsIn id ((s.runOps before).op o').1) ↔ ¬ EndsIn id (s.op o).1 ∧
        ∀ before o' after, ops = before ++ o' :: after →
          ¬ EndsIn id (((s.op o).2.runOps before).op o').1 :=
    forall_split_cons
  constructor
  · rintro ⟨hstates, hends⟩
    obtain ⟨hfirst, hrest⟩ := hevents.mp hends
    refine ⟨hstates [] _ rfl, hfirst, fun before after heq => ?_, hrest⟩
    exact hstates (o :: before) after (by rw [heq]; rfl)
  · rintro ⟨hnone, hfirst, hstates, hrest⟩
    refine ⟨fun before after heq => ?_, hevents.mpr ⟨hfirst, hrest⟩⟩
    cases before with
    | nil => exact hnone
    | cons o' before =>
      obtain ⟨rfl, hops⟩ := List.cons.inj heq
      exact hstates before after hops

theorem undisturbed_cons {s : ConnState Q} {id : StreamId} {o : ConnOp Q}
    {ops : List (ConnOp Q)} :
    s.Undisturbed id (o :: ops) ↔ ¬ s.Polls id o ∧ (s.op o).2.Undisturbed id ops :=
  forall_split_cons

/-- **From a state without a fact about `id`.** -/
theorem durable_iff {s : ConnState Q} {id : StreamId} {ops : List (ConnOp Q)}
    (hnone : s.sendFin id = none) (hops : .call (.streamFinish id) ∉ ops) :
    s.Durable id ops ↔ s.Undisturbed id ops := by
  induction ops generalizing s with
  | nil =>
    refine ⟨fun _ before o after heq => absurd heq (by simp), fun _ => ⟨fun before after heq => ?_,
      fun before o after heq => absurd heq (by simp)⟩⟩
    obtain ⟨rfl, -⟩ : before = [] ∧ after = [] := by simpa using heq.symm
    exact hnone
  | cons o ops ih =>
    rw [List.mem_cons, not_or] at hops
    obtain ⟨hquiet, hended⟩ := op_fin hnone (Ne.symm hops.1)
    rw [durable_cons, undisturbed_cons]
    constructor
    · rintro ⟨-, hevent, hrest⟩
      have hpolls : ¬ s.Polls id o := fun h => hevent (hended h)
      exact ⟨hpolls, (ih (hquiet hpolls).1 hops.2).mp hrest⟩
    · rintro ⟨hpolls, hrest⟩
      obtain ⟨hnext, hevent⟩ := hquiet hpolls
      exact ⟨hnone, hevent, (ih hnext hops.2).mpr hrest⟩

/-- **How long a release lasts.** After `forget_send`, `forget_stream` or a successful
`stream_reset`, and until the caller finishes the stream again: there is no fact about the stream
and no `StreamFinAcked` or `StreamStopped` for it exactly as long as quinn-proto reports no
`Finished` or `Stopped` of it. In a run of a connection where it never does so after a release,
every stream with a fact is one the caller has not released since it last finished it. -/
theorem release_durable_iff (id : StreamId) :
    (∀ (s : ConnState Q) release ops, s.Releases id release →
      ConnOp.call (.streamFinish id) ∉ ops →
      ((s.call release).2.Durable id ops ↔ (s.call release).2.Undisturbed id ops)) ∧
    ∀ (c : Q.Conn) (ops : List (ConnOp Q)),
      (∀ before release after, ops = before ++ .call release :: after →
        ((new c).runOps before).Releases id release → ConnOp.call (.streamFinish id) ∉ after →
        (((new c).runOps before).call release).2.Undisturbed id after) →
      ((new c).runOps ops).sendFin id ≠ none →
      ∀ before release after, ops = before ++ .call release :: after →
        ((new c).runOps before).Releases id release → ConnOp.call (.streamFinish id) ∈ after := by
  have hiff : ∀ (s : ConnState Q) release ops, s.Releases id release →
      ConnOp.call (.streamFinish id) ∉ ops →
      ((s.call release).2.Durable id ops ↔ (s.call release).2.Undisturbed id ops) :=
    fun s release ops hrel hops => durable_iff (releases_fin hrel) hops
  refine ⟨hiff, fun c ops hquiet hfact before release after heq hrel => ?_⟩
  by_contra hno
  have hdurable := (hiff _ release after hrel hno).mpr (hquiet before release after heq hrel hno)
  refine hfact ?_
  have hend := hdurable.1 after [] (List.append_nil after).symm
  rw [heq]
  unfold runOps at hend ⊢
  rw [List.foldl_append]
  exact hend

/-- A stream finished and released, and then its FIN is acknowledged. -/
def lateAck : List (ConnOp Mini) :=
  [.drive fun c => c.handleEvent (.finAck 0), .call .serviceStreams]

/-- **The late acknowledgement brings the fact back**, and is reported. -/
theorem release_undone_by_late_ack :
    (((new (MiniConn.new ⟨.v4 0, 0⟩ 0) : ConnState Mini).streamFinish 0).2.Releases 0
        (.forgetSend 0)) ∧
      ¬ ((((new (MiniConn.new ⟨.v4 0, 0⟩ 0) : ConnState Mini).streamFinish 0).2.call
        (.forgetSend 0)).2.Durable 0 lateAck) := by
  refine ⟨rfl, fun hdurable => ?_⟩
  have hfact := hdurable.1 lateAck [] rfl
  exact absurd hfact (by decide)

end ConnState

end QuietQuic.Proto
