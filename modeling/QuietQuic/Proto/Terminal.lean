import QuietQuic.Proto.ConnRuns

/-!
# Terminal facts

`send_fin` is written by three hands: a `finish` that succeeds, a `finish` that a stop refuses, and
the events quinn-proto reports, in whatever order it reports them. This module follows the fact of
one stream through all of them, together with what `service_streams` announces about it.

* `FinMove`: the moves of `send_fin`. A terminal fact has none but staying.
* `FinStep`: a move with its announcements: none, or the terminal fact it arrives at.
* `streamFinish_reports`: with a finish, too, the fact is the first report of the stream's end.
* `op_finStep`: every operation that does not release the stream is such a step.
* `send_fin_sticky`: so is a whole run.
-/

namespace QuietQuic.Proto

open QuietQuic.Lib

variable {Q : Quinn}

/-! ## The moves of a fact -/

/-- What `send_fin` may become: the same, `Queued` where there was nothing, and a terminal fact
where there was none. -/
inductive FinMove : Option SendFin → Option SendFin → Prop
  | stay (a : Option SendFin) : FinMove a a
  | queue : FinMove none (some .queued)
  | terminal {a : Option SendFin} {fact : SendFin} (ha : a = none ∨ a = some .queued)
      (hfact : fact.Ends) : FinMove a (some fact)

/-- A terminal fact stays what it is. -/
theorem FinMove.sticky {fact : SendFin} {b : Option SendFin} (h : FinMove (some fact) b)
    (hfact : fact.Ends) : b = some fact := by
  cases h with
  | stay => rfl
  | terminal ha =>
    rcases ha with ha | ha
    · exact absurd ha (by simp)
    · obtain rfl := Option.some.inj ha
      exact hfact.elim

theorem FinMove.trans {a b c : Option SendFin} (hab : FinMove a b) (hbc : FinMove b c) :
    FinMove a c := by
  cases hab with
  | stay => exact hbc
  | queue =>
    cases hbc with
    | stay => exact .queue
    | terminal _ hfact => exact .terminal (.inl rfl) hfact
  | terminal ha hfact =>
    rw [hbc.sticky hfact]
    exact .terminal ha hfact

/-- A move and what was announced on the way: nothing, or once the terminal fact it arrives at. -/
structure FinStep (a b : Option SendFin) (announced : List SendFin) : Prop where
  move : FinMove a b
  once : announced = [] ∨
    ∃ fact, announced = [fact] ∧ fact.Ends ∧ b = some fact ∧ (a = none ∨ a = some .queued)

theorem FinStep.stay (a : Option SendFin) : FinStep a a [] := ⟨.stay a, .inl rfl⟩

/-- After an announcement there is nothing left to announce. -/
theorem FinStep.trans {a b c : Option SendFin} {l m : List SendFin} (hab : FinStep a b l)
    (hbc : FinStep b c m) : FinStep a c (l ++ m) := by
  refine ⟨hab.move.trans hbc.move, ?_⟩
  rcases hab.once with rfl | ⟨fact, rfl, hfact, rfl, ha⟩
  · rcases hbc.once with rfl | ⟨fact, rfl, hfact, rfl, hb⟩
    · exact .inl rfl
    · refine .inr ⟨fact, rfl, hfact, rfl, ?_⟩
      -- a terminal fact before the first step would still be there before the second
      rcases hab.move with _ | _ | ⟨ha, hfact'⟩
      · exact hb
      · exact .inl rfl
      · exact ha
  · obtain rfl := hbc.move.sticky hfact
    rcases hbc.once with rfl | ⟨fact', -, hfact', -, hb | hb⟩
    · exact .inr ⟨fact, rfl, hfact, rfl, ha⟩
    · exact absurd hb (by simp)
    · obtain rfl := Option.some.inj hb
      exact hfact.elim

/-! ## Announcements and finishes -/

namespace ConnState

/-- What an answer announces about `id`: only `service_streams` has anything to say. -/
def announcedIn (id : StreamId) : Option ConnAnswer → List SendFin
  | some (.progress progress) => progress.announced id
  | _ => []

/-- What a whole run announces. -/
def announced (id : StreamId) (s : ConnState Q) : List (ConnOp Q) → List SendFin
  | [] => []
  | o :: ops => announcedIn id (s.op o).1 ++ announced id (s.op o).2 ops

/-- **One pass announces one fact at most**, the one it records. -/
theorem serviceStreams_finStep (s : ConnState Q) (id : StreamId) :
    FinStep (s.sendFin id) (s.serviceStreams.2.sendFin id) (s.serviceStreams.1.announced id) := by
  rcases s.sendFin_cases id with hopen | ⟨fact, hfact, hnow⟩
  · obtain ⟨hlater, hann⟩ := serviceStreams_first hopen
    rw [hlater, hann]
    cases hrep : s.reported id with
    | nil => exact .stay _
    | cons f rest =>
      have hmem : f ∈ s.reported id := by
        rw [hrep]
        exact List.mem_cons_self
      have hf : f.Ends := reported_ends hmem
      exact ⟨.terminal hopen hf, .inr ⟨f, rfl, hf, rfl, hopen⟩⟩
  · obtain ⟨hlater, hann⟩ := serviceStreams_later hfact hnow
    rw [hnow, hlater, hann]
    exact .stay _

/-- What `stream_finish` answers where there is a fact, without asking quinn-proto. -/
def finishRefused : SendFin → ConnError
  | .stopped code => .stopped code
  | .acked | .queued => .closedStream

/-- Where there is a fact, `stream_finish` neither reads nor touches quinn-proto: over any
connection it gives the same answer and leaves it as it was. -/
theorem streamFinish_refused {s : ConnState Q} {id : StreamId} {fact : SendFin}
    (h : s.sendFin id = some fact) (c : Q.Conn) :
    ({ s with conn := c } : ConnState Q).streamFinish id =
      (.error (finishRefused fact), { s with conn := c }) := by
  unfold sendFin at h
  unfold streamFinish
  rw [show ({ s with conn := c } : ConnState Q).sendFins.lookup id = some fact from h]
  cases fact <;> rfl

/-- Where no finish has succeeded there is nothing before the first report, and `Queued` after. -/
def baseOf (finished : Bool) : Option SendFin := if finished then some .queued else none

theorem baseOf_cases (finished : Bool) :
    baseOf finished = none ∨ baseOf finished = some .queued := by
  cases finished
  · exact .inl rfl
  · exact .inr rfl

/-- What a finish reports: the stop that refuses it. -/
def finishReport (s : ConnState Q) (id : StreamId) : List SendFin :=
  match (s.streamFinish id).1 with
  | .error (.stopped code) => [.stopped code]
  | _ => []

/-- **A finish**: it makes the fact `Queued` if it succeeds, and reports the stop that refuses it. -/
theorem streamFinish_reports {s : ConnState Q} {id : StreamId} {finished : Bool}
    {old : List SendFin} (h : s.sendFin id = factOf (baseOf finished) old) :
    (s.streamFinish id).2.sendFin id =
      factOf (baseOf (finished || (s.streamFinish id).1.isOk)) (old ++ s.finishReport id) := by
  cases hfact : s.sendFin id with
  | some fact =>
    have hrefused : s.streamFinish id = (.error (finishRefused fact), s) :=
      streamFinish_refused hfact s.conn
    have hreport : factOf (baseOf finished) (old ++ s.finishReport id) = some fact := by
      rw [hfact] at h
      cases old with
      | cons f old => exact h.symm
      | nil =>
        -- without a report the fact is `Queued`, which no stop refuses
        have hbase : baseOf finished = some fact := h.symm
        obtain rfl : fact = .queued := by
          rcases baseOf_cases finished with hnone | hqueued
          · exact absurd (hnone.symm.trans hbase) (by simp)
          · exact (Option.some.inj (hqueued.symm.trans hbase)).symm
        rw [finishReport, hrefused]
        exact hbase
    have hnotOk : (finished || (s.streamFinish id).1.isOk) = finished := by
      rw [hrefused]
      exact Bool.or_false finished
    rw [hnotOk, hreport, hrefused]
    exact hfact
  | none =>
    obtain ⟨rfl, rfl⟩ : old = [] ∧ finished = false := by
      rw [hfact] at h
      cases old with
      | cons f old => exact absurd h (by simp [factOf])
      | nil =>
        cases finished with
        | false => exact ⟨rfl, rfl⟩
        | true => exact absurd h (by simp [factOf, baseOf])
    have hnone : s.sendFins.lookup id = none := hfact
    unfold finishReport streamFinish
    rw [hnone]
    dsimp only
    cases (Q.sendFinish s.conn id).1 with
    | ok _ => exact AList.lookup_insert _
    | error e =>
      cases e with
      | stopped code =>
        dsimp only
        unfold recordSendFin
        rw [show AList.lookup id s.sendFins = none from hnone]
        exact AList.lookup_insert _
      | closedStream => exact hnone

section Acknowledgements

variable {id : StreamId} (F : Q.FinAcks)

/-- A pass queues no FIN, and reports only the acknowledgement of one that was. -/
theorem serviceStreams_queued (s : ConnState Q) (id : StreamId) :
    (F.queued s.serviceStreams.2.conn id → F.queued s.conn id) ∧
      (.acked ∈ s.reported id → F.queued s.conn id) := by
  refine loop_visited (I := fun l (p : ConnState Q × ConnProgress) =>
    (F.queued p.1.conn id → F.queued s.conn id) ∧
      (.acked ∈ endsPolled id l → F.queued s.conn id)) ?_ ?_ _ ⟨?_, ?_⟩
  · rintro l p p' ⟨hconn, hacked⟩ hround
    obtain ⟨ev, c, hpoll, rfl⟩ := pollRound_again hround
    have hstep : Q.ConnStep p.1.conn (.poll (some ev)) c := by
      simpa [hpoll] using Quinn.ConnStep.poll p.1.conn
    refine ⟨?_, fun hmem => ?_⟩
    · refine onPolled_conn (I := fun c => F.queued c id → F.queued s.conn id) (fun c hc h => ?_) ev
        ({ p.1 with conn := c }, p.2) fun h => hconn (F.finishes hstep (by simp) h)
      exact hc (F.finishes (.acceptBi c) (by simp) h)
    · rw [endsPolled, List.filterMap_append, List.mem_append] at hmem
      rcases hmem with hmem | hmem
      · exact hacked hmem
      · have hev : ev.endOf id = some .acked := by simpa [hpoll] using hmem
        rw [endOf_acked hev] at hpoll
        exact hconn (F.reports hpoll)
  · rintro l p p' ⟨hconn, hacked⟩ hround
    obtain ⟨c, hpoll, rfl⟩ := pollRound_done hround
    have hstep : Q.ConnStep p.1.conn (.poll none) c := by
      simpa [hpoll] using Quinn.ConnStep.poll p.1.conn
    refine ⟨fun h => hconn (F.finishes hstep (by simp) h), fun hmem => hacked ?_⟩
    simpa [endsPolled, hpoll] using hmem
  · exact fun h => h
  · simp [endsPolled]

/-- A finish that does not succeed queues no FIN. -/
theorem streamFinish_queued {s : ConnState Q} (hnot : (s.streamFinish id).1.isOk = false)
    (h : F.queued (s.streamFinish id).2.conn id) : F.queued s.conn id := by
  unfold streamFinish at hnot h
  split at h
  · exact h
  · exact h
  · exact h
  · rename_i hnone
    rw [hnone] at hnot
    dsimp only at hnot h
    refine F.finishes (.finish s.conn id) (fun hl => ?_) ?_
    · have hok := (Quinn.ConnLabel.finish.inj hl).2
      split at hnot
      · exact absurd hnot (by simp [Except.isOk, Except.toBool])
      · rename_i hanswer
        exact absurd hok (by simp [hanswer, Except.isOk, Except.toBool])
      · rename_i hanswer
        exact absurd hok (by simp [hanswer, Except.isOk, Except.toBool])
    · split at h
      · exact h
      · rwa [recordSendFin_conn] at h
      · exact h

/-- Nothing but a finish of the stream queues its FIN. -/
theorem op_queued {s : ConnState Q} {o : ConnOp Q} (ho : o.Lawful)
    (hne : o ≠ .call (.streamFinish id)) (h : F.queued (s.op o).2.conn id) : F.queued s.conn id := by
  have hmakes : ∀ l : Q.ConnLabel, o.Makes l → l ≠ .finish id true := by
    rintro l hl rfl
    cases o with
    | drive f => exact hl
    | call c =>
      cases c with
      | streamFinish a =>
        obtain ⟨ok, heq⟩ := hl
        exact hne (by rw [(Quinn.ConnLabel.finish.inj heq).1])
      | serviceStreams => exact hl
      | _ => simp [ConnOp.Makes, ConnCall.Makes] at hl
  exact (s.op_steps ho).keeps (I := fun c => F.queued c id → F.queued s.conn id)
    (fun hl hstep hc hq => hc (F.finishes hstep (hmakes _ hl) hq)) (fun hq => hq) h

end Acknowledgements

/-! ## Operations and runs -/

/-- `stream_finish` moves the fact of its stream, and announces nothing. -/
theorem streamFinish_move (s : ConnState Q) (id : StreamId) :
    FinMove (s.sendFin id) ((s.streamFinish id).2.sendFin id) := by
  cases hfact : s.sendFin id with
  | some fact =>
    have hrefused : s.streamFinish id = (.error (finishRefused fact), s) :=
      streamFinish_refused hfact s.conn
    rw [hrefused, hfact]
    exact .stay _
  | none =>
    have hbefore : s.sendFin id = factOf (baseOf false) [] := hfact
    rw [streamFinish_reports hbefore]
    unfold finishReport
    split
    · exact .terminal (.inl rfl) trivial
    · cases (s.streamFinish id).1.isOk
      · exact .stay none
      · exact .queue

/-- Only a pass announces. -/
theorem announcedIn_eq_nil {s : ConnState Q} {id : StreamId} {o : ConnOp Q}
    (h : o ≠ .call .serviceStreams) : announcedIn id (s.op o).1 = [] := by
  cases o with
  | drive f => rfl
  | call c =>
    cases c with
    | serviceStreams => exact absurd rfl h
    | _ => rfl

/-- **Every operation that does not drop the fact moves it**, with what it announces. -/
theorem op_finStep {s : ConnState Q} {id : StreamId} {o : ConnOp Q} (h : ¬ Drops id o) :
    FinStep (s.sendFin id) ((s.op o).2.sendFin id) (announcedIn id (s.op o).1) := by
  by_cases hpass : o = .call .serviceStreams
  · subst hpass
    exact s.serviceStreams_finStep id
  · rw [announcedIn_eq_nil hpass]
    by_cases hfinish : o = .call (.streamFinish id)
    · subst hfinish
      exact ⟨s.streamFinish_move id, .inl rfl⟩
    · rw [op_sendFin h hpass hfinish]
      exact .stay _

/-- **So does a run of them.** -/
theorem runOps_finStep {s : ConnState Q} {id : StreamId} {ops : List (ConnOp Q)}
    (h : ∀ o ∈ ops, ¬ Drops id o) :
    FinStep (s.sendFin id) ((s.runOps ops).sendFin id) (s.announced id ops) := by
  induction ops generalizing s with
  | nil => exact .stay _
  | cons o ops ih =>
    exact (op_finStep (h o (by simp))).trans (ih fun o' ho' => h o' (by simp [ho']))

/-- **Terminal facts are sticky and announced at most once.** In every run of operations that do not
drop the fact of `id`, over every quinn-proto connection and whatever it reports: between any two
points of the run `send_fin` has made one of the moves, and a terminal fact none; all the lists
together announce nothing or one fact, and that is the one recorded; and once there is a fact
`stream_finish` does not reach quinn-proto. -/
theorem send_fin_sticky (s : ConnState Q) (id : StreamId) (ops : List (ConnOp Q))
    (hops : ∀ o ∈ ops, ¬ Drops id o) :
    (∀ before between after, ops = before ++ (between ++ after) →
      FinMove ((s.runOps before).sendFin id) ((s.runOps (before ++ between)).sendFin id) ∧
      ∀ fact : SendFin, fact.Ends → (s.runOps before).sendFin id = some fact →
        (s.runOps (before ++ between)).sendFin id = some fact) ∧
    (s.announced id ops = [] ∨
      ∃ fact : SendFin, s.announced id ops = [fact] ∧ fact.Ends ∧
        (s.runOps ops).sendFin id = some fact) ∧
    ∀ before after fact, ops = before ++ after → (s.runOps before).sendFin id = some fact →
      ∀ c, ({ s.runOps before with conn := c } : ConnState Q).streamFinish id =
        (.error (finishRefused fact), { s.runOps before with conn := c }) := by
  refine ⟨fun before between after heq => ?_, ?_, fun before after fact _ h c =>
    streamFinish_refused h c⟩
  · have hmove : FinMove ((s.runOps before).sendFin id)
        ((s.runOps (before ++ between)).sendFin id) := by
      rw [runOps_append]
      exact (runOps_finStep fun o ho => hops o (by simp [heq, ho])).move
    refine ⟨hmove, fun fact hfact hbefore => ?_⟩
    rw [hbefore] at hmove
    exact hmove.sticky hfact
  · rcases (runOps_finStep hops).once with hnone | ⟨fact, hann, hfact, hnow, -⟩
    · exact .inl hnone
    · exact .inr ⟨fact, hann, hfact, hnow⟩

/-- A stream finished, acknowledged, and then stopped by the peer and finished again. -/
def ackedThenStopped : List (ConnOp Mini) :=
  [.call (.streamFinish 0), .drive fun c => c.handleEvent (.finAck 0), .call .serviceStreams,
    .drive fun c => c.handleEvent (.stopSending 0 7), .call .serviceStreams,
    .call (.streamFinish 0)]

/-- The acknowledgement is what stays, and what was announced. -/
theorem send_fin_sticky_acked :
    (∀ o ∈ ackedThenStopped, ¬ Drops 0 o) ∧
      (new (MiniConn.new ⟨.v4 0, 0⟩ 0) : ConnState Mini).announced 0 ackedThenStopped = [.acked] ∧
      ((new (MiniConn.new ⟨.v4 0, 0⟩ 0) : ConnState Mini).runOps ackedThenStopped).sendFin 0 =
        some .acked := by
  have hops : ∀ o ∈ ackedThenStopped, ¬ Drops 0 o := by
    simp [ackedThenStopped, Drops]
  have hann : (new (MiniConn.new ⟨.v4 0, 0⟩ 0) : ConnState Mini).announced 0 ackedThenStopped =
      [.acked] := by
    decide
  refine ⟨hops, hann, ?_⟩
  rcases (send_fin_sticky (new (MiniConn.new ⟨.v4 0, 0⟩ 0) : ConnState Mini) 0 _ hops).2.1 with
    hnone | ⟨fact, hfact, -, hnow⟩
  · exact absurd (hann.symm.trans hnone) (by simp)
  · rw [hann] at hfact
    rw [hnow, ← (List.cons.inj hfact).1]

end ConnState

end QuietQuic.Proto
