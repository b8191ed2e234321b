import QuietQuic.Proto.StreamReads
import QuietQuic.Tokio.Calls
import QuietQuic.Tokio.Reads

/-!
# `read_to_end` with a limit

A `ReadToEnd` is pumped when its command is applied and again at every `StreamReadable` while it is
parked. Each pump reads in requests that leave room for one byte past the limit, until the stream
has no more to give, its end is reached, or that byte is there.

`endAnswer` says what a pump replies, from what the receive half shows when it runs; a `Sight` is
what one pump saw. A reset discards what is buffered, FIN included, so where a pump sees a reset no
earlier arrival counts.

* `pumpRead_toEnd`: one pump.
* `ReadingToEnd.step`: one action of the system.
* `read_to_end_exact`: every run.
-/

namespace QuietQuic.Tokio

open QuietQuic.Lib QuietQuic.Proto

variable {Q : Quinn} {S : Q.OrderedReads}

/-! ## One pump -/

/-- What a `read_to_end` replies when the stream stands at a phase and `content` is what it has of
it, in the accumulator and buffered; nothing where it stays parked. -/
def endAnswer (limit : Nat) (content : List UInt8) (recorded : Bool) :
    RecvPhase → Option (Except ConnError (List UInt8))
  | .receiving =>
    if content.length ≤ limit then none else some (.error (.readLimitExceeded limit))
  | .finArrived =>
    if content.length ≤ limit then some (.ok content)
    else some (.error (.readLimitExceeded limit))
  | .finRead =>
    if recorded then
      if content.length ≤ limit then some (.ok content)
      else some (.error (.readLimitExceeded limit))
    else some (.error .closedStream)
  | .reset code => some (.error (.reset code))
  | .idle | .closed => some (.error .closedStream)

/-- The pending read is a `read_to_end` within its limit. -/
structure ToEnd (limit : UInt64) (p : PendingRead) : Prop where
  endLimit : p.endLimit = some limit
  max : p.max = none
  within : p.buf.length ≤ limit.toNat

/-- A request asks for something, and for at most one byte past the limit. -/
theorem ToEnd.readRequest {limit : UInt64} {p : PendingRead} (h : ToEnd limit p) :
    0 < readRequest p ∧ readRequest p ≤ limit.toNat + 1 - p.buf.length := by
  have hwithin := h.within
  have hsat : saturatingAdd limit 1 ≤ limit.toNat + 1 := Nat.min_le_left _ _
  simp only [Tokio.readRequest, h.max, h.endLimit]
  omega

/-- A further round stays within the limit. -/
theorem readPumpRound_within {id : StreamId} {r r' : ReadPump Q} {limit : UInt64}
    (h : readPumpRound id r = .again r') (hlimit : r.pending.endLimit = some limit) :
    (r.pending.buf ++ (r.core.streamRead id (readRequest r.pending)).2.1).length ≤
      limit.toNat := by
  unfold readPumpRound at h
  dsimp only at h
  split at h
  · split at h
    · exact absurd h (by simp)
    · rename_i hfilter
      rw [hlimit] at hfilter
      simpa using Option.filter_eq_none_iff.mp hfilter limit rfl
  all_goals exact absurd h (by simp)

/-- Bytes are copied from a stream that is open, up to its FIN at most. -/
theorem ReadStep.of_bytes {len : Nat} {v v' : RecvView} {recorded recorded' : Bool}
    {answer : Except ConnError ReadOutcome} {bytes : List UInt8}
    (h : ReadStep len v recorded answer bytes v' recorded') (hne : bytes ≠ []) :
    recorded = false ∧ (v.phase = .receiving ∨ v.phase = .finArrived) ∧
      (v'.phase = v.phase ∧ recorded' = false ∨ v.phase = .finArrived ∧ recorded' = true) := by
  cases h with
  | bytes hphase => exact ⟨rfl, hphase, Or.inl ⟨rfl, rfl⟩⟩
  | bytesToFin => exact ⟨rfl, Or.inr rfl, Or.inr ⟨rfl, rfl⟩⟩
  | recorded | nothingAsked | refused | blocked | finished | reset => exact absurd rfl hne

theorem ReadStep.of_blocked {len : Nat} {v v' : RecvView} {recorded recorded' : Bool}
    {bytes : List UInt8} (h : ReadStep len v recorded (.ok .blocked) bytes v' recorded')
    (hlen : 0 < len) :
    v.phase = .receiving ∧ v.unread = [] ∧ v' = v ∧ recorded' = false := by
  cases h with
  | blocked => exact ⟨rfl, rfl, rfl, rfl⟩
  | nothingAsked h => exact absurd h hlen.ne'

theorem ReadStep.of_finished {len : Nat} {v v' : RecvView} {recorded recorded' : Bool}
    {bytes : List UInt8} (h : ReadStep len v recorded (.ok .finished) bytes v' recorded') :
    v'.read = v.read ∧ (recorded = true ∨ v.phase = .finArrived ∧ v.unread = []) := by
  cases h with
  | recorded => exact ⟨rfl, Or.inl rfl⟩
  | finished => exact ⟨rfl, Or.inr ⟨rfl, rfl⟩⟩

theorem ReadStep.of_error {len : Nat} {v v' : RecvView} {recorded recorded' : Bool}
    {bytes : List UInt8} {e : ConnError}
    (h : ReadStep len v recorded (.error e) bytes v' recorded') :
    recorded = false ∧ v'.read = v.read ∧
      (e = .closedStream ∧ ¬ v.phase.Readable ∨ ∃ code, e = .reset code ∧ v.phase = .reset code) := by
  cases h with
  | refused _ hphase => exact ⟨rfl, rfl, Or.inl ⟨rfl, hphase⟩⟩
  | reset => exact ⟨rfl, rfl, Or.inr ⟨_, rfl, rfl⟩⟩

/-- Between two rounds of a pump that found the receive half at `v`. -/
structure Pumping (S : Q.OrderedReads) (id : StreamId) (limit : UInt64) (p : PendingRead)
    (v : RecvView) (recorded : Bool) (r : ReadPump Q) : Prop where
  reply : r.reply = none
  toEnd : ToEnd limit r.pending
  taken : ∃ taken, r.pending = { p with buf := p.buf ++ taken } ∧
    (S.view r.core.conn id).read = v.read ++ taken ∧
    v.unread = taken ++ (S.view r.core.conn id).unread
  phase : (S.view r.core.conn id).phase = v.phase ∧ decide (id ∈ r.core.finishedReads) = recorded ∨
    v.phase = .finArrived ∧ id ∈ r.core.finishedReads
  truth : ConnState.Recorded S id r.core

theorem Pumping.round {id : StreamId} {limit : UInt64} {p : PendingRead} {v : RecvView}
    {recorded : Bool} {r r' : ReadPump Q} (h : Pumping S id limit p v recorded r)
    (hround : readPumpRound id r = .again r') : Pumping S id limit p v recorded r' := by
  have hwithin := readPumpRound_within hround h.toEnd.endLimit
  obtain ⟨hne, rfl⟩ := readPumpRound_again hround
  obtain ⟨taken, hpending, hread, hunread⟩ := h.taken
  have htruth := ConnState.streamRead_recorded (readRequest r.pending) h.truth
  have hstep := ConnState.streamRead_step S r.core id (readRequest r.pending)
  obtain ⟨hread', harrived, -⟩ := hstep.delivers
  refine ⟨rfl, ⟨h.toEnd.endLimit, h.toEnd.max, hwithin⟩,
    ⟨taken ++ (r.core.streamRead id (readRequest r.pending)).2.1, ?_, ?_, ?_⟩, ?_, htruth⟩
  · rw [hpending, List.append_assoc]
  · rw [hread', hread, List.append_assoc]
  · rw [RecvView.arrived, RecvView.arrived, hread', List.append_assoc,
      List.append_cancel_left_eq] at harrived
    rw [hunread, List.append_assoc, harrived]
  · obtain ⟨hnot, -, hmoves⟩ := ReadStep.of_bytes hstep hne
    -- it copied bytes, so the end was not recorded when it began
    rcases h.phase with ⟨hphase, hrec⟩ | ⟨-, hrec⟩
    · rcases hmoves with ⟨hsame, hrec'⟩ | ⟨hfin, hrec'⟩
      · exact Or.inl ⟨hsame.trans hphase, by rw [hrec', ← hrec, hnot]⟩
      · exact Or.inr ⟨hphase.symm.trans hfin, of_decide_eq_true hrec'⟩
    · exact absurd hrec (of_decide_eq_false hnot)

/-- **What a pump of a `read_to_end` does**, when it finds the receive half at `v`. -/
structure PumpedToEnd (S : Q.OrderedReads) (id : StreamId) (limit : UInt64) (p : PendingRead)
    (v : RecvView) (recorded : Bool) (r : ReadPump Q) : Prop where
  reply : r.reply = endAnswer limit.toNat (p.buf ++ v.unread) recorded v.phase
  parked : r.reply = none → r.pending = { p with buf := p.buf ++ v.unread } ∧
    id ∉ r.core.finishedReads ∧ (S.view r.core.conn id).read = v.read ++ v.unread ∧
    (p.buf ++ v.unread).length ≤ limit.toNat
  consumed : ∃ taken, (S.view r.core.conn id).read = v.read ++ taken ∧
    (p.buf ++ taken).length ≤ limit.toNat + 1

/-- The end is not recorded, so the half is still where the pump found it. -/
theorem Pumping.unrecorded {id : StreamId} {limit : UInt64} {p : PendingRead} {v : RecvView}
    {recorded : Bool} {r : ReadPump Q} (h : Pumping S id limit p v recorded r)
    (hnot : decide (id ∈ r.core.finishedReads) = false) :
    (S.view r.core.conn id).phase = v.phase ∧ recorded = false := by
  rcases h.phase with ⟨hphase, hrec⟩ | ⟨-, hrec⟩
  · exact ⟨hphase, hrec.symm.trans hnot⟩
  · exact absurd hrec (of_decide_eq_false hnot)

theorem endAnswer_over {limit : Nat} {content : List UInt8} {recorded : Bool} {phase : RecvPhase}
    (hphase : phase = .receiving ∨ phase = .finArrived) (hover : limit < content.length) :
    endAnswer limit content recorded phase = some (.error (.readLimitExceeded limit)) := by
  rcases hphase with rfl | rfl <;> exact if_neg (Nat.not_le.mpr hover)

section Exits

variable {id : StreamId} {limit : UInt64} {p : PendingRead} {v : RecvView} {recorded : Bool}
  {r r' : ReadPump Q}

/-- The last round took more than the limit allows. -/
theorem Pumping.exceeded {n : Nat} (h : Pumping S id limit p v recorded r)
    (hanswer : (r.core.streamRead id (readRequest r.pending)).1 = .ok (.read n))
    (hlt : limit.toNat <
      (r.pending.buf ++ (r.core.streamRead id (readRequest r.pending)).2.1).length)
    (hcore : r'.core = (r.core.streamRead id (readRequest r.pending)).2.2)
    (hreply : r'.reply = some (.error (.readLimitExceeded limit.toNat))) :
    PumpedToEnd S id limit p v recorded r' := by
  obtain ⟨taken, hpending, hread, hunread⟩ := h.taken
  have hstep := ConnState.streamRead_step S r.core id (readRequest r.pending)
  obtain ⟨-, hroom⟩ := h.toEnd.readRequest
  have hwithin := h.toEnd.within
  have hne : (r.core.streamRead id (readRequest r.pending)).2.1 ≠ [] := by
    rcases ConnState.streamRead_answer r.core id (readRequest r.pending) with ⟨-, hne⟩ | ⟨hno, -⟩
    · exact hne
    · exact absurd hanswer (hno n)
  obtain ⟨hnot, hopen, -⟩ := ReadStep.of_bytes hstep hne
  obtain ⟨hread', harrived, hlen⟩ := hstep.delivers
  rw [RecvView.arrived, RecvView.arrived, hread', List.append_assoc,
    List.append_cancel_left_eq] at harrived
  rw [show r.pending.buf = p.buf ++ taken by rw [hpending]] at hlt hwithin hroom
  simp only [List.length_append] at hlt hwithin hroom
  refine ⟨?_, fun hnone => absurd (hreply.symm.trans hnone) (by simp), ?_⟩
  · rw [hreply, endAnswer_over ((h.unrecorded hnot).1 ▸ hopen)]
    rw [hunread, ← harrived]
    simp only [List.length_append]
    omega
  · refine ⟨taken ++ (r.core.streamRead id (readRequest r.pending)).2.1, ?_, ?_⟩
    · rw [hcore, hread', hread, List.append_assoc]
    · simp only [List.length_append]
      omega

/-- The last round found nothing more, and the stream goes on. -/
theorem Pumping.blocked (h : Pumping S id limit p v recorded r)
    (hanswer : (r.core.streamRead id (readRequest r.pending)).1 = .ok .blocked)
    (hcore : r'.core = (r.core.streamRead id (readRequest r.pending)).2.2)
    (hsame : r'.pending = r.pending) (hreply : r'.reply = r.reply) :
    PumpedToEnd S id limit p v recorded r' := by
  obtain ⟨taken, hpending, hread, hunread⟩ := h.taken
  have hstep := ConnState.streamRead_step S r.core id (readRequest r.pending)
  have hwithin := h.toEnd.within
  rw [hanswer] at hstep
  rw [show r.pending.buf = p.buf ++ taken by rw [hpending]] at hwithin
  obtain ⟨hphase, hnil, hview, hrec⟩ := ReadStep.of_blocked hstep h.toEnd.readRequest.1
  have hv : v.phase = .receiving := by
    rcases h.phase with ⟨hsame, -⟩ | ⟨-, hmem⟩
    · exact hsame.symm.trans hphase
    · exact absurd ((h.truth hmem).1.symm.trans hphase) (by simp)
  rw [hnil, List.append_nil] at hunread
  refine ⟨?_, fun _ => ⟨?_, ?_, ?_, ?_⟩, taken, ?_, hwithin.trans (Nat.le_succ _)⟩
  · rw [hreply, h.reply, hv, hunread]
    exact (if_pos hwithin).symm
  · rw [hsame, hpending, hunread]
  · rw [hcore]
    exact of_decide_eq_false hrec
  · rw [hcore, hview, hread, hunread]
  · rw [hunread]
    exact hwithin
  · rw [hcore, hview, hread]

/-- A read that finds the end finds it for the first time, or as it was recorded before. -/
theorem Pumping.ended (h : Pumping S id limit p v recorded r)
    (hend : decide (id ∈ r.core.finishedReads) = true ∨
      (S.view r.core.conn id).phase = .finArrived ∧ (S.view r.core.conn id).unread = []) :
    (S.view r.core.conn id).unread = [] ∧
      (v.phase = .finArrived ∨ v.phase = .finRead ∧ recorded = true) := by
  constructor
  · rcases hend with hrec | ⟨-, hnil⟩
    · exact (h.truth (of_decide_eq_true hrec)).2
    · exact hnil
  · rcases h.phase with ⟨hsame, hrec⟩ | ⟨hfin, -⟩
    · rcases hend with hrec' | ⟨hfin, -⟩
      · exact Or.inr ⟨hsame.symm.trans (h.truth (of_decide_eq_true hrec')).1,
          hrec.symm.trans hrec'⟩
      · exact Or.inl (hsame.symm.trans hfin)
    · exact Or.inl hfin

/-- The last round found the end. -/
theorem Pumping.forgot (h : Pumping S id limit p v recorded r)
    (hanswer : (r.core.streamRead id (readRequest r.pending)).1 = .ok .finished)
    (hcore : r'.core = (r.core.streamRead id (readRequest r.pending)).2.2.forgetRecv id)
    (hreply : r'.reply = some (.ok r.pending.buf)) : PumpedToEnd S id limit p v recorded r' := by
  obtain ⟨taken, hpending, hread, hunread⟩ := h.taken
  have hstep := ConnState.streamRead_step S r.core id (readRequest r.pending)
  have hwithin := h.toEnd.within
  rw [hanswer] at hstep
  rw [show r.pending.buf = p.buf ++ taken by rw [hpending]] at hwithin
  obtain ⟨hread', hend⟩ := ReadStep.of_finished hstep
  obtain ⟨hnil, hphase⟩ := h.ended hend
  refine ⟨?_, fun hnone => absurd (hreply.symm.trans hnone) (by simp), taken, ?_,
    hwithin.trans (Nat.le_succ _)⟩
  · rw [hnil, List.append_nil] at hunread
    rw [hreply, show r.pending.buf = p.buf ++ taken by rw [hpending], hunread]
    rcases hphase with hphase | ⟨hphase, hrec⟩
    · rw [hphase]
      exact (if_pos hwithin).symm
    · rw [hphase, hrec]
      exact (if_pos hwithin).symm
  · rw [hcore]
    exact hread'.trans hread

/-- The last round was refused. -/
theorem Pumping.failed {e : ConnError} (h : Pumping S id limit p v recorded r)
    (hanswer : (r.core.streamRead id (readRequest r.pending)).1 = .error e)
    (hcore : r'.core = (r.core.streamRead id (readRequest r.pending)).2.2)
    (hreply : r'.reply = some (.error e)) : PumpedToEnd S id limit p v recorded r' := by
  obtain ⟨taken, hpending, hread, hunread⟩ := h.taken
  have hstep := ConnState.streamRead_step S r.core id (readRequest r.pending)
  have hwithin := h.toEnd.within
  rw [hanswer] at hstep
  rw [show r.pending.buf = p.buf ++ taken by rw [hpending]] at hwithin
  obtain ⟨hnot, hread', hwhy⟩ := ReadStep.of_error hstep
  obtain ⟨hphase, rfl⟩ := h.unrecorded hnot
  refine ⟨?_, fun hnone => absurd (hreply.symm.trans hnone) (by simp), taken, ?_,
    hwithin.trans (Nat.le_succ _)⟩
  · rw [hreply]
    rcases hwhy with ⟨rfl, hgone⟩ | ⟨code, rfl, hreset⟩
    · rw [hphase] at hgone
      cases hv : v.phase with
      | receiving | finArrived | reset =>
        rw [hv] at hgone
        exact absurd trivial hgone
      | idle | finRead | closed => rfl
    · rw [← hphase, hreset]
      rfl
  · rw [hcore, hread', hread]

/-- **The last round.** -/
theorem Pumping.exit (h : Pumping S id limit p v recorded r) (hexit : ReadExit id r r') :
    PumpedToEnd S id limit p v recorded r' := by
  cases hexit with
  | exceeded n limit' hanswer hlimit hlt hcore hreply =>
    obtain rfl : limit' = limit := Option.some.inj (hlimit.symm.trans h.toEnd.endLimit)
    exact h.exceeded hanswer hlt hcore hreply
  | chunk n hanswer hmax =>
    rw [h.toEnd.max] at hmax
    exact absurd hmax (by simp)
  | blocked hanswer hcore hsame hreply => exact h.blocked hanswer hcore hsame hreply
  | finished hanswer hlimit =>
    rw [h.toEnd.endLimit] at hlimit
    exact absurd hlimit (by simp)
  | forgot hanswer hcore hreply => exact h.forgot hanswer hcore hreply
  | failed e hanswer hcore hreply => exact h.failed hanswer hcore hreply

end Exits

/-- **One pump.** -/
theorem pumpRead_toEnd {core : ConnState Q} {id : StreamId} {limit : UInt64} {p : PendingRead}
    (hp : ToEnd limit p) (htruth : ConnState.Recorded S id core) :
    PumpedToEnd S id limit p (S.view core.conn id) (decide (id ∈ core.finishedReads))
      (pumpRead core id p) := by
  obtain ⟨r, h, hdone⟩ := pumpRead_exit
    (I := Pumping S id limit p (S.view core.conn id) (decide (id ∈ core.finishedReads))) core id p
    (fun r r' h hround => h.round hround)
    ⟨rfl, hp, ⟨[], by simp, by simp, by simp⟩, Or.inl ⟨rfl, rfl⟩, htruth⟩
  exact h.exit (readPumpRound_done hdone)

/-! ## What the pumps of a run see -/

/-- What one pump of a read saw of its stream, and what it left. -/
structure Sight where
  before : RecvView
  recorded : Bool
  after : RecvView

namespace Sight

/-- What the stream had brought since `v₀`. -/
def content (v₀ : RecvView) (x : Sight) : List UInt8 := x.before.arrived.drop v₀.read.length

/-- FIN had arrived. -/
def Fin (x : Sight) : Prop :=
  x.before.phase = .finArrived ∨ x.before.phase = .finRead ∧ x.recorded = true

/-- What the pump replies, if it replies. -/
def answer (limit : UInt64) (v₀ : RecvView) (x : Sight) : Option (Except ConnError (List UInt8)) :=
  endAnswer limit.toNat (x.content v₀) x.recorded x.before.phase

variable {limit : UInt64} {v₀ : RecvView} {x : Sight}

theorem answer_ok {b : List UInt8} :
    x.answer limit v₀ = some (.ok b) ↔ x.Fin ∧ x.content v₀ = b ∧ b.length ≤ limit.toNat := by
  unfold answer Fin
  cases x.before.phase with
  | finArrived =>
    simp only [endAnswer]
    split <;> grind
  | finRead =>
    simp only [endAnswer]
    split
    · split <;> grind
    · grind
  | receiving =>
    simp only [endAnswer]
    split <;> simp
  | idle | reset | closed => simp [endAnswer]

theorem answer_exceeded :
    x.answer limit v₀ = some (.error (.readLimitExceeded limit.toNat)) ↔
      (x.before.phase = .receiving ∨ x.Fin) ∧ limit.toNat < (x.content v₀).length := by
  unfold answer Fin
  cases x.before.phase with
  | finArrived | receiving =>
    simp only [endAnswer]
    split <;> grind
  | finRead =>
    simp only [endAnswer]
    split
    · split <;> grind
    · grind
  | idle | reset | closed => simp [endAnswer]

theorem answer_reset {code : Nat} :
    x.answer limit v₀ = some (.error (.reset code)) ↔ x.before.phase = .reset code := by
  unfold answer
  cases x.before.phase with
  | finArrived | receiving =>
    simp only [endAnswer]
    split <;> simp
  | finRead =>
    simp only [endAnswer]
    split
    · split <;> simp
    · simp
  | idle | reset | closed => simp [endAnswer]

end Sight

namespace Sys

/-- The action pumps the read of `id` that replies to `t`. -/
def pumps (id : StreamId) (t : Token) (s : Sys Q) : Action Q → Bool
  | .execute _ =>
    match s.commands with
    | .readToEnd a _ t' :: _ => a = id && t' = t
    | _ => false
  | .dispatch =>
    match s.events with
    | .streamReadable _ a :: _ =>
      a = id && (s.parked.pendingReads.lookup id).map PendingRead.reply = some t
    | _ => false
  | _ => false

/-- What the pumps of that read see along a run. -/
def sights (S : Q.OrderedReads) (id : StreamId) (t : Token) :
    Sys Q → List (Action Q) → List Sight
  | _, [] => []
  | s, a :: actions =>
    (if s.pumps id t a then
      [⟨S.view s.core.conn id, id ∈ s.core.finishedReads, S.view (s.step a).core.conn id⟩]
    else []) ++ sights S id t (s.step a) actions

/-- The call is not cancelled, and no `Stop` of its stream is applied. -/
def LeftAlone (id : StreamId) (t : Token) (s : Sys Q) (a : Action Q) : Prop :=
  a ≠ .cancel t ∧ ∀ now code t' rest, a = .execute now → s.commands ≠ .stop id code t' :: rest

end Sys

/-! ## The invariant -/

/-- The read is parked, with what it consumed since `v₀` in its accumulator. -/
structure HoldsToEnd (S : Q.OrderedReads) (id : StreamId) (limit : UInt64) (t : Token)
    (v₀ : RecvView) (seen : List Sight) (p : PendingRead) (s : Sys Q) : Prop where
  parked : s.parked.pendingReads.lookup id = some p
  reply : p.reply = t
  toEnd : ToEnd limit p
  read : (S.view s.core.conn id).read = v₀.read ++ p.buf
  awaited : t ∈ s.waiting
  undecided : ∀ x ∈ seen, x.answer limit v₀ = none

/-- The read was answered, as the one pump that could decide it says. -/
structure RepliedToEnd (limit : UInt64) (t : Token) (v₀ : RecvView) (seen : List Sight)
    (answer : Except ConnError (List UInt8)) (s : Sys Q) : Prop where
  sent : (t, .bytes answer) ∈ s.sent
  decided : ∃ x ∈ seen, x.answer limit v₀ = some answer
  only : ∀ x ∈ seen, ∀ a, x.answer limit v₀ = some a → a = answer

/-- Where a `read_to_end` that was started at `v₀` stands, after the pumps in `seen`. -/
structure ReadingToEnd (S : Q.OrderedReads) (id : StreamId) (limit : UInt64) (t : Token)
    (v₀ : RecvView) (seen : List Sight) (s : Sys Q) : Prop where
  sound : s.Sound
  truth : ConnState.Recorded S id s.core
  consumed : ∀ x ∈ seen, x.after.read.length ≤ v₀.read.length + limit.toNat + 1
  stands : (∃ p, HoldsToEnd S id limit t v₀ seen p s) ∨
    ∃ answer, RepliedToEnd limit t v₀ seen answer s

section Steps

variable {id : StreamId} {limit : UInt64} {t : Token} {v₀ : RecvView} {seen : List Sight}

/-- **A pump**, of a read that nothing has decided yet. -/
theorem pumped_stands {s s' : Sys Q} {p : PendingRead} {q : Parked}
    (hp : ToEnd limit p) (hreply : p.reply = t) (htruth : ConnState.Recorded S id s.core)
    (hread : (S.view s.core.conn id).read = v₀.read ++ p.buf)
    (hcore : s'.core = (q.offerRead s.core id p).core)
    (hparked : s'.parked = (q.offerRead s.core id p).parked)
    (hsent : s'.sent = s.sent ++ (q.offerRead s.core id p).sent) (hwait : t ∈ s'.waiting)
    (hseen : ∀ x ∈ seen, x.answer limit v₀ = none) :
    let x : Sight := ⟨S.view s.core.conn id, id ∈ s.core.finishedReads, S.view s'.core.conn id⟩
    x.after.read.length ≤ v₀.read.length + limit.toNat + 1 ∧
      ((∃ p', HoldsToEnd S id limit t v₀ (seen ++ [x]) p' s') ∨
        ∃ answer, RepliedToEnd limit t v₀ (seen ++ [x]) answer s') := by
  intro x
  have hpump := pumpRead_toEnd hp htruth
  rw [Parked.offerRead_core] at hcore
  have hcontent : x.content v₀ = p.buf ++ (S.view s.core.conn id).unread := by
    show (S.view s.core.conn id).arrived.drop v₀.read.length = _
    rw [RecvView.arrived, hread, List.append_assoc, List.drop_left]
  have hanswer : (pumpRead s.core id p).reply = x.answer limit v₀ := by
    rw [Sight.answer, hcontent]
    exact hpump.reply
  refine ⟨?_, ?_⟩
  · obtain ⟨taken, htaken, hlen⟩ := hpump.consumed
    show (S.view s'.core.conn id).read.length ≤ _
    rw [hcore, htaken, hread]
    simp only [List.length_append] at hlen ⊢
    omega
  · cases hr : (pumpRead s.core id p).reply with
    | none =>
      obtain ⟨hpending, -, hread', hwithin⟩ := hpump.parked hr
      refine Or.inl ⟨(pumpRead s.core id p).pending, ⟨?_, ?_, ?_, ?_, hwait, fun y hy => ?_⟩⟩
      · rw [hparked, Parked.offerRead, hr]
        exact AList.lookup_insert _
      · rw [hpending]
        exact hreply
      · rw [hpending]
        exact ⟨hp.endLimit, hp.max, hwithin⟩
      · rw [hcore, hpending, hread', hread, List.append_assoc]
      · rcases List.mem_append.mp hy with hy | hy
        · exact hseen y hy
        · rw [List.mem_singleton.mp hy, ← hanswer, hr]
    | some answer =>
      refine Or.inr ⟨answer, ⟨?_, ⟨x, by simp, hanswer.symm.trans hr⟩, fun y hy a ha => ?_⟩⟩
      · rw [hsent, Parked.offerRead, hr, hreply]
        exact List.mem_append_right _ (List.mem_singleton_self _)
      · rcases List.mem_append.mp hy with hy | hy
        · exact absurd ((hseen y hy).symm.trans ha) (by simp)
        · rw [List.mem_singleton.mp hy, ← hanswer, hr] at ha
          exact (Option.some.inj ha).symm

/-- A read that was answered is not pumped again. -/
theorem not_pumps_of_sent {s : Sys Q} (hsound : s.Sound) {answer : Except ConnError (List UInt8)}
    (hsent : (t, .bytes answer) ∈ s.sent) (a : Action Q) : s.pumps id t a = false := by
  have hused : t ∈ s.sent.map Prod.fst := List.mem_map.mpr ⟨_, hsent, rfl⟩
  unfold Sys.pumps
  split
  · split
    · rename_i a' limit' t' rest hcmds
      have hne : t' ≠ t := by
        rintro rfl
        exact (hsound.queued_only (by rw [hcmds]; exact List.mem_cons_self) rfl).2 hused
      simp [hne]
    · rfl
  · split
    · rename_i ch a' rest hevents
      have hne : (s.parked.pendingReads.lookup id).map PendingRead.reply ≠ some t := by
        intro heq
        obtain ⟨p, hp, rfl⟩ := Option.map_eq_some_iff.mp heq
        exact (hsound.parked_only (Parked.mem_tokens_read hp)).2 hused
      simp [hne]
    · rfl
  · rfl

/-- Operations that do not read from `id` leave what was read of it. -/
theorem read_of_driven {P : ConnOp Q → Prop} {s s' : ConnState Q} (h : ConnState.Driven P s s')
    (hP : ∀ o, P o → ∀ len, o ≠ .call (.streamRead id len)) :
    (S.view s'.conn id).read = (S.view s.conn id).read := by
  refine h.keeps (I := fun c => (S.view c.conn id).read = (S.view s.conn id).read) ?_ rfl
  intro o c ho hPo hc
  rcases ConnState.op_view (S := S) c ho (hP o hPo) with harr | ⟨-, hclosed⟩
  · exact harr.read.trans hc
  · rw [hclosed]
    exact hc

/-- Only a read of `id` asks the core to read from it. -/
theorem asks_read {s : Sys Q} {a : Action Q} {len : Nat}
    (h : s.Asks a (.call (.streamRead id len))) :
    (∃ now cmd rest, a = .execute now ∧ s.commands = cmd :: rest ∧ cmd.slot = some (.read id)) ∨
      ∃ ch rest, a = .dispatch ∧ s.events = .streamReadable ch id :: rest := by
  cases a with
  | execute now =>
    obtain ⟨cmd, rest, hcmds, hasks⟩ := h
    refine Or.inl ⟨now, cmd, rest, rfl, hcmds, ?_⟩
    cases cmd <;> simp_all [Cmd.Asks, ReadsOf, WritesOf, Cmd.slot]
  | dispatch =>
    obtain ⟨e, rest, hevents, hasks⟩ := h
    refine Or.inr ?_
    cases e <;> simp_all [EventAsks, ReadsOf, WritesOf]
  | service now => exact absurd h (by simp [Sys.Asks, PassAsks])
  | handleEvent | handleTimeout | endpointEvent => exact absurd h (by simp [Sys.Asks])
  | issue | cancel | receive => exact h.elim

namespace HoldsToEnd

variable {s : Sys Q} {p : PendingRead}

/-- The channel of a parked read is in no other place, and no other read of its stream is queued. -/
theorem alone (h : HoldsToEnd S id limit t v₀ seen p s) (hsound : s.Sound) :
    t ∉ s.sent.map Prod.fst ∧ ∀ cmd ∈ s.commands, cmd.slot ≠ some (.read id) := by
  have htoken : t ∈ s.parked.tokens (.read id) := h.reply ▸ Parked.mem_tokens_read h.parked
  obtain ⟨hqueue, hused⟩ := hsound.parked_only htoken
  refine ⟨hused, fun cmd hcmd hslot => hqueue ?_⟩
  exact (hsound.not_parked_of_queued (σ := .read id) rfl hcmd hslot h.awaited
    (hsound.typed (.read id) t htoken)).1

/-- **An action that does not pump it** leaves a parked read as it is. -/
theorem kept (h : HoldsToEnd S id limit t v₀ seen p s) (hsound : s.Sound) {a : Action Q}
    (hleft : s.LeftAlone id t a) (hpumps : s.pumps id t a = false) :
    HoldsToEnd S id limit t v₀ seen p (s.step a) := by
  obtain ⟨hused, hqueue⟩ := h.alone hsound
  have hread : ∀ ch rest, a = .dispatch → s.events ≠ .streamReadable ch id :: rest := by
    rintro ch rest rfl hevents
    simp [Sys.pumps, hevents, h.parked, h.reply] at hpumps
  have hsame : (S.view (s.step a).core.conn id).read = (S.view s.core.conn id).read := by
    refine read_of_driven (s.step_driven a) fun o ho len heq => ?_
    rw [heq] at ho
    rcases asks_read ho with ⟨now, cmd, rest, -, hcmds, hslot⟩ | ⟨ch, rest, ha, hevents⟩
    · exact hqueue cmd (by rw [hcmds]; exact List.mem_cons_self) hslot
    · exact hread ch rest ha hevents
  have hstep := Sys.taken s a
  refine ⟨?_, h.reply, h.toEnd, hsame.trans h.read, ?_, h.undecided⟩
  · rw [← h.parked]
    generalize s.step a = s' at hstep
    cases hstep with
    | @executed cmd rest now hcmds =>
      have hcmd : cmd ∈ s.commands := by rw [hcmds]; exact List.mem_cons_self
      exact (applyCmd_leavesReads hsound.typed (fun t' ht' => hsound.slotOf_queued hcmd ht')
        (hqueue cmd hcmd) (fun code t' heq => hleft.2 now code t' rest rfl (heq ▸ hcmds))
        s.core now).1
    | @dispatched e rest hevents =>
      exact (onEvent_leavesReads hsound.typed (fun ch heq => hread ch rest rfl (heq ▸ hevents))
        s.core).1
    | _ => rfl
  · generalize s.step a = s' at hstep
    cases hstep with
    | issued => exact Finset.mem_insert_of_mem h.awaited
    | cancelled t' =>
      exact Finset.mem_erase.mpr ⟨fun heq => hleft.1 (by rw [heq]), h.awaited⟩
    | received hx =>
      refine Finset.mem_erase.mpr ⟨fun heq => hused ?_, h.awaited⟩
      rw [heq]
      exact List.mem_map_of_mem hx
    | _ => exact h.awaited

end HoldsToEnd

/-- The sights of one action. -/
def sightsOf (S : Q.OrderedReads) (id : StreamId) (t : Token) (s : Sys Q) (a : Action Q) :
    List Sight :=
  s.sights S id t [a]

theorem sights_cons (s : Sys Q) (a : Action Q) (actions : List (Action Q)) :
    s.sights S id t (a :: actions) =
      sightsOf S id t s a ++ (s.step a).sights S id t actions := by
  simp [Sys.sights, sightsOf]

/-- A parked read that is pumped by a dispatch. -/
theorem pumps_parked {s : Sys Q} {p : PendingRead} (h : HoldsToEnd S id limit t v₀ seen p s)
    (hsound : s.Sound) {a : Action Q} (hpumps : s.pumps id t a = true) :
    ∃ q, (s.step a).core = (Parked.offerRead q s.core id p).core ∧
      (s.step a).parked = (Parked.offerRead q s.core id p).parked ∧
      (s.step a).sent = s.sent ++ (Parked.offerRead q s.core id p).sent ∧
      (s.step a).waiting = s.waiting := by
  unfold Sys.pumps at hpumps
  split at hpumps
  · split at hpumps
    · rename_i a' limit' t' rest hcmds
      obtain ⟨rfl, rfl⟩ : a' = id ∧ t' = t := by simpa using hpumps
      exact absurd rfl ((h.alone hsound).2 _ (by rw [hcmds]; exact List.mem_cons_self))
    · exact absurd hpumps (by simp)
  · split at hpumps
    · rename_i ch a' rest hevents
      obtain ⟨rfl, -⟩ : a' = id ∧ _ := by simpa using hpumps
      refine ⟨{ s.parked with pendingReads := s.parked.pendingReads.erase a' }, ?_⟩
      have hoffer : s.parked.onReadable s.core a' = Parked.offerRead
          { s.parked with pendingReads := s.parked.pendingReads.erase a' } s.core a' p := by
        rw [Parked.onReadable, h.parked]
      simp [Sys.step, hevents, Parked.onEvent, hoffer, Sys.after]
    · exact absurd hpumps (by simp)
  · exact absurd hpumps (by simp)

/-- **One action.** -/
theorem ReadingToEnd.step {s : Sys Q} (h : ReadingToEnd S id limit t v₀ seen s) {a : Action Q}
    (hleft : s.LeftAlone id t a) :
    ReadingToEnd S id limit t v₀ (seen ++ sightsOf S id t s a) (s.step a) := by
  have htruth : ConnState.Recorded S id (s.step a).core :=
    (s.step_driven a).keeps (fun o c ho _ hc => ConnState.op_recorded ho hc) h.truth
  rcases h.stands with ⟨p, hholds⟩ | ⟨answer, hreplied⟩
  · cases hpumps : s.pumps id t a with
    | false =>
      have hnone : sightsOf S id t s a = [] := by simp [sightsOf, Sys.sights, hpumps]
      rw [hnone, List.append_nil]
      exact ⟨h.sound.step a, htruth, h.consumed, Or.inl ⟨p, hholds.kept h.sound hleft hpumps⟩⟩
    | true =>
      obtain ⟨q, hcore, hparked, hsent, hwait⟩ := pumps_parked hholds h.sound hpumps
      obtain ⟨hbound, hstands⟩ := pumped_stands hholds.toEnd hholds.reply h.truth hholds.read hcore
        hparked hsent (hwait ▸ hholds.awaited) hholds.undecided
      have hone : sightsOf S id t s a = [⟨S.view s.core.conn id, id ∈ s.core.finishedReads,
          S.view (s.step a).core.conn id⟩] := by simp [sightsOf, Sys.sights, hpumps]
      rw [hone]
      refine ⟨h.sound.step a, htruth, fun x hx => ?_, hstands⟩
      rcases List.mem_append.mp hx with hx | hx
      · exact h.consumed x hx
      · rw [List.mem_singleton.mp hx]
        exact hbound
  · have hnone : sightsOf S id t s a = [] := by
      simp [sightsOf, Sys.sights, not_pumps_of_sent h.sound hreplied.sent a]
    rw [hnone, List.append_nil]
    exact ⟨h.sound.step a, htruth, h.consumed, Or.inr ⟨answer,
      ⟨(Sys.taken s a).mem_sent hreplied.sent, hreplied.decided, hreplied.only⟩⟩⟩

theorem ReadingToEnd.run {s : Sys Q} (h : ReadingToEnd S id limit t v₀ seen s)
    {actions : List (Action Q)} (hleft : Sys.Meets (Sys.LeftAlone id t) s actions) :
    ReadingToEnd S id limit t v₀ (seen ++ s.sights S id t actions) (s.run actions) := by
  induction actions generalizing s seen with
  | nil =>
    rw [Sys.sights, List.append_nil]
    exact h
  | cons a actions ih =>
    rw [sights_cons, ← List.append_assoc]
    exact ih (h.step hleft.1) hleft.2

end Steps

/-! ## Every run -/

/-- A pump ends: it leaves through a `return`, and with more rounds to spare it does the same. -/
theorem pumpRead_terminates (core : ConnState Q) (id : StreamId) (p : PendingRead) :
    (∃ r, readPumpRound id r = .done (pumpRead core id p)) ∧
      ∀ fuel, Q.readRank core.conn < fuel →
        loop (readPumpRound id) fuel { core, pending := p } = pumpRead core id p := by
  obtain ⟨r, -, hdone⟩ := pumpRead_exit (I := fun _ => True) core id p (fun _ _ _ _ => trivial)
    trivial
  refine ⟨⟨r, hdone⟩, fun fuel hfuel => ?_⟩
  refine loop_fuel (r := fun r : ReadPump Q => Q.readRank r.core.conn) (fun r r' hround => ?_) hfuel
    (Nat.lt_succ_self _)
  obtain ⟨hne, rfl⟩ := readPumpRound_again hround
  exact ConnState.streamRead_rank hne

/-- The state after the command is applied. -/
theorem ReadingToEnd.start {s : Sys Q} {id : StreamId} {limit : UInt64} {t : Token}
    {rest : List Cmd} (now : Instant) (hsound : s.Sound) (htruth : ConnState.Recorded S id s.core)
    (hcmds : s.commands = .readToEnd id limit t :: rest) (hwait : t ∈ s.waiting) :
    ReadingToEnd S id limit t (S.view s.core.conn id) (sightsOf S id t s (.execute now))
      (s.step (.execute now)) := by
  have hstep : s.step (.execute now) = Sys.after { s with commands := rest }
      (s.parked.offerRead s.core id ⟨[], some limit, none, t⟩) := by
    simp only [Sys.step, hcmds]
    rfl
  have hone : sightsOf S id t s (.execute now) = [⟨S.view s.core.conn id,
      id ∈ s.core.finishedReads, S.view (s.step (.execute now)).core.conn id⟩] := by
    simp [sightsOf, Sys.sights, Sys.pumps, hcmds]
  have hp : ToEnd limit ⟨[], some limit, none, t⟩ := ⟨rfl, rfl, Nat.zero_le _⟩
  have hcore : (s.step (.execute now)).core =
      (s.parked.offerRead s.core id ⟨[], some limit, none, t⟩).core := by rw [hstep]; rfl
  have hseen : ∀ x ∈ ([] : List Sight), x.answer limit (S.view s.core.conn id) = none := by simp
  obtain ⟨hbound, hstands⟩ := pumped_stands hp rfl htruth (List.append_nil _).symm hcore
    (by rw [hstep]; rfl) (by rw [hstep]; rfl) (by rw [hstep]; exact hwait) hseen
  rw [hone]
  refine ⟨hsound.step _, ?_, ?_, hstands⟩
  · exact (s.step_driven _).keeps (fun o c ho _ hc => ConnState.op_recorded ho hc) htruth
  · intro x hx
    rw [List.mem_singleton.mp hx]
    exact hbound

/-- The replies are what the pumps decided. -/
theorem ReadingToEnd.sent_iff {id : StreamId} {limit : UInt64} {t : Token} {v₀ : RecvView}
    {seen : List Sight} {s : Sys Q} (h : ReadingToEnd S id limit t v₀ seen s) {r : Reply} :
    (t, r) ∈ s.sent ↔
      ∃ answer, r = .bytes answer ∧ ∃ x ∈ seen, x.answer limit v₀ = some answer := by
  rcases h.stands with ⟨p, hholds⟩ | ⟨answer, hreplied⟩
  · refine ⟨fun hmem => ?_, ?_⟩
    · exact absurd (List.mem_map_of_mem hmem) (hholds.alone h.sound).1
    · rintro ⟨answer, -, x, hx, hanswer⟩
      exact absurd ((hholds.undecided x hx).symm.trans hanswer) (by simp)
  · constructor
    · intro hmem
      have heq := List.inj_on_of_nodup_map h.sound.nodup_sent hmem hreplied.sent rfl
      exact ⟨answer, congrArg Prod.snd heq, hreplied.decided⟩
    · rintro ⟨answer', rfl, x, hx, hanswer⟩
      rw [hreplied.only x hx answer' hanswer]
      exact hreplied.sent

/-- The answers are what the pumps decided. -/
theorem ReadingToEnd.bytes_iff {id : StreamId} {limit : UInt64} {t : Token} {v₀ : RecvView}
    {seen : List Sight} {s : Sys Q} (h : ReadingToEnd S id limit t v₀ seen s)
    {answer : Except ConnError (List UInt8)} :
    (t, .bytes answer) ∈ s.sent ↔ ∃ x ∈ seen, x.answer limit v₀ = some answer := by
  rw [h.sent_iff]
  constructor
  · rintro ⟨_, heq, hx⟩
    rw [Reply.bytes.inj heq]
    exact hx
  · exact fun hx => ⟨answer, rfl, hx⟩

/-- **Every run**, from where the command is applied. -/
theorem ReadingToEnd.reached (S : Q.OrderedReads) (handle : ConnectionHandle) (c : Q.Conn)
    (before : List (Action Q)) {actions : List (Action Q)} {id : StreamId} {limit : UInt64}
    {t : Token} {now : Instant} {rest : List Cmd}
    (hcmds : ((Sys.start handle (.new c)).run before).commands = .readToEnd id limit t :: rest)
    (hwait : t ∈ ((Sys.start handle (.new c)).run before).waiting)
    (hleft : Sys.Meets (Sys.LeftAlone id t) ((Sys.start handle (.new c)).run before)
      (.execute now :: actions)) :
    ReadingToEnd S id limit t (S.view ((Sys.start handle (.new c)).run before).core.conn id)
      (((Sys.start handle (.new c)).run before).sights S id t (.execute now :: actions))
      (((Sys.start handle (.new c)).run before).run (.execute now :: actions)) := by
  have hsound : ((Sys.start handle (.new c)).run before).Sound :=
    Sys.run_keeps (fun _ a h => h.step a) before (.start handle _)
  have htruth : ConnState.Recorded S id ((Sys.start handle (.new c)).run before).core :=
    Sys.core_run_keeps (I := ConnState.Recorded S id) (fun o c ho hc => ConnState.op_recorded ho hc)
      before fun hmem => absurd hmem (Finset.notMem_empty id)
  have hrun := (ReadingToEnd.start (S := S) now hsound htruth hcmds hwait).run hleft.2
  rw [← sights_cons] at hrun
  exact hrun

/-- **Bounded `read_to_end` is exact.** In every run of a connection with its driver, from where a
`ReadToEnd` is applied, as long as it is not cancelled and no `Stop` of its stream is applied: the
pumps of the read decide it by what they see of the stream, whatever arrived between them. It
replies `Ok(b)` exactly when a pump sees that FIN has arrived and `b`, all the stream brought, fits
the limit; `ReadLimitExceeded` exactly when a pump sees more than `limit` bytes; `Reset` exactly when
a pump sees the reset; and nothing but what a pump decided. Until then it is parked, with what it
consumed in its accumulator. It consumes at most one byte past the limit, and every pump ends. -/
theorem read_to_end_exact (S : Q.OrderedReads) (handle : ConnectionHandle) (c : Q.Conn)
    (before actions : List (Action Q)) (id : StreamId) (limit : UInt64) (t : Token) (now : Instant)
    (rest : List Cmd)
    (hcmds : ((Sys.start handle (.new c)).run before).commands = .readToEnd id limit t :: rest)
    (hwait : t ∈ ((Sys.start handle (.new c)).run before).waiting)
    (hleft : Sys.Meets (Sys.LeftAlone id t) ((Sys.start handle (.new c)).run before)
      (.execute now :: actions)) :
    let s₀ := (Sys.start handle (.new c)).run before
    let v₀ := S.view s₀.core.conn id
    let seen := s₀.sights S id t (.execute now :: actions)
    let s := s₀.run (.execute now :: actions)
    (∀ b, (t, .bytes (.ok b)) ∈ s.sent ↔
      ∃ x ∈ seen, x.Fin ∧ x.content v₀ = b ∧ b.length ≤ limit.toNat) ∧
    ((t, .bytes (.error (.readLimitExceeded limit.toNat))) ∈ s.sent ↔
      ∃ x ∈ seen, (x.before.phase = .receiving ∨ x.Fin) ∧ limit.toNat < (x.content v₀).length) ∧
    (∀ code, (t, .bytes (.error (.reset code))) ∈ s.sent ↔
      ∃ x ∈ seen, x.before.phase = .reset code) ∧
    (∀ r, (t, r) ∈ s.sent → ∃ answer, r = .bytes answer ∧
      ∃ x ∈ seen, x.answer limit v₀ = some answer) ∧
    ((∀ r, (t, r) ∉ s.sent) → ∃ p, s.parked.pendingReads.lookup id = some p ∧ p.reply = t ∧
      p.endLimit = some limit ∧ (S.view s.core.conn id).read = v₀.read ++ p.buf ∧
      p.buf.length ≤ limit.toNat) ∧
    (∀ x ∈ seen, x.after.read.length ≤ v₀.read.length + limit.toNat + 1) ∧
    ∀ core p, (∃ r, readPumpRound id r = .done (pumpRead (Q := Q) core id p)) ∧
      ∀ fuel, Q.readRank core.conn < fuel →
        loop (readPumpRound id) fuel { core, pending := p } = pumpRead core id p := by
  intro s₀ v₀ seen s
  have h : ReadingToEnd S id limit t v₀ seen s := .reached S handle c before hcmds hwait hleft
  refine ⟨fun b => ?_, ?_, fun code => ?_, fun r hr => h.sent_iff.mp hr, fun hnone => ?_,
    h.consumed, fun core p => pumpRead_terminates core id p⟩
  · simp only [h.bytes_iff, Sight.answer_ok]
  · simp only [h.bytes_iff, Sight.answer_exceeded]
  · simp only [h.bytes_iff, Sight.answer_reset]
  · rcases h.stands with ⟨p, hholds⟩ | ⟨answer, hreplied⟩
    · exact ⟨p, hholds.parked, hholds.reply, hholds.toEnd.endLimit, hholds.read,
        hholds.toEnd.within⟩
    · exact absurd hreplied.sent (hnone _)

/-- A new connection of `Inbox`. -/
def inboxStart : Sys Inbox := .start ⟨0, 1⟩ (.new .new)

/-- Two bytes of a stream arrive, and the application asks for the whole of it. -/
def twoBytesThenAsk : List (Action Inbox) :=
  [.handleEvent (.stream 0 [1, 2] false), .service 0, .issue (.readToEnd 0 3 7)]

/-- The third byte arrives with FIN, and the events are dispatched. -/
def lastByteWithFin : List (Action Inbox) :=
  [.handleEvent (.stream 0 [3] true), .service 1, .dispatch, .dispatch]

theorem threeBytes_leftAlone : Sys.Meets (Sys.LeftAlone 0 7) (inboxStart.run twoBytesThenAsk)
    (.execute 0 :: lastByteWithFin) := by
  refine ⟨⟨by simp, fun _ _ _ _ _ => ?_⟩, ⟨by simp, by simp⟩, ⟨by simp, by simp⟩,
    ⟨by simp, by simp⟩, ⟨by simp, by simp⟩, trivial⟩
  have hcmds : (inboxStart.run twoBytesThenAsk).commands = [.readToEnd 0 3 7] := rfl
  rw [hcmds]
  simp

/-- The second of the two pumps sees FIN. -/
theorem threeBytes_sights : (inboxStart.run twoBytesThenAsk).sights Inbox.orderedReads 0 7
    (.execute 0 :: lastByteWithFin) =
      [⟨⟨[], [1, 2], .receiving⟩, false, ⟨[1, 2], [], .receiving⟩⟩,
        ⟨⟨[1, 2], [3], .finArrived⟩, false, ⟨[1, 2, 3], [], .finRead⟩⟩] := rfl

theorem read_to_end_exact_threeBytes :
    (inboxStart.run twoBytesThenAsk).commands = [.readToEnd 0 3 7] ∧
      7 ∈ (inboxStart.run twoBytesThenAsk).waiting ∧
      (7, .bytes (.ok [1, 2, 3])) ∈
        ((inboxStart.run twoBytesThenAsk).run (.execute 0 :: lastByteWithFin)).sent := by
  have hcmds : (inboxStart.run twoBytesThenAsk).commands = [.readToEnd 0 3 7] := rfl
  have hwait : 7 ∈ (inboxStart.run twoBytesThenAsk).waiting := by decide
  obtain ⟨hok, -⟩ := read_to_end_exact Inbox.orderedReads ⟨0, 1⟩ .new twoBytesThenAsk
    lastByteWithFin 0 3 7 0 [] hcmds hwait threeBytes_leftAlone
  refine ⟨hcmds, hwait, (hok [1, 2, 3]).mpr
    ⟨⟨⟨[1, 2], [3], .finArrived⟩, false, ⟨[1, 2, 3], [], .finRead⟩⟩, ?_, Or.inl rfl, rfl, by decide⟩⟩
  show _ ∈ (inboxStart.run twoBytesThenAsk).sights Inbox.orderedReads 0 7
    (.execute 0 :: lastByteWithFin)
  rw [threeBytes_sights]
  simp

end QuietQuic.Tokio
