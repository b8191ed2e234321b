import QuietQuic.Proto.ConnRuns
import QuietQuic.Proto.Inbox

/-!
# Incremental reads

`stream_read` fills the caller's buffer chunk by chunk until it is full, nothing is buffered, FIN is
reached or the stream turns out to be reset. A FIN seen behind data is reported by the next call,
from the side table `finished_reads`, because quinn-proto has freed the stream by then.

`streamReadInto` is `stream_read` with the caller's buffer, filled in place. The law `OrderedReads`
says what quinn-proto hands out; `ReadStep` is what `stream_read` makes of it, as one transition of a
receive half together with its entry in `finished_reads`.

* `streamReadInto_eq`: filling in place copies the bytes to the front and leaves the rest.
* `streamRead_step`: every read is a `ReadStep`.
* `op_recorded`: an entry is there only for a stream that was read past its FIN.
* `reads_exact`: along every run, the answers deliver the stream exactly.
* `finished_stable_iff`: end-of-stream stays the answer until the entry is released, which a reset of
  the other half does too.
-/

namespace QuietQuic.Proto

open QuietQuic.Lib

variable {Q : Quinn}

namespace ConnState

/-! ## The caller's buffer -/

/-- `buf[start..start + bytes.len()].copy_from_slice(bytes)`. -/
def copyFromSlice (buf : List UInt8) (start : Nat) (bytes : List UInt8) : List UInt8 :=
  buf.take start ++ bytes ++ buf.drop (start + bytes.length)

/-- The locals of `stream_read`'s loop, with the caller's buffer. -/
structure FillLoop (Q : Quinn) where
  chunks : Q.Chunks
  buf : List UInt8
  filled : Nat := 0
  finished : Bool := false
  errored : Option ConnError := none

/-- One round of `while filled < buf.len()`. -/
def fillRound (r : FillLoop Q) : Ctl (FillLoop Q) :=
  if r.filled < r.buf.length then
    match Q.chunksNext r.chunks (r.buf.length - r.filled) with
    | (.chunk bytes, ch) =>
      .again { r with
        chunks := ch
        buf := copyFromSlice r.buf r.filled bytes
        filled := r.filled + bytes.length }
    | (.finished, ch) => .done { r with chunks := ch, finished := true }
    | (.blocked, ch) => .done { r with chunks := ch }
    | (.reset code, ch) => .done { r with chunks := ch, errored := some (.reset code) }
  else .done r

/-- `stream_read` with the caller's buffer: the answer, what the buffer holds, the new state. -/
def streamReadInto (s : ConnState Q) (id : StreamId) (buf : List UInt8) :
    Except ConnError ReadOutcome × List UInt8 × ConnState Q :=
  if id ∈ s.finishedReads then (.ok .finished, buf, s)
  else if buf = [] then (.ok .blocked, buf, s)
  else
    let s := { s with dirty := true }
    match Q.recvRead s.conn id with
    | .closedStream c => (.error .closedStream, buf, { s with conn := c })
    | .illegalOrderedRead c =>
      (.error (.transport "ordered read after unordered read"), buf, { s with conn := c })
    | .chunks ch =>
      let r := loop fillRound (buf.length + 1) { chunks := ch, buf }
      let s := { s with conn := Q.chunksFinalize r.chunks }
      let s := if r.finished then { s with finishedReads := insert id s.finishedReads } else s
      (if 0 < r.filled then .ok (.read r.filled)
        else
          match r.errored with
          | some err => .error err
          | none => .ok (if r.finished then .finished else .blocked), r.buf, s)

/-- The two loops at the same point: the buffer's front is what was copied. -/
structure Filling (buf : List UInt8) (r : ReadLoop Q) (t : FillLoop Q) : Prop where
  chunks : t.chunks = r.chunks
  filled : t.filled = r.filled.length
  within : r.filled.length ≤ buf.length
  buf : t.buf = r.filled ++ buf.drop r.filled.length
  finished : t.finished = r.finished
  errored : t.errored = r.errored

theorem Filling.length {buf : List UInt8} {r : ReadLoop Q} {t : FillLoop Q} (h : Filling buf r t) :
    t.buf.length = buf.length := by
  have := h.within
  rw [h.buf, List.length_append, List.length_drop]
  omega

/-- Copying behind the front makes a longer front. -/
theorem copyFromSlice_front (buf front bytes : List UInt8) :
    copyFromSlice (front ++ buf.drop front.length) front.length bytes =
      front ++ bytes ++ buf.drop (front ++ bytes).length := by
  unfold copyFromSlice
  rw [List.take_left, List.length_append, List.drop_append, List.drop_drop]
  simp [List.drop_eq_nil_of_le]

theorem fillRound_sim {buf : List UInt8} (r : ReadLoop Q) (t : FillLoop Q) (h : Filling buf r t) :
    (∃ r' t', readRound buf.length r = .again r' ∧ fillRound t = .again t' ∧ Filling buf r' t') ∨
      ∃ r' t', readRound buf.length r = .done r' ∧ fillRound t = .done t' ∧ Filling buf r' t' := by
  have hlen := h.length
  obtain ⟨chunks, tbuf, filled, finished, errored⟩ := t
  obtain ⟨rfl, rfl, hwithin, rfl, rfl, rfl⟩ := h
  dsimp only at hlen
  unfold readRound fillRound
  dsimp only
  rw [hlen]
  split
  · cases hnext : Q.chunksNext r.chunks (buf.length - r.filled.length) with
    | mk answer ch =>
      cases answer with
      | chunk bytes =>
        have hshort := (Q.nextChunk _ _ _ _ hnext).2
        refine .inl ⟨_, _, rfl, rfl, rfl, by simp, ?_, copyFromSlice_front buf _ bytes, rfl, rfl⟩
        simp only [List.length_append]
        omega
      | finished => exact .inr ⟨_, _, rfl, rfl, rfl, rfl, hwithin, rfl, rfl, rfl⟩
      | blocked => exact .inr ⟨_, _, rfl, rfl, rfl, rfl, hwithin, rfl, rfl, rfl⟩
      | reset code => exact .inr ⟨_, _, rfl, rfl, rfl, rfl, hwithin, rfl, rfl, rfl⟩
  · exact .inr ⟨_, _, rfl, rfl, rfl, rfl, hwithin, rfl, rfl, rfl⟩

/-- **Filling in place** answers and does what copying bytes out does, puts them at the front of the
buffer and leaves what was behind them. -/
theorem streamReadInto_eq (s : ConnState Q) (id : StreamId) (buf : List UInt8) :
    s.streamReadInto id buf =
      ((s.streamRead id buf.length).1,
        (s.streamRead id buf.length).2.1 ++ buf.drop (s.streamRead id buf.length).2.1.length,
        (s.streamRead id buf.length).2.2) := by
  unfold streamReadInto streamRead
  split
  · rfl
  · by_cases hbuf : buf = []
    · subst hbuf
      rfl
    · rw [if_neg hbuf, if_neg (fun h => hbuf (List.length_eq_zero_iff.mp h))]
      cases hopen : Q.recvRead s.conn id with
      | closedStream c => simp only [hopen, List.nil_append, List.length_nil, List.drop_zero]
      | illegalOrderedRead c => simp only [hopen, List.nil_append, List.length_nil, List.drop_zero]
      | chunks ch =>
        have hend : Filling buf (readLoop buf.length ch)
            (loop fillRound (buf.length + 1) { chunks := ch, buf }) :=
          loop_sim fillRound_sim _ ⟨rfl, rfl, Nat.zero_le _, rfl, rfl, rfl⟩
        simp only [hopen, hend.chunks, hend.filled, hend.buf, hend.finished, hend.errored]
        rfl

end ConnState

/-! ## What `next` has answered -/

namespace RecvView

variable {n : Nat} {v v' : RecvView}

theorem Next.of_chunk {bytes : List UInt8} (h : Next n v (.chunk bytes) v') :
    (v.phase = .receiving ∨ v.phase = .finArrived) ∧ bytes ≠ [] ∧
      ∃ rest, v.unread = bytes ++ rest ∧ v' = ⟨v.read ++ bytes, rest, v.phase⟩ := by
  cases h with
  | chunk hphase hbytes => exact ⟨hphase, hbytes, _, rfl, rfl⟩

theorem Next.of_finished (h : Next n v .finished v') :
    v.phase = .finArrived ∧ v.unread = [] ∧ v' = ⟨v.read, [], .finRead⟩ := by
  cases h with
  | finished => exact ⟨rfl, rfl, rfl⟩

theorem Next.of_blocked (h : Next n v .blocked v') :
    v.phase = .receiving ∧ v.unread = [] ∧ v' = ⟨v.read, [], .receiving⟩ := by
  cases h with
  | blocked => exact ⟨rfl, rfl, rfl⟩

theorem Next.of_reset {code : Nat} (h : Next n v (.reset code) v') :
    v.phase = .reset code ∧ v' = ⟨v.read, v.unread, .closed⟩ := by
  cases h with
  | reset => exact ⟨rfl, rfl⟩

end RecvView

/-! ## One read -/

/-- **One `stream_read` of `len` bytes**, on a receive half and whether its end is recorded in
`finished_reads`: the answer, the bytes copied, and what becomes of both. -/
inductive ReadStep (len : Nat) : RecvView → Bool → Except ConnError ReadOutcome → List UInt8 →
    RecvView → Bool → Prop
  | recorded {v} : ReadStep len v true (.ok .finished) [] v true
  | nothingAsked {v} (h : len = 0) : ReadStep len v false (.ok .blocked) [] v false
  | refused {v} (h : 0 < len) (hphase : ¬ v.phase.Readable) :
      ReadStep len v false (.error .closedStream) [] v false
  | bytes {read bytes rest phase} (hphase : phase = .receiving ∨ phase = .finArrived)
      (hbytes : bytes ≠ []) (hlen : bytes.length ≤ len)
      (hfull : bytes.length = len ∨ rest = [] ∧ phase = .receiving) :
      ReadStep len ⟨read, bytes ++ rest, phase⟩ false (.ok (.read bytes.length)) bytes
        ⟨read ++ bytes, rest, phase⟩ false
  | bytesToFin {read bytes} (hbytes : bytes ≠ []) (hlen : bytes.length < len) :
      ReadStep len ⟨read, bytes, .finArrived⟩ false (.ok (.read bytes.length)) bytes
        ⟨read ++ bytes, [], .finRead⟩ true
  | blocked {read} (h : 0 < len) :
      ReadStep len ⟨read, [], .receiving⟩ false (.ok .blocked) [] ⟨read, [], .receiving⟩ false
  | finished {read} (h : 0 < len) :
      ReadStep len ⟨read, [], .finArrived⟩ false (.ok .finished) [] ⟨read, [], .finRead⟩ true
  | reset {read unread code} (h : 0 < len) :
      ReadStep len ⟨read, unread, .reset code⟩ false (.error (.reset code)) []
        ⟨read, unread, .closed⟩ false

namespace ConnState

variable {S : Q.OrderedReads}

/-- Between two chunks of a session on a receive half that was `v`. -/
structure Reading (S : Q.OrderedReads) (id : StreamId) (len : Nat) (v : RecvView)
    (r : ReadLoop Q) : Prop where
  stream : (S.session r.chunks).1 = id
  view : ∃ rest, v.unread = r.filled ++ rest ∧
    (S.session r.chunks).2 = ⟨v.read ++ r.filled, rest, v.phase⟩
  opened : r.filled = [] ∨ v.phase = .receiving ∨ v.phase = .finArrived
  within : r.filled.length ≤ len
  finished : r.finished = false
  errored : r.errored = none

theorem Reading.round {id : StreamId} {len : Nat} {v : RecvView} (hphase : v.phase.Readable)
    {r r' : ReadLoop Q} (h : Reading S id len v r) (hround : readRound len r = .again r') :
    Reading S id len v r' := by
  have hroom : r.filled.length < len := by
    unfold readRound at hround
    split at hround
    · assumption
    · exact absurd hround (by simp)
  obtain ⟨bytes, ch, hnext, rfl⟩ := readRound_again hround
  obtain ⟨rest, hunread, hview⟩ := h.view
  obtain ⟨hstream, hstep⟩ := S.next r.chunks (n := len - r.filled.length) (by omega)
    (by rw [hview]; exact hphase)
  rw [hnext, hview] at hstep
  rw [hnext] at hstream
  obtain ⟨hopen, -, rest', hrest, hview'⟩ := hstep.of_chunk
  have hlen := (Q.nextChunk _ _ _ _ hnext).2
  refine ⟨hstream.trans h.stream, ⟨rest', ?_, ?_⟩, .inr hopen, ?_, h.finished, h.errored⟩
  · rw [hunread, show rest = bytes ++ rest' from hrest, List.append_assoc]
  · rw [hview', List.append_assoc]
  · simp only [List.length_append]
    omega

/-- **The chunk loop** ends on a `ReadStep`. -/
theorem readLoop_step {id : StreamId} {len : Nat} (hlen : 0 < len) {v : RecvView}
    (hphase : v.phase.Readable) {ch : Q.Chunks} (hopen : S.session ch = (id, v)) :
    ReadStep len v false (readAnswer (readLoop len ch)) (readLoop len ch).filled
        (S.view (Q.chunksFinalize (readLoop len ch).chunks) id) (readLoop len ch).finished := by
  obtain ⟨t, ht, hround⟩ := readLoop_exit (I := Reading S id len v) len ch
    (fun r r' h hround => h.round hphase hround)
    ⟨by rw [hopen], ⟨v.unread, rfl, by rw [hopen]; simp⟩, .inl rfl, Nat.zero_le _, rfl, rfl⟩
  obtain ⟨rest, hunread, hview⟩ := ht.view
  -- the view after the session is the one the session leaves behind
  have hfinal : ∀ {ch' : Q.Chunks} {w}, (S.session ch').1 = id → (S.session ch').2 = w →
      S.view (Q.chunksFinalize ch') id = w := by
    intro ch' w hid hw
    rw [← hw, ← hid]
    exact S.finalize ch'
  obtain ⟨read, unread, phase⟩ := v
  dsimp only at hunread hview
  subst hunread
  unfold readRound at hround
  split at hround
  · rename_i hroom
    obtain ⟨hstream, hstep⟩ := S.next t.chunks (n := len - t.filled.length) (by omega)
      (by rw [hview]; exact hphase)
    rw [hview] at hstep
    rw [ht.stream] at hstream
    split at hround
    · exact absurd hround (by simp)
    · rename_i ch' hnext
      rw [hnext] at hstep hstream
      obtain ⟨rfl, rfl, hw⟩ := hstep.of_finished
      rw [← Ctl.done.inj hround]
      dsimp only
      rw [hfinal hstream hw]
      by_cases hfilled : t.filled = []
      · simpa [readAnswer, hfilled, ht.errored] using ReadStep.finished hlen
      · have hpos := List.length_pos_iff.mpr hfilled
        simpa [readAnswer, hpos] using ReadStep.bytesToFin hfilled hroom
    · rename_i ch' hnext
      rw [hnext] at hstep hstream
      obtain ⟨rfl, rfl, hw⟩ := hstep.of_blocked
      rw [← Ctl.done.inj hround]
      dsimp only
      rw [hfinal hstream hw, ht.finished]
      by_cases hfilled : t.filled = []
      · simpa [readAnswer, hfilled, ht.errored, ht.finished] using ReadStep.blocked hlen
      · have hpos := List.length_pos_iff.mpr hfilled
        have hstep : ReadStep len ⟨read, t.filled ++ [], .receiving⟩ false
            (.ok (.read t.filled.length)) t.filled ⟨read ++ t.filled, [], .receiving⟩ false :=
          .bytes (.inl rfl) hfilled ht.within (.inr ⟨rfl, rfl⟩)
        simpa [readAnswer, hpos] using hstep
    · rename_i code ch' hnext
      rw [hnext] at hstep hstream
      obtain ⟨rfl, hw⟩ := hstep.of_reset
      -- a reset has discarded the buffer, so nothing was copied before it
      have hfilled : t.filled = [] := by
        rcases ht.opened with h | h | h
        · exact h
        · exact absurd h (by simp)
        · exact absurd h (by simp)
      rw [← Ctl.done.inj hround]
      dsimp only
      rw [hfinal hstream hw, ht.finished]
      simpa [readAnswer, hfilled] using ReadStep.reset hlen
  · rename_i hfull
    have hend : t.filled.length = len := Nat.le_antisymm ht.within (Nat.le_of_not_lt hfull)
    have hfilled : t.filled ≠ [] := List.ne_nil_of_length_pos (by omega)
    have hpos := List.length_pos_iff.mpr hfilled
    rw [← Ctl.done.inj hround, hfinal ht.stream hview, ht.finished]
    simpa [readAnswer, hpos] using ReadStep.bytes (ht.opened.resolve_left hfilled) hfilled ht.within
      (.inl hend)

/-- **Every read is a `ReadStep`** of its stream. -/
theorem streamRead_step (S : Q.OrderedReads) (s : ConnState Q) (id : StreamId) (len : Nat) :
    ReadStep len (S.view s.conn id) (id ∈ s.finishedReads) (s.streamRead id len).1
      (s.streamRead id len).2.1 (S.view (s.streamRead id len).2.2.conn id)
      (id ∈ (s.streamRead id len).2.2.finishedReads) := by
  unfold streamRead
  by_cases hrec : id ∈ s.finishedReads
  · simpa [hrec] using ReadStep.recorded
  · by_cases hlen : len = 0
    · simpa [hrec, hlen] using ReadStep.nothingAsked rfl
    · have hpos : 0 < len := Nat.pos_of_ne_zero hlen
      rw [if_neg hrec, if_neg hlen]
      cases hopen : Q.recvRead s.conn id with
      | closedStream c =>
        obtain ⟨hview, hphase⟩ := S.refuses hopen
        simpa [hopen, hview, hrec] using ReadStep.refused hpos hphase
      | illegalOrderedRead c => exact absurd hopen S.ordered
      | chunks ch =>
        obtain ⟨hsession, hphase⟩ := S.opens hopen
        have hstep := readLoop_step hpos hphase hsession
        simp only [hopen]
        cases hfin : (readLoop len ch).finished with
        | true =>
          rw [hfin] at hstep
          simpa [hrec] using hstep
        | false =>
          rw [hfin] at hstep
          simpa [hrec] using hstep

end ConnState

/-! ## Between reads -/

namespace RecvView

theorem Arrives.refl (v : RecvView) : v.Arrives v := ⟨rfl, ⟨[], by simp⟩, .same _⟩

theorem Arrives.trans {u v w : RecvView} (huv : u.Arrives v) (hvw : v.Arrives w) : u.Arrives w := by
  obtain ⟨hread, ⟨more, hunread, hopen⟩, hphase⟩ := huv
  obtain ⟨hread', ⟨more', hunread', hopen'⟩, hphase'⟩ := hvw
  -- where the first arrival has settled the stream the second adds nothing
  have hsettled : u.phase = .idle ∨ u.phase = .receiving ∨ more ++ more' = [] := by
    rcases hopen with h | h | h
    · exact .inl h
    · exact .inr (.inl h)
    · rcases hopen' with h' | h' | h'
      · rw [h'] at hphase
        generalize u.phase = p at hphase
        cases hphase with
        | same => exact .inl rfl
        | opened h => exact h.elim
      · rw [h'] at hphase
        generalize u.phase = p at hphase
        cases hphase with
        | same => exact .inr (.inl rfl)
        | opened => exact .inl rfl
      · exact .inr (.inr (by rw [h, h', List.append_nil]))
  refine ⟨hread'.trans hread, ⟨more ++ more', ?_, hsettled⟩, ?_⟩
  · rw [hunread', hunread, List.append_assoc]
  · generalize u.phase = p at hphase
    generalize v.phase = q at hphase hphase'
    generalize w.phase = r at hphase'
    cases hphase with
    | same => exact hphase'
    | opened hp =>
      cases hphase' with
      | same => exact .opened hp
      | opened => exact hp.elim
      | fin | reset | finReset => exact .opened trivial
    | fin =>
      cases hphase' with
      | same => exact .fin
      | finReset code => exact .reset code
    | reset code =>
      cases hphase' with
      | same => exact .reset code
    | finReset code =>
      cases hphase' with
      | same => exact .finReset code

/-- A stream that was read past its FIN stays as it is. -/
theorem Arrives.finRead {v v' : RecvView} (h : v.Arrives v') (hphase : v.phase = .finRead) :
    v' = v := by
  obtain ⟨read, unread, phase⟩ := v
  obtain ⟨read', unread', phase'⟩ := v'
  obtain ⟨rfl, ⟨more, hunread, hopen⟩, hbecomes⟩ := h
  obtain rfl : phase = .finRead := hphase
  have hmore : more = [] := by
    rcases hopen with h | h | h
    · exact absurd h (by simp)
    · exact absurd h (by simp)
    · exact h
  rw [hmore, List.append_nil] at hunread
  obtain rfl : unread' = unread := hunread
  cases hbecomes with
  | same => rfl

theorem Arrives.grows {v v' : RecvView} (h : v.Arrives v') : v.arrived <+: v'.arrived := by
  obtain ⟨more, hunread, -⟩ := h.more
  exact ⟨more, by rw [arrived, arrived, h.read, hunread, List.append_assoc]⟩

end RecvView

/-- A read leaves a stream that was read past its FIN as it is. -/
theorem ReadStep.finRead {len : Nat} {v v' : RecvView} {recorded recorded' : Bool}
    {answer : Except ConnError ReadOutcome} {bytes : List UInt8}
    (h : ReadStep len v recorded answer bytes v' recorded') (hphase : v.phase = .finRead) :
    v' = v ∧ recorded' = recorded := by
  cases h with
  | recorded | nothingAsked | refused => exact ⟨rfl, rfl⟩
  | bytes hp =>
    obtain rfl := hphase
    exact absurd hp (by simp)
  | bytesToFin | blocked | finished | reset => exact absurd hphase (by simp)

/-- Unless its end is recorded, it is refused. -/
theorem ReadStep.refuses {len : Nat} {v v' : RecvView} {recorded' : Bool}
    {answer : Except ConnError ReadOutcome} {bytes : List UInt8}
    (h : ReadStep len v false answer bytes v' recorded') (hphase : v.phase = .finRead)
    (hlen : len ≠ 0) : answer = .error .closedStream := by
  cases h with
  | refused => rfl
  | nothingAsked h => exact absurd h hlen
  | bytes hp =>
    obtain rfl := hphase
    exact absurd hp (by simp)
  | bytesToFin | blocked | finished | reset => exact absurd hphase (by simp)

/-- `Finished` is recorded. -/
theorem ReadStep.records {len : Nat} {v v' : RecvView} {recorded recorded' : Bool}
    {bytes : List UInt8} (h : ReadStep len v recorded (.ok .finished) bytes v' recorded') :
    recorded' = true := by
  cases h with
  | recorded | finished => rfl

/-- What a read copies comes from the front of what is unread, and nothing else moves. -/
theorem ReadStep.delivers {len : Nat} {v v' : RecvView} {recorded recorded' : Bool}
    {answer : Except ConnError ReadOutcome} {bytes : List UInt8}
    (h : ReadStep len v recorded answer bytes v' recorded') :
    v'.read = v.read ++ bytes ∧ v'.arrived = v.arrived ∧ bytes.length ≤ len := by
  cases h with
  | recorded | nothingAsked | refused | blocked | finished | reset =>
    exact ⟨(List.append_nil _).symm, rfl, Nat.zero_le _⟩
  | bytes _ _ hlen => exact ⟨rfl, by simp [RecvView.arrived], hlen⟩
  | bytesToFin _ hlen => exact ⟨rfl, by simp [RecvView.arrived], hlen.le⟩

/-- **A read into `buf` is exact**: a `Read(n)` has put the next `n` bytes of the stream at the front
of the buffer and left the rest of it, and other answers copied nothing; `Blocked` means that nothing
was asked for, or that nothing is buffered and FIN is not next; `Finished`, that every byte has been
read and FIN has arrived; and a reset is answered with its code. -/
structure ExactRead (v : RecvView) (buf : List UInt8) (answer : Except ConnError ReadOutcome)
    (buf' : List UInt8) (v' : RecvView) : Prop where
  read : ∀ n, answer = .ok (.read n) → 1 ≤ n ∧ n ≤ buf.length ∧ v'.read = v.read ++ buf'.take n ∧
    buf'.drop n = buf.drop n ∧ buf'.length = buf.length
  others : (∀ n, answer ≠ .ok (.read n)) → buf' = buf ∧ v'.read = v.read
  blocked : answer = .ok .blocked → buf = [] ∨ v.unread = [] ∧ v.phase = .receiving
  finished : answer = .ok .finished →
    v.unread = [] ∧ (v.phase = .finArrived ∨ v.phase = .finRead)
  reset : ∀ code, v.phase = .reset code → buf ≠ [] → answer = .error (.reset code)

/-- Bytes copied from the front. -/
theorem ExactRead.of_bytes {v v' : RecvView} {buf bytes : List UInt8} (hne : bytes ≠ [])
    (hlen : bytes.length ≤ buf.length) (hv' : v'.read = v.read ++ bytes)
    (hphase : v.phase = .receiving ∨ v.phase = .finArrived) :
    ExactRead v buf (.ok (.read bytes.length)) (bytes ++ buf.drop bytes.length) v' := by
  refine ⟨fun n hn => ?_, fun hno => absurd rfl (hno _), fun h => absurd h (by simp),
    fun h => absurd h (by simp), fun code h => ?_⟩
  · obtain rfl := ReadOutcome.read.inj (Except.ok.inj hn)
    refine ⟨List.length_pos_iff.mpr hne, hlen, ?_, List.drop_left, ?_⟩
    · rw [List.take_left, hv']
    · rw [List.length_append, List.length_drop]
      omega
  · rcases hphase with hp | hp
    · exact absurd (hp.symm.trans h) (by simp)
    · exact absurd (hp.symm.trans h) (by simp)

/-- A `ReadStep` of a half whose entry is true is exact, in the caller's buffer. -/
theorem ReadStep.exact {buf bytes : List UInt8} {v v' : RecvView} {recorded recorded' : Bool}
    {answer : Except ConnError ReadOutcome}
    (h : ReadStep buf.length v recorded answer bytes v' recorded')
    (hrec : recorded = true → v.phase = .finRead ∧ v.unread = []) :
    ExactRead v buf answer (bytes ++ buf.drop bytes.length) v' := by
  cases h with
  | recorded =>
    obtain ⟨hphase, hunread⟩ := hrec rfl
    refine ⟨by simp, fun _ => ⟨rfl, rfl⟩, by simp, fun _ => ⟨hunread, .inr hphase⟩, fun code h => ?_⟩
    exact absurd (hphase.symm.trans h) (by simp)
  | nothingAsked h =>
    have hbuf := List.length_eq_zero_iff.mp h
    exact ⟨by simp, fun _ => ⟨rfl, rfl⟩, fun _ => .inl hbuf, by simp, fun _ _ hne => absurd hbuf hne⟩
  | refused _ hphase =>
    refine ⟨by simp, fun _ => ⟨rfl, rfl⟩, by simp, by simp, fun code h => ?_⟩
    rw [h] at hphase
    exact absurd trivial hphase
  | bytes hphase hne hlen => exact .of_bytes hne hlen rfl hphase
  | bytesToFin hne hlen => exact .of_bytes hne hlen.le rfl (.inr rfl)
  | blocked => exact ⟨by simp, fun _ => ⟨rfl, rfl⟩, fun _ => .inr ⟨rfl, rfl⟩, by simp, by simp⟩
  | finished => exact ⟨by simp, fun _ => ⟨rfl, rfl⟩, by simp, fun _ => ⟨rfl, .inl rfl⟩, by simp⟩
  | reset =>
    refine ⟨by simp, fun _ => ⟨rfl, rfl⟩, by simp, by simp, fun code h _ => ?_⟩
    rw [RecvPhase.reset.inj h]

namespace ConnState

variable {S : Q.OrderedReads}

/-! ## Runs -/

/-- The operation removes the entry of `id` from `finished_reads`. -/
def ErasesEnd (id : StreamId) : ConnOp Q → Prop
  | .call (.forgetRecv a) | .call (.forgetStream a) => a = id
  | .call (.streamReset a code) | .call (.streamStop a code) => a = id ∧ code < 2 ^ 62
  | _ => False

/-- A reset and a stop remove the entry when their code is one quinn-proto takes. -/
theorem streamReset_finishedReads (s : ConnState Q) (id : StreamId) (code : Nat) :
    (s.streamReset id code).2.finishedReads =
      if code < 2 ^ 62 then s.finishedReads.erase id else s.finishedReads := by
  unfold streamReset
  by_cases hcode : code < 2 ^ 62
  · rw [varint_of_lt hcode, if_pos hcode]
  · rw [varint_of_not_lt hcode, if_neg hcode]

theorem streamStop_finishedReads (s : ConnState Q) (id : StreamId) (code : Nat) :
    (s.streamStop id code).2.finishedReads =
      if code < 2 ^ 62 then s.finishedReads.erase id else s.finishedReads := by
  unfold streamStop
  by_cases hcode : code < 2 ^ 62
  · rw [varint_of_lt hcode, if_pos hcode]
  · rw [varint_of_not_lt hcode, if_neg hcode]

/-- **What the other operations do to the entry of `id`.** -/
theorem op_finishedReads (s : ConnState Q) {id : StreamId} {o : ConnOp Q}
    (hread : ∀ len, o ≠ .call (.streamRead id len)) :
    id ∈ (s.op o).2.finishedReads ↔ id ∈ s.finishedReads ∧ ¬ ErasesEnd id o := by
  have hsame : ∀ {l : Finset StreamId}, l = s.finishedReads →
      (id ∈ l ↔ id ∈ s.finishedReads ∧ ¬ False) := by
    intro l h
    rw [h]
    simp
  have herase : ∀ a, id ∈ s.finishedReads.erase a ↔ id ∈ s.finishedReads ∧ ¬ a = id := by
    intro a
    rw [Finset.mem_erase, and_comm, ne_comm]
  have hcode : ∀ a code, id ∈ (if code < 2 ^ 62 then s.finishedReads.erase a else s.finishedReads) ↔
      id ∈ s.finishedReads ∧ ¬ (a = id ∧ code < 2 ^ 62) := by
    intro a code
    split
    · rename_i h
      rw [herase a]
      tauto
    · rename_i h
      tauto
  cases o with
  | drive f => exact hsame rfl
  | call c =>
    cases c with
    | openBi => exact hsame s.openBi_frame.2
    | acceptBi => exact hsame s.acceptBi_frame.2
    | streamRead a len =>
      have hne : id ≠ a := by
        rintro rfl
        exact hread len rfl
      show id ∈ (s.streamRead a len).2.2.finishedReads ↔ id ∈ s.finishedReads ∧ ¬ False
      unfold streamRead
      split
      · simp
      · split
        · simp
        · dsimp only
          split
          · simp
          · simp
          · split
            · simp [hne]
            · simp
    | streamWrite a buf => exact hsame (s.streamWrite_frame a buf).2.2
    | streamFinish a =>
      refine hsame ?_
      show (s.streamFinish a).2.finishedReads = _
      unfold streamFinish recordSendFin
      split <;> (try rfl)
      dsimp only
      split <;> (try rfl)
      split <;> rfl
    | streamReset a code =>
      show id ∈ (s.streamReset a code).2.finishedReads ↔ _ ∧ ¬ (a = id ∧ code < 2 ^ 62)
      rw [streamReset_finishedReads]
      exact hcode a code
    | streamStop a code =>
      show id ∈ (s.streamStop a code).2.finishedReads ↔ _ ∧ ¬ (a = id ∧ code < 2 ^ 62)
      rw [streamStop_finishedReads]
      exact hcode a code
    | forgetStream a => exact herase a
    | forgetRecv a => exact herase a
    | serviceStreams => exact hsame s.serviceStreams_finishedReads
    | forgetSend | sendFin | isDrained | isDirty | clearDirty | close => exact hsame rfl

/-- **What the other operations do to the receive half of `id`**: something arrives, or it is
stopped. -/
theorem op_view (s : ConnState Q) {id : StreamId} {o : ConnOp Q} (ho : o.Lawful)
    (hread : ∀ len, o ≠ .call (.streamRead id len)) :
    (S.view s.conn id).Arrives (S.view (s.op o).2.conn id) ∨
      (S.view s.conn id).phase.Readable ∧
        S.view (s.op o).2.conn id = { S.view s.conn id with phase := .closed } := by
  by_cases hstop : ∃ code, o = .call (.streamStop id code)
  · obtain ⟨code, rfl⟩ := hstop
    show (S.view s.conn id).Arrives (S.view (s.streamStop id code).2.conn id) ∨ _ ∧
      S.view (s.streamStop id code).2.conn id = _
    unfold streamStop
    split
    · exact .inl (.refl _)
    · rename_i code' _
      rcases S.stop (.stop s.conn id code') with h | h
      · refine .inl ?_
        rw [show S.view ({ s with
          dirty := true
          finishedReads := s.finishedReads.erase id
          conn := (Q.recvStop s.conn id code').2 } : ConnState Q).conn id = _ from h]
        exact .refl _
      · exact .inr h
  · refine .inl ?_
    refine (s.op_steps ho).keeps (I := fun c => (S.view s.conn id).Arrives (S.view c id)) ?_ (.refl _)
    intro c l c' hl hstep h
    refine h.trans (S.arrives hstep ?_ ?_)
    · rintro bytes rfl
      cases o with
      | drive f => exact hl
      | call call =>
        cases call with
        | streamRead a len =>
          obtain ⟨bytes', heq⟩ := hl
          obtain ⟨rfl, -⟩ := Quinn.ConnLabel.read.inj heq
          exact hread len rfl
        | _ => simp [ConnOp.Makes, ConnCall.Makes, IsService] at hl
    · rintro rfl
      cases o with
      | drive f => exact hl
      | call call =>
        cases call with
        | streamStop a code =>
          obtain rfl := Quinn.ConnLabel.stop.inj hl
          exact hstop ⟨code, rfl⟩
        | _ => simp [ConnOp.Makes, ConnCall.Makes, IsService] at hl

/-- An entry is there only for a stream that was read past its FIN, to its last byte. -/
def Recorded (S : Q.OrderedReads) (id : StreamId) (s : ConnState Q) : Prop :=
  id ∈ s.finishedReads → (S.view s.conn id).phase = .finRead ∧ (S.view s.conn id).unread = []

/-- A read of its own stream keeps that. -/
theorem streamRead_recorded {s : ConnState Q} {id : StreamId} (len : Nat)
    (h : Recorded S id s) : Recorded S id (s.streamRead id len).2.2 := by
  have hstep := streamRead_step S s id len
  intro hmem
  rw [decide_eq_true hmem] at hstep
  generalize hrec : decide (id ∈ s.finishedReads) = rec at hstep
  generalize hview : S.view s.conn id = v at hstep
  generalize S.view (s.streamRead id len).2.2.conn id = v' at hstep ⊢
  generalize (s.streamRead id len).1 = answer at hstep
  generalize (s.streamRead id len).2.1 = bytes at hstep
  cases hstep with
  | recorded =>
    rw [← hview]
    exact h (of_decide_eq_true hrec)
  | bytesToFin | finished => exact ⟨rfl, rfl⟩

/-- **A stream that was read past its FIN stays so**, whatever is done. -/
theorem op_finRead {s : ConnState Q} {id : StreamId} {o : ConnOp Q} (ho : o.Lawful)
    (hphase : (S.view s.conn id).phase = .finRead) :
    S.view (s.op o).2.conn id = S.view s.conn id := by
  by_cases hread : ∃ len, o = .call (.streamRead id len)
  · obtain ⟨len, rfl⟩ := hread
    exact ((streamRead_step S s id len).finRead hphase).1
  · rcases op_view (S := S) s ho (fun len heq => hread ⟨len, heq⟩) with h | ⟨h, -⟩
    · exact h.finRead hphase
    · rw [hphase] at h
      exact h.elim

/-- **Every operation keeps the entries true.** -/
theorem op_recorded {s : ConnState Q} {id : StreamId} {o : ConnOp Q} (ho : o.Lawful)
    (h : Recorded S id s) : Recorded S id (s.op o).2 := by
  by_cases hread : ∃ len, o = .call (.streamRead id len)
  · obtain ⟨len, rfl⟩ := hread
    exact streamRead_recorded len h
  · intro hmem
    have hbefore := ((op_finishedReads s fun len heq => hread ⟨len, heq⟩).mp hmem).1
    rw [op_finRead ho (h hbefore).1]
    exact h hbefore

/-- The bytes a run has reported for `id`. -/
def enterRead (id : StreamId) (log : List UInt8) (s : ConnState Q) : ConnOp Q → List UInt8
  | .call (.streamRead a len) => if a = id then log ++ (s.streamRead a len).2.1 else log
  | _ => log

/-- What was reported is what was read, of what has arrived. -/
structure Delivered (S : Q.OrderedReads) (c : Q.Conn) (id : StreamId) (log : List UInt8)
    (s : ConnState Q) : Prop where
  read : (S.view c id).read ++ log = (S.view s.conn id).read
  grows : (S.view c id).arrived <+: (S.view s.conn id).arrived
  recorded : Recorded S id s

/-- **One operation.** -/
theorem op_delivered {c : Q.Conn} {id : StreamId} {log : List UInt8} {s : ConnState Q}
    {o : ConnOp Q} (ho : o.Lawful) (h : Delivered S c id log s) :
    Delivered S c id (enterRead id log s o) (s.op o).2 := by
  by_cases hread : ∃ len, o = .call (.streamRead id len)
  · obtain ⟨len, rfl⟩ := hread
    obtain ⟨hv, hsame, -⟩ := (streamRead_step S s id len).delivers
    refine ⟨?_, ?_, op_recorded ho h.recorded⟩
    · show _ ++ enterRead id log s (.call (.streamRead id len)) =
        (S.view (s.streamRead id len).2.2.conn id).read
      rw [hv, ← h.read, enterRead, if_pos rfl, List.append_assoc]
    · show _ <+: (S.view (s.streamRead id len).2.2.conn id).arrived
      rw [hsame]
      exact h.grows
  · have hlog : enterRead id log s o = log := by
      unfold enterRead
      split
      · rename_i a len
        rw [if_neg]
        rintro rfl
        exact hread ⟨len, rfl⟩
      · rfl
    rw [hlog]
    rcases op_view (S := S) s ho (fun len heq => hread ⟨len, heq⟩) with harr | ⟨-, hclosed⟩
    · exact ⟨h.read.trans harr.read.symm, h.grows.trans harr.grows, op_recorded ho h.recorded⟩
    · refine ⟨?_, ?_, op_recorded ho h.recorded⟩
      · rw [hclosed]
        exact h.read
      · rw [hclosed]
        exact h.grows

/-- **Incremental reads deliver the stream exactly.** In every run of a connection, whatever arrives
between the operations: at every point, what has been reported of `id` continues what was read before
the run and is all that has been read, in the order it arrived and of what has arrived by then; and a
read into any buffer at that point is exact. -/
theorem reads_exact (S : Q.OrderedReads) (c : Q.Conn) (id : StreamId) (ops : List (ConnOp Q))
    (hops : ∀ o ∈ ops, o.Lawful) (before after : List (ConnOp Q)) (heq : ops = before ++ after) :
    let s := (new c).runOps before
    (S.view c id).read ++ (observe (enterRead id) [] (new c) before).1 = (S.view s.conn id).read ∧
      (S.view c id).arrived <+: (S.view s.conn id).arrived ∧
      ∀ buf, ExactRead (S.view s.conn id) buf (s.streamReadInto id buf).1
        (s.streamReadInto id buf).2.1 (S.view (s.streamReadInto id buf).2.2.conn id) := by
  intro s
  have hstart : Delivered S c id [] (new c) :=
    ⟨List.append_nil _, List.prefix_rfl, fun hmem => absurd hmem (Finset.notMem_empty id)⟩
  have hdelivered : Delivered S c id (observe (enterRead id) [] (new c) before).1
      (observe (enterRead id) [] (new c) before).2 :=
    observe_inv (I := Delivered S c id)
      (fun o ho log s h => op_delivered (hops o (by simp [heq, ho])) h) hstart
  rw [observe_run] at hdelivered
  refine ⟨hdelivered.read, hdelivered.grows, fun buf => ?_⟩
  rw [streamReadInto_eq]
  exact (streamRead_step S s id buf.length).exact fun hrec =>
    hdelivered.recorded (of_decide_eq_true hrec)

/-- Three bytes in two datagrams, the second with FIN, read two at a time. -/
def threeBytes : List (ConnOp Inbox) :=
  [.drive fun c => c.handleEvent (.stream 0 [1] false), .call (.streamRead 0 2),
    .drive fun c => c.handleEvent (.stream 0 [2, 3] true), .call (.streamRead 0 2)]

theorem lawful_threeBytes : ∀ o ∈ threeBytes, o.Lawful := by
  simp only [threeBytes, List.forall_mem_cons]
  exact ⟨ConnOp.lawful_handleEvent (Q := Inbox) (.stream 0 [1] false), trivial,
    ConnOp.lawful_handleEvent (Q := Inbox) (.stream 0 [2, 3] true), trivial, by simp⟩

/-- They are reported in order, and the FIN behind them by the next read. -/
theorem reads_exact_threeBytes :
    (∀ o ∈ threeBytes, o.Lawful) ∧
      (Inbox.orderedReads.view InboxConn.new 0).read ++
          (observe (enterRead 0) [] (new InboxConn.new : ConnState Inbox) threeBytes).1 =
        [1, 2, 3] ∧
      (((new InboxConn.new : ConnState Inbox).runOps threeBytes).streamReadInto 0 [9, 9]).1 =
        .ok .finished ∧
      (Inbox.orderedReads.view ((new InboxConn.new : ConnState Inbox).runOps threeBytes).conn
        0).unread = [] := by
  obtain ⟨hread, -, hexact⟩ := reads_exact Inbox.orderedReads InboxConn.new 0 threeBytes
    lawful_threeBytes threeBytes [] (List.append_nil _).symm
  have hfinished : (((new InboxConn.new : ConnState Inbox).runOps threeBytes).streamReadInto 0
      [9, 9]).1 = .ok .finished := by
    decide
  refine ⟨lawful_threeBytes, hread.trans (by decide), hfinished, ((hexact [9, 9]).finished ?_).1⟩
  exact hfinished

/-! ## End-of-stream -/

/-- The caller gives the receive half of `id` up: `forget_recv`, `forget_stream` or `stream_stop`. -/
def GivesUp (id : StreamId) : ConnOp Q → Prop
  | .call (.forgetRecv a) | .call (.forgetStream a) | .call (.streamStop a _) => a = id
  | _ => False

/-- The caller resets the send half of `id`, with a code quinn-proto takes. -/
def Resets (id : StreamId) : ConnOp Q → Prop
  | .call (.streamReset a code) => a = id ∧ code < 2 ^ 62
  | _ => False

/-- Every read of `id` answers `Finished`, at every point of a run. -/
def Stable (s : ConnState Q) (id : StreamId) (ops : List (ConnOp Q)) : Prop :=
  ∀ before after, ops = before ++ after → ∀ len,
    ((s.runOps before).streamRead id len).1 = .ok .finished

/-- A read that answers `Finished` leaves its stream recorded, and read past its FIN. -/
theorem streamRead_finished_records {s : ConnState Q} {id : StreamId} {len : Nat}
    (hrec : Recorded S id s) (h : (s.streamRead id len).1 = .ok .finished) :
    id ∈ (s.streamRead id len).2.2.finishedReads ∧
      (S.view (s.streamRead id len).2.2.conn id).phase = .finRead := by
  have hstep := streamRead_step S s id len
  rw [h] at hstep
  have hmem := of_decide_eq_true hstep.records
  exact ⟨hmem, (streamRead_recorded len hrec hmem).1⟩

/-- The entry stays through every operation that neither gives the half up nor resets the other. -/
theorem op_keeps_end {s : ConnState Q} {id : StreamId} {o : ConnOp Q}
    (hgive : ¬ GivesUp id o) (hreset : ¬ Resets id o) (h : id ∈ s.finishedReads) :
    id ∈ (s.op o).2.finishedReads := by
  by_cases hread : ∃ len, o = .call (.streamRead id len)
  · obtain ⟨len, rfl⟩ := hread
    show id ∈ (s.streamRead id len).2.2.finishedReads
    unfold streamRead
    rw [if_pos h]
    exact h
  · refine (op_finishedReads s fun len heq => hread ⟨len, heq⟩).mpr ⟨h, fun herase => ?_⟩
    cases o with
    | drive f => exact herase
    | call c =>
      cases c with
      | forgetRecv a | forgetStream a => exact hgive herase
      | streamStop a code => exact hgive herase.1
      | streamReset a code => exact hreset herase
      | _ => exact herase

/-- A reset removes it. -/
theorem op_reset_ends {s : ConnState Q} {id : StreamId} {o : ConnOp Q} (h : Resets id o) :
    id ∉ (s.op o).2.finishedReads := by
  intro hmem
  have hread : ∀ len, o ≠ .call (.streamRead id len) := by
    rintro len rfl
    exact h
  refine ((op_finishedReads s hread).mp hmem).2 ?_
  cases o with
  | drive f => exact h
  | call c =>
    cases c with
    | streamReset a code => exact h
    | _ => exact h.elim

/-- **How long end-of-stream is the answer.** In every run of a connection in which a read of `id` has
answered `Finished`, and until the caller gives the receive half up: every later read answers
`Finished` exactly as long as the caller does not reset the send half of the stream, with a code
quinn-proto takes. A stream that is finished for reading and reset for writing is over in both
directions, and `stream_reset` releases its entry. -/
theorem finished_stable_iff (S : Q.OrderedReads) (c : Q.Conn) (id : StreamId)
    (before after : List (ConnOp Q)) (len : Nat) (hbefore : ∀ o ∈ before, o.Lawful)
    (hafter : ∀ o ∈ after, o.Lawful)
    (hfinished : (((new c).runOps before).streamRead id len).1 = .ok .finished)
    (hgive : ∀ o ∈ after, ¬ GivesUp id o) :
    (((new c).runOps before).streamRead id len).2.2.Stable id after ↔
      ∀ o ∈ after, ¬ Resets id o := by
  have hrec : Recorded S id ((new c).runOps before) :=
    runOps_inv (fun o ho s h => op_recorded (hbefore o ho) h)
      (fun hmem => absurd hmem (Finset.notMem_empty id))
  obtain ⟨hmem, hphase⟩ := streamRead_finished_records hrec hfinished
  constructor
  · intro hstable o ho hreset
    obtain ⟨mid, rest, rfl⟩ := List.append_of_mem ho
    have hread := hstable (mid ++ [o]) rest (by simp) 1
    rw [runOps_append] at hread
    generalize hs : (((new c).runOps before).streamRead id len).2.2 = s at hread hphase
    -- quinn-proto has freed the stream, and the reset removed what was kept in its place
    have hmid : (S.view (s.runOps mid).conn id).phase = .finRead :=
      runOps_inv (I := fun s => (S.view s.conn id).phase = .finRead)
        (fun o' ho' t ht => by rw [op_finRead (hafter o' (by simp [ho'])) ht]; exact ht) hphase
    have hend : (S.view ((s.runOps mid).op o).2.conn id).phase = .finRead := by
      rw [op_finRead (hafter o ho) hmid]
      exact hmid
    have hstep := streamRead_step S ((s.runOps mid).op o).2 id 1
    rw [decide_eq_false (op_reset_ends hreset)] at hstep
    exact absurd ((hstep.refuses hend Nat.one_ne_zero).symm.trans hread) (by simp)
  · intro hreset mid rest heq len'
    refine streamRead_finished (runOps_inv (I := fun s => id ∈ s.finishedReads)
      (fun o ho s h => op_keeps_end (hgive o ?_) (hreset o ?_) h) hmem) len'
    · simp [heq, ho]
    · simp [heq, ho]

/-- The peer opens a stream and finishes it. -/
def finOnly : List (ConnOp Inbox) := [.drive fun c => c.handleEvent (.stream 0 [] true)]

theorem lawful_finOnly : ∀ o ∈ finOnly, o.Lawful := by
  simp only [finOnly, List.forall_mem_cons]
  exact ⟨ConnOp.lawful_handleEvent (Q := Inbox) (.stream 0 [] true), by simp⟩

/-- The send half is written and finished, and a pass made. -/
def sendHalfUsed : List (ConnOp Inbox) :=
  [.call (.streamWrite 0 [1]), .call (.streamFinish 0), .call .serviceStreams, .call (.forgetSend 0)]

/-- The answer survives that. -/
theorem finished_stable_iff_used :
    (∀ o ∈ finOnly, o.Lawful) ∧ (∀ o ∈ sendHalfUsed, o.Lawful) ∧
      (((new InboxConn.new : ConnState Inbox).runOps finOnly).streamRead 0 1).1 = .ok .finished ∧
      (∀ o ∈ sendHalfUsed, ¬ GivesUp 0 o) ∧
      (((new InboxConn.new : ConnState Inbox).runOps finOnly).streamRead 0 1).2.2.Stable 0
        sendHalfUsed := by
  have hused : ∀ o ∈ sendHalfUsed, o.Lawful := by
    simp [sendHalfUsed, ConnOp.Lawful]
  have hgive : ∀ o ∈ sendHalfUsed, ¬ GivesUp 0 o := by
    simp [sendHalfUsed, GivesUp]
  have hfinished : (((new InboxConn.new : ConnState Inbox).runOps finOnly).streamRead 0 1).1 =
      .ok .finished := by
    decide
  refine ⟨lawful_finOnly, hused, hfinished, hgive, ?_⟩
  refine (finished_stable_iff Inbox.orderedReads InboxConn.new 0 finOnly sendHalfUsed 1
    lawful_finOnly hused hfinished hgive).mpr ?_
  simp [sendHalfUsed, Resets]

/-- **A reset of the send half releases the entry**: a read answers `Finished`, the caller resets the
send half, and the next read answers `ClosedStream`. -/
theorem end_lost_by_reset :
    (∀ o ∈ finOnly, o.Lawful) ∧
      (((new InboxConn.new : ConnState Inbox).runOps finOnly).streamRead 0 1).1 = .ok .finished ∧
      ¬ GivesUp 0 (ConnOp.call (.streamReset 0 7) : ConnOp Inbox) ∧
      (((((new InboxConn.new : ConnState Inbox).runOps finOnly).streamRead 0 1).2.2.streamReset 0
        7).2.streamRead 0 1).1 = .error .closedStream ∧
      ¬ (((new InboxConn.new : ConnState Inbox).runOps finOnly).streamRead 0 1).2.2.Stable 0
        [.call (.streamReset 0 7)] := by
  have hlost : (((((new InboxConn.new : ConnState Inbox).runOps finOnly).streamRead 0
      1).2.2.streamReset 0 7).2.streamRead 0 1).1 = .error .closedStream := by
    decide
  refine ⟨lawful_finOnly, by decide, fun h => h, hlost, fun hstable => ?_⟩
  exact absurd (hlost.symm.trans (hstable [.call (.streamReset 0 7)] [] rfl 1)) (by simp)

end ConnState

end QuietQuic.Proto
