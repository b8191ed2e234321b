import QuietQuic.Lib.AssocMap
import QuietQuic.Lib.Loop
import QuietQuic.Proto.Quinn

/-!
# One connection's state

Model of `proto/src/conn.rs`: a quinn-proto connection with the stream bookkeeping that makes
every operation answer at once. An operation returns its answer and the new state; `stream_read`
also returns the bytes it copied into the caller's buffer.

The three loops (`stream_read`'s chunks, `service_streams`' poll and the accept loop inside it)
run on one more than the rank quinn-proto gives them, which every further round lowers, so the fuel
never runs out (`readLoop_done` for the chunks).

The spec lemmas say what each operation does to the quinn-proto connection: which calls it makes
(`ConnSteps`), and for `stream_read` which bytes it takes (`streamRead_spec`).
-/

namespace QuietQuic.Proto

open QuietQuic.Lib

/-- `SendFin`. -/
inductive SendFin where
  | queued
  | acked
  | stopped (code : Nat)
  deriving DecidableEq

/-- `ConnProgress`: what one `service_streams` pass observed. -/
structure ConnProgress where
  connected : Bool := false
  lost : Option ConnectionError := none
  opened : List StreamId := []
  readable : List StreamId := []
  writable : List StreamId := []
  finAcked : List StreamId := []
  stopped : List (StreamId × Nat) := []
  deriving DecidableEq

/-- `ConnState`. -/
structure ConnState (Q : Quinn) where
  conn : Q.Conn
  readyAccepts : List StreamId
  finishedReads : Finset StreamId
  sendFins : AMap StreamId SendFin
  dirty : Bool

/-- `varint`: application error codes are 62-bit. -/
def varint (code : Nat) : Except ConnError Nat :=
  if code < 2 ^ 62 then .ok code else .error (.invalidErrorCode code)

theorem varint_of_lt {code : Nat} (h : code < 2 ^ 62) : varint code = .ok code := if_pos h

theorem varint_of_not_lt {code : Nat} (h : ¬ code < 2 ^ 62) :
    varint code = .error (.invalidErrorCode code) := if_neg h

namespace ConnState

variable {Q : Quinn}

/-- `ConnState::new`. -/
def new (conn : Q.Conn) : ConnState Q where
  conn := conn
  readyAccepts := []
  finishedReads := ∅
  sendFins := ∅
  dirty := false

/-- `open_bi`. -/
def openBi (s : ConnState Q) : Except ConnError StreamId × ConnState Q :=
  if Q.isClosed s.conn then (.error .closed, s)
  else
    let (id, c) := Q.streamsOpen s.conn
    (match id with
      | some id => .ok id
      | none => .error .closedStream,
     { s with conn := c })

/-- `accept_bi`: the queue `service_streams` filled first, then quinn-proto. -/
def acceptBi (s : ConnState Q) : Except ConnError (Option StreamId) × ConnState Q :=
  match s.readyAccepts with
  | id :: rest => (.ok (some id), { s with readyAccepts := rest })
  | [] =>
    let (id, c) := Q.streamsAccept s.conn
    (.ok id, { s with conn := c })

/-! ## `stream_read` -/

/-- The locals of `stream_read`'s loop; `filled` is the written prefix of the buffer. -/
structure ReadLoop (Q : Quinn) where
  chunks : Q.Chunks
  filled : List UInt8 := []
  finished : Bool := false
  errored : Option ConnError := none

/-- One round of `stream_read`'s loop over a buffer of `len` bytes. -/
def readRound (len : Nat) (r : ReadLoop Q) : Ctl (ReadLoop Q) :=
  if r.filled.length < len then
    match Q.chunksNext r.chunks (len - r.filled.length) with
    | (.chunk bytes, ch) => .again { r with chunks := ch, filled := r.filled ++ bytes }
    | (.finished, ch) => .done { r with chunks := ch, finished := true }
    | (.blocked, ch) => .done { r with chunks := ch }
    | (.reset code, ch) => .done { r with chunks := ch, errored := some (.reset code) }
  else .done r

/-- The chunk loop of `stream_read`. -/
def readLoop (len : Nat) (ch : Q.Chunks) : ReadLoop Q :=
  loop (readRound len) (len + 1) { chunks := ch }

/-- What `stream_read` answers once its session is over. -/
def readAnswer (r : ReadLoop Q) : Except ConnError ReadOutcome :=
  if 0 < r.filled.length then .ok (.read r.filled.length)
  else
    match r.errored with
    | some err => .error err
    | none => .ok (if r.finished then .finished else .blocked)

/-- `stream_read` into a buffer of `len` bytes: the answer, the bytes copied, the new state. -/
def streamRead (s : ConnState Q) (id : StreamId) (len : Nat) :
    Except ConnError ReadOutcome × List UInt8 × ConnState Q :=
  if id ∈ s.finishedReads then (.ok .finished, [], s)
  else if len = 0 then (.ok .blocked, [], s)
  else
    let s := { s with dirty := true }
    match Q.recvRead s.conn id with
    | .closedStream c => (.error .closedStream, [], { s with conn := c })
    | .illegalOrderedRead c =>
      (.error (.transport "ordered read after unordered read"), [], { s with conn := c })
    | .chunks ch =>
      let r := readLoop len ch
      let s := { s with conn := Q.chunksFinalize r.chunks }
      let s := if r.finished then { s with finishedReads := insert id s.finishedReads } else s
      (readAnswer r, r.filled, s)

/-! ## The send half -/

/-- `stream_write`. -/
def streamWrite (s : ConnState Q) (id : StreamId) (buf : List UInt8) :
    Except ConnError WriteOutcome × ConnState Q :=
  if buf = [] then (.ok (.wrote 0), s)
  else
    let (answer, c) := Q.sendWrite s.conn id buf
    (match answer with
      | .ok n => .ok (.wrote n)
      | .error .blocked => .ok .blocked
      | .error (.stopped code) => .error (.stopped code)
      | .error .closedStream => .error .closedStream,
     { s with dirty := true, conn := c })

/-- `record_send_fin`: a terminal fact is recorded once and never replaced. -/
def recordSendFin (s : ConnState Q) (id : StreamId) (fact : SendFin) : Bool × ConnState Q :=
  match s.sendFins.lookup id with
  | some .acked => (false, s)
  | some (.stopped _) => (false, s)
  | some .queued | none =>
    (match fact with
      | .queued => false
      | .acked | .stopped _ => true,
     { s with sendFins := s.sendFins.insert id fact })

/-- `stream_finish`. -/
def streamFinish (s : ConnState Q) (id : StreamId) : Except ConnError Unit × ConnState Q :=
  match s.sendFins.lookup id with
  | some (.stopped code) => (.error (.stopped code), s)
  | some .acked | some .queued => (.error .closedStream, s)
  | none =>
    let (answer, c) := Q.sendFinish s.conn id
    let s := { s with dirty := true, conn := c }
    match answer with
    | .ok () => (.ok (), { s with sendFins := s.sendFins.insert id .queued })
    | .error (.stopped code) => (.error (.stopped code), (s.recordSendFin id (.stopped code)).2)
    | .error .closedStream => (.error .closedStream, s)

/-- `stream_reset`. -/
def streamReset (s : ConnState Q) (id : StreamId) (code : Nat) :
    Except ConnError Unit × ConnState Q :=
  match varint code with
  | .error err => (.error err, s)
  | .ok code =>
    let (answer, c) := Q.sendReset s.conn id code
    (match answer with
      | some () => .ok ()
      | none => .error .closedStream,
     { s with
       dirty := true
       finishedReads := s.finishedReads.erase id
       sendFins := s.sendFins.erase id
       conn := c })

/-- `stream_stop`. -/
def streamStop (s : ConnState Q) (id : StreamId) (code : Nat) :
    Except ConnError Unit × ConnState Q :=
  match varint code with
  | .error err => (.error err, s)
  | .ok code =>
    let (answer, c) := Q.recvStop s.conn id code
    (match answer with
      | some () => .ok ()
      | none => .error .closedStream,
     { s with dirty := true, finishedReads := s.finishedReads.erase id, conn := c })

/-- `forget_recv`. -/
def forgetRecv (s : ConnState Q) (id : StreamId) : ConnState Q :=
  { s with finishedReads := s.finishedReads.erase id }

/-- `forget_send`. -/
def forgetSend (s : ConnState Q) (id : StreamId) : ConnState Q :=
  { s with sendFins := s.sendFins.erase id }

/-- `forget_stream`. -/
def forgetStream (s : ConnState Q) (id : StreamId) : ConnState Q :=
  (s.forgetRecv id).forgetSend id

/-- `send_fin`. -/
def sendFin (s : ConnState Q) (id : StreamId) : Option SendFin := s.sendFins.lookup id

/-! ## `service_streams` -/

/-- One round of `while let Some(id) = streams().accept(Dir::Bi)`. -/
def acceptRound (p : ConnState Q × ConnProgress) : Ctl (ConnState Q × ConnProgress) :=
  match Q.streamsAccept p.1.conn with
  | (none, c) => .done ({ p.1 with conn := c }, p.2)
  | (some id, c) =>
    .again ({ p.1 with conn := c, readyAccepts := p.1.readyAccepts ++ [id] },
      { p.2 with opened := p.2.opened ++ [id] })

/-- The accept loop of `service_streams`. -/
def acceptLoop (p : ConnState Q × ConnProgress) : ConnState Q × ConnProgress :=
  loop acceptRound (Q.acceptRank p.1.conn + 1) p

/-- The reaction of `service_streams` to one polled event. -/
def onPolled (ev : QuinnEvent) (p : ConnState Q × ConnProgress) : ConnState Q × ConnProgress :=
  match ev with
  | .connected => (p.1, { p.2 with connected := true })
  | .connectionLost reason => (p.1, { p.2 with lost := some (.fromQuinn reason) })
  | .stream (.opened .bi) => acceptLoop p
  | .stream (.readable id) => (p.1, { p.2 with readable := p.2.readable ++ [id] })
  | .stream (.writable id) => (p.1, { p.2 with writable := p.2.writable ++ [id] })
  | .stream (.finished id) =>
    let (new, s) := p.1.recordSendFin id .acked
    (s, if new then { p.2 with finAcked := p.2.finAcked ++ [id] } else p.2)
  | .stream (.stopped id code) =>
    let (new, s) := p.1.recordSendFin id (.stopped code)
    (s, if new then { p.2 with stopped := p.2.stopped ++ [(id, code)] } else p.2)
  | _ => p

/-- One round of `while let Some(ev) = self.conn.poll()`. -/
def pollRound (p : ConnState Q × ConnProgress) : Ctl (ConnState Q × ConnProgress) :=
  match Q.poll p.1.conn with
  | (none, c) => .done ({ p.1 with conn := c }, p.2)
  | (some ev, c) => .again (onPolled ev ({ p.1 with conn := c }, p.2))

/-- `service_streams`. -/
def serviceStreams (s : ConnState Q) : ConnProgress × ConnState Q :=
  let p := loop pollRound (Q.pollRank s.conn + 1) (s, {})
  (p.2, p.1)

/-- `is_drained`. -/
def isDrained (s : ConnState Q) : Bool := Q.isDrained s.conn

/-- `is_dirty`. -/
def isDirty (s : ConnState Q) : Bool := s.dirty

/-- `clear_dirty`. -/
def clearDirty (s : ConnState Q) : ConnState Q := { s with dirty := false }

/-! ## What the loops do -/

/-- A further round has copied one chunk. -/
theorem readRound_again {len : Nat} {r r' : ReadLoop Q} (h : readRound len r = .again r') :
    ∃ bytes ch', Q.chunksNext r.chunks (len - r.filled.length) = (.chunk bytes, ch') ∧
      r' = { r with chunks := ch', filled := r.filled ++ bytes } := by
  unfold readRound at h
  split at h
  · split at h
    case h_1 bytes ch' hnext => exact ⟨bytes, ch', hnext, (Ctl.again.inj h).symm⟩
    all_goals exact absurd h (by simp)
  · exact absurd h (by simp)

/-- **The exit rule of the chunk loop**: it leaves through one of its own exits, from a state every
round up to there keeps. -/
theorem readLoop_exit {I : ReadLoop Q → Prop} (len : Nat) (ch : Q.Chunks)
    (hagain : ∀ r r', I r → readRound len r = .again r' → I r') (h : I { chunks := ch }) :
    ∃ t, I t ∧ readRound len t = .done (readLoop len ch) := by
  refine loop_exit (r := fun r : ReadLoop Q => len - r.filled.length) ?_ (by simp) h
  intro r r' hr hround
  refine ⟨hagain r r' hr hround, ?_⟩
  obtain ⟨bytes, ch', hnext, rfl⟩ := readRound_again hround
  have hlen := Q.nextChunk _ _ _ _ hnext
  simp only [List.length_append]
  omega

/-- What the chunk loop copied up to its exit is a run of the session that a further run
extends. -/
theorem readLoop_done (len : Nat) (ch : Q.Chunks) :
    ∃ t : ReadLoop Q, (∀ rest ch', Q.ChunkRun t.chunks rest ch' →
        Q.ChunkRun ch (t.filled ++ rest) ch') ∧
      readRound len t = .done (readLoop len ch) := by
  refine readLoop_exit (I := fun t : ReadLoop Q => ∀ rest ch', Q.ChunkRun t.chunks rest ch' →
    Q.ChunkRun ch (t.filled ++ rest) ch') len ch (fun r r' hr hround => ?_) (fun _ _ h => h)
  obtain ⟨bytes, ch', hnext, rfl⟩ := readRound_again hround
  intro rest ch'' hrest
  rw [List.append_assoc]
  exact hr _ _ (.chunk hnext hrest)

/-- The bytes a chunk loop copies are a run of its session. -/
theorem readLoop_run (len : Nat) (ch : Q.Chunks) :
    Q.ChunkRun ch (readLoop len ch).filled (readLoop len ch).chunks := by
  obtain ⟨t, ht, hround⟩ := readLoop_done len ch
  unfold readRound at hround
  split at hround
  · split at hround
    case h_1 => exact absurd hround (by simp)
    case h_2 ch' hnext =>
      rw [← Ctl.done.inj hround]
      simpa using ht _ _ (.finished hnext)
    case h_3 ch' hnext =>
      rw [← Ctl.done.inj hround]
      simpa using ht _ _ (.blocked hnext)
    case h_4 code ch' hnext =>
      rw [← Ctl.done.inj hround]
      simpa using ht _ _ (.reset hnext)
  · rw [← Ctl.done.inj hround]
    simpa using ht _ _ (.nil _)

/-- What a chunk loop copies, the session can no longer hand out. -/
theorem readLoop_rank (len : Nat) (ch : Q.Chunks) :
    Q.chunksRank (readLoop len ch).chunks ≤ Q.chunksRank ch ∧
      ((readLoop len ch).filled ≠ [] → Q.chunksRank (readLoop len ch).chunks < Q.chunksRank ch) := by
  have hnext : ∀ (r : ReadLoop Q) n a ch', Q.chunksNext r.chunks n = (a, ch') →
      Q.chunksRank ch' ≤ Q.chunksRank r.chunks := by
    intro r n a ch' h
    have := Q.next_le r.chunks n
    rwa [h] at this
  refine loop_inv (I := fun r : ReadLoop Q => Q.chunksRank r.chunks ≤ Q.chunksRank ch ∧
    (r.filled ≠ [] → Q.chunksRank r.chunks < Q.chunksRank ch)) ?_ ?_ _
    ⟨le_rfl, fun h => absurd rfl h⟩
  · intro r r' hr hround
    obtain ⟨bytes, ch', h, rfl⟩ := readRound_again hround
    have hlt := Q.chunk_lt _ _ _ _ h
    exact ⟨hlt.le.trans hr.1, fun _ => hlt.trans_le hr.1⟩
  · intro r r' hr hround
    unfold readRound at hround
    split at hround
    · split at hround
      case h_1 => exact absurd hround (by simp)
      all_goals
        rename_i h
        obtain rfl := Ctl.done.inj hround
        have hle := hnext r _ _ _ h
        exact ⟨hle.trans hr.1, fun hne => hle.trans_lt (hr.2 hne)⟩
    · obtain rfl := Ctl.done.inj hround
      exact hr

/-- A predicate both rounds of the accept loop keep holds after it. -/
theorem acceptLoop_inv {I : ConnState Q × ConnProgress → Prop}
    (hsome : ∀ (s : ConnState Q) pr id c, I (s, pr) → Q.streamsAccept s.conn = (some id, c) →
      I ({ s with conn := c, readyAccepts := s.readyAccepts ++ [id] },
        { pr with opened := pr.opened ++ [id] }))
    (hnone : ∀ (s : ConnState Q) pr c, I (s, pr) → Q.streamsAccept s.conn = (none, c) →
      I ({ s with conn := c }, pr))
    {p : ConnState Q × ConnProgress} (hp : I p) : I (acceptLoop p) := by
  refine loop_inv ?_ ?_ _ hp
  · intro p p' hp hround
    unfold acceptRound at hround
    split at hround
    · exact absurd hround (by simp)
    · rename_i id c hacc
      obtain rfl := Ctl.again.inj hround
      exact hsome p.1 p.2 id c hp hacc
  · intro p p' hp hround
    unfold acceptRound at hround
    split at hround
    · rename_i c hacc
      obtain rfl := Ctl.done.inj hround
      exact hnone p.1 p.2 c hp hacc
    · exact absurd hround (by simp)

theorem pollRound_again {p p' : ConnState Q × ConnProgress} (h : pollRound p = .again p') :
    ∃ ev c, Q.poll p.1.conn = (some ev, c) ∧ p' = onPolled ev ({ p.1 with conn := c }, p.2) := by
  unfold pollRound at h
  split at h
  · exact absurd h (by simp)
  · rename_i ev c hpoll
    exact ⟨ev, c, hpoll, (Ctl.again.inj h).symm⟩

theorem pollRound_done {p p' : ConnState Q × ConnProgress} (h : pollRound p = .done p') :
    ∃ c, Q.poll p.1.conn = (none, c) ∧ p' = ({ p.1 with conn := c }, p.2) := by
  unfold pollRound at h
  split at h
  · rename_i c hpoll
    exact ⟨c, hpoll, (Ctl.done.inj h).symm⟩
  · exact absurd h (by simp)

/-- A predicate every polled event keeps, and the final `None`, holds after `service_streams`. -/
theorem serviceStreams_inv {I : ConnState Q × ConnProgress → Prop}
    (hsome : ∀ (s : ConnState Q) pr ev c, I (s, pr) → Q.poll s.conn = (some ev, c) →
      I (onPolled ev ({ s with conn := c }, pr)))
    (hnone : ∀ (s : ConnState Q) pr c, I (s, pr) → Q.poll s.conn = (none, c) →
      I ({ s with conn := c }, pr))
    {s : ConnState Q} (hs : I (s, {})) : I (s.serviceStreams.2, s.serviceStreams.1) := by
  refine loop_inv ?_ ?_ _ hs
  · intro p p' hp hround
    obtain ⟨ev, c, hpoll, rfl⟩ := pollRound_again hround
    exact hsome p.1 p.2 ev c hp hpoll
  · intro p p' hp hround
    obtain ⟨c, hpoll, rfl⟩ := pollRound_done hround
    exact hnone p.1 p.2 c hp hpoll

@[simp] theorem recordSendFin_conn (s : ConnState Q) (id : StreamId) (fact : SendFin) :
    (s.recordSendFin id fact).2.conn = s.conn := by
  unfold recordSendFin
  split <;> rfl

/-- Of the polled events only `Opened` makes further calls: it accepts. -/
theorem onPolled_conn {I : Q.Conn → Prop}
    (hacc : ∀ c, I c → I (Q.streamsAccept c).2) (ev : QuinnEvent)
    (p : ConnState Q × ConnProgress) (hp : I p.1.conn) : I (onPolled ev p).1.conn := by
  unfold onPolled
  split
  case h_3 =>
    refine acceptLoop_inv (I := fun p => I p.1.conn) ?_ ?_ hp
    · intro s pr id c hs h
      simpa [h] using hacc _ hs
    · intro s pr c hs h
      simpa [h] using hacc _ hs
  all_goals simpa using hp

theorem acceptLoop_lost (p : ConnState Q × ConnProgress) : (acceptLoop p).2.lost = p.2.lost :=
  acceptLoop_inv (I := fun p' => p'.2.lost = p.2.lost) (fun _ _ _ _ h _ => h) (fun _ _ _ h _ => h)
    rfl

/-- Only a polled `ConnectionLost` is recorded as a loss. -/
theorem onPolled_lost (ev : QuinnEvent) (p : ConnState Q × ConnProgress) :
    (onPolled ev p).2.lost = p.2.lost ∨ ∃ reason, ev = .connectionLost reason := by
  unfold onPolled
  split
  case h_2 reason => exact Or.inr ⟨reason, rfl⟩
  case h_3 => exact Or.inl (acceptLoop_lost p)
  case h_6 | h_7 =>
    refine Or.inl ?_
    dsimp only
    split <;> rfl
  all_goals exact Or.inl rfl

/-! ## What each operation does to the connection -/

/-- The calls `service_streams` makes. -/
def IsService : Q.ConnLabel → Prop
  | .poll _ => True
  | .acceptBi _ => True
  | _ => False

theorem serviceStreams_steps (s : ConnState Q) :
    Q.ConnSteps IsService s.conn s.serviceStreams.2.conn := by
  refine serviceStreams_inv (I := fun p => Q.ConnSteps IsService s.conn p.1.conn) ?_ ?_ .refl
  · intro t pr ev c ht hpoll
    have hstep : Q.ConnStep t.conn (.poll (some ev)) c := by
      simpa [hpoll] using Quinn.ConnStep.poll t.conn
    refine onPolled_conn (fun c' hc' => ?_) ev _ (ht.tail ⟨.poll _, trivial, hstep⟩)
    exact hc'.tail ⟨.acceptBi _, trivial, .acceptBi c'⟩
  · intro t pr c ht hpoll
    have hstep : Q.ConnStep t.conn (.poll none) c := by
      simpa [hpoll] using Quinn.ConnStep.poll t.conn
    exact ht.tail ⟨.poll _, trivial, hstep⟩

/-- **What a read does**: it takes nothing, or it is one read session whose bytes are the ones
copied. -/
theorem streamRead_spec (s : ConnState Q) (id : StreamId) (len : Nat) :
    (s.streamRead id len).2.2.conn = s.conn ∧ (s.streamRead id len).2.1 = [] ∨
      Q.ConnStep s.conn (.read id (s.streamRead id len).2.1) (s.streamRead id len).2.2.conn := by
  unfold streamRead
  split
  · exact Or.inl ⟨rfl, rfl⟩
  · split
    · exact Or.inl ⟨rfl, rfl⟩
    · dsimp only
      split
      · rename_i c hopen
        exact Or.inr (.readClosed hopen)
      · rename_i c hopen
        exact Or.inr (.readIllegal hopen)
      · rename_i ch hopen
        refine Or.inr ?_
        split <;> exact .read hopen (readLoop_run len ch)

/-- The answer counts the bytes copied: they are there exactly when it is `Read`. -/
theorem streamRead_answer (s : ConnState Q) (id : StreamId) (len : Nat) :
    (s.streamRead id len).1 = .ok (.read (s.streamRead id len).2.1.length) ∧
        (s.streamRead id len).2.1 ≠ [] ∨
      (∀ n, (s.streamRead id len).1 ≠ .ok (.read n)) ∧ (s.streamRead id len).2.1 = [] := by
  unfold streamRead
  split
  · exact Or.inr ⟨fun _ => by simp, rfl⟩
  · split
    · exact Or.inr ⟨fun _ => by simp, rfl⟩
    · dsimp only
      split
      · exact Or.inr ⟨fun _ => by simp, rfl⟩
      · exact Or.inr ⟨fun _ => by simp, rfl⟩
      · dsimp only [readAnswer]
        split
        · rename_i hpos
          exact Or.inl ⟨rfl, List.ne_nil_of_length_pos hpos⟩
        · rename_i hzero
          refine Or.inr ⟨fun n => ?_, by simpa using hzero⟩
          split
          · simp
          · split <;> simp

/-- A read touches neither the accept queue nor the send half's facts. -/
theorem streamRead_frame (s : ConnState Q) (id : StreamId) (len : Nat) :
    (s.streamRead id len).2.2.readyAccepts = s.readyAccepts ∧
      (s.streamRead id len).2.2.sendFins = s.sendFins := by
  unfold streamRead
  split
  · exact ⟨rfl, rfl⟩
  · split
    · exact ⟨rfl, rfl⟩
    · dsimp only
      split
      · exact ⟨rfl, rfl⟩
      · exact ⟨rfl, rfl⟩
      · split <;> exact ⟨rfl, rfl⟩

/-- Opening, accepting and writing touch neither half's facts. -/
theorem openBi_frame (s : ConnState Q) :
    s.openBi.2.sendFins = s.sendFins ∧ s.openBi.2.finishedReads = s.finishedReads := by
  unfold openBi
  split <;> exact ⟨rfl, rfl⟩

theorem acceptBi_frame (s : ConnState Q) :
    s.acceptBi.2.sendFins = s.sendFins ∧ s.acceptBi.2.finishedReads = s.finishedReads := by
  unfold acceptBi
  split <;> exact ⟨rfl, rfl⟩

theorem streamWrite_frame (s : ConnState Q) (id : StreamId) (buf : List UInt8) :
    (s.streamWrite id buf).2.readyAccepts = s.readyAccepts ∧
      (s.streamWrite id buf).2.sendFins = s.sendFins ∧
      (s.streamWrite id buf).2.finishedReads = s.finishedReads := by
  unfold streamWrite
  split <;> exact ⟨rfl, rfl, rfl⟩

/-- Of a stream that is finished, a read answers `Finished`. -/
theorem streamRead_finished {s : ConnState Q} {id : StreamId} (h : id ∈ s.finishedReads)
    (len : Nat) : (s.streamRead id len).1 = .ok .finished := by
  unfold streamRead
  rw [if_pos h]

/-- Polling writes the connection, the accept queue and the send halves' facts only. -/
theorem serviceStreams_keeps {α : Type} (f : ConnState Q → α)
    (hconn : ∀ (s : ConnState Q) c, f { s with conn := c } = f s)
    (haccepts : ∀ (s : ConnState Q) l, f { s with readyAccepts := l } = f s)
    (hfins : ∀ (s : ConnState Q) m, f { s with sendFins := m } = f s) (s : ConnState Q) :
    f s.serviceStreams.2 = f s := by
  have hrecord : ∀ (t : ConnState Q) id fact, f (t.recordSendFin id fact).2 = f t := by
    intro t id fact
    unfold recordSendFin
    split
    · rfl
    · rfl
    · exact hfins t _
    · exact hfins t _
  refine serviceStreams_inv (I := fun p => f p.1 = f s) (fun t pr ev c ht _ => ?_)
    (fun t pr c ht _ => (hconn t c).trans ht) rfl
  have hpolled : f { t with conn := c } = f s := (hconn t c).trans ht
  unfold onPolled
  split
  case h_3 =>
    refine acceptLoop_inv (I := fun p => f p.1 = f s) (fun u pr id c hu _ => ?_)
      (fun u pr c hu _ => (hconn u c).trans hu) hpolled
    exact (haccepts { u with conn := c } _).trans ((hconn u c).trans hu)
  case h_6 | h_7 => exact (hrecord _ _ _).trans hpolled
  all_goals exact hpolled

theorem serviceStreams_finishedReads (s : ConnState Q) :
    s.serviceStreams.2.finishedReads = s.finishedReads :=
  serviceStreams_keeps finishedReads (fun _ _ => rfl) (fun _ _ => rfl) (fun _ _ => rfl) s

theorem serviceStreams_dirty (s : ConnState Q) : s.serviceStreams.2.dirty = s.dirty :=
  serviceStreams_keeps dirty (fun _ _ => rfl) (fun _ _ => rfl) (fun _ _ => rfl) s

/-- A read that copies bytes leaves fewer to read. -/
theorem streamRead_rank {s : ConnState Q} {id : StreamId} {len : Nat}
    (h : (s.streamRead id len).2.1 ≠ []) :
    Q.readRank (s.streamRead id len).2.2.conn < Q.readRank s.conn := by
  unfold streamRead at h ⊢
  split at h
  · exact absurd rfl h
  · split at h
    · exact absurd rfl h
    · rename_i hfin hlen
      rw [if_neg hfin, if_neg hlen]
      dsimp only at h ⊢
      split at h
      · exact absurd rfl h
      · exact absurd rfl h
      · rename_i ch hopen
        have hlt := (readLoop_rank len ch).2 h
        have hfinal := (Q.finalize_le (readLoop len ch).chunks).trans_lt
          (hlt.trans_le (Q.read_le _ _ _ hopen))
        dsimp only
        split <;> exact hfinal

theorem openBi_steps (s : ConnState Q) :
    Q.ConnSteps (fun l => l = .openBi) s.conn s.openBi.2.conn := by
  unfold openBi
  split
  · exact .refl
  · exact .single rfl (.openBi s.conn)

theorem acceptBi_steps (s : ConnState Q) :
    Q.ConnSteps (fun l => ∃ id, l = .acceptBi id) s.conn s.acceptBi.2.conn := by
  unfold acceptBi
  split
  · exact .refl
  · exact .single ⟨_, rfl⟩ (.acceptBi s.conn)

theorem streamRead_steps (s : ConnState Q) (id : StreamId) (len : Nat) :
    Q.ConnSteps (fun l => ∃ bytes, l = .read id bytes) s.conn (s.streamRead id len).2.2.conn := by
  rcases streamRead_spec s id len with ⟨h, -⟩ | h
  · rw [h]
  · exact .single ⟨_, rfl⟩ h

theorem streamWrite_steps (s : ConnState Q) (id : StreamId) (buf : List UInt8) :
    Q.ConnSteps (fun l => ∃ a, l = .write id a) s.conn (s.streamWrite id buf).2.conn := by
  unfold streamWrite
  split
  · exact .refl
  · exact .single ⟨_, rfl⟩ (.write s.conn id buf)

theorem streamFinish_steps (s : ConnState Q) (id : StreamId) :
    Q.ConnSteps (fun l => ∃ ok, l = .finish id ok) s.conn (s.streamFinish id).2.conn := by
  have hstep := Quinn.ConnStep.finish s.conn id
  unfold streamFinish
  split
  · exact .refl
  · exact .refl
  · exact .refl
  · dsimp only
    split
    · exact .single ⟨_, rfl⟩ hstep
    · rw [recordSendFin_conn]
      exact .single ⟨_, rfl⟩ hstep
    · exact .single ⟨_, rfl⟩ hstep

theorem streamReset_steps (s : ConnState Q) (id : StreamId) (code : Nat) :
    Q.ConnSteps (fun l => ∃ ok, l = .reset id ok) s.conn (s.streamReset id code).2.conn := by
  unfold streamReset
  split
  · exact .refl
  · exact .single ⟨_, rfl⟩ (.reset s.conn id _)

theorem streamStop_steps (s : ConnState Q) (id : StreamId) (code : Nat) :
    Q.ConnSteps (fun l => l = .stop id) s.conn (s.streamStop id code).2.conn := by
  unfold streamStop
  split
  · exact .refl
  · exact .single rfl (.stop s.conn id _)

end ConnState

end QuietQuic.Proto
