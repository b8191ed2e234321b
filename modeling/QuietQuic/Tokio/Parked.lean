import QuietQuic.Proto.Conn

/-!
# Parked handle operations

Model of the driver side of `src/conn.rs`: `Parked`, the operations the core answered with "not
right now", and the commands and events that serve them. A oneshot channel is a `Token`; a
`reply.send(v)` is an output of the operation, `(token, v)`, in the order of the sends. Whether
anybody still holds the receiving end is not known here, and the source does not look: it discards
the result of every send.

Every operation returns its effects as an `Outcome`. `yielded` is a history variable: the stream
ids `accept_bi` handed out, noted where it handed them out.

* `pumpRead_exit`, `pumpWrite_exit`: the two pump loops leave through one of their own exits.
* `pumpRead_spec`: which bytes a read pump takes, and whether it keeps them or sends them.
* `pumpWrite_spec`, `pumpWrite_refused`: when a write pump stays parked.
-/

namespace QuietQuic.Tokio

open QuietQuic.Lib QuietQuic.Proto

/-- `READ_CHUNK`. -/
def READ_CHUNK : Nat := 16 * 1024

/-- `usize::saturating_add`. -/
def saturatingAdd (a b : UInt64) : Nat := min (a.toNat + b.toNat) (2 ^ 64 - 1)

/-- A oneshot channel. -/
abbrev Token := Nat

/-- What is sent into a oneshot channel. -/
inductive Reply where
  | stream (answer : Except ConnError StreamId)
  | done (answer : Except ConnError Unit)
  | bytes (answer : Except ConnError (List UInt8))

/-- The reply is an error. -/
def Reply.isError : Reply → Bool
  | .stream (.error _) | .done (.error _) | .bytes (.error _) => true
  | _ => false

/-- `Cmd`. -/
inductive Cmd where
  | openBi (reply : Token)
  | acceptBi (reply : Token)
  | write (id : StreamId) (data : List UInt8) (reply : Token)
  | finish (id : StreamId) (reply : Token)
  | waitFinished (id : StreamId) (reply : Token)
  | reset (id : StreamId) (code : Nat) (reply : Token)
  | stop (id : StreamId) (code : Nat) (reply : Token)
  | releaseSend (id : StreamId)
  | readToEnd (id : StreamId) (limit : UInt64) (reply : Token)
  | read (id : StreamId) (max : UInt64) (reply : Token)
  | close (code : Nat) (reason : List UInt8)
  deriving DecidableEq

/-- `PendingWrite`. -/
structure PendingWrite where
  data : List UInt8
  offset : Nat
  reply : Token

/-- `PendingRead`. -/
structure PendingRead where
  buf : List UInt8
  endLimit : Option UInt64
  max : Option UInt64
  reply : Token

/-- `Parked`. The `closed` watch, which no stream operation reads, is kept beside the driver. -/
structure Parked where
  pendingAccepts : List Token
  blockedWrites : AMap StreamId PendingWrite
  pendingReads : AMap StreamId PendingRead
  finWaiters : AMap StreamId (List Token)

/-- What one operation of the driver does. -/
structure Outcome (Q : Quinn) where
  core : ConnState Q
  parked : Parked
  sent : List (Token × Reply) := []
  yielded : List StreamId := []

variable {Q : Quinn}

/-! ## `pump_write` -/

/-- The locals of `pump_write`, with the reply once it is sent. -/
structure WritePump (Q : Quinn) where
  core : ConnState Q
  pending : PendingWrite
  reply : Option (Except ConnError Unit) := none

/-- One round of `pump_write`. -/
def writePumpRound (id : StreamId) (w : WritePump Q) : Ctl (WritePump Q) :=
  if w.pending.data.length ≤ w.pending.offset then .done { w with reply := some (.ok ()) }
  else
    let (answer, core) := w.core.streamWrite id (w.pending.data.drop w.pending.offset)
    match answer with
    | .ok (.wrote n) =>
      .again { w with core := core, pending := { w.pending with offset := w.pending.offset + n } }
    | .ok .blocked => .done { w with core := core }
    | .error e => .done { w with core := core, reply := some (.error e) }

/-- `pump_write`: it is over when a reply is there, and stays parked otherwise. -/
def pumpWrite (core : ConnState Q) (id : StreamId) (pending : PendingWrite) : WritePump Q :=
  loop (writePumpRound id) (pending.data.length - pending.offset + 1) { core, pending }

/-! ## `pump_read` -/

/-- The locals of `pump_read`, with the reply once it is sent. -/
structure ReadPump (Q : Quinn) where
  core : ConnState Q
  pending : PendingRead
  reply : Option (Except ConnError (List UInt8)) := none

/-- The buffer length `pump_read` asks for. -/
def readRequest (p : PendingRead) : Nat :=
  max
    (match p.max with
      | some max => min (max.toNat - p.buf.length) READ_CHUNK
      | none =>
        match p.endLimit with
        | some limit => min (saturatingAdd limit 1 - p.buf.length) READ_CHUNK
        | none => READ_CHUNK)
    1

/-- One round of `pump_read`. -/
def readPumpRound (id : StreamId) (r : ReadPump Q) : Ctl (ReadPump Q) :=
  let (answer, bytes, core) := r.core.streamRead id (readRequest r.pending)
  match answer with
  | .ok (.read _) =>
    let pending := { r.pending with buf := r.pending.buf ++ bytes }
    match pending.endLimit.filter fun limit => limit.toNat < pending.buf.length with
    | some limit =>
      .done { core, pending, reply := some (.error (.readLimitExceeded limit.toNat)) }
    | none =>
      if pending.max.isSome then
        .done { core, pending := { pending with buf := [] }, reply := some (.ok pending.buf) }
      else .again { core, pending }
  | .ok .blocked => .done { r with core }
  | .ok .finished =>
    let core := if r.pending.endLimit.isSome then core.forgetRecv id else core
    .done { core, pending := { r.pending with buf := [] }, reply := some (.ok r.pending.buf) }
  | .error e => .done { r with core, reply := some (.error e) }

/-- `pump_read`: it is over when a reply is there, and stays parked otherwise. -/
def pumpRead (core : ConnState Q) (id : StreamId) (pending : PendingRead) : ReadPump Q :=
  loop (readPumpRound id) (Q.readRank core.conn + 1) { core, pending }

/-! ## Commands -/

namespace Parked

/-- `Parked::new`. -/
def new : Parked where
  pendingAccepts := []
  blockedWrites := ∅
  pendingReads := ∅
  finWaiters := ∅

/-- `fail_fin_waiters`. -/
def failFinWaiters (p : Parked) (id : StreamId) (e : ConnError) :
    Parked × List (Token × Reply) :=
  ({ p with finWaiters := p.finWaiters.erase id },
    ((p.finWaiters.lookup id).getD []).map fun t => (t, .done (.error e)))

/-- `fail_blocked_write`. -/
def failBlockedWrite (p : Parked) (id : StreamId) (e : ConnError) :
    Parked × List (Token × Reply) :=
  ({ p with blockedWrites := p.blockedWrites.erase id },
    (p.blockedWrites.lookup id).toList.map fun w => (w.reply, .done (.error e)))

/-- `fail_pending_read`. -/
def failPendingRead (p : Parked) (id : StreamId) (e : ConnError) :
    Parked × List (Token × Reply) :=
  ({ p with pendingReads := p.pendingReads.erase id },
    (p.pendingReads.lookup id).toList.map fun r => (r.reply, .bytes (.error e)))

/-- Pump a read that is not in the map, and park it if it stays blocked. -/
def offerRead (p : Parked) (core : ConnState Q) (id : StreamId) (pending : PendingRead) :
    Outcome Q :=
  let r := pumpRead core id pending
  match r.reply with
  | some answer => { core := r.core, parked := p, sent := [(pending.reply, .bytes answer)] }
  | none => { core := r.core, parked := { p with pendingReads := p.pendingReads.insert id r.pending } }

/-- Pump a write that is not in the map, and park it if it stays blocked. -/
def offerWrite (p : Parked) (core : ConnState Q) (id : StreamId) (pending : PendingWrite) :
    Outcome Q :=
  let w := pumpWrite core id pending
  match w.reply with
  | some answer => { core := w.core, parked := p, sent := [(pending.reply, .done answer)] }
  | none =>
    { core := w.core, parked := { p with blockedWrites := p.blockedWrites.insert id w.pending } }

/-- `apply_cmd`. -/
def applyCmd (p : Parked) (core : ConnState Q) (cmd : Cmd) (now : Instant) : Outcome Q :=
  match cmd with
  | .openBi reply =>
    { core := core.openBi.2, parked := p, sent := [(reply, .stream core.openBi.1)] }
  | .acceptBi reply =>
    let (answer, core) := core.acceptBi
    match answer with
    | .ok (some id) =>
      { core, parked := p, sent := [(reply, .stream (.ok id))], yielded := [id] }
    | .ok none => { core, parked := { p with pendingAccepts := p.pendingAccepts ++ [reply] } }
    | .error e => { core, parked := p, sent := [(reply, .stream (.error e))] }
  | .write id data reply => p.offerWrite core id { data, offset := 0, reply }
  | .finish id reply =>
    let (answer, core) := core.streamFinish id
    { core, parked := p, sent := [(reply, .done answer)] }
  | .waitFinished id reply =>
    match core.sendFin id with
    | some .acked => { core, parked := p, sent := [(reply, .done (.ok ()))] }
    | some (.stopped code) =>
      { core, parked := p, sent := [(reply, .done (.error (.stopped code)))] }
    | some .queued =>
      { core
        parked :=
          { p with
            finWaiters := p.finWaiters.insert id ((p.finWaiters.lookup id).getD [] ++ [reply]) } }
    | none => { core, parked := p, sent := [(reply, .done (.error .closedStream))] }
  | .reset id code reply =>
    let (answer, core) := core.streamReset id code
    match answer with
    | .ok () =>
      let (p, waiters) := p.failFinWaiters id .closedStream
      let (p, write) := p.failBlockedWrite id .closedStream
      { core, parked := p, sent := waiters ++ write ++ [(reply, .done (.ok ()))] }
    | .error e => { core, parked := p, sent := [(reply, .done (.error e))] }
  | .stop id code reply =>
    let (answer, core) := core.streamStop id code
    match answer with
    | .ok () =>
      let (p, read) := p.failPendingRead id .closedStream
      { core, parked := p, sent := read ++ [(reply, .done (.ok ()))] }
    | .error e => { core, parked := p, sent := [(reply, .done (.error e))] }
  | .releaseSend id => { core := core.forgetSend id, parked := p }
  | .readToEnd id limit reply =>
    p.offerRead core id { buf := [], endLimit := some limit, max := none, reply }
  | .read id maxLen reply =>
    p.offerRead core id { buf := [], endLimit := none, max := some (max maxLen 1), reply }
  | .close code reason =>
    { core := { core with conn := Q.close core.conn now code reason }, parked := p }

/-! ## Events -/

/-- The loop of `on_stream_opened` over the parked accepts. -/
def acceptParked (core : ConnState Q) :
    List Token → ConnState Q × List Token × List (Token × Reply) × List StreamId
  | [] => (core, [], [], [])
  | reply :: rest =>
    let (answer, core) := core.acceptBi
    match answer with
    | .ok (some id) =>
      let (core, left, sent, yielded) := acceptParked core rest
      (core, left, (reply, .stream (.ok id)) :: sent, id :: yielded)
    | .ok none => (core, reply :: rest, [], [])
    | .error e => (core, rest, [(reply, .stream (.error e))], [])

/-- `on_stream_opened`. -/
def onStreamOpened (p : Parked) (core : ConnState Q) : Outcome Q :=
  let (core, left, sent, yielded) := acceptParked core p.pendingAccepts
  { core, parked := { p with pendingAccepts := left }, sent, yielded }

/-- `on_readable`. -/
def onReadable (p : Parked) (core : ConnState Q) (id : StreamId) : Outcome Q :=
  match p.pendingReads.lookup id with
  | none => { core, parked := p }
  | some pending =>
    Parked.offerRead { p with pendingReads := p.pendingReads.erase id } core id pending

/-- `on_writable`. -/
def onWritable (p : Parked) (core : ConnState Q) (id : StreamId) : Outcome Q :=
  match p.blockedWrites.lookup id with
  | none => { core, parked := p }
  | some pending =>
    Parked.offerWrite { p with blockedWrites := p.blockedWrites.erase id } core id pending

/-- `on_fin_acked`. -/
def onFinAcked (p : Parked) (id : StreamId) : Parked × List (Token × Reply) :=
  ({ p with finWaiters := p.finWaiters.erase id },
    ((p.finWaiters.lookup id).getD []).map fun t => (t, .done (.ok ())))

/-- `on_stopped`. -/
def onStopped (p : Parked) (core : ConnState Q) (id : StreamId) (code : Nat) : Outcome Q :=
  let (p, waiters) := p.failFinWaiters id (.stopped code)
  let o := p.onWritable core id
  { o with sent := waiters ++ o.sent }

/-- The reaction of the drivers' `on_event` to a stream event of this connection. `Connected`
makes the `Parked`, `ConnectionLost` ends it. -/
def onEvent (p : Parked) (core : ConnState Q) : Event → Outcome Q
  | .streamOpened _ _ _ => p.onStreamOpened core
  | .streamReadable _ id => p.onReadable core id
  | .streamWritable _ id => p.onWritable core id
  | .streamFinAcked _ id =>
    let (p, sent) := p.onFinAcked id
    { core, parked := p, sent }
  | .streamStopped _ id code => p.onStopped core id code
  | .connected _ | .connectionLost _ _ => { core, parked := p }

/-- `fail_all`. -/
def failAll (p : Parked) : Parked × List (Token × Reply) :=
  (.new,
    p.pendingAccepts.map (fun t => (t, .stream (.error .closed))) ++
      (AMap.values p.blockedWrites).map (fun w => (w.reply, .done (.error .closed))) ++
      (AMap.values p.pendingReads).map (fun r => (r.reply, .bytes (.error .closed))) ++
      (AMap.values p.finWaiters).flatten.map fun t => (t, .done (.error .closed)))

/-! ## Offering a read or a write -/

section Offer

variable (p : Parked) (core : ConnState Q) (id : StreamId)

@[simp] theorem offerRead_core (pending : PendingRead) :
    (p.offerRead core id pending).core = (pumpRead core id pending).core := by
  unfold offerRead
  dsimp only
  split <;> rfl

@[simp] theorem offerRead_yielded (pending : PendingRead) :
    (p.offerRead core id pending).yielded = [] := by
  unfold offerRead
  dsimp only
  split <;> rfl

/-- Offering a read leaves the send halves' waiters alone. -/
theorem offerRead_parked (pending : PendingRead) :
    (p.offerRead core id pending).parked.blockedWrites = p.blockedWrites ∧
      (p.offerRead core id pending).parked.finWaiters = p.finWaiters := by
  unfold offerRead
  dsimp only
  split <;> exact ⟨rfl, rfl⟩

@[simp] theorem offerWrite_core (pending : PendingWrite) :
    (p.offerWrite core id pending).core = (pumpWrite core id pending).core := by
  unfold offerWrite
  dsimp only
  split <;> rfl

@[simp] theorem offerWrite_yielded (pending : PendingWrite) :
    (p.offerWrite core id pending).yielded = [] := by
  unfold offerWrite
  dsimp only
  split <;> rfl

/-- Offering a write leaves the other waiters alone. -/
theorem offerWrite_parked (pending : PendingWrite) :
    (p.offerWrite core id pending).parked.pendingReads = p.pendingReads ∧
      (p.offerWrite core id pending).parked.finWaiters = p.finWaiters := by
  unfold offerWrite
  dsimp only
  split <;> exact ⟨rfl, rfl⟩

variable {p core id} {x : Token × Reply}

/-- All that is sent is the pump's answer. -/
theorem mem_offerRead_sent {pending : PendingRead}
    (hx : x ∈ (p.offerRead core id pending).sent) :
    ∃ answer, (pumpRead core id pending).reply = some answer ∧
      x = (pending.reply, .bytes answer) := by
  unfold offerRead at hx
  dsimp only at hx
  split at hx
  · rename_i answer hreply
    exact ⟨answer, hreply, List.mem_singleton.mp hx⟩
  · exact absurd hx List.not_mem_nil

theorem mem_offerWrite_sent {pending : PendingWrite}
    (hx : x ∈ (p.offerWrite core id pending).sent) :
    ∃ answer, (pumpWrite core id pending).reply = some answer ∧
      x = (pending.reply, .done answer) := by
  unfold offerWrite at hx
  dsimp only at hx
  split at hx
  · rename_i answer hreply
    exact ⟨answer, hreply, List.mem_singleton.mp hx⟩
  · exact absurd hx List.not_mem_nil

end Offer

end Parked

/-! ## What a read pump does -/

/-- A further round has copied bytes. -/
theorem readPumpRound_again {id : StreamId} {r r' : ReadPump Q}
    (h : readPumpRound id r = .again r') :
    (r.core.streamRead id (readRequest r.pending)).2.1 ≠ [] ∧
      r' = { core := (r.core.streamRead id (readRequest r.pending)).2.2
             pending :=
               { r.pending with
                 buf := r.pending.buf ++ (r.core.streamRead id (readRequest r.pending)).2.1 } } := by
  have hanswer := ConnState.streamRead_answer r.core id (readRequest r.pending)
  unfold readPumpRound at h
  dsimp only at h
  split at h
  case h_1 n hread =>
    split at h
    · exact absurd h (by simp)
    · split at h
      · exact absurd h (by simp)
      · rcases hanswer with ⟨-, hne⟩ | ⟨hno, -⟩
        · exact ⟨hne, (Ctl.again.inj h).symm⟩
        · exact absurd hread (hno n)
  all_goals exact absurd h (by simp)

/-- **The exit rule of a read pump**: it leaves through a `return`, from a state every round up to
there keeps. -/
theorem pumpRead_exit {I : ReadPump Q → Prop} (core : ConnState Q) (id : StreamId)
    (pending : PendingRead)
    (hagain : ∀ r r', I r → readPumpRound id r = .again r' → I r') (h : I { core, pending }) :
    ∃ t, I t ∧ readPumpRound id t = .done (pumpRead core id pending) := by
  refine loop_exit (r := fun r : ReadPump Q => Q.readRank r.core.conn) ?_ (Nat.lt_succ_self _) h
  intro r r' hr hround
  refine ⟨hagain r r' hr hround, ?_⟩
  obtain ⟨hne, rfl⟩ := readPumpRound_again hround
  exact ConnState.streamRead_rank hne

/-- The ways out of `pump_read`, with what its last `stream_read` answered. -/
inductive ReadExit (id : StreamId) (r r' : ReadPump Q) : Prop
  | exceeded (n : Nat) (limit : UInt64)
      (hread : (r.core.streamRead id (readRequest r.pending)).1 = .ok (.read n))
      (hlimit : r.pending.endLimit = some limit)
      (hlt : limit.toNat <
        (r.pending.buf ++ (r.core.streamRead id (readRequest r.pending)).2.1).length)
      (hcore : r'.core = (r.core.streamRead id (readRequest r.pending)).2.2)
      (hreply : r'.reply = some (.error (.readLimitExceeded limit.toNat)))
  | chunk (n : Nat)
      (hread : (r.core.streamRead id (readRequest r.pending)).1 = .ok (.read n))
      (hmax : r.pending.max.isSome = true)
      (hcore : r'.core = (r.core.streamRead id (readRequest r.pending)).2.2)
      (hreply : r'.reply =
        some (.ok (r.pending.buf ++ (r.core.streamRead id (readRequest r.pending)).2.1)))
  | blocked (hread : (r.core.streamRead id (readRequest r.pending)).1 = .ok .blocked)
      (hcore : r'.core = (r.core.streamRead id (readRequest r.pending)).2.2)
      (hpending : r'.pending = r.pending) (hreply : r'.reply = r.reply)
  | finished (hread : (r.core.streamRead id (readRequest r.pending)).1 = .ok .finished)
      (hlimit : r.pending.endLimit = none)
      (hcore : r'.core = (r.core.streamRead id (readRequest r.pending)).2.2)
      (hreply : r'.reply = some (.ok r.pending.buf))
  | forgot (hread : (r.core.streamRead id (readRequest r.pending)).1 = .ok .finished)
      (hcore : r'.core = (r.core.streamRead id (readRequest r.pending)).2.2.forgetRecv id)
      (hreply : r'.reply = some (.ok r.pending.buf))
  | failed (e : ConnError)
      (hread : (r.core.streamRead id (readRequest r.pending)).1 = .error e)
      (hcore : r'.core = (r.core.streamRead id (readRequest r.pending)).2.2)
      (hreply : r'.reply = some (.error e))

theorem readPumpRound_done {id : StreamId} {r r' : ReadPump Q}
    (h : readPumpRound id r = .done r') : ReadExit id r r' := by
  unfold readPumpRound at h
  dsimp only at h
  split at h
  case h_1 n hread =>
    split at h
    case h_1 limit hfilter =>
      obtain ⟨hlimit, hlt⟩ := Option.filter_eq_some_iff.mp hfilter
      rw [← Ctl.done.inj h]
      exact .exceeded n limit hread hlimit (by simpa using hlt) rfl rfl
    case h_2 =>
      split at h
      · rename_i hmax
        rw [← Ctl.done.inj h]
        exact .chunk n hread hmax rfl rfl
      · exact absurd h (by simp)
  case h_2 hread =>
    rw [← Ctl.done.inj h]
    exact .blocked hread rfl rfl rfl
  case h_3 hread =>
    rw [← Ctl.done.inj h]
    by_cases hlimit : r.pending.endLimit.isSome = true
    · exact .forgot hread (if_pos hlimit) rfl
    · exact .finished hread (by simpa using hlimit) (if_neg hlimit) rfl
  case h_4 e hread =>
    rw [← Ctl.done.inj h]
    exact .failed e hread rfl rfl

/-- The connection after the last round is the one `stream_read` left, or that with the stream's
end forgotten. -/
theorem ReadExit.core {id : StreamId} {r r' : ReadPump Q} (h : ReadExit id r r') :
    r'.core = (r.core.streamRead id (readRequest r.pending)).2.2 ∨
      r'.core = (r.core.streamRead id (readRequest r.pending)).2.2.forgetRecv id := by
  cases h with
  | forgot _ hcore => exact .inr hcore
  | exceeded _ _ _ _ _ hcore => exact .inl hcore
  | chunk _ _ _ hcore => exact .inl hcore
  | blocked _ hcore => exact .inl hcore
  | finished _ _ hcore => exact .inl hcore
  | failed _ _ hcore => exact .inl hcore

/-- What becomes of the bytes of the last round: they are sent, or lost to an error, and where the
pump stays parked there are none. -/
theorem ReadExit.bytes {id : StreamId} {r r' : ReadPump Q} (h : ReadExit id r r')
    (hr : r.reply = none) :
    r'.reply = none ∧ r'.pending = r.pending ∧
        (r.core.streamRead id (readRequest r.pending)).2.1 = [] ∨
      r'.reply =
        some (.ok (r.pending.buf ++ (r.core.streamRead id (readRequest r.pending)).2.1)) ∨
      ∃ e, r'.reply = some (.error e) := by
  have hnil : ∀ a, (r.core.streamRead id (readRequest r.pending)).1 = a →
      (∀ n, a ≠ .ok (.read n)) → (r.core.streamRead id (readRequest r.pending)).2.1 = [] := by
    rintro a rfl ha
    rcases ConnState.streamRead_answer r.core id (readRequest r.pending) with
      ⟨hread, -⟩ | ⟨-, hnil⟩
    · exact absurd hread (ha _)
    · exact hnil
  cases h with
  | exceeded _ _ _ _ _ _ hreply => exact .inr (.inr ⟨_, hreply⟩)
  | chunk _ _ _ _ hreply => exact .inr (.inl hreply)
  | blocked hread _ hpending hreply =>
    exact .inl ⟨hreply.trans hr, hpending, hnil _ hread (by simp)⟩
  | finished hread _ _ hreply =>
    rw [hnil _ hread (by simp), List.append_nil]
    exact .inr (.inl hreply)
  | forgot hread _ hreply =>
    rw [hnil _ hread (by simp), List.append_nil]
    exact .inr (.inl hreply)
  | failed _ _ _ hreply => exact .inr (.inr ⟨_, hreply⟩)

/-- One `stream_read` as read sessions. -/
theorem reads_streamRead {id : StreamId} {c : Q.Conn} {bytes : List UInt8} {s : ConnState Q}
    (h : Q.Reads id c bytes s.conn) (len : Nat) :
    Q.Reads id c (bytes ++ (s.streamRead id len).2.1) (s.streamRead id len).2.2.conn := by
  rcases ConnState.streamRead_spec s id len with ⟨hconn, hnil⟩ | hstep
  · rw [hconn, hnil, List.append_nil]
    exact h
  · exact .snoc h hstep

/-- **What a read pump does with the bytes it takes**: it keeps them, or sends them, behind the
ones it had, unless it sends an error. When the first read finds nothing, nothing is taken. -/
theorem pumpRead_spec (core : ConnState Q) (id : StreamId) (pending : PendingRead) :
    ∃ taken, Q.Reads id core.conn taken (pumpRead core id pending).core.conn ∧
      ((pumpRead core id pending).reply = none ∧
          (pumpRead core id pending).pending = { pending with buf := pending.buf ++ taken } ∨
        (pumpRead core id pending).reply = some (.ok (pending.buf ++ taken)) ∨
        ∃ e, (pumpRead core id pending).reply = some (.error e)) ∧
      ((core.streamRead id (readRequest pending)).2.1 = [] → taken = []) := by
  let I := fun r : ReadPump Q => ∃ taken, Q.Reads id core.conn taken r.core.conn ∧ r.reply = none ∧
    r.pending = { pending with buf := pending.buf ++ taken } ∧
    (taken = [] ∧ r.core = core ∨ (core.streamRead id (readRequest pending)).2.1 ≠ [])
  have hagain : ∀ r r', I r → readPumpRound id r = .again r' → I r' := by
    rintro r r' ⟨taken, hreads, hreply, hpending, hfirst⟩ hround
    obtain ⟨hne, rfl⟩ := readPumpRound_again hround
    refine ⟨_, reads_streamRead hreads _, rfl, by rw [hpending, List.append_assoc], Or.inr ?_⟩
    rcases hfirst with ⟨rfl, hcore⟩ | hne'
    · rw [hcore, hpending, List.append_nil] at hne
      exact hne
    · exact hne'
  obtain ⟨t, ⟨taken, hreads, hreply, hpending, hfirst⟩, hdone⟩ := pumpRead_exit
    core id pending hagain ⟨[], .refl _, rfl, by simp, Or.inl ⟨rfl, rfl⟩⟩
  have hexit := readPumpRound_done hdone
  refine ⟨taken ++ (t.core.streamRead id (readRequest t.pending)).2.1, ?_, ?_, fun hnil => ?_⟩
  · rcases hexit.core with hcore | hcore
    all_goals
      rw [hcore]
      exact reads_streamRead hreads _
  · rcases hexit.bytes hreply with ⟨hnone, hsame, hnil⟩ | hok | herr
    · refine Or.inl ⟨hnone, ?_⟩
      rw [hsame, hnil, List.append_nil, hpending]
    · refine Or.inr (Or.inl ?_)
      rw [hok, hpending, List.append_assoc]
    · exact Or.inr (Or.inr herr)
  · rcases hfirst with ⟨rfl, hcore⟩ | hne
    · rw [hcore, hpending, List.append_nil, hnil, List.append_nil]
    · exact absurd hnil hne

/-- A read pump touches neither the accept queue nor the send half's facts. -/
theorem pumpRead_frame (core : ConnState Q) (id : StreamId) (pending : PendingRead) :
    (pumpRead core id pending).core.readyAccepts = core.readyAccepts ∧
      (pumpRead core id pending).core.sendFins = core.sendFins := by
  refine loop_inv (I := fun r : ReadPump Q => r.core.readyAccepts = core.readyAccepts ∧
    r.core.sendFins = core.sendFins) ?_ ?_ _ ⟨rfl, rfl⟩
  · intro r r' hr hround
    obtain ⟨-, rfl⟩ := readPumpRound_again hround
    obtain ⟨hacc, hfins⟩ := ConnState.streamRead_frame r.core id (readRequest r.pending)
    exact ⟨hacc.trans hr.1, hfins.trans hr.2⟩
  · intro r r' hr hround
    obtain ⟨hacc, hfins⟩ := ConnState.streamRead_frame r.core id (readRequest r.pending)
    rcases (readPumpRound_done hround).core with hcore | hcore
    all_goals
      rw [hcore]
      exact ⟨hacc.trans hr.1, hfins.trans hr.2⟩

/-! ## What a write pump does -/

/-- A further round has written at least one byte, inside the data. -/
theorem writePumpRound_again {id : StreamId} {w w' : WritePump Q}
    (h : writePumpRound id w = .again w') :
    ∃ n, 0 < n ∧ w.pending.offset + n ≤ w.pending.data.length ∧
      w' = { w with core := (w.core.streamWrite id (w.pending.data.drop w.pending.offset)).2
                    pending := { w.pending with offset := w.pending.offset + n } } := by
  unfold writePumpRound at h
  split at h
  · exact absurd h (by simp)
  · rename_i hlt
    have hne : w.pending.data.drop w.pending.offset ≠ [] := by
      rw [ne_eq, List.drop_eq_nil_iff]
      exact hlt
    dsimp only at h
    split at h
    · rename_i n hanswer
      refine ⟨n, ?_⟩
      unfold ConnState.streamWrite at hanswer
      rw [if_neg hne] at hanswer
      dsimp only at hanswer
      split at hanswer
      · rename_i m hwrite
        obtain rfl : m = n := by simpa using hanswer
        obtain ⟨hpos, hle⟩ := Q.writeSome _ _ _ _ _ hne (Prod.ext hwrite rfl)
        rw [List.length_drop] at hle
        exact ⟨hpos, by omega, (Ctl.again.inj h).symm⟩
      all_goals exact absurd hanswer (by simp)
    all_goals exact absurd h (by simp)

/-- **The exit rule of a write pump.** -/
theorem pumpWrite_exit {I : WritePump Q → Prop} (core : ConnState Q) (id : StreamId)
    (pending : PendingWrite)
    (hagain : ∀ w w', I w → writePumpRound id w = .again w' → I w') (h : I { core, pending }) :
    ∃ t, I t ∧ writePumpRound id t = .done (pumpWrite core id pending) := by
  refine loop_exit (r := fun w : WritePump Q => w.pending.data.length - w.pending.offset) ?_
    (Nat.lt_succ_self _) h
  intro w w' hw hround
  refine ⟨hagain w w' hw hround, ?_⟩
  obtain ⟨n, hpos, hle, rfl⟩ := writePumpRound_again hround
  dsimp only
  omega

/-- The ways out of `pump_write`. -/
inductive WriteExit (id : StreamId) (w w' : WritePump Q) : Prop
  | written (hcore : w'.core = w.core) (hreply : w'.reply = some (.ok ()))
  | blocked (hne : w.pending.data.drop w.pending.offset ≠ [])
      (hwrite : (Q.sendWrite w.core.conn id (w.pending.data.drop w.pending.offset)).1 =
        .error .blocked)
      (hcore : w'.core = (w.core.streamWrite id (w.pending.data.drop w.pending.offset)).2)
      (hreply : w'.reply = w.reply)
  | failed (e : ConnError)
      (hwrite : (w.core.streamWrite id (w.pending.data.drop w.pending.offset)).1 = .error e)
      (hcore : w'.core = (w.core.streamWrite id (w.pending.data.drop w.pending.offset)).2)
      (hreply : w'.reply = some (.error e))

theorem streamWrite_blocked {s : ConnState Q} {id : StreamId} {data : List UInt8}
    (hne : data ≠ []) (h : (s.streamWrite id data).1 = .ok .blocked) :
    (Q.sendWrite s.conn id data).1 = .error .blocked := by
  unfold ConnState.streamWrite at h
  rw [if_neg hne] at h
  dsimp only at h
  split at h
  case h_2 hblocked => exact hblocked
  all_goals exact absurd h (by simp)

/-- The last round keeps the channel. -/
theorem writePumpRound_done {id : StreamId} {w w' : WritePump Q}
    (h : writePumpRound id w = .done w') :
    WriteExit id w w' ∧ w'.pending = w.pending := by
  unfold writePumpRound at h
  split at h
  · rw [← Ctl.done.inj h]
    exact ⟨.written rfl rfl, rfl⟩
  · rename_i hlt
    have hne : w.pending.data.drop w.pending.offset ≠ [] := by
      rw [ne_eq, List.drop_eq_nil_iff]
      exact hlt
    dsimp only at h
    split at h
    · exact absurd h (by simp)
    · rename_i hanswer
      rw [← Ctl.done.inj h]
      exact ⟨.blocked hne (streamWrite_blocked hne hanswer) rfl rfl, rfl⟩
    · rename_i e hanswer
      rw [← Ctl.done.inj h]
      exact ⟨.failed e hanswer rfl rfl, rfl⟩

/-- The connection after the last round is the one before it, or the one `stream_write` left. -/
theorem WriteExit.core {id : StreamId} {w w' : WritePump Q} (h : WriteExit id w w') :
    w'.core = w.core ∨
      w'.core = (w.core.streamWrite id (w.pending.data.drop w.pending.offset)).2 := by
  cases h with
  | written hcore => exact .inl hcore
  | blocked _ _ hcore => exact .inr hcore
  | failed _ _ hcore => exact .inr hcore

/-- The calls a write pump makes. -/
def IsWrite (id : StreamId) (l : Q.ConnLabel) : Prop := ∃ a, l = .write id a

/-- **What a write pump does**: it writes, keeps its channel, and stays parked only when the last
write was blocked. -/
theorem pumpWrite_spec (core : ConnState Q) (id : StreamId) (pending : PendingWrite) :
    Q.ConnSteps (IsWrite id) core.conn (pumpWrite core id pending).core.conn ∧
      (pumpWrite core id pending).core.readyAccepts = core.readyAccepts ∧
      (pumpWrite core id pending).core.sendFins = core.sendFins ∧
      (pumpWrite core id pending).pending.reply = pending.reply ∧
      ((pumpWrite core id pending).reply = none → ∃ c data, data ≠ [] ∧
        Q.ConnSteps (IsWrite id) core.conn c ∧ (Q.sendWrite c id data).1 = .error .blocked) := by
  let I := fun w : WritePump Q => Q.ConnSteps (IsWrite id) core.conn w.core.conn ∧
    w.core.readyAccepts = core.readyAccepts ∧ w.core.sendFins = core.sendFins ∧
    w.pending.reply = pending.reply ∧ w.reply = none
  have hwrite : ∀ w : WritePump Q, I w → ∀ buf,
      Q.ConnSteps (IsWrite id) core.conn (w.core.streamWrite id buf).2.conn ∧
      (w.core.streamWrite id buf).2.readyAccepts = core.readyAccepts ∧
      (w.core.streamWrite id buf).2.sendFins = core.sendFins := by
    rintro w ⟨hsteps, hacc, hfins, -⟩ buf
    obtain ⟨hacc', hfins', -⟩ := w.core.streamWrite_frame id buf
    exact ⟨hsteps.trans (w.core.streamWrite_steps id buf), hacc'.trans hacc, hfins'.trans hfins⟩
  have hagain : ∀ w w', I w → writePumpRound id w = .again w' → I w' := by
    intro w w' hw hround
    obtain ⟨n, -, -, rfl⟩ := writePumpRound_again hround
    obtain ⟨hsteps, hacc, hfins⟩ := hwrite w hw (w.pending.data.drop w.pending.offset)
    exact ⟨hsteps, hacc, hfins, hw.2.2.2.1, hw.2.2.2.2⟩
  obtain ⟨t, ht, hdone⟩ := pumpWrite_exit core id pending hagain
    ⟨.refl, rfl, rfl, rfl, rfl⟩
  obtain ⟨hexit, hpending⟩ := writePumpRound_done hdone
  obtain ⟨hsteps, hacc, hfins⟩ := hwrite t ht (t.pending.data.drop t.pending.offset)
  rw [hpending]
  cases hexit with
  | written hcore hreply =>
    rw [hcore, hreply]
    exact ⟨ht.1, ht.2.1, ht.2.2.1, ht.2.2.2.1, fun h => absurd h (by simp)⟩
  | blocked hne hblocked hcore _ =>
    rw [hcore]
    exact ⟨hsteps, hacc, hfins, ht.2.2.2.1, fun _ => ⟨t.core.conn, _, hne, ht.1, hblocked⟩⟩
  | failed e _ hcore hreply =>
    rw [hcore, hreply]
    exact ⟨hsteps, hacc, hfins, ht.2.2.2.1, fun h => absurd h (by simp)⟩

/-- A write pump whose first write is refused for good is over. -/
theorem pumpWrite_refused {core : ConnState Q} {id : StreamId} {pending : PendingWrite}
    (h : pending.data.drop pending.offset ≠ [] → ∃ e,
      (Q.sendWrite core.conn id (pending.data.drop pending.offset)).1 = .error e ∧ e ≠ .blocked) :
    (pumpWrite core id pending).reply ≠ none := by
  have hround : ∃ w, writePumpRound id { core, pending } = .done w ∧ w.reply ≠ none := by
    unfold writePumpRound
    split
    · exact ⟨_, rfl, by simp⟩
    · rename_i hlt
      have hne : pending.data.drop pending.offset ≠ [] := by
        rw [ne_eq, List.drop_eq_nil_iff]
        exact hlt
      obtain ⟨e, he, hblocked⟩ := h hne
      have hanswer : ∃ err, (core.streamWrite id (pending.data.drop pending.offset)).1 = .error err := by
        unfold ConnState.streamWrite
        rw [if_neg hne]
        dsimp only
        rw [he]
        cases e with
        | blocked => exact absurd rfl hblocked
        | stopped code => exact ⟨_, rfl⟩
        | closedStream => exact ⟨_, rfl⟩
      obtain ⟨err, herr⟩ := hanswer
      exact ⟨_, by dsimp only; rw [herr], by simp⟩
  obtain ⟨w, hdone, hreply⟩ := hround
  rw [pumpWrite, loop_done hdone]
  exact hreply

end QuietQuic.Tokio
