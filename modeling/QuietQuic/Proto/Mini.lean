import QuietQuic.Proto.Quinn

/-!
# A quinn-proto to run

`Mini` is a quinn-proto small enough to evaluate: a slab and a CID counter for the endpoint, and
for a connection its event queue, its close timer, the bytes of its streams and the state of their
send halves. A datagram to a connection carries one `Frame`.

It meets every law stated about quinn-proto (`Mini.freshCids`, .. , `Mini.sendHalf`), so the laws
can hold together, and the concrete runs in the modules below are runs of it. Where it matters for
them it does what quinn-proto does: a peer's CONNECTION_CLOSE reports the loss at once and the
Drained event waits for the close timer; a write is refused for lack of credit before the state of
its stream is looked at, unless the stream is gone; no `Writable` follows a finish.
-/

namespace QuietQuic.Proto

/-! ## The endpoint -/

/-- The endpoint: the slab, the CIDs that route to it, and how many were minted. -/
structure MiniEp where
  slots : List QuinnHandle
  cids : List (ConnectionId × QuinnHandle)
  minted : Nat

/-- What a datagram carries to a connection. -/
inductive Frame where
  | ping
  | handshakeDone
  | stream (id : StreamId) (data : List UInt8)
  | finAck (id : StreamId)
  | stopSending (id : StreamId) (code : Nat)
  | maxData (n : Nat)
  | connectionClose
  | streamThenClose (id : StreamId) (data : List UInt8)

/-- The frame after a short header. -/
def Frame.decode : List UInt8 → Frame
  | [0x1c] => .connectionClose
  | [0x1e] => .handshakeDone
  | 0x08 :: id :: data => .stream id.toNat data
  | 0x0a :: id :: data => .streamThenClose id.toNat data
  | _ => .ping

namespace MiniEp

/-- The `i`-th CID. -/
def cidOf (i : Nat) : ConnectionId := [UInt8.ofNat i, 0, 0, 0, 0, 0, 0, 0]

/-- A free slab entry. -/
def freeSlot (slots : List QuinnHandle) : QuinnHandle := slots.foldr (fun s n => max (s + 1) n) 0

/-- Route by CID; a long header opens a connection. -/
def route (ep : MiniEp) : List UInt8 → Option (DatagramEvent Unit Frame)
  | [] => none
  | first :: rest =>
    if first &&& 0x80 ≠ 0 then some (.newConnection ())
    else
      (ep.cids.lookup (rest.take LOCAL_CID_LEN)).map fun slot =>
        .connectionEvent slot (.decode (rest.drop LOCAL_CID_LEN))

/-- Allocate an entry, with one CID. -/
def allocate (ep : MiniEp) : MiniEp where
  slots := freeSlot ep.slots :: ep.slots
  cids := (cidOf ep.minted, freeSlot ep.slots) :: ep.cids
  minted := ep.minted + 1

/-- Free an entry. -/
def release (ep : MiniEp) (slot : QuinnHandle) : MiniEp :=
  { ep with slots := ep.slots.filter (· ≠ slot), cids := ep.cids.filter (·.2 ≠ slot) }

theorem lt_freeSlot {slot : QuinnHandle} : ∀ {slots : List QuinnHandle}, slot ∈ slots →
    slot < freeSlot slots
  | s :: slots, h => by
    have hle : freeSlot slots ≤ freeSlot (s :: slots) := le_max_right _ _
    rcases List.mem_cons.mp h with rfl | h
    · exact Nat.lt_of_lt_of_le (Nat.lt_succ_self _) (le_max_left _ _)
    · exact Nat.lt_of_lt_of_le (lt_freeSlot h) hle

end MiniEp

/-! ## A connection -/

/-- How far a connection has come to its end. -/
inductive Phase where
  | live
  | closing
  | drained
  deriving DecidableEq

/-- The send half of a stream; `gone` when its FIN was acknowledged. -/
inductive MiniSend where
  | ready
  | finished
  | stopped (code : Nat)
  | reset
  | gone
  deriving DecidableEq

/-- The send half is over. -/
def MiniSend.isEnded : MiniSend → Bool
  | .ready | .finished => false
  | .stopped _ | .reset | .gone => true

/-- A connection. -/
structure MiniConn where
  phase : Phase
  /-- The Drained event is still to be handed out. -/
  drainedEvent : Bool
  /-- `Connected` is still to be polled. -/
  greeting : Bool
  announced : Bool
  events : List (QuinnConnectionError ⊕ StreamEvent)
  accepts : List StreamId
  known : List StreamId
  opened : Nat
  read : List (StreamId × UInt8)
  unread : List (StreamId × UInt8)
  send : StreamId → MiniSend
  credit : Nat
  blocked : List StreamId
  outbox : Nat
  remote : SocketAddr

namespace MiniConn

/-- A new connection, with its first datagram to send. -/
def new (remote : SocketAddr) (credit : Nat) : MiniConn where
  phase := .live
  drainedEvent := false
  greeting := false
  announced := false
  events := []
  accepts := []
  known := []
  opened := 0
  read := []
  unread := []
  send := fun _ => .ready
  credit := credit
  blocked := []
  outbox := 1
  remote := remote

/-- The bytes of one stream. -/
def bytesOf (id : StreamId) (l : List (StreamId × UInt8)) : List UInt8 :=
  (l.filter fun x => x.1 = id).map Prod.snd

/-- Take up to `n` bytes of one stream. -/
def takeBytes (id : StreamId) : Nat → List (StreamId × UInt8) →
    List UInt8 × List (StreamId × UInt8)
  | 0, l => ([], l)
  | _ + 1, [] => ([], [])
  | n + 1, x :: l =>
    if x.1 = id then (x.2 :: (takeBytes id n l).1, (takeBytes id n l).2)
    else ((takeBytes id (n + 1) l).1, x :: (takeBytes id (n + 1) l).2)

/-- A terminal event of a send half, as it is polled. -/
def settle (c : MiniConn) : StreamEvent → MiniConn
  | .finished id => { c with send := Function.update c.send id .gone }
  | .stopped id code =>
    if (c.send id).isEnded then c else { c with send := Function.update c.send id (.stopped code) }
  | _ => c

/-- `poll`. -/
def poll (c : MiniConn) : Option QuinnEvent × MiniConn :=
  if c.greeting = true ∧ c.announced = false then
    (some .connected, { c with greeting := false, announced := true })
  else
    match c.events with
    | [] => (none, c)
    | .inl reason :: rest => (some (.connectionLost reason), { c with events := rest })
    | .inr ev :: rest =>
      (some (.stream ev), { c.settle ev with events := rest, announced := true })

/-- `poll_endpoint_events`: the Drained event, once. -/
def pollEndpointEvents (c : MiniConn) : Option Unit × MiniConn :=
  if c.phase = .drained ∧ c.drainedEvent = true then (some (), { c with drainedEvent := false })
  else (none, c)

/-- `handle_event`. -/
def handleEvent (c : MiniConn) : Frame → MiniConn
  | .ping => c
  | .handshakeDone => { c with greeting := true }
  | .stream id data =>
    if id ∈ c.known then
      { c with
        unread := c.unread ++ data.map (id, ·)
        events := c.events ++ [.inr (.readable id)] }
    else
      { c with
        known := id :: c.known
        accepts := c.accepts ++ [id]
        unread := c.unread ++ data.map (id, ·)
        events := c.events ++ [.inr (.opened .bi)] }
  | .finAck id =>
    if c.send id = .finished then
      { c with
        send := Function.update c.send id .gone
        events := c.events ++ [.inr (.finished id)] }
    else c
  | .stopSending id code =>
    if (c.send id).isEnded then c
    else
      { c with
        send := Function.update c.send id (.stopped code)
        events := c.events ++ [.inr (.stopped id code)] }
  | .maxData n =>
    { c with
      credit := c.credit + n
      blocked := []
      events := c.events ++
        (c.blocked.filter fun id => c.send id = .ready).map fun id => .inr (.writable id) }
  | .connectionClose =>
    if c.phase = .live then
      { c with phase := .closing, events := c.events ++ [.inl (.applicationClosed 0 [])] }
    else c
  | .streamThenClose id data =>
    if c.phase = .live ∧ id ∉ c.known then
      { c with
        phase := .closing
        known := id :: c.known
        accepts := c.accepts ++ [id]
        unread := c.unread ++ data.map (id, ·)
        events := c.events ++ [.inr (.opened .bi), .inl (.applicationClosed 0 [])] }
    else c

/-- `handle_timeout`: the close timer. -/
def handleTimeout (c : MiniConn) (_ : Instant) : MiniConn :=
  if c.phase = .closing then { c with phase := .drained, drainedEvent := true } else c

/-- `poll_transmit`. -/
def pollTransmit (c : MiniConn) (_ : Instant) : Option (SocketAddr × List UInt8) × MiniConn :=
  match c.outbox with
  | 0 => (none, c)
  | n + 1 => (some (c.remote, [0x40]), { c with outbox := n })

/-- `close`. -/
def close (c : MiniConn) (_ : Instant) (_ : Nat) (_ : List UInt8) : MiniConn :=
  if c.phase = .live then { c with phase := .closing, outbox := c.outbox + 1 } else c

/-- `streams().open(Dir::Bi)`. -/
def streamsOpen (c : MiniConn) : Option StreamId × MiniConn :=
  (some (4 * c.opened), { c with opened := c.opened + 1, known := 4 * c.opened :: c.known })

/-- `streams().accept(Dir::Bi)`. -/
def streamsAccept (c : MiniConn) : Option StreamId × MiniConn :=
  match c.accepts with
  | [] => (none, c)
  | id :: rest => (some id, { c with accepts := rest })

/-- `recv_stream(id).read(true)`. -/
def recvRead (c : MiniConn) (id : StreamId) : ReadOpen (MiniConn × StreamId) MiniConn :=
  if id ∈ c.known then .chunks (c, id) else .closedStream c

/-- `Chunks::next`. -/
def chunksNext (ch : MiniConn × StreamId) (n : Nat) : ChunkAnswer × (MiniConn × StreamId) :=
  match takeBytes ch.2 n ch.1.unread with
  | ([], _) => (.blocked, ch)
  | (bytes, unread) =>
    (.chunk bytes, { ch.1 with read := ch.1.read ++ bytes.map (ch.2, ·), unread := unread }, ch.2)

/-- `send_stream(id).write`. -/
def sendWrite (c : MiniConn) (id : StreamId) (data : List UInt8) :
    Except WriteError Nat × MiniConn :=
  if c.send id = .gone then (.error .closedStream, c)
  else if c.credit = 0 then (.error .blocked, { c with blocked := id :: c.blocked })
  else
    match c.send id with
    | .ready =>
      (.ok (min data.length c.credit), { c with credit := c.credit - min data.length c.credit })
    | .stopped code => (.error (.stopped code), c)
    | _ => (.error .closedStream, c)

/-- `send_stream(id).finish`. -/
def sendFinish (c : MiniConn) (id : StreamId) : Except FinishError Unit × MiniConn :=
  match c.send id with
  | .ready => (.ok (), { c with send := Function.update c.send id .finished })
  | .stopped code => (.error (.stopped code), c)
  | _ => (.error .closedStream, c)

/-- `send_stream(id).reset`. -/
def sendReset (c : MiniConn) (id : StreamId) (_ : Nat) : Option Unit × MiniConn :=
  if c.send id = .gone ∨ c.send id = .reset then (none, c)
  else (some (), { c with send := Function.update c.send id .reset })

/-! ### Bytes -/

theorem takeBytes_length (id : StreamId) : ∀ (n : Nat) (l : List (StreamId × UInt8)),
    (takeBytes id n l).1.length ≤ n ∧
      (takeBytes id n l).1.length + (takeBytes id n l).2.length = l.length
  | 0, l => by simp [takeBytes]
  | n + 1, [] => by simp [takeBytes]
  | n + 1, x :: l => by
    have htake := takeBytes_length id n l
    have hskip := takeBytes_length id (n + 1) l
    unfold takeBytes
    split
    · simp only [List.length_cons]
      omega
    · simp only [List.length_cons]
      omega

theorem bytesOf_append (id : StreamId) (l l' : List (StreamId × UInt8)) :
    bytesOf id (l ++ l') = bytesOf id l ++ bytesOf id l' := by
  simp [bytesOf]

theorem bytesOf_map (id a : StreamId) (bytes : List UInt8) :
    bytesOf id (bytes.map (a, ·)) = if a = id then bytes else [] := by
  unfold bytesOf
  split
  · rename_i h
    simp [h, List.filter_map, Function.comp_def]
  · rename_i h
    simp [h, List.filter_map, Function.comp_def]

/-- What is taken is the front of its stream; the other streams stay. -/
theorem bytesOf_takeBytes (id a : StreamId) : ∀ (n : Nat) (l : List (StreamId × UInt8)),
    bytesOf id l =
      (if a = id then (takeBytes a n l).1 else []) ++ bytesOf id (takeBytes a n l).2
  | 0, l => by simp [takeBytes]
  | n + 1, [] => by simp [takeBytes, bytesOf]
  | n + 1, x :: l => by
    have hcons : ∀ l, bytesOf id (x :: l) = (if x.1 = id then [x.2] else []) ++ bytesOf id l := by
      intro l
      by_cases hx : x.1 = id <;> simp [bytesOf, hx]
    by_cases hx : x.1 = a
    · have hskip : takeBytes a (n + 1) (x :: l) =
          (x.2 :: (takeBytes a n l).1, (takeBytes a n l).2) := by simp [takeBytes, hx]
      rw [hskip, hcons, bytesOf_takeBytes id a n l, hx]
      split <;> simp
    · have hskip : takeBytes a (n + 1) (x :: l) =
          ((takeBytes a (n + 1) l).1, x :: (takeBytes a (n + 1) l).2) := by simp [takeBytes, hx]
      rw [hskip, hcons, hcons, bytesOf_takeBytes id a (n + 1) l]
      by_cases ha : a = id
      · subst ha
        simp [hx]
      · simp [ha]

/-- `next` answers `Blocked`, or a chunk of what is unread. -/
theorem chunksNext_cases (ch : MiniConn × StreamId) (n : Nat) :
    chunksNext ch n = (.blocked, ch) ∨
      (takeBytes ch.2 n ch.1.unread).1 ≠ [] ∧
        chunksNext ch n = (.chunk (takeBytes ch.2 n ch.1.unread).1,
          { ch.1 with
            read := ch.1.read ++ (takeBytes ch.2 n ch.1.unread).1.map (ch.2, ·)
            unread := (takeBytes ch.2 n ch.1.unread).2 }, ch.2) := by
  unfold chunksNext
  split
  · exact Or.inl rfl
  · rename_i bytes unread hne htake
    refine Or.inr ⟨?_, by rw [htake]⟩
    rw [htake]
    exact hne

theorem chunksNext_chunk {ch ch' : MiniConn × StreamId} {n : Nat} {bytes : List UInt8}
    (h : chunksNext ch n = (.chunk bytes, ch')) :
    bytes ≠ [] ∧ bytes = (takeBytes ch.2 n ch.1.unread).1 ∧
      ch' = ({ ch.1 with
        read := ch.1.read ++ bytes.map (ch.2, ·)
        unread := (takeBytes ch.2 n ch.1.unread).2 }, ch.2) := by
  rcases chunksNext_cases ch n with heq | ⟨hne, heq⟩
  · exact absurd (heq.symm.trans h) (by simp)
  · obtain ⟨hbytes, rfl⟩ := Prod.mk.inj (h.symm.trans heq)
    obtain rfl := ChunkAnswer.chunk.inj hbytes
    exact ⟨hne, rfl, rfl⟩

end MiniConn

/-- The endpoint calls that open a connection. -/
def MiniEp.establish {α : Type} (ep : MiniEp) (remote : SocketAddr)
    (answer : Option (QuinnHandle × MiniConn) → α) : Minting MiniEp α :=
  if ep.minted < 256 then
    ⟨ep.allocate, [MiniEp.cidOf ep.minted],
      answer (some (MiniEp.freeSlot ep.slots, MiniConn.new remote 0))⟩
  else ⟨ep, [], answer none⟩

/-- **A quinn-proto to run.** -/
abbrev Mini : Quinn where
  Ep := MiniEp
  Conn := MiniConn
  Chunks := MiniConn × StreamId
  Incoming := Unit
  ConnEvent := Frame
  EpEvent := Unit
  QuicServer := Unit
  QuicClient := Unit
  TokenKey := Unit
  new := ⟨[], [], 0⟩
  handle := fun ep _ _ _ data => ⟨ep, [], (ep.route data, [])⟩
  accept := fun ep _ _ _ => ep.establish ⟨.v4 0, 0⟩ fun made => (made, [])
  connect := fun ep _ _ remote _ => ep.establish remote fun made =>
    match made with
    | some x => .ok x
    | none => .error "no CID left"
  epHandleEvent := fun ep slot _ => ⟨ep.release slot, [], none⟩
  isDrainedEvent := fun _ => true
  poll := MiniConn.poll
  pollEndpointEvents := MiniConn.pollEndpointEvents
  connHandleEvent := MiniConn.handleEvent
  pollTimeout := fun c => if c.phase = .closing then some 0 else none
  handleTimeout := MiniConn.handleTimeout
  pollTransmit := MiniConn.pollTransmit
  isClosed := fun c => c.phase ≠ .live
  isDrained := fun c => c.phase = .drained
  remoteAddress := MiniConn.remote
  close := MiniConn.close
  streamsOpen := MiniConn.streamsOpen
  streamsAccept := MiniConn.streamsAccept
  recvRead := MiniConn.recvRead
  chunksNext := MiniConn.chunksNext
  chunksFinalize := Prod.fst
  sendWrite := MiniConn.sendWrite
  sendFinish := MiniConn.sendFinish
  sendReset := MiniConn.sendReset
  recvStop := fun c _ _ => (some (), c)
  pollRank := fun c => c.events.length + if c.greeting then 1 else 0
  poll_lt := by
    intro c e c' h
    unfold MiniConn.poll at h
    split at h
    · rename_i hgreet
      obtain ⟨-, rfl⟩ := Prod.mk.inj h
      simp [hgreet.1]
    · split at h
      · exact absurd h (by simp)
      · rename_i hev
        obtain ⟨-, rfl⟩ := Prod.mk.inj h
        simp [hev]
      · rename_i ev rest hev
        obtain ⟨-, rfl⟩ := Prod.mk.inj h
        have hgreet : (c.settle ev).greeting = c.greeting := by
          unfold MiniConn.settle
          split
          · rfl
          · split <;> rfl
          · rfl
        simp [hev, hgreet]
  accept_le := by
    intro c o c' h
    unfold MiniConn.streamsAccept at h
    split at h <;> obtain ⟨-, rfl⟩ := Prod.mk.inj h <;> exact le_rfl
  acceptRank := fun c => c.accepts.length
  accept_lt := by
    intro c id c' h
    unfold MiniConn.streamsAccept at h
    split at h
    · exact absurd h (by simp)
    · rename_i hacc
      obtain ⟨-, rfl⟩ := Prod.mk.inj h
      simp [hacc]
  endpointRank := fun c => if c.drainedEvent then 1 else 0
  endpoint_lt := by
    intro c ev c' h
    unfold MiniConn.pollEndpointEvents at h
    split at h
    · rename_i hdrained
      obtain ⟨-, rfl⟩ := Prod.mk.inj h
      simp [hdrained.2]
    · exact absurd h (by simp)
  transmitRank := fun c => c.outbox
  transmit_lt := by
    intro c now t c' h
    unfold MiniConn.pollTransmit at h
    split at h
    · exact absurd h (by simp)
    · rename_i n hn
      obtain ⟨-, rfl⟩ := Prod.mk.inj h
      simp [hn]
  nextChunk := by
    intro ch n bytes ch' h
    obtain ⟨hne, rfl, -⟩ := MiniConn.chunksNext_chunk h
    exact ⟨List.length_pos_iff.mpr hne, (MiniConn.takeBytes_length ch.2 n ch.1.unread).1⟩
  readRank := fun c => c.unread.length
  chunksRank := fun ch => ch.1.unread.length
  read_le := by
    intro c id ch h
    unfold MiniConn.recvRead at h
    split at h
    · obtain rfl := ReadOpen.chunks.inj h
      exact le_rfl
    · exact absurd h (by simp)
  chunk_lt := by
    intro ch n bytes ch' h
    obtain ⟨hne, rfl, rfl⟩ := MiniConn.chunksNext_chunk h
    have hpos := List.length_pos_iff.mpr hne
    have hlen := (MiniConn.takeBytes_length ch.2 n ch.1.unread).2
    dsimp only
    omega
  next_le := by
    intro ch n
    have hlen := (MiniConn.takeBytes_length ch.2 n ch.1.unread).2
    rcases MiniConn.chunksNext_cases ch n with heq | ⟨-, heq⟩
    · rw [heq]
    · rw [heq]
      dsimp only
      omega
  finalize_le := fun ch => le_rfl
  writeSome := by
    intro c id data n c' hne h
    unfold MiniConn.sendWrite at h
    split at h
    · exact absurd h (by simp)
    · split at h
      · exact absurd h (by simp)
      · rename_i hcredit
        split at h
        · obtain ⟨hn, -⟩ := Prod.mk.inj h
          obtain rfl := Except.ok.inj hn
          have hpos := List.length_pos_iff.mpr hne
          omega
        · exact absurd h (by simp)
        · exact absurd h (by simp)

/-! ## It meets the laws -/

theorem MiniEp.cidOf_inj {i j : Nat} (hi : i < 256) (hj : j < 256)
    (h : MiniEp.cidOf i = MiniEp.cidOf j) : i = j := by
  have hbyte : UInt8.ofNat i = UInt8.ofNat j := (List.cons.inj h).1
  have := congrArg UInt8.toNat hbyte
  simpa [UInt8.toNat_ofNat', Nat.mod_eq_of_lt hi, Nat.mod_eq_of_lt hj] using this

/-- What an endpoint call does: it opens a connection, frees an entry, or changes nothing. -/
theorem MiniEp.step_cases {q q' : Mini.Ep} {l : Quinn.SlabEffect} {cids : List ConnectionId}
    (h : Mini.EpStep q l cids q') :
    (l = .allocates (freeSlot q.slots) ∧ q.minted < 256 ∧ cids = [cidOf q.minted] ∧
        q' = q.allocate) ∨
      (∃ slot, l = .releases slot ∧ cids = [] ∧ q' = q.release slot) ∨
      l = .keeps ∧ cids = [] ∧ q' = q := by
  cases h with
  | handle => exact Or.inr (Or.inr ⟨rfl, rfl, rfl⟩)
  | acceptOk cfg incoming now slot conn buf hout =>
    simp only [establish] at hout ⊢
    split at hout
    · rename_i hlt
      rw [if_pos hlt]
      obtain ⟨rfl, -⟩ := Prod.mk.inj (Option.some.inj (Prod.mk.inj hout).1)
      exact Or.inl ⟨rfl, hlt, rfl, rfl⟩
    · exact absurd hout (by simp)
  | acceptErr cfg incoming now buf hout =>
    simp only [establish] at hout ⊢
    split at hout
    · exact absurd hout (by simp)
    · rename_i hlt
      rw [if_neg hlt]
      exact Or.inr (Or.inr ⟨trivial, rfl, rfl⟩)
  | connectOk now cfg remote name slot conn hout =>
    simp only [establish] at hout ⊢
    split at hout
    · rename_i hlt
      rw [if_pos hlt]
      obtain ⟨rfl, -⟩ := Prod.mk.inj (Except.ok.inj hout)
      exact Or.inl ⟨rfl, hlt, rfl, rfl⟩
    · exact absurd hout (by simp)
  | drained slot ev hdrained => exact Or.inr (Or.inl ⟨slot, rfl, rfl, rfl⟩)
  | event slot ev hevent => exact absurd hevent (by simp)

/-- The CIDs counted so far. -/
def MiniEp.Counted (q : MiniEp) (cid : ConnectionId) : Prop :=
  ∃ i, i < q.minted ∧ i < 256 ∧ cid = cidOf i

/-- Minting the next CID of the count, or none, is minting new ones. -/
theorem MiniEp.counted {q q' : MiniEp} {cids : List ConnectionId}
    (h : q.minted < 256 ∧ cids = [cidOf q.minted] ∧ q'.minted = q.minted + 1 ∨
      cids = [] ∧ q'.minted = q.minted) :
    cids.Nodup ∧ (∀ cid ∈ cids, ¬ q.Counted cid ∧ cid.length = LOCAL_CID_LEN) ∧
      ∀ cid, q'.Counted cid ↔ q.Counted cid ∨ cid ∈ cids := by
  unfold Counted
  rcases h with ⟨hlt, rfl, hq⟩ | ⟨rfl, hq⟩
  · refine ⟨List.nodup_singleton _, fun cid hcid => ?_, fun cid => ⟨?_, ?_⟩⟩
    · rw [List.mem_singleton.mp hcid]
      refine ⟨?_, rfl⟩
      rintro ⟨i, hi, hi', heq⟩
      exact absurd (cidOf_inj hlt hi' heq) (by omega)
    · rintro ⟨i, hi, hi', rfl⟩
      by_cases heq : i = q.minted
      · exact Or.inr (by rw [heq]; exact List.mem_singleton_self _)
      · exact Or.inl ⟨i, by omega, hi', rfl⟩
    · rintro (⟨i, hi, hi', rfl⟩ | hcid)
      · exact ⟨i, by omega, hi', rfl⟩
      · rw [List.mem_singleton.mp hcid]
        exact ⟨q.minted, by omega, hlt, rfl⟩
  · exact ⟨List.nodup_nil, by simp, fun cid => by simp [hq]⟩

namespace Mini

/-- Its CIDs are counted. -/
def freshCids : Mini.FreshCids where
  minted := fun q cid => ∃ i, i < q.minted ∧ i < 256 ∧ cid = MiniEp.cidOf i
  new := fun cid ⟨i, hi, _⟩ => absurd hi (Nat.not_lt_zero i)
  step := by
    intro q l cids q' h
    refine MiniEp.counted ?_
    rcases MiniEp.step_cases h with ⟨-, hlt, rfl, rfl⟩ | ⟨slot, -, rfl, rfl⟩ | ⟨-, rfl, rfl⟩
    · exact Or.inl ⟨hlt, rfl, rfl⟩
    · exact Or.inr ⟨rfl, rfl⟩
    · exact Or.inr ⟨rfl, rfl⟩

/-- Its slab. -/
def slots : Mini.Slots where
  allocated := fun q slot => slot ∈ q.slots
  new := fun slot h => absurd h List.not_mem_nil
  keeps := by
    intro q cids q' h slot
    rcases MiniEp.step_cases h with ⟨hl, -⟩ | ⟨s, hl, -⟩ | ⟨-, -, rfl⟩
    · exact absurd hl (by simp)
    · exact absurd hl (by simp)
    · exact Iff.rfl
  allocates := by
    intro q s cids q' h
    rcases MiniEp.step_cases h with ⟨hl, -, -, rfl⟩ | ⟨slot, hl, -⟩ | ⟨hl, -⟩
    · obtain rfl := Quinn.SlabEffect.allocates.inj hl
      exact ⟨fun hmem => absurd (MiniEp.lt_freeSlot hmem) (Nat.lt_irrefl _),
        fun slot => List.mem_cons⟩
    · exact absurd hl (by simp)
    · exact absurd hl (by simp)
  releases := by
    intro q s cids q' h slot
    rcases MiniEp.step_cases h with ⟨hl, -⟩ | ⟨s', hl, -, rfl⟩ | ⟨hl, -⟩
    · exact absurd hl (by simp)
    · obtain rfl := Quinn.SlabEffect.releases.inj hl
      simp [MiniEp.release, and_comm]
    · exact absurd hl (by simp)

/-- The chunks of one session move bytes of one stream, from the front. -/
theorem chunkRun {ch ch' : Mini.Chunks} {bytes : List UInt8} (h : Mini.ChunkRun ch bytes ch') :
    ch' = ({ ch.1 with
        read := ch.1.read ++ bytes.map (ch.2, ·)
        unread := ch'.1.unread }, ch.2) ∧
      ∀ id, MiniConn.bytesOf id ch.1.unread =
        (if ch.2 = id then bytes else []) ++ MiniConn.bytesOf id ch'.1.unread := by
  have hother : ∀ {ch : Mini.Chunks} {n a ch'}, (∀ b, a ≠ .chunk b) →
      Mini.chunksNext ch n = (a, ch') → ch' = ch := by
    intro ch n a ch' ha h
    rcases MiniConn.chunksNext_cases ch n with heq | ⟨-, heq⟩
    · exact (Prod.mk.inj (h.symm.trans heq)).2
    · exact absurd (Prod.mk.inj (h.symm.trans heq)).1 (ha _)
  induction h with
  | nil ch => simp
  | chunk hnext _ ih =>
    obtain ⟨-, hbytes, rfl⟩ := MiniConn.chunksNext_chunk hnext
    obtain ⟨heq, hunread⟩ := ih
    refine ⟨?_, fun id => ?_⟩
    · rw [heq]
      simp
    · rw [MiniConn.bytesOf_takeBytes id _ _ _, hunread id, ← hbytes]
      split <;> simp
  | finished hnext =>
    obtain rfl := hother (by simp) hnext
    simp
  | blocked hnext =>
    obtain rfl := hother (by simp) hnext
    simp
  | reset hnext =>
    obtain rfl := hother (by simp) hnext
    simp

/-- **What one call can do to a connection.** -/
structure Moved (c : Mini.Conn) (l : Mini.ConnLabel) (c' : Mini.Conn) : Prop where
  phase : c'.phase = c.phase ∧ c'.drainedEvent = c.drainedEvent ∨
    c'.phase = c.phase ∧ l = .endpointEvent (some ()) ∨
    ¬ Mini.IsQuiet l ∧ c'.phase = .closing ∧ c.phase = .live ∨
    ¬ Mini.IsQuiet l ∧ c'.phase = .drained ∧ c.phase = .closing ∧ c'.drainedEvent = true
  announced : c.announced = true → c'.announced = true
  ended : ∀ id, (c.send id).isEnded = true → (c'.send id).isEnded = true
  losses : Mini.IsQuiet l → ∀ reason, .inl reason ∈ c'.events → .inl reason ∈ c.events
  taken : ∀ id, ∃ bytes, MiniConn.bytesOf id c'.read = MiniConn.bytesOf id c.read ++ bytes ∧
    (bytes = [] ∧ (∀ b, l = .read id b → b = []) ∨ l = .read id bytes) ∧
    MiniConn.bytesOf id c.unread <+: bytes ++ MiniConn.bytesOf id c'.unread

/-- A call that reads nothing. -/
theorem Moved.ofFrame {c c' : Mini.Conn} {l : Mini.ConnLabel} (hl : ∀ id b, l ≠ .read id b)
    (hphase : c'.phase = c.phase ∧ c'.drainedEvent = c.drainedEvent ∨
      c'.phase = c.phase ∧ l = .endpointEvent (some ()) ∨
      ¬ Mini.IsQuiet l ∧ c'.phase = .closing ∧ c.phase = .live ∨
      ¬ Mini.IsQuiet l ∧ c'.phase = .drained ∧ c.phase = .closing ∧ c'.drainedEvent = true)
    (hannounced : c.announced = true → c'.announced = true)
    (hended : ∀ id, (c.send id).isEnded = true → (c'.send id).isEnded = true)
    (hlosses : Mini.IsQuiet l → ∀ reason, .inl reason ∈ c'.events → .inl reason ∈ c.events)
    (hread : c'.read = c.read) (hunread : c.unread <+: c'.unread) : Moved c l c' := by
  refine ⟨hphase, hannounced, hended, hlosses, fun id => ⟨[], by rw [hread, List.append_nil],
    Or.inl ⟨rfl, fun b hb => absurd hb (hl id b)⟩, ?_⟩⟩
  obtain ⟨more, heq⟩ := hunread
  rw [← heq, MiniConn.bytesOf_append]
  exact List.prefix_append _ _

theorem ended_update {send : StreamId → MiniSend} {a : StreamId} {new : MiniSend}
    (hnew : (send a).isEnded = true → new.isEnded = true) (id : StreamId)
    (h : (send id).isEnded = true) : (Function.update send a new id).isEnded = true := by
  by_cases heq : id = a
  · subst heq
    rw [Function.update_self]
    exact hnew h
  · rw [Function.update_of_ne heq]
    exact h

/-- A call that changes neither the phase, nor the send halves, nor the bytes. -/
theorem Moved.quiet {c c' : Mini.Conn} {l : Mini.ConnLabel} (hl : ∀ id b, l ≠ .read id b)
    (hlife : c'.phase = c.phase ∧ c'.drainedEvent = c.drainedEvent)
    (hannounced : c.announced = true → c'.announced = true) (hsend : c'.send = c.send)
    (hlosses : ∀ reason, .inl reason ∈ c'.events → .inl reason ∈ c.events)
    (hbytes : c'.read = c.read ∧ c'.unread = c.unread) : Moved c l c' :=
  .ofFrame hl (Or.inl hlife) hannounced (fun id h => by rw [hsend]; exact h) (fun _ => hlosses)
    hbytes.1 ⟨[], (List.append_nil _).trans hbytes.2.symm⟩

theorem moved_poll (c : Mini.Conn) : Moved c (.poll (Mini.poll c).1) (Mini.poll c).2 := by
  simp only [MiniConn.poll]
  split
  · exact .quiet (by simp) ⟨rfl, rfl⟩ (fun _ => rfl) rfl (fun _ h => h) ⟨rfl, rfl⟩
  · split
    · exact .quiet (by simp) ⟨rfl, rfl⟩ id rfl (fun _ h => h) ⟨rfl, rfl⟩
    · rename_i hev
      refine .quiet (by simp) ⟨rfl, rfl⟩ id rfl (fun reason h => ?_) ⟨rfl, rfl⟩
      rw [hev]
      exact List.mem_cons_of_mem _ h
    · rename_i ev rest hev
      have hlosses : ∀ reason, .inl reason ∈ rest → .inl reason ∈ c.events := fun reason h => by
        rw [hev]
        exact List.mem_cons_of_mem _ h
      unfold MiniConn.settle
      split
      · exact .ofFrame (by simp) (Or.inl ⟨rfl, rfl⟩) (fun _ => rfl)
          (ended_update fun _ => rfl) (fun _ => hlosses) rfl List.prefix_rfl
      · split
        · exact .quiet (by simp) ⟨rfl, rfl⟩ (fun _ => rfl) rfl hlosses ⟨rfl, rfl⟩
        · exact .ofFrame (by simp) (Or.inl ⟨rfl, rfl⟩) (fun _ => rfl)
            (ended_update fun _ => rfl) (fun _ => hlosses) rfl List.prefix_rfl
      · exact .quiet (by simp) ⟨rfl, rfl⟩ (fun _ => rfl) rfl hlosses ⟨rfl, rfl⟩

theorem moved_handleEvent (c : Mini.Conn) (ev : Frame) :
    Moved c (.handleEvent ev) (Mini.connHandleEvent c ev) := by
  have hquiet : ¬ Mini.IsQuiet (.handleEvent ev) := fun h => h
  cases ev with
  | ping => exact .quiet (by simp) ⟨rfl, rfl⟩ id rfl (fun _ h => h) ⟨rfl, rfl⟩
  | handshakeDone => exact .quiet (by simp) ⟨rfl, rfl⟩ id rfl (fun _ h => h) ⟨rfl, rfl⟩
  | stream id data =>
    simp only [MiniConn.handleEvent]
    split <;> exact .ofFrame (by simp) (Or.inl ⟨rfl, rfl⟩) (fun h => h) (fun _ h => h)
      (fun h => absurd h hquiet) rfl (List.prefix_append _ _)
  | finAck id =>
    simp only [MiniConn.handleEvent]
    split
    · exact .ofFrame (by simp) (Or.inl ⟨rfl, rfl⟩) (fun h => h) (ended_update fun _ => rfl)
        (fun h => absurd h hquiet) rfl List.prefix_rfl
    · exact .quiet (by simp) ⟨rfl, rfl⟩ (fun h => h) rfl (fun _ h => h) ⟨rfl, rfl⟩
  | stopSending id code =>
    simp only [MiniConn.handleEvent]
    split
    · exact .quiet (by simp) ⟨rfl, rfl⟩ (fun h => h) rfl (fun _ h => h) ⟨rfl, rfl⟩
    · exact .ofFrame (by simp) (Or.inl ⟨rfl, rfl⟩) (fun h => h) (ended_update fun _ => rfl)
        (fun h => absurd h hquiet) rfl List.prefix_rfl
  | maxData n =>
    exact .ofFrame (by simp) (Or.inl ⟨rfl, rfl⟩) (fun h => h) (fun _ h => h)
      (fun h => absurd h hquiet) rfl List.prefix_rfl
  | connectionClose =>
    simp only [MiniConn.handleEvent]
    split
    · rename_i hlive
      exact .ofFrame (by simp) (Or.inr (Or.inr (Or.inl ⟨hquiet, rfl, hlive⟩))) (fun h => h)
        (fun _ h => h) (fun h => absurd h hquiet) rfl List.prefix_rfl
    · exact .quiet (by simp) ⟨rfl, rfl⟩ (fun h => h) rfl (fun _ h => h) ⟨rfl, rfl⟩
  | streamThenClose id data =>
    simp only [MiniConn.handleEvent]
    split
    · rename_i hlive
      exact .ofFrame (by simp) (Or.inr (Or.inr (Or.inl ⟨hquiet, rfl, hlive.1⟩))) (fun h => h)
        (fun _ h => h) (fun h => absurd h hquiet) rfl (List.prefix_append _ _)
    · exact .quiet (by simp) ⟨rfl, rfl⟩ (fun h => h) rfl (fun _ h => h) ⟨rfl, rfl⟩

theorem moved_read {c : Mini.Conn} {id : StreamId} {ch ch' : Mini.Chunks} {bytes : List UInt8}
    (hopen : Mini.recvRead c id = .chunks ch) (hrun : Mini.ChunkRun ch bytes ch') :
    Moved c (.read id bytes) (Mini.chunksFinalize ch') := by
  obtain ⟨heq, hunread⟩ := chunkRun hrun
  simp only [MiniConn.recvRead] at hopen
  split at hopen
  · obtain rfl := ReadOpen.chunks.inj hopen
    rw [heq]
    refine ⟨Or.inl ⟨rfl, rfl⟩, fun h => h, fun _ h => h, fun h => absurd h fun h => h, fun a => ?_⟩
    refine ⟨if id = a then bytes else [], ?_, ?_, ?_⟩
    · rw [MiniConn.bytesOf_append, MiniConn.bytesOf_map]
    · split
      · rename_i h
        exact Or.inr (by rw [h])
      · rename_i h
        exact Or.inl ⟨rfl, fun b hb => absurd (Quinn.ConnLabel.read.inj hb).1 h⟩
    · exact ⟨[], (List.append_nil _).trans (hunread a)⟩
  · exact absurd hopen (by simp)

/-- **Every call moves a connection so.** -/
theorem moved {c c' : Mini.Conn} {l : Mini.ConnLabel} (h : Mini.ConnStep c l c') :
    Moved c l c' := by
  cases h with
  | poll => exact moved_poll c
  | endpointEvent =>
    simp only [MiniConn.pollEndpointEvents]
    split
    · exact .ofFrame (by simp) (Or.inr (Or.inl ⟨rfl, rfl⟩)) (fun h => h) (fun _ h => h)
        (fun _ _ h => h) rfl List.prefix_rfl
    · exact .quiet (by simp) ⟨rfl, rfl⟩ (fun h => h) rfl (fun _ h => h) ⟨rfl, rfl⟩
  | handleEvent ev => exact moved_handleEvent c ev
  | handleTimeout now =>
    simp only [MiniConn.handleTimeout]
    split
    · rename_i hclosing
      exact .ofFrame (by simp) (Or.inr (Or.inr (Or.inr ⟨fun h => h, rfl, hclosing, rfl⟩)))
        (fun h => h) (fun _ h => h) (fun h => absurd h fun h => h) rfl List.prefix_rfl
    · exact .quiet (by simp) ⟨rfl, rfl⟩ (fun h => h) rfl (fun _ h => h) ⟨rfl, rfl⟩
  | transmit now =>
    simp only [MiniConn.pollTransmit]
    split <;> exact .quiet (by simp) ⟨rfl, rfl⟩ (fun h => h) rfl (fun _ h => h) ⟨rfl, rfl⟩
  | close now code reason =>
    simp only [MiniConn.close]
    split
    · rename_i hlive
      exact .ofFrame (by simp) (Or.inr (Or.inr (Or.inl ⟨fun h => h, rfl, hlive⟩))) (fun h => h)
        (fun _ h => h) (fun h => absurd h fun h => h) rfl List.prefix_rfl
    · exact .quiet (by simp) ⟨rfl, rfl⟩ (fun h => h) rfl (fun _ h => h) ⟨rfl, rfl⟩
  | openBi => exact .quiet (by simp) ⟨rfl, rfl⟩ (fun h => h) rfl (fun _ h => h) ⟨rfl, rfl⟩
  | acceptBi =>
    simp only [MiniConn.streamsAccept]
    split <;> exact .quiet (by simp) ⟨rfl, rfl⟩ (fun h => h) rfl (fun _ h => h) ⟨rfl, rfl⟩
  | read hopen hrun => exact moved_read hopen hrun
  | readClosed hopen =>
    simp only [MiniConn.recvRead] at hopen
    split at hopen
    · exact absurd hopen (by simp)
    · obtain rfl := ReadOpen.closedStream.inj hopen
      exact ⟨Or.inl ⟨rfl, rfl⟩, fun h => h, fun _ h => h, fun h => absurd h fun h => h,
        fun a => ⟨[], by simp, Or.inl ⟨rfl, fun b hb => (Quinn.ConnLabel.read.inj hb).2.symm⟩,
          List.prefix_rfl⟩⟩
  | readIllegal hopen =>
    simp only [MiniConn.recvRead] at hopen
    split at hopen <;> exact absurd hopen (by simp)
  | write id data =>
    simp only [MiniConn.sendWrite]
    split
    · exact .quiet (by simp) ⟨rfl, rfl⟩ (fun h => h) rfl (fun _ h => h) ⟨rfl, rfl⟩
    · split
      · exact .quiet (by simp) ⟨rfl, rfl⟩ (fun h => h) rfl (fun _ h => h) ⟨rfl, rfl⟩
      · split <;> exact .quiet (by simp) ⟨rfl, rfl⟩ (fun h => h) rfl (fun _ h => h) ⟨rfl, rfl⟩
  | finish id =>
    simp only [MiniConn.sendFinish]
    split
    · rename_i hready
      exact .ofFrame (by simp) (Or.inl ⟨rfl, rfl⟩) (fun h => h)
        (ended_update fun h => absurd h (by simp [hready, MiniSend.isEnded]))
        (fun h => absurd h fun h => h) rfl List.prefix_rfl
    · exact .quiet (by simp) ⟨rfl, rfl⟩ (fun h => h) rfl (fun _ h => h) ⟨rfl, rfl⟩
    · exact .quiet (by simp) ⟨rfl, rfl⟩ (fun h => h) rfl (fun _ h => h) ⟨rfl, rfl⟩
  | reset id code =>
    simp only [MiniConn.sendReset]
    split
    · exact .quiet (by simp) ⟨rfl, rfl⟩ (fun h => h) rfl (fun _ h => h) ⟨rfl, rfl⟩
    · exact .ofFrame (by simp) (Or.inl ⟨rfl, rfl⟩) (fun h => h) (ended_update fun _ => rfl)
        (fun h => absurd h fun h => h) rfl List.prefix_rfl
  | stop id code => exact .quiet (by simp) ⟨rfl, rfl⟩ (fun h => h) rfl (fun _ h => h) ⟨rfl, rfl⟩

/-- A drained connection stays drained. -/
theorem drains : Mini.Drains where
  handsOut := by
    intro c ev c' h _
    simp only [MiniConn.pollEndpointEvents] at h
    split at h
    · rename_i hdrained
      obtain ⟨-, rfl⟩ := Prod.mk.inj h
      simp [hdrained.1]
    · exact absurd h (by simp)
  stays := by
    intro c l c' h hc
    have hc : c.phase = .drained := by simpa using hc
    rcases (moved h).phase with ⟨hphase, -⟩ | ⟨hphase, -⟩ | ⟨-, -, hlive⟩ | ⟨-, hphase, -⟩
    · simp [hphase, hc]
    · simp [hphase, hc]
    · exact absurd (hc.symm.trans hlive) (by simp)
    · simp [hphase]

/-- How its connections end. -/
def endings : Mini.Endings where
  lossPending := fun c => ∃ reason, .inl reason ∈ c.events
  drainedOut := fun c => c.phase = .drained ∧ c.drainedEvent = false
  reports := by
    intro c reason c' h
    simp only [MiniConn.poll] at h
    split at h
    · exact absurd h (by simp)
    · split at h
      · exact absurd h (by simp)
      · rename_i r rest hev
        exact ⟨r, by rw [hev]; exact List.mem_cons_self⟩
      · exact absurd h (by simp)
  noLoss := fun hl h ⟨reason, hmem⟩ => ⟨reason, (moved h).losses hl reason hmem⟩
  replyNoLoss := fun h => absurd h (by simp)
  noDrain := by
    intro c l c' hl h hc
    have hc : c'.phase = .drained := by simpa using hc
    rcases (moved h).phase with ⟨hphase, -⟩ | ⟨hphase, -⟩ | ⟨hnot, -⟩ | ⟨hnot, -⟩
    · simpa [← hphase] using hc
    · simpa [← hphase] using hc
    · exact absurd hl hnot
    · exact absurd hl hnot
  queued := by
    intro c c' h hc
    have hc : c'.phase = .drained := by simpa using hc
    simp only [MiniConn.pollEndpointEvents] at h
    split at h
    · exact absurd h (by simp)
    · rename_i hnot
      obtain ⟨-, rfl⟩ := Prod.mk.inj h
      exact ⟨hc, by simpa [hc] using hnot⟩
  handedOut := by
    rintro c l c' h ⟨hphase, hout⟩
    rcases (moved h).phase with ⟨hsame, hevent⟩ | ⟨-, rfl⟩ | ⟨-, hclosing, -⟩ | ⟨-, -, -, hevent⟩
    · exact Or.inl ⟨hsame ▸ hphase, hevent ▸ hout⟩
    · exact Or.inr ⟨(), rfl, rfl⟩
    · exact absurd (hphase.symm.trans hclosing) (by simp)
    · exact absurd (hout.symm.trans hevent) (by simp)
  accepted := by
    rintro q cfg incoming now slot conn buf h ⟨hphase, -⟩
    simp only [MiniEp.establish] at h
    split at h
    · obtain ⟨-, rfl⟩ := Prod.mk.inj (Option.some.inj (Prod.mk.inj h).1)
      exact absurd hphase (by simp [MiniConn.new])
    · exact absurd h (by simp)
  connected := by
    rintro q now cfg remote name slot conn h ⟨hphase, -⟩
    simp only [MiniEp.establish] at h
    split at h
    · obtain ⟨-, rfl⟩ := Prod.mk.inj (Except.ok.inj h)
      exact absurd hphase (by simp [MiniConn.new])
    · exact absurd h (by simp)

/-- `Connected` comes first, and once. -/
def announces : Mini.Announces where
  announced := fun c => c.announced = true
  stays := fun h hc => (moved h).announced hc
  connected := by
    intro c c' h
    simp only [MiniConn.poll] at h
    split at h
    · rename_i hgreet
      obtain ⟨-, rfl⟩ := Prod.mk.inj h
      exact ⟨by simp [hgreet.2], rfl⟩
    · split at h <;> exact absurd h (by simp)
  stream := by
    intro c ev c' h
    simp only [MiniConn.poll] at h
    split at h
    · exact absurd h (by simp)
    · split at h
      · exact absurd h (by simp)
      · exact absurd h (by simp)
      · obtain ⟨-, rfl⟩ := Prod.mk.inj h
        rfl

/-- The bytes of its streams. -/
def byteStream : Mini.ByteStream where
  content := fun c id => MiniConn.bytesOf id c.read ++ MiniConn.bytesOf id c.unread
  consumed := fun c id => MiniConn.bytesOf id c.read
  front := fun c id => List.prefix_append _ _
  grows := by
    intro c l c' h id
    obtain ⟨bytes, hread, -, hunread⟩ := (moved h).taken id
    rw [hread, List.append_assoc]
    exact (List.prefix_append_right_inj _).mpr hunread
  read := by
    intro c id bytes c' h
    obtain ⟨taken, hread, hcases, -⟩ := (moved h).taken id
    rcases hcases with ⟨rfl, hnil⟩ | hl
    · rw [hnil bytes rfl]
      exact hread
    · rw [(Quinn.ConnLabel.read.inj hl).2]
      exact hread
  keeps := by
    intro c l c' id h hl
    obtain ⟨taken, hread, hcases, -⟩ := (moved h).taken id
    rcases hcases with ⟨rfl, -⟩ | hl'
    · simpa using hread
    · exact absurd hl' (hl _)

/-- The send halves of its streams. -/
def sendHalf : Mini.SendHalf where
  ended := fun c id => (c.send id).isEnded = true
  starved := fun c id => c.send id ≠ .gone ∧ c.credit = 0
  stays := fun h hc => (moved h).ended _ hc
  acked := by
    intro c id c' h
    simp only [MiniConn.poll] at h
    split at h
    · exact absurd h (by simp)
    · split at h
      · exact absurd h (by simp)
      · exact absurd h (by simp)
      · rename_i ev rest hev
        obtain ⟨hev', rfl⟩ := Prod.mk.inj h
        obtain rfl := QuinnEvent.stream.inj (Option.some.inj hev')
        simp [MiniConn.settle, MiniSend.isEnded]
  stopped := by
    intro c id code c' h
    simp only [MiniConn.poll] at h
    split at h
    · exact absurd h (by simp)
    · split at h
      · exact absurd h (by simp)
      · exact absurd h (by simp)
      · rename_i ev rest hev
        obtain ⟨hev', rfl⟩ := Prod.mk.inj h
        obtain rfl := QuinnEvent.stream.inj (Option.some.inj hev')
        simp only [MiniConn.settle]
        split
        · assumption
        · simp [MiniSend.isEnded]
  reset := by
    intro c id code c' h
    simp only [MiniConn.sendReset] at h
    split at h
    · exact absurd h (by simp)
    · obtain ⟨-, rfl⟩ := Prod.mk.inj h
      simp [MiniSend.isEnded]
  write := by
    intro c id data hended hcredit _
    simp only [MiniConn.sendWrite]
    split
    · exact ⟨.closedStream, rfl, by simp⟩
    · rename_i hgone
      rw [if_neg fun hzero => hcredit ⟨hgone, hzero⟩]
      split
      · rename_i hready
        exact absurd hended (by simp [hready, MiniSend.isEnded])
      · exact ⟨.stopped _, rfl, by simp⟩
      · exact ⟨.closedStream, rfl, by simp⟩
  finish := by
    intro c id hended
    simp only [MiniConn.sendFinish]
    split
    · rename_i hready
      exact absurd hended (by simp [hready, MiniSend.isEnded])
    · simp
    · simp

/-- The FIN of a stream is queued, or its acknowledgement is still to be polled. -/
def FinQueued (c : Mini.Conn) (id : StreamId) : Prop :=
  c.send id = .finished ∨ .inr (.finished id) ∈ c.events

/-- Only `finish` makes a send half `finished`. -/
theorem finished_of_update {send : StreamId → MiniSend} {a id : StreamId} {new : MiniSend}
    (hnew : new ≠ .finished) (h : Function.update send a new id = .finished) :
    send id = .finished := by
  by_cases heq : id = a
  · rw [heq, Function.update_self] at h
    exact absurd h hnew
  · rwa [Function.update_of_ne heq] at h

theorem finQueued_of_poll {c : Mini.Conn} {id : StreamId} (h : FinQueued (Mini.poll c).2 id) :
    FinQueued c id := by
  simp only [MiniConn.poll] at h
  split at h
  · exact h
  · split at h
    · exact h
    · rename_i hev
      refine h.imp_right fun hmem => ?_
      rw [hev]
      exact List.mem_cons_of_mem _ hmem
    · rename_i ev rest hev
      refine Or.imp (fun hsend => ?_) (fun hmem => ?_) h
      · simp only [MiniConn.settle] at hsend
        split at hsend
        · exact finished_of_update (by simp) hsend
        · split at hsend
          · exact hsend
          · exact finished_of_update (by simp) hsend
        · exact hsend
      · rw [hev]
        exact List.mem_cons_of_mem _ hmem

theorem finQueued_of_handleEvent {c : Mini.Conn} {ev : Frame} {id : StreamId}
    (h : FinQueued (Mini.connHandleEvent c ev) id) : FinQueued c id := by
  cases ev with
  | ping | handshakeDone => exact h
  | stream a data =>
    simp only [MiniConn.handleEvent] at h
    split at h <;> simpa [FinQueued] using h
  | finAck a =>
    simp only [MiniConn.handleEvent] at h
    split at h
    · rename_i hfin
      rcases h with hsend | hmem
      · exact Or.inl (finished_of_update (by simp) hsend)
      · rcases List.mem_append.mp hmem with hmem | hmem
        · exact Or.inr hmem
        · obtain rfl : id = a := by simpa using hmem
          exact Or.inl hfin
    · exact h
  | stopSending a code =>
    simp only [MiniConn.handleEvent] at h
    split at h
    · exact h
    · exact Or.imp (finished_of_update (by simp)) (by simp) h
  | maxData n => simpa [FinQueued, MiniConn.handleEvent] using h
  | connectionClose =>
    simp only [MiniConn.handleEvent] at h
    split at h
    · simpa [FinQueued] using h
    · exact h
  | streamThenClose a data =>
    simp only [MiniConn.handleEvent] at h
    split at h
    · simpa [FinQueued] using h
    · exact h

/-- A FIN is acknowledged after it was queued. -/
def finAcks : Mini.FinAcks where
  queued := FinQueued
  finishes := by
    intro c l c' id h hl hq
    cases h with
    | poll => exact finQueued_of_poll hq
    | endpointEvent =>
      simp only [MiniConn.pollEndpointEvents] at hq
      split at hq <;> exact hq
    | handleEvent ev => exact finQueued_of_handleEvent hq
    | handleTimeout now =>
      simp only [MiniConn.handleTimeout] at hq
      split at hq <;> exact hq
    | transmit now =>
      simp only [MiniConn.pollTransmit] at hq
      split at hq <;> exact hq
    | close now code reason =>
      simp only [MiniConn.close] at hq
      split at hq <;> exact hq
    | openBi => exact hq
    | acceptBi =>
      simp only [MiniConn.streamsAccept] at hq
      split at hq <;> exact hq
    | read hopen hrun =>
      simp only [MiniConn.recvRead] at hopen
      split at hopen
      · obtain rfl := ReadOpen.chunks.inj hopen
        rw [(chunkRun hrun).1] at hq
        exact hq
      · exact absurd hopen (by simp)
    | readClosed hopen =>
      simp only [MiniConn.recvRead] at hopen
      split at hopen
      · exact absurd hopen (by simp)
      · obtain rfl := ReadOpen.closedStream.inj hopen
        exact hq
    | readIllegal hopen =>
      simp only [MiniConn.recvRead] at hopen
      split at hopen <;> exact absurd hopen (by simp)
    | write a data =>
      simp only [MiniConn.sendWrite] at hq
      split at hq
      · exact hq
      · split at hq
        · exact hq
        · split at hq <;> exact hq
    | finish a =>
      simp only [MiniConn.sendFinish] at hl hq
      split at hq
      · rename_i hready
        have hne : id ≠ a := by
          rintro rfl
          simp [hready, Except.isOk, Except.toBool] at hl
        exact Or.imp_left (fun hsend => (Function.update_of_ne hne ..).symm.trans hsend) hq
      · exact hq
      · exact hq
    | reset a code =>
      simp only [MiniConn.sendReset] at hq
      split at hq
      · exact hq
      · exact Or.imp_left (finished_of_update (by simp)) hq
    | stop a code => exact hq
  reports := by
    intro c id c' h
    simp only [MiniConn.poll] at h
    split at h
    · exact absurd h (by simp)
    · split at h
      · exact absurd h (by simp)
      · exact absurd h (by simp)
      · rename_i ev rest hev
        obtain ⟨hev', -⟩ := Prod.mk.inj h
        obtain rfl := QuinnEvent.stream.inj (Option.some.inj hev')
        exact Or.inr (by rw [hev]; exact List.mem_cons_self)

end Mini

end QuietQuic.Proto
