import QuietQuic.Proto.Mini

/-!
# A quinn-proto to read from

`Inbox` is a second quinn-proto small enough to evaluate, for the receiving side that `Mini` leaves
out: streams become available in order, their bytes arrive with or without FIN, and the peer may
reset them. A stream that was read past its FIN or its reset is gone. Its send halves take
everything, and its endpoint opens no connections.

It meets the laws of the receiving side (`Inbox.acceptOrder`, `Inbox.orderedReads`).
-/

namespace QuietQuic.Proto

/-- What a datagram carries to a connection. -/
inductive InboxFrame where
  | stream (id : StreamId) (data : List UInt8) (fin : Bool)
  | resetStream (id : StreamId) (code : Nat)

/-- A connection: the peer's streams that were accepted and those that can be, in the order they
became available, and the receive halves. -/
structure InboxConn where
  gone : List StreamId
  inside : List StreamId
  distinct : (gone ++ inside).Nodup
  phase : StreamId → RecvPhase
  read : List (StreamId × UInt8)
  unread : List (StreamId × UInt8)
  events : List StreamEvent

namespace InboxConn

open MiniConn (bytesOf takeBytes)

/-- A new connection. -/
def new : InboxConn where
  gone := []
  inside := []
  distinct := List.nodup_nil
  phase := fun _ => .idle
  read := []
  unread := []
  events := []

/-- The receive half of a stream. -/
def view (c : InboxConn) (id : StreamId) : RecvView where
  read := bytesOf id c.read
  unread := bytesOf id c.unread
  phase := c.phase id

/-- Set how far a receive half has come. -/
def setPhase (c : InboxConn) (id : StreamId) (phase : RecvPhase) : InboxConn :=
  { c with phase := Function.update c.phase id phase }

/-- Where a stream stands once a frame has arrived. -/
def phaseAfter (fin : Bool) : RecvPhase := if fin then .finArrived else .receiving

/-- `handle_event`. -/
def handleEvent (c : InboxConn) : InboxFrame → InboxConn
  | .stream id data fin =>
    match c.phase id with
    | .idle =>
      if h : id ∈ c.gone ++ c.inside then c
      else
        { c with
          inside := c.inside ++ [id]
          distinct := by
            rw [← List.append_assoc]
            exact c.distinct.append (List.nodup_singleton id) (by simpa using h)
          phase := Function.update c.phase id (phaseAfter fin)
          unread := c.unread ++ data.map (id, ·)
          events := c.events ++ [.opened .bi] }
    | .receiving =>
      { c with
        phase := Function.update c.phase id (phaseAfter fin)
        unread := c.unread ++ data.map (id, ·)
        events := c.events ++ [.readable id] }
    | _ => c
  | .resetStream id code =>
    match c.phase id with
    | .receiving | .finArrived =>
      { c with
        phase := Function.update c.phase id (.reset code)
        events := c.events ++ [.readable id] }
    | _ => c

/-- `poll`. -/
def poll (c : InboxConn) : Option QuinnEvent × InboxConn :=
  match c.events with
  | [] => (none, c)
  | ev :: rest => (some (.stream ev), { c with events := rest })

/-- `streams().accept(Dir::Bi)`. -/
def streamsAccept (c : InboxConn) : Option StreamId × InboxConn :=
  match h : c.inside with
  | [] => (none, c)
  | id :: rest =>
    (some id, { c with
      gone := c.gone ++ [id]
      inside := rest
      distinct := by simpa [h] using c.distinct })

/-- `recv_stream(id).read(true)`. -/
def recvRead (c : InboxConn) (id : StreamId) : ReadOpen (InboxConn × StreamId) InboxConn :=
  match c.phase id with
  | .receiving | .finArrived | .reset _ => .chunks (c, id)
  | .idle | .finRead | .closed => .closedStream c

/-- `Chunks::next`. -/
def chunksNext (ch : InboxConn × StreamId) (n : Nat) : ChunkAnswer × (InboxConn × StreamId) :=
  match ch.1.phase ch.2 with
  | .reset code => (.reset code, ch.1.setPhase ch.2 .closed, ch.2)
  | .receiving | .finArrived =>
    match takeBytes ch.2 n ch.1.unread with
    | ([], _) =>
      if ch.1.phase ch.2 = .finArrived then (.finished, ch.1.setPhase ch.2 .finRead, ch.2)
      else (.blocked, ch)
    | (bytes, unread) =>
      (.chunk bytes, { ch.1 with read := ch.1.read ++ bytes.map (ch.2, ·), unread := unread }, ch.2)
  | .idle | .finRead | .closed => (.blocked, ch)

/-- `recv_stream(id).stop`. -/
def recvStop (c : InboxConn) (id : StreamId) (_ : Nat) : Option Unit × InboxConn :=
  match c.phase id with
  | .receiving | .finArrived | .reset _ => (some (), c.setPhase id .closed)
  | .idle | .finRead | .closed => (none, c)

/-! ### What the calls do -/

/-- A chunk of what is unread, or no byte left. -/
theorem chunksNext_chunk {ch ch' : InboxConn × StreamId} {n : Nat} {bytes : List UInt8}
    (h : chunksNext ch n = (.chunk bytes, ch')) :
    bytes ≠ [] ∧ bytes = (takeBytes ch.2 n ch.1.unread).1 ∧
      ch' = ({ ch.1 with
        read := ch.1.read ++ bytes.map (ch.2, ·)
        unread := (takeBytes ch.2 n ch.1.unread).2 }, ch.2) := by
  unfold chunksNext at h
  split at h
  case h_1 => exact absurd h (by simp)
  case h_2 | h_3 =>
    split at h
    · split at h <;> exact absurd h (by simp)
    · rename_i bytes' unread hne htake
      obtain ⟨hbytes, rfl⟩ := Prod.mk.inj h
      obtain rfl := ChunkAnswer.chunk.inj hbytes
      rw [htake]
      exact ⟨hne, rfl, rfl⟩
  all_goals exact absurd h (by simp)

/-- No call of `next` brings a byte back. -/
theorem chunksNext_unread (ch : InboxConn × StreamId) (n : Nat) :
    (chunksNext ch n).2.1.unread.length ≤ ch.1.unread.length := by
  have htake := (MiniConn.takeBytes_length ch.2 n ch.1.unread).2
  unfold chunksNext
  split
  case h_1 => exact le_rfl
  case h_2 | h_3 =>
    split
    · split <;> exact le_rfl
    · rename_i bytes unread hne heq
      rw [heq] at htake
      dsimp only at htake ⊢
      omega
  all_goals exact le_rfl

theorem streamsAccept_some {c c' : InboxConn} {id : StreamId}
    (h : c.streamsAccept = (some id, c')) :
    c.inside = id :: c'.inside ∧ c'.gone = c.gone ++ [id] ∧ c'.events = c.events := by
  unfold streamsAccept at h
  split at h
  · exact absurd h (by simp)
  · rename_i id' rest hinside
    obtain ⟨hid, rfl⟩ := Prod.mk.inj h
    obtain rfl := Option.some.inj hid
    exact ⟨hinside, rfl, rfl⟩

theorem streamsAccept_none {c c' : InboxConn} (h : c.streamsAccept = (none, c')) :
    c.inside = [] ∧ c' = c := by
  unfold streamsAccept at h
  split at h
  · rename_i hinside
    exact ⟨hinside, (Prod.mk.inj h).2.symm⟩
  · exact absurd h (by simp)

end InboxConn

/-- **A quinn-proto to read from.** -/
abbrev Inbox : Quinn where
  Ep := Unit
  Conn := InboxConn
  Chunks := InboxConn × StreamId
  Incoming := Unit
  ConnEvent := InboxFrame
  EpEvent := Unit
  QuicServer := Unit
  QuicClient := Unit
  TokenKey := Unit
  new := ()
  handle := fun ep _ _ _ _ => ⟨ep, [], (none, [])⟩
  accept := fun ep _ _ _ => ⟨ep, [], (none, [])⟩
  connect := fun ep _ _ _ _ => ⟨ep, [], .error "no connection"⟩
  epHandleEvent := fun ep _ _ => ⟨ep, [], none⟩
  isDrainedEvent := fun _ => true
  poll := InboxConn.poll
  pollEndpointEvents := fun c => (none, c)
  connHandleEvent := InboxConn.handleEvent
  pollTimeout := fun _ => none
  handleTimeout := fun c _ => c
  pollTransmit := fun c _ => (none, c)
  isClosed := fun _ => false
  isDrained := fun _ => false
  remoteAddress := fun _ => ⟨.v4 0, 0⟩
  close := fun c _ _ _ => c
  streamsOpen := fun c => (none, c)
  streamsAccept := InboxConn.streamsAccept
  recvRead := InboxConn.recvRead
  chunksNext := InboxConn.chunksNext
  chunksFinalize := Prod.fst
  sendWrite := fun c _ data => (.ok data.length, c)
  sendFinish := fun c _ => (.ok (), c)
  sendReset := fun c _ _ => (some (), c)
  recvStop := InboxConn.recvStop
  pollRank := fun c => c.events.length
  poll_lt := by
    intro c e c' h
    unfold InboxConn.poll at h
    split at h
    · exact absurd h (by simp)
    · rename_i hev
      obtain ⟨-, rfl⟩ := Prod.mk.inj h
      simp [hev]
  accept_le := by
    intro c o c' h
    cases o with
    | none =>
      obtain ⟨-, rfl⟩ := InboxConn.streamsAccept_none h
      exact le_rfl
    | some id =>
      obtain ⟨-, -, hevents⟩ := InboxConn.streamsAccept_some h
      exact (congrArg List.length hevents).le
  acceptRank := fun c => c.inside.length
  accept_lt := by
    intro c id c' h
    obtain ⟨hinside, -⟩ := InboxConn.streamsAccept_some h
    rw [hinside]
    exact Nat.lt_succ_self _
  endpointRank := fun _ => 0
  endpoint_lt := fun c ev c' h => absurd h (by simp)
  transmitRank := fun _ => 0
  transmit_lt := fun c now t c' h => absurd h (by simp)
  nextChunk := by
    intro ch n bytes ch' h
    obtain ⟨hne, rfl, -⟩ := InboxConn.chunksNext_chunk h
    exact ⟨List.length_pos_iff.mpr hne, (MiniConn.takeBytes_length ch.2 n ch.1.unread).1⟩
  readRank := fun c => c.unread.length
  chunksRank := fun ch => ch.1.unread.length
  read_le := by
    intro c id ch h
    unfold InboxConn.recvRead at h
    split at h
    case h_1 | h_2 | h_3 =>
      obtain rfl := ReadOpen.chunks.inj h
      exact le_rfl
    all_goals exact absurd h (by simp)
  chunk_lt := by
    intro ch n bytes ch' h
    obtain ⟨hne, rfl, rfl⟩ := InboxConn.chunksNext_chunk h
    have hlen := (MiniConn.takeBytes_length ch.2 n ch.1.unread).2
    have hpos := List.length_pos_iff.mpr hne
    dsimp only
    omega
  next_le := InboxConn.chunksNext_unread
  finalize_le := fun _ => le_rfl
  writeSome := by
    intro c id data n c' hne h
    obtain ⟨hn, -⟩ := Prod.mk.inj h
    rw [← Except.ok.inj hn]
    exact ⟨List.length_pos_iff.mpr hne, le_rfl⟩

namespace InboxConn

open MiniConn (bytesOf takeBytes bytesOf_append bytesOf_map bytesOf_takeBytes)

@[simp] theorem view_setPhase (c : InboxConn) (id : StreamId) (phase : RecvPhase) :
    (c.setPhase id phase).view id = { c.view id with phase := phase } := by
  simp [view, setPhase]

theorem view_setPhase_ne (c : InboxConn) {id a : StreamId} (h : id ≠ a) (phase : RecvPhase) :
    (c.setPhase a phase).view id = c.view id := by
  simp [view, setPhase, h]

/-- Calls that leave the streams alone. -/
theorem poll_frame (c : InboxConn) :
    c.poll.2.gone = c.gone ∧ c.poll.2.inside = c.inside ∧ ∀ id, c.poll.2.view id = c.view id := by
  unfold poll
  split <;> exact ⟨rfl, rfl, fun _ => rfl⟩

theorem streamsAccept_view (c : InboxConn) (id : StreamId) :
    c.streamsAccept.2.view id = c.view id := by
  unfold streamsAccept
  split <;> rfl

/-- A stop touches the phase of its stream, where it was readable. -/
theorem recvStop_cases (c : InboxConn) (id : StreamId) (code : Nat) :
    (c.recvStop id code).2 = c ∨
      (c.phase id).Readable ∧ (c.recvStop id code).2 = c.setPhase id .closed := by
  unfold recvStop
  split
  case h_1 hphase | h_2 hphase | h_3 hphase =>
    refine .inr ⟨?_, rfl⟩
    rw [hphase]
    trivial
  all_goals exact .inl rfl

/-- What taking bytes does to the views. -/
theorem view_taken (c : InboxConn) (id a : StreamId) (n : Nat) :
    ({ c with
      read := c.read ++ (takeBytes a n c.unread).1.map (a, ·)
      unread := (takeBytes a n c.unread).2 } : InboxConn).view id =
      { read := bytesOf id c.read ++ if a = id then (takeBytes a n c.unread).1 else []
        unread := bytesOf id (takeBytes a n c.unread).2
        phase := c.phase id } := by
  simp [view, bytesOf_append, bytesOf_map]

/-- A call of `next` stays with its stream. -/
structure Aside (ch ch' : InboxConn × StreamId) : Prop where
  stream : ch'.2 = ch.2
  gone : ch'.1.gone = ch.1.gone
  inside : ch'.1.inside = ch.1.inside
  others : ∀ id, id ≠ ch.2 → ch'.1.view id = ch.1.view id

theorem chunksNext_aside (ch : InboxConn × StreamId) (n : Nat) : Aside ch (chunksNext ch n).2 := by
  unfold chunksNext
  split
  case h_1 => exact ⟨rfl, rfl, rfl, fun id h => view_setPhase_ne _ h _⟩
  case h_2 | h_3 =>
    split
    · split
      · exact ⟨rfl, rfl, rfl, fun id h => by first | rfl | exact view_setPhase_ne _ h _⟩
      · exact ⟨rfl, rfl, rfl, fun id h => by first | rfl | exact view_setPhase_ne _ h _⟩
    · rename_i bytes unread hne htake
      refine ⟨rfl, rfl, rfl, fun id h => ?_⟩
      have hview := view_taken ch.1 id ch.2 n
      rw [htake] at hview
      refine hview.trans ?_
      have hrest := bytesOf_takeBytes id ch.2 n ch.1.unread
      rw [htake, if_neg (Ne.symm h)] at hrest
      simp [view, Ne.symm h, hrest]
  all_goals exact ⟨rfl, rfl, rfl, fun id h => rfl⟩

theorem chunkRun_aside {ch ch' : Inbox.Chunks} {bytes : List UInt8}
    (h : Inbox.ChunkRun ch bytes ch') : Aside ch ch' := by
  have hnext : ∀ {ch ch' : Inbox.Chunks} {n answer},
      Inbox.chunksNext ch n = (answer, ch') → Aside ch ch' := by
    intro ch ch' n answer h
    have := chunksNext_aside ch n
    rwa [show chunksNext ch n = (answer, ch') from h] at this
  induction h with
  | nil ch => exact ⟨rfl, rfl, rfl, fun _ _ => rfl⟩
  | chunk h _ ih =>
    have hfirst := hnext h
    refine ⟨ih.stream.trans hfirst.stream, ih.gone.trans hfirst.gone,
      ih.inside.trans hfirst.inside, fun id hne => ?_⟩
    exact (ih.others id (by rw [hfirst.stream]; exact hne)).trans (hfirst.others id hne)
  | finished h => exact hnext h
  | blocked h => exact hnext h
  | reset h => exact hnext h

/-- A session is on the stream it was opened for. -/
theorem recvRead_chunks {c : InboxConn} {id : StreamId} {ch : InboxConn × StreamId}
    (h : c.recvRead id = .chunks ch) : ch = (c, id) ∧ (c.phase id).Readable := by
  unfold recvRead at h
  split at h
  case h_1 hphase | h_2 hphase | h_3 hphase =>
    refine ⟨(ReadOpen.chunks.inj h).symm, ?_⟩
    rw [hphase]
    trivial
  all_goals exact absurd h (by simp)

theorem recvRead_closed {c c' : InboxConn} {id : StreamId}
    (h : c.recvRead id = .closedStream c') : c' = c ∧ ¬ (c.phase id).Readable := by
  unfold recvRead at h
  split at h
  case h_4 hphase | h_5 hphase | h_6 hphase =>
    refine ⟨(ReadOpen.closedStream.inj h).symm, ?_⟩
    rw [hphase]
    exact fun h => h
  all_goals exact absurd h (by simp)

theorem recvRead_ordered (c c' : InboxConn) {id : StreamId} :
    c.recvRead id ≠ .illegalOrderedRead c' := by
  unfold recvRead
  split <;> simp

/-- A stream with a byte unread hands one out. -/
theorem takeBytes_ne_nil {id : StreamId} {n : Nat} (hn : 0 < n) :
    ∀ {l : List (StreamId × UInt8)}, (takeBytes id n l).1 = [] → bytesOf id l = []
  | [], _ => rfl
  | x :: l, h => by
    obtain ⟨m, rfl⟩ : ∃ m, n = m + 1 := ⟨n - 1, by omega⟩
    by_cases hx : x.1 = id
    · simp [takeBytes, hx] at h
    · have hrest := takeBytes_ne_nil hn (by simpa [takeBytes, hx] using h)
      simpa [bytesOf, hx] using hrest

/-- **`next` answers by what the session sees.** -/
theorem chunksNext_spec (c : InboxConn) (id : StreamId) {n : Nat} (hn : 0 < n)
    (hphase : (c.phase id).Readable) :
    RecvView.Next n (c.view id) (chunksNext (c, id) n).1 ((chunksNext (c, id) n).2.1.view id) := by
  have htaken : (∃ rest, takeBytes id n c.unread = ([], rest)) ∨
      (takeBytes id n c.unread).1 ≠ [] := by
    cases htake : takeBytes id n c.unread with
    | mk bytes rest =>
      cases bytes with
      | nil => exact .inl ⟨rest, rfl⟩
      | cons b bytes => exact .inr (by simp)
  have hempty : ∀ {rest}, takeBytes id n c.unread = ([], rest) → bytesOf id c.unread = [] :=
    fun h => takeBytes_ne_nil hn (by rw [h])
  -- a chunk, in either phase that hands one out
  have hchunk : c.phase id = .receiving ∨ c.phase id = .finArrived →
      (takeBytes id n c.unread).1 ≠ [] →
      RecvView.Next n (c.view id) (.chunk (takeBytes id n c.unread).1)
        (({ c with
          read := c.read ++ (takeBytes id n c.unread).1.map (id, ·)
          unread := (takeBytes id n c.unread).2 } : InboxConn).view id) := by
    intro hp hne
    rw [view_taken, if_pos rfl]
    have hsplit := bytesOf_takeBytes id id n c.unread
    rw [if_pos rfl] at hsplit
    rw [view, hsplit]
    exact .chunk hp hne
  cases hp : c.phase id with
  | idle | finRead | closed => exact absurd hphase (by simp [hp, RecvPhase.Readable])
  | reset code =>
    have hview : c.view id = ⟨bytesOf id c.read, bytesOf id c.unread, .reset code⟩ := by
      rw [view, hp]
    simp only [chunksNext, hp, view_setPhase]
    rw [hview]
    exact .reset
  | receiving =>
    rcases htaken with ⟨rest, htake⟩ | hne
    · have hview : c.view id = ⟨bytesOf id c.read, [], .receiving⟩ := by
        rw [view, hp, hempty htake]
      simp only [chunksNext, hp, htake]
      rw [if_neg (by simp), hview]
      exact .blocked
    · simp only [chunksNext, hp]
      exact hchunk (.inl hp) hne
  | finArrived =>
    rcases htaken with ⟨rest, htake⟩ | hne
    · have hview : c.view id = ⟨bytesOf id c.read, [], .finArrived⟩ := by
        rw [view, hp, hempty htake]
      simp only [chunksNext, hp, htake]
      rw [if_pos trivial, view_setPhase, hview]
      exact .finished
    · simp only [chunksNext, hp]
      exact hchunk (.inr hp) hne

/-- A datagram makes streams available behind those that were. -/
theorem handleEvent_order (c : InboxConn) (frame : InboxFrame) :
    (c.handleEvent frame).gone = c.gone ∧
      ∃ more, (c.handleEvent frame).inside = c.inside ++ more := by
  unfold handleEvent
  split
  · split
    · split
      · exact ⟨rfl, [], (List.append_nil _).symm⟩
      · exact ⟨rfl, _, rfl⟩
    · exact ⟨rfl, [], (List.append_nil _).symm⟩
    · exact ⟨rfl, [], (List.append_nil _).symm⟩
  · split <;> exact ⟨rfl, [], (List.append_nil _).symm⟩

/-- And bytes behind those that arrived. -/
theorem handleEvent_arrives (c : InboxConn) (frame : InboxFrame) (id : StreamId) :
    (c.view id).Arrives ((c.handleEvent frame).view id) := by
  have hsame : (c.view id).Arrives (c.view id) := ⟨rfl, ⟨[], by simp⟩, .same _⟩
  -- the view of `id` once `data` of stream `a` is buffered
  have hdata : ∀ (a : StreamId) (data : List UInt8) (phase : RecvPhase) (gone inside distinct
      events), (a = id → (c.phase id = .idle ∨ c.phase id = .receiving) ∧
        (c.phase id).Becomes phase) →
      (c.view id).Arrives (InboxConn.view
        { gone, inside, distinct
          phase := Function.update c.phase a phase
          read := c.read
          unread := c.unread ++ data.map (a, ·)
          events } id) := by
    intro a data phase gone inside distinct events h
    by_cases ha : a = id
    · subst ha
      obtain ⟨hbefore, hphase⟩ := h rfl
      refine ⟨rfl, ⟨data, by simp [view, bytesOf_append, bytesOf_map], ?_⟩, by simpa [view] using hphase⟩
      exact hbefore.imp_right .inl
    · refine ⟨rfl, ⟨[], by simp [view, bytesOf_append, bytesOf_map, ha], by simp⟩, ?_⟩
      simpa [view, Ne.symm ha] using .same _
  unfold handleEvent
  split
  · rename_i a data fin
    split
    · rename_i hidle
      split
      · exact hsame
      · refine hdata a data _ _ _ _ _ fun ha => ?_
        subst ha
        refine ⟨.inl hidle, hidle ▸ .opened ?_⟩
        cases fin <;> trivial
    · rename_i hrecv
      refine hdata a data _ _ _ _ _ fun ha => ?_
      subst ha
      refine ⟨.inr hrecv, ?_⟩
      rw [hrecv]
      cases fin with
      | true => exact .fin
      | false => exact .same _
    · exact hsame
  · rename_i a code
    have hreset : (c.phase a = .receiving ∨ c.phase a = .finArrived) →
        (c.view id).Arrives ((c.setPhase a (.reset code)).view id) := by
      intro h
      by_cases ha : a = id
      · subst ha
        rw [view_setPhase]
        refine ⟨rfl, ⟨[], by simp⟩, ?_⟩
        show (c.phase a).Becomes (.reset code)
        rcases h with h | h
        · exact h ▸ .reset code
        · exact h ▸ .finReset code
      · rw [view_setPhase_ne c (Ne.symm ha)]
        exact hsame
    split
    · rename_i h
      exact hreset (.inl h)
    · rename_i h
      exact hreset (.inr h)
    · exact hsame

end InboxConn

namespace Inbox

open InboxConn

/-- Calls other than an accept make streams available at most. -/
theorem step_order {c c' : Inbox.Conn} {l : Inbox.ConnLabel} (h : Inbox.ConnStep c l c')
    (hl : ∀ id, l ≠ .acceptBi id) : c'.gone = c.gone ∧ ∃ more, c'.inside = c.inside ++ more := by
  have hsame : ∀ {c' : InboxConn}, c'.gone = c.gone → c'.inside = c.inside →
      c'.gone = c.gone ∧ ∃ more, c'.inside = c.inside ++ more :=
    fun hgone hinside => ⟨hgone, [], by rw [hinside, List.append_nil]⟩
  cases h with
  | poll => exact hsame c.poll_frame.1 c.poll_frame.2.1
  | handleEvent ev => exact c.handleEvent_order ev
  | acceptBi => exact absurd rfl (hl _)
  | read hopen hrun =>
    obtain ⟨rfl, -⟩ := recvRead_chunks hopen
    have haside := chunkRun_aside hrun
    exact hsame haside.gone haside.inside
  | readClosed h =>
    obtain ⟨rfl, -⟩ := recvRead_closed h
    exact hsame rfl rfl
  | readIllegal h => exact absurd h (recvRead_ordered c _)
  | stop id code =>
    show (c.recvStop id code).2.gone = c.gone ∧ ∃ more, (c.recvStop id code).2.inside = _
    rcases c.recvStop_cases id code with h | ⟨-, h⟩
    · rw [h]
      exact hsame rfl rfl
    · rw [h]
      exact hsame rfl rfl
  | endpointEvent | handleTimeout | transmit | close | openBi | write | finish | reset =>
    exact hsame rfl rfl

/-- **Streams are accepted in order.** -/
def acceptOrder : Inbox.AcceptOrder where
  order := fun c => c.gone ++ c.inside
  inside := InboxConn.inside
  distinct := InboxConn.distinct
  back := fun c => List.suffix_append _ _
  takes := by
    intro c id c' h
    obtain ⟨hinside, hgone, -⟩ := streamsAccept_some h
    exact ⟨hinside, by rw [hgone, hinside, List.append_assoc, List.singleton_append]⟩
  empty := by
    intro c c' h
    obtain ⟨hinside, rfl⟩ := streamsAccept_none h
    exact ⟨hinside, hinside, rfl⟩
  arrives := by
    intro c l c' h hl
    obtain ⟨hgone, more, hinside⟩ := step_order h hl
    exact ⟨more, by rw [hgone, hinside, List.append_assoc], hinside⟩

/-- **Reads deliver what arrived.** -/
def orderedReads : Inbox.OrderedReads where
  view := InboxConn.view
  session := fun ch => (ch.2, ch.1.view ch.2)
  opens := by
    intro c id ch h
    obtain ⟨rfl, hphase⟩ := recvRead_chunks h
    exact ⟨rfl, hphase⟩
  refuses := by
    intro c id c' h
    obtain ⟨rfl, hphase⟩ := recvRead_closed h
    exact ⟨rfl, hphase⟩
  ordered := fun {c id c'} => recvRead_ordered c c'
  next := by
    intro ch n hn hphase
    have hstream := (chunksNext_aside ch n).stream
    refine ⟨hstream, ?_⟩
    have hspec := chunksNext_spec ch.1 ch.2 hn hphase
    show RecvView.Next n (ch.1.view ch.2) (chunksNext ch n).1
      ((chunksNext ch n).2.1.view (chunksNext ch n).2.2)
    rw [hstream]
    exact hspec
  finalize := fun _ => rfl
  arrives := by
    intro c l c' id h hread hstop
    have hsame : ∀ {c' : InboxConn}, c'.view id = c.view id → (c.view id).Arrives (c'.view id) :=
      fun h => by rw [h]; exact ⟨rfl, ⟨[], by simp⟩, .same _⟩
    cases h with
    | poll => exact hsame (c.poll_frame.2.2 id)
    | handleEvent ev => exact c.handleEvent_arrives ev id
    | acceptBi => exact hsame (c.streamsAccept_view id)
    | read hopen hrun =>
      obtain ⟨rfl, -⟩ := recvRead_chunks hopen
      refine hsame ((chunkRun_aside hrun).others id ?_)
      rintro rfl
      exact hread _ rfl
    | readClosed h =>
      obtain ⟨rfl, -⟩ := recvRead_closed h
      exact hsame rfl
    | readIllegal h => exact absurd h (recvRead_ordered c _)
    | stop a code =>
      have hne : id ≠ a := by
        rintro rfl
        exact hstop rfl
      rcases c.recvStop_cases a code with h | ⟨-, h⟩
      · exact hsame (congrArg (InboxConn.view · id) h)
      · exact hsame ((congrArg (InboxConn.view · id) h).trans (view_setPhase_ne c hne _))
    | endpointEvent | handleTimeout | transmit | close | openBi | write | finish | reset =>
      exact hsame rfl
  stop := by
    intro c c' id h
    cases h with
    | stop _ code =>
      rcases c.recvStop_cases id code with h | ⟨hphase, h⟩
      · exact .inl (congrArg (InboxConn.view · id) h)
      · exact .inr ⟨hphase, (congrArg (InboxConn.view · id) h).trans (view_setPhase c id _)⟩

end Inbox

end QuietQuic.Proto
