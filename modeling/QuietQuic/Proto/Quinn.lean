import Mathlib.Data.List.Nodup
import Mathlib.Logic.Relation
import QuietQuic.Proto.Outcome

/-!
# quinn-proto, as the code sees it

quinn-proto is not part of this repository, so it is a parameter: `Quinn` is its endpoint, its
connections and its chunked reads as arbitrary state types, with one function for each call the
code makes. A call that is `&mut self` in Rust returns the new state. Every function may depend on
the whole state, so the functions range over every deterministic behaviour, and a state type that
holds a script ranges over every sequence of answers.

The recording CID generator sits inside the endpoint calls: each of them returns the CIDs it
minted, in order. The server config `set_server_config` installs is kept beside the endpoint state
(`Endpoint.serverConfig`) and handed to the two calls that read it.

The `rank` fields say that quinn-proto's own iterators end: `poll`, `poll_endpoint_events`,
`poll_transmit`, `accept` and a stream's chunks cannot answer `Some` for ever. `nextChunk` and
`writeSome` say what `Chunks::next` and `SendStream::write` document: a chunk is not empty and not
longer than asked, and an accepted write takes between one and all of the bytes offered.

`EpStep` and `ConnStep` list the calls, with a label for what a law may depend on. The laws a
result assumes about quinn-proto are structures over them (`FreshCids`, `Slots`, ..), each
with the auxiliary predicates on quinn-proto's state it is stated in.
-/

namespace QuietQuic.Proto

open QuietQuic.Lib

/-- `LOCAL_CID_LEN`: the length of the CIDs an endpoint issues for its own connections. -/
def LOCAL_CID_LEN : Nat := 8

/-- `quinn_proto::TransportConfig`, the one field this repository sets. -/
structure TransportConfig where
  maxConcurrentUniStreams : Nat
  deriving DecidableEq

/-- `PskServerConfig`: a TLS server config that derives the Initial keys from a PSK. -/
structure PskServerConfig (QuicServer : Type) where
  inner : QuicServer
  psk : Psk

/-- `quinn_proto::ServerConfig`. -/
structure TransportServerConfig (QuicServer TokenKey : Type) where
  crypto : PskServerConfig QuicServer
  tokenKey : TokenKey
  transport : TransportConfig

/-- `quinn_proto::ClientConfig`, with the wrapped TLS client config and the first-flight DCID. -/
structure TransportClientConfig (QuicClient : Type) where
  inner : QuicClient
  psk : Psk
  transport : TransportConfig
  initialDstCid : ConnectionId

/-- `quinn_proto::StreamEvent`. -/
inductive StreamEvent where
  | opened (dir : Dir)
  | readable (id : StreamId)
  | writable (id : StreamId)
  | finished (id : StreamId)
  | stopped (id : StreamId) (errorCode : Nat)
  | available (dir : Dir)
  deriving DecidableEq

/-- `quinn_proto::Event`. -/
inductive QuinnEvent where
  | handshakeDataReady
  | connected
  | connectionLost (reason : QuinnConnectionError)
  | stream (event : StreamEvent)
  | datagramReceived
  | datagramsUnblocked
  deriving DecidableEq

/-- `quinn_proto::DatagramEvent`. -/
inductive DatagramEvent (Incoming ConnEvent : Type) where
  | newConnection (incoming : Incoming)
  | connectionEvent (handle : QuinnHandle) (event : ConnEvent)
  | response

/-- What `RecvStream::read` answers: a read session, or an error. -/
inductive ReadOpen (Chunks Conn : Type) where
  | chunks (chunks : Chunks)
  | closedStream (conn : Conn)
  | illegalOrderedRead (conn : Conn)

/-- What `Chunks::next` answers. -/
inductive ChunkAnswer where
  | chunk (bytes : List UInt8)
  | finished
  | blocked
  | reset (code : Nat)

/-- `quinn_proto::WriteError`. -/
inductive WriteError where
  | blocked
  | stopped (code : Nat)
  | closedStream
  deriving DecidableEq

/-- `quinn_proto::FinishError`. -/
inductive FinishError where
  | stopped (code : Nat)
  | closedStream
  deriving DecidableEq

/-- The result of an endpoint call: the new state, the CIDs minted, the answer. -/
structure Minting (Ep α : Type) where
  ep : Ep
  minted : List ConnectionId
  out : α

/-- quinn-proto. -/
structure Quinn where
  /-- `quinn_proto::Endpoint`, without its server config. -/
  Ep : Type
  /-- `quinn_proto::Connection`. -/
  Conn : Type
  /-- `quinn_proto::Chunks`, with the connection it borrows. -/
  Chunks : Type
  Incoming : Type
  /-- `quinn_proto::ConnectionEvent`. -/
  ConnEvent : Type
  /-- `quinn_proto::EndpointEvent`. -/
  EpEvent : Type
  QuicServer : Type
  QuicClient : Type
  TokenKey : Type
  /-- `Endpoint::new`. -/
  new : Ep
  handle : Ep → Option (TransportServerConfig QuicServer TokenKey) → Instant → SocketAddr →
    List UInt8 → Minting Ep (Option (DatagramEvent Incoming ConnEvent) × List UInt8)
  accept : Ep → Option (TransportServerConfig QuicServer TokenKey) → Incoming → Instant →
    Minting Ep (Option (QuinnHandle × Conn) × List UInt8)
  connect : Ep → Instant → TransportClientConfig QuicClient → SocketAddr → String →
    Minting Ep (Except String (QuinnHandle × Conn))
  /-- `Endpoint::handle_event`. -/
  epHandleEvent : Ep → QuinnHandle → EpEvent → Minting Ep (Option ConnEvent)
  /-- `EndpointEvent::is_drained`. -/
  isDrainedEvent : EpEvent → Bool
  poll : Conn → Option QuinnEvent × Conn
  pollEndpointEvents : Conn → Option EpEvent × Conn
  /-- `Connection::handle_event`. -/
  connHandleEvent : Conn → ConnEvent → Conn
  /-- `Connection::poll_timeout`, which only reads. -/
  pollTimeout : Conn → Option Instant
  handleTimeout : Conn → Instant → Conn
  /-- `Connection::poll_transmit` with `max_datagrams = 1`: a destination and the buffer. -/
  pollTransmit : Conn → Instant → Option (SocketAddr × List UInt8) × Conn
  isClosed : Conn → Bool
  isDrained : Conn → Bool
  remoteAddress : Conn → SocketAddr
  close : Conn → Instant → Nat → List UInt8 → Conn
  /-- `streams().open(Dir::Bi)`. -/
  streamsOpen : Conn → Option StreamId × Conn
  /-- `streams().accept(Dir::Bi)`. -/
  streamsAccept : Conn → Option StreamId × Conn
  /-- `recv_stream(id).read(true)`. -/
  recvRead : Conn → StreamId → ReadOpen Chunks Conn
  chunksNext : Chunks → Nat → ChunkAnswer × Chunks
  chunksFinalize : Chunks → Conn
  sendWrite : Conn → StreamId → List UInt8 → Except WriteError Nat × Conn
  sendFinish : Conn → StreamId → Except FinishError Unit × Conn
  sendReset : Conn → StreamId → Nat → Option Unit × Conn
  recvStop : Conn → StreamId → Nat → Option Unit × Conn
  pollRank : Conn → Nat
  poll_lt : ∀ c e c', poll c = (some e, c') → pollRank c' < pollRank c
  accept_le : ∀ c o c', streamsAccept c = (o, c') → pollRank c' ≤ pollRank c
  acceptRank : Conn → Nat
  accept_lt : ∀ c id c', streamsAccept c = (some id, c') → acceptRank c' < acceptRank c
  endpointRank : Conn → Nat
  endpoint_lt : ∀ c ev c', pollEndpointEvents c = (some ev, c') →
    endpointRank c' < endpointRank c ∧
      ∀ q h cev, (epHandleEvent q h ev).out = some cev →
        endpointRank (connHandleEvent c' cev) < endpointRank c
  transmitRank : Conn → Nat
  transmit_lt : ∀ c now t c', pollTransmit c now = (some t, c') → transmitRank c' < transmitRank c
  nextChunk : ∀ ch n bytes ch', chunksNext ch n = (.chunk bytes, ch') →
    0 < bytes.length ∧ bytes.length ≤ n
  /-- How many chunks a connection, or a read session, can still hand out. -/
  readRank : Conn → Nat
  chunksRank : Chunks → Nat
  read_le : ∀ c id ch, recvRead c id = .chunks ch → chunksRank ch ≤ readRank c
  chunk_lt : ∀ ch n bytes ch', chunksNext ch n = (.chunk bytes, ch') →
    chunksRank ch' < chunksRank ch
  next_le : ∀ ch n, chunksRank (chunksNext ch n).2 ≤ chunksRank ch
  finalize_le : ∀ ch, readRank (chunksFinalize ch) ≤ chunksRank ch
  writeSome : ∀ c id data n c', data ≠ [] → sendWrite c id data = (.ok n, c') →
    0 < n ∧ n ≤ data.length

namespace Quinn

variable (Q : Quinn)

/-- The server config quinn-proto is installed with. -/
abbrev ServerConfig := TransportServerConfig Q.QuicServer Q.TokenKey

/-! ## The endpoint's calls -/

/-- What an endpoint call does to the slab. -/
inductive SlabEffect where
  | keeps
  | allocates (slot : QuinnHandle)
  | releases (slot : QuinnHandle)

/-- One call on the endpoint: what it does to the slab, and the CIDs it mints. -/
inductive EpStep : Q.Ep → SlabEffect → List ConnectionId → Q.Ep → Prop
  | handle (q cfg now src data) :
      EpStep q .keeps (Q.handle q cfg now src data).minted (Q.handle q cfg now src data).ep
  | acceptOk (q cfg incoming now slot conn buf)
      (h : (Q.accept q cfg incoming now).out = (some (slot, conn), buf)) :
      EpStep q (.allocates slot) (Q.accept q cfg incoming now).minted
        (Q.accept q cfg incoming now).ep
  | acceptErr (q cfg incoming now buf) (h : (Q.accept q cfg incoming now).out = (none, buf)) :
      EpStep q .keeps (Q.accept q cfg incoming now).minted (Q.accept q cfg incoming now).ep
  | connectOk (q now cfg remote name slot conn)
      (h : (Q.connect q now cfg remote name).out = .ok (slot, conn)) :
      EpStep q (.allocates slot) (Q.connect q now cfg remote name).minted
        (Q.connect q now cfg remote name).ep
  | drained (q slot ev) (h : Q.isDrainedEvent ev = true) :
      EpStep q (.releases slot) (Q.epHandleEvent q slot ev).minted (Q.epHandleEvent q slot ev).ep
  | event (q slot ev) (h : Q.isDrainedEvent ev = false) :
      EpStep q .keeps (Q.epHandleEvent q slot ev).minted (Q.epHandleEvent q slot ev).ep

/-- What handing an endpoint event over does to the slab. -/
def SlabEffect.ofEvent (slot : QuinnHandle) (ev : Q.EpEvent) : SlabEffect :=
  if Q.isDrainedEvent ev then .releases slot else .keeps

theorem EpStep.ofEvent {Q : Quinn} (q : Q.Ep) (slot : QuinnHandle) (ev : Q.EpEvent) :
    Q.EpStep q (SlabEffect.ofEvent Q slot ev) (Q.epHandleEvent q slot ev).minted
      (Q.epHandleEvent q slot ev).ep := by
  unfold SlabEffect.ofEvent
  split
  · rename_i h
    exact .drained q slot ev h
  · rename_i h
    exact .event q slot ev (by simpa using h)

/-- **Minted CIDs are new**: `minted q` holds of the CIDs minted so far. -/
structure FreshCids where
  minted : Q.Ep → ConnectionId → Prop
  new : ∀ cid, ¬ minted Q.new cid
  step : ∀ {q l cids q'}, Q.EpStep q l cids q' →
    cids.Nodup ∧ (∀ cid ∈ cids, ¬ minted q cid ∧ cid.length = LOCAL_CID_LEN) ∧
      ∀ cid, minted q' cid ↔ minted q cid ∨ cid ∈ cids

/-- **The slab**: an entry lives from the call that allocates it until its connection's Drained
event is handed to `handle_event`, and only a free entry is allocated. -/
structure Slots where
  allocated : Q.Ep → QuinnHandle → Prop
  new : ∀ slot, ¬ allocated Q.new slot
  keeps : ∀ {q cids q'}, Q.EpStep q .keeps cids q' → ∀ slot, allocated q' slot ↔ allocated q slot
  allocates : ∀ {q s cids q'}, Q.EpStep q (.allocates s) cids q' →
    ¬ allocated q s ∧ ∀ slot, allocated q' slot ↔ slot = s ∨ allocated q slot
  releases : ∀ {q s cids q'}, Q.EpStep q (.releases s) cids q' →
    ∀ slot, allocated q' slot ↔ slot ≠ s ∧ allocated q slot

/-! ## A connection's calls -/

/-- One call on a connection, with what it was given and what it answered. -/
inductive ConnLabel where
  | poll (event : Option QuinnEvent)
  | endpointEvent (event : Option Q.EpEvent)
  | handleEvent (event : Q.ConnEvent)
  | handleTimeout (now : Instant)
  | transmit (now : Instant)
  | close
  | openBi
  | acceptBi (id : Option StreamId)
  | read (id : StreamId) (bytes : List UInt8)
  | write (id : StreamId) (answer : Except WriteError Nat)
  | finish (id : StreamId) (ok : Bool)
  | reset (id : StreamId) (ok : Bool)
  | stop (id : StreamId)

/-- The chunks of one read session, concatenated. -/
inductive ChunkRun : Q.Chunks → List UInt8 → Q.Chunks → Prop
  | nil (ch) : ChunkRun ch [] ch
  | chunk {ch n bytes ch' rest ch''} (h : Q.chunksNext ch n = (.chunk bytes, ch'))
      (hrest : ChunkRun ch' rest ch'') : ChunkRun ch (bytes ++ rest) ch''
  | finished {ch n ch'} (h : Q.chunksNext ch n = (.finished, ch')) : ChunkRun ch [] ch'
  | blocked {ch n ch'} (h : Q.chunksNext ch n = (.blocked, ch')) : ChunkRun ch [] ch'
  | reset {ch n code ch'} (h : Q.chunksNext ch n = (.reset code, ch')) : ChunkRun ch [] ch'

/-- One call on a connection. A read session is one call: it borrows the connection. -/
inductive ConnStep : Q.Conn → Q.ConnLabel → Q.Conn → Prop
  | poll (c) : ConnStep c (.poll (Q.poll c).1) (Q.poll c).2
  | endpointEvent (c) : ConnStep c (.endpointEvent (Q.pollEndpointEvents c).1)
      (Q.pollEndpointEvents c).2
  | handleEvent (c ev) : ConnStep c (.handleEvent ev) (Q.connHandleEvent c ev)
  | handleTimeout (c now) : ConnStep c (.handleTimeout now) (Q.handleTimeout c now)
  | transmit (c now) : ConnStep c (.transmit now) (Q.pollTransmit c now).2
  | close (c now code reason) : ConnStep c .close (Q.close c now code reason)
  | openBi (c) : ConnStep c .openBi (Q.streamsOpen c).2
  | acceptBi (c) : ConnStep c (.acceptBi (Q.streamsAccept c).1) (Q.streamsAccept c).2
  | read {c id ch bytes ch'} (hopen : Q.recvRead c id = .chunks ch) (hrun : Q.ChunkRun ch bytes ch') :
      ConnStep c (.read id bytes) (Q.chunksFinalize ch')
  | readClosed {c id c'} (h : Q.recvRead c id = .closedStream c') : ConnStep c (.read id []) c'
  | readIllegal {c id c'} (h : Q.recvRead c id = .illegalOrderedRead c') :
      ConnStep c (.read id []) c'
  | write (c id data) : ConnStep c (.write id (Q.sendWrite c id data).1) (Q.sendWrite c id data).2
  | finish (c id) : ConnStep c (.finish id (Q.sendFinish c id).1.isOk) (Q.sendFinish c id).2
  | reset (c id code) : ConnStep c (.reset id (Q.sendReset c id code).1.isSome)
      (Q.sendReset c id code).2
  | stop (c id code) : ConnStep c (.stop id) (Q.recvStop c id code).2

/-- Any number of calls on a connection, with labels in `P`. -/
abbrev ConnSteps (P : Q.ConnLabel → Prop) : Q.Conn → Q.Conn → Prop :=
  Relation.ReflTransGen fun c c' => ∃ l, P l ∧ Q.ConnStep c l c'

variable {Q}

/-- A predicate every call in `P` keeps holds after any number of them. -/
theorem ConnSteps.keeps {P : Q.ConnLabel → Prop} {I : Q.Conn → Prop}
    (hstep : ∀ {c l c'}, P l → Q.ConnStep c l c' → I c → I c') {c c' : Q.Conn}
    (h : Q.ConnSteps P c c') (hc : I c) : I c' := by
  induction h with
  | refl => exact hc
  | tail _ h ih =>
    obtain ⟨l, hl, h⟩ := h
    exact hstep hl h ih

theorem ConnSteps.single {P : Q.ConnLabel → Prop} {l : Q.ConnLabel} {c c' : Q.Conn} (hl : P l)
    (h : Q.ConnStep c l c') : Q.ConnSteps P c c' :=
  Relation.ReflTransGen.single ⟨l, hl, h⟩

theorem ConnSteps.mono {P R : Q.ConnLabel → Prop} (hP : ∀ l, P l → R l) {c c' : Q.Conn}
    (h : Q.ConnSteps P c c') : Q.ConnSteps R c c' :=
  Relation.ReflTransGen.mono (fun _ _ ⟨l, hl, h⟩ => ⟨l, hP l hl, h⟩) _ _ h

/-- Read sessions on stream `id`, one after the other, with the bytes they copied. -/
inductive Reads (id : StreamId) : Q.Conn → List UInt8 → Q.Conn → Prop
  | refl (c) : Reads id c [] c
  | snoc {c c' c'' bytes more} (h : Reads id c bytes c')
      (hread : Q.ConnStep c' (.read id more) c'') : Reads id c (bytes ++ more) c''

variable (Q)

/-- **A drained connection says so**: once it has handed out its Drained event it reports
`is_drained`, and no call takes that back. -/
structure Drains : Prop where
  handsOut : ∀ {c ev c'}, Q.pollEndpointEvents c = (some ev, c') → Q.isDrainedEvent ev = true →
    Q.isDrained c' = true
  stays : ∀ {c l c'}, Q.ConnStep c l c' → Q.isDrained c = true → Q.isDrained c' = true

/-- Polling events, accepting streams and routing endpoint events. -/
def IsQuiet : Q.ConnLabel → Prop
  | .poll _ | .acceptBi _ | .endpointEvent _ => True
  | _ => False

/-- **How a connection ends.** `lossPending` holds while a `ConnectionLost` is still to be polled
and `drainedOut` from the call that hands the Drained event out. Neither a poll nor the routing of
endpoint events ends a connection; the Drained event is queued by the time the connection is
drained, so with no endpoint event left it has been handed out. Nothing is said about when a loss
that is reported leads to the Drained event. -/
structure Endings where
  lossPending : Q.Conn → Prop
  drainedOut : Q.Conn → Prop
  reports : ∀ {c reason c'}, Q.poll c = (some (.connectionLost reason), c') → lossPending c
  noLoss : ∀ {c l c'}, Q.IsQuiet l → Q.ConnStep c l c' → lossPending c' → lossPending c
  replyNoLoss : ∀ {q slot ev cev c}, (Q.epHandleEvent q slot ev).out = some cev →
    lossPending (Q.connHandleEvent c cev) → lossPending c
  noDrain : ∀ {c l c'}, Q.IsQuiet l → Q.ConnStep c l c' → Q.isDrained c' = true →
    Q.isDrained c = true
  queued : ∀ {c c'}, Q.pollEndpointEvents c = (none, c') → Q.isDrained c' = true → drainedOut c'
  handedOut : ∀ {c l c'}, Q.ConnStep c l c' → drainedOut c' →
    drainedOut c ∨ ∃ ev, l = .endpointEvent (some ev) ∧ Q.isDrainedEvent ev = true
  accepted : ∀ {q cfg incoming now slot conn buf},
    (Q.accept q cfg incoming now).out = (some (slot, conn), buf) → ¬ drainedOut conn
  connected : ∀ {q now cfg remote name slot conn},
    (Q.connect q now cfg remote name).out = .ok (slot, conn) → ¬ drainedOut conn

/-- **Connected comes first, and once**: `announced` holds from the first `Connected` or stream
event that is polled, and `Connected` is polled only before it holds. -/
structure Announces where
  announced : Q.Conn → Prop
  stays : ∀ {c l c'}, Q.ConnStep c l c' → announced c → announced c'
  connected : ∀ {c c'}, Q.poll c = (some .connected, c') → ¬ announced c ∧ announced c'
  stream : ∀ {c ev c'}, Q.poll c = (some (.stream ev), c') → announced c'

/-- **Ordered reads**: `content` is what has arrived of a stream, `consumed` what read sessions have
copied out of it: from the front, in order, and nothing else moves it. -/
structure ByteStream where
  content : Q.Conn → StreamId → List UInt8
  consumed : Q.Conn → StreamId → List UInt8
  front : ∀ c id, consumed c id <+: content c id
  grows : ∀ {c l c'}, Q.ConnStep c l c' → ∀ id, content c id <+: content c' id
  read : ∀ {c id bytes c'}, Q.ConnStep c (.read id bytes) c' →
    consumed c' id = consumed c id ++ bytes
  keeps : ∀ {c l c' id}, Q.ConnStep c l c' → (∀ bytes, l ≠ .read id bytes) →
    consumed c' id = consumed c id

/-- **The send half ends**: `ended` holds from the event that reports the FIN acknowledged or the
peer's stop, or from a reset that succeeds, and the stream can then neither be finished nor written
to. A write finds that out unless it is `starved`: refused for lack of credit before the stream's
own state is looked at, because the connection's flow control or send window leaves no room or the
connection is closing. -/
structure SendHalf where
  ended : Q.Conn → StreamId → Prop
  starved : Q.Conn → StreamId → Prop
  stays : ∀ {c l c' id}, Q.ConnStep c l c' → ended c id → ended c' id
  acked : ∀ {c id c'}, Q.poll c = (some (.stream (.finished id)), c') → ended c' id
  stopped : ∀ {c id code c'}, Q.poll c = (some (.stream (.stopped id code)), c') → ended c' id
  reset : ∀ {c id code c'}, Q.sendReset c id code = (some (), c') → ended c' id
  write : ∀ {c id data}, ended c id → ¬ starved c id → data ≠ [] →
    ∃ e, (Q.sendWrite c id data).1 = .error e ∧ e ≠ .blocked
  finish : ∀ {c id}, ended c id → (Q.sendFinish c id).1 ≠ .ok ()

/-- **A FIN is acknowledged after it was queued**: `queued` can hold only after a `finish` of the
stream that succeeded, and `Finished` is reported only of a stream for which it does. -/
structure FinAcks where
  queued : Q.Conn → StreamId → Prop
  finishes : ∀ {c l c' id}, Q.ConnStep c l c' → l ≠ .finish id true → queued c' id → queued c id
  reports : ∀ {c id c'}, Q.poll c = (some (.stream (.finished id)), c') → queued c id

/-- **Streams are accepted in the order they become available**: `order` are the peer-opened
bidirectional streams that have become available, oldest first, and `inside` those that no `accept`
has taken. Nothing but `accept` takes one out, and any call may make more available. -/
structure AcceptOrder where
  order : Q.Conn → List StreamId
  inside : Q.Conn → List StreamId
  distinct : ∀ c, (order c).Nodup
  back : ∀ c, inside c <:+ order c
  takes : ∀ {c id c'}, Q.streamsAccept c = (some id, c') →
    inside c = id :: inside c' ∧ order c' = order c
  empty : ∀ {c c'}, Q.streamsAccept c = (none, c') →
    inside c = [] ∧ inside c' = [] ∧ order c' = order c
  arrives : ∀ {c l c'}, Q.ConnStep c l c' → (∀ id, l ≠ .acceptBi id) →
    ∃ more, order c' = order c ++ more ∧ inside c' = inside c ++ more

end Quinn

/-! ## Receiving -/

/-- How far the receive half of a stream has come: `idle` while quinn-proto keeps nothing for it,
which is beyond the peer's stream limit, or before this side opens it; receiving, which includes a
stream that the peer may open and has not; with every byte up to its FIN arrived; read past its FIN;
reset by the peer; or gone because it was stopped or its reset was read. -/
inductive RecvPhase where
  | idle
  | receiving
  | finArrived
  | finRead
  | reset (code : Nat)
  | closed
  deriving DecidableEq

/-- A receive half that a read session opens. -/
def RecvPhase.Readable : RecvPhase → Prop
  | .receiving | .finArrived | .reset _ => True
  | .idle | .finRead | .closed => False

/-- What a receive half can become while nobody reads or stops it. -/
inductive RecvPhase.Becomes : RecvPhase → RecvPhase → Prop
  | same (p) : Becomes p p
  | opened {p} (h : p.Readable) : Becomes .idle p
  | fin : Becomes .receiving .finArrived
  | reset (code) : Becomes .receiving (.reset code)
  | finReset (code) : Becomes .finArrived (.reset code)

/-- The receive half of a stream: the bytes that were read, and those that arrived in order behind
them. -/
structure RecvView where
  read : List UInt8
  unread : List UInt8
  phase : RecvPhase
  deriving DecidableEq

namespace RecvView

/-- Every byte that has arrived in order. -/
def arrived (v : RecvView) : List UInt8 := v.read ++ v.unread

/-- **Arrival**: bytes are added at the back until FIN, a reset or the end. -/
structure Arrives (v v' : RecvView) : Prop where
  read : v'.read = v.read
  more : ∃ more, v'.unread = v.unread ++ more ∧
    (v.phase = .idle ∨ v.phase = .receiving ∨ more = [])
  phase : v.phase.Becomes v'.phase

/-- **What `Chunks::next(n)` answers**, by what the session sees: a non-empty chunk from the front
while bytes are buffered; FIN behind the last of them, which frees the stream, or `Blocked`; and a
reset, which has discarded the buffer, and frees it too. -/
inductive Next (n : Nat) : RecvView → ChunkAnswer → RecvView → Prop
  | chunk {read bytes rest phase} (hphase : phase = .receiving ∨ phase = .finArrived)
      (hbytes : bytes ≠ []) :
      Next n ⟨read, bytes ++ rest, phase⟩ (.chunk bytes) ⟨read ++ bytes, rest, phase⟩
  | finished {read} : Next n ⟨read, [], .finArrived⟩ .finished ⟨read, [], .finRead⟩
  | blocked {read} : Next n ⟨read, [], .receiving⟩ .blocked ⟨read, [], .receiving⟩
  | reset {read unread code} :
      Next n ⟨read, unread, .reset code⟩ (.reset code) ⟨read, unread, .closed⟩

end RecvView

namespace Quinn

variable (Q : Quinn)

/-- **Ordered reads deliver what arrived.** `view` is the receive half of each stream and `session`
the one a read session borrows. A session opens on a stream that is readable and sees its bytes in
order; one that the peer may open and has not is readable, with nothing arrived, and blocks. A stream
quinn-proto keeps nothing for, or that is gone, answers `ClosedStream`; ordered reads never follow
unordered ones. Nothing but a read or a stop takes anything from a receive half. -/
structure OrderedReads where
  view : Q.Conn → StreamId → RecvView
  session : Q.Chunks → StreamId × RecvView
  opens : ∀ {c id ch}, Q.recvRead c id = .chunks ch →
    session ch = (id, view c id) ∧ (view c id).phase.Readable
  refuses : ∀ {c id c'}, Q.recvRead c id = .closedStream c' →
    view c' id = view c id ∧ ¬ (view c id).phase.Readable
  ordered : ∀ {c id c'}, Q.recvRead c id ≠ .illegalOrderedRead c'
  next : ∀ ch {n}, 0 < n → (session ch).2.phase.Readable →
    (session (Q.chunksNext ch n).2).1 = (session ch).1 ∧
      RecvView.Next n (session ch).2 (Q.chunksNext ch n).1 (session (Q.chunksNext ch n).2).2
  finalize : ∀ ch, view (Q.chunksFinalize ch) (session ch).1 = (session ch).2
  arrives : ∀ {c l c' id}, Q.ConnStep c l c' → (∀ bytes, l ≠ .read id bytes) → l ≠ .stop id →
    (view c id).Arrives (view c' id)
  stop : ∀ {c c' id}, Q.ConnStep c (.stop id) c' → view c' id = view c id ∨
    (view c id).phase.Readable ∧ view c' id = { view c id with phase := .closed }

end Quinn

end QuietQuic.Proto
