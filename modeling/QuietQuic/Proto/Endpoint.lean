import QuietQuic.Proto.Config
import QuietQuic.Proto.Conn
import QuietQuic.Proto.Prefilter
import QuietQuic.Proto.RateLimit

/-!
# The sans-IO endpoint

Model of `proto/src/endpoint.rs`. `Core` is every field of `Endpoint` but the two the pre-filter
alone uses; `Endpoint` adds those (`replay`, `rateLimiter`). The recording CID generator writes
`issued_cids` and `pending_cids` from inside quinn-proto's calls: `afterCall` records what a call
minted. `next_generation` is a natural number: its `expect` needs 2^64 connections.

A `HashMap` is walked in an order the caller cannot predict, so the order of a servicing pass is an
input of the call (`IterOrder`), any permutation of the keys.

The pass (`service_connections`) is its four stages: `routeAll`, `serviceAll`, `reapAll` and the
sweep. `Call`, `step` and `run` are the public interface: every method of `Endpoint`, and every
stream operation through `conn_mut`.
-/

namespace QuietQuic.Proto

open QuietQuic.Lib

/-- `Role`. -/
inductive Role where
  | server
  | client
  deriving DecidableEq

/-- `Endpoint`, without the pre-filter's own state. `serverConfig` is the one quinn-proto's
endpoint holds. -/
structure Core (Q : Quinn) where
  inner : Q.Ep
  serverConfig : Option Q.ServerConfig
  role : Role
  clients : List (ClientCrypto Q)
  issuedCids : Finset ConnectionId
  pendingCids : List ConnectionId
  cidsByConn : AMap ConnectionHandle (List ConnectionId)
  connections : AMap ConnectionHandle (ConnState Q)
  clientIds : AMap ConnectionHandle String
  byQuinn : AMap QuinnHandle ConnectionHandle
  nextGeneration : Nat
  outbound : List Transmit
  events : List Event
  nextTimeout : Option Instant
  lastService : Option Instant

/-- `Endpoint`. -/
structure Endpoint (Q : Quinn) extends Core Q where
  replay : List ReplayGuard
  rateLimiter : RateLimiter

/-- The order a `HashMap` of connections is walked in. -/
structure IterOrder where
  order : List ConnectionHandle → List ConnectionHandle
  perm : ∀ l, (order l).Perm l

/-- `SERVER_NAME`. -/
def SERVER_NAME : String := "localhost"

namespace Core

variable {Q : Quinn}

/-- The fields of a new endpoint, around a new quinn-proto endpoint. -/
def fresh (role : Role) (clients : List (ClientCrypto Q)) (lastService : Option Instant) :
    Core Q where
  inner := Q.new
  serverConfig := none
  role := role
  clients := clients
  issuedCids := ∅
  pendingCids := []
  cidsByConn := ∅
  connections := ∅
  clientIds := ∅
  byQuinn := ∅
  nextGeneration := 1
  outbound := []
  events := []
  nextTimeout := none
  lastService := lastService

/-! ## The CID tables -/

/-- The state after a call on quinn-proto's endpoint: `RecordingCidGenerator::generate_cid` has
put each minted CID in both tables. -/
def afterCall {α : Type} (core : Core Q) (r : Minting Q.Ep α) : Core Q :=
  { core with
    inner := r.ep
    issuedCids := core.issuedCids ∪ r.minted.toFinset
    pendingCids := core.pendingCids ++ r.minted }

/-- `drain_pending_cids`. -/
def drainPendingCids (core : Core Q) (ch : ConnectionHandle) : Core Q :=
  if core.pendingCids = [] then core
  else
    { core with
      pendingCids := []
      cidsByConn := core.cidsByConn.insert ch
        ((core.cidsByConn.lookup ch).getD [] ++ core.pendingCids) }

/-- `sweep_orphan_cids`. -/
def sweepOrphanCids (core : Core Q) : Core Q :=
  { core with
    pendingCids := []
    issuedCids := core.pendingCids.foldl Finset.erase core.issuedCids }

/-- `prune_connection_cids`. -/
def pruneConnectionCids (core : Core Q) (ch : ConnectionHandle) : Core Q :=
  match core.cidsByConn.lookup ch with
  | none => core
  | some cids =>
    { core with
      cidsByConn := core.cidsByConn.erase ch
      issuedCids := cids.foldl Finset.erase core.issuedCids }

/-- `allocate_handle`. -/
def allocateHandle (core : Core Q) (quinn : QuinnHandle) : ConnectionHandle × Core Q :=
  let handle := ⟨quinn, core.nextGeneration⟩
  (handle,
    { core with
      nextGeneration := core.nextGeneration + 1
      byQuinn := core.byQuinn.insert quinn handle })

/-- `outbound.push_back`. -/
def pushTransmit (core : Core Q) (t : Transmit) : Core Q :=
  { core with outbound := core.outbound ++ [t] }

/-- Update the quinn-proto connection of `ch`, if there is one. -/
def updateConn (core : Core Q) (ch : ConnectionHandle) (f : Q.Conn → Q.Conn) : Core Q :=
  { core with
    connections := AMap.modify ch (fun s => { s with conn := f s.conn }) core.connections }

/-! ## Feeding a datagram -/

/-- The success path of `admit`: register the connection `accept` made. -/
def register (core : Core Q) (quinn : QuinnHandle) (conn : Q.Conn) (buf : List UInt8)
    (clientIdx : Nat) : ConnectionHandle × Core Q :=
  let (ch, core) := core.allocateHandle quinn
  let core := if buf = [] then core else core.pushTransmit ⟨Q.remoteAddress conn, buf⟩
  let core := core.drainPendingCids ch
  (ch,
    { core with
      connections := core.connections.insert ch (ConnState.new conn)
      clientIds :=
        match core.clients[clientIdx]? with
        | some client => core.clientIds.insert ch client.clientId
        | none => core.clientIds }) -- the index is one the pre-filter answered

/-- `admit`. -/
def admitIncoming (core : Core Q) (now : Instant) (incoming : Q.Incoming) (clientIdx : Nat) :
    DatagramOutcome × Core Q :=
  let r := Q.accept core.inner core.serverConfig incoming now
  let core := core.afterCall r
  match r.out with
  | (some (quinn, conn), buf) =>
    let (ch, core) := core.register quinn conn buf clientIdx
    (.accepted ch, core)
  | (none, _) => (.dropped, core)

/-- `feed` up to the `match`: quinn-proto's verdict, with a server's endpoint-level response
queued. -/
def handOver (core : Core Q) (now : Instant) (src : SocketAddr) (data : List UInt8) :
    Option (DatagramEvent Q.Incoming Q.ConnEvent) × Core Q :=
  let r := Q.handle core.inner core.serverConfig now src data
  let core := core.afterCall r
  (r.out.1,
    if r.out.2 ≠ [] ∧ core.role = .server then core.pushTransmit ⟨src, r.out.2⟩ else core)

/-- The `match` of `feed`, without its early return. -/
def react (core : Core Q) (now : Instant) (admitted : Option Nat) :
    Option (DatagramEvent Q.Incoming Q.ConnEvent) → DatagramOutcome × Core Q
  | some (.newConnection incoming) =>
    match core.role, admitted with
    | .server, some clientIdx => core.admitIncoming now incoming clientIdx
    | _, _ => (.dropped, core)
  | some (.connectionEvent quinn cev) =>
    match core.byQuinn.lookup quinn with
    | some ch => (.accepted ch, core.updateConn ch fun c => Q.connHandleEvent c cev)
    | none => (.dropped, core)
  | some .response => (.dropped, core)
  | none => (.dropped, core)

/-- `feed`. A server that quinn-proto hands a new connection for a datagram nobody admitted
returns at once, before the sweep. -/
def feed (core : Core Q) (now : Instant) (src : SocketAddr) (data : List UInt8)
    (admitted : Option Nat) : DatagramOutcome × Core Q :=
  let (event, core) := core.handOver now src data
  match event, core.role, admitted with
  | some (.newConnection _), .server, none => (.dropped, core)
  | event, _, admitted =>
    let (outcome, core) := core.react now admitted event
    (outcome, core.sweepOrphanCids)

/-! ## The servicing pass -/

/-- The body of the endpoint-event loop: connection `ch`, now at `c`, has handed out `ev`. -/
def deliver (core : Core Q) (ch : ConnectionHandle) (c : Q.Conn) (ev : Q.EpEvent) : Core Q :=
  let core := core.updateConn ch fun _ => c
  let r := Q.epHandleEvent core.inner ch.quinn ev
  let core := (core.afterCall r).drainPendingCids ch
  match r.out with
  | some cev => core.updateConn ch fun c => Q.connHandleEvent c cev
  | none => core

/-- One round of the endpoint-event loop of connection `ch`. -/
def routeRound (ch : ConnectionHandle) (core : Core Q) : Ctl (Core Q) :=
  match core.connections.lookup ch with
  | none => .done core
  | some s =>
    match Q.pollEndpointEvents s.conn with
    | (none, c) => .done (core.updateConn ch fun _ => c)
    | (some ev, c) => .again (core.deliver ch c ev)

/-- How many endpoint events connection `ch` can still hand out. -/
def routeRank (ch : ConnectionHandle) (core : Core Q) : Nat :=
  match core.connections.lookup ch with
  | none => 0
  | some s => Q.endpointRank s.conn

/-- The endpoint-event loop of connection `ch`. -/
def route (core : Core Q) (ch : ConnectionHandle) : Core Q :=
  loop (routeRound ch) (routeRank ch core + 1) core

/-- Stage 1 of a pass. -/
def routeAll (core : Core Q) (handles : List ConnectionHandle) : Core Q :=
  handles.foldl route core

/-- One round of the transmit loop: `(connection, datagrams)`. -/
def transmitRound (now : Instant) (p : Q.Conn × List Transmit) : Ctl (Q.Conn × List Transmit) :=
  match Q.pollTransmit p.1 now with
  | (none, c) => .done (c, p.2)
  | (some (destination, buf), c) =>
    if buf = [] then .done (c, p.2) else .again (c, p.2 ++ [⟨destination, buf⟩])

/-- Drain a connection's outbound datagrams. -/
def drainTransmits (now : Instant) (c : Q.Conn) : Q.Conn × List Transmit :=
  loop (transmitRound now) (Q.transmitRank c + 1) (c, [])

/-- What stage 2 of a pass stages. -/
structure Staged where
  events : List Event := []
  transmits : List Transmit := []
  lost : List (ConnectionHandle × ConnectionError) := []

/-- Staging one after the other. -/
def Staged.append (a b : Staged) : Staged :=
  ⟨a.events ++ b.events, a.transmits ++ b.transmits, a.lost ++ b.lost⟩

/-- The events of one connection's progress, in the order the pass pushes them. -/
def progressEvents (ch : ConnectionHandle) (progress : ConnProgress) : List Event :=
  (if progress.connected then [.connected ch] else []) ++
    progress.opened.map (fun id => .streamOpened ch id .bi) ++
    progress.readable.map (.streamReadable ch) ++
    progress.writable.map (.streamWritable ch) ++
    progress.finAcked.map (.streamFinAcked ch) ++
    progress.stopped.map fun e => .streamStopped ch e.1 e.2

/-- The loss a pass sees: a reported one, or else a drained connection. -/
def lossOf (progress : ConnProgress) (s : ConnState Q) : Option ConnectionError :=
  match progress.lost with
  | some reason => some reason
  | none => if s.isDrained then some .locallyClosed else none

/-- Stage 2 of a pass for one connection: its new state and what it stages. -/
def serviceOne (now : Instant) (ch : ConnectionHandle) (s : ConnState Q) : ConnState Q × Staged :=
  let (progress, s) := s.serviceStreams
  let lost := (lossOf progress s).map fun reason => (ch, reason)
  let (c, transmits) := drainTransmits now s.conn
  (ConnState.clearDirty { s with conn := c },
    ⟨progressEvents ch progress, transmits, lost.toList⟩)

/-- Stage 2 of a pass at handle `ch`. -/
def serviceAt (now : Instant) (p : Core Q × Staged) (ch : ConnectionHandle) : Core Q × Staged :=
  match p.1.connections.lookup ch with
  | none => p
  | some s =>
    let (s, staged) := serviceOne now ch s
    ({ p.1 with connections := p.1.connections.insert ch s }, p.2.append staged)

/-- Stage 2 of a pass, up to what it stages. -/
def serviceAll (core : Core Q) (now : Instant) (handles : List ConnectionHandle) :
    Core Q × Staged :=
  handles.foldl (serviceAt now) (core, {})

/-- The end of stage 2: what was staged is queued. -/
def flush (core : Core Q) (staged : Staged) : Core Q :=
  { core with
    events := core.events ++ staged.events
    outbound := core.outbound ++ staged.transmits }

/-- Stage 3 of a pass for one lost connection. -/
def reap (core : Core Q) (l : ConnectionHandle × ConnectionError) : Core Q :=
  if l.1 ∈ core.connections then
    let core := { core with
      connections := core.connections.erase l.1
      byQuinn := core.byQuinn.erase l.1.quinn
      clientIds := core.clientIds.erase l.1 }
    let core := core.pruneConnectionCids l.1
    { core with events := core.events ++ [.connectionLost l.1 l.2] }
  else core

/-- Stage 3 of a pass. -/
def reapAll (core : Core Q) (lost : List (ConnectionHandle × ConnectionError)) : Core Q :=
  lost.foldl reap core

/-- `refresh_next_timeout`. -/
def refreshNextTimeout (core : Core Q) : Core Q :=
  { core with
    nextTimeout := ((AMap.values core.connections).filterMap fun s => Q.pollTimeout s.conn).min? }

/-- `service_connections`. -/
def serviceConnections (core : Core Q) (ord : IterOrder) (now : Instant) : Core Q :=
  let core := { core with lastService := some now }
  let handles := ord.order core.connections.keys
  let core := core.routeAll handles
  let (core, staged) := core.serviceAll now handles
  let core := (core.flush staged).reapAll staged.lost
  core.sweepOrphanCids.refreshNextTimeout

/-! ## The rest of the public interface -/

/-- The timers of `handle_timeout`: every connection whose deadline has passed. -/
def fireTimers (core : Core Q) (now : Instant) : Core Q :=
  { core with
    connections := AMap.mapValues (fun s =>
      match Q.pollTimeout s.conn with
      | some t => if t ≤ now then { s with conn := Q.handleTimeout s.conn now } else s
      | none => s) core.connections }

/-- `handle_timeout`. -/
def handleTimeout (core : Core Q) (ord : IterOrder) (now : Instant) : Core Q :=
  (core.fireTimers now).serviceConnections ord now

/-- `outbound.pop_front`. -/
def popTransmit (core : Core Q) : Option Transmit × Core Q :=
  match core.outbound with
  | t :: rest => (some t, { core with outbound := rest })
  | [] => (none, core)

/-- `poll_transmit`. -/
def pollTransmit (core : Core Q) (ord : IterOrder) (now : Instant) : Option Transmit × Core Q :=
  match core.popTransmit with
  | (some t, core) => (some t, core)
  | (none, core) => (core.serviceConnections ord now).popTransmit

/-- `poll_event`. -/
def pollEvent (core : Core Q) : Option Event × Core Q :=
  match core.events with
  | e :: rest => (some e, { core with events := rest })
  | [] => (none, core)

/-- `next_timeout`. -/
def nextTimeoutAt (core : Core Q) : Option Instant :=
  if (AMap.values core.connections).any ConnState.isDirty then
    core.lastService.or core.nextTimeout
  else core.nextTimeout

/-- `client_id`. -/
def clientId (core : Core Q) (ch : ConnectionHandle) : Option String := core.clientIds.lookup ch

/-- `issued_cid_count`. -/
def issuedCidCount (core : Core Q) : Nat := core.issuedCids.card

/-- `read_dcid_any`. -/
def readDcidAny (data : List UInt8) : Option (List UInt8) :=
  match data with
  | [] => none
  | first :: rest =>
    if first &&& 0x80 ≠ 0 then peekDcid data
    else if LOCAL_CID_LEN ≤ rest.length then some (rest.take LOCAL_CID_LEN)
    else none

/-- `is_active_dcid`. -/
def isActiveDcid (core : Core Q) (data : List UInt8) : Bool :=
  match readDcidAny data with
  | none => false
  | some dcid => decide (dcid ∈ core.issuedCids)

end Core

/-! ## Stream operations through `conn_mut` -/

/-- A call on the `ConnState` that `conn_mut` borrows. `close` is quinn-proto's own, reached
through `conn_mut().conn_mut()`. -/
inductive ConnCall where
  | openBi
  | acceptBi
  | streamRead (id : StreamId) (len : Nat)
  | streamWrite (id : StreamId) (buf : List UInt8)
  | streamFinish (id : StreamId)
  | streamReset (id : StreamId) (code : Nat)
  | streamStop (id : StreamId) (code : Nat)
  | forgetStream (id : StreamId)
  | forgetRecv (id : StreamId)
  | forgetSend (id : StreamId)
  | sendFin (id : StreamId)
  | serviceStreams
  | isDrained
  | isDirty
  | clearDirty
  | close (now : Instant) (code : Nat) (reason : List UInt8)

/-- What a call on a `ConnState` answers. -/
inductive ConnAnswer where
  | openBi (answer : Except ConnError StreamId)
  | acceptBi (answer : Except ConnError (Option StreamId))
  | streamRead (answer : Except ConnError ReadOutcome) (bytes : List UInt8)
  | streamWrite (answer : Except ConnError WriteOutcome)
  | done (answer : Except ConnError Unit)
  | sendFin (answer : Option SendFin)
  | progress (answer : ConnProgress)
  | flag (answer : Bool)
  | unit

/-- One call on a `ConnState`. -/
def ConnState.call {Q : Quinn} (s : ConnState Q) : ConnCall → ConnAnswer × ConnState Q
  | .openBi => (.openBi s.openBi.1, s.openBi.2)
  | .acceptBi => (.acceptBi s.acceptBi.1, s.acceptBi.2)
  | .streamRead id len =>
    let (answer, bytes, s) := s.streamRead id len
    (.streamRead answer bytes, s)
  | .streamWrite id buf => (.streamWrite (s.streamWrite id buf).1, (s.streamWrite id buf).2)
  | .streamFinish id => (.done (s.streamFinish id).1, (s.streamFinish id).2)
  | .streamReset id code => (.done (s.streamReset id code).1, (s.streamReset id code).2)
  | .streamStop id code => (.done (s.streamStop id code).1, (s.streamStop id code).2)
  | .forgetStream id => (.unit, s.forgetStream id)
  | .forgetRecv id => (.unit, s.forgetRecv id)
  | .forgetSend id => (.unit, s.forgetSend id)
  | .sendFin id => (.sendFin (s.sendFin id), s)
  | .serviceStreams => (.progress s.serviceStreams.1, s.serviceStreams.2)
  | .isDrained => (.flag s.isDrained, s)
  | .isDirty => (.flag s.isDirty, s)
  | .clearDirty => (.unit, s.clearDirty)
  | .close now code reason => (.unit, { s with conn := Q.close s.conn now code reason })

/-- `conn_mut(ch)` and one call on it; `None` when the handle is not live. -/
def Core.onConn {Q : Quinn} (core : Core Q) (ch : ConnectionHandle) (call : ConnCall) :
    Option ConnAnswer × Core Q :=
  match core.connections.lookup ch with
  | none => (none, core)
  | some s =>
    (some (s.call call).1, { core with connections := core.connections.insert ch (s.call call).2 })

/-! ## The endpoint -/

namespace Endpoint

variable {Q : Quinn}

/-- `Endpoint::new_server`. -/
def newServer (tls : Tls Q) (secrets : ServerSecrets) : Except ConfigError (Endpoint Q) :=
  match buildClients tls secrets with
  | .error e => .error e
  | .ok clients =>
    .ok
      { Core.fresh .server clients none with
        replay := clients.map fun _ => ReplayGuard.new WINDOW_MINUTES
        rateLimiter := RateLimiter.new }

/-- The transport config `new_client` dials with. -/
def dialConfig (H : KeyedHash) (tls : Tls Q) (freshnessMinute : UInt32) (cfg : ClientConfigFile)
    (quicClient : Q.QuicClient) : TransportClientConfig Q.QuicClient where
  inner := quicClient
  psk := cfg.psk
  transport := quietquicTransportConfig
  initialDstCid := (buildDcid H cfg.psk tls.nonce freshnessMinute).toList

/-- A client endpoint around the connection `connect` made. -/
def dialed (r : Minting Q.Ep (Except String (QuinnHandle × Q.Conn))) (now : Instant)
    (quinn : QuinnHandle) (conn : Q.Conn) : Endpoint Q × ConnectionHandle :=
  let core := (Core.fresh .client [] (some now)).afterCall r
  let (ch, core) := core.allocateHandle quinn
  let core := core.drainPendingCids ch
  let core := { core with connections := core.connections.insert ch (ConnState.new conn) }
  ({ core.refreshNextTimeout with replay := [], rateLimiter := RateLimiter.new }, ch)

/-- `Endpoint::new_client`. -/
def newClient (H : KeyedHash) (tls : Tls Q) (now : Instant) (freshnessMinute : UInt32)
    (cfg : ClientConfigFile) : Except ConfigError (Endpoint Q × ConnectionHandle) :=
  match tls.quicClientConfig with
  | .error e => .error (.io ("client crypto: " ++ e))
  | .ok quicClient =>
    let r := Q.connect Q.new now (dialConfig H tls freshnessMinute cfg quicClient) cfg.server
      SERVER_NAME
    match r.out with
    | .error e => .error (.io ("connect: " ++ e))
    | .ok (quinn, conn) => .ok (dialed r now quinn conn)

/-- The clients' PSKs, in order. -/
def psks (ep : Endpoint Q) : List Psk := ep.clients.map ClientCrypto.psk

/-- What the gates before quinn-proto decide about a datagram. -/
inductive Gate where
  | rejected
  | bypass
  | admitted (clientIdx : Nat)
  deriving DecidableEq

/-- The gates of `handle_datagram` on a server, for a datagram without an active DCID: the rate
limiter, then the pre-filter. -/
def screen (H : KeyedHash) (ep : Endpoint Q) (now : Instant) (src : SocketAddr) (minute : UInt32)
    (data : List UInt8) : Gate × Endpoint Q :=
  let (ok, rateLimiter) := (ep.rateLimiter.check src.ip now).getD (false, ep.rateLimiter)
  let ep := { ep with rateLimiter := rateLimiter }
  if ok then
    match prefilter H ep.psks ep.replay minute data with
    | (some clientIdx, replay) => (.admitted clientIdx, { ep with replay := replay })
    | (none, replay) => (.rejected, { ep with replay := replay })
  else (.rejected, ep)

/-- The gates of `handle_datagram`: only a server's datagrams without an active DCID are
screened. -/
def gate (H : KeyedHash) (ep : Endpoint Q) (now : Instant) (src : SocketAddr) (minute : UInt32)
    (data : List UInt8) : Gate × Endpoint Q :=
  if ep.role = .server ∧ ep.isActiveDcid data = false then ep.screen H now src minute data
  else (.bypass, ep)

/-- `set_server_config` with the admitted client's config. -/
def install (core : Core Q) (clientIdx : Nat) : Core Q :=
  { core with serverConfig := core.clients[clientIdx]?.map ClientCrypto.serverConfig }

/-- `feed` as `handle_datagram` calls it, after the gates. -/
def fed (core : Core Q) (g : Gate) (now : Instant) (src : SocketAddr) (data : List UInt8) :
    DatagramOutcome × Core Q :=
  match g with
  | .rejected => (.dropped, core)
  | .bypass => core.feed now src data none
  | .admitted clientIdx => (install core clientIdx).feed now src data (some clientIdx)

/-- `handle_datagram`, at wall-clock minute `minute`. -/
def handleDatagram (H : KeyedHash) (ep : Endpoint Q) (ord : IterOrder) (now : Instant)
    (src : SocketAddr) (minute : UInt32) (data : List UInt8) : DatagramOutcome × Endpoint Q :=
  let (g, ep) := ep.gate H now src minute data
  match g with
  | .rejected => (.dropped, ep)
  | g =>
    let (outcome, core) := fed ep.toCore g now src data
    (outcome, { ep with toCore := core.serviceConnections ord now })

end Endpoint

/-! ## Runs -/

/-- A public call. -/
inductive Call where
  | handleDatagram (ord : IterOrder) (now : Instant) (src : SocketAddr) (minute : UInt32)
      (data : List UInt8)
  | handleTimeout (ord : IterOrder) (now : Instant)
  | pollTransmit (ord : IterOrder) (now : Instant)
  | pollEvent
  | nextTimeout
  | conn (ch : ConnectionHandle) (call : ConnCall)
  | clientId (ch : ConnectionHandle)
  | issuedCidCount

/-- What a public call returns. -/
inductive Answer where
  | datagram (outcome : DatagramOutcome)
  | unit
  | transmit (t : Option Transmit)
  | event (e : Option Event)
  | timeout (t : Option Instant)
  | conn (answer : Option ConnAnswer)
  | clientId (id : Option String)
  | count (n : Nat)

namespace Core

variable {Q : Quinn}

/-- The public calls other than `handle_datagram`: they leave the pre-filter's state alone. -/
def step (core : Core Q) : Call → Answer × Core Q
  | .handleDatagram .. => (.unit, core)
  | .handleTimeout ord now => (.unit, core.handleTimeout ord now)
  | .pollTransmit ord now =>
    let (t, core) := core.pollTransmit ord now
    (.transmit t, core)
  | .pollEvent =>
    let (e, core) := core.pollEvent
    (.event e, core)
  | .nextTimeout => (.timeout core.nextTimeoutAt, core)
  | .conn ch call =>
    let (answer, core) := core.onConn ch call
    (.conn answer, core)
  | .clientId ch => (.clientId (core.clientId ch), core)
  | .issuedCidCount => (.count core.issuedCidCount, core)

end Core

namespace Endpoint

variable {Q : Quinn}

/-- One public call. -/
def step (H : KeyedHash) (ep : Endpoint Q) : Call → Answer × Endpoint Q
  | .handleDatagram ord now src minute data =>
    let (outcome, ep) := ep.handleDatagram H ord now src minute data
    (.datagram outcome, ep)
  | call =>
    let (answer, core) := ep.toCore.step call
    (answer, { ep with toCore := core })

/-- The state a run of calls leaves. -/
def run (H : KeyedHash) (ep : Endpoint Q) (calls : List Call) : Endpoint Q :=
  calls.foldl (fun ep call => (ep.step H call).2) ep

/-- The endpoints `new_server` and `new_client` return. -/
def IsNew (H : KeyedHash) (ep : Endpoint Q) : Prop :=
  (∃ tls secrets, newServer tls secrets = .ok ep) ∨
    ∃ tls now minute cfg ch, newClient H tls now minute cfg = .ok (ep, ch)

end Endpoint

end QuietQuic.Proto
