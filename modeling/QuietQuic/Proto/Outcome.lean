import QuietQuic.Proto.Selector

/-!
# Addresses, instants and outcomes

Model of `proto/src/outcome.rs` and of the error type of `proto/src/conn.rs`, with the parts of
the standard library and of quinn-proto's vocabulary they are written in. An `Instant` is a count
of nanoseconds from some origin; a `StreamId` and an error code are quinn-proto's 62-bit varints,
as natural numbers.
-/

namespace QuietQuic.Proto

open QuietQuic.Lib

/-- `std::time::Instant`, in nanoseconds. -/
abbrev Instant := Nat

/-- `std::net::IpAddr`. -/
inductive IpAddr where
  | v4 (bits : BitVec 32)
  | v6 (bits : BitVec 128)
  deriving DecidableEq

/-- `std::net::SocketAddr`. -/
structure SocketAddr where
  ip : IpAddr
  port : UInt16
  deriving DecidableEq

/-- `quinn_proto::ConnectionId`: the bytes it stands for. -/
abbrev ConnectionId := List UInt8

/-- `quinn_proto::StreamId`. -/
abbrev StreamId := Nat

/-- `quinn_proto::Dir`. -/
inductive Dir where
  | bi
  | uni
  deriving DecidableEq

/-- `quinn_proto::ConnectionHandle`: an index into quinn-proto's slab, reused once freed. -/
abbrev QuinnHandle := Nat

/-- `quinn_proto::ConnectionError`. -/
inductive QuinnConnectionError where
  | versionMismatch
  | transportError (code : Nat) (reason : String)
  | connectionClosed (code : Nat) (reason : List UInt8)
  | applicationClosed (code : Nat) (reason : List UInt8)
  | reset
  | timedOut
  | locallyClosed
  | cidsExhausted
  deriving DecidableEq

/-- `ConnectionError`. -/
inductive ConnectionError where
  | applicationClosed (code : Nat) (reason : List UInt8)
  | connectionClosed (code : Nat) (frameType : Option Nat) (reason : List UInt8)
  | transportError (code : Nat) (frameType : Option Nat) (reason : String)
  | reset
  | timedOut
  | locallyClosed
  | versionMismatch
  | cidsExhausted
  deriving DecidableEq

/-- `ConnectionError::from_quinn`. quinn-proto does not expose the raw frame type. -/
def ConnectionError.fromQuinn : QuinnConnectionError → ConnectionError
  | .versionMismatch => .versionMismatch
  | .transportError code reason => .transportError code none reason
  | .connectionClosed code reason => .connectionClosed code none reason
  | .applicationClosed code reason => .applicationClosed code reason
  | .reset => .reset
  | .timedOut => .timedOut
  | .locallyClosed => .locallyClosed
  | .cidsExhausted => .cidsExhausted

/-- `ConnectionHandle`: a slab index with a generation that is never reused. -/
structure ConnectionHandle where
  quinn : QuinnHandle
  generation : Nat
  deriving DecidableEq

/-- `Transmit`. -/
structure Transmit where
  destination : SocketAddr
  contents : List UInt8
  deriving DecidableEq

/-- `DatagramOutcome`. -/
inductive DatagramOutcome where
  | dropped
  | accepted (ch : ConnectionHandle)
  deriving DecidableEq

/-- `ReadOutcome`. -/
inductive ReadOutcome where
  | read (n : Nat)
  | blocked
  | finished
  deriving DecidableEq

/-- `WriteOutcome`. -/
inductive WriteOutcome where
  | wrote (n : Nat)
  | blocked
  deriving DecidableEq

/-- `Event`. -/
inductive Event where
  | connected (conn : ConnectionHandle)
  | streamOpened (conn : ConnectionHandle) (id : StreamId) (dir : Dir)
  | streamReadable (conn : ConnectionHandle) (id : StreamId)
  | streamWritable (conn : ConnectionHandle) (id : StreamId)
  | streamFinAcked (conn : ConnectionHandle) (id : StreamId)
  | streamStopped (conn : ConnectionHandle) (id : StreamId) (errorCode : Nat)
  | connectionLost (conn : ConnectionHandle) (reason : ConnectionError)
  deriving DecidableEq

/-- The handle an event names. -/
def Event.conn : Event → ConnectionHandle
  | .connected ch => ch
  | .streamOpened ch _ _ => ch
  | .streamReadable ch _ => ch
  | .streamWritable ch _ => ch
  | .streamFinAcked ch _ => ch
  | .streamStopped ch _ _ => ch
  | .connectionLost ch _ => ch

/-- The event is `ConnectionLost`. -/
def Event.isLost : Event → Bool
  | .connectionLost _ _ => true
  | _ => false

/-- The event is `Connected`. -/
def Event.isConnected : Event → Bool
  | .connected _ => true
  | _ => false

/-- The event is about a stream. -/
def Event.isStream (e : Event) : Bool := !e.isConnected && !e.isLost

/-- `ConnError` (`proto/src/conn.rs`). -/
inductive ConnError where
  | closed
  | stopped (code : Nat)
  | reset (code : Nat)
  | closedStream
  | readLimitExceeded (limit : Nat)
  | invalidErrorCode (code : Nat)
  | transport (message : String)
  deriving DecidableEq

end QuietQuic.Proto
