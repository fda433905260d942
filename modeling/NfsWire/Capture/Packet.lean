import NfsWire.Capture.Flow
import NfsWire.Rdma.Header
import NfsWire.Rpc.Header
import NfsWire.Rpc.Program

/-!
# Packets, messages and events

A *packet* is one captured payload. A *message* is what decoding makes of it, and *events*
are what the rest of the world is told.
-/

namespace NfsWire

/-- How a payload travels. -/
inductive Transport where
  /-- One message per payload. -/
  | udp
  /-- A byte stream of records. -/
  | tcp
  /-- A transport header, with or without a message. -/
  | rdma
  deriving DecidableEq, Repr, Inhabited

def Transport.name : Transport → String
  | .udp => "udp"
  | .tcp => "tcp"
  | .rdma => "rdma"

/-- One captured payload. -/
structure Packet where
  seen : Observation
  src : Endpoint
  dst : Endpoint
  transport : Transport
  payload : Bytes
  deriving DecidableEq, Repr, Inhabited

/-- The flow of a message that goes one way or the other between the ends of a packet. -/
def Packet.flow (p : Packet) : Rpc.Direction → Flow
  | .call => .ofCall p.src p.dst
  | .reply => .ofReply p.src p.dst

/-- A call or reply. -/
structure Message where
  seen : Observation
  flow : Flow
  transport : Transport
  xid : UInt32
  direction : Rpc.Direction
  /-- None when only a transport header was seen. -/
  header : Option Rpc.Header
  /-- The transport header of a message that came with one. -/
  rdma : Option Rdma.Header
  /-- None when a reply carries no results, and when the body could not be read. -/
  body : Option Rpc.Body
  deriving Repr, Inhabited

/-- A message of which only the transport header is known. -/
def Message.ofRdma (p : Packet) (direction : Rpc.Direction) (header : Rdma.Header)
    (body : Option Rpc.Body) : Message where
  seen := p.seen
  flow := p.flow direction
  transport := p.transport
  xid := header.xid
  direction
  header := none
  rdma := some header
  body

/-- The call of a message, if it is one and its header was seen. -/
def Message.call? (m : Message) : Option Rpc.Call := m.header.bind (·.call?)

/-- What the world is told. -/
inductive Event where
  | message (m : Message)
  | matched (call reply : Message) (retransmissions : UInt32)
  | orphanReply (reply : Message)
  | retransmission (flow : Flow) (xid count : UInt32) (seq : Nat)
  | timeout (call : Message) (retransmissions : UInt32)
  /-- Data that the capture lacks. -/
  | unresolved (seq : Nat) (xid : UInt32) (ref : ChunkRef)
  /-- A peer could not handle a transport header. -/
  | rdmaError (seq : Nat) (src dst : Endpoint) (header : Rdma.Header)
  | error (seq : Nat) (src dst : Endpoint) (transport : Transport) (e : DecodeError)
  deriving Repr, Inhabited

def Event.name : Event → String
  | .message _ => "message"
  | .matched .. => "matched"
  | .orphanReply _ => "orphan_reply"
  | .retransmission .. => "retransmission"
  | .timeout .. => "timeout"
  | .unresolved .. => "unresolved"
  | .rdmaError .. => "rdma_error"
  | .error .. => "error"

/-- A packet that could not be decoded. -/
def Packet.error (p : Packet) (e : DecodeError) : Event :=
  .error p.seen.seq p.src p.dst p.transport e

end NfsWire
