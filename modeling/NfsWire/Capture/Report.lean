import NfsWire.Capture.Packet
import NfsWire.Xdr.Render

/-!
# Events as JSON

Each event becomes an object with its name under `event_type`. What is not known of a message
is left out of its object.
-/

namespace NfsWire

namespace Json

/-- A member that may be left out. -/
def member? {α : Type} (key : String) (f : α → Json) : Option α → Members
  | none => []
  | some a => [(key, f a)]

end Json

def Flow.toJson (f : Flow) : Json :=
  .obj [("client", .str f.client.text), ("server", .str f.server.text)]

def DecodeError.toJson (e : DecodeError) : Json :=
  .obj [
    ("protocol", .str e.protocolName),
    ("kind", .str e.fault.kind),
    ("message", .str e.fault.message),
    ("path", .str e.path.text),
    ("offset", .nat e.offset)]

def Rpc.Body.members (b : Rpc.Body) : Json.Members :=
  Json.member? "protocol" (.str ·.name) b.protocol ++
    Json.member? "procedure" .str b.procedure ++
    [("body", b.value.toJson)]

/-- The header of a message and the content of its system credential. -/
def Rpc.Header.members (h : Rpc.Header) : Json.Members :=
  ("rpc", h.record.toJson) ::
    Json.member? "auth_sys" Value.toJson (h.call?.bind (·.authSys))

def Message.toJson (m : Message) : Json :=
  .obj ([("seq", .nat m.seen.seq)] ++
    Json.member? "timestamp" (.float ·.toFloat) m.seen.time ++
    [("flow", m.flow.toJson),
      ("transport", .str m.transport.name),
      ("direction", .str m.direction.name),
      ("xid", .nat m.xid.toNat)] ++
    (m.header.map (·.members)).getD [] ++
    Json.member? "rdma" (·.record.toJson) m.rdma ++
    (m.body.map (·.members)).getD [])

/-- What an event tells, besides its name. -/
def Event.members : Event → Json.Members
  | .message m => [("message", m.toJson)]
  | .matched call reply n =>
    [("call", call.toJson), ("reply", reply.toJson), ("retransmissions", .nat n.toNat)]
  | .orphanReply reply => [("reply", reply.toJson)]
  | .retransmission flow xid count seq =>
    [("flow", flow.toJson), ("xid", .nat xid.toNat), ("count", .nat count.toNat),
      ("seq", .nat seq)]
  | .timeout call n => [("call", call.toJson), ("retransmissions", .nat n.toNat)]
  | .unresolved seq xid ref =>
    [("seq", .nat seq), ("xid", .nat xid.toNat), ("chunk", ref.toJson)]
  | .rdmaError seq src dst header =>
    [("seq", .nat seq), ("src", .str src.text), ("dst", .str dst.text),
      ("rdma", header.record.toJson)]
  | .error seq src dst transport e =>
    [("seq", .nat seq), ("src", .str src.text), ("dst", .str dst.text),
      ("transport", .str transport.name), ("error", e.toJson)]

def Event.toJson (e : Event) : Json :=
  .obj (("event_type", .str e.name) :: e.members)

end NfsWire
