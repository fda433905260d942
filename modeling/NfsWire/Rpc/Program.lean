import NfsWire.Nfs3.Shape
import NfsWire.Nlm4.Shape
import NfsWire.Xdr.Decode

/-!
# Programs and the bodies of their calls

A program is known by its number and version, and lists its procedures with the shapes of
their arguments and results. The body of a call to a known procedure is read by its shape;
any other body is kept as it is, as opaque data, and is no error.
-/

namespace NfsWire.Rpc

/-- A procedure of a program. -/
structure Procedure where
  number : UInt32
  name : String
  args : Shape
  results : Shape
  deriving Inhabited

/-- One version of a program. -/
structure Program where
  protocol : Protocol
  number : UInt32
  version : UInt32
  procedures : List Procedure
  deriving Inhabited

namespace Program

/-- The program with these shapes, its procedures named by `names`. -/
def ofShapes (protocol : Protocol) (number version : UInt32) (names : Table)
    (shapes : List (UInt32 × Shape × Shape)) : Program where
  protocol
  number
  version
  procedures := shapes.map fun (n, args, results) =>
    { number := n, name := (names.name? n.toInt32).getD "UNKNOWN", args, results }

/-- The procedure of that number. -/
def procedure? (p : Program) (number : UInt32) : Option Procedure :=
  p.procedures.find? (·.number == number)

def nfs3 : Program := ofShapes .nfs3 Nfs3.program 3 Nfs3.procedures Nfs3.shapes

def nlm4 : Program := ofShapes .nlm4 Nlm4.program 4 Nlm4.procedures Nlm4.shapes

/-- All programs that are understood. -/
def all : List Program := [nfs3, nlm4]

/-- The program of that number and version. -/
def find? (number version : UInt32) : Option Program :=
  all.find? fun p => p.number == number && p.version == version

end Program

/-- The procedure that a call names, and the program it belongs to. -/
def procedure? (program version procedure : UInt32) : Option (Program × Procedure) :=
  (Program.find? program version).bind fun p => (p.procedure? procedure).map (p, ·)

/-! ## Bodies -/

/-- Whether a body holds the arguments or the results of its procedure. -/
inductive BodyKind where
  | args
  | results
  deriving DecidableEq, Repr, Inhabited

/-- The shape of a body of that kind. -/
def Procedure.shape (p : Procedure) : BodyKind → Shape
  | .args => p.args
  | .results => p.results

/-- The arguments or results of a procedure. -/
structure Body where
  /-- None when the procedure is unknown. -/
  protocol : Option Protocol
  procedure : Option String
  value : Value
  /-- Octets of the message that the body leaves over. -/
  trailing : Nat
  deriving Repr, Inhabited

/-- A body about whose content nothing is known. -/
def Body.unnamed (value : Value) : Body :=
  { protocol := none, procedure := none, value, trailing := 0 }

/-- All that follows `offset`, as opaque data. -/
def Body.raw (message : Bytes) (offset : Nat) : Body :=
  .unnamed (.octets (message.drop offset))

/-- Read the arguments or results of a procedure at `offset` of a message. Items of results
may be found in write chunks, items of arguments may not. -/
def decodeBody (program version procedure : UInt32) (kind : BodyKind) (message : Bytes)
    (offset : Nat) (strict : Bool) (chunks : Option ChunkMap) : Except DecodeError Body :=
  match procedure? program version procedure with
  | none => .ok (.raw message offset)
  | some (prog, proc) =>
    let ctx : ReadContext := { strict, chunks, useWrites := kind == .results }
    match (proc.shape kind).decode ctx (Cursor.at message offset) with
    | .ok value c =>
      .ok { protocol := some prog.protocol, procedure := some proc.name, value,
            trailing := c.rest.length }
    | .error e _ => .error (e.inProtocol prog.protocol)

end NfsWire.Rpc
