import NfsWire.Rpc.Shape
import NfsWire.Xdr.Decode

/-!
# Headers of calls and replies

The header of a message is read by its shape, and what the rest of the library needs of it is
then picked out of the tree: who calls which procedure, or how a call fared. The tree itself
is kept for reports.

A system credential is opaque to the message that carries it. It is read with a reader of its
own, whose errors are reported under the path of the credential and with offsets into it.
-/

namespace NfsWire.Rpc

/-- Whether a message asks or answers. -/
inductive Direction where
  | call
  | reply
  deriving DecidableEq, Repr, Inhabited

def Direction.name : Direction → String
  | .call => "call"
  | .reply => "reply"

/-- A credential or verifier. -/
structure OpaqueAuth where
  flavor : UInt32
  body : Bytes
  deriving DecidableEq, Repr, Inhabited

/-- What a call says in front of its arguments. -/
structure Call where
  rpcVersion : UInt32
  program : UInt32
  version : UInt32
  procedure : UInt32
  cred : OpaqueAuth
  verf : OpaqueAuth
  /-- The content of the credential when it is a system credential. -/
  authSys : Option Value
  deriving Repr, Inhabited

/-- What a reply says in front of its results. Mismatches give the lowest and the highest
supported version. -/
inductive Reply where
  | accepted (verf : OpaqueAuth) (status : UInt32) (mismatch : Option (UInt32 × UInt32))
  | denied (status : UInt32) (mismatch : Option (UInt32 × UInt32)) (authStatus : Option UInt32)
  deriving DecidableEq, Repr, Inhabited

/-- Whether results follow the header. -/
def Reply.isSuccess : Reply → Bool
  | .accepted _ status _ => status == 0
  | .denied .. => false

/-- A call or a reply. -/
inductive Content where
  | call (c : Call)
  | reply (r : Reply)
  deriving Repr, Inhabited

/-- The header of a message. -/
structure Header where
  /-- The transaction id that a call and its reply share. -/
  xid : UInt32
  content : Content
  /-- All fields of the header. -/
  record : Value
  /-- Where the arguments or results start in the message. -/
  bodyOffset : Nat
  deriving Repr, Inhabited

namespace Header

def direction (h : Header) : Direction :=
  match h.content with
  | .call _ => .call
  | .reply _ => .reply

def call? (h : Header) : Option Call :=
  match h.content with
  | .call c => some c
  | .reply _ => none

def reply? (h : Header) : Option Reply :=
  match h.content with
  | .call _ => none
  | .reply r => some r

theorem call?_eq_some {h : Header} {c : Call} : h.call? = some c ↔ h.content = .call c := by
  unfold call?
  cases h.content <;> simp

theorem reply?_eq_some {h : Header} {r : Reply} : h.reply? = some r ↔ h.content = .reply r := by
  unfold reply?
  cases h.content <;> simp

end Header

/-! ## Picking the header apart -/

/-- The word found along a path of names. -/
def word? (v : Value) (names : List String) : Option UInt32 :=
  (v.follow? names).bind (·.toUInt32?)

/-- The discriminant of the union found along a path of names. -/
def disc? (v : Value) (names : List String) : Option UInt32 := do
  let (d, _, _) ← (← v.follow? names).union?
  d.toUInt32?

/-- The credential or verifier found along a path of names. -/
def auth? (v : Value) (names : List String) : Option OpaqueAuth := do
  let node ← v.follow? names
  return { flavor := ← word? node ["flavor"], body := ← (← node.get? "body").bytes? }

/-- The range of versions found along a path of names. -/
def range? (v : Value) (names : List String) : Option (UInt32 × UInt32) := do
  let node ← v.follow? names
  return (← word? node ["low"], ← word? node ["high"])

/-- Where the credential of a call lies in a message. -/
def credPath : List String := ["body", "cbody", "cred"]

/-- The path of the content of the credential. -/
def credBodyPath : FieldPath := (credPath ++ ["body"]).map .name

/-- The content of a system credential; none for another flavor. -/
def readAuthSys (strict : Bool) (cred : OpaqueAuth) : Except DecodeError (Option Value) :=
  if cred.flavor = authSys then
    match authSysParms.decode { strict } (Cursor.at cred.body 0) with
    | .ok v _ => .ok (some v)
    | .error e _ => .error ((e.inProtocol .rpc).under credBodyPath)
  else .ok none

/-- The error for a tree that has not what a message has at a path of names. Reading by the shape of
a message yields none such. -/
def notAMessage (names : List String) : DecodeError :=
  { protocol := some .rpc, fault := .mismatch .messageHeader, path := names.map .name, offset := 0 }

/-- What is found along a path of names, or the error that it is not there. -/
def pick {α : Type} (find? : Value → List String → Option α) (v : Value) (names : List String) :
    Except DecodeError α :=
  match find? v names with
  | some a => .ok a
  | none => .error (notAMessage names)

theorem pick_of_eq_some {α : Type} {find? : Value → List String → Option α} {v : Value}
    {names : List String} {a : α} (h : find? v names = some a) : pick find? v names = .ok a := by
  rw [pick, h]

/-- The call that a message tree holds, with the credential that was picked out of it. -/
def callWith (v : Value) (cred : OpaqueAuth) (authSys : Option Value) :
    Except DecodeError Call := do
  return {
    rpcVersion := ← pick word? v ["body", "cbody", "rpcvers"]
    program := ← pick word? v ["body", "cbody", "prog"]
    version := ← pick word? v ["body", "cbody", "vers"]
    procedure := ← pick word? v ["body", "cbody", "proc"]
    cred
    verf := ← pick auth? v ["body", "cbody", "verf"]
    authSys }

/-- The call that a message tree holds. Its credential comes first. -/
def callOf (strict : Bool) (v : Value) : Except DecodeError Call := do
  let cred ← pick auth? v credPath
  callWith v cred (← readAuthSys strict cred)

/-- The reply that a message tree holds; `reply` is the content of its body. -/
def replyOf (v reply : Value) : Except DecodeError Reply :=
  match reply.union? with
  | none => .error (notAMessage ["body", "rbody"])
  | some (_, arm, _) =>
    if arm = "areply" then do
      return .accepted (← pick auth? v ["body", "rbody", "areply", "verf"])
        (← pick disc? v ["body", "rbody", "areply", "reply_data"])
        (range? v ["body", "rbody", "areply", "reply_data", "mismatch_info"])
    else if arm = "rreply" then do
      return .denied (← pick disc? v ["body", "rbody", "rreply"])
        (range? v ["body", "rbody", "rreply", "mismatch_info"])
        (word? v ["body", "rbody", "rreply", "stat"])
    else .error (notAMessage ["body", "rbody"])

/-- Pick the content of a message out of its tree. -/
def contentOf (strict : Bool) (v : Value) : Except DecodeError Content :=
  match (v.get? "body").bind (·.union?) with
  | none => .error (notAMessage ["body"])
  | some (_, arm, content) =>
    if arm = "cbody" then .call <$> callOf strict v
    else if arm = "rbody" then .reply <$> replyOf v content
    else .error (notAMessage ["body"])

/-- Read the header of a whole message: a datagram, a record, or the message of a transport
header. -/
def decodeHeader (input : Bytes) (strict : Bool) : Except DecodeError Header :=
  match message.decode { strict } (Cursor.at input 0) with
  | .error e _ => .error (e.inProtocol .rpc)
  | .ok record c => do
    let xid ← pick word? record ["xid"]
    let content ← contentOf strict record
    return { xid, content, record, bodyOffset := c.offset }

end NfsWire.Rpc
