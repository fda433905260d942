import NfsWire.Proofs.Xdr.Parts
import NfsWire.Proofs.Xdr.Selection
import NfsWire.Rpc.Header

/-!
# What the header of a message says

The header of a message is read as a tree, and its fields are picked out of the tree by name. The
trees that can be read are few: a call has one form, and a reply has five, by what its status words
are (`Reply.Tree`). For each form it is shown what its octets are, and what is picked out of it.

* A tree that has the shape of a message is of one of the forms (`conforms_message`), and in each
  form the fields go together (`Reply.Tree.coherent`).
* What is picked out of a tree is what it was built from, so that no name leads astray or to
  nothing (`contentOf_tree`).
* The octets of a tree are those of the fields, one after the other (`whole_layout_message`).

So a header that is read says what its octets say, and nothing keeps a message from being read but
the message itself and the content of a system credential (`decodeHeader_exact`).
-/

namespace NfsWire.Rpc

open Shape (codeValue conforms_code conforms_either eq_of_armCode? eq_of_toInt_eq
  toUInt32?_codeValue whole_layout_code whole_layout_union)

/-! ## Forms of a message -/

def OpaqueAuth.value (a : OpaqueAuth) : Value :=
  .struct [("flavor", codeValue authFlavor a.flavor), ("body", .octets a.body)]

def rangeValue (range : UInt32 × UInt32) : Value :=
  .struct [("low", .uint range.1), ("high", .uint range.2)]

def Call.value (c : Call) : Value :=
  .struct [("rpcvers", .uint c.rpcVersion), ("prog", .uint c.program), ("vers", .uint c.version),
    ("proc", .uint c.procedure), ("cred", c.cred.value), ("verf", c.verf.value)]

def acceptedValue (verf : OpaqueAuth) (status : UInt32) (arm : String) (v : Value) : Value :=
  .union (codeValue replyStat 0) "areply"
    (.struct [("verf", verf.value), ("reply_data", .union (codeValue acceptStat status) arm v)])

def deniedValue (status : UInt32) (arm : String) (v : Value) : Value :=
  .union (codeValue replyStat 1) "rreply" (.union (codeValue rejectStat status) arm v)

/-- The content is not too long. -/
def OpaqueAuth.Fits (a : OpaqueAuth) : Prop := a.body.length ≤ maxAuthBytes.toNat

/-- The forms of a reply. What there is besides the status depends on it. -/
inductive Reply.Tree : Reply → Value → Prop where
  | success {verf : OpaqueAuth} : verf.Fits →
      Tree (.accepted verf 0 none) (acceptedValue verf 0 "results" .void)
  | programMismatch {verf : OpaqueAuth} (range : UInt32 × UInt32) : verf.Fits →
      Tree (.accepted verf 2 (some range))
        (acceptedValue verf 2 "mismatch_info" (rangeValue range))
  | failure {verf : OpaqueAuth} {status : UInt32} : verf.Fits → status ≠ 0 → status ≠ 2 →
      Tree (.accepted verf status none) (acceptedValue verf status "void" .void)
  | versionMismatch (range : UInt32 × UInt32) :
      Tree (.denied 0 (some range) none) (deniedValue 0 "mismatch_info" (rangeValue range))
  | authError (status : UInt32) :
      Tree (.denied 1 none (some status)) (deniedValue 1 "stat" (codeValue authStat status))

/-- The forms of a message behind its transaction id. The content of a system credential is no part
of the tree. -/
inductive Content.Tree : Content → Value → Prop where
  | call {c : Call} : c.cred.Fits → c.verf.Fits →
      Tree (.call c) (.union (codeValue msgType 0) "cbody" c.value)
  | reply {r : Reply} {v : Value} : r.Tree v →
      Tree (.reply r) (.union (codeValue msgType 1) "rbody" v)

/-- The tree of a message. -/
def messageValue (xid : UInt32) (body : Value) : Value :=
  .struct [("xid", .uint xid), ("body", body)]

/-! ## Octets of a message -/

def OpaqueAuth.octets (a : OpaqueAuth) : Bytes :=
  Bytes.word a.flavor ++ (Bytes.word (UInt32.ofNat a.body.length) ++ Bytes.filled a.body)

def rangeOctets : Option (UInt32 × UInt32) → Bytes
  | none => []
  | some (low, high) => Bytes.word low ++ Bytes.word high

def Call.octets (c : Call) : Bytes :=
  Bytes.word c.rpcVersion ++ Bytes.word c.program ++ Bytes.word c.version ++
    Bytes.word c.procedure ++ c.cred.octets ++ c.verf.octets

/-- The first word says whether the call was accepted. -/
def Reply.octets : Reply → Bytes
  | .accepted verf status mismatch =>
    Bytes.word 0 ++ verf.octets ++ Bytes.word status ++ rangeOctets mismatch
  | .denied status mismatch authStatus =>
    Bytes.word 1 ++ Bytes.word status ++ rangeOctets mismatch ++ authStatus.elim [] Bytes.word

/-- The first word says whether it is a call. -/
def Content.octets : Content → Bytes
  | .call c => Bytes.word 0 ++ c.octets
  | .reply r => Bytes.word 1 ++ r.octets

/-! ## Nothing else has the shape of a message -/

section Conforms

variable {v : Value}

theorem conforms_opaqueAuth (h : opaqueAuth.Conforms v) :
    ∃ a : OpaqueAuth, a.Fits ∧ v = a.value := by
  obtain ⟨_, rfl, hfields⟩ := Shape.conforms_struct.mp h
  obtain ⟨_, _, rfl, hflavor, hfields⟩ := Shape.fieldsConform_cons.mp hfields
  obtain ⟨_, _, rfl, hbody, hfields⟩ := Shape.fieldsConform_cons.mp hfields
  cases Shape.fieldsConform_nil.mp hfields
  obtain ⟨flavor, rfl⟩ := conforms_code.mp hflavor
  obtain ⟨body, rfl, hn⟩ := Shape.conforms_octets.mp hbody
  exact ⟨⟨flavor, body⟩, hn.2 _ rfl, rfl⟩

theorem conforms_mismatchInfo (h : mismatchInfo.Conforms v) : ∃ range, v = rangeValue range := by
  obtain ⟨_, rfl, hfields⟩ := Shape.conforms_struct.mp h
  obtain ⟨_, _, rfl, hlow, hfields⟩ := Shape.fieldsConform_cons.mp hfields
  obtain ⟨_, _, rfl, hhigh, hfields⟩ := Shape.fieldsConform_cons.mp hfields
  cases Shape.fieldsConform_nil.mp hfields
  obtain ⟨low, rfl⟩ := Shape.conforms_uint.mp hlow
  obtain ⟨high, rfl⟩ := Shape.conforms_uint.mp hhigh
  exact ⟨(low, high), rfl⟩

theorem conforms_callBody (h : callBody.Conforms v) :
    ∃ c : Call, c.cred.Fits ∧ c.verf.Fits ∧ v = c.value := by
  obtain ⟨_, rfl, hfields⟩ := Shape.conforms_struct.mp h
  obtain ⟨_, _, rfl, hrpcVersion, hfields⟩ := Shape.fieldsConform_cons.mp hfields
  obtain ⟨_, _, rfl, hprogram, hfields⟩ := Shape.fieldsConform_cons.mp hfields
  obtain ⟨_, _, rfl, hversion, hfields⟩ := Shape.fieldsConform_cons.mp hfields
  obtain ⟨_, _, rfl, hprocedure, hfields⟩ := Shape.fieldsConform_cons.mp hfields
  obtain ⟨_, _, rfl, hcred, hfields⟩ := Shape.fieldsConform_cons.mp hfields
  obtain ⟨_, _, rfl, hverf, hfields⟩ := Shape.fieldsConform_cons.mp hfields
  cases Shape.fieldsConform_nil.mp hfields
  obtain ⟨rpcVersion, rfl⟩ := Shape.conforms_uint.mp hrpcVersion
  obtain ⟨program, rfl⟩ := Shape.conforms_uint.mp hprogram
  obtain ⟨version, rfl⟩ := Shape.conforms_uint.mp hversion
  obtain ⟨procedure, rfl⟩ := Shape.conforms_uint.mp hprocedure
  obtain ⟨cred, hcredFits, rfl⟩ := conforms_opaqueAuth hcred
  obtain ⟨verf, hverfFits, rfl⟩ := conforms_opaqueAuth hverf
  exact ⟨{ rpcVersion, program, version, procedure, cred, verf, authSys := none },
    hcredFits, hverfFits, rfl⟩

theorem conforms_acceptedReply (h : acceptedReply.Conforms v) :
    ∃ r : Reply, r.Tree (.union (codeValue replyStat 0) "areply" v) := by
  obtain ⟨_, rfl, hfields⟩ := Shape.conforms_struct.mp h
  obtain ⟨_, _, rfl, hverf, hfields⟩ := Shape.fieldsConform_cons.mp hfields
  obtain ⟨_, _, rfl, hdata, hfields⟩ := Shape.fieldsConform_cons.mp hfields
  cases Shape.fieldsConform_nil.mp hfields
  obtain ⟨verf, hfits, rfl⟩ := conforms_opaqueAuth hverf
  -- Two codes have an arm of their own, and all others, unknown ones too, share the third.
  obtain ⟨d, code, arm, t, x, rfl, hd, hcode, harm, hx⟩ := Shape.conforms_union.mp hdata
  obtain ⟨status, rfl⟩ := conforms_code.mp hd
  rw [Shape.arm?_cons, Shape.arm?_cons, Shape.arm?_nil] at harm
  split at harm
  next hzero =>
    cases harm
    rw [eq_of_armCode? (k := 0) hcode hzero, Shape.conforms_void.mp hx]
    exact ⟨_, .success hfits⟩
  next hzero =>
    split at harm
    next htwo =>
      cases harm
      obtain ⟨range, rfl⟩ := conforms_mismatchInfo hx
      rw [eq_of_armCode? (k := 2) hcode htwo]
      exact ⟨_, .programMismatch range hfits⟩
    next htwo =>
      cases harm
      rw [Shape.conforms_void.mp hx]
      have hother {k : UInt32} (hk : k.toInt32.toInt ≠ code) : status ≠ k := by
        rintro rfl
        exact hk (Option.some.inj hcode)
      exact ⟨_, .failure hfits (hother hzero) (hother htwo)⟩

theorem conforms_deniedReply (h : deniedReply.Conforms v) :
    ∃ r : Reply, r.Tree (.union (codeValue replyStat 1) "rreply" v) := by
  rcases conforms_either (k := 0) (j := 1) h with ⟨x, rfl, hx⟩ | ⟨x, rfl, hx⟩
  · obtain ⟨range, rfl⟩ := conforms_mismatchInfo hx
    exact ⟨_, .versionMismatch range⟩
  · obtain ⟨status, rfl⟩ := conforms_code.mp hx
    exact ⟨_, .authError status⟩

/-- **What has the shape of a message is a call or a reply in one of its forms.** -/
theorem conforms_message (h : message.Conforms v) :
    ∃ (xid : UInt32) (content : Content) (body : Value),
      content.Tree body ∧ v = messageValue xid body := by
  obtain ⟨_, rfl, hfields⟩ := Shape.conforms_struct.mp h
  obtain ⟨_, _, rfl, hxid, hfields⟩ := Shape.fieldsConform_cons.mp hfields
  obtain ⟨_, _, rfl, hbody, hfields⟩ := Shape.fieldsConform_cons.mp hfields
  cases Shape.fieldsConform_nil.mp hfields
  obtain ⟨xid, rfl⟩ := Shape.conforms_uint.mp hxid
  rcases conforms_either (k := 0) (j := 1) hbody with ⟨x, rfl, hx⟩ | ⟨x, rfl, hx⟩
  · obtain ⟨c, hcred, hverf, rfl⟩ := conforms_callBody hx
    exact ⟨xid, .call c, _, .call hcred hverf, rfl⟩
  · rcases conforms_either (k := 0) (j := 1) hx with ⟨y, rfl, hy⟩ | ⟨y, rfl, hy⟩
    · obtain ⟨r, hr⟩ := conforms_acceptedReply hy
      exact ⟨xid, .reply r, _, .reply hr, rfl⟩
    · obtain ⟨r, hr⟩ := conforms_deniedReply hy
      exact ⟨xid, .reply r, _, .reply hr, rfl⟩

end Conforms

/-! ## The octets of the forms -/

theorem whole_layout_opaqueAuth (a : OpaqueAuth) :
    whole (opaqueAuth.layout a.value) = a.octets := by
  simp [opaqueAuth, OpaqueAuth.value, OpaqueAuth.octets, Shape.octetsUpTo, Shape.layout,
    Shape.layoutFields, Piece.octets, whole_layout_code]

theorem whole_layout_range (range : UInt32 × UInt32) :
    whole (mismatchInfo.layout (rangeValue range)) = rangeOctets (some range) := by
  simp [mismatchInfo, rangeValue, rangeOctets, Shape.layout, Shape.layoutFields, Piece.octets]

theorem whole_layout_call (c : Call) : whole (callBody.layout c.value) = c.octets := by
  simp [callBody, Call.value, Call.octets, Shape.layout, Shape.layoutFields, Piece.octets,
    whole_layout_opaqueAuth]

theorem whole_layout_accepted {verf : OpaqueAuth} {status : UInt32} {arm : String} {s : Shape}
    {v : Value}
    (h : Shape.arm? [(0, "results", .void), (2, "mismatch_info", mismatchInfo)]
      (some ("void", .void)) status.toInt32.toInt = some (arm, s)) :
    whole (replyBody.layout (acceptedValue verf status arm v)) =
      Bytes.word 0 ++ verf.octets ++ Bytes.word status ++ whole (s.layout v) := by
  rw [replyBody, acceptedValue, whole_layout_union rfl, acceptedReply]
  simp only [Shape.layout_struct, List.zip_cons_cons, List.zip_nil_right, List.flatMap_cons,
    List.flatMap_nil, whole_append, List.append_nil, whole_layout_opaqueAuth,
    whole_layout_union h, List.append_assoc]

theorem whole_layout_denied {status : UInt32} {arm : String} {s : Shape} {v : Value}
    (h : Shape.arm? [(0, "mismatch_info", mismatchInfo), (1, "stat", Shape.code authStat)] none
      status.toInt32.toInt = some (arm, s)) :
    whole (replyBody.layout (deniedValue status arm v)) =
      Bytes.word 1 ++ Bytes.word status ++ whole (s.layout v) := by
  rw [replyBody, deniedValue, whole_layout_union rfl, deniedReply, whole_layout_union h,
    List.append_assoc]

theorem whole_layout_reply {r : Reply} {v : Value} (h : r.Tree v) :
    whole (replyBody.layout v) = r.octets := by
  cases h with
  | success _ =>
    rw [whole_layout_accepted rfl]
    rfl
  | programMismatch range _ =>
    rw [whole_layout_accepted rfl, whole_layout_range]
    rfl
  | @failure verf status _ hzero htwo =>
    have harm : Shape.arm? [(0, "results", .void), (2, "mismatch_info", mismatchInfo)]
        (some ("void", .void)) status.toInt32.toInt = some ("void", .void) := by
      rw [Shape.arm?_cons, if_neg fun h => hzero (eq_of_toInt_eq h.symm), Shape.arm?_cons,
        if_neg fun h => htwo (eq_of_toInt_eq h.symm), Shape.arm?_nil]
    rw [whole_layout_accepted harm]
    rfl
  | versionMismatch range =>
    rw [whole_layout_denied rfl, whole_layout_range]
    simp [Reply.octets]
  | authError status =>
    rw [whole_layout_denied rfl, whole_layout_code]
    simp [Reply.octets, rangeOctets]

/-- **The octets of a message are those of its fields, one after the other.** -/
theorem whole_layout_message (xid : UInt32) {content : Content} {body : Value}
    (h : content.Tree body) :
    whole (message.layout (messageValue xid body)) = Bytes.word xid ++ content.octets := by
  have hbody : whole ((Shape.union (Shape.code msgType)
      [(0, "cbody", callBody), (1, "rbody", replyBody)] none).layout body) = content.octets := by
    cases h with
    | call _ _ =>
      rw [whole_layout_union rfl, whole_layout_call]
      rfl
    | reply hr =>
      rw [whole_layout_union rfl, whole_layout_reply hr]
      rfl
  rw [message, messageValue, Shape.layout]
  simp only [Shape.layoutFields, whole_append, List.append_nil, hbody]
  rfl

/-! ## What is picked out of a message -/

section Follow

variable {v : Value} {names : List String}

theorem auth?_of_follow {a : OpaqueAuth} (h : v.follow? names = some a.value) :
    auth? v names = some a := by
  have hflavor : word? a.value ["flavor"] = some a.flavor :=
    toUInt32?_codeValue authFlavor a.flavor
  simp only [auth?, h, Option.bind_eq_bind, Option.bind_some, hflavor]
  rfl

theorem disc?_of_follow {table : Table} {w : UInt32} {arm : String} {x : Value}
    (h : v.follow? names = some (.union (codeValue table w) arm x)) : disc? v names = some w := by
  simp only [disc?, h, Option.bind_eq_bind, Option.bind_some]
  exact toUInt32?_codeValue table w

end Follow

theorem callOf_value (strict : Bool) (xid : UInt32) (c : Call) :
    callOf strict (messageValue xid (.union (codeValue msgType 0) "cbody" c.value)) =
      (readAuthSys strict c.cred).map fun authSys => { c with authSys } := by
  simp only [callOf, callWith]
  rw [pick_of_eq_some (auth?_of_follow (a := c.cred) rfl),
    pick_of_eq_some (auth?_of_follow (a := c.verf) rfl)]
  show Except.bind (readAuthSys strict c.cred) _ = (readAuthSys strict c.cred).map _
  cases readAuthSys strict c.cred with
  | ok content => rfl
  | error e => rfl

theorem replyOf_accepted (xid : UInt32) (verf : OpaqueAuth) (status : UInt32) (arm : String)
    (v : Value) :
    replyOf (messageValue xid (.union (codeValue msgType 1) "rbody"
      (acceptedValue verf status arm v))) (acceptedValue verf status arm v) =
      .ok (.accepted verf status
        (range? (.union (codeValue acceptStat status) arm v) ["mismatch_info"])) := by
  simp only [replyOf]
  rw [pick_of_eq_some (auth?_of_follow (a := verf) rfl),
    pick_of_eq_some (disc?_of_follow (w := status) rfl)]
  rfl

theorem replyOf_denied (xid status : UInt32) (arm : String) (v : Value) :
    replyOf (messageValue xid (.union (codeValue msgType 1) "rbody" (deniedValue status arm v)))
      (deniedValue status arm v) =
      .ok (.denied status
        (range? (.union (codeValue rejectStat status) arm v) ["mismatch_info"])
        (word? (.union (codeValue rejectStat status) arm v) ["stat"])) := by
  have hstatus : disc? (messageValue xid (.union (codeValue msgType 1) "rbody"
      (deniedValue status arm v))) ["body", "rbody", "rreply"] = some status := disc?_of_follow rfl
  simp only [replyOf]
  rw [pick_of_eq_some hstatus]
  rfl

/-- Of an arm that another name stands for nothing is found. -/
theorem replyOf_tree (xid : UInt32) {r : Reply} {v : Value} (h : r.Tree v) :
    replyOf (messageValue xid (.union (codeValue msgType 1) "rbody" v)) v = .ok r := by
  cases h with
  | success _ => exact replyOf_accepted ..
  | programMismatch range _ => exact replyOf_accepted ..
  | failure _ _ _ => exact replyOf_accepted ..
  | versionMismatch range => exact replyOf_denied ..
  | authError status =>
    have hstatus : word? (.union (codeValue rejectStat 1) "stat" (codeValue authStat status))
        ["stat"] = some status := toUInt32?_codeValue authStat status
    rw [replyOf_denied, hstatus]
    rfl

/-- The content of a message whose tree was read. What a system credential holds is read apart. -/
def Content.complete (strict : Bool) : Content → Except DecodeError Content
  | .call c => (readAuthSys strict c.cred).map fun authSys => .call { c with authSys }
  | .reply r => .ok (.reply r)

/-- **All names lead to where they should.** -/
theorem contentOf_tree (strict : Bool) (xid : UInt32) {content : Content} {body : Value}
    (h : content.Tree body) :
    contentOf strict (messageValue xid body) = content.complete strict := by
  cases h with
  | @call c _ _ =>
    have hunion : ((messageValue xid (.union (codeValue msgType 0) "cbody" c.value)).get?
        "body").bind (·.union?) = some (codeValue msgType 0, "cbody", c.value) := rfl
    simp only [contentOf, hunion, callOf_value]
    show Except.map _ ((readAuthSys strict c.cred).map _) = (readAuthSys strict c.cred).map _
    cases readAuthSys strict c.cred with
    | ok content => rfl
    | error e => rfl
  | @reply r v hr =>
    have hunion : ((messageValue xid (.union (codeValue msgType 1) "rbody" v)).get? "body").bind
        (·.union?) = some (codeValue msgType 1, "rbody", v) := rfl
    simp only [contentOf, hunion, replyOf_tree xid hr]
    rfl

/-! ## Reading the header -/

section AuthSys

variable {strict : Bool} {cred : OpaqueAuth}

/-- The content of a credential is there if and only if it is a system credential. -/
theorem readAuthSys_ok {content : Option Value} (h : readAuthSys strict cred = .ok content) :
    (content.isSome ↔ cred.flavor = authSys) ∧ ∀ v, content = some v →
      ∃ c, authSysParms.decode { strict } (Cursor.at cred.body 0) = .ok v c := by
  unfold readAuthSys at h
  split at h
  next hflavor =>
    cases hread : authSysParms.decode { strict } (Cursor.at cred.body 0) with
    | ok v c =>
      rw [hread] at h
      cases h
      exact ⟨by simp [hflavor], by simp⟩
    | error e c =>
      rw [hread] at h
      cases h
  next hflavor =>
    cases h
    exact ⟨by simp [hflavor], by simp⟩

/-- Only the content of a system credential is refused, and for what it holds. -/
theorem readAuthSys_error {e : DecodeError} (h : readAuthSys strict cred = .error e) :
    cred.flavor = authSys ∧ ∃ e' c,
      authSysParms.decode { strict } (Cursor.at cred.body 0) = .error e' c ∧
        e = (e'.inProtocol .rpc).under credBodyPath := by
  unfold readAuthSys at h
  split at h
  next hflavor =>
    cases hread : authSysParms.decode { strict } (Cursor.at cred.body 0) with
    | ok v c =>
      rw [hread] at h
      cases h
    | error e' c =>
      rw [hread] at h
      cases h
      exact ⟨hflavor, e', c, rfl, rfl⟩
  next => cases h

end AuthSys

/-- Credential and verifier of a call are within their limit, and the content of the credential is
there if and only if it is a system credential. -/
structure Call.Coherent (strict : Bool) (call : Call) : Prop where
  cred : call.cred.Fits
  verf : call.verf.Fits
  isSome : call.authSys.isSome ↔ call.cred.flavor = Rpc.authSys
  decoded : ∀ v, call.authSys = some v →
    ∃ c, authSysParms.decode { strict } (Cursor.at call.cred.body 0) = .ok v c

/-- A range of versions is there if and only if the status tells of a mismatch, and so is the status
of the credential if and only if it was refused. -/
def Reply.Coherent : Reply → Prop
  | .accepted verf status mismatch => verf.Fits ∧ (mismatch.isSome ↔ status = 2)
  | .denied status mismatch authStatus =>
    (status = 0 ∨ status = 1) ∧ (mismatch.isSome ↔ status = 0) ∧ (authStatus.isSome ↔ status = 1)

def Content.Coherent (strict : Bool) : Content → Prop
  | .call c => c.Coherent strict
  | .reply r => r.Coherent

/-- What was read of a message as its header is what the message has there. -/
structure Header.Says (h : Header) (input : Bytes) (strict : Bool) : Prop where
  within : h.bodyOffset ≤ input.length
  encode : encode h.record message = .ok (input.take h.bodyOffset)
  octets : input.take h.bodyOffset = Bytes.word h.xid ++ h.content.octets
  coherent : h.content.Coherent strict

theorem Reply.Tree.coherent {r : Reply} {v : Value} (h : r.Tree v) : r.Coherent := by
  cases h with
  | success hfits => exact ⟨hfits, by decide⟩
  | programMismatch range hfits => exact ⟨hfits, by simp⟩
  | failure hfits _ htwo => exact ⟨hfits, by simp [htwo]⟩
  | versionMismatch range => exact ⟨.inl rfl, by simp, by decide⟩
  | authError status => exact ⟨.inr rfl, by decide, by simp⟩

section Complete

variable {strict : Bool} {content full : Content} {body : Value}

/-- The content of a credential is no part of the octets, so it does not change them. -/
theorem Content.complete_ok (htree : content.Tree body) (h : content.complete strict = .ok full) :
    full.octets = content.octets ∧ full.Coherent strict := by
  cases htree with
  | @call call hcred hverf =>
    cases hauth : readAuthSys strict call.cred with
    | error e =>
      rw [Content.complete, hauth] at h
      cases h
    | ok authSys =>
      rw [Content.complete, hauth] at h
      cases h
      obtain ⟨hsome, hdecoded⟩ := readAuthSys_ok hauth
      exact ⟨rfl, hcred, hverf, hsome, hdecoded⟩
  | reply hr =>
    cases h
    exact ⟨rfl, hr.coherent⟩

theorem Content.complete_error {e : DecodeError} (h : content.complete strict = .error e) :
    ∃ call : Call, content = .call call ∧ readAuthSys strict call.cred = .error e := by
  cases content with
  | call call =>
    refine ⟨call, rfl, ?_⟩
    rw [Content.complete] at h
    cases hauth : readAuthSys strict call.cred with
    | error e' =>
      rw [hauth] at h
      cases h
      rfl
    | ok authSys =>
      rw [hauth] at h
      cases h
  | reply r => cases h

end Complete

section DecodeHeader

variable {input : Bytes} {strict : Bool} {record : Value} {c : Cursor}

/-- **What is read of a message has one of the forms**, its octets are in front of the message, and
its header is picked out of it. -/
theorem exists_tree_of_decode
    (h : message.decode { strict } (Cursor.at input 0) = .ok record c) :
    ∃ (xid : UInt32) (content : Content) (body : Value),
      content.Tree body ∧ c.offset ≤ input.length ∧
      encode record message = .ok (input.take c.offset) ∧
      input.take c.offset = Bytes.word xid ++ content.octets ∧
      decodeHeader input strict = (content.complete strict).map fun content =>
        { xid, content, record, bodyOffset := c.offset } := by
  obtain ⟨hconforms, hreads⟩ := Shape.reads_of_decode rfl rfl h
  obtain ⟨-, hwithin, hdata⟩ := Cursor.between (Nat.zero_le _) hreads.rest hreads.offset
  obtain ⟨-, -, hencode⟩ := encode_of_decode (by decide) (Nat.zero_le _) h
  obtain ⟨xid, content, body, htree, rfl⟩ := conforms_message hconforms
  have htake : input.between 0 c.offset = input.take c.offset := rfl
  rw [whole_layout_message xid htree, htake] at hdata
  refine ⟨xid, content, body, htree, hwithin, hencode, hdata, ?_⟩
  simp only [decodeHeader, h, contentOf_tree strict xid htree]
  show Except.bind (content.complete strict) _ = _
  cases content.complete strict with
  | ok full => rfl
  | error e => rfl

/-- **A message is refused for what it holds**, and never because its tree is not that of a
message. -/
theorem decodeHeader_fault {e : DecodeError} (h : decodeHeader input strict = .error e)
    (what : Mismatch) : e.fault ≠ .mismatch what := by
  cases hread : message.decode { strict } (Cursor.at input 0) with
  | error e' c =>
    simp only [decodeHeader, hread] at h
    cases h
    rw [DecodeError.fault_inProtocol]
    exact Shape.fault_ne_mismatch (by decide) hread what
  | ok record c =>
    obtain ⟨xid, content, body, -, -, -, -, hheader⟩ := exists_tree_of_decode hread
    rw [hheader] at h
    cases hcomplete : content.complete strict with
    | ok full =>
      rw [hcomplete] at h
      cases h
    | error e' =>
      rw [hcomplete] at h
      cases h
      obtain ⟨call, -, hauth⟩ := Content.complete_error hcomplete
      obtain ⟨-, e', c', hrefused, rfl⟩ := readAuthSys_error hauth
      show (e'.inProtocol .rpc).fault ≠ _
      rw [DecodeError.fault_inProtocol]
      exact Shape.fault_ne_mismatch (by decide) hrefused what

/-- **A header that is read is what the message has there.** -/
theorem says_of_decodeHeader {h : Header} (hheader : decodeHeader input strict = .ok h) :
    h.Says input strict := by
  cases hread : message.decode { strict } (Cursor.at input 0) with
  | error e c =>
    simp only [decodeHeader, hread] at hheader
    cases hheader
  | ok record c =>
    obtain ⟨xid, content, body, htree, hwithin, hencode, hoctets, hpicked⟩ :=
      exists_tree_of_decode hread
    rw [hpicked] at hheader
    cases hcomplete : content.complete strict with
    | error e =>
      rw [hcomplete] at hheader
      cases hheader
    | ok full =>
      rw [hcomplete] at hheader
      cases hheader
      obtain ⟨hsame, hcoherent⟩ := Content.complete_ok htree hcomplete
      rw [← hsame] at hoctets
      exact ⟨hwithin, hencode, hoctets, hcoherent⟩

/-! ## The credential of a call -/

/-- The message starts with the header of a call that has this credential. -/
def CallsWith (input : Bytes) (cred : OpaqueAuth) : Prop :=
  ∃ (xid : UInt32) (call : Call), call.cred = cred ∧ cred.Fits ∧
    Bytes.word xid ++ (Content.call call).octets <+: input

theorem word_append_inj {v w : UInt32} {xs ys : Bytes}
    (h : Bytes.word v ++ xs = Bytes.word w ++ ys) : v = w ∧ xs = ys := by
  obtain ⟨hword, htail⟩ := List.append_inj h (by simp)
  exact ⟨Bytes.word_inj hword, htail⟩

theorem OpaqueAuth.octets_append_inj {a b : OpaqueAuth} (ha : a.Fits) (hb : b.Fits)
    {xs ys : Bytes} (h : a.octets ++ xs = b.octets ++ ys) : a = b := by
  simp only [OpaqueAuth.octets, Bytes.filled, List.append_assoc] at h
  obtain ⟨hflavor, h⟩ := word_append_inj h
  obtain ⟨hcount, h⟩ := word_append_inj h
  have hlength : a.body.length = b.body.length := by
    have hmax : maxAuthBytes.toNat < UInt32.size := by decide
    have hmod := congrArg UInt32.toNat hcount
    rwa [UInt32.toNat_ofNat_of_lt' (Nat.lt_of_le_of_lt ha hmax),
      UInt32.toNat_ofNat_of_lt' (Nat.lt_of_le_of_lt hb hmax)] at hmod
  obtain ⟨hbody, -⟩ := List.append_inj h hlength
  cases a
  cases b
  cases hflavor
  cases hbody
  rfl

/-- A message has at most one credential. -/
theorem CallsWith.unique {a b : OpaqueAuth} (ha : CallsWith input a) (hb : CallsWith input b) :
    a = b := by
  obtain ⟨xid, call, rfl, hfits, rest, hinput⟩ := ha
  obtain ⟨xid', call', rfl, hfits', rest', hinput'⟩ := hb
  have h := hinput.trans hinput'.symm
  simp only [Content.octets, Call.octets, List.append_assoc] at h
  -- The words in front of the credential are six on either side.
  obtain ⟨-, h⟩ := word_append_inj h
  obtain ⟨-, h⟩ := word_append_inj h
  obtain ⟨-, h⟩ := word_append_inj h
  obtain ⟨-, h⟩ := word_append_inj h
  obtain ⟨-, h⟩ := word_append_inj h
  obtain ⟨-, h⟩ := word_append_inj h
  exact OpaqueAuth.octets_append_inj hfits hfits' h

/-- **What is read as a message is accepted**, unless it is a call with a system credential whose
content cannot be read. -/
theorem decodeHeader_of_decode (h : message.decode { strict } (Cursor.at input 0) = .ok record c)
    (hcred : ∀ cred, CallsWith input cred → cred.flavor = authSys →
      ∃ v c', authSysParms.decode { strict } (Cursor.at cred.body 0) = .ok v c') :
    ∃ header, decodeHeader input strict = .ok header := by
  obtain ⟨xid, content, body, htree, -, -, hoctets, hpicked⟩ := exists_tree_of_decode h
  rw [hpicked]
  cases hcomplete : content.complete strict with
  | ok full => exact ⟨_, rfl⟩
  | error e =>
    obtain ⟨call, rfl, hauth⟩ := Content.complete_error hcomplete
    cases htree with
    | call hfits _ =>
      obtain ⟨hflavor, e', c', hrefused, -⟩ := readAuthSys_error hauth
      have hcalls : CallsWith input call.cred :=
        ⟨xid, call, rfl, hfits, hoctets ▸ List.take_prefix ..⟩
      obtain ⟨v, c'', hread⟩ := hcred _ hcalls hflavor
      rw [hrefused] at hread
      cases hread

/-- **The header of a message is read exactly.** No tree of a message is refused for its shape. A
header that is read is what stands in front of the message: writing its tree gives the octets back,
and they are the words and bodies of its fields in their order. And what is read as a message is
accepted, unless it is a call with a system credential whose content cannot be read. -/
theorem decodeHeader_exact (input : Bytes) (strict : Bool) :
    (∀ e, decodeHeader input strict = .error e → ∀ what, e.fault ≠ .mismatch what) ∧
      (∀ h, decodeHeader input strict = .ok h → h.Says input strict) ∧
      ∀ record c, message.decode { strict } (Cursor.at input 0) = .ok record c →
        (∀ cred, CallsWith input cred → cred.flavor = authSys →
          ∃ v c', authSysParms.decode { strict } (Cursor.at cred.body 0) = .ok v c') →
        ∃ h, decodeHeader input strict = .ok h :=
  ⟨fun _ h => decodeHeader_fault h, fun _ h => says_of_decodeHeader h,
    fun _ _ h hcred => decodeHeader_of_decode h hcred⟩

end DecodeHeader

/-- A call of the null procedure with a system credential: no name, no groups. -/
def nullCall : Call :=
  { rpcVersion := 2, program := 100003, version := 3, procedure := 0
    cred := { flavor := authSys, body := List.replicate 20 0 }
    verf := { flavor := 0, body := [] }
    authSys := none }

/-- That something is read can be computed. -/
theorem exists_ok_of_eq_true {α : Type} {r : EStateM.Result DecodeError Cursor α}
    (h : (match r with
      | .ok .. => true
      | .error .. => false) = true) : ∃ a c, r = .ok a c := by
  cases r with
  | ok a c => exact ⟨a, c, rfl⟩
  | error e c => cases h

theorem decodeHeader_exact_nullCall :
    ∃ h, decodeHeader (Bytes.word 7 ++ (Content.call nullCall).octets) true = .ok h ∧
      h.Says (Bytes.word 7 ++ (Content.call nullCall).octets) true := by
  obtain ⟨-, hsays, haccepts⟩ :=
    decodeHeader_exact (Bytes.word 7 ++ (Content.call nullCall).octets) true
  obtain ⟨record, c, hread⟩ : ∃ record c, message.decode { strict := true }
      (Cursor.at (Bytes.word 7 ++ (Content.call nullCall).octets) 0) = .ok record c :=
    exists_ok_of_eq_true (by decide +kernel)
  have hfits : nullCall.cred.Fits := by
    unfold OpaqueAuth.Fits
    decide
  obtain ⟨h, hheader⟩ := haccepts record c hread fun cred hcalls _ => by
    obtain rfl : nullCall.cred = cred :=
      CallsWith.unique ⟨7, nullCall, rfl, hfits, List.prefix_refl _⟩ hcalls
    exact exists_ok_of_eq_true (by decide +kernel)
  exact ⟨h, hheader, hsays h hheader⟩

end NfsWire.Rpc
