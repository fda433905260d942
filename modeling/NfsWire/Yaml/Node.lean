import NfsWire.Yaml.Token

/-!
# Documents

Tokens form nodes: scalars, sequences, mappings, and aliases of nodes that carry an anchor. A
plain scalar stands for what it looks like, unless it is tagged.

A mapping keeps its entries in the order in which they are written, and a key has the value
of its last entry. Only text keys can be looked up.

**Bad nodes.** A scalar that does not fit its tag is bad, and so is an alias inside the node
it names. Where a key should stand, a bad node is passed over, and the node behind it is the
key.

A reader answers `none` where the text is malformed.
-/

namespace NfsWire.Yaml

/-- The tree of a document. -/
inductive Node where
  | null
  | bool (b : Bool)
  | int (n : Int)
  /-- A number that is no integer of 64 bits, as it is written. -/
  | real (text : String)
  | str (s : String)
  | seq (items : List Node)
  | map (entries : List (Node × Node))
  | bad
  deriving Repr, Inhabited

/-! ## Scalars -/

/-- The spellings of infinity and of what is no number. -/
def specialReals : List String :=
  [".inf", ".Inf", ".INF", "+.inf", "+.Inf", "+.INF", "-.inf", "-.Inf", "-.INF",
    ".nan", "NaN", ".NAN"]

/-- Words that are numbers in any case and with any sign. -/
def realWords : List String := ["inf", "infinity", "nan"]

def dropSign : List Char → List Char
  | '+' :: cs => cs
  | '-' :: cs => cs
  | cs => cs

/-- Whether an exponent follows, or nothing. -/
def isExponent : List Char → Bool
  | [] => true
  | e :: cs =>
    let digits := dropSign cs
    (e == 'e' || e == 'E') && !digits.isEmpty && digits.all Char.isDigit

/-- Whether a text is a number with a point, an exponent, or both or neither. -/
def isDecimal (cs : List Char) : Bool :=
  let cs := dropSign cs
  let whole := cs.takeWhile Char.isDigit
  match cs.dropWhile Char.isDigit with
  | '.' :: rest =>
    let fraction := rest.takeWhile Char.isDigit
    !(whole.isEmpty && fraction.isEmpty) && isExponent (rest.dropWhile Char.isDigit)
  | rest => !whole.isEmpty && isExponent rest

/-- Whether a text is a number. -/
def isReal (s : String) : Bool :=
  specialReals.contains s ||
    realWords.contains (String.ofList ((dropSign s.toList).map Char.toLower)) ||
    isDecimal s.toList

/-- An integer in base 16 or 8 behind its mark, or in base 10 behind a plus sign or as it
stands. -/
def integer? (s : String) : Option Int :=
  let marked := match s.toList with
    | '0' :: 'x' :: cs => Numeral.integer64? 16 cs
    | '0' :: 'o' :: cs => Numeral.integer64? 8 cs
    | '+' :: cs => Numeral.integer64? 10 cs
    | _ => none
  marked.or (Numeral.integer64? 10 s.toList)

/-- What a plain scalar stands for. -/
def Node.ofPlain (s : String) : Node :=
  if s == "~" || s == "null" then .null
  else if s == "true" then .bool true
  else if s == "false" then .bool false
  else
    match integer? s with
    | some n => .int n
    | none => if isReal s then .real s else .str s

/-- What a plain scalar with a tag of the core handle stands for. -/
def Node.ofTagged (suffix s : String) : Node :=
  if suffix == "bool" then
    if s == "true" then .bool true else if s == "false" then .bool false else .bad
  else if suffix == "int" then ((Numeral.integer64? 10 s.toList).map Node.int).getD .bad
  else if suffix == "float" then if isReal s then .real s else .bad
  else if suffix == "null" then if s == "~" || s == "null" then .null else .bad
  else .str s

/-- The node of a scalar. Text in quotes and blocks is text, whatever its tag. -/
def Node.ofScalar (plain : Bool) (tag : Option (String × String)) (s : String) : Node :=
  if !plain then .str s
  else
    match tag with
    | none => .ofPlain s
    | some (handle, suffix) => if handle == "!!" then .ofTagged suffix s else .str s

/-! ## Collections -/

def Node.isBad : Node → Bool
  | .bad => true
  | _ => false

/-- Pair the nodes of a mapping, given the key that waits for its value. -/
def pairUp : (key : Option Node) → List Node → List (Node × Node)
  | _, [] => []
  | none, n :: rest => pairUp (if n.isBad then none else some n) rest
  | some k, n :: rest => (k, n) :: pairUp none rest

/-- The value of a text key: that of its last entry. -/
def Node.get? (n : Node) (key : String) : Option Node :=
  match n with
  | .map entries =>
    (entries.reverse.find? fun (k, _) =>
      match k with
      | .str s => s == key
      | _ => false).map (·.2)
  | _ => none

/-! ## Reading -/

/-- Where the reading of nodes stands. -/
structure NodeReader where
  tokens : List Token
  /-- Anchors of this document, the newest first. -/
  anchors : List (String × Nat) := []
  /-- Nodes with an anchor that are complete. -/
  nodes : List (Nat × Node) := []
  /-- The number of the next anchor. -/
  fresh : Nat := 0
  deriving Inhabited

namespace NodeReader

def peek (r : NodeReader) : Token := r.tokens.headD .streamEnd

def skip (r : NodeReader) : NodeReader := { r with tokens := r.tokens.drop 1 }

/-- Keep a complete node under its anchor. -/
def keep (r : NodeReader) (anchor : Option Nat) (n : Node) : NodeReader :=
  match anchor with
  | none => r
  | some a => { r with nodes := (a, n) :: r.nodes }

/-- Read an anchor, if there is one. -/
def anchor? (r : NodeReader) : Option Nat × NodeReader :=
  match r.peek with
  | .anchor name =>
    (some r.fresh, { r.skip with anchors := (name, r.fresh) :: r.anchors, fresh := r.fresh + 1 })
  | _ => (none, r)

/-- Read a tag, if there is one. -/
def tag? (r : NodeReader) : Option (String × String) × NodeReader :=
  match r.peek with
  | .tag handle suffix => (some (handle, suffix), r.skip)
  | _ => (none, r)

/-- Anchor and tag in front of a node, in either order. -/
def properties (r : NodeReader) : Option Nat × Option (String × String) × NodeReader :=
  match r.anchor? with
  | (some a, r) =>
    let (t, r) := r.tag?
    (some a, t, r)
  | (none, r) =>
    match r.tag? with
    | (some t, r) =>
      let (a, r) := r.anchor?
      (a, some t, r)
    | (none, r) => (none, none, r)

/-- The node that an alias names; bad when the node is not complete. -/
def alias? (r : NodeReader) (name : String) : Option Node :=
  (r.anchors.find? (·.1 == name)).map fun (_, a) =>
    ((r.nodes.find? (·.1 == a)).map (·.2)).getD .bad

mutual

/-- Read a node. Block collections may stand where `block` says so, and a sequence without an
indentation of its own where `bare` does. -/
def node (block bare : Bool) : (fuel : Nat) → NodeReader → Option (Node × NodeReader)
  | 0, _ => none
  | fuel + 1, r =>
    match r.peek with
    | .alias name => (r.alias? name).map fun n => (n, r.skip)
    | _ =>
      let (anchor, tag, r) := r.properties
      let complete := fun (found : Option (Node × NodeReader)) =>
        found.map fun (n, r) => (n, r.keep anchor n)
      match r.peek with
      | .scalar plain text =>
        complete (some (.ofScalar plain tag text, r.skip))
      | .flowSequenceStart =>
        complete ((flowItems true fuel r.skip).map fun (l, r) => (.seq l, r))
      | .flowMappingStart =>
        complete ((flowEntries true fuel r.skip).map fun (l, r) => (.map (pairUp none l), r))
      | .blockEntry =>
        if bare then complete ((bareItems fuel r).map fun (l, r) => (.seq l, r))
        else complete (absent anchor tag r)
      | .blockSequenceStart =>
        if block then complete ((blockItems fuel r.skip).map fun (l, r) => (.seq l, r))
        else complete (absent anchor tag r)
      | .blockMappingStart =>
        if block then
          complete ((blockEntries fuel r.skip).map fun (l, r) => (.map (pairUp none l), r))
        else complete (absent anchor tag r)
      | _ => complete (absent anchor tag r)

/-- The empty scalar that may stand behind an anchor or a tag. -/
def absent (anchor : Option Nat) (tag : Option (String × String)) (r : NodeReader) :
    Option (Node × NodeReader) :=
  if anchor.isSome || tag.isSome then some (.ofScalar true tag "", r) else none

/-- The items of a sequence with an indentation of its own, up to its end. -/
def blockItems : (fuel : Nat) → NodeReader → Option (List Node × NodeReader)
  | 0, _ => none
  | fuel + 1, r =>
    match r.peek with
    | .blockEnd => some ([], r.skip)
    | .blockEntry =>
      let r := r.skip
      let item := match r.peek with
        | .blockEntry | .blockEnd => some (Node.null, r)
        | _ => node true false fuel r
      item.bind fun (n, r) => (blockItems fuel r).map fun (l, r) => (n :: l, r)
    | _ => none

/-- The items of a sequence without an indentation of its own. -/
def bareItems : (fuel : Nat) → NodeReader → Option (List Node × NodeReader)
  | 0, _ => none
  | fuel + 1, r =>
    match r.peek with
    | .blockEntry =>
      let r := r.skip
      let item := match r.peek with
        | .blockEntry | .key | .value | .blockEnd => some (Node.null, r)
        | _ => node true false fuel r
      item.bind fun (n, r) => (bareItems fuel r).map fun (l, r) => (n :: l, r)
    | _ => some ([], r)

/-- The nodes of a block mapping, keys and values in turn, up to its end. -/
def blockEntries : (fuel : Nat) → NodeReader → Option (List Node × NodeReader)
  | 0, _ => none
  | fuel + 1, r =>
    let key := match r.peek with
      | .key =>
        let r := r.skip
        match r.peek with
        | .key | .value | .blockEnd => some (Node.null, r)
        | _ => node true true fuel r
      | .value => some (Node.null, r)
      | _ => none
    match r.peek with
    | .blockEnd => some ([], r.skip)
    | _ =>
      key.bind fun (k, r) =>
        let value := match r.peek with
          | .value =>
            let r := r.skip
            match r.peek with
            | .key | .value | .blockEnd => some (Node.null, r)
            | _ => node true true fuel r
          | _ => some (Node.null, r)
        value.bind fun (v, r) => (blockEntries fuel r).map fun (l, r) => (k :: v :: l, r)

/-- The nodes of a mapping in braces, keys and values in turn, up to its end. -/
def flowEntries (first : Bool) : (fuel : Nat) → NodeReader → Option (List Node × NodeReader)
  | 0, _ => none
  | fuel + 1, r =>
    match r.peek with
    | .flowMappingEnd => some ([], r.skip)
    | t =>
      if !first && t != .flowEntry then none
      else
        let r := if first then r else r.skip
        let entry : Option (Node × Node × NodeReader) := match r.peek with
          | .key =>
            let r := r.skip
            let key := match r.peek with
              | .value | .flowEntry | .flowMappingEnd => some (Node.null, r)
              | _ => node false false fuel r
            key.bind fun (k, r) => (flowValue fuel r).map fun (v, r) => (k, v, r)
          | .value => (flowValue fuel r).map fun (v, r) => (Node.null, v, r)
          | _ => (node false false fuel r).map fun (k, r) => (k, Node.null, r)
        match r.peek with
        | .flowMappingEnd => some ([], r.skip)
        | _ =>
          entry.bind fun (k, v, r) =>
            (flowEntries false fuel r).map fun (l, r) => (k :: v :: l, r)

/-- The value of an entry in braces, which may be missing. -/
def flowValue : (fuel : Nat) → NodeReader → Option (Node × NodeReader)
  | 0, _ => none
  | fuel + 1, r =>
    match r.peek with
    | .value =>
      let r := r.skip
      match r.peek with
      | .flowEntry | .flowMappingEnd => some (Node.null, r)
      | _ => node false false fuel r
    | _ => some (Node.null, r)

/-- The items of a sequence in brackets, up to its end. -/
def flowItems (first : Bool) : (fuel : Nat) → NodeReader → Option (List Node × NodeReader)
  | 0, _ => none
  | fuel + 1, r =>
    match r.peek with
    | .flowSequenceEnd => some ([], r.skip)
    | t =>
      if !first && t != .flowEntry then none
      else
        let r := if first then r else r.skip
        match r.peek with
        | .flowSequenceEnd => some ([], r.skip)
        | .key =>
          (flowPair fuel r.skip).bind fun (n, r) =>
            (flowItems false fuel r).map fun (l, r) => (n :: l, r)
        | _ =>
          (node false false fuel r).bind fun (n, r) =>
            (flowItems false fuel r).map fun (l, r) => (n :: l, r)

/-- A mapping of one entry that is an item in brackets, behind the start of its key. A missing
key takes the token behind it along. -/
def flowPair : (fuel : Nat) → NodeReader → Option (Node × NodeReader)
  | 0, _ => none
  | fuel + 1, r =>
    let key := match r.peek with
      | .value | .flowEntry | .flowSequenceEnd => some (Node.null, r.skip)
      | _ => node false false fuel r
    key.bind fun (k, r) =>
      let value := match r.peek with
        | .value =>
          let r := r.skip
          match r.peek with
          | .flowEntry | .flowSequenceEnd => some (Node.null, r)
          | _ => node false false fuel r
        | _ => some (Node.null, r)
      value.map fun (v, r) => (.map (pairUp none [k, v]), r)

end

/-- Pass the directives in front of a document. -/
def skipDirectives (r : NodeReader) : NodeReader :=
  { r with tokens := r.tokens.dropWhile (· == .directive) }

/-- The content of a document behind its start, which may be empty. -/
def content (r : NodeReader) : Option (Node × NodeReader) :=
  match r.peek with
  | .directive | .documentStart | .documentEnd | .streamEnd => some (Node.null, r)
  | _ => node true false (2 * r.tokens.length + 2) r

/-- Read documents up to the end of the text. Only the first one may do without a
start, and only where no directive stands in front of it. -/
def documents : (fuel : Nat) → (first : Bool) → NodeReader → Option (List Node)
  | 0, _, _ => none
  | fuel + 1, first, r =>
    let r := if first then r else { r with tokens := r.tokens.dropWhile (· == .documentEnd) }
    if r.peek == .streamEnd then some []
    else
      let bare := first && r.peek != .directive
      let r := { r.skipDirectives with anchors := [] }
      let doc :=
        if r.peek == .documentStart then content r.skip
        else if bare then node true false (2 * r.tokens.length + 2) r
        else none
      doc.bind fun (n, r) =>
        let r := if r.peek == .documentEnd then r.skip else r
        (documents fuel false r).map (n :: ·)

end NodeReader

/-- The documents of a text. -/
def documents? (text : String) : Option (List Node) :=
  (tokens? text).bind fun tokens =>
    NodeReader.documents (tokens.length + 1) true { tokens }

end NfsWire.Yaml
