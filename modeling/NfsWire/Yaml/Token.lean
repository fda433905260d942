import NfsWire.Yaml.Scalar

/-!
# Tokens

A text is cut into tokens: indicators, scalars, and the starts and ends of block collections,
which the text shows by indentation alone.

**Keys are seen late.** That a scalar is a key shows only at the colon behind it. The place in
front of every token that may turn out to be a key is kept, one per bracket level, and at a
colon the missing tokens are put in there. A key has to stay on its line and within 1024
characters; beyond that its place is forgotten.

A reader answers `none` where the text is malformed.
-/

namespace NfsWire.Yaml

/-- A token. Of directives only their presence matters. -/
inductive Token where
  | streamEnd
  | directive
  | documentStart
  | documentEnd
  | blockSequenceStart
  | blockMappingStart
  | blockEnd
  | flowSequenceStart
  | flowSequenceEnd
  | flowMappingStart
  | flowMappingEnd
  | blockEntry
  | flowEntry
  | key
  | value
  | alias (name : String)
  | anchor (name : String)
  | tag (handle suffix : String)
  /-- `plain` scalars may stand for something else than their text. -/
  | scalar (plain : Bool) (text : String)
  deriving DecidableEq, Repr, Inhabited

/-! ## Tags and directives -/

/-- Characters of a tag that are not escaped. -/
def isTagChar (c : Char) : Bool :=
  isWord c || ";/?:@&=+$,.!~*'()[]".toList.contains c

/-- How many octets a character takes whose first octet is this. -/
def utf8Width? (octet : Nat) : Option Nat :=
  if octet < 0x80 then some 1
  else if 0xc0 ≤ octet && octet < 0xe0 then some 2
  else if 0xe0 ≤ octet && octet < 0xf0 then some 3
  else if 0xf0 ≤ octet && octet < 0xf8 then some 4
  else none

/-- The octet of an escape such as `%2f`. -/
def readTagOctet? (s : Source) : Option (Nat × Source) :=
  if s.cur == '%' then
    match Numeral.digit? 16 (s.peek 1), Numeral.digit? 16 (s.peek 2) with
    | some a, some b => some (a * 16 + b, s.advanceBy 3)
    | _, _ => none
  else none

/-- Read on in an escaped character, of which `n` octets are to come; the octets are joined as
they are. -/
def readTagOctets? : (n code : Nat) → Source → Option (Nat × Source)
  | 0, code, s => some (code, s)
  | n + 1, code, s => do
    let (octet, s) ← readTagOctet? s
    if 0x80 ≤ octet && octet < 0xc0 then readTagOctets? n (code * 256 + octet) s else none

/-- An escaped character of a tag. -/
def readTagEscape? (s : Source) : Option (Char × Source) := do
  let (octet, s) ← readTagOctet? s
  let width ← utf8Width? octet
  let (code, s) ← readTagOctets? (width - 1) octet s
  return (← charOfCode? code, s)

/-- Read on in a tag. -/
def readTagText : (fuel : Nat) → List Char → Source → Option (List Char × Source)
  | 0, text, s => some (text, s)
  | fuel + 1, text, s =>
    if s.cur == '%' then
      match readTagEscape? s with
      | none => none
      | some (c, s) => readTagText fuel (text ++ [c]) s
    else if isTagChar s.cur then readTagText fuel (text ++ [s.cur]) s.advance
    else some (text, s)

/-- The text of a tag behind its handle, or behind what was taken for a handle and is the
start of the text: an exclamation mark, which is dropped, and a word. -/
def readTagUri (head : List Char) (s : Source) : Option (List Char × Source) := do
  let (text, s') ← readTagText (s.rest.length + 1) (head.drop 1) s
  if head.isEmpty && s'.index = s.index then none else some (text, s')

/-- A handle: an exclamation mark, a word, and possibly another exclamation mark, which a
directive asks for. -/
def readTagHandle (directive : Bool) (s : Source) : Option (List Char × Source) :=
  if s.cur != '!' then none
  else
    let (word, s) := s.advance.span isWord
    if s.cur == '!' then some ('!' :: word ++ ['!'], s.advance)
    else if directive && !word.isEmpty then none
    else some ('!' :: word, s)

/-- A tag, which has to end with a blank or a line. -/
def readTag (s : Source) : Option (Token × Source) := do
  let (token, s) ←
    if s.peek 1 == '<' then do
      let (text, s) ← readTagUri [] (s.advanceBy 2)
      if s.cur != '>' then none
      pure (Token.tag "" (String.ofList text), s.advance)
    else do
      let (handle, s) ← readTagHandle false s
      if 2 ≤ handle.length && handle.getLast? == some '!' then do
        let (text, s) ← readTagUri [] s
        pure (Token.tag (String.ofList handle) (String.ofList text), s)
      else do
        let (text, s) ← readTagUri handle s
        if text.isEmpty then pure (Token.tag "" "!", s)
        else pure (Token.tag "!" (String.ofList text), s)
  if isBlankOrEnd s.cur then some (token, s) else none

/-- A version number of at most nine digits. -/
def readVersionNumber (s : Source) : Option Source :=
  let (digits, s) := s.span Char.isDigit
  if digits.isEmpty || 9 < digits.length then none else some s

/-- A directive up to the end of its line. Unknown ones are passed over. -/
def readDirective (s : Source) : Option Source := do
  let (name, s) := s.advance.span isWord
  if name.isEmpty || !isBlankOrEnd s.cur then none
  let s ←
    if name == "YAML".toList then do
      let s ← readVersionNumber (s.skip isBlank)
      if s.cur != '.' then none
      readVersionNumber s.advance
    else if name == "TAG".toList then do
      let (_, s) ← readTagHandle true (s.skip isBlank)
      let (_, s) ← readTagUri [] (s.skip isBlank)
      if isBlankOrEnd s.cur then some s else none
    else pure (s.skip fun c => !isBreakOrEnd c)
  let s := (s.skip isBlank).skipComment
  if isBreakOrEnd s.cur then some s.skipBreak else none

/-! ## Anchors -/

/-- Characters that may stand behind the name of an anchor. -/
def endsAnchor (c : Char) : Bool :=
  isBlankOrEnd c || "?:,]\x7d%@\x60".toList.contains c

/-- The name of an anchor or alias, behind its indicator. -/
def readAnchor (s : Source) : Option (String × Source) :=
  let (name, s) := s.advance.span isWord
  if name.isEmpty || !endsAnchor s.cur then none else some (String.ofList name, s)

/-! ## The state of the scanner -/

/-- The place of a token that may turn out to be a key. -/
structure KeyPlace where
  /-- The number of tokens in front of it. -/
  token : Nat
  index : Nat
  line : Nat
  col : Nat
  /-- Whether the text is malformed without the colon. -/
  required : Bool
  deriving Repr, Inhabited

/-- Where the cutting of a text stands. -/
structure Scanner where
  src : Source
  tokens : List Token := []
  /-- Whether a key may start here. -/
  keyAllowed : Bool := true
  /-- The possible key of each bracket level, the innermost first. -/
  keys : List (Option KeyPlace) := [none]
  /-- The column of the innermost block collection. -/
  indent : Int := -1
  /-- The columns of the collections around it. -/
  indents : List Int := []
  /-- How many brackets are open. -/
  flow : Nat := 0
  /-- Where a colon ends a key even without a blank behind it: behind a quoted scalar. -/
  adjacent : Nat := 0
  deriving Inhabited

namespace Scanner

/-- Add a token. -/
def emit (s : Scanner) (t : Token) : Scanner := { s with tokens := s.tokens ++ [t] }

/-- Put a token in front of those from number `n` on. -/
def emitAt (s : Scanner) (n : Nat) (t : Token) : Scanner :=
  { s with tokens := s.tokens.take n ++ t :: s.tokens.drop n }

def inFlow (s : Scanner) : Bool := s.flow != 0

/-! ### Keys -/

/-- Forget the keys that are too far away. -/
def forgetFarKeys (s : Scanner) : Option Scanner := do
  let keys ← s.keys.mapM fun k =>
    match k with
    | none => some none
    | some p =>
      if p.line < s.src.line || p.index + 1024 < s.src.index then
        if p.required then none else some none
      else some (some p)
  return { s with keys }

/-- Forget the possible key of this level. -/
def forgetKey (s : Scanner) : Option Scanner :=
  match s.keys with
  | some p :: rest => if p.required then none else some { s with keys := none :: rest }
  | _ => some s

/-- Remember this place, if a key may start here. -/
def rememberKey (s : Scanner) : Option Scanner :=
  if s.keyAllowed then do
    let s ← s.forgetKey
    let place := {
      token := s.tokens.length
      index := s.src.index
      line := s.src.line
      col := s.src.col
      required := s.inFlow && s.indent == s.src.col : KeyPlace }
    return { s with keys := some place :: s.keys.drop 1 }
  else some s

/-! ### Indentation -/

/-- Start a block collection at a column, if it is deeper than those that are open. The start
goes in front of the tokens from number `n` on, or behind all of them. -/
def openAt (s : Scanner) (col : Nat) (n : Option Nat) (t : Token) : Scanner :=
  if s.inFlow then s
  else if s.indent < col then
    let s := { s with indent := col, indents := s.indent :: s.indents }
    match n with
    | some n => s.emitAt n t
    | none => s.emit t
  else s

/-- How many collections end at a column, and the columns of those that stay open. -/
def endsAt (col : Int) : (indent : Int) → List Int → Nat × Int × List Int
  | indent, [] => (0, indent, [])
  | indent, outer :: rest =>
    if col < indent then
      let (n, i, is) := endsAt col outer rest
      (n + 1, i, is)
    else (0, indent, outer :: rest)

/-- End the block collections that are deeper than a column. -/
def close (s : Scanner) (col : Int) : Scanner :=
  if s.inFlow then s
  else
    let (n, indent, indents) := endsAt col s.indent s.indents
    { s with tokens := s.tokens ++ List.replicate n .blockEnd, indent, indents }

/-! ### Between tokens -/

/-- Pass blanks, breaks and comments. A tab is a blank only where no key can start. -/
def skipToToken : (fuel : Nat) → Scanner → Scanner
  | 0, s => s
  | fuel + 1, s =>
    let c := s.src.cur
    if c == ' ' || (c == '\t' && (s.inFlow || !s.keyAllowed)) then
      skipToToken fuel { s with src := s.src.advance }
    else if isBreak c then
      skipToToken fuel { s with src := s.src.skipBreak, keyAllowed := s.keyAllowed || !s.inFlow }
    else if c == '#' then skipToToken fuel { s with src := s.src.skipComment }
    else s

/-! ### Tokens -/

/-- Forget the possible key and say whether another may follow. -/
def settle (s : Scanner) (keyAllowed : Bool) : Option Scanner := do
  return { (← s.forgetKey) with keyAllowed }

/-- Pass `n` characters that are the token `t`. -/
def take (s : Scanner) (n : Nat) (t : Token) : Scanner :=
  { s with src := s.src.advanceBy n }.emit t

def takeStreamEnd (s : Scanner) : Option Scanner := do
  return (← (s.close (-1)).settle false).emit .streamEnd

def takeDirective (s : Scanner) : Option Scanner := do
  let s ← (s.close (-1)).settle false
  return { s with src := ← readDirective s.src }.emit .directive

def takeDocumentMarker (s : Scanner) (t : Token) : Option Scanner := do
  return (← (s.close (-1)).settle false).take 3 t

/-- An opening bracket; at most 255 may be open. -/
def takeFlowStart (s : Scanner) (t : Token) : Option Scanner := do
  let s ← s.rememberKey
  if 255 ≤ s.flow then none
  return { s with keys := none :: s.keys, flow := s.flow + 1, keyAllowed := true }.take 1 t

def takeFlowEnd (s : Scanner) (t : Token) : Option Scanner := do
  let s ← s.settle false
  let s := if s.inFlow then { s with keys := s.keys.drop 1, flow := s.flow - 1 } else s
  return s.take 1 t

def takeFlowEntry (s : Scanner) : Option Scanner := do
  return (← s.settle true).take 1 .flowEntry

def takeBlockEntry (s : Scanner) : Option Scanner := do
  if s.inFlow || !s.keyAllowed then none
  let s ← (s.openAt s.src.col none .blockSequenceStart).settle true
  return s.take 1 .blockEntry

def takeKey (s : Scanner) : Option Scanner := do
  if !s.inFlow && !s.keyAllowed then none
  let s ← (s.openAt s.src.col none .blockMappingStart).settle (!s.inFlow)
  return s.take 1 .key

def takeValue (s : Scanner) : Option Scanner :=
  match s.keys with
  | some p :: rest =>
    let s := (s.emitAt p.token .key).openAt p.col (some p.token) .blockMappingStart
    some ({ s with keys := none :: rest, keyAllowed := false }.take 1 .value)
  | _ =>
    if !s.inFlow && !s.keyAllowed then none
    else
      let s := s.openAt s.src.col none .blockMappingStart
      some ({ s with keyAllowed := !s.inFlow }.take 1 .value)

/-- A token that may turn out to be a key. -/
def takeKeyable (s : Scanner) (read : Source → Option (Token × Source)) : Option Scanner := do
  let s ← s.rememberKey
  let (t, src) ← read s.src
  return { s with keyAllowed := false, src }.emit t

def takeAnchor (s : Scanner) (token : String → Token) : Option Scanner :=
  s.takeKeyable fun src => (readAnchor src).map fun (name, src) => (token name, src)

def takeQuoted (s : Scanner) (single : Bool) : Option Scanner := do
  let s ← s.takeKeyable fun src =>
    (readQuoted single (src.rest.length + 1) [] src.advance).map fun (text, src) =>
      (.scalar false (String.ofList text), src)
  return { s with adjacent := s.src.index }

def takeBlock (s : Scanner) (literal : Bool) : Option Scanner := do
  let s ← s.rememberKey
  let (text, src) ← readBlock literal s.indent s.src.advance
  return { s with keyAllowed := true, src }.emit (.scalar false (String.ofList text))

def takePlain (s : Scanner) : Option Scanner := do
  let s ← s.rememberKey
  let (text, broken, src) ← readPlain s.inFlow (s.indent + 1) (s.src.rest.length + 1) [] {} s.src
  return { s with keyAllowed := broken, src }.emit (.scalar true (String.ofList text))

/-- Whether the colon here stands behind a key. -/
def atValue (s : Scanner) : Bool :=
  isBlankOrEnd (s.src.peek 1) ||
    (s.inFlow && (isFlow (s.src.peek 1) || s.src.index == s.adjacent))

/-- Cut off the next token, with the ends of collections in front of it. The flag says whether
it is the last. -/
def step (s : Scanner) : Option (Scanner × Bool) := do
  let s ← (skipToToken (s.src.rest.length + 1) s).forgetFarKeys
  let s := s.close s.src.col
  let c := s.src.cur
  let alone := isBlankOrEnd (s.src.peek 1)
  if isEnd c then return (← s.takeStreamEnd, true)
  let s ←
    if s.src.col == 0 && c == '%' then s.takeDirective
    else if s.src.atMarker '-' then s.takeDocumentMarker .documentStart
    else if s.src.atMarker '.' then s.takeDocumentMarker .documentEnd
    else if c == '[' then s.takeFlowStart .flowSequenceStart
    else if c == '{' then s.takeFlowStart .flowMappingStart
    else if c == ']' then s.takeFlowEnd .flowSequenceEnd
    else if c == '}' then s.takeFlowEnd .flowMappingEnd
    else if c == ',' then s.takeFlowEntry
    else if c == '-' && alone then s.takeBlockEntry
    else if c == '?' && alone then s.takeKey
    else if c == ':' && s.atValue then s.takeValue
    else if c == '*' then s.takeAnchor .alias
    else if c == '&' then s.takeAnchor .anchor
    else if c == '!' then s.takeKeyable readTag
    else if c == '|' && !s.inFlow then s.takeBlock true
    else if c == '>' && !s.inFlow then s.takeBlock false
    else if c == '\'' then s.takeQuoted true
    else if c == '"' then s.takeQuoted false
    else if c == '%' || c == '@' || c == '\x60' then none
    else s.takePlain
  return (s, false)

/-- Cut off tokens up to the end of the text. -/
def run : (fuel : Nat) → Scanner → Option (List Token)
  | 0, _ => none
  | fuel + 1, s =>
    match s.step with
    | none => none
    | some (s, true) => some s.tokens
    | some (s, false) => run fuel s

end Scanner

/-- The tokens of a text. Every token but the last takes at least one character. -/
def tokens? (text : String) : Option (List Token) :=
  Scanner.run (text.length + 1) { src := { rest := text.toList } }

end NfsWire.Yaml
