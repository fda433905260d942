import NfsWire.Text.Numeral
import NfsWire.Yaml.Source

/-!
# The text of scalars

Scalars come plain, quoted, or as blocks of lines. In the first two, blanks and line breaks
between words form a *gap*: a gap without a break keeps its blanks, one break becomes a space,
and of more breaks all but the first are kept. Behind an escaped line break all breaks are
kept.

A block keeps its lines, or folds them: there a break between two lines that do not start
with a blank becomes a space. Its indentation is given or found, and its last breaks are kept,
clipped to one, or stripped.

A reader answers `none` where the text is malformed.
-/

namespace NfsWire.Yaml

/-! ## Gaps -/

/-- Blanks and breaks between words. -/
structure Gap where
  /-- The blanks of a gap without a break. -/
  blanks : List Char := []
  broken : Bool := false
  /-- Breaks that are not escaped. -/
  breaks : Nat := 0
  /-- Whether the gap starts with an escaped break. -/
  escaped : Bool := false
  deriving Repr, Inhabited

/-- What the gap contributes to the text. -/
def Gap.text (g : Gap) : List Char :=
  if !g.broken then g.blanks
  else if g.escaped then List.replicate g.breaks '\n'
  else if g.breaks == 1 then [' ']
  else List.replicate (g.breaks - 1) '\n'

/-- Read on in a gap. Behind a break, a tab left of column `margin` is malformed. -/
def Gap.read (margin : Int) : (fuel : Nat) → Gap → Source → Option (Gap × Source)
  | 0, g, s => some (g, s)
  | fuel + 1, g, s =>
    if isBlank s.cur then
      if g.broken then
        if s.cur == '\t' && (s.col : Int) < margin then none
        else Gap.read margin fuel g s.advance
      else Gap.read margin fuel { g with blanks := g.blanks ++ [s.cur] } s.advance
    else if isBreak s.cur then
      Gap.read margin fuel { g with blanks := [], broken := true, breaks := g.breaks + 1 }
        s.skipBreak
    else some (g, s)

/-! ## Plain scalars -/

/-- How many characters of a word follow. A word ends at a colon that ends a key, and inside
brackets at any of their characters. -/
def wordLength (inFlow : Bool) : List Char → Nat
  | [] => 0
  | c :: rest =>
    let next := rest.headD '\x00'
    if isBlankOrEnd c then 0
    else if c == ':' && (isBlankOrEnd next || (inFlow && isFlow next)) then 0
    else if inFlow && isFlow c then 0
    else wordLength inFlow rest + 1

/-- Read on in a plain scalar whose words have to stay right of column `margin`, given its text
so far and the gap before the next word. The flag says whether the scalar ends with a gap that
has a break. -/
def readPlain (inFlow : Bool) (margin : Int) :
    (fuel : Nat) → List Char → Gap → Source → Option (List Char × Bool × Source)
  | 0, text, gap, s => some (text, gap.broken, s)
  | fuel + 1, text, gap, s =>
    if s.atDocumentMarker || s.cur == '#' then some (text, gap.broken, s)
    else
      let n := wordLength inFlow s.rest
      let word := s.rest.take n
      let text' := if word.isEmpty then text else text ++ gap.text ++ word
      let gap := if word.isEmpty then gap else {}
      let s := s.advanceBy n
      if !(isBlank s.cur || isBreak s.cur) then some (text', gap.broken, s)
      else
        match Gap.read margin (s.rest.length + 1) gap s with
        | none => none
        | some (gap, s) =>
          if !inFlow && (s.col : Int) < margin then some (text', gap.broken, s)
          else readPlain inFlow margin fuel text' gap s

/-! ## Quoted scalars -/

/-- The character that an escape of one letter stands for. -/
def escape? : Char → Option Char
  | '0' => some '\x00'
  | 'a' => some '\x07'
  | 'b' => some '\x08'
  | 't' | '\t' => some '\t'
  | 'n' => some '\n'
  | 'v' => some '\x0b'
  | 'f' => some '\x0c'
  | 'r' => some '\r'
  | 'e' => some '\x1b'
  | ' ' => some ' '
  | '"' => some '"'
  | '\'' => some '\''
  | '\\' => some '\\'
  | 'N' => some '\u0085'
  | '_' => some '\u00a0'
  | 'L' => some '\u2028'
  | 'P' => some '\u2029'
  | _ => none

/-- How many hexadecimal digits follow the letter of an escape. -/
def escapeDigits? : Char → Option Nat
  | 'x' => some 2
  | 'u' => some 4
  | 'U' => some 8
  | _ => none

/-- The character of that code. -/
def charOfCode? (n : Nat) : Option Char :=
  if n.isValidChar then some (Char.ofNat n) else none

/-- The character of the escape at a backslash, and the number of characters it takes. -/
def readEscape? (s : Source) : Option (Char × Nat) :=
  match escape? (s.peek 1), escapeDigits? (s.peek 1) with
  | some c, _ => some (c, 2)
  | none, some n =>
    let digits := (s.rest.drop 2).take n
    if digits.length = n then
      ((Numeral.digits? 16 digits).bind charOfCode?).map fun c => (c, n + 2)
    else none
  | none, none => none

/-- Read on in a word of a quoted scalar. The flag says whether the word ends with an escaped
line break. -/
def readQuotedWord (single : Bool) :
    (fuel : Nat) → List Char → Source → Option (List Char × Bool × Source)
  | 0, text, s => some (text, false, s)
  | fuel + 1, text, s =>
    let c := s.cur
    if isBlankOrEnd c then some (text, false, s)
    else if single then
      if c == '\'' then
        if s.peek 1 == '\'' then readQuotedWord single fuel (text ++ ['\'']) (s.advanceBy 2)
        else some (text, false, s)
      else readQuotedWord single fuel (text ++ [c]) s.advance
    else if c == '"' then some (text, false, s)
    else if c == '\\' then
      if isBreak (s.peek 1) then some (text, true, s.advance.skipBreak)
      else
        match readEscape? s with
        | none => none
        | some (c, n) => readQuotedWord single fuel (text ++ [c]) (s.advanceBy n)
    else readQuotedWord single fuel (text ++ [c]) s.advance

/-- Read on in a quoted scalar, up to and including the closing quote. -/
def readQuoted (single : Bool) : (fuel : Nat) → List Char → Source → Option (List Char × Source)
  | 0, _, _ => none
  | fuel + 1, text, s =>
    if s.atDocumentMarker || isEnd s.cur then none
    else
      match readQuotedWord single (s.rest.length + 1) text s with
      | none => none
      | some (text, escaped, s) =>
        if s.cur == (if single then '\'' else '"') then some (text, s.advance)
        else
          match Gap.read 0 (s.rest.length + 1) { broken := escaped, escaped } s with
          | none => none
          | some (gap, s) => readQuoted single fuel (text ++ gap.text) s

/-! ## Blocks -/

/-- What happens to the breaks at the end of a block. -/
inductive Chomping where
  | strip
  | clip
  | keep
  deriving DecidableEq, Repr, Inhabited

def chomping? : Char → Option Chomping
  | '+' => some .keep
  | '-' => some .strip
  | _ => none

/-- The indentation that a digit asks for; none at another character. Zero is malformed. -/
def increment? (c : Char) : Option (Option Nat) :=
  match Numeral.digit? 10 c with
  | some 0 => none
  | some n => some (some n)
  | none => some none

/-- The header of a block behind its first character, up to the end of the line: chomping and
indentation, in either order. -/
def readBlockHeader (s : Source) : Option (Chomping × Option Nat × Source) := do
  let (chomp, inc, s) ← match chomping? s.cur with
    | some chomp =>
      let s := s.advance
      let inc ← increment? s.cur
      pure (chomp, inc, if inc.isSome then s.advance else s)
    | none =>
      let inc ← increment? s.cur
      let s := if inc.isSome then s.advance else s
      match inc.bind fun _ => chomping? s.cur with
      | some chomp => pure (chomp, inc, s.advance)
      | none => pure (.clip, inc, s)
  let s := (s.skip isBlank).skipComment
  if isBreakOrEnd s.cur then some (chomp, inc, s.skipBreak) else none

/-- Pass empty lines and the indentation of the next line: the number of breaks, and the
deepest column reached. With indentation 0, which is not known yet, all spaces are passed. -/
def readBlockBreaks (indent : Nat) :
    (fuel : Nat) → (breaks deepest : Nat) → Source → Option (Nat × Nat × Source)
  | 0, breaks, deepest, s => some (breaks, deepest, s)
  | fuel + 1, breaks, deepest, s =>
    let spaces := (s.rest.takeWhile (· == ' ')).length
    let s := s.advanceBy (if indent = 0 then spaces else min spaces (indent - s.col))
    let deepest := max deepest s.col
    if (indent = 0 || s.col < indent) && s.cur == '\t' then none
    else if isBreak s.cur then readBlockBreaks indent fuel (breaks + 1) deepest s.skipBreak
    else some (breaks, deepest, s)

/-- The text of a block so far. -/
structure Block where
  text : List Char := []
  /-- Whether a break stands behind the last line. -/
  pending : Bool := false
  /-- Breaks of empty lines behind it. -/
  breaks : Nat := 0
  /-- Whether the last line starts with a blank. -/
  blank : Bool := false
  deriving Repr, Inhabited

/-- Add a line. -/
def Block.addLine (literal : Bool) (b : Block) (line : List Char) (broken : Bool) : Block :=
  let blank := isBlank (line.headD '\x00')
  let joint :=
    if !b.pending then []
    else if !literal && !b.blank && !blank then (if b.breaks = 0 then [' '] else [])
    else ['\n']
  { text := b.text ++ joint ++ List.replicate b.breaks '\n' ++ line
    pending := broken, breaks := 0, blank }

/-- The whole text with its last breaks. -/
def Block.finish (chomp : Chomping) (b : Block) : List Char :=
  let last := if b.pending then ['\n'] else []
  match chomp with
  | .strip => b.text
  | .clip => b.text ++ last
  | .keep => b.text ++ last ++ List.replicate b.breaks '\n'

/-- Read on in the lines of a block. -/
def readBlockLines (literal : Bool) (indent : Nat) :
    (fuel : Nat) → Block → Source → Option (Block × Source)
  | 0, b, s => some (b, s)
  | fuel + 1, b, s =>
    if s.col = indent && !isEnd s.cur then
      let (line, s) := s.span (fun c => !isBreakOrEnd c)
      if isEnd s.cur then some (b.addLine literal line false, s)
      else
        let s := s.skipBreak
        match readBlockBreaks indent (s.rest.length + 1) 0 0 s with
        | none => none
        | some (breaks, _, s) =>
          readBlockLines literal indent fuel { b.addLine literal line true with breaks } s
    else some (b, s)

/-- Read a block behind its first character, inside a collection indented to `parent`. -/
def readBlock (literal : Bool) (parent : Int) (s : Source) : Option (List Char × Source) := do
  let (chomp, inc, s) ← readBlockHeader s
  let given := match inc with
    | none => 0
    | some n => parent.toNat + n
  let (breaks, deepest, s) ← readBlockBreaks given (s.rest.length + 1) 0 0 s
  let indent := if given = 0 then max (max deepest (parent + 1).toNat) 1 else given
  let (b, s) ← readBlockLines literal indent (s.rest.length + 1) { breaks } s
  return (b.finish chomp, s)

end NfsWire.Yaml
