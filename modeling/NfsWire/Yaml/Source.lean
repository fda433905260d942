/-!
# Reading a text

A source is a place in a text and what follows it. Places count characters, lines and
columns; a line feed ends a line, and a carriage return alone is a break that does not.

Behind the end of the text every character is NUL, and a NUL in the text is its end.
-/

namespace NfsWire.Yaml

/-! ## Classes of characters -/

def isEnd (c : Char) : Bool := c == '\x00'

def isBreak (c : Char) : Bool := c == '\n' || c == '\r'

def isBlank (c : Char) : Bool := c == ' ' || c == '\t'

def isBreakOrEnd (c : Char) : Bool := isBreak c || isEnd c

def isBlankOrEnd (c : Char) : Bool := isBlank c || isBreakOrEnd c

/-- Characters of names: ASCII letters and digits, `_` and `-`. -/
def isWord (c : Char) : Bool := c.isAlphanum || c == '_' || c == '-'

/-- Characters with a meaning of their own inside brackets. -/
def isFlow (c : Char) : Bool :=
  c == ',' || c == '[' || c == ']' || c == '{' || c == '}'

/-! ## Sources -/

/-- A place in a text and what follows it. -/
structure Source where
  rest : List Char
  index : Nat := 0
  line : Nat := 1
  col : Nat := 0
  deriving Repr, Inhabited

namespace Source

/-- The character `n` places ahead. -/
def peek (s : Source) (n : Nat) : Char := s.rest[n]?.getD '\x00'

/-- The next character. -/
def cur (s : Source) : Char := s.peek 0

/-- Pass one character. -/
def advance (s : Source) : Source :=
  match s.rest with
  | [] => s
  | c :: rest =>
    if c == '\n' then { rest, index := s.index + 1, line := s.line + 1, col := 0 }
    else { rest, index := s.index + 1, line := s.line, col := s.col + 1 }

/-- Pass `n` characters. -/
def advanceBy (s : Source) : Nat → Source
  | 0 => s
  | n + 1 => s.advance.advanceBy n

/-- Pass the characters of a class. -/
def span (s : Source) (p : Char → Bool) : List Char × Source :=
  let run := s.rest.takeWhile p
  (run, s.advanceBy run.length)

/-- Pass the characters of a class and forget them. -/
def skip (s : Source) (p : Char → Bool) : Source := (s.span p).2

/-- Pass a line break, if there is one; a carriage return and a line feed are one break. -/
def skipBreak (s : Source) : Source :=
  if s.cur == '\r' && s.peek 1 == '\n' then s.advanceBy 2
  else if isBreak s.cur then s.advance
  else s

/-- Pass a comment, if there is one. -/
def skipComment (s : Source) : Source :=
  if s.cur == '#' then s.skip (fun c => !isBreakOrEnd c) else s

/-- Whether three characters `c` stand alone at the start of a line. -/
def atMarker (s : Source) (c : Char) : Bool :=
  s.col == 0 && s.cur == c && s.peek 1 == c && s.peek 2 == c && isBlankOrEnd (s.peek 3)

/-- Whether a document starts or ends here. -/
def atDocumentMarker (s : Source) : Bool := s.atMarker '-' || s.atMarker '.'

end Source

end NfsWire.Yaml
