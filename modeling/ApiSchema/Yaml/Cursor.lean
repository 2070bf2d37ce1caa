/-
# Places in a YAML text

A cursor is the rest of a text with the line and the column at which it starts. Columns decide how
blocks nest.
-/

namespace ApiSchema.Yaml

/-! ## Characters -/

/-- Whether a character may occur in a YAML text. -/
def isAllowed (c : Char) : Bool :=
  let n := c.toNat
  n = 0x09 || n = 0x0A || n = 0x0D || (0x20 ≤ n && n ≤ 0x7E) || n = 0x85 ||
    (0xA0 ≤ n && n ≤ 0xD7FF) || (0xE000 ≤ n && n ≤ 0xFFFD) || 0x10000 ≤ n

def isBreak (c : Char) : Bool :=
  c = '\n' || c = '\r' || c = '\u0085' || c = '\u2028' || c = '\u2029'

def isSpaceOrTab (c : Char) : Bool := c = ' ' || c = '\t'

/-- Whether a character ends a word: a space, a tab or a line break. -/
def endsWord (c : Char) : Bool := isSpaceOrTab c || isBreak c

/-- Whether the text ends or goes on with a character of a class. -/
def atEndOr (p : Char → Bool) (next : Option Char) : Bool := next.all p

/-- Whether a character may occur in the name of an anchor or a directive. -/
def isWordChar (c : Char) : Bool :=
  ('0' ≤ c && c ≤ '9') || ('A' ≤ c && c ≤ 'Z') || ('a' ≤ c && c ≤ 'z') || c = '-' || c = '_'

def isDigit (c : Char) : Bool := '0' ≤ c && c ≤ '9'

/-- The mark that may stand in front of a text. -/
def byteOrderMark : Char := '\uFEFF'

/-! ## Cursors -/

/-- The rest of a text and where it starts. -/
structure Cursor where
  rest : List Char
  index : Nat
  line : Nat
  column : Nat
deriving Inhabited

namespace Cursor

def start (text : List Char) : Cursor := ⟨text, 0, 0, 0⟩

def peek? (cursor : Cursor) : Option Char := cursor.rest.head?

def peekAt? (cursor : Cursor) (distance : Nat) : Option Char := cursor.rest[distance]?

/-- Whether the next character is a given one. -/
def sees (cursor : Cursor) (c : Char) : Bool := cursor.peek? == some c

/-- Whether the next character is of a class. -/
def seesAny (cursor : Cursor) (p : Char → Bool) : Bool := cursor.peek?.any p

/-- Whether the text ends here. -/
def atEnd (cursor : Cursor) : Bool := cursor.rest.isEmpty

/-- Moves past a character. -/
def next (cursor : Cursor) : Cursor :=
  match cursor.rest with
  | [] => cursor
  | c :: rest =>
    if isBreak c && !(c == '\r' && rest.head? == some '\n') then
      ⟨rest, cursor.index + 1, cursor.line + 1, 0⟩
    else if c == byteOrderMark then ⟨rest, cursor.index + 1, cursor.line, cursor.column⟩
    else ⟨rest, cursor.index + 1, cursor.line, cursor.column + 1⟩

/-- Moves past some characters. -/
def advance : Nat → Cursor → Cursor
  | 0, cursor => cursor
  | count + 1, cursor => advance count cursor.next

/-- Moves past the characters of a class, and gives them. -/
def take (cursor : Cursor) (p : Char → Bool) : List Char × Cursor :=
  let taken := cursor.rest.takeWhile p
  (taken, advance taken.length cursor)

/-- Moves past the characters of a class. -/
def skip (cursor : Cursor) (p : Char → Bool) : Cursor := (cursor.take p).2

/-- Moves past spaces. -/
def skipSpaces (cursor : Cursor) : Cursor := cursor.skip (· == ' ')

/-- Moves past spaces up to a column. -/
def skipSpacesTo (cursor : Cursor) (column : Nat) : Cursor :=
  let spaces := (cursor.rest.takeWhile (· == ' ')).length
  advance (min spaces (column - cursor.column)) cursor

/-- Moves past a comment. -/
def skipComment (cursor : Cursor) : Cursor :=
  if cursor.sees '#' then cursor.skip (!isBreak ·) else cursor

/-- Moves past a line break, and gives the break that it stands for. -/
def lineBreak? (cursor : Cursor) : Option (Char × Cursor) :=
  match cursor.rest with
  | '\r' :: '\n' :: _ => some ('\n', advance 2 cursor)
  | c :: _ =>
    if c = '\u2028' || c = '\u2029' then some (c, cursor.next)
    else if isBreak c then some ('\n', cursor.next)
    else none
  | [] => none

def skipBreak (cursor : Cursor) : Cursor := (cursor.lineBreak?.map (·.2)).getD cursor

/-- Whether three equal marks stand here as a word of their own. -/
def seesMarks (cursor : Cursor) (mark : Char) : Bool :=
  cursor.rest.take 3 == [mark, mark, mark] && atEndOr endsWord (cursor.peekAt? 3)

/-- Whether the start or the end of a document is marked here. -/
def seesSeparator (cursor : Cursor) : Bool := cursor.seesMarks '-' || cursor.seesMarks '.'

end Cursor

end ApiSchema.Yaml
