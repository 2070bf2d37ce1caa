/-
# Texts of scalars

A scalar is written plainly, in quotes, or as a block of lines. A single line break inside a plain
or quoted text stands for a space, and further ones for themselves.
-/
import ApiSchema.Text.Quoted
import ApiSchema.Yaml.Cursor
import ApiSchema.Yaml.Fault

namespace ApiSchema.Yaml

/-! ## Line breaks -/

/-- What a line break and the breaks of the empty lines after it stand for. -/
def folded (first : Char) (breaks : List Char) : List Char :=
  if first != '\n' then first :: breaks
  else if breaks.isEmpty then [' ']
  else breaks

/-! ## Plain scalars -/

/-- Whether a character has a meaning of its own inside brackets. -/
def isFlowMark (c : Char) : Bool := c = ',' || c = '[' || c = ']' || c = '\x7b' || c = '\x7d'

/-- The number of characters up to the end of a word of a plain scalar. -/
def plainLength (flow : Bool) : List Char → Nat
  | [] => 0
  | c :: cs =>
    let endsKey := c = ':' && atEndOr (fun d => endsWord d || (flow && isFlowMark d)) cs.head?
    if endsWord c || endsKey || (flow && (isFlowMark c || c = '?')) then 0
    else plainLength flow cs + 1

/-- The breaks of empty lines in a plain scalar; `none` where a document starts or ends. -/
def plainBreaks : Nat → List Char → Cursor → Option (List Char) × Cursor
  | 0, breaks, cursor => (some breaks, cursor)
  | fuel + 1, breaks, cursor =>
    if cursor.sees ' ' then plainBreaks fuel breaks cursor.next
    else
      match cursor.lineBreak? with
      | none => (some breaks, cursor)
      | some (c, cursor) =>
        if cursor.seesSeparator then (none, cursor)
        else plainBreaks fuel (breaks ++ [c]) cursor

/-- What stands between two words of a plain scalar, and whether a line break does. -/
def plainSpaces (cursor : Cursor) : List Char × Bool × Cursor :=
  let (spaces, cursor) := cursor.take (· == ' ')
  match cursor.lineBreak? with
  | none => (spaces, false, cursor)
  | some (first, cursor) =>
    if cursor.seesSeparator then ([], true, cursor)
    else
      match plainBreaks cursor.rest.length [] cursor with
      | (none, cursor) => ([], true, cursor)
      | (some breaks, cursor) => (folded first breaks, true, cursor)

/-- A plain scalar: words up to a comment, an end of the mapping key, or a line that is not indented
enough. The flag tells whether a line break comes after it. `text` is what was read so far, `spaces`
what stands before the next word. -/
def plainText (flow : Bool) (indent : Int) :
    Nat → List Char → List Char → Bool → Cursor → List Char × Bool × Cursor
  | 0, text, _, broken, cursor => (text, broken, cursor)
  | fuel + 1, text, spaces, broken, cursor =>
    let length := plainLength flow cursor.rest
    if cursor.sees '#' || length = 0 then (text, broken, cursor)
    else
      let text := text ++ spaces ++ cursor.rest.take length
      let (spaces, broken, cursor) := plainSpaces (cursor.advance length)
      if spaces.isEmpty || cursor.sees '#' || (!flow && (cursor.column : Int) < indent) then
        (text, broken, cursor)
      else plainText flow indent fuel text spaces broken cursor

/-! ## Quoted scalars -/

/-- The breaks of empty lines in a quoted scalar. No document may start or end inside quotes. -/
def quotedBreaks : Nat → List Char → Cursor → Option (List Char × Cursor)
  | 0, breaks, cursor => some (breaks, cursor)
  | fuel + 1, breaks, cursor =>
    if cursor.seesSeparator then none
    else
      let cursor := cursor.skip isSpaceOrTab
      match cursor.lineBreak? with
      | none => some (breaks, cursor)
      | some (c, cursor) => quotedBreaks fuel (breaks ++ [c]) cursor

/-- What blanks and line breaks in a quoted scalar stand for. -/
def quotedSpaces (cursor : Cursor) : Option (List Char × Cursor) :=
  let (spaces, cursor) := cursor.take isSpaceOrTab
  match cursor.lineBreak? with
  | none => some (spaces, cursor)
  | some (first, cursor) => do
    let (breaks, cursor) ← quotedBreaks (cursor.rest.length + 1) [] cursor
    return (folded first breaks, cursor)

/-- The characters that a letter after a backslash stands for. -/
def escapes : List (Char × Char) :=
  [('0', '\x00'), ('a', '\x07'), ('b', '\x08'), ('t', '\t'), ('\t', '\t'), ('n', '\n'),
    ('v', '\x0B'), ('f', '\x0C'), ('r', '\r'), ('e', '\x1B'), (' ', ' '), ('"', '"'),
    ('\\', '\\'), ('/', '/'), ('N', '\u0085'), ('_', '\u00A0'), ('L', '\u2028'), ('P', '\u2029')]

/-- The number of digits after a letter that announces a code. -/
def codeLengths : List (Char × Nat) := [('x', 2), ('u', 4), ('U', 8)]

/-- The number that a count of hexadecimal digits writes. -/
def hexNumber? (count : Nat) (cs : List Char) : Option Nat :=
  if cs.length < count then none
  else (cs.take count).foldlM (fun n c => (Text.hexValue? c).map (n * 16 + ·)) 0

/-- The codes of characters are below this number. -/
def codeBound : Nat := 0x110000

/-- Codes from this number on are far too large. -/
def farCodeBound : Nat := 0x80000000

/-- The character of a code, and the number of further characters that belong to it: a code for the
first half of a pair is completed by the code after it. -/
def codeChar (code : Nat) (after : List Char) : Reading (Char × Nat) :=
  if farCodeBound ≤ code then .error .codeTooLarge
  else if codeBound ≤ code then .error .noCharacter
  else if Text.isHighUnit code then
    match after with
    | '\\' :: 'u' :: rest => do
      let low ← required (hexNumber? 4 rest)
      if Text.isLowUnit low then
        return (Char.ofNat (0x10000 + (code - 0xD800) * 0x400 + (low - 0xDC00)), 6)
      else throw .malformed
    | _ => .error .malformed
  else if Text.isLowUnit code then .error .malformed
  else .ok (Char.ofNat code, 0)

/-- What a backslash in double quotes and the characters after it stand for. -/
def escaped (cursor : Cursor) : Reading (List Char × Cursor) := do
  let cursor := cursor.next
  let c ← required cursor.peek?
  match escapes.lookup c with
  | some replacement => return ([replacement], cursor.next)
  | none =>
    match codeLengths.lookup c with
    | some count =>
      let cursor := cursor.next
      let code ← required (hexNumber? count cursor.rest)
      let (c, more) ← codeChar code (cursor.rest.drop count)
      return ([c], cursor.advance (count + more))
    | none =>
      let (_, cursor) ← required cursor.lineBreak?
      required (quotedBreaks (cursor.rest.length + 1) [] cursor)

/-- The rest of a quoted scalar up to its closing quote. -/
def quotedText (double : Bool) : Nat → List Char → Cursor → Reading (List Char × Cursor)
  | 0, _, _ => .error .malformed
  | fuel + 1, text, cursor => do
    let c ← required cursor.peek?
    if c = (if double then '"' else '\'') then
      if !double && cursor.peekAt? 1 == some '\'' then
        quotedText double fuel (text ++ ['\'']) (cursor.advance 2)
      else return (text, cursor.next)
    else if double && c = '\\' then
      let (part, cursor) ← escaped cursor
      quotedText double fuel (text ++ part) cursor
    else if endsWord c then
      let (part, cursor) ← required (quotedSpaces cursor)
      quotedText double fuel (text ++ part) cursor
    else quotedText double fuel (text ++ [c]) cursor.next

/-! ## Block scalars -/

/-- What the line breaks at the end of a block become: one by default, none, or all. -/
inductive Chomping
  | clip
  | strip
  | keep
deriving DecidableEq, Inhabited

def chomping? : Option Char → Option Chomping
  | some '+' => some .keep
  | some '-' => some .strip
  | _ => none

/-- The indicators of a block: chomping and indentation, in any order. -/
def blockHeader (cursor : Cursor) : Option (Chomping × Option Nat × Cursor) := do
  let digit? (cursor : Cursor) : Option Nat :=
    (cursor.peek?.filter isDigit).map fun c => c.toNat - '0'.toNat
  let (chomping, increment, cursor) :=
    match chomping? cursor.peek? with
    | some chomping =>
      let cursor := cursor.next
      match digit? cursor with
      | some n => (chomping, some n, cursor.next)
      | none => (chomping, none, cursor)
    | none =>
      match digit? cursor with
      | some n =>
        let cursor := cursor.next
        match chomping? cursor.peek? with
        | some chomping => (chomping, some n, cursor.next)
        | none => (.clip, some n, cursor)
      | none => (.clip, none, cursor)
  if increment == some 0 then none
  else
    let space (c : Char) := c = ' ' || isBreak c
    if atEndOr space cursor.peek? then
      let cursor := cursor.skipSpaces.skipComment
      if atEndOr isBreak cursor.peek? then some (chomping, increment, cursor.skipBreak) else none
    else none

/-- The breaks of empty lines at the start of a block, and the largest indentation among them and
the first line. -/
def blockIndentation : Nat → List Char → Nat → Cursor → List Char × Nat × Cursor
  | 0, breaks, widest, cursor => (breaks, widest, cursor)
  | fuel + 1, breaks, widest, cursor =>
    if cursor.sees ' ' then
      let cursor := cursor.next
      blockIndentation fuel breaks (max widest cursor.column) cursor
    else
      match cursor.lineBreak? with
      | some (c, cursor) => blockIndentation fuel (breaks ++ [c]) widest cursor
      | none => (breaks, widest, cursor)

/-- The breaks of empty lines in a block of a given indentation. -/
def blockBreaks (indent : Nat) : Nat → List Char → Cursor → List Char × Cursor
  | 0, breaks, cursor => (breaks, cursor)
  | fuel + 1, breaks, cursor =>
    let cursor := cursor.skipSpacesTo indent
    match cursor.lineBreak? with
    | some (c, cursor) => blockBreaks indent fuel (breaks ++ [c]) cursor
    | none => (breaks, cursor)

/-- The lines of a block: the text without its last line break, that break, and the breaks of empty
lines after it. `breaks` are those before the next line. -/
def blockLines (fold : Bool) (indent : Nat) :
    Nat → List Char → List Char → List Char → Cursor →
      List Char × List Char × List Char × Cursor
  | 0, text, last, breaks, cursor => (text, last, breaks, cursor)
  | fuel + 1, text, last, breaks, cursor =>
    if cursor.column = indent && !cursor.atEnd then
      let flush := !cursor.seesAny isSpaceOrTab
      let (line, cursor) := cursor.take (!isBreak ·)
      let text := text ++ breaks ++ line
      let last := (cursor.lineBreak?.map fun (c, _) => [c]).getD []
      let cursor := cursor.skipBreak
      let (breaks, cursor) := blockBreaks indent (cursor.rest.length + 1) [] cursor
      if cursor.column = indent && !cursor.atEnd then
        let text :=
          if fold && last == ['\n'] && flush && !cursor.seesAny isSpaceOrTab then
            if breaks.isEmpty then text ++ [' '] else text
          else text ++ last
        blockLines fold indent fuel text last breaks cursor
      else (text, last, breaks, cursor)
    else (text, last, breaks, cursor)

/-- A block scalar after its indicator. `parent` is the indentation of the block around it. -/
def blockText (fold : Bool) (parent : Int) (cursor : Cursor) : Option (List Char × Cursor) := do
  let (chomping, increment, cursor) ← blockHeader cursor
  let least := (max (parent + 1) 1).toNat
  let fuel := cursor.rest.length + 1
  let (indent, breaks, cursor) :=
    match increment with
    | some n =>
      let indent := least + n - 1
      let (breaks, cursor) := blockBreaks indent fuel [] cursor
      (indent, breaks, cursor)
    | none =>
      let (breaks, widest, cursor) := blockIndentation fuel [] 0 cursor
      (max least widest, breaks, cursor)
  let (text, last, breaks, cursor) := blockLines fold indent fuel [] [] breaks cursor
  return match chomping with
    | .strip => (text, cursor)
    | .clip => (text ++ last, cursor)
    | .keep => (text ++ last ++ breaks, cursor)

end ApiSchema.Yaml
