/-
# Tokens of YAML

The words of a text: marks, scalars, anchors, tags, and the starts and ends of blocks, which are not
written but follow from the indentation. A key is recognised only by the colon after it, so its
start is noted when it is met and marked as a key once the colon is found.
-/
import ApiSchema.Yaml.Scalar

namespace ApiSchema.Yaml

/-! ## Tokens -/

/-- A word of a YAML text. -/
inductive Token
  | version (major : Nat)
  | tagHandle (handle : String) (start : String)
  | otherDirective
  | documentStart
  | documentEnd
  | blockSequenceStart
  | blockMappingStart
  | blockEnd
  | flowSequenceStart
  | flowSequenceEnd
  | flowMappingStart
  | flowMappingEnd
  | flowEntry
  | blockEntry
  | key
  | value
  | alias (anchor : String)
  | anchor (name : String)
  | tag (handle : Option String) (suffix : String)
  | scalar (plain : Bool) (text : String)
  /-- From here on the text cannot be read. -/
  | broken (fault : Fault)
deriving DecidableEq, Inhabited

/-! ## State -/

/-- A place where a key may start: the number of the token there, whether it has to be a key, and
where it is. -/
structure KeyStart where
  number : Nat
  required : Bool
  index : Nat
  line : Nat
  column : Nat
deriving Inhabited

/-- Where a key starts, and whether a mapping starts with it. -/
structure KeyMark where
  number : Nat
  opensMapping : Bool
deriving Inhabited

/-- The state of reading tokens. -/
structure Scan where
  cursor : Cursor
  /-- The tokens so far, without marks of keys, the last one first. -/
  backwards : List Token
  count : Nat
  /-- The keys that were found. -/
  marks : List KeyMark
  /-- How many brackets are open. -/
  depth : Nat
  /-- The indentation of the current block, -1 outside of all blocks. -/
  indent : Int
  /-- The indentations of the blocks around it. -/
  outer : List Int
  /-- Whether a key may start here. -/
  keyAllowed : Bool
  /-- Where a key may have started, for each number of open brackets. -/
  starts : List (Nat × KeyStart)
deriving Inhabited

/-- A step in reading tokens. What was read before a fault is kept. -/
abbrev Scanner := ExceptT Fault (StateM Scan)

namespace Scanner

/-- A result, or the fault that there is none. -/
def orFault {α : Type} (result : Reading α) : Scanner α :=
  match result with
  | .ok a => pure a
  | .error fault => throw fault

/-- Gives up because the text is not well formed. -/
def refuse {α : Type} : Scanner α := throw .malformed

def push (token : Token) : Scanner Unit :=
  modify fun s => { s with backwards := token :: s.backwards, count := s.count + 1 }

def move (cursor : Cursor) : Scanner Unit := modify fun s => { s with cursor }

/-- Says whether a key may start next. -/
def allowKey (allowed : Bool) : Scanner Unit := modify fun s => { s with keyAllowed := allowed }

/-! ## Keys -/

/-- Forgets where a key may have started on the current level. A required key cannot be given up. -/
def dropStart : Scanner Unit := do
  let s ← get
  match s.starts.lookup s.depth with
  | some start => if start.required then refuse
  | none => pure ()
  set { s with starts := s.starts.filter (·.1 != s.depth) }

/-- A key fits on one line and is not too long; starts of keys that do not are given up. -/
def dropStale : Scanner Unit := do
  let s ← get
  let stale (start : KeyStart) :=
    start.line != s.cursor.line || 1024 < s.cursor.index - start.index
  if s.starts.any fun (_, start) => stale start && start.required then refuse
  else set { s with starts := s.starts.filter fun (_, start) => !stale start }

/-- Notes that a key may start here. It has to be one if it is at the indentation of the block. -/
def noteStart : Scanner Unit := do
  if (← get).keyAllowed then
    dropStart
    modify fun s =>
      let required := s.depth = 0 && s.indent == (s.cursor.column : Int)
      let start : KeyStart :=
        ⟨s.count, required, s.cursor.index, s.cursor.line, s.cursor.column⟩
      { s with starts := (s.depth, start) :: s.starts }

/-! ## Blocks -/

/-- Ends the blocks that are indented more than a column. -/
def closeBlocks (column : Int) : Nat → Scanner Unit
  | 0 => pure ()
  | fuel + 1 => do
    let s ← get
    if column < s.indent then
      set { s with indent := s.outer.headD (-1), outer := s.outer.drop 1 }
      push .blockEnd
      closeBlocks column fuel

/-- Ends the blocks that are indented more than a column; inside brackets there are none. -/
def unwind (column : Int) : Scanner Unit := do
  let s ← get
  if s.depth = 0 then closeBlocks column (s.outer.length + 1)

/-- Starts a block at a column, if it is indented more than the block around it. -/
def openBlock (column : Nat) : Scanner Bool := do
  let s ← get
  if s.indent < (column : Int) then
    set { s with indent := (column : Int), outer := s.indent :: s.outer }
    return true
  else return false

/-! ## Marks -/

/-- Moves past blanks, comments and line breaks. After a line break a key may start. -/
def skipToToken : Nat → Scanner Unit
  | 0 => pure ()
  | fuel + 1 => do
    let s ← get
    let cursor := s.cursor.skipSpaces.skipComment
    match cursor.lineBreak? with
    | some (_, cursor) =>
      set { s with cursor, keyAllowed := s.keyAllowed || s.depth = 0 }
      skipToToken fuel
    | none => move cursor

def documentMark (token : Token) : Scanner Unit := do
  unwind (-1)
  dropStart
  allowKey false
  move ((← get).cursor.advance 3)
  push token

def openFlow (token : Token) : Scanner Unit := do
  noteStart
  modify fun s => { s with depth := s.depth + 1, keyAllowed := true, cursor := s.cursor.next }
  push token

def closeFlow (token : Token) : Scanner Unit := do
  dropStart
  if (← get).depth = 0 then refuse
  modify fun s => { s with depth := s.depth - 1, keyAllowed := false, cursor := s.cursor.next }
  push token

/-- A comma between brackets. -/
def flowComma : Scanner Unit := do
  allowKey true
  dropStart
  move (← get).cursor.next
  push .flowEntry

/-- The dash of a sequence entry. -/
def dash : Scanner Unit := do
  let s ← get
  if s.depth = 0 then
    if !s.keyAllowed then refuse
    if ← openBlock s.cursor.column then push .blockSequenceStart
  allowKey true
  dropStart
  move s.cursor.next
  push .blockEntry

def questionMark : Scanner Unit := do
  let s ← get
  if s.depth = 0 then
    if !s.keyAllowed then refuse
    if ← openBlock s.cursor.column then push .blockMappingStart
  allowKey (s.depth = 0)
  dropStart
  move s.cursor.next
  push .key

/-- The colon before a value. It makes a key of what may have been one. -/
def colon : Scanner Unit := do
  let s ← get
  match s.starts.lookup s.depth with
  | some start =>
    set { s with starts := s.starts.filter (·.1 != s.depth) }
    let opens ← if s.depth = 0 then openBlock start.column else pure false
    modify fun s => { s with marks := ⟨start.number, opens⟩ :: s.marks, keyAllowed := false }
  | none =>
    if s.depth = 0 then
      if !s.keyAllowed then refuse
      if ← openBlock s.cursor.column then push .blockMappingStart
    allowKey (s.depth = 0)
    dropStart
  move (← get).cursor.next
  push .value

/-! ## Anchors, tags, directives -/

/-- The name after the mark of an anchor or an alias. -/
def anchorName (make : String → Token) : Scanner Unit := do
  noteStart
  allowKey false
  let (name, cursor) := (← get).cursor.next.take isWordChar
  let mayFollow (c : Char) := endsWord c || "?:,]\x7d%@`".toList.contains c
  if name.isEmpty || !atEndOr mayFollow cursor.peek? then refuse
  move cursor
  push (make (String.ofList name))

def isTagChar (c : Char) : Bool := isWordChar c || ";/?:@&=+$,.!~*'()[]%".toList.contains c

/-- The bytes of percent escapes. -/
def percentBytes : Nat → List UInt8 → Cursor → Option (List UInt8 × Cursor)
  | 0, bytes, cursor => some (bytes, cursor)
  | fuel + 1, bytes, cursor =>
    if cursor.sees '%' then do
      let byte ← hexNumber? 2 (cursor.rest.drop 1)
      percentBytes fuel (bytes ++ [byte.toUInt8]) (cursor.advance 3)
    else some (bytes, cursor)

/-- The characters of a tag, with percent escapes replaced. -/
def tagChars : Nat → List Char → Cursor → Option (List Char × Cursor)
  | 0, text, cursor => some (text, cursor)
  | fuel + 1, text, cursor => do
    if cursor.sees '%' then
      let (bytes, cursor) ← percentBytes cursor.rest.length [] cursor
      let decoded ← String.fromUTF8? (ByteArray.mk bytes.toArray)
      tagChars fuel (text ++ decoded.toList) cursor
    else
      match cursor.peek? with
      | some c =>
        if isTagChar c then tagChars fuel (text ++ [c]) cursor.next else some (text, cursor)
      | none => some (text, cursor)

/-- The characters of a tag, of which there has to be one. -/
def tagText (cursor : Cursor) : Option (String × Cursor) := do
  let (text, cursor) ← tagChars (cursor.rest.length + 1) [] cursor
  if text.isEmpty then none else return (String.ofList text, cursor)

/-- A tag handle: a mark alone, or a word between two marks. -/
def handle (cursor : Cursor) : Option (String × Cursor) :=
  if !cursor.sees '!' then none
  else
    let after := cursor.next
    if after.sees ' ' then some ("!", after)
    else
      let (word, after) := after.take isWordChar
      if after.sees '!' then some (String.ofList ('!' :: word ++ ['!']), after.next) else none

/-- A tag in full, a tag alone, or one with a handle. -/
def tagParts (cursor : Cursor) : Option (Option String × String × Cursor) := do
  match cursor.peekAt? 1 with
  | some '<' =>
    let (suffix, cursor) ← tagText (cursor.advance 2)
    if cursor.sees '>' then return (none, suffix, cursor.next) else none
  | next =>
    if atEndOr endsWord next then return (none, "!", cursor.next)
    else
      let word := (cursor.rest.drop 1).takeWhile fun c => !(c = ' ' || isBreak c)
      let (handle, cursor) ← if word.contains '!' then handle cursor else some ("!", cursor.next)
      let (suffix, cursor) ← tagText cursor
      return (some handle, suffix, cursor)

def readTag : Scanner Unit := do
  noteStart
  allowKey false
  let (handle, suffix, cursor) ← orFault (required (tagParts (← get).cursor))
  if !atEndOr (fun c => c = ' ' || isBreak c) cursor.peek? then refuse
  move cursor
  push (.tag handle suffix)

def directiveNumber (cursor : Cursor) : Reading (Nat × Cursor) := do
  let (digits, cursor) := cursor.take isDigit
  if digits.isEmpty then throw .malformed
  else return ((← numberOr (Numeral.whole .decimal digits)).toNat, cursor)

def directiveToken (cursor : Cursor) : Reading (Token × Cursor) := do
  let space (c : Char) := c = ' ' || isBreak c
  let (name, cursor) := cursor.take isWordChar
  if name.isEmpty || !atEndOr space cursor.peek? then throw .malformed
  else if String.ofList name = "YAML" then
    let (major, cursor) ← directiveNumber cursor.skipSpaces
    if !cursor.sees '.' then throw .malformed
    else
      let (_, cursor) ← directiveNumber cursor.next
      if atEndOr space cursor.peek? then return (.version major, cursor) else throw .malformed
  else if String.ofList name = "TAG" then
    let (handle, cursor) ← required (handle cursor.skipSpaces)
    if !cursor.sees ' ' then throw .malformed
    else
      let (start, cursor) ← required (tagText cursor.skipSpaces)
      if atEndOr space cursor.peek? then return (.tagHandle handle start, cursor)
      else throw .malformed
  else return (.otherDirective, cursor.skip (!isBreak ·))

def readDirective : Scanner Unit := do
  unwind (-1)
  dropStart
  allowKey false
  let (token, cursor) ← orFault (directiveToken (← get).cursor.next)
  let cursor := cursor.skipSpaces.skipComment
  if !atEndOr isBreak cursor.peek? then refuse
  move cursor.skipBreak
  push token

/-! ## Scalars -/

def blockScalar (fold : Bool) : Scanner Unit := do
  allowKey true
  dropStart
  let s ← get
  let (text, cursor) ← orFault (required (blockText fold s.indent s.cursor.next))
  move cursor
  push (.scalar false (String.ofList text))

def quotedScalar (double : Bool) : Scanner Unit := do
  noteStart
  allowKey false
  let s ← get
  let (text, cursor) ←
    orFault (quotedText double (s.cursor.rest.length + 1) [] s.cursor.next)
  move cursor
  push (.scalar false (String.ofList text))

/-- A plain scalar. If a line break comes after it, a key may start there. -/
def plainScalar : Scanner Unit := do
  noteStart
  let s ← get
  let (text, broken, cursor) :=
    plainText (s.depth != 0) (s.indent + 1) (s.cursor.rest.length + 1) [] [] false s.cursor
  move cursor
  allowKey broken
  push (.scalar true (String.ofList text))

/-- Whether a plain scalar may start here. -/
def startsPlain (flow : Bool) (c : Char) (next : Option Char) : Bool :=
  !(endsWord c || "-?:,[]\x7b\x7d#&*!|>'\"%@`".toList.contains c) ||
    (!atEndOr endsWord next && (c = '-' || (!flow && (c = '?' || c = ':'))))

/-! ## All tokens -/

/-- Reads the token that starts with a character. -/
def readToken (c : Char) : Scanner Unit := do
  let s ← get
  let next := s.cursor.peekAt? 1
  let flow := s.depth != 0
  let atStart := s.cursor.column = 0
  let wordEnds := atEndOr endsWord next
  if c = '%' && atStart then readDirective
  else if atStart && s.cursor.seesMarks '-' then documentMark .documentStart
  else if atStart && s.cursor.seesMarks '.' then documentMark .documentEnd
  else if c = '[' then openFlow .flowSequenceStart
  else if c = '\x7b' then openFlow .flowMappingStart
  else if c = ']' then closeFlow .flowSequenceEnd
  else if c = '\x7d' then closeFlow .flowMappingEnd
  else if c = ',' then flowComma
  else if c = '-' && wordEnds then dash
  else if c = '?' && (flow || wordEnds) then questionMark
  else if c = ':' && (flow || wordEnds) then colon
  else if c = '*' then anchorName .alias
  else if c = '&' then anchorName .anchor
  else if c = '!' then readTag
  else if c = '|' && !flow then blockScalar false
  else if c = '>' && !flow then blockScalar true
  else if c = '\'' then quotedScalar false
  else if c = '"' then quotedScalar true
  else if startsPlain flow c next then plainScalar
  else refuse

/-- Reads the tokens up to the end of the text. Every token takes up a character, so the length of
the text bounds their number. -/
def readAll : Nat → Scanner Unit
  | 0 => refuse
  | fuel + 1 => do
    skipToToken ((← get).cursor.rest.length + 1)
    dropStale
    unwind (← get).cursor.column
    match (← get).cursor.peek? with
    | none => do
      unwind (-1)
      dropStart
    | some c => do
      readToken c
      readAll fuel

end Scanner

/-- The token of a number with the marks of the key that starts there. -/
def withMarks (marks : List KeyMark) (number : Nat) (token : Token) : List Token :=
  match marks.find? (·.number == number) with
  | none => [token]
  | some mark => (if mark.opensMapping then [.blockMappingStart] else []) ++ [.key, token]

/-- The tokens of a text, up to the place where it cannot be read. -/
def Token.scan (text : String) : List Token :=
  let chars := text.toList
  if !chars.all isAllowed then [.broken .malformed]
  else
    let cursor := Cursor.start chars
    let cursor := if cursor.sees byteOrderMark then cursor.next else cursor
    let start : Scan :=
      { cursor, backwards := [], count := 0, marks := [], depth := 0, indent := -1, outer := []
        keyAllowed := true, starts := [] }
    let (outcome, s) := (Scanner.readAll (chars.length + 1)).run.run start
    let tokens := s.backwards.reverse.zipIdx.flatMap fun (token, number) =>
      withMarks s.marks number token
    match outcome with
    | .ok () => tokens
    | .error fault => tokens ++ [.broken fault]

end ApiSchema.Yaml
