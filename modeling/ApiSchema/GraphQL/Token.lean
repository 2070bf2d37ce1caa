/-
# Tokens of GraphQL text

Blanks, commas, line breaks, byte order marks and comments stand between tokens. The contents of
numbers and of quoted texts carry no meaning here, so tokens only record their kind.
-/
import ApiSchema.Text.Quoted

namespace ApiSchema.GraphQL

/-- Why a text cannot be read. -/
inductive SyntaxFault
  /-- It is outside the grammar. -/
  | malformed
  /-- It ends within an escape. -/
  | cutShort
deriving DecidableEq, Inhabited

inductive Token
  | punctuator (mark : Char)
  | spread
  | name (text : String)
  | int
  | float
  | text
  /-- From here on the text has no tokens. -/
  | broken (fault : SyntaxFault)
deriving DecidableEq, Inhabited

namespace Token

/-! ## Character classes -/

/-- Characters that may stand between tokens. -/
def isIgnored (c : Char) : Bool :=
  c = ' ' || c = '\t' || c = ',' || c = '\ufeff' || c = '\n' || c = '\r'

def isLineEnd (c : Char) : Bool := c = '\n' || c = '\r'

/-- Characters that are tokens by themselves. -/
def isPunctuator (c : Char) : Bool := "!$&():=@[]\x7b|\x7d".toList.contains c

def isDigit (c : Char) : Bool := '0' ≤ c && c ≤ '9'

def isNameStart (c : Char) : Bool :=
  ('a' ≤ c && c ≤ 'z') || ('A' ≤ c && c ≤ 'Z') || c = '_'

def isNamePart (c : Char) : Bool := isNameStart c || isDigit c

/-! ## Numbers -/

/-- The text after digits, of which there has to be one at least. -/
def afterDigits? (cs : List Char) : Option (List Char) :=
  match cs with
  | c :: _ => if isDigit c then some (cs.dropWhile isDigit) else none
  | [] => none

/-- The text after the whole part of a number: a zero stands alone. -/
def afterWhole? : List Char → Option (List Char)
  | '0' :: c :: rest => if isDigit c then none else some (c :: rest)
  | '0' :: [] => some []
  | cs => afterDigits? cs

/-- The text after a fraction, and whether there was one. -/
def afterFraction? : List Char → Option (Bool × List Char)
  | '.' :: rest => (afterDigits? rest).map (true, ·)
  | cs => some (false, cs)

/-- The text after an exponent, and whether there was one. -/
def afterExponent? : List Char → Option (Bool × List Char)
  | e :: rest =>
    if e = 'e' ∨ e = 'E' then
      match rest with
      | s :: more =>
        if s = '+' ∨ s = '-' then (afterDigits? more).map (true, ·)
        else (afterDigits? rest).map (true, ·)
      | [] => none
    else some (false, e :: rest)
  | [] => some (false, [])

/-- Whether a number may end here: neither a point nor a name may follow. -/
def endsNumber : List Char → Bool
  | c :: _ => c != '.' && !isNameStart c
  | [] => true

def number? (cs : List Char) : Option (Token × List Char) := do
  let unsigned := match cs with
    | '-' :: rest => rest
    | _ => cs
  let rest ← afterWhole? unsigned
  let (fraction, rest) ← afterFraction? rest
  let (exponent, rest) ← afterExponent? rest
  if endsNumber rest then return (if fraction || exponent then .float else .int, rest) else none

/-! ## Quoted texts -/

/-- Whether a number is a code point that stands for a character. -/
def isScalarValue (n : Nat) : Bool := n < 0xD800 || (0xE000 ≤ n && n < 0x110000)

/-- The text after an escape with braces: up to eight hexadecimal digits for one character. -/
def afterBraced? (cs : List Char) : Option (List Char) :=
  let digits := cs.takeWhile (· != '\x7d')
  let value := digits.foldlM (fun n c => (Text.hexValue? c).map (n * 16 + ·)) 0
  match cs.drop digits.length, value with
  | _ :: rest, some n =>
    if 0 < digits.length ∧ digits.length ≤ 8 ∧ isScalarValue n then some rest else none
  | _, _ => none

/-- Reads the four digits of a unit; the text must not end before them. -/
def unit : List Char → Except SyntaxFault (Nat × List Char)
  | a :: b :: c :: d :: rest =>
    match Text.unit? a b c d with
    | some n => .ok (n, rest)
    | none => .error .malformed
  | _ => .error .cutShort

/-- The text after the unit of an escape, which is a character or the two halves of one. -/
def afterUnit (cs : List Char) : Except SyntaxFault (List Char) := do
  let (n, rest) ← unit cs
  if isScalarValue n then return rest
  else if Text.isHighUnit n then
    match rest with
    | '\\' :: 'u' :: rest =>
      let (m, rest) ← unit rest
      if Text.isLowUnit m then return rest else throw .malformed
    | _ => throw .malformed
  else throw .malformed

/-- The text after an escape, given what follows the backslash. -/
def afterEscape : List Char → Except SyntaxFault (List Char)
  | 'u' :: '\x7b' :: rest => (afterBraced? rest).elim (.error .malformed) .ok
  | 'u' :: rest => afterUnit rest
  | c :: rest => (Text.simpleEscape? c).elim (.error .malformed) fun _ => .ok rest
  | [] => .error .cutShort

/-- The text after the closing quote of a text on one line. -/
def afterText : Nat → List Char → Except SyntaxFault (List Char)
  | 0, _ => .error .malformed
  | _ + 1, [] => .error .malformed
  | _ + 1, '"' :: rest => .ok rest
  | fuel + 1, '\\' :: rest => (afterEscape rest).bind (afterText fuel)
  | fuel + 1, c :: rest => if isLineEnd c then .error .malformed else afterText fuel rest

/-- The text after the three closing quotes of a block. -/
def afterBlock? : List Char → Option (List Char)
  | '"' :: '"' :: '"' :: rest => some rest
  | '\\' :: '"' :: '"' :: '"' :: rest => afterBlock? rest
  | _ :: rest => afterBlock? rest
  | [] => none

/-! ## Tokens -/

/-- Reads the token that starts here, unless it is a quoted text on one line. -/
def plain? (cs : List Char) : Option (Token × List Char) :=
  match cs with
  | [] => none
  | '.' :: '.' :: '.' :: rest => some (.spread, rest)
  | '"' :: '"' :: '"' :: rest => (afterBlock? rest).map (.text, ·)
  | c :: rest =>
    if isPunctuator c then some (.punctuator c, rest)
    else if isDigit c || c == '-' then number? cs
    else if isNameStart c then
      some (.name (String.ofList (cs.takeWhile isNamePart)), cs.dropWhile isNamePart)
    else none

/-- Whether a quoted text on one line starts here. -/
def startsText : List Char → Bool
  | '"' :: '"' :: '"' :: _ => false
  | '"' :: _ => true
  | _ => false

/-- Reads the token that starts here. -/
def next (cs : List Char) : Except SyntaxFault (Token × List Char) :=
  if startsText cs then (afterText cs.length (cs.drop 1)).map (.text, ·)
  else (plain? cs).elim (.error .malformed) .ok

/-- The text after everything that may stand between tokens. -/
def skip : Nat → List Char → List Char
  | 0, cs => cs
  | fuel + 1, cs =>
    match cs with
    | '#' :: rest => skip fuel (rest.dropWhile (!isLineEnd ·))
    | c :: rest => if isIgnored c then skip fuel rest else cs
    | [] => []

/-- Reads tokens up to the end of the text, or up to where it is broken. The first argument bounds
their number. -/
def readAll : Nat → List Char → List Token
  | 0, _ => [.broken .malformed]
  | fuel + 1, cs =>
    match skip (cs.length + 1) cs with
    | [] => []
    | rest =>
      match next rest with
      | .ok (token, rest) => token :: readAll fuel rest
      | .error fault => [.broken fault]

def ofText (text : String) : List Token :=
  let cs := text.toList
  readAll (cs.length + 1) cs

end Token

end ApiSchema.GraphQL
