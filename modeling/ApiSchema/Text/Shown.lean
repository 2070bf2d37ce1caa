/-
# Texts as shown to people

A text inside a message stands between single quotes unless that would need an escape, and
characters that cannot be shown are escaped by their code. Binary data is shown in the same way,
with a letter before the quotes.
-/
import ApiSchema.Text.Printable

namespace ApiSchema.Text

/-- A number in hexadecimal digits, filled up with zeros to a width. -/
def hexPadded (width n : Nat) : List Char :=
  let digits := Nat.toDigits 16 n
  List.replicate (width - digits.length) '0' ++ digits

/-- The letter of the short escape that some characters have. -/
def shortEscape? (c : Char) : Option Char :=
  if c = '\n' then some 'n'
  else if c = '\r' then some 'r'
  else if c = '\t' then some 't'
  else none

def codeEscape (n : Nat) : List Char :=
  if n < 0x100 then '\\' :: 'x' :: hexPadded 2 n
  else if n < 0x10000 then '\\' :: 'u' :: hexPadded 4 n
  else '\\' :: 'U' :: hexPadded 8 n

/-- A character as it is shown between the given quotes. -/
def showChar (mark c : Char) : List Char :=
  if c = mark ∨ c = '\\' then ['\\', c]
  else
    match shortEscape? c with
    | some letter => ['\\', letter]
    | none => if isPrintable c then [c] else codeEscape c.toNat

/-- Double quotes are taken only for a text with a single quote and no double quote in it. -/
def markFor (cs : List Char) : Char :=
  if cs.contains '\'' && !cs.contains '"' then '"' else '\''

/-- A text between the quotes that suit it. -/
def displayQuoted (s : String) : String :=
  let mark := markFor s.toList
  String.ofList (mark :: (s.toList.flatMap (showChar mark) ++ [mark]))

/-- A byte as it is shown between the given quotes: only ASCII is printable. -/
def showByte (mark : Char) (byte : UInt8) : List Char :=
  let c := Char.ofNat byte.toNat
  if byte < 0x7F then showChar mark c else codeEscape c.toNat

/-- Binary data between the quotes that suit it. -/
def displayBytes (bytes : List UInt8) : String :=
  let mark := markFor (bytes.map fun byte => Char.ofNat byte.toNat)
  String.ofList ('b' :: mark :: (bytes.flatMap (showByte mark) ++ [mark]))

end ApiSchema.Text
