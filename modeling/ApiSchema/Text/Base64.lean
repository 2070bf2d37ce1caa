/-
# Base 64

Binary data written in sixty-four characters of ASCII, four of them for three bytes. Characters that
are none of the sixty-four are passed over.
-/

namespace ApiSchema.Text.Base64

/-- The value of one of the sixty-four characters. -/
def digit? (c : Char) : Option Nat :=
  if 'A' ≤ c && c ≤ 'Z' then some (c.toNat - 'A'.toNat)
  else if 'a' ≤ c && c ≤ 'z' then some (c.toNat - 'a'.toNat + 26)
  else if '0' ≤ c && c ≤ '9' then some (c.toNat - '0'.toNat + 52)
  else if c = '+' then some 62
  else if c = '/' then some 63
  else none

/-- The byte of a number below 256. -/
def byte (n : Nat) : UInt8 := UInt8.ofNat n

/-- Reads on in a group of four characters. `place` is the number of characters of the group read so
far, `left` what the last of them leaves over, and `pads` the number of equal signs just before.
Equal signs that fill up a group end the data; the group has to be full at the end. -/
def decodeFrom : Nat → Nat → Nat → List Char → Option (List UInt8)
  | place, _, _, [] => if place = 0 then some [] else none
  | place, left, pads, c :: cs =>
    if c = '=' then
      if place < 2 then decodeFrom place left pads cs
      else if 4 ≤ place + (pads + 1) then some []
      else decodeFrom place left (pads + 1) cs
    else
      match digit? c with
      | none => decodeFrom place left pads cs
      | some n =>
        match place with
        | 0 => decodeFrom 1 n 0 cs
        | 1 => (decodeFrom 2 (n % 16) 0 cs).map (byte (left * 4 + n / 16) :: ·)
        | 2 => (decodeFrom 3 (n % 4) 0 cs).map (byte (left * 16 + n / 4) :: ·)
        | _ => (decodeFrom 0 0 0 cs).map (byte (left * 64 + n) :: ·)

/-- The data of a text in ASCII. -/
def decode? (cs : List Char) : Option (List UInt8) :=
  if cs.all (·.toNat < 0x80) then decodeFrom 0 0 0 cs else none

end ApiSchema.Text.Base64
