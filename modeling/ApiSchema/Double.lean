/-
# Binary floating-point numbers of 64 bits

A number is an exact `± mantissa · 2 ^ exponent`, an infinity, or not a number. Reading a decimal
rounds to the nearest number, a half to the even mantissa. Writing takes the fewest digits that
read back as the same number, and of those the nearest.
-/

namespace ApiSchema

/-- A binary floating-point number. A finite one is in reduced range: the mantissa has at most 53
bits, and fewer than 53 only under the least exponent. -/
inductive Double
  | nan
  | infinite (negative : Bool)
  | finite (negative : Bool) (mantissa : Nat) (exponent : Int)
deriving DecidableEq, Inhabited

namespace Double

/-- The exponent of the numbers next to zero. -/
def leastExponent : Int := -1074

/-- The largest exponent of a finite number. -/
def greatestExponent : Int := 971

/-- Every mantissa is below this power of two. -/
def mantissaBound : Nat := Nat.pow 2 53

def leastFullMantissa : Nat := Nat.pow 2 52

/-- The exponent as a factor of the numerator. -/
def scaleUp (base : Nat) (exponent : Int) : Nat := Nat.pow base exponent.toNat

/-- The exponent as a factor of the denominator. -/
def scaleDown (base : Nat) (exponent : Int) : Nat := Nat.pow base (-exponent).toNat

/-! ## Reading -/

/-- The quotient of two numbers rounded to the nearest whole number, a half to the even one. -/
def roundQuotient (numerator denominator : Nat) : Nat :=
  let quotient := numerator / denominator
  let twice := 2 * (numerator % denominator)
  if twice < denominator then quotient
  else if denominator < twice then quotient + 1
  else quotient + quotient % 2

/-- The number nearest to a positive fraction. -/
def ofPositiveFraction (negative : Bool) (numerator denominator : Nat) : Double :=
  let guess : Int := (numerator.log2 : Int) - denominator.log2 - 53
  let scaled (exponent : Int) : Nat × Nat :=
    (numerator * scaleDown 2 exponent, denominator * scaleUp 2 exponent)
  let (n, d) := scaled guess
  let exponent := max leastExponent (if n < d * mantissaBound then guess else guess + 1)
  let (n, d) := scaled exponent
  let mantissa := roundQuotient n d
  let (mantissa, exponent) :=
    if mantissa = mantissaBound then (leastFullMantissa, exponent + 1) else (mantissa, exponent)
  if greatestExponent < exponent then .infinite negative else .finite negative mantissa exponent

/-- The number nearest to `digits · 10 ^ exponent`. Exponents far out of range are settled without
computing the power. -/
def ofDecimal (negative : Bool) (digits : Nat) (exponent : Int) : Double :=
  let magnitude : Int := (Nat.toDigits 10 digits).length + exponent
  if digits = 0 then .finite negative 0 leastExponent
  else if 400 < magnitude then .infinite negative
  else if magnitude < -400 then .finite negative 0 leastExponent
  else ofPositiveFraction negative (digits * scaleUp 10 exponent) (scaleDown 10 exponent)

/-! ## Arithmetic -/

def zero : Double := .finite false 0 leastExponent

/-- The number with the other sign. -/
def negate : Double → Double
  | .nan => .nan
  | .infinite negative => .infinite (!negative)
  | .finite negative mantissa exponent => .finite (!negative) mantissa exponent

/-- The number nearest to `mantissa · 2 ^ exponent`, whatever the length of the mantissa. -/
def ofScaled (negative : Bool) (mantissa : Nat) (exponent : Int) : Double :=
  if mantissa = 0 then .finite negative 0 leastExponent
  else ofPositiveFraction negative (mantissa * scaleUp 2 exponent) (scaleDown 2 exponent)

/-- The number nearest to a natural number, if that is in range. -/
def ofNat? (n : Nat) : Option Double :=
  match ofScaled false n 0 with
  | .finite negative mantissa exponent => some (.finite negative mantissa exponent)
  | _ => none

/-- A whole number with a sign. -/
def signed (negative : Bool) (n : Nat) : Int := if negative then -(n : Int) else n

/-- The number nearest to the sum of two numbers. A sum of zero is negative only if both numbers
are. -/
def plus : Double → Double → Double
  | .finite a m e, .finite b n f =>
    let least := min e f
    let sum := signed a (m * scaleUp 2 (e - least)) + signed b (n * scaleUp 2 (f - least))
    if sum = 0 then .finite (a && b) 0 leastExponent
    else ofScaled (decide (sum < 0)) sum.natAbs least
  | .nan, _ => .nan
  | _, .nan => .nan
  | .infinite a, .infinite b => if a = b then .infinite a else .nan
  | .infinite a, _ => .infinite a
  | _, .infinite b => .infinite b

/-- The number nearest to the product of two numbers. -/
def times : Double → Double → Double
  | .finite a m e, .finite b n f => ofScaled (a != b) (m * n) (e + f)
  | .nan, _ => .nan
  | _, .nan => .nan
  | .infinite a, .infinite b => .infinite (a != b)
  | .infinite a, .finite b n _ => if n = 0 then .nan else .infinite (a != b)
  | .finite a m _, .infinite b => if m = 0 then .nan else .infinite (a != b)

/-! ## Writing -/

/-- The open or closed interval of the reals that round to a positive number, on a common
denominator with the number itself. -/
structure Interval where
  lower : Nat
  value : Nat
  upper : Nat
  denominator : Nat
  closed : Bool

/-- The interval around `mantissa · 2 ^ exponent`. Below a power of two the neighbours are twice as
close. -/
def interval (mantissa : Nat) (exponent : Int) : Interval :=
  let unit := scaleUp 2 (exponent - 2)
  let narrow := mantissa = leastFullMantissa ∧ leastExponent < exponent
  { lower := (4 * mantissa - (if narrow then 1 else 2)) * unit
    value := 4 * mantissa * unit
    upper := (4 * mantissa + 2) * unit
    denominator := scaleDown 2 (exponent - 2)
    closed := mantissa % 2 = 0 }

/-- Whether `numerator / denominator` lies in the interval. -/
def Interval.contains (i : Interval) (numerator denominator : Nat) : Bool :=
  let here := numerator * i.denominator
  if i.closed then i.lower * denominator ≤ here && here ≤ i.upper * denominator
  else i.lower * denominator < here && here < i.upper * denominator

/-- The decimal exponent of the leading digit of `numerator / denominator`. -/
def leadingPlace (numerator denominator : Nat) : Int :=
  let guess : Int :=
    (Nat.toDigits 10 numerator).length - (Nat.toDigits 10 denominator).length
  if denominator * scaleUp 10 guess ≤ numerator * scaleDown 10 guess then guess else guess - 1

/-- The point of the grid of multiples of `10 ^ place` in the interval, the nearest one if there
are two and the even one if they are equally near. -/
def Interval.gridPoint? (i : Interval) (place : Int) : Option Nat :=
  let up := scaleUp 10 place
  let down := scaleDown 10 place
  let below := i.value * down / (i.denominator * up)
  let above := below + 1
  let fits (point : Nat) := i.contains (point * up) down
  match fits below, fits above with
  | true, true =>
    let left := 2 * (i.value * down)
    let middle := (below + above) * i.denominator * up
    if left < middle then some below
    else if middle < left then some above
    else some (if below % 2 = 0 then below else above)
  | true, false => some below
  | false, true => some above
  | false, false => none

/-- Tries grids of growing fineness; the digits of the first point found and its place. -/
def Interval.search (i : Interval) (leading : Int) : Nat → Nat → Nat × Int
  | 0, count =>
    let place := leading - count
    (i.value * scaleDown 10 place / (i.denominator * scaleUp 10 place), place)
  | fuel + 1, count =>
    match i.gridPoint? (leading - count) with
    | some point => (point, leading - count)
    | none => i.search leading fuel (count + 1)

/-- The shortest digits that read back as a positive number, and the place of the last one. -/
def shortest (mantissa : Nat) (exponent : Int) : Nat × Int :=
  let i := interval mantissa exponent
  i.search (leadingPlace i.value i.denominator) 17 0

/-- How decimals are laid out: positional notation is used from `10 ^ least` up to, not including,
`10 ^ bound`; outside it an exponent with a sign and at least two digits follows. -/
structure Layout where
  least : Int
  bound : Int

/-- Positional from one ten-thousandth up to ten to the sixteenth. -/
def layout : Layout := ⟨-4, 16⟩

/-- Digits without the zeros at their end, and the place of the last digit left. -/
def stripZeros : List Char → Int → List Char × Int
  | '0' :: c :: rest, place => stripZeros (c :: rest) (place + 1)
  | backwards, place => (backwards.reverse, place)

/-- An exponent: its sign and at least two digits. -/
def exponentText (exponent : Int) : List Char :=
  let digits := Nat.toDigits 10 exponent.natAbs
  (if exponent < 0 then '-' else '+') :: (if digits.length < 2 then '0' :: digits else digits)

/-- Lays out a decimal given by its digits and the place of the last one. -/
def Layout.write (l : Layout) (digits : List Char) (place : Int) : List Char :=
  let leading := place + digits.length - 1
  if l.least ≤ leading ∧ leading < l.bound then
    if 0 ≤ place then digits ++ List.replicate place.toNat '0' ++ ['.', '0']
    else if 0 ≤ leading then
      digits.take (leading.toNat + 1) ++ '.' :: digits.drop (leading.toNat + 1)
    else '0' :: '.' :: (List.replicate (-leading - 1).toNat '0' ++ digits)
  else
    match digits with
    | [] => []
    | [d] => d :: 'e' :: exponentText leading
    | d :: ds => d :: '.' :: (ds ++ 'e' :: exponentText leading)

/-- The words for what is no finite number. -/
structure Words where
  nan : String
  infinite : String

/-- A number as text: finite numbers in the fewest digits that read back. -/
def text (words : Words) : Double → String
  | .nan => words.nan
  | .infinite negative => (if negative then "-" else "") ++ words.infinite
  | .finite negative mantissa exponent =>
    let digits :=
      if mantissa = 0 then layout.write ['0'] 0
      else
        let (point, place) := shortest mantissa exponent
        let (kept, place) := stripZeros (Nat.toDigits 10 point).reverse place
        layout.write kept place
    (if negative then "-" else "") ++ String.ofList digits

/-! ## Comparison -/

/-- Whether two finite numbers are the same multiple of a common power of two. -/
def sameMagnitude (m : Nat) (e : Int) (n : Nat) (f : Int) : Bool :=
  m * scaleUp 2 (e - f) == n * scaleUp 2 (f - e)

/-- Equality of numbers: the zeros are equal, and nothing equals what is not a number. -/
def same : Double → Double → Bool
  | .infinite a, .infinite b => a == b
  | .finite a m e, .finite b n f => (m == 0 && n == 0) || (a == b && sameMagnitude m e n f)
  | _, _ => false

/-- Whether a floating-point number is a given whole number. -/
def sameInt (x : Double) (n : Int) : Bool :=
  match x with
  | .finite negative m e =>
    (m == 0 && n == 0) || (negative == decide (n < 0) && sameMagnitude m e n.natAbs 0)
  | _ => false

def isZero : Double → Bool
  | .finite _ m _ => m == 0
  | _ => false

end Double

end ApiSchema
