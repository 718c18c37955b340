/-!
Decimal numerals, and the numbers of the IEEE 754 binary64 format with their texts.

A binary64 value is a sign and a magnitude code, the lower 63 bits of its encoding. Codes below
`infinityCode` are the finite magnitudes in ascending order: the exponent field is the quotient of
the code by `2 ^ 52` and the fraction its remainder, so that adding one to a code always steps to
the next magnitude. Rounding takes the nearest number, of two equally near ones that with the even
significand; magnitudes too large for the format become infinite, those too small become zero.

A text that is read is an optional sign, then digits with an optional point among them (a digit
stands on at least one side of it), then optionally `e` or `E` with a whole exponent. The words
`inf`, `infinity` and `nan`, in any letter case and with an optional sign, name the values that are
not finite. A finite number is written with the fewest digits that read back to it, the nearest such
decimal if there are several, and never with an exponent. A literal always has a point with a digit
on either side of it.
-/

namespace PauliLowering

/-! ## Numerals -/

namespace Numeral

def value (digits : List Char) : Nat := Nat.ofDigitChars 10 digits 0

/-- A numeral is a non-empty run of the ASCII digits. -/
def read? (cs : List Char) : Option Nat :=
  if !cs.isEmpty && cs.all Char.isDigit then some (value cs) else none

/-- The sign in front of a numeral, `true` for a minus, and what follows it. -/
def splitSign : List Char → Bool × List Char
  | '+' :: cs => (false, cs)
  | '-' :: cs => (true, cs)
  | cs => (false, cs)

/-- A numeral with an optional plus sign whose value is at most `bound`. -/
def readUpTo? (bound : Nat) (cs : List Char) : Option Nat :=
  let digits := match cs with
    | '+' :: rest => rest
    | _ => cs
  (read? digits).filter (· ≤ bound)

def word : Nat := 18446744073709551615

/-- The digits of `n` without leading zeros. -/
def digits (n : Nat) : List Char := Nat.toDigits 10 n

end Numeral

/-! ## The format -/

structure Binary64 where
  negative : Bool
  code : Nat
  code_lt : code < 0x8000000000000000 := by decide
  deriving DecidableEq

namespace Binary64

/-- The weight of the lowest exponent bit in a magnitude code. -/
def fractionCount : Nat := 0x10000000000000

/-- The code of infinity; codes above it are the NaNs. -/
def infinityCode : Nat := 0x7FF0000000000000

def zero : Binary64 := { negative := false, code := 0 }

def infinity (negative : Bool) : Binary64 := { negative, code := infinityCode }

def nan : Binary64 := { negative := false, code := 0x7FF8000000000000 }

def half : Binary64 := { negative := false, code := 0x3FE0000000000000 }

def isFinite (v : Binary64) : Bool := v.code < infinityCode

def isNaN (v : Binary64) : Bool := infinityCode < v.code

def isZero (v : Binary64) : Bool := v.code == 0

def ofBits (bits : UInt64) : Binary64 where
  negative := 0x8000000000000000 ≤ bits.toNat
  code := bits.toNat % 0x8000000000000000
  code_lt := Nat.mod_lt _ (by decide)

def toBits (v : Binary64) : UInt64 :=
  UInt64.ofNat (v.code + if v.negative then 0x8000000000000000 else 0)

/-- The whole number that a finite magnitude scales. A zero exponent field marks the magnitudes
below the normal ones, which have no hidden leading bit. -/
def significand (v : Binary64) : Nat :=
  if v.code < fractionCount then v.code else fractionCount + v.code % fractionCount

/-- The power of two that scales the significand. -/
def exponent (v : Binary64) : Int := max (v.code / fractionCount : Nat) 1 - 1075

def magnitude (v : Binary64) : Rat := v.significand * 2 ^ v.exponent

/-! ## Rounding -/

/-- The largest `k` with `2 ^ k ≤ x`, for positive `x`. -/
def floorLog2 (x : Rat) : Int :=
  let k : Int := x.num.natAbs.log2 - x.den.log2
  if 2 ^ k ≤ x then k else k - 1

/-- The whole number nearest to `x`, the even one of two; `x` is not negative. -/
def roundHalfEven (x : Rat) : Nat :=
  let below := x.floor
  let rest := x - below
  if rest < 1 / 2 || (rest == 1 / 2 && below % 2 == 0) then below.toNat else below.toNat + 1

/-- The code of the magnitude nearest to `x`. The significand is rounded at the place of its 53rd
bit, or at the lowest place of the format if that is higher. A significand that rounds up to
`2 ^ 53` carries into the exponent field. -/
def nearestCode (x : Rat) : Nat :=
  if x = 0 then 0
  else
    let place := max (floorLog2 x - 52) (-1074)
    min infinityCode ((place + 1074).toNat * fractionCount + roundHalfEven (x / 2 ^ place))

theorem nearestCode_lt (x : Rat) : nearestCode x < 0x8000000000000000 := by
  have bound : infinityCode < 0x8000000000000000 := by decide
  unfold nearestCode
  split
  · decide
  · exact Nat.lt_of_le_of_lt (Nat.min_le_left _ _) bound

def nearest (negative : Bool) (x : Rat) : Binary64 := ⟨negative, nearestCode x, nearestCode_lt x⟩

/-- The number nearest to `digits * 10 ^ exponent`. A magnitude far outside the format is settled by
its decimal length, without computing the power. -/
def ofDecimal (negative : Bool) (digits : Nat) (exponent : Int) : Binary64 :=
  let length := (Numeral.digits digits).length + exponent
  if digits = 0 || length < -400 then { zero with negative }
  else if 400 < length then infinity negative
  else nearest negative (digits * 10 ^ exponent)

/-! ## Reading -/

def readExponent? (cs : List Char) : Option Int :=
  let (negative, digits) := Numeral.splitSign cs
  (Numeral.read? digits).map fun n => if negative then -(n : Int) else n

/-- An unsigned decimal as digits and a power of ten: `1.25e3` is `125 * 10 ^ 1`. -/
def readDecimal? (cs : List Char) : Option (Nat × Int) :=
  let whole := cs.takeWhile Char.isDigit
  let afterWhole := cs.dropWhile Char.isDigit
  let (fraction, rest) := match afterWhole with
    | '.' :: more => (more.takeWhile Char.isDigit, more.dropWhile Char.isDigit)
    | _ => ([], afterWhole)
  if (whole ++ fraction).isEmpty then none
  else
    let exponent? := match rest with
      | [] => some 0
      | mark :: more => if mark == 'e' || mark == 'E' then readExponent? more else none
    exponent?.map fun e => (Numeral.value (whole ++ fraction), e - fraction.length)

def readWord? (negative : Bool) (cs : List Char) : Option Binary64 :=
  match String.ofList (cs.map Char.toLower) with
  | "inf" | "infinity" => some (infinity negative)
  | "nan" => some { nan with negative }
  | _ => none

def read? (cs : List Char) : Option Binary64 :=
  let (negative, body) := Numeral.splitSign cs
  match readDecimal? body with
  | some (digits, exponent) => some (ofDecimal negative digits exponent)
  | none => readWord? negative body

/-! ## Writing -/

/-- A power of ten near `x` for positive `x`: `10 ^ k ≤ x < 10 ^ (k + 1)`. The first guess comes
from the binary logarithm, with 30103 / 100000 just above the decimal logarithm of two. -/
def floorLog10 (x : Rat) : Int :=
  let guess := floorLog2 x * 30103 / 100000
  if x < 10 ^ guess then guess - 1 else if 10 ^ (guess + 1) ≤ x then guess + 1 else guess

/-- The multiple of `10 ^ place` nearest to `v` among the two around it that read back to `v`. At
equal distance the upper one is taken. -/
def onGrid? (v : Binary64) (place : Int) : Option Nat :=
  let scaled := v.magnitude / 10 ^ place
  let below := scaled.floor.toNat
  let readsBack := fun (digits : Nat) => (ofDecimal v.negative digits place) == v
  match readsBack below, readsBack (below + 1) with
  | true, true => some (if scaled - below < 1 / 2 then below else below + 1)
  | true, false => some below
  | false, true => some (below + 1)
  | false, false => none

/-- The first decimal on the grids from `place` downward, `count` of them. -/
def searchGrids (v : Binary64) : Nat → Int → Option (Nat × Int)
  | 0, _ => none
  | count + 1, place =>
    match onGrid? v place with
    | some digits => some (digits, place)
    | none => searchGrids v count (place - 1)

/-- All digits of a finite number. A power of two below one has as many decimal places as its
exponent says, since it is a power of five over one of ten. -/
def exactDecimal (v : Binary64) : Nat × Int :=
  let place := min v.exponent 0
  ((v.magnitude / 10 ^ place).floor.toNat, place)

/-- The shortest decimal that reads back to the finite number `v`. Seventeen digits always suffice,
so the exact expansion is never reached by the search. -/
def shortestDecimal (v : Binary64) : Nat × Int :=
  if v.isZero then (0, 0)
  else (searchGrids v 18 (floorLog10 v.magnitude + 1)).getD (exactDecimal v)

/-- The decimal `digits * 10 ^ exponent` in positional notation. -/
def positional (digits : Nat) (exponent : Int) : List Char :=
  let text := Numeral.digits digits
  if 0 ≤ exponent then text ++ List.replicate exponent.toNat '0' ++ ['.', '0']
  else
    let places := exponent.natAbs
    let padded := List.replicate (places + 1 - text.length) '0' ++ text
    padded.take (padded.length - places) ++ '.' :: padded.drop (padded.length - places)

/-- The literal of a finite number; a value that is not finite is named by a word. -/
def literal (v : Binary64) : String :=
  let sign := if v.negative then "-" else ""
  if v.isNaN then "NaN"
  else if v.isFinite then
    let (digits, exponent) := shortestDecimal v
    sign ++ String.ofList (positional digits exponent)
  else sign ++ "inf"

end Binary64

end PauliLowering
