import ConceptLang.Json.Basic

/-!
# Numbers that are too large

A number that is not made of digits alone is measured in binary floating point
with 53 significant bits. Of its digits it keeps a leading part below 2^64, its
significand, and a power of ten for the others. Significand and power are
rounded to 53 bits each, and the number is too large if their product rounds to
2^1024 or more, or if the power of ten is above 308. Zero is never too large.
-/

namespace ConceptLang

/-- The nearest number with at most 53 significant bits; a number halfway
between two goes to the one with an even last bit. -/
def roundTo53 (n : Nat) : Nat :=
  if n < Nat.pow 2 53 then n
  else
    let unit := Nat.pow 2 (n.log2 - 52)
    let quotient := n / unit
    let remainder := n % unit
    if 2 * remainder < unit || (2 * remainder == unit && quotient % 2 == 0) then
      quotient * unit
    else (quotient + 1) * unit

/-- Appends digits to a number as long as it stays below 2^64. Gives the number
and how many digits are left. -/
def appendDigits : Nat → List Char → Nat × Nat
  | n, [] => (n, 0)
  | n, c :: cs =>
    let next := 10 * n + (c.toNat - '0'.toNat)
    if next < UInt64.size then appendDigits next cs else (n, cs.length + 1)

namespace Decimal

/-- The significand of a number and its power of ten. -/
def scale (d : Decimal) : Nat × Int :=
  let (whole, dropped) := appendDigits 0 d.whole
  let (significand, ignored) := appendDigits whole d.fraction
  let shift : Int := match d.exponent with
    | none => 0
    | some (true, digits) => -(natOfDigits 0 digits : Int)
    | some (false, digits) => natOfDigits 0 digits
  (significand, shift + dropped - (d.fraction.length - ignored : Nat))

/-- Whether a number is too large. -/
def isTooLarge (d : Decimal) : Bool :=
  let (significand, power) := d.scale
  significand != 0 && 0 ≤ power &&
    (308 < power ||
      Nat.pow 2 1024 - Nat.pow 2 970 ≤
        roundTo53 significand * roundTo53 (Nat.pow 10 power.toNat))

end Decimal

/-- The decimal that is made of the digits of a natural number. -/
def Decimal.ofNat (n : Nat) : Decimal :=
  ⟨false, Nat.toDigits 10 n, [], none⟩

end ConceptLang
