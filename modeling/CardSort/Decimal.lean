import CardSort.Positional

/-!
# Exact decimals

A decimal is a sign, a magnitude of at most 96 bits and a scale of at most 28. Its value is
`coefficient / 10 ^ scale`, where the coefficient is the magnitude under the sign. The scale is
kept as written, so `1.50` and `1.5` are different decimals that compare equal. So are `0.0` and
`-0.0`: a zero that was rounded down from a number with a minus sign keeps the sign.

* `Decimal.of?` is the decimal of a coefficient; it makes no zero with a minus sign
  (`Decimal.of?_eq_some_iff`).
* `Decimal.compare` orders by value.
* `Decimal.truncate` is the integer part, which numeric fields store.
* `Decimal.add?` is exact addition, refused when the sum does not fit.
* `Decimal.render` writes exactly `scale` fraction digits.
-/

set_option autoImplicit false

namespace CardSort

/-- A decimal number with a bounded magnitude and a scale. -/
structure Decimal where
  /-- Whether a minus sign stands in front. -/
  minus : Bool
  magnitude : Nat
  scale : Nat
  magnitude_lt : magnitude < 2 ^ (96 : Nat)
  scale_le : scale ≤ 28
deriving DecidableEq, Repr

namespace Decimal

/-- The first magnitude that is too great. -/
def limit : Nat := 2 ^ (96 : Nat)

/-- The largest scale. -/
def maxScale : Nat := 28

/-- The magnitude under the sign. -/
def coefficient (d : Decimal) : Int := if d.minus then -(d.magnitude : Int) else d.magnitude

/-- The decimal with the given sign, magnitude and scale, if both are in range. -/
def ofMagnitude? (minus : Bool) (magnitude scale : Nat) : Option Decimal :=
  if h : magnitude < 2 ^ (96 : Nat) ∧ scale ≤ 28 then some ⟨minus, magnitude, scale, h.1, h.2⟩
  else none

/-- The decimal with the given coefficient and scale, if both are in range. -/
def of? (coefficient : Int) (scale : Nat) : Option Decimal :=
  ofMagnitude? (coefficient < 0) coefficient.natAbs scale

/-- The integer as a decimal, if it has at most 96 bits. -/
def ofInt? (n : Int) : Option Decimal := of? n 0

/-- The integer part, toward zero. -/
def truncate (d : Decimal) : Int := d.coefficient.tdiv (10 ^ d.scale)

/-- Orders two decimals by value: both are brought to the sum of the scales. -/
def compare (a b : Decimal) : Ordering :=
  Ord.compare (a.coefficient * 10 ^ b.scale) (b.coefficient * 10 ^ a.scale)

/-- The exact sum at the larger scale, if it fits. -/
def add? (a b : Decimal) : Option Decimal :=
  let scale := max a.scale b.scale
  of? (a.coefficient * 10 ^ (scale - a.scale) + b.coefficient * 10 ^ (scale - b.scale)) scale

/-- Whether the value is below zero. -/
def isNegative (d : Decimal) : Bool := d.minus && d.magnitude ≠ 0

/-- The decimal digits of the magnitude. -/
def magnitudeDigits (d : Decimal) : List Char := Nat.toDigits 10 d.magnitude

/-- Fills with zeros on the left up to `width` digits. -/
def zeroFill (width : Nat) (digits : List Char) : List Char :=
  List.replicate (width - digits.length) '0' ++ digits

/-- The decimal as text: a minus sign if there is one, an integer part of at least one digit, and
a point with exactly `scale` digits when the scale is not zero. -/
def render (d : Decimal) : List Char :=
  let digits := zeroFill (d.scale + 1) d.magnitudeDigits
  let whole := digits.take (digits.length - d.scale)
  let fraction := digits.drop (digits.length - d.scale)
  let sign := if d.minus then ['-'] else []
  sign ++ whole ++ (if d.scale = 0 then [] else '.' :: fraction)

/-- The text of a decimal as a string. -/
def toText (d : Decimal) : String := String.ofList d.render

theorem isNegative_iff {d : Decimal} : d.isNegative = true ↔ d.coefficient < 0 := by
  unfold isNegative coefficient
  cases d.minus with
  | false =>
    simp only [Bool.false_and, Bool.false_eq_true, ite_false, false_iff]
    omega
  | true =>
    simp only [Bool.true_and, decide_eq_true_eq, ite_true]
    omega

theorem of?_eq_some_iff {coefficient : Int} {scale : Nat} {d : Decimal} :
    of? coefficient scale = some d ↔
      d.coefficient = coefficient ∧ d.scale = scale ∧ d.minus = d.isNegative := by
  obtain ⟨minus, magnitude, s, hm, hs⟩ := d
  simp only [of?, ofMagnitude?, Decimal.coefficient, isNegative]
  split
  · next h =>
    simp only [Option.some.injEq, mk.injEq]
    cases minus <;> simp <;> omega
  · next h =>
    simp only [reduceCtorEq, false_iff]
    cases minus <;> simp <;> omega

theorem truncate_of_scale_zero {d : Decimal} (h : d.scale = 0) : d.truncate = d.coefficient := by
  simp [truncate, h]

end Decimal

end CardSort
