import CardSort.Decimal
import CardSort.Text

/-!
# Decimal numerals

Reading a decimal from text. Underscores between and after digits are ignored, fraction digits
that do not fit are rounded away, and an exponent may follow.

* `Decimal.plain?` reads an optional sign, digits and at most one point.
* `Decimal.scientific?` reads a plain numeral and an exponent.
* `Decimal.ofNumeral?` tries the one, then the other.
* `Decimal.ofConstant?` is the rule for constants on cards: a plus sign may stand in front, but
  not two.
-/

set_option autoImplicit false

namespace CardSort.Decimal

/-! ## Digits, point and rounding -/

/-- Rounds a magnitude on the first fraction digit left out: from 5 on it goes up. A magnitude
that leaves the range by this gives up its last digit, and without a fraction it is refused. -/
def roundOn (magnitude scale digit : Nat) : Option (Nat × Nat) :=
  if digit < 5 then some (magnitude, scale)
  else if magnitude + 1 < limit then some (magnitude + 1, scale)
  else if scale = 0 then none
  else some ((magnitude + 1 + 4) / 10, scale - 1)

/-- Whether a character may follow the digit on which a numeral was rounded. -/
def isSpareDigit (c : Char) : Bool := (Numeral.digit? c).isSome || c = '_'

/-- Whether the digits before the last one make less than a tenth of `2 ^ 64`, less 255. -/
def isNarrow (magnitude : Nat) : Bool := magnitude / 10 < 2 ^ (64 : Nat) / 10 - 255

/-- Reads the rest of an unsigned numeral into a magnitude and a scale. `point` tells whether the
point has been read, `digit` whether a digit has. An underscore behind the last digit that fits
into the scale of a narrow magnitude counts as a digit of zero, so nothing is rounded up. -/
def magnitudeFrom (point digit : Bool) (magnitude scale : Nat) :
    List Char → Option (Nat × Nat)
  | [] => if digit then some (magnitude, scale) else none
  | c :: rest =>
    if c = '_' then
      if ! digit then none
      else if scale = maxScale && isNarrow magnitude then
        if rest.all isSpareDigit then roundOn magnitude scale 0 else none
      else magnitudeFrom point digit magnitude scale rest
    else if c = '.' then
      if point then none else magnitudeFrom true digit magnitude scale rest
    else
      match Numeral.digit? c with
      | none => none
      | some d =>
        let next := magnitude * 10 + d
        if point then
          if scale < maxScale ∧ next < limit then magnitudeFrom true true next (scale + 1) rest
          else if rest.all isSpareDigit then roundOn magnitude scale d
          else none
        else if next < limit then magnitudeFrom false true next scale rest
        else none

/-- The sign in front of a numeral (`true` for minus) and the text after it. -/
def splitSign : List Char → Bool × List Char
  | '-' :: cs => (true, cs)
  | '+' :: cs => (false, cs)
  | cs => (false, cs)

/-- A numeral without exponent: an optional sign, digits and at most one point. The sign of a zero
counts for nothing. -/
def plain? (cs : List Char) : Option Decimal :=
  let (minus, rest) := splitSign cs
  (magnitudeFrom false false 0 0 rest).bind fun (magnitude, scale) =>
    of? (if minus then -(magnitude : Int) else magnitude) scale

/-! ## Exponents -/

/-- Whether a character opens an exponent. -/
def isExponentMark (c : Char) : Bool := c = 'e' || c = 'E'

/-- Drops the last `count` digits of a magnitude, rounding half up on the first one dropped. -/
def dropDigits (magnitude count : Nat) : Nat :=
  if count = 0 then magnitude
  else magnitude / 10 ^ count + if 5 ≤ magnitude / 10 ^ (count - 1) % 10 then 1 else 0

/-- The decimal times `10 ^ -n`. Digits beyond the largest scale are rounded away; the sign stays,
even if nothing but zeros is left. -/
def shiftDown? (d : Decimal) (n : Nat) : Option Decimal :=
  if n > maxScale then none
  else if d.scale + n ≤ maxScale then ofMagnitude? d.minus d.magnitude (d.scale + n)
  else
    ofMagnitude? d.minus (dropDigits d.magnitude (d.scale + n - maxScale)) maxScale

/-- The decimal times `10 ^ n`, refused when it does not fit. -/
def shiftUp? (d : Decimal) (n : Nat) : Option Decimal :=
  if n ≤ d.scale then ofMagnitude? d.minus d.magnitude (d.scale - n)
  else if n > maxScale then none
  else of? (d.coefficient * 10 ^ (n - d.scale)) 0

/-- A plain numeral, a mark and an exponent below `2 ^ 32` with an optional sign. -/
def scientific? (cs : List Char) : Option Decimal :=
  match cs.dropWhile (! isExponentMark ·) with
  | [] => none
  | _ :: exponent =>
    (plain? (cs.takeWhile (! isExponentMark ·))).bind fun base =>
      match exponent with
      | '-' :: n => (Numeral.unsigned? (2 ^ (32 : Nat)) n).bind base.shiftDown?
      | n => (Numeral.unsigned? (2 ^ (32 : Nat)) n).bind base.shiftUp?

/-! ## Numerals in records and on cards -/

/-- A numeral, plain or with an exponent. -/
def ofNumeral? (cs : List Char) : Option Decimal := (plain? cs).or (scientific? cs)

/-- The number that blank-padded text in a record spells, after one optional plus sign. -/
def ofPaddedText? (cs : List Char) : Option Decimal :=
  ofNumeral? (Numeral.dropPlus (Text.trim cs))

/-- A constant such as `100`, `-5` or `+2.5` on a card. -/
def ofConstant? (cs : List Char) : Option Decimal :=
  match Numeral.dropPlus cs with
  | '+' :: _ => none
  | rest => ofNumeral? rest

end CardSort.Decimal
