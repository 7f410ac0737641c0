import CardSort.Decimal
import CardSort.Fault.Cause
import CardSort.Text

/-!
# Edit masks

A mask renders the coefficient of a decimal digit by digit:

* `I` is a digit, blank until a significant digit has been shown;
* `T` is a digit that is always shown;
* an `S` in front is a floating sign, just left of the first character shown;
* an `S` at the end is a sign after the body;
* any other character stands for itself, and is blank until the first significant digit.

Digits are right-aligned; leading digits for which the mask has no position are dropped.

* `Mask.custom` compiles a pattern, `Mask.predefined?` gives one of `M0` to `M26`.
* `Mask.withSigns` replaces the sign texts.
* `Mask.apply` renders a decimal, and `Edit.apply` fits the text to a width.
-/

set_option autoImplicit false

namespace CardSort

/-! ## Signs -/

/-- The texts of a sign position. -/
structure SignPair where
  positive : List Char
  negative : List Char
deriving DecidableEq, Repr

namespace SignPair

/-- A blank, or a minus sign. -/
def standard : SignPair := ⟨[' '], ['-']⟩

/-- The text for a value. -/
def pick (s : SignPair) (negative : Bool) : List Char :=
  if negative then s.negative else s.positive

/-- The width that both texts are padded to. -/
def width (s : SignPair) : Nat := max s.positive.length s.negative.length

end SignPair

/-! ## Masks -/

/-- A mask: the body between the signs, and the signs that it has. -/
structure Mask where
  body : List Char
  leading : Option SignPair
  trailing : Option SignPair
deriving DecidableEq, Repr

/-- Blanks on the left of a text up to a width. -/
def padLeft (width : Nat) (cs : List Char) : List Char :=
  List.replicate (width - cs.length) ' ' ++ cs

/-- Blanks on the right of a text up to a width. -/
def padRight (width : Nat) (cs : List Char) : List Char :=
  cs ++ List.replicate (width - cs.length) ' '

namespace Mask

/-- The parts of a pattern: whether a sign leads, the body, and whether a sign trails. -/
def splitSigns (pattern : List Char) : Bool × List Char × Bool :=
  let (leads, rest) :=
    match pattern with
    | 'S' :: rest => (true, rest)
    | _ => (false, pattern)
  match Text.before? 'S' rest with
  | some body => (leads, body, true)
  | none => (leads, rest, false)

/-- The mask of a pattern, with the standard texts for its signs. -/
def custom (pattern : List Char) : Mask :=
  let (leads, body, trails) := splitSigns pattern
  { body
    leading := if leads then some .standard else none
    trailing := if trails then some .standard else none }

/-- A row of the table of predefined masks: a pattern with the texts of its leading and of its
trailing sign. -/
structure Predefined where
  pattern : String
  leading : Option (String × String) := none
  trailing : Option (String × String) := none
deriving Repr

/-- The predefined masks `M0` to `M26`, in order. -/
def predefinedTable : List Predefined := [
  { pattern := "IIIIIIIIIIIIIITS", trailing := some (" ", "-") },
  { pattern := "TTTTTTTTTTTTTTTS", trailing := some (" ", "-") },
  { pattern := "II,III,III,III,IIT.TTS", trailing := some (" ", "-") },
  { pattern := "II,III,III,III,IIT.TTS", trailing := some ("  ", "CR") },
  { pattern := "SII,III,III,III,IIT.TT", leading := some ("+", "-") },
  { pattern := "SII,III,III,III,IIT.TTS", leading := some (" ", "("), trailing := some (" ", ")") },
  { pattern := "III-TTT-TTTT" },
  { pattern := "TTT-TT-TTTT" },
  { pattern := "IT:TT:TT" },
  { pattern := "IT/TT/TT" },
  { pattern := "IIIIIIIIIIIIIIT" },
  { pattern := "TTTTTTTTTTTTTTT" },
  { pattern := "SI,III,III,III,III,IIT", leading := some (" ", "-") },
  { pattern := "SI.III.III.III.III.IIT", leading := some (" ", "-") },
  { pattern := "SI III III III III IITS", leading := some (" ", "("), trailing := some (" ", ")") },
  { pattern := "I III III III III IITS", trailing := some (" ", "-") },
  { pattern := "SI III III III III IIT", leading := some (" ", "-") },
  { pattern := "SI'III'III'III'III'IIT", leading := some (" ", "-") },
  { pattern := "SII,III,III,III,IIT.TT", leading := some (" ", "-") },
  { pattern := "SII.III.III.III.IIT,TT", leading := some (" ", "-") },
  { pattern := "SII III III III IIT,TTS", leading := some (" ", "("), trailing := some (" ", ")") },
  { pattern := "II III III III IIT,TTS", trailing := some (" ", "-") },
  { pattern := "SII III III III IIT,TT", leading := some (" ", "-") },
  { pattern := "SII'III'III'III'IIT.TT", leading := some (" ", "-") },
  { pattern := "SII'III'III'III'IIT,TT", leading := some (" ", "-") },
  { pattern := "SIIIIIIIIIIIIIIT", leading := some (" ", "-") },
  { pattern := "STTTTTTTTTTTTTTT", leading := some ("+", "-") }]

/-- The texts of a sign in the table. -/
def signPair (texts : String × String) : SignPair := ⟨texts.1.toList, texts.2.toList⟩

/-- The mask of a row of the table. -/
def Predefined.mask (p : Predefined) : Mask :=
  { body := (splitSigns p.pattern.toList).2.1
    leading := p.leading.map signPair
    trailing := p.trailing.map signPair }

/-- The predefined mask with the given name: `M` and a number. -/
def predefined? (name : String) : Option Mask := do
  let digits ← Text.after? "M" name
  let index ← Numeral.word64? digits
  let row ← predefinedTable[index]?
  pure row.mask

/-- The sign pair with a new positive text and, if one is given, a new negative text. -/
def replaceSigns (pair : Option SignPair) (positive : List Char) (negative : Option (List Char)) :
    SignPair :=
  ⟨positive, negative.getD (pair.getD .standard).negative⟩

/-- The mask with one or two new texts: of the leading sign if there is one, else of the
trailing sign. -/
def replaceOne (m : Mask) (positive : List Char) (negative : Option (List Char)) : Mask :=
  if m.leading.isSome then
    { m with leading := some (replaceSigns m.leading positive negative) }
  else { m with trailing := some (replaceSigns m.trailing positive negative) }

/-- The mask with new sign texts. One or two texts belong to the leading sign if there is one,
else to the trailing sign; four texts are those of both signs. -/
def withSigns (m : Mask) : List (List Char) → Except CardIssue Mask
  | [p] => .ok (m.replaceOne p none)
  | [p, n] => .ok (m.replaceOne p (some n))
  | [lp, ln, tp, tn] => .ok { m with leading := some ⟨lp, ln⟩, trailing := some ⟨tp, tn⟩ }
  | signs => .error (.signCount signs.length)

/-! ## Rendering -/

/-- Whether a character of the body is a digit position. -/
def isDigitPosition (c : Char) : Bool := c = 'I' || c = 'T'

/-- The number of digit positions. -/
def digitCount (m : Mask) : Nat := m.body.countP isDigitPosition

/-- The last `width` digits of a number, filled with zeros on the left. -/
def lastDigits (width : Nat) (digits : List Char) : List Char :=
  (Decimal.zeroFill width digits).drop (digits.length - width)

/-- Fills digits into a body. `shown` tells whether a significant digit has been shown; until
then every position is blank. -/
def fillBody (shown : Bool) : List Char → List Char → List Char
  | [], _ => []
  | c :: body, digits =>
    if isDigitPosition c then
      let digit := digits.headD '0'
      let shown := shown || c = 'T' || digit ≠ '0'
      (if shown then digit else ' ') :: fillBody shown body digits.tail
    else (if shown then c else ' ') :: fillBody shown body digits

/-- The body of the mask with the digits of a decimal. -/
def renderBody (m : Mask) (value : Decimal) : List Char :=
  fillBody false m.body (lastDigits m.digitCount value.magnitudeDigits)

/-- A decimal rendered by the mask. -/
def apply (m : Mask) (value : Decimal) : List Char :=
  let body := m.renderBody value
  let signed :=
    match m.leading with
    | some pair =>
      padLeft (body.length + pair.width) (pair.pick value.isNegative ++ Text.trimStart body)
    | none => body
  match m.trailing with
  | some pair => signed ++ padRight pair.width (pair.pick value.isNegative)
  | none => signed

end Mask

/-! ## Edits -/

/-- A mask with an optional width of the output. -/
structure Edit where
  mask : Mask
  length : Option Nat
deriving DecidableEq, Repr

/-- A decimal rendered by the mask and right-aligned in the width, if there is one. -/
def Edit.apply (e : Edit) (value : Decimal) : List Char :=
  let text := e.mask.apply value
  match e.length with
  | some length => padLeft length (text.drop (text.length - length))
  | none => text

end CardSort
