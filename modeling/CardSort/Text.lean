import CardSort.Occurrence
import CardSort.Positional

/-!
# Texts

What control decks, configuration files and numbers in records are cut into.

* `Text.isBlank` is the white space of Unicode (the property `White_Space`); `Text.trim`,
  `Text.trimStart` and `Text.trimEnd` drop it at the ends of a text, and `Text.firstWord` and
  `Text.cutAtBlank` find the first word.
* `Text.lines` splits a text at line feeds; a carriage return before the line feed is dropped.
* `Text.byteLength` counts the bytes of a text in UTF-8, the unit of every index into a card, and
  `Text.utf8` gives those bytes.
* `Text.after? head text` is the rest of a text that begins with `head`
  (`Text.after?_eq_some_iff`), `Text.before? last text` the text without a last character `last`;
  `Text.cutAt` splits a text at the first occurrence of a character.
* `Numeral.unsigned?` reads a number below a limit: ASCII digits after an optional plus sign.
  `Numeral.word64?` is that rule for positions, lengths and counts, which stay below `2 ^ 64`.
* `Numeral.hexBytes?` reads pairs of hexadecimal digits.
-/

set_option autoImplicit false

namespace CardSort

namespace Text

/-! ## Blanks -/

/-- White space in the sense of the Unicode property `White_Space` (25 characters). -/
def isBlank (c : Char) : Bool :=
  let n := c.toNat
  (0x09 ≤ n && n ≤ 0x0D) || n = 0x20 || n = 0x85 || n = 0xA0 || n = 0x1680 ||
    (0x2000 ≤ n && n ≤ 0x200A) || n = 0x2028 || n = 0x2029 || n = 0x202F || n = 0x205F ||
    n = 0x3000

/-- Every blank of core's smaller class is a blank. -/
theorem isBlank_of_isWhitespace {c : Char} (h : c.isWhitespace = true) : isBlank c = true := by
  simp only [Char.isWhitespace, Bool.or_eq_true, decide_eq_true_eq] at h
  rcases h with ((rfl | rfl) | rfl) | rfl <;> decide

/-- The text without its leading blanks. -/
def trimStart (cs : List Char) : List Char := cs.dropWhile isBlank

/-- The text without its trailing blanks. -/
def trimEnd (cs : List Char) : List Char := (cs.reverse.dropWhile isBlank).reverse

/-- The text without blanks at either end. -/
def trim (cs : List Char) : List Char := trimEnd (trimStart cs)

/-- The first run of characters that are not blank. -/
def firstWord (cs : List Char) : List Char := (trimStart cs).takeWhile (! isBlank ·)

/-- The parts before and after the first blank, if there is a blank. -/
def cutAtBlank (cs : List Char) : Option (List Char × List Char) :=
  match cs.dropWhile (! isBlank ·) with
  | [] => none
  | _ :: rest => some (cs.takeWhile (! isBlank ·), rest)

/-! ## Lines and bytes -/

/-- A line that ended in a line feed, without a carriage return at its end. -/
def dropReturn (line : List Char) : List Char :=
  match line.getLast? with
  | some '\r' => line.dropLast
  | _ => line

/-- Lines of a text, where `line` holds the characters of the current line in reverse. -/
def linesFrom (line : List Char) : List Char → List (List Char)
  | [] => if line.isEmpty then [] else [line.reverse]
  | c :: rest =>
    if c = '\n' then dropReturn line.reverse :: linesFrom [] rest
    else linesFrom (c :: line) rest

/-- The lines of a text; a line feed at the very end opens no further line. -/
def lines (cs : List Char) : List (List Char) := linesFrom [] cs

/-- The number of bytes of a text in UTF-8. -/
def byteLength (cs : List Char) : Nat := (cs.map Char.utf8Size).sum

@[simp] theorem byteLength_nil : byteLength [] = 0 := rfl

@[simp] theorem byteLength_cons (c : Char) (cs : List Char) :
    byteLength (c :: cs) = c.utf8Size + byteLength cs := by
  simp [byteLength]

@[simp] theorem byteLength_append (xs ys : List Char) :
    byteLength (xs ++ ys) = byteLength xs + byteLength ys := by
  simp [byteLength]

/-- The bytes of a text in UTF-8. -/
def utf8 (text : String) : List UInt8 := text.toUTF8.data.toList

/-! ## Beginnings and ends -/

/-- The rest of a text that begins with `head`. -/
def after? (head text : String) : Option String :=
  (Occurrence.after? head.toList text.toList).map String.ofList

/-- **What is left after a known head**: the text is the head followed by the rest. -/
theorem after?_eq_some_iff {head text rest : String} :
    after? head text = some rest ↔ text = head ++ rest := by
  simp only [after?, Option.map_eq_some_iff, Occurrence.after?_eq_some_iff]
  constructor
  · rintro ⟨cs, h, rfl⟩
    apply String.toList_inj.1
    simpa using h
  · rintro rfl
    exact ⟨rest.toList, by simp, by simp⟩

/-- Whether a text begins with `head`. -/
def beginsWith (head text : String) : Bool := (after? head text).isSome

/-- A text without its last character, if that is `last`. -/
def before? (last : Char) (cs : List Char) : Option (List Char) :=
  if cs.getLast? = some last then some cs.dropLast else none

/-- The parts before and after the first occurrence of `mark`. -/
def cutAt (mark : Char) (cs : List Char) : Option (List Char × List Char) :=
  Occurrence.splitAtFirst [mark] cs

end Text

/-! ## Unsigned numbers -/

namespace Numeral

/-- The value of an ASCII decimal digit. -/
def digit? (c : Char) : Option Nat :=
  if '0' ≤ c ∧ c ≤ '9' then some (c.toNat - '0'.toNat) else none

/-- The value of an ASCII hexadecimal digit of either case. -/
def hexDigit? (c : Char) : Option Nat :=
  if '0' ≤ c ∧ c ≤ '9' then some (c.toNat - '0'.toNat)
  else if 'a' ≤ c ∧ c ≤ 'f' then some (c.toNat - 'a'.toNat + 10)
  else if 'A' ≤ c ∧ c ≤ 'F' then some (c.toNat - 'A'.toNat + 10)
  else none

/-- The number spelt by digits that follow a number already read. -/
def digitsFrom (acc : Nat) : List Char → Option Nat
  | [] => some acc
  | c :: cs => (digit? c).bind fun d => digitsFrom (acc * 10 + d) cs

/-- The number spelt by one or more decimal digits. -/
def digits? : List Char → Option Nat
  | [] => none
  | c :: cs => digitsFrom 0 (c :: cs)

/-- The text without one leading plus sign. -/
def dropPlus : List Char → List Char
  | '+' :: cs => cs
  | cs => cs

/-- A number below `limit`, written in decimal digits after an optional plus sign. -/
def unsigned? (limit : Nat) (cs : List Char) : Option Nat :=
  (digits? (dropPlus cs)).filter (· < limit)

/-- The number of values of a 64-bit word. -/
def wordLimit : Nat := 2 ^ (64 : Nat)

/-- A position, length or count: an unsigned number below `2 ^ 64`. -/
def word64? (text : String) : Option Nat := unsigned? wordLimit text.toList

/-- A byte from two characters: two hexadecimal digits, or a plus sign and one digit. -/
def hexPair? (a b : Char) : Option UInt8 :=
  if a = '+' then (hexDigit? b).map UInt8.ofNat
  else
    match hexDigit? a, hexDigit? b with
    | some x, some y => some (UInt8.ofNat (16 * x + y))
    | _, _ => none

/-- The bytes spelt by pairs of characters; an odd character refuses the text. -/
def hexBytes? : List Char → Option (List UInt8)
  | [] => some []
  | a :: b :: rest =>
    match hexPair? a b, hexBytes? rest with
    | some x, some xs => some (x :: xs)
    | _, _ => none
  | [_] => none

end Numeral

end CardSort
