import CardSort.Text
import CardSort.Toml.Value

/-!
# Strings, numbers and other scalars of TOML

Readers take characters and give what they read with the rest, or `none` if the text is not
well-formed.

* `Toml.string?` reads any of the four forms of strings, `Toml.quotedKey?` those of keys.
* `Toml.bareScalar?` reads what stands outside quotes: truth values, numbers, dates and times.
* `Toml.quoteText` writes a string between double quotes.
-/

set_option autoImplicit false

namespace CardSort.Toml

/-! ## Characters -/

/-- Blanks within a line. -/
def isBlank (c : Char) : Bool := c = ' ' || c = '\t'

/-- The text without its leading blanks. -/
def skipBlanks (cs : List Char) : List Char := cs.dropWhile isBlank

/-- Characters that may stand in comments and in strings on one line. -/
def isPrintable (c : Char) : Bool := c = '\t' || (c.toNat ≥ 0x20 && c.toNat ≠ 0x7F)

/-- The character with the given code, if it is a scalar value. -/
def charOf? (code : Nat) : Option Char :=
  if code.isValidChar then some (Char.ofNat code) else none

/-- The number spelt by hexadecimal digits. -/
def hexValue? (cs : List Char) : Option Nat :=
  cs.foldlM (fun acc c => (Numeral.hexDigit? c).map fun d => 16 * acc + d) 0

/-- The character of an escape sequence behind its backslash. -/
def escape? : List Char → Option (Char × List Char)
  | 'b' :: rest => some ('\x08', rest)
  | 't' :: rest => some ('\t', rest)
  | 'n' :: rest => some ('\n', rest)
  | 'f' :: rest => some ('\x0C', rest)
  | 'r' :: rest => some ('\r', rest)
  | '"' :: rest => some ('"', rest)
  | '\\' :: rest => some ('\\', rest)
  | 'u' :: rest => do
    let code ← hexValue? (rest.take 4)
    if (rest.take 4).length = 4 then pure (← charOf? code, rest.drop 4) else none
  | 'U' :: rest => do
    let code ← hexValue? (rest.take 8)
    if (rest.take 8).length = 8 then pure (← charOf? code, rest.drop 8) else none
  | _ => none

/-! ## Strings -/

/-- What has been read, with characters in front. -/
def prepend (front : List Char) (r : Option (List Char × List Char)) :
    Option (List Char × List Char) :=
  r.map fun (text, rest) => (front ++ text, rest)

/-- A string in double quotes, behind the opening quote. The fuel bounds its length. -/
def basicFrom : Nat → List Char → Option (List Char × List Char)
  | 0, _ => none
  | _, [] => none
  | fuel + 1, c :: rest =>
    if c = '"' then some ([], rest)
    else if c = '\\' then do
      let (e, rest) ← escape? rest
      prepend [e] (basicFrom fuel rest)
    else if isPrintable c then prepend [c] (basicFrom fuel rest)
    else none

/-- A string in single quotes, behind the opening quote. -/
def literalFrom : List Char → Option (List Char × List Char)
  | [] => none
  | c :: rest =>
    if c = '\x27' then some ([], rest)
    else if isPrintable c then prepend [c] (literalFrom rest)
    else none

/-- Up to two quotes that stand in front of the closing three belong to the string. -/
def closeMany (mark : Char) (cs : List Char) : List Char × List Char :=
  let extra := min 2 (cs.takeWhile (· = mark)).length
  (List.replicate extra mark, cs.drop extra)

/-- A text without the line break at its front, if there is one. -/
def dropBreak : List Char → List Char
  | '\n' :: rest => rest
  | '\r' :: '\n' :: rest => rest
  | cs => cs

/-- Whether a line break stands behind blanks. -/
def breaksLine (cs : List Char) : Bool :=
  match skipBlanks cs with
  | '\n' :: _ => true
  | '\r' :: '\n' :: _ => true
  | _ => false

/-- The rest behind blanks and line breaks; a carriage return counts only as part of a break. -/
def skipWhite : List Char → List Char
  | ' ' :: rest => skipWhite rest
  | '\t' :: rest => skipWhite rest
  | '\n' :: rest => skipWhite rest
  | '\r' :: '\n' :: rest => skipWhite rest
  | cs => cs

/-- A string between triple quotes, behind the opening quotes. Escapes count only in the form
with double quotes; there a backslash at the end of a line swallows the white space after it.
The fuel bounds its length. -/
def manyLinesFrom (mark : Char) (escapes : Bool) : Nat → List Char → Option (List Char × List Char)
  | 0, _ => none
  | fuel + 1, cs =>
    match cs with
    | [] => none
    | c :: rest =>
      if cs.take 3 = [mark, mark, mark] then some (closeMany mark (cs.drop 3))
      else if escapes && c = '\\' then
        if breaksLine rest then manyLinesFrom mark escapes fuel (skipWhite rest)
        else do
          let (e, rest) ← escape? rest
          prepend [e] (manyLinesFrom mark escapes fuel rest)
      else if c = '\r' then
        if rest.head? = some '\n' then prepend ['\n'] (manyLinesFrom mark escapes fuel rest.tail)
        else none
      else if isPrintable c || c = '\n' then prepend [c] (manyLinesFrom mark escapes fuel rest)
      else none

/-- A string of one line in either kind of quotes. -/
def quotedKey? : List Char → Option (String × List Char)
  | '"' :: rest => (basicFrom (rest.length + 1) rest).map fun (s, r) => (String.ofList s, r)
  | '\x27' :: rest => (literalFrom rest).map fun (s, r) => (String.ofList s, r)
  | _ => none

/-- A string in any of its four forms. -/
def string? (cs : List Char) : Option (String × List Char) :=
  match cs with
  | '"' :: '"' :: '"' :: rest =>
    (manyLinesFrom '"' true (rest.length + 1) (dropBreak rest)).map fun (s, r) =>
      (String.ofList s, r)
  | '\x27' :: '\x27' :: '\x27' :: rest =>
    (manyLinesFrom '\x27' false (rest.length + 1) (dropBreak rest)).map fun (s, r) =>
      (String.ofList s, r)
  | _ => quotedKey? cs

/-! ## Numbers -/

/-- Digits of a base with single underscores between them, as a number. `digit` tells whether a
digit stands directly before. -/
def groupedFrom (digit? : Char → Option Nat) (base acc : Nat) (digit : Bool) :
    List Char → Option Nat
  | [] => if digit then some acc else none
  | c :: cs =>
    if c = '_' then if digit && ! cs.isEmpty then groupedFrom digit? base acc false cs else none
    else (digit? c).bind fun d => groupedFrom digit? base (acc * base + d) true cs

/-- One or more digits of a base, with single underscores between them. -/
def grouped? (digit? : Char → Option Nat) (base : Nat) (cs : List Char) : Option Nat :=
  groupedFrom digit? base 0 false cs

/-- A digit of a base up to ten. -/
def digitBelow? (base : Nat) (c : Char) : Option Nat := (Numeral.digit? c).filter (· < base)

/-- Decimal digits without a leading zero. -/
def decimal? : List Char → Option Nat
  | ['0'] => some 0
  | '0' :: _ => none
  | cs => grouped? Numeral.digit? 10 cs

/-- A sign in front of a number (`true` for minus), and the number. -/
def splitSign : List Char → Bool × List Char
  | '+' :: cs => (false, cs)
  | '-' :: cs => (true, cs)
  | cs => (false, cs)

/-- An integer of 64 bits, in decimal with an optional sign or in base 16, 8 or 2. -/
def integer? (cs : List Char) : Option Int :=
  match cs with
  | '0' :: 'x' :: ds => (grouped? Numeral.hexDigit? 16 ds).bind fun n => bounded n
  | '0' :: 'o' :: ds => (grouped? (digitBelow? 8) 8 ds).bind fun n => bounded n
  | '0' :: 'b' :: ds => (grouped? (digitBelow? 2) 2 ds).bind fun n => bounded n
  | _ =>
    let (negative, ds) := splitSign cs
    (decimal? ds).bind fun n => bounded (if negative then -(n : Int) else n)
where
  /-- The integer, if it fits into 64 bits. -/
  bounded (n : Int) : Option Int :=
    if -2 ^ (63 : Nat) ≤ n ∧ n < 2 ^ (63 : Nat) then some n else none

/-- The exponent of a power of ten, with an optional sign. -/
def exponent? (cs : List Char) : Option Int :=
  let (negative, digits) := splitSign cs
  (grouped? Numeral.digit? 10 digits).map fun n => if negative then -(n : Int) else n

/-- A number without a sign that has a fraction, an exponent or both, as a natural number and the
exponent of the power of ten to multiply it by. -/
def scientific? (cs : List Char) : Option (Nat × Int) := do
  let isMark (c : Char) : Bool := c = 'e' || c = 'E'
  let mantissa := cs.takeWhile (! isMark ·)
  let power := cs.dropWhile (! isMark ·)
  let whole := mantissa.takeWhile (· ≠ '.')
  let fraction := mantissa.dropWhile (· ≠ '.')
  if fraction.isEmpty && power.isEmpty then none
  else
    let n ← decimal? whole
    let f ← if fraction.isEmpty then some 0 else grouped? Numeral.digit? 10 fraction.tail
    let e ← if power.isEmpty then some 0 else exponent? power.tail
    let places := fraction.countP Char.isDigit
    pure (n * 10 ^ places + f, e - places)

/-- Half-way between the greatest floating-point number of 64 bits and the next power of two: from
here on a number rounds to infinity. -/
def leastInfinite : Nat := (2 ^ (54 : Nat) - 1) * 2 ^ (970 : Nat)

/-- Whether `m · 10 ^ e` rounds to infinity. The two first tests keep the powers small: a positive
number times `10 ^ 309` is too great, and one below `2 ^ k` times `10 ^ -k` is less than one. -/
def overflows (m : Nat) : Int → Bool
  | .ofNat e => m ≠ 0 && (308 < e || leastInfinite ≤ m * 10 ^ e)
  | .negSucc e => e < m.log2 && leastInfinite * 10 ^ (e + 1) ≤ m

/-- Whether a text is a floating-point number: a special value, or a number that does not round to
positive infinity. -/
def isFloat (cs : List Char) : Bool :=
  let (negative, body) := splitSign cs
  body = "inf".toList || body = "nan".toList ||
    (scientific? body).any fun (m, e) => negative || ! overflows m e

/-! ## Dates and times -/

/-- A number of exactly `width` digits within bounds, with the rest. -/
def field? (width least greatest : Nat) (cs : List Char) : Option (Nat × List Char) := do
  let n ← Numeral.digits? (cs.take width)
  if (cs.take width).length = width ∧ least ≤ n ∧ n ≤ greatest then some (n, cs.drop width)
  else none

/-- The rest behind an expected character. -/
def mark? (c : Char) : List Char → Option (List Char)
  | d :: rest => if d = c then some rest else none
  | [] => none

/-- Whether February has 29 days in a year. -/
def isLeapYear (year : Nat) : Bool := year % 4 = 0 && (year % 100 ≠ 0 || year % 400 = 0)

/-- The number of days of a month. -/
def daysOf (year month : Nat) : Nat :=
  if month = 2 then if isLeapYear year then 29 else 28
  else if month = 4 || month = 6 || month = 9 || month = 11 then 30
  else 31

/-- The rest behind a date. -/
def date? (cs : List Char) : Option (List Char) := do
  let (year, cs) ← field? 4 0 9999 cs
  let (month, cs) ← field? 2 1 12 (← mark? '-' cs)
  let (_, cs) ← field? 2 1 (daysOf year month) (← mark? '-' cs)
  pure cs

/-- The rest behind an hour and a minute. -/
def minute? (cs : List Char) : Option (List Char) := do
  let (_, cs) ← field? 2 0 23 cs
  let (_, cs) ← field? 2 0 59 (← mark? ':' cs)
  pure cs

/-- The rest behind a time with an optional fraction of a second. -/
def time? (cs : List Char) : Option (List Char) := do
  let (_, cs) ← field? 2 0 60 (← mark? ':' (← minute? cs))
  match cs with
  | '.' :: rest =>
    if rest.head?.any Char.isDigit then some (rest.dropWhile Char.isDigit) else none
  | _ => some cs

/-- Whether a text is empty or an offset from universal time. -/
def isOffset (cs : List Char) : Bool :=
  match cs with
  | [] => true
  | ['Z'] => true
  | ['z'] => true
  | c :: rest => (c = '+' || c = '-') && minute? rest == some []

/-- Whether a text is a date, a time, or a date and a time. -/
def isMoment (cs : List Char) : Bool :=
  time? cs == some [] ||
    match date? cs with
    | some [] => true
    | some (c :: rest) =>
      (c = 'T' || c = 't' || c = ' ') && (time? rest).any isOffset
    | none => false

/-! ## Scalars outside quotes -/

/-- Characters of numbers, dates, times and truth values. -/
def isBare (c : Char) : Bool :=
  c.isAlphanum || c = '_' || c = '+' || c = '-' || c = '.' || c = ':'

/-- A truth value, a number, a date or a time that is written exactly so. -/
def scalarOf? (cs : List Char) : Option Value :=
  if cs = "true".toList then some (.boolean true)
  else if cs = "false".toList then some (.boolean false)
  else
    match integer? cs with
    | some n => some (.integer n)
    | none =>
      if isFloat cs then some .float else if isMoment cs then some .moment else none

/-- A truth value, a number, a date or a time. A date may be parted from its time by a space. -/
def bareScalar? (cs : List Char) : Option (Value × List Char) :=
  let first := cs.takeWhile isBare
  let rest := cs.dropWhile isBare
  match rest with
  | ' ' :: more =>
    let second := more.takeWhile isBare
    if date? first == some [] && isMoment (first ++ ' ' :: second) then
      some (.moment, more.dropWhile isBare)
    else (scalarOf? first).map fun v => (v, rest)
  | _ => (scalarOf? first).map fun v => (v, rest)

/-! ## Writing strings -/

/-- Four upper-case hexadecimal digits of a code. -/
def fourDigits (n : Nat) : List Char :=
  let digits := (Nat.toDigits 16 n).map Char.toUpper
  List.replicate (4 - digits.length) '0' ++ digits

/-- A character as it stands in a string between double quotes. -/
def quoteChar (c : Char) : List Char :=
  if c = '"' then ['\\', '"']
  else if c = '\\' then ['\\', '\\']
  else if c = '\n' then ['\\', 'n']
  else if c = '\r' then ['\\', 'r']
  else if c = '\t' then ['\\', 't']
  else if isPrintable c then [c]
  else '\\' :: 'u' :: fourDigits c.toNat

/-- A string between double quotes. -/
def quoteText (s : String) : String :=
  String.ofList ('"' :: (s.toList.flatMap quoteChar ++ ['"']))

end CardSort.Toml
