import CardSort.Proofs.Text.Numeral
import CardSort.Text

/-!
# Hexadecimal constants

A hexadecimal constant is read in pairs of characters. Two digits are their value, and of other
pairs only a plus sign in front of one digit is taken, as if a zero stood in its place. So a text
without plus signs is read exactly if it has an even number of characters, all of them digits.

* `Numeral.hexDigits`, `Numeral.hexValue`, `Numeral.pairValues` — the digits, what they are worth,
  and the bytes that pairs of them spell.
* `Numeral.plusAsZero` — the text with a zero for each plus sign that begins a pair.
* `Numeral.hexBytes?_plusAsZero` — a plus sign is read as a zero.
* `Numeral.hexBytes?_byteChars` — cutting a text into pairs of bytes in UTF-8 makes no difference.
* `Numeral.hexBytes?_exact` — **which texts are read, and as which bytes**.
-/

set_option autoImplicit false

namespace CardSort.Numeral

/-! ## Digits and pairs -/

/-- The hexadecimal digits of either case. -/
def hexDigits : List Char := "0123456789abcdefABCDEF".toList

/-- What a hexadecimal digit is worth: its place among the digits in lower case. -/
def hexValue (c : Char) : Nat := "0123456789abcdef".toList.idxOf c.toLower

/-- The text is pairs of hexadecimal digits and nothing else. -/
def IsHexText (cs : List Char) : Prop := cs.length % 2 = 0 ∧ ∀ c ∈ cs, c ∈ hexDigits

instance (cs : List Char) : Decidable (IsHexText cs) :=
  @instDecidableAnd _ _ (Nat.decEq _ _) (List.decidableBAll _ cs)

/-- The bytes that pairs of hexadecimal digits spell. -/
def pairValues : List Char → Bytes
  | a :: b :: rest => UInt8.ofNat (16 * hexValue a + hexValue b) :: pairValues rest
  | _ => []

/-- The text with a zero for each plus sign that begins a pair. -/
def plusAsZero : List Char → List Char
  | a :: b :: rest => (if a = '+' then '0' else a) :: b :: plusAsZero rest
  | cs => cs

/-- Bytes as text, two digits in lower case for each of them. -/
def hexText (bytes : Bytes) : List Char :=
  bytes.flatMap fun b => [(b.toNat / 16).digitChar, (b.toNat % 16).digitChar]

variable {a b c : Char} {n : Nat} {x : UInt8} {cs : List Char} {bytes : Bytes}

theorem ascii_of_hexDigit? (h : hexDigit? c = some n) : c.toNat < 128 := by
  refine Nat.lt_of_not_le fun hge => ?_
  have hnot (d e : Char) (he : e.toNat < 128) : ¬ (d ≤ c ∧ c ≤ e) := by
    rintro ⟨-, hle⟩
    have : c.toNat ≤ e.toNat := hle
    omega
  simp [hexDigit?, hnot _ '9' (by decide), hnot _ 'f' (by decide), hnot _ 'F' (by decide)] at h

/-- The digits are those of either case, each with its worth. -/
theorem hexDigit?_eq_some_iff : hexDigit? c = some n ↔ c ∈ hexDigits ∧ n = hexValue c := by
  -- a table for the characters of ASCII; beyond them there are no digits
  have htable : ∀ code < 128, hexDigit? (Char.ofNat code) =
      if Char.ofNat code ∈ hexDigits then some (hexValue (Char.ofNat code)) else none := by
    decide +kernel
  by_cases hc : c.toNat < 128
  · have hc := htable c.toNat hc
    rw [Char.ofNat_toNat] at hc
    rw [hc]
    split
    · rename_i hmem
      simp [hmem, eq_comm]
    · rename_i hmem
      simp [hmem]
  · have hdigits : hexDigits.all (·.toNat < 128) := by decide
    exact ⟨fun h => absurd (ascii_of_hexDigit? h) hc,
      fun h => absurd (of_decide_eq_true (List.all_eq_true.1 hdigits c h.1)) hc⟩

/-! ## Reading pairs -/

theorem hexPair?_eq_some_iff (hplus : a ≠ '+') : hexPair? a b = some x ↔
    (a ∈ hexDigits ∧ b ∈ hexDigits) ∧ x = UInt8.ofNat (16 * hexValue a + hexValue b) := by
  have hdigits : hexPair? a b = some x ↔
      ∃ m n, hexDigit? a = some m ∧ hexDigit? b = some n ∧ UInt8.ofNat (16 * m + n) = x := by
    rw [hexPair?, if_neg hplus]
    split <;> simp_all
  rw [hdigits]
  constructor
  · rintro ⟨m, n, ha, hb, rfl⟩
    obtain ⟨hmem, rfl⟩ := hexDigit?_eq_some_iff.1 ha
    obtain ⟨hmem', rfl⟩ := hexDigit?_eq_some_iff.1 hb
    exact ⟨⟨hmem, hmem'⟩, rfl⟩
  · rintro ⟨⟨ha, hb⟩, rfl⟩
    exact ⟨_, _, hexDigit?_eq_some_iff.2 ⟨ha, rfl⟩, hexDigit?_eq_some_iff.2 ⟨hb, rfl⟩, rfl⟩

theorem hexBytes?_cons_eq_some_iff : hexBytes? (a :: b :: cs) = some bytes ↔
    ∃ x xs, hexPair? a b = some x ∧ hexBytes? cs = some xs ∧ x :: xs = bytes := by
  rw [hexBytes?]
  split <;> simp_all

theorem isHexText_cons_cons :
    IsHexText (a :: b :: cs) ↔ (a ∈ hexDigits ∧ b ∈ hexDigits) ∧ IsHexText cs := by
  have hlength : (a :: b :: cs).length % 2 = cs.length % 2 := by
    simp only [List.length_cons]
    omega
  simp only [IsHexText, hlength, List.forall_mem_cons, and_assoc, and_left_comm]

/-- Pairs of digits are read as their values, and no other text without plus signs is read. -/
theorem hexBytes?_eq_some_iff (hplus : plusAsZero cs = cs) :
    hexBytes? cs = some bytes ↔ IsHexText cs ∧ bytes = pairValues cs := by
  fun_induction plusAsZero cs generalizing bytes with
  | case1 a b rest ih =>
    simp only [List.cons.injEq, true_and] at hplus
    obtain ⟨ha, hrest⟩ := hplus
    have ha : a ≠ '+' := by
      rintro rfl
      exact absurd ha (by decide)
    simp only [hexBytes?_cons_eq_some_iff, hexPair?_eq_some_iff ha, ih hrest, isHexText_cons_cons,
      pairValues]
    constructor
    · rintro ⟨_, _, ⟨hpair, rfl⟩, ⟨hrest, rfl⟩, rfl⟩
      exact ⟨⟨hpair, hrest⟩, rfl⟩
    · rintro ⟨⟨hpair, hrest⟩, rfl⟩
      exact ⟨_, _, ⟨hpair, rfl⟩, ⟨hrest, rfl⟩, rfl⟩
  | case2 cs hpairs =>
    match cs, hpairs with
    | [], _ => simp [hexBytes?, IsHexText, pairValues, eq_comm]
    | [_], _ => simp [hexBytes?, IsHexText]
    | a :: b :: rest, hpairs => exact absurd rfl (hpairs a b rest)

/-! ## Plus signs -/

theorem plusAsZero_of_not_mem (h : '+' ∉ cs) : plusAsZero cs = cs := by
  fun_induction plusAsZero cs with
  | case1 a b rest ih =>
    simp only [List.mem_cons, not_or] at h
    rw [if_neg (Ne.symm h.1), ih h.2.2]
  | case2 => rfl

theorem plusAsZero_plusAsZero (cs : List Char) : plusAsZero (plusAsZero cs) = plusAsZero cs := by
  fun_induction plusAsZero cs with
  | case1 a b rest ih =>
    rw [plusAsZero, ih]
    split <;> simp_all
  | case2 cs hpairs =>
    rw [plusAsZero]
    exact hpairs

/-- **A plus sign in front of a digit is read as a zero.** -/
theorem hexBytes?_plusAsZero (cs : List Char) : hexBytes? (plusAsZero cs) = hexBytes? cs := by
  fun_induction plusAsZero cs with
  | case1 a b rest ih =>
    have hpair : hexPair? (if a = '+' then '0' else a) b = hexPair? a b := by
      split
      · rename_i ha
        subst ha
        have hzero : hexDigit? '0' = some 0 := rfl
        rw [hexPair?, hexPair?, if_neg (by decide), if_pos rfl, hzero]
        cases hexDigit? b <;> simp
      · rfl
    rw [hexBytes?, hexBytes?, hpair, ih]
  | case2 => rfl

/-! ## Pairs of bytes -/

/-- The character of ASCII that a byte is; a byte of a longer character becomes no digit. -/
def byteChar (b : UInt8) : Char := Char.ofNat b.toNat

/-- The characters that the bytes of a text in UTF-8 are, one by one. -/
def byteChars (cs : List Char) : List Char := (cs.flatMap String.utf8EncodeChar).map byteChar

theorem byteChars_cons (c : Char) (cs : List Char) :
    byteChars (c :: cs) = (String.utf8EncodeChar c).map byteChar ++ byteChars cs := by
  simp [byteChars]

theorem toNat_byteChar (b : UInt8) : (byteChar b).toNat = b.toNat := by
  have hb := b.toNat_lt
  have hvalid : b.toNat.isValidChar := Or.inl (by omega)
  rw [byteChar, Char.ofNat, dif_pos hvalid]
  rfl

theorem byteChars_of_ascii (h : c.toNat < 128) : (String.utf8EncodeChar c).map byteChar = [c] := by
  have hbyte : (UInt8.ofNat c.toNat).toNat = c.toNat := by
    rw [UInt8.toNat_ofNat']
    omega
  have hencode : String.utf8EncodeChar c = [UInt8.ofNat c.toNat] := if_pos (Nat.le_of_lt_succ h)
  rw [hencode, List.map_singleton, byteChar, hbyte, Char.ofNat_toNat]

/-- The first byte of a character beyond ASCII is beyond ASCII too. -/
theorem exists_byteChars_of_not_ascii (h : ¬ c.toNat < 128) :
    ∃ first more, (String.utf8EncodeChar c).map byteChar = first :: more ∧ 128 ≤ first.toNat := by
  have hcode : ¬ c.val.toNat ≤ 127 := fun hle => h (Nat.lt_succ_of_le hle)
  have hfirst : ∃ b more, String.utf8EncodeChar c = b :: more ∧ 128 ≤ b.toNat := by
    simp only [String.utf8EncodeChar, if_neg hcode]
    split
    · exact ⟨_, _, rfl, by rw [UInt8.toNat_ofNat']; omega⟩
    split
    · exact ⟨_, _, rfl, by rw [UInt8.toNat_ofNat']; omega⟩
    · exact ⟨_, _, rfl, by rw [UInt8.toNat_ofNat']; omega⟩
  obtain ⟨b, more, hencode, hb⟩ := hfirst
  exact ⟨byteChar b, more.map byteChar, by rw [hencode, List.map_cons], by rwa [toNat_byteChar]⟩

theorem hexDigit?_eq_none (h : 128 ≤ c.toNat) : hexDigit? c = none := by
  cases hd : hexDigit? c with
  | none => rfl
  | some n => exact absurd (ascii_of_hexDigit? hd) (Nat.not_lt.2 h)

theorem hexBytes?_eq_none_of_first (h : 128 ≤ a.toNat) : hexBytes? (a :: cs) = none := by
  have hplus : a ≠ '+' := by
    rintro rfl
    exact absurd h (by decide)
  cases cs with
  | nil => rfl
  | cons b cs => rw [hexBytes?, hexPair?, if_neg hplus, hexDigit?_eq_none h]

theorem hexBytes?_eq_none_of_second (h : 128 ≤ b.toNat) : hexBytes? (a :: b :: cs) = none := by
  have hpair : hexPair? a b = none := by
    rw [hexPair?, hexDigit?_eq_none h]
    split
    · rfl
    · cases hexDigit? a <;> rfl
  rw [hexBytes?, hpair]

/-- **Cutting a text into pairs of bytes makes no difference**: a pair that holds a byte of a
character beyond ASCII spells nothing, and neither does a pair that holds the character. -/
theorem hexBytes?_byteChars : ∀ cs : List Char, hexBytes? (byteChars cs) = hexBytes? cs
  | [] => rfl
  | a :: cs => by
    rw [byteChars_cons]
    by_cases ha : a.toNat < 128
    · rw [byteChars_of_ascii ha, List.singleton_append]
      match cs with
      | [] => rfl
      | b :: rest =>
        rw [byteChars_cons]
        by_cases hb : b.toNat < 128
        · rw [byteChars_of_ascii hb, List.singleton_append, hexBytes?, hexBytes?,
            hexBytes?_byteChars rest]
        · obtain ⟨first, more, hfirst, hbeyond⟩ := exists_byteChars_of_not_ascii hb
          rw [hfirst, List.cons_append, hexBytes?_eq_none_of_second hbeyond,
            hexBytes?_eq_none_of_second (Nat.le_of_not_lt hb)]
    · obtain ⟨first, more, hfirst, hbeyond⟩ := exists_byteChars_of_not_ascii ha
      rw [hfirst, List.cons_append, hexBytes?_eq_none_of_first hbeyond,
        hexBytes?_eq_none_of_first (Nat.le_of_not_lt ha)]

/-! ## Texts that are read -/

theorem hexDigit?_toUpper_digitChar (h : n < 16) : hexDigit? n.digitChar.toUpper = some n := by
  revert n
  decide

/-- Bytes are spelt by their digits, in lower or in upper case. -/
theorem spellsHex_hexText (bytes : Bytes) :
    SpellsHex bytes (hexText bytes) ∧ SpellsHex bytes ((hexText bytes).map Char.toUpper) := by
  induction bytes with
  | nil => exact ⟨.nil, .nil⟩
  | cons b bytes ih =>
    have hhigh : b.toNat / 16 < 16 := Nat.div_lt_of_lt_mul b.toNat_lt
    have hlow : b.toNat % 16 < 16 := Nat.mod_lt _ (by decide)
    exact ⟨.cons (hexDigit?_digitChar hhigh) (hexDigit?_digitChar hlow) ih.1,
      .cons (hexDigit?_toUpper_digitChar hhigh) (hexDigit?_toUpper_digitChar hlow) ih.2⟩

theorem map_byteChar_utf8 (text : String) :
    (Text.utf8 text).map byteChar = byteChars text.toList := by
  have hbytes : text.toByteArray = (text.toList.flatMap String.utf8EncodeChar).toByteArray := by
    rw [← List.utf8Encode, ← String.toByteArray_ofList, String.ofList_toList]
  have hlist : text.toByteArray.data.toList = text.toList.flatMap String.utf8EncodeChar := by
    rw [hbytes, List.data_toByteArray]
  rw [byteChars, ← hlist]
  rfl

/-- **Which texts are read, and as which bytes.** A text is read if it is pairs of hexadecimal
digits and nothing else once a zero stands for each plus sign that begins a pair; then it is read as
the values of the pairs. So without plus signs it is read if it is pairs of digits. Reading the
pairs of its bytes in UTF-8 is the same, and bytes written as digits of one case are read back. -/
theorem hexBytes?_exact (text : String) :
    (∀ bytes, hexBytes? text.toList = some bytes ↔
      IsHexText (plusAsZero text.toList) ∧ bytes = pairValues (plusAsZero text.toList)) ∧
    ('+' ∉ text.toList → ∀ bytes, hexBytes? text.toList = some bytes ↔
      IsHexText text.toList ∧ bytes = pairValues text.toList) ∧
    hexBytes? ((Text.utf8 text).map byteChar) = hexBytes? text.toList ∧
    ∀ bytes, hexBytes? (hexText bytes) = some bytes ∧
      hexBytes? ((hexText bytes).map Char.toUpper) = some bytes := by
  refine ⟨fun bytes => ?_, fun hplus bytes => ?_, ?_, fun bytes => ?_⟩
  · rw [← hexBytes?_plusAsZero]
    exact hexBytes?_eq_some_iff (plusAsZero_plusAsZero _)
  · exact hexBytes?_eq_some_iff (plusAsZero_of_not_mem hplus)
  · rw [map_byteChar_utf8, hexBytes?_byteChars]
  · obtain ⟨hlower, hupper⟩ := spellsHex_hexText bytes
    exact ⟨hexBytes?_of_spellsHex hlower, hexBytes?_of_spellsHex hupper⟩

/-- Digits of both cases are read, as the bytes that they spell and no others. -/
theorem hexBytes?_exact_cases :
    '+' ∉ "00fFA0".toList ∧ hexBytes? "00fFA0".toList = some [0x00, 0xFF, 0xA0] ∧
      ∀ bytes, hexBytes? "00fFA0".toList = some bytes → bytes = [0x00, 0xFF, 0xA0] := by
  have hplus : '+' ∉ "00fFA0".toList := by decide
  have hread := (hexBytes?_exact "00fFA0").2.1 hplus
  have hvalues : pairValues "00fFA0".toList = [0x00, 0xFF, 0xA0] := by decide
  rw [hvalues] at hread
  exact ⟨hplus, (hread _).2 ⟨by decide, rfl⟩, fun bytes h => ((hread bytes).1 h).2⟩

/-- A plus sign and a digit are read as a byte, though they are no pair of digits. -/
theorem hexBytes?_plus_digit :
    hexBytes? "+5".toList = some [0x05] ∧ ¬ IsHexText "+5".toList := by
  decide

end CardSort.Numeral
