import CardSort.Bytes
import CardSort.Text

/-!
# Numerals read back

* `Numeral.digitsFrom_eq` — digits spell the number that `Nat.ofDigitChars` gives them.
* `Numeral.word64?_repr` — **a number below `2 ^ 64` is read back from its decimal digits**.
* `Numeral.SpellsHex` — pairs of hexadecimal digits of either case; `hexBytes?_of_spellsHex`.
-/

set_option autoImplicit false

namespace CardSort.Numeral

/-! ## Decimal digits -/

theorem digit?_of_isDigit {c : Char} (h : c.isDigit = true) :
    digit? c = some (c.toNat - '0'.toNat) := by
  simp only [Char.isDigit, Bool.and_eq_true, decide_eq_true_eq] at h
  exact if_pos h

theorem digitsFrom_eq {cs : List Char} (h : ∀ c ∈ cs, c.isDigit = true) (acc : Nat) :
    digitsFrom acc cs = some (Nat.ofDigitChars 10 cs acc) := by
  induction cs generalizing acc with
  | nil => rfl
  | cons c cs ih =>
    rw [digitsFrom, digit?_of_isDigit (h c List.mem_cons_self), Option.bind_some,
      ih (fun d hd => h d (List.mem_cons_of_mem _ hd)), Nat.mul_comm]
    rfl

theorem isDigit_of_mem_toDigits {n : Nat} {c : Char} (h : c ∈ Nat.toDigits 10 n) :
    c.isDigit = true :=
  Nat.isDigit_of_mem_toDigits (by decide) (by decide) h

/-- What a digit is not: a reader of numerals looks for other marks first. -/
theorem ne_of_isDigit {c d : Char} (h : c.isDigit = true) (hd : d.isDigit = false) : c ≠ d := by
  rintro rfl
  rw [h] at hd
  cases hd

theorem digits?_toDigits (n : Nat) : digits? (Nat.toDigits 10 n) = some n := by
  have h : digitsFrom 0 (Nat.toDigits 10 n) = some n := by
    rw [digitsFrom_eq (fun _ hc => isDigit_of_mem_toDigits hc), Nat.ofDigitChars_ten_toDigits]
  unfold digits?
  split
  · rename_i hnil
    exact absurd hnil Nat.toDigits_ne_nil
  · rename_i c cs hcons
    rwa [hcons] at h

theorem dropPlus_of_ne {c : Char} {cs : List Char} (h : c ≠ '+') :
    dropPlus (c :: cs) = c :: cs := by
  unfold dropPlus
  split
  · simp_all
  · rfl

theorem exists_toDigits_eq_cons (n : Nat) :
    ∃ c cs, Nat.toDigits 10 n = c :: cs ∧ c.isDigit = true := by
  obtain ⟨c, cs, h⟩ := List.exists_cons_of_ne_nil (Nat.toDigits_ne_nil (n := n) (b := 10))
  exact ⟨c, cs, h, isDigit_of_mem_toDigits (h ▸ List.mem_cons_self)⟩

/-- **A number below `2 ^ 64` is read back from its digits.** -/
theorem word64?_repr {n : Nat} (h : n < wordLimit) : word64? n.repr = some n := by
  obtain ⟨c, cs, hcons, hc⟩ := exists_toDigits_eq_cons n
  have hplus : dropPlus (Nat.toDigits 10 n) = Nat.toDigits 10 n := by
    rw [hcons]
    exact dropPlus_of_ne (ne_of_isDigit hc rfl)
  rw [word64?, unsigned?, Nat.toList_repr, hplus, digits?_toDigits]
  simp [h]

/-! ## Hexadecimal digits -/

/-- The text spells the bytes by pairs of hexadecimal digits, each of either case. -/
inductive SpellsHex : Bytes → List Char → Prop where
  | nil : SpellsHex [] []
  | cons {b : UInt8} {bytes : Bytes} {high low : Char} {cs : List Char}
      (hhigh : hexDigit? high = some (b.toNat / 16)) (hlow : hexDigit? low = some (b.toNat % 16))
      (hrest : SpellsHex bytes cs) : SpellsHex (b :: bytes) (high :: low :: cs)

theorem hexDigit?_digitChar {n : Nat} (h : n < 16) : hexDigit? n.digitChar = some n := by
  revert n
  decide

theorem exists_spellsHex (bytes : Bytes) : ∃ cs, SpellsHex bytes cs := by
  induction bytes with
  | nil => exact ⟨[], .nil⟩
  | cons b bytes ih =>
    obtain ⟨cs, hcs⟩ := ih
    have hb := b.toNat_lt
    exact ⟨_, .cons (hexDigit?_digitChar (by omega)) (hexDigit?_digitChar (by omega)) hcs⟩

theorem hexBytes?_of_spellsHex {bytes : Bytes} {cs : List Char} (h : SpellsHex bytes cs) :
    hexBytes? cs = some bytes := by
  induction h with
  | nil => rfl
  | @cons b bytes high low cs hhigh hlow _ ih =>
    have hplus : high ≠ '+' := by
      rintro rfl
      exact absurd hhigh (by simp [hexDigit?])
    have hvalue : 16 * (b.toNat / 16) + b.toNat % 16 = b.toNat := Nat.div_add_mod ..
    simp [hexBytes?, hexPair?, hplus, hhigh, hlow, ih, hvalue]

end CardSort.Numeral
