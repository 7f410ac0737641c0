import CardSort.Decimal.Numeral
import CardSort.Proofs.Text.Numeral

/-!
# Decimals read back

The text of a decimal has as many fraction digits as its scale, so it is read back with the same
scale and nothing is rounded.

* `Decimal.ofDigitChars_zeroFill` — zeros on the left leave the number as it is.
* `Decimal.magnitudeFrom_whole`, `Decimal.magnitudeFrom_fraction` — digits within the range are
  read one by one.
* `Decimal.ofConstant?_render` — **a decimal is read back from its text**, but for a zero with a
  minus sign.
-/

set_option autoImplicit false

namespace CardSort.Decimal

/-! ## Digits -/

theorem le_ofDigitChars (cs : List Char) (n : Nat) : n ≤ Nat.ofDigitChars 10 cs n := by
  induction cs generalizing n with
  | nil => exact Nat.le_refl n
  | cons c cs ih =>
    calc n ≤ 10 * n + (c.toNat - '0'.toNat) := by omega
      _ ≤ Nat.ofDigitChars 10 (c :: cs) n := ih _

theorem ofDigitChars_zeroFill (width : Nat) (digits : List Char) :
    Nat.ofDigitChars 10 (zeroFill width digits) 0 = Nat.ofDigitChars 10 digits 0 := by
  have hzeros : ∀ k, Nat.ofDigitChars 10 (List.replicate k '0') 0 = 0 := by
    intro k
    induction k with
    | zero => rfl
    | succ k ih => exact ih
  rw [zeroFill, Nat.ofDigitChars_append, hzeros]

theorem isDigit_of_mem_zeroFill {width n : Nat} {c : Char}
    (h : c ∈ zeroFill width (Nat.toDigits 10 n)) : c.isDigit = true := by
  rcases List.mem_append.1 h with h | h
  · rw [List.eq_of_mem_replicate h]
    decide
  · exact Numeral.isDigit_of_mem_toDigits h

theorem length_zeroFill (width : Nat) (digits : List Char) :
    (zeroFill width digits).length = max width digits.length := by
  simp only [zeroFill, List.length_append, List.length_replicate]
  omega

/-! ## Reading digits -/

theorem magnitudeFrom_whole {cs rest : List Char} {digit : Bool} {m scale : Nat}
    (hcs : ∀ c ∈ cs, c.isDigit = true) (hlimit : Nat.ofDigitChars 10 cs m < limit) :
    magnitudeFrom false digit m scale (cs ++ rest) =
      magnitudeFrom false (digit || ! cs.isEmpty) (Nat.ofDigitChars 10 cs m) scale rest := by
  induction cs generalizing digit m with
  | nil => simp [Nat.ofDigitChars]
  | cons c cs ih =>
    have hc := hcs c List.mem_cons_self
    have hvalue : Nat.ofDigitChars 10 (c :: cs) m =
        Nat.ofDigitChars 10 cs (m * 10 + (c.toNat - '0'.toNat)) := by
      rw [Nat.mul_comm]
      rfl
    rw [hvalue] at hlimit ⊢
    have hnext := Nat.lt_of_le_of_lt (le_ofDigitChars cs _) hlimit
    rw [List.cons_append, magnitudeFrom, if_neg (Numeral.ne_of_isDigit hc rfl),
      if_neg (Numeral.ne_of_isDigit hc rfl), Numeral.digit?_of_isDigit hc]
    simp only [Bool.false_eq_true, if_false, hnext, if_true]
    rw [ih (fun d hd => hcs d (List.mem_cons_of_mem _ hd)) hlimit]
    simp

theorem magnitudeFrom_fraction {cs : List Char} {m scale : Nat}
    (hcs : ∀ c ∈ cs, c.isDigit = true) (hlimit : Nat.ofDigitChars 10 cs m < limit)
    (hscale : scale + cs.length ≤ maxScale) :
    magnitudeFrom true true m scale cs =
      some (Nat.ofDigitChars 10 cs m, scale + cs.length) := by
  induction cs generalizing m scale with
  | nil => simp [magnitudeFrom, Nat.ofDigitChars]
  | cons c cs ih =>
    have hc := hcs c List.mem_cons_self
    have hvalue : Nat.ofDigitChars 10 (c :: cs) m =
        Nat.ofDigitChars 10 cs (m * 10 + (c.toNat - '0'.toNat)) := by
      rw [Nat.mul_comm]
      rfl
    rw [hvalue] at hlimit ⊢
    rw [List.length_cons] at hscale ⊢
    have hnext := Nat.lt_of_le_of_lt (le_ofDigitChars cs _) hlimit
    have hroom : scale < maxScale := by omega
    rw [magnitudeFrom, if_neg (Numeral.ne_of_isDigit hc rfl), if_neg (Numeral.ne_of_isDigit hc rfl),
      Numeral.digit?_of_isDigit hc]
    simp only [if_true, hroom, hnext, and_self]
    rw [ih (fun d hd => hcs d (List.mem_cons_of_mem _ hd)) hlimit (by omega), Nat.add_assoc,
      Nat.add_comm 1]

/-! ## The text of a decimal -/

/-- The text of a decimal without its sign. -/
def unsignedText (d : Decimal) : List Char :=
  let digits := zeroFill (d.scale + 1) d.magnitudeDigits
  digits.take (digits.length - d.scale) ++
    (if d.scale = 0 then [] else '.' :: digits.drop (digits.length - d.scale))

theorem render_eq (d : Decimal) :
    d.render = (if d.minus then ['-'] else []) ++ d.unsignedText := by
  rw [render, unsignedText, List.append_assoc]

theorem magnitudeFrom_unsignedText (d : Decimal) :
    magnitudeFrom false false 0 0 d.unsignedText = some (d.magnitude, d.scale) := by
  have hdigits : ∀ c ∈ zeroFill (d.scale + 1) d.magnitudeDigits, c.isDigit = true :=
    fun c hc => isDigit_of_mem_zeroFill hc
  have hvalue : Nat.ofDigitChars 10 (zeroFill (d.scale + 1) d.magnitudeDigits) 0 =
      d.magnitude := by
    rw [ofDigitChars_zeroFill, magnitudeDigits, Nat.ofDigitChars_ten_toDigits]
  have hlength := length_zeroFill (d.scale + 1) d.magnitudeDigits
  have hlimit : d.magnitude < limit := d.magnitude_lt
  have hscale : d.scale ≤ maxScale := d.scale_le
  unfold unsignedText
  generalize zeroFill (d.scale + 1) d.magnitudeDigits = digits at hdigits hvalue hlength ⊢
  simp only
  have hsplit := List.take_append_drop (digits.length - d.scale) digits
  generalize hw : digits.take (digits.length - d.scale) = whole at hsplit ⊢
  generalize hf : digits.drop (digits.length - d.scale) = fraction at hsplit ⊢
  have hwholeLength : whole.length = digits.length - d.scale := by
    rw [← hw, List.length_take]
    omega
  have hfractionLength : fraction.length = d.scale := by
    rw [← hf, List.length_drop]
    omega
  rw [← hsplit, Nat.ofDigitChars_append] at hvalue
  have hle := le_ofDigitChars fraction (Nat.ofDigitChars 10 whole 0)
  have hne : whole.isEmpty = false := by
    cases whole with
    | nil =>
      simp at hwholeLength
      omega
    | cons _ _ => rfl
  rw [magnitudeFrom_whole (fun c hc => hdigits c (hsplit ▸ List.mem_append_left _ hc)) (by omega)]
  simp only [hne, Bool.not_false, Bool.or_true]
  split
  · rename_i hzero
    obtain rfl : fraction = [] := List.eq_nil_of_length_eq_zero (hfractionLength.trans hzero)
    rw [magnitudeFrom, if_pos rfl, hzero, ← hvalue]
    rfl
  · rw [magnitudeFrom, if_neg (by decide), if_pos rfl]
    simp only [Bool.false_eq_true, if_false]
    rw [magnitudeFrom_fraction (fun c hc => hdigits c (hsplit ▸ List.mem_append_right _ hc))
      (by omega) (by omega), hvalue, hfractionLength, Nat.zero_add]

theorem exists_unsignedText_eq_cons (d : Decimal) :
    ∃ c cs, d.unsignedText = c :: cs ∧ c.isDigit = true := by
  have hlength := length_zeroFill (d.scale + 1) d.magnitudeDigits
  cases hdigits : zeroFill (d.scale + 1) d.magnitudeDigits with
  | nil =>
    rw [hdigits, List.length_nil] at hlength
    omega
  | cons c cs =>
    rw [hdigits] at hlength
    obtain ⟨k, hk⟩ : ∃ k, (c :: cs).length - d.scale = k + 1 :=
      ⟨(c :: cs).length - d.scale - 1, by omega⟩
    have hc : c.isDigit = true := isDigit_of_mem_zeroFill (hdigits ▸ List.mem_cons_self)
    have htext : d.unsignedText = c :: (cs.take k ++
        (if d.scale = 0 then [] else '.' :: (c :: cs).drop (k + 1))) := by
      simp only [unsignedText, hdigits, hk, List.take_succ_cons, List.cons_append]
    exact ⟨c, _, htext, hc⟩

theorem splitSign_of_isDigit {c : Char} {cs : List Char} (h : c.isDigit = true) :
    splitSign (c :: cs) = (false, c :: cs) := by
  unfold splitSign
  split
  · rename_i heq
    cases heq
    exact absurd h (by decide)
  · rename_i heq
    cases heq
    exact absurd h (by decide)
  · rfl

theorem plain?_render {d : Decimal} (h : d.minus = d.isNegative) : plain? d.render = some d := by
  have hsplit : splitSign d.render = (d.minus, d.unsignedText) := by
    rw [render_eq]
    cases d.minus with
    | true => rfl
    | false =>
      obtain ⟨c, cs, hcons, hc⟩ := d.exists_unsignedText_eq_cons
      rw [hcons]
      exact splitSign_of_isDigit hc
  rw [plain?, hsplit]
  simp only [magnitudeFrom_unsignedText, Option.bind_some]
  exact of?_eq_some_iff.2 ⟨rfl, rfl, h⟩

/-- **A decimal is read back from its text**, unless it is a zero with a minus sign. -/
theorem ofConstant?_render {d : Decimal} (h : d.minus = d.isNegative) :
    ofConstant? d.render = some d := by
  obtain ⟨c, cs, hcons, hc⟩ := d.exists_unsignedText_eq_cons
  have hfirst : ∃ c cs, d.render = c :: cs ∧ c ≠ '+' := by
    rw [render_eq, hcons]
    cases d.minus with
    | true => exact ⟨_, _, rfl, by decide⟩
    | false => exact ⟨c, cs, rfl, Numeral.ne_of_isDigit hc rfl⟩
  have hplus : Numeral.dropPlus d.render = d.render := by
    obtain ⟨c, cs, hrender, hc⟩ := hfirst
    rw [hrender]
    exact Numeral.dropPlus_of_ne hc
  rw [ofConstant?, hplus]
  split
  · rename_i hrender
    obtain ⟨c, cs, hrender', hc⟩ := hfirst
    simp_all
  · rw [ofNumeral?, plain?_render h]
    rfl

end CardSort.Decimal
