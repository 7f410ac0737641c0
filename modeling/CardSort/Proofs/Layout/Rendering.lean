import CardSort.Layout.Mask
import CardSort.Proofs.Positional

/-!
# What a mask shows of a decimal

A mask shows the last digits of the coefficient, as many as it has positions for. Everything in
front of the first significant position is blank; behind it every position is shown. A leading sign
stands directly in front of it, wherever that is.

* `Positional.digits_succ` — the first digit of a numeral of fixed width.
* `Mask.digitAt` — the digit of a number at a position: those to its right have positions there.
* `Mask.Significant`, `Mask.ShownFrom` — the first position shown, and the body from there on.
* `Mask.fillBody_shows` — **filling in digits blanks out what is in front of the first significant
  position**, and shows the rest.
* `Mask.length_apply` — the width of the text depends on the mask only.
* `Mask.apply_shows` — **a decimal rendered by a mask**: blanks, the leading sign, the body from its
  first shown position on, the trailing sign.
-/

set_option autoImplicit false

namespace CardSort

/-! ## The last digits of a number -/

namespace Positional

/-- The first digit of a numeral stands in front of the others. -/
theorem digits_succ (base width n : Nat) :
    digits base (width + 1) n = n / base ^ width % base :: digits base width n := by
  induction width generalizing n with
  | zero => simp [digits]
  | succ width ih =>
    rw [digits, ih, Nat.div_div_eq_div_mul, ← Nat.pow_succ']
    rfl

/-- A numeral has no room for more digits than its own. -/
theorem digits_mod {base : Nat} (hbase : 0 < base) (width n : Nat) :
    digits base width (n % base ^ width) = digits base width n := by
  have hdigits : digits base (digits base width n).length (value base (digits base width n)) =
      digits base width n := digits_value fun _ hd => lt_of_mem_digits hbase hd
  rwa [length_digits, value_digits] at hdigits

end Positional

namespace Mask

theorem lastDigits_nil (width : Nat) : lastDigits width [] = List.replicate width '0' := by
  simp [lastDigits, Decimal.zeroFill]

theorem lastDigits_append_singleton (width : Nat) (digits : List Char) (d : Char) :
    lastDigits (width + 1) (digits ++ [d]) = lastDigits width digits ++ [d] := by
  unfold lastDigits Decimal.zeroFill
  simp only [List.length_append, List.length_singleton, Nat.add_sub_add_right]
  rw [← List.append_assoc, List.drop_append_of_le_length]
  simp only [List.length_append, List.length_replicate]
  omega

/-- A zero in front of other digits is like none. -/
theorem lastDigits_zero (width : Nat) : lastDigits width ['0'] = lastDigits width [] := by
  cases width with
  | zero => rfl
  | succ width =>
    rw [← List.nil_append ['0'], lastDigits_append_singleton, lastDigits_nil, lastDigits_nil,
      List.replicate_succ']

/-- The last digits of a number, by induction on how many they are. -/
theorem lastDigits_toDigits (width n : Nat) :
    lastDigits width (Nat.toDigits 10 n) = (Positional.digits 10 width n).map Nat.digitChar := by
  induction width generalizing n with
  | zero => simp [lastDigits, Decimal.zeroFill, Positional.digits]
  | succ width ih =>
    rw [Positional.digits, List.map_append, ← ih (n / 10)]
    rcases Nat.lt_or_ge n 10 with hn | hn
    · have hrest : Nat.toDigits 10 (n / 10) = ['0'] := by
        rw [Nat.div_eq_of_lt hn]
        rfl
      rw [hrest, lastDigits_zero, Nat.toDigits_of_lt_base hn, Nat.mod_eq_of_lt hn]
      exact lastDigits_append_singleton width [] n.digitChar
    · rw [Nat.toDigits_of_base_le (by decide) hn, lastDigits_append_singleton]
      rfl

/-! ## Positions -/

variable {number first : Nat} {body shown : List Char} {c : Char}

/-- The digit of a number at a position of a body: it has as many digits to its right as there are
digit positions. -/
def digitAt (number : Nat) (body : List Char) (i : Nat) : Nat :=
  number / 10 ^ (body.drop (i + 1)).countP isDigitPosition % 10

/-- Whether a position shows itself and all positions behind it: one whose digit is always shown,
or whose digit is not zero. -/
def Significant (number : Nat) (body : List Char) (i : Nat) : Prop :=
  body[i]? = some 'T' ∨ body[i]? = some 'I' ∧ digitAt number body i ≠ 0

instance (number : Nat) (body : List Char) (i : Nat) : Decidable (Significant number body i) := by
  unfold Significant
  infer_instance

/-- The body from the first significant position on, if there is one: every digit position shows its
digit, and every other character itself. -/
structure ShownFrom (number : Nat) (body : List Char) (first : Nat) (shown : List Char) : Prop where
  length : first + shown.length = body.length
  hidden : ∀ i < first, ¬ Significant number body i
  significant : first < body.length → Significant number body first
  digit : ∀ i c, first ≤ i → body[i]? = some c → isDigitPosition c = true →
    shown[i - first]? = some (digitAt number body i).digitChar
  literal : ∀ i c, first ≤ i → body[i]? = some c → isDigitPosition c = false →
    shown[i - first]? = some c

/-- The digits of a number for the digit positions of a body. -/
def digitsFor (number : Nat) (body : List Char) : List Char :=
  (Positional.digits 10 (body.countP isDigitPosition) number).map Nat.digitChar

theorem digitsFor_digit (hc : isDigitPosition c = true) :
    digitsFor number (c :: body) =
      (digitAt number (c :: body) 0).digitChar :: digitsFor number body := by
  unfold digitsFor
  rw [List.countP_cons_of_pos hc, Positional.digits_succ]
  rfl

theorem digitsFor_literal (hc : isDigitPosition c = false) :
    digitsFor number (c :: body) = digitsFor number body := by
  unfold digitsFor
  rw [List.countP_cons_of_neg (by simp [hc])]

theorem digitAt_lt (number : Nat) (body : List Char) (i : Nat) : digitAt number body i < 10 :=
  Nat.mod_lt _ (by decide)

theorem isBlank_digitChar {d : Nat} (h : d < 10) : Text.isBlank d.digitChar = false := by
  revert d
  decide

theorem significant_zero_iff :
    Significant number (c :: body) 0 ↔ c = 'T' ∨ c = 'I' ∧ digitAt number (c :: body) 0 ≠ 0 := by
  simp [Significant]

theorem isDigitPosition_iff : isDigitPosition c = true ↔ c = 'T' ∨ c = 'I' := by
  simp [isDigitPosition, or_comm]

theorem Significant.isDigitPosition {i : Nat} (h : Significant number body i)
    (hc : body[i]? = some c) : isDigitPosition c = true := by
  unfold Significant at h
  rw [hc, Option.some.injEq, Option.some.injEq] at h
  exact isDigitPosition_iff.2 (h.imp_right And.left)

/-! ## Filling in digits -/

theorem length_fillBody (any : Bool) (body digits : List Char) :
    (fillBody any body digits).length = body.length := by
  induction body generalizing any digits with
  | nil => rfl
  | cons c body ih =>
    rw [fillBody]
    split
    · simp [ih]
    · simp [ih]

/-- What a position shows, if it is shown. -/
def charAt (number : Nat) (body : List Char) (i : Nat) (c : Char) : Char :=
  if isDigitPosition c then (digitAt number body i).digitChar else c

/-- **One position of a body**: it is shown if any was shown before or if it is significant, and so
are those behind it then. -/
theorem fillBody_cons (any : Bool) (number : Nat) (c : Char) (body : List Char) :
    fillBody any (c :: body) (digitsFor number (c :: body)) =
      (if any || decide (Significant number (c :: body) 0) then charAt number (c :: body) 0 c
        else ' ') ::
      fillBody (any || decide (Significant number (c :: body) 0)) body (digitsFor number body) := by
  unfold charAt
  cases hc : isDigitPosition c with
  | true =>
    have hsignificant : decide (Significant number (c :: body) 0) =
        (decide (c = 'T') || decide ((digitAt number (c :: body) 0).digitChar ≠ '0')) := by
      rw [← Bool.decide_or, decide_eq_decide, significant_zero_iff]
      constructor
      · rintro (hT | ⟨-, hdigit⟩)
        · exact .inl hT
        · exact .inr (by simpa using hdigit)
      · rintro (hT | hdigit)
        · exact .inl hT
        · exact (isDigitPosition_iff.1 hc).imp_right fun hI => ⟨hI, by simpa using hdigit⟩
    rw [digitsFor_digit hc, fillBody, if_pos hc, hsignificant, ← Bool.or_assoc]
    rfl
  | false =>
    have hhidden : ¬ Significant number (c :: body) 0 := by
      intro h
      simp [h.isDigitPosition rfl] at hc
    rw [digitsFor_literal hc, fillBody]
    simp [hc, hhidden]

/-- Behind a significant position every position is shown. -/
theorem getElem?_fillBody_true (number : Nat) (body : List Char) (i : Nat) :
    (fillBody true body (digitsFor number body))[i]? = body[i]?.map (charAt number body i) := by
  induction body generalizing i with
  | nil => rfl
  | cons c body ih =>
    rw [fillBody_cons]
    cases i with
    | zero => rfl
    | succ i => exact ih i

namespace ShownFrom

theorem nil : ShownFrom number [] 0 [] where
  length := rfl
  hidden := by simp
  significant := by simp
  digit := by simp
  literal := by simp

/-- From a significant position on all of the body is shown. -/
theorem here (h : Significant number (c :: body) 0) :
    ShownFrom number (c :: body) 0 (fillBody true (c :: body) (digitsFor number (c :: body))) where
  length := by rw [length_fillBody, Nat.zero_add]
  hidden := by simp
  significant := fun _ => h
  digit := by
    intro i d _ hd hdigit
    rw [Nat.sub_zero, getElem?_fillBody_true, hd, Option.map_some, charAt, if_pos hdigit]
  literal := by
    intro i d _ hd hliteral
    rw [Nat.sub_zero, getElem?_fillBody_true, hd, Option.map_some, charAt,
      if_neg (by simp [hliteral])]

/-- A position that is not significant is left out. -/
theorem behind (hshown : ShownFrom number body first shown)
    (h : ¬ Significant number (c :: body) 0) : ShownFrom number (c :: body) (first + 1) shown where
  length := by
    have hlength := hshown.length
    rw [List.length_cons]
    omega
  hidden := by
    intro i hi
    cases i with
    | zero => exact h
    | succ i => exact hshown.hidden i (by omega)
  significant := fun hlt => hshown.significant (by simpa using hlt)
  digit := by
    intro i d hi hd hdigit
    obtain ⟨i, rfl⟩ := Nat.exists_eq_add_of_le' (show 1 ≤ i by omega)
    rw [Nat.add_sub_add_right]
    exact hshown.digit i d (by omega) hd hdigit
  literal := by
    intro i d hi hd hliteral
    obtain ⟨i, rfl⟩ := Nat.exists_eq_add_of_le' (show 1 ≤ i by omega)
    rw [Nat.add_sub_add_right]
    exact hshown.literal i d (by omega) hd hliteral

/-- What is shown begins with a digit, if there is anything. -/
theorem isBlank_head (hshown : ShownFrom number body first shown) (hd : c ∈ shown.head?) :
    Text.isBlank c = false := by
  have hlength := hshown.length
  have hpos : 0 < shown.length := by
    cases shown with
    | nil => cases hd
    | cons => simp
  obtain ⟨p, hp⟩ : ∃ p, body[first]? = some p := ⟨_, List.getElem?_eq_getElem (by omega)⟩
  have hdigit := hshown.digit first p (Nat.le_refl first) hp
    ((hshown.significant (by omega)).isDigitPosition hp)
  rw [Nat.sub_self, ← List.head?_eq_getElem?, hd] at hdigit
  rw [Option.some.inj hdigit]
  exact isBlank_digitChar (digitAt_lt _ _ _)

theorem trimStart (hshown : ShownFrom number body first shown) (blanks : Nat) :
    Text.trimStart (List.replicate blanks ' ' ++ shown) = shown := by
  have hblanks : (List.replicate blanks ' ').dropWhile Text.isBlank = [] := by
    rw [List.dropWhile_replicate]
    exact if_pos (by decide)
  unfold Text.trimStart
  rw [List.dropWhile_append, hblanks, List.isEmpty_nil, if_pos rfl]
  cases shown with
  | nil => rfl
  | cons c shown => exact List.dropWhile_cons_of_neg (by simp [hshown.isBlank_head rfl])

end ShownFrom

/-- **Filling in digits blanks out what is in front of the first significant position**, by
induction on the body. -/
theorem fillBody_shows (number : Nat) (body : List Char) :
    ∃ first shown, ShownFrom number body first shown ∧
      fillBody false body (digitsFor number body) = List.replicate first ' ' ++ shown := by
  induction body with
  | nil => exact ⟨0, [], .nil, rfl⟩
  | cons c body ih =>
    by_cases h : Significant number (c :: body) 0
    · refine ⟨0, _, .here h, ?_⟩
      rw [fillBody_cons, fillBody_cons, decide_eq_true h]
      rfl
    · obtain ⟨first, shown, hshown, hfill⟩ := ih
      refine ⟨first + 1, shown, hshown.behind h, ?_⟩
      rw [fillBody_cons, decide_eq_false h, Bool.or_false, hfill]
      rfl

end Mask

/-! ## Signs -/

theorem length_padLeft (width : Nat) (cs : List Char) :
    (padLeft width cs).length = max width cs.length := by
  rw [padLeft, List.length_append, List.length_replicate]
  omega

theorem length_padRight (width : Nat) (cs : List Char) :
    (padRight width cs).length = max width cs.length := by
  rw [padRight, List.length_append, List.length_replicate]
  omega

namespace SignPair

/-- The text for a decimal: the negative one for a value below zero. -/
def textFor (pair : SignPair) (value : Decimal) : List Char :=
  if value.coefficient < 0 then pair.negative else pair.positive

theorem pick_isNegative (pair : SignPair) (value : Decimal) :
    pair.pick value.isNegative = pair.textFor value := by
  unfold pick textFor
  simp [Decimal.isNegative_iff]

theorem length_textFor_le (pair : SignPair) (value : Decimal) :
    (pair.textFor value).length ≤ pair.width := by
  unfold textFor width
  split
  · exact Nat.le_max_right _ _
  · exact Nat.le_max_left _ _

end SignPair

namespace Mask

/-- The text of the leading sign, if there is one. -/
def leadingText (m : Mask) (value : Decimal) : List Char :=
  m.leading.elim [] (·.textFor value)

/-- The text of the trailing sign, if there is one, in the width of both of its texts. -/
def trailingText (m : Mask) (value : Decimal) : List Char :=
  m.trailing.elim [] fun pair => padRight pair.width (pair.textFor value)

/-- The room for the leading sign. -/
def leadingWidth (m : Mask) : Nat := m.leading.elim 0 SignPair.width

/-- The room for the trailing sign. -/
def trailingWidth (m : Mask) : Nat := m.trailing.elim 0 SignPair.width

theorem length_leadingText_le (m : Mask) (value : Decimal) :
    (m.leadingText value).length ≤ m.leadingWidth := by
  unfold leadingText leadingWidth
  cases m.leading with
  | none => exact Nat.le_refl 0
  | some pair => exact pair.length_textFor_le value

theorem length_trailingText (m : Mask) (value : Decimal) :
    (m.trailingText value).length = m.trailingWidth := by
  unfold trailingText trailingWidth
  cases m.trailing with
  | none => rfl
  | some pair =>
    have hlength : (padRight pair.width (pair.textFor value)).length = _ := length_padRight _ _
    rw [Nat.max_eq_left (pair.length_textFor_le value)] at hlength
    exact hlength

/-! ## Decimals -/

/-- The body is filled with the last digits of the coefficient. -/
theorem renderBody_eq (m : Mask) (value : Decimal) :
    m.renderBody value =
      fillBody false m.body (digitsFor (value.magnitude % 10 ^ m.digitCount) m.body) := by
  unfold renderBody digitsFor Decimal.magnitudeDigits
  rw [lastDigits_toDigits, ← Positional.digits_mod (by decide)]
  rfl

/-- The body with the leading sign in front of what is shown of it. -/
def signedBody (m : Mask) (value : Decimal) : List Char :=
  match m.leading with
  | some pair =>
    padLeft (m.body.length + pair.width)
      (pair.textFor value ++ Text.trimStart (m.renderBody value))
  | none => m.renderBody value

theorem apply_eq (m : Mask) (value : Decimal) :
    m.apply value = m.signedBody value ++ m.trailingText value := by
  have hlength : (m.renderBody value).length = m.body.length := length_fillBody _ _ _
  unfold apply signedBody trailingText
  simp only [SignPair.pick_isNegative, hlength]
  cases m.leading <;> cases m.trailing <;> simp

/-- The leading sign floats: it stands directly in front of the first position shown. -/
theorem signedBody_eq {m : Mask} {value : Decimal} {number first : Nat} {shown : List Char}
    (hshown : ShownFrom number m.body first shown)
    (hbody : m.renderBody value = List.replicate first ' ' ++ shown) :
    m.signedBody value =
      List.replicate (m.leadingWidth + first - (m.leadingText value).length) ' ' ++
        m.leadingText value ++ shown := by
  have hlength := hshown.length
  unfold signedBody leadingWidth leadingText
  rw [hbody, hshown.trimStart]
  cases m.leading with
  | none => simp
  | some pair =>
    have hroom : m.body.length + pair.width - (pair.textFor value ++ shown).length =
        pair.width + first - (pair.textFor value).length := by
      rw [List.length_append]
      omega
    simp only [padLeft, hroom, Option.elim_some, List.append_assoc]

theorem length_signedBody (m : Mask) (value : Decimal) :
    (m.signedBody value).length = m.body.length + m.leadingWidth := by
  have hleading := m.length_leadingText_le value
  obtain ⟨first, shown, hshown, hfill⟩ :=
    fillBody_shows (value.magnitude % 10 ^ m.digitCount) m.body
  have hlength := hshown.length
  rw [← renderBody_eq] at hfill
  rw [signedBody_eq hshown hfill, List.length_append, List.length_append, List.length_replicate]
  omega

/-- The width of what a mask renders: its body and the room for its signs. -/
def width (m : Mask) : Nat := m.body.length + m.leadingWidth + m.trailingWidth

/-- **All that a mask renders has one width**, whatever the decimal and its sign. -/
theorem length_apply (m : Mask) (value : Decimal) : (m.apply value).length = m.width := by
  rw [apply_eq, List.length_append, length_signedBody, length_trailingText, width]

/-- **A decimal rendered by a mask**: blanks, the leading sign, the body from its first shown
position on with the last digits of the coefficient, and the trailing sign padded on the right. -/
theorem apply_shows (m : Mask) (value : Decimal) :
    (m.apply value).length = m.body.length + m.leadingWidth + m.trailingWidth ∧
      (m.trailingText value).length = m.trailingWidth ∧
      ∃ blanks first shown,
        ShownFrom (value.magnitude % 10 ^ m.digitCount) m.body first shown ∧
          m.apply value = List.replicate blanks ' ' ++ m.leadingText value ++ shown ++
            m.trailingText value := by
  refine ⟨m.length_apply value, m.length_trailingText value, ?_⟩
  obtain ⟨first, shown, hshown, hfill⟩ :=
    fillBody_shows (value.magnitude % 10 ^ m.digitCount) m.body
  rw [← renderBody_eq] at hfill
  refine ⟨m.leadingWidth + first - (m.leadingText value).length, first, shown, hshown, ?_⟩
  rw [apply_eq, signedBody_eq hshown hfill]

-- both signs of a mask, and a comma in front of the first digit shown
example :
    (custom "SI,IIT.TTS".toList).apply ⟨true, 1234, 0, by decide, by decide⟩ =
      "   -12.34-".toList := by
  decide +kernel

end Mask

end CardSort
