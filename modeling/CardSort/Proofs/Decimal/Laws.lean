import CardSort.Decimal

/-!
# The laws of decimals

What the theory of fields, keys, sums and conditions knows of decimals: which integers are
decimals, and how integer parts, sums and the order by value come out. It rests on these laws and
opens no definition of an operation; only the digits of a decimal are looked at elsewhere, where
they are read and shown.

* `Decimal.IsInteger` — a decimal that is an integer and has no fraction digits.
* `Decimal.ofInt?_eq_none_iff`, `Decimal.isInteger_of_ofInt?` — **the integers of at most 96 bits
  are decimals**, and no others.
* `Decimal.natAbs_truncate_lt`, `Decimal.IsInteger.truncate` — the integer part.
* `Decimal.IsInteger.add?_eq` — **integers are added exactly**, if the sum has at most 96 bits.
* `Decimal.IsInteger.compare_eq`, `Decimal.transCmp_compare` — **decimals are ordered by value**.
-/

set_option autoImplicit false

namespace CardSort.Decimal

variable {a b c d : Decimal} {m n : Int}

/-- The decimal is the integer, written without fraction digits. -/
structure IsInteger (d : Decimal) (n : Int) : Prop where
  coefficient : d.coefficient = n
  scale : d.scale = 0

theorem IsInteger.unique (hm : d.IsInteger m) (hn : d.IsInteger n) : m = n :=
  hm.coefficient.symm.trans hn.coefficient

/-! ## Integers -/

theorem isInteger_of_ofInt? (h : ofInt? n = some d) : d.IsInteger n := by
  obtain ⟨hcoefficient, hscale, _⟩ := of?_eq_some_iff.1 h
  exact ⟨hcoefficient, hscale⟩

theorem exists_ofInt? (h : n.natAbs < 2 ^ (96 : Nat)) : ∃ d, ofInt? n = some d := by
  have hfits : n.natAbs < 2 ^ (96 : Nat) ∧ 0 ≤ 28 := ⟨h, by omega⟩
  exact ⟨_, dif_pos hfits⟩

theorem natAbs_coefficient (d : Decimal) : d.coefficient.natAbs = d.magnitude := by
  unfold Decimal.coefficient
  split <;> omega

/-- An integer of more than 96 bits is no decimal, and every other one is. -/
theorem ofInt?_eq_none_iff : ofInt? n = none ↔ 2 ^ (96 : Nat) ≤ n.natAbs := by
  constructor
  · intro hnone
    refine Nat.not_lt.1 fun hsmall => ?_
    obtain ⟨d, hd⟩ := exists_ofInt? hsmall
    rw [hnone] at hd
    cases hd
  · intro hlarge
    rw [Option.eq_none_iff_forall_ne_some]
    intro d hd
    have hlt := d.magnitude_lt
    rw [← natAbs_coefficient, (isInteger_of_ofInt? hd).coefficient] at hlt
    exact absurd hlt (Nat.not_lt.2 hlarge)

/-- A natural number is the decimal without sign and fraction digits that has it as magnitude. -/
theorem ofInt?_natCast_eq_some_iff {n : Nat} :
    ofInt? (n : Int) = some d ↔ d.minus = false ∧ d.magnitude = n ∧ d.scale = 0 := by
  rw [ofInt?, of?_eq_some_iff]
  obtain ⟨minus, magnitude, scale, hmagnitude, hscale⟩ := d
  cases minus with
  | false =>
    have hvalue : (magnitude : Int) = n ↔ magnitude = n := Int.ofNat_inj
    simp [coefficient, isNegative, hvalue]
  | true =>
    simp only [coefficient, isNegative, if_true, Bool.true_and, reduceCtorEq, false_and, iff_false]
    rintro ⟨hvalue, -, hminus⟩
    have hnonzero : magnitude ≠ 0 := of_decide_eq_true hminus.symm
    omega

/-! ## Integer parts and sums -/

theorem IsInteger.truncate (h : d.IsInteger n) : d.truncate = n := by
  rw [truncate_of_scale_zero h.scale, h.coefficient]

/-- An integer part never has more than 96 bits. -/
theorem natAbs_truncate_lt (d : Decimal) : d.truncate.natAbs < 2 ^ (96 : Nat) := by
  unfold Decimal.truncate
  rw [Int.natAbs_tdiv, natAbs_coefficient]
  exact Nat.lt_of_le_of_lt (Nat.div_le_self _ _) d.magnitude_lt

/-- **Integers are added exactly.** -/
theorem IsInteger.add?_eq (ha : a.IsInteger m) (hb : b.IsInteger n) :
    a.add? b = ofInt? (m + n) := by
  simp [Decimal.add?, Decimal.ofInt?, ha.coefficient, ha.scale, hb.coefficient, hb.scale]

/-! ## Order -/

/-- Integers are ordered as integers. -/
theorem IsInteger.compare_eq (ha : a.IsInteger m) (hb : b.IsInteger n) :
    a.compare b = Ord.compare m n := by
  rw [Decimal.compare, ha.coefficient, ha.scale, hb.coefficient, hb.scale, Int.pow_zero,
    Int.mul_one, Int.mul_one]

/-- `a` is at most `b` and `b` at most `c` at their common scales: the middle scale cancels. -/
theorem compare_trans (hab : (a.compare b).isLE) (hbc : (b.compare c).isLE) :
    (a.compare c).isLE := by
  simp only [Decimal.compare, Int.isLE_compare] at hab hbc ⊢
  have hb : (0 : Int) < 10 ^ b.scale := Int.pow_pos (by decide)
  have ha : (0 : Int) ≤ 10 ^ a.scale := Int.le_of_lt (Int.pow_pos (by decide))
  have hc : (0 : Int) ≤ 10 ^ c.scale := Int.le_of_lt (Int.pow_pos (by decide))
  refine Int.le_of_mul_le_mul_right ?_ hb
  calc a.coefficient * 10 ^ c.scale * 10 ^ b.scale
      = a.coefficient * 10 ^ b.scale * 10 ^ c.scale := Int.mul_right_comm ..
    _ ≤ b.coefficient * 10 ^ a.scale * 10 ^ c.scale := Int.mul_le_mul_of_nonneg_right hab hc
    _ = b.coefficient * 10 ^ c.scale * 10 ^ a.scale := Int.mul_right_comm ..
    _ ≤ c.coefficient * 10 ^ b.scale * 10 ^ a.scale := Int.mul_le_mul_of_nonneg_right hbc ha
    _ = c.coefficient * 10 ^ a.scale * 10 ^ b.scale := Int.mul_right_comm ..

/-- **Decimals are ordered by value**, also if their scales differ. -/
theorem transCmp_compare : Std.TransCmp Decimal.compare where
  eq_swap := Std.OrientedOrd.eq_swap
  isLE_trans := compare_trans

end CardSort.Decimal
