/-!
# Positional notation of a fixed width

Field codecs write a number as a fixed count of digits, most significant first: base ten for
zoned and packed decimals, base 256 for binary fields and length prefixes.

* `Positional.digits base width n` holds the lowest `width` digits of `n`.
* `Positional.fill base width n` fills places with digits and keeps what is left of the number;
  nothing is left exactly of the numbers below `base ^ width` (`Positional.fill_of_lt`,
  `Positional.fill_snd_ne_zero`).
* `Positional.value base ds` is the number that the digits `ds` spell.
* `Positional.value_digits` ties the two: the value of the digits is `n % base ^ width`.
-/

set_option autoImplicit false

namespace CardSort

-- powers of numbers and sums of lists are those of the core library, also where algebra that
-- brings its own is imported
attribute [scoped instance (high)] instPowNat Zero.ofOfNat0

namespace Positional

/-- The lowest `width` digits of `n`, most significant first. -/
def digits (base : Nat) : Nat → Nat → List Nat
  | 0, _ => []
  | width + 1, n => digits base width (n / base) ++ [n % base]

/-- Fills `width` places with the digits of a number, the last place first, and gives what is left
of the number when all places are filled. -/
def fill (base : Nat) : Nat → Nat → List Nat × Nat
  | 0, n => ([], n)
  | width + 1, n =>
    let (front, rest) := fill base width (n / base)
    (front ++ [n % base], rest)

/-- **Places are filled with the lowest digits**, and the higher ones are left over. -/
theorem fill_eq (base width n : Nat) :
    fill base width n = (digits base width n, n / base ^ width) := by
  induction width generalizing n with
  | zero => rw [fill, digits, Nat.pow_zero, Nat.div_one]
  | succ width ih =>
    rw [fill, ih, digits, Nat.div_div_eq_div_mul, Nat.pow_succ, Nat.mul_comm]

/-- Nothing is left over of a number that has no more digits than there are places. -/
theorem fill_of_lt {base width n : Nat} (h : n < base ^ width) :
    fill base width n = (digits base width n, 0) := by
  rw [fill_eq, Nat.div_eq_of_lt h]

/-- Something is left over of a number that has more digits than there are places. -/
theorem fill_snd_ne_zero {base width n : Nat} (hbase : 0 < base) (h : ¬ n < base ^ width) :
    (fill base width n).2 ≠ 0 := by
  have hpositive : 0 < n / base ^ width := Nat.div_pos (Nat.not_lt.1 h) (Nat.pow_pos hbase)
  rw [fill_eq]
  exact Nat.ne_of_gt hpositive

/-- The number spelt by digits that follow a number already read. -/
def valueFrom (base : Nat) : Nat → List Nat → Nat
  | acc, [] => acc
  | acc, d :: ds => valueFrom base (acc * base + d) ds

/-- The number spelt by digits, most significant first. -/
def value (base : Nat) (ds : List Nat) : Nat := valueFrom base 0 ds

theorem length_digits (base width n : Nat) : (digits base width n).length = width := by
  induction width generalizing n with
  | zero => rfl
  | succ width ih => simp [digits, ih]

theorem lt_of_mem_digits {base width n d : Nat} (hb : 0 < base) (h : d ∈ digits base width n) :
    d < base := by
  induction width generalizing n with
  | zero => simp [digits] at h
  | succ width ih =>
    simp only [digits, List.mem_append, List.mem_singleton] at h
    rcases h with h | rfl
    · exact ih h
    · exact Nat.mod_lt _ hb

theorem valueFrom_append (base acc : Nat) (xs ys : List Nat) :
    valueFrom base acc (xs ++ ys) = valueFrom base (valueFrom base acc xs) ys := by
  induction xs generalizing acc with
  | nil => rfl
  | cons x xs ih => simp [valueFrom, ih]

theorem valueFrom_digits (base acc width n : Nat) :
    valueFrom base acc (digits base width n) = acc * base ^ width + n % base ^ width := by
  induction width generalizing acc n with
  | zero => simp [digits, valueFrom, Nat.mod_one]
  | succ width ih =>
    have key : n % base ^ (width + 1) = base * (n / base % base ^ width) + n % base := by
      rw [Nat.pow_succ, Nat.mul_comm (base ^ width) base, Nat.mod_mul]
      omega
    rw [key]
    simp only [digits, valueFrom_append, ih, valueFrom, Nat.pow_succ]
    rw [Nat.add_mul, Nat.mul_assoc, Nat.mul_comm (n / base % base ^ width) base]
    omega

/-- **The digits of a number spell it**, up to the digits that do not fit. -/
theorem value_digits (base width n : Nat) :
    value base (digits base width n) = n % base ^ width := by
  simp [value, valueFrom_digits]

end Positional

end CardSort
