import CardSort.Proofs.Filter.Comparison
import Mathlib.Data.List.DropRight

/-!
# Text in conditions is ordered as padded text

Operands of a condition are padded to one length before they are compared, and how far depends on
the pair of them. Still it is one order: for any operands that are looked at together there is a
length to which all of them can be padded, and there the bytes are ordered lexicographically.

* `paddedCompare_eq_find?` — the first position at which the operands differ decides, up to the end
  of the longer one.
* `paddedCompare_eq_compareLex` — **any common length will do**: the comparison is the lexicographic
  one of the operands padded to it.
* `transCmp_paddedCompare` — so it is a total preorder.
* `paddedCompare_append_left` — more padding changes nothing.
* `paddedCompare_eq_eq_iff` — the operands tie exactly if they are the same without their padding.
* `paddedCompare_laws` — **the laws of padded comparison together**.
-/

set_option autoImplicit false

namespace CardSort

open Std (TransCmp OrientedCmp ReflCmp LawfulEqCmp)

variable {pad : UInt8} {a b c : Bytes} {n : Nat}

/-! ## Position by position -/

theorem find?_ne_eq_cons (o : Ordering) (os : List Ordering) :
    ((o :: os).find? (· ≠ .eq)).getD .eq = o.then ((os.find? (· ≠ .eq)).getD .eq) := by
  cases o <;> rfl

/-- The outcomes at the positions of a range, the first of them apart. -/
theorem find?_range_succ (n : Nat) (outcome : Nat → Ordering) :
    (((List.range (n + 1)).map outcome).find? (· ≠ .eq)).getD .eq =
      (outcome 0).then
        ((((List.range n).map fun i => outcome (i + 1)).find? (· ≠ .eq)).getD .eq) := by
  rw [List.range_succ_eq_map, List.map_cons, List.map_map, find?_ne_eq_cons]
  rfl

/-- **The first position at which the operands differ decides**, where an operand that has ended
goes on with padding. -/
theorem paddedCompare_eq_find? (pad : UInt8) (a b : Bytes) :
    paddedCompare pad a b =
      (((List.range (max a.length b.length)).map fun i =>
        compare (a.getD i pad).toNat (b.getD i pad).toNat).find? (· ≠ .eq)).getD .eq := by
  fun_induction paddedCompare pad a b with
  | case1 => rfl
  | case2 x xs ih =>
    rw [List.length_cons, List.length_nil, Nat.max_zero, find?_range_succ, ih, List.length_nil,
      Nat.max_zero]
    rfl
  | case3 y ys ih =>
    rw [List.length_cons, List.length_nil, Nat.zero_max, find?_range_succ, ih, List.length_nil,
      Nat.zero_max]
    rfl
  | case4 x xs y ys ih =>
    rw [List.length_cons, List.length_cons, Nat.add_max_add_right, find?_range_succ, ih]
    rfl

/-! ## Padding to one length -/

theorem rightpad_succ_nil (n : Nat) (pad : UInt8) :
    List.rightpad (n + 1) pad ([] : Bytes) = pad :: List.rightpad n pad [] := by
  simp [List.rightpad, List.replicate_succ]

theorem rightpad_succ_cons (n : Nat) (pad x : UInt8) (xs : Bytes) :
    List.rightpad (n + 1) pad (x :: xs) = x :: List.rightpad n pad xs := by
  simp [List.rightpad]

/-- Padding that stands already is made up for by less of it. -/
theorem rightpad_append_replicate {k : Nat} (h : a.length + k ≤ n) :
    List.rightpad n pad (a ++ List.replicate k pad) = List.rightpad n pad a := by
  have hcount : k + (n - (a.length + k)) = n - a.length := by omega
  rw [List.rightpad, List.rightpad, List.length_append, List.length_replicate, List.append_assoc,
    List.replicate_append_replicate, hcount]

/-- **Any common length will do.** The comparison is the lexicographic one of the operands padded to
a length that neither of them exceeds. -/
theorem paddedCompare_eq_compareLex (ha : a.length ≤ n) (hb : b.length ≤ n) :
    paddedCompare pad a b =
      List.compareLex compare (List.rightpad n pad a) (List.rightpad n pad b) := by
  fun_induction paddedCompare pad a b generalizing n with
  | case1 => exact ReflCmp.compare_self.symm
  | case2 x xs ih =>
    obtain ⟨m, rfl⟩ := Nat.exists_eq_succ_of_ne_zero (Nat.ne_zero_of_lt ha)
    rw [rightpad_succ_cons, rightpad_succ_nil, List.compareLex_cons_cons,
      ih (Nat.le_of_succ_le_succ ha) (Nat.zero_le m), UInt8.compare_eq_toNat_compare_toNat]
  | case3 y ys ih =>
    obtain ⟨m, rfl⟩ := Nat.exists_eq_succ_of_ne_zero (Nat.ne_zero_of_lt hb)
    rw [rightpad_succ_nil, rightpad_succ_cons, List.compareLex_cons_cons,
      ih (Nat.zero_le m) (Nat.le_of_succ_le_succ hb), UInt8.compare_eq_toNat_compare_toNat]
  | case4 x xs y ys ih =>
    obtain ⟨m, rfl⟩ := Nat.exists_eq_succ_of_ne_zero (Nat.ne_zero_of_lt ha)
    rw [rightpad_succ_cons, rightpad_succ_cons, List.compareLex_cons_cons,
      ih (Nat.le_of_succ_le_succ ha) (Nat.le_of_succ_le_succ hb),
      UInt8.compare_eq_toNat_compare_toNat]

/-! ## The laws -/

/-- Padded comparison is a total preorder: any three operands can be padded to one length. -/
theorem transCmp_paddedCompare (pad : UInt8) : TransCmp (paddedCompare pad) where
  eq_swap := paddedCompare_swap pad _ _
  isLE_trans {a b c} hab hbc := by
    have ha : a.length ≤ max a.length (max b.length c.length) := Nat.le_max_left _ _
    have hb : b.length ≤ max a.length (max b.length c.length) := by omega
    have hc : c.length ≤ max a.length (max b.length c.length) := by omega
    rw [paddedCompare_eq_compareLex ha hb] at hab
    rw [paddedCompare_eq_compareLex hb hc] at hbc
    rw [paddedCompare_eq_compareLex ha hc]
    exact TransCmp.isLE_trans hab hbc

/-- More padding changes nothing. -/
theorem paddedCompare_append_left (pad : UInt8) (a b : Bytes) (k : Nat) :
    paddedCompare pad (a ++ List.replicate k pad) b = paddedCompare pad a b := by
  have hpadded : (a ++ List.replicate k pad).length ≤ max (a.length + k) b.length := by
    rw [List.length_append, List.length_replicate]
    exact Nat.le_max_left _ _
  have ha : a.length ≤ max (a.length + k) b.length := by omega
  have hb : b.length ≤ max (a.length + k) b.length := Nat.le_max_right _ _
  rw [paddedCompare_eq_compareLex hpadded hb, paddedCompare_eq_compareLex ha hb,
    rightpad_append_replicate (Nat.le_max_left _ _)]

theorem paddedCompare_append_right (pad : UInt8) (a b : Bytes) (k : Nat) :
    paddedCompare pad a (b ++ List.replicate k pad) = paddedCompare pad a b := by
  rw [paddedCompare_swap, paddedCompare_append_left, ← paddedCompare_swap]

/-- A text is what is left without its padding, and padding behind it. -/
theorem exists_eq_append_replicate (pad : UInt8) (a : Bytes) :
    ∃ k, a = a.rdropWhile (· == pad) ++ List.replicate k pad := by
  refine ⟨(a.rtakeWhile (· == pad)).length, ?_⟩
  have hpadding : a.rtakeWhile (· == pad) =
      List.replicate (a.rtakeWhile (· == pad)).length pad := by
    refine List.eq_replicate_iff.2 ⟨rfl, fun x hx => ?_⟩
    simpa using List.mem_rtakeWhile_imp hx
  rw [← hpadding, List.rdropWhile_append_rtakeWhile]

theorem rdropWhile_append_replicate (pad : UInt8) (a : Bytes) (k : Nat) :
    (a ++ List.replicate k pad).rdropWhile (· == pad) = a.rdropWhile (· == pad) := by
  induction k with
  | zero => rw [List.replicate_zero, List.append_nil]
  | succ k ih =>
    rw [List.replicate_succ', ← List.append_assoc, List.rdropWhile_concat_pos _ _ _ (by simp), ih]

/-- **Texts tie exactly if they are the same without their padding.** -/
theorem paddedCompare_eq_eq_iff :
    paddedCompare pad a b = .eq ↔ a.rdropWhile (· == pad) = b.rdropWhile (· == pad) := by
  constructor
  · intro h
    rw [paddedCompare_eq_compareLex (Nat.le_max_left _ _) (Nat.le_max_right _ _)] at h
    have hpadded := LawfulEqCmp.eq_of_compare h
    rw [List.rightpad, List.rightpad] at hpadded
    have hstripped := congrArg (List.rdropWhile (· == pad)) hpadded
    rwa [rdropWhile_append_replicate, rdropWhile_append_replicate] at hstripped
  · intro h
    obtain ⟨k, hk⟩ := exists_eq_append_replicate pad a
    obtain ⟨l, hl⟩ := exists_eq_append_replicate pad b
    rw [hk, hl, h, paddedCompare_append_left, paddedCompare_append_right]
    have := transCmp_paddedCompare pad
    exact ReflCmp.compare_self

/-- **Text is ordered as padded text.** A text ties with itself, exchanging two texts reverses their
order, and what is not greater is so transitively, whatever the three lengths. Padding put behind
either text changes nothing, and two texts tie exactly if they are the same once the padding at
their ends is removed. -/
theorem paddedCompare_laws (pad : UInt8) (a b c : Bytes) :
    paddedCompare pad a a = .eq ∧
      paddedCompare pad b a = (paddedCompare pad a b).swap ∧
      (paddedCompare pad a b ≠ .gt → paddedCompare pad b c ≠ .gt → paddedCompare pad a c ≠ .gt) ∧
      (∀ k l, paddedCompare pad (a ++ List.replicate k pad) (b ++ List.replicate l pad) =
        paddedCompare pad a b) ∧
      (paddedCompare pad a b = .eq ↔
        a.rdropWhile (· == pad) = b.rdropWhile (· == pad)) := by
  have hlaws := transCmp_paddedCompare pad
  refine ⟨ReflCmp.compare_self, paddedCompare_swap pad a b, ?_, ?_, paddedCompare_eq_eq_iff⟩
  · intro hab hbc
    have hle := TransCmp.isLE_trans (Ordering.isLE_iff_ne_gt.2 hab) (Ordering.isLE_iff_ne_gt.2 hbc)
    exact Ordering.isLE_iff_ne_gt.1 hle
  · intro k l
    rw [paddedCompare_append_left, paddedCompare_append_right]

/-- With blanks as padding, a tab makes `A` longer and smaller than itself, so that the shortest of
the three texts is between the other two. -/
theorem paddedCompare_laws_tab :
    paddedCompare 0x20 [0x41, 0x09] [0x41] ≠ .gt ∧
      paddedCompare 0x20 [0x41] [0x41, 0x20, 0x42] ≠ .gt ∧
      paddedCompare 0x20 [0x41, 0x09] [0x41, 0x20, 0x42] ≠ .gt := by
  have hlaws := paddedCompare_laws 0x20 [0x41, 0x09] [0x41] [0x41, 0x20, 0x42]
  have hfirst : paddedCompare 0x20 [0x41, 0x09] [0x41] ≠ .gt := by
    rw [paddedCompare_eq_find?]
    decide
  have hsecond : paddedCompare 0x20 [0x41] [0x41, 0x20, 0x42] ≠ .gt := by
    rw [paddedCompare_eq_find?]
    decide
  exact ⟨hfirst, hsecond, hlaws.2.2.1 hfirst hsecond⟩

end CardSort
