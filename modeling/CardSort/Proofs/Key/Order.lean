import CardSort.Key
import CardSort.Proofs.Decimal.Laws

/-!
# Keys order records totally

Every stage that brings records into order relies on the comparison of records being a total
preorder, also of records that lack a key or hold no number where a key expects one.

* `Collation.compare_eq_compareLex` — a collation orders byte strings lexicographically by the
  weights of their bytes.
* `Comparer.transCmp_compare` — **the comparison of records is a total preorder**: every
  combination of fields, formats, directions and collation gives one.
* `Comparer.le_trans`, `Comparer.le_total`, `Comparer.compare_eq_of_le_of_le` — the laws in the
  form in which sorting and merging use them.
* `Comparer.compareKeys_append` — further keys are looked at where the first ones tie.
* `Comparer.compare_laws` — **the laws of comparison together**, for every list of keys.
-/

set_option autoImplicit false

namespace CardSort

open Std (TransCmp OrientedCmp ReflCmp)

/-! ## Orders built from orders -/

/-- Comparing images compares. -/
theorem transCmp_comap {α β : Type} (f : α → β) (cmp : β → β → Ordering) [TransCmp cmp] :
    TransCmp fun a b => cmp (f a) (f b) where
  eq_swap {a b} := @OrientedCmp.eq_swap β cmp _ (f a) (f b)
  isLE_trans {a b c} := @TransCmp.isLE_trans β cmp _ (f a) (f b) (f c)

/-- The order in which nothing differs. -/
theorem transCmp_const_eq {α : Type} : TransCmp fun _ _ : α => Ordering.eq where
  eq_swap := rfl
  isLE_trans := fun _ _ => rfl

theorem transCmp_compareHeld {α : Type} (cmp : α → α → Ordering) [TransCmp cmp] :
    TransCmp (compareHeld cmp) where
  eq_swap {a b} := by
    cases a with
    | none => cases b <;> rfl
    | some a =>
      cases b with
      | none => rfl
      | some b => exact @OrientedCmp.eq_swap α cmp _ a b
  isLE_trans {a b c} hab hbc := by
    cases a with
    | none => cases c <;> rfl
    | some a =>
      cases b with
      | none => cases hab
      | some b =>
        cases c with
        | none => cases hbc
        | some c => exact @TransCmp.isLE_trans α cmp _ a b c hab hbc

theorem transCmp_direction {α : Type} (d : Direction) (cmp : α → α → Ordering) [TransCmp cmp] :
    TransCmp fun a b => d.apply (cmp a b) := by
  cases d with
  | ascending => exact transCmp_comap id cmp
  | descending =>
    have hswap : (fun a b => Direction.descending.apply (cmp a b)) = fun a b => cmp b a := by
      funext a b
      exact OrientedCmp.eq_swap.symm
    rw [hswap]
    exact TransCmp.opposite

/-! ## Byte strings and numbers -/

theorem Bytes.compareBy_eq_compareLex (weight : UInt8 → Nat) (a b : Bytes) :
    Bytes.compareBy weight a b = List.compareLex (compareOn weight) a b := by
  induction a generalizing b with
  | nil => cases b <;> rfl
  | cons x xs ih =>
    cases b with
    | nil => rfl
    | cons y ys =>
      rw [Bytes.compareBy, List.compareLex_cons_cons, ih]
      rfl

/-- A collation orders byte strings lexicographically, by a weight for each byte. -/
theorem Collation.compare_eq_compareLex (collation : Collation) :
    ∃ weight : UInt8 → Nat, collation.compare = List.compareLex (compareOn weight) := by
  cases collation with
  | native =>
    refine ⟨UInt8.toNat, ?_⟩
    funext a b
    exact Bytes.compareBy_eq_compareLex _ a b
  | recoded display target =>
    refine ⟨(Collation.recoded display target).weight, ?_⟩
    funext a b
    exact Bytes.compareBy_eq_compareLex _ a b

theorem Collation.transCmp_compare (collation : Collation) : TransCmp collation.compare := by
  obtain ⟨weight, h⟩ := collation.compare_eq_compareLex
  rw [h]
  infer_instance

/-! ## Records -/

theorem SortKey.transCmp_compare (k : SortKey) (collation : Collation) :
    TransCmp (k.compare collation) := by
  have hasc : TransCmp (k.compareAscending collation) := by
    unfold SortKey.compareAscending
    split
    · have := collation.transCmp_compare
      have := transCmp_compareHeld collation.compare
      exact transCmp_comap (fun r => (k.field.bytes r).toOption) (compareHeld collation.compare)
    · have := Decimal.transCmp_compare
      have := transCmp_compareHeld Decimal.compare
      exact transCmp_comap (fun r => (k.field.decimal r).toOption) (compareHeld Decimal.compare)
  exact transCmp_direction k.direction (k.compareAscending collation)

namespace Comparer

theorem transCmp_compareKeys (collation : Collation) (keys : List SortKey) :
    TransCmp (compareKeys collation keys) := by
  induction keys with
  | nil => exact transCmp_const_eq
  | cons k ks ih =>
    have := k.transCmp_compare collation
    exact inferInstanceAs
      (TransCmp (compareLex (k.compare collation) (compareKeys collation ks)))

/-- **The keys order records totally**, with ties, whatever the records hold. -/
instance transCmp_compare (c : Comparer) : TransCmp c.compare :=
  transCmp_compareKeys c.collation c.keys

theorem le_iff {c : Comparer} {a b : Bytes} : c.le a b = true ↔ (c.compare a b).isLE = true := by
  unfold le
  cases c.compare a b <;> simp

theorem le_iff_ne_gt {c : Comparer} {a b : Bytes} : c.le a b = true ↔ c.compare a b ≠ .gt := by
  simp [le]

theorem not_le_iff {c : Comparer} {a b : Bytes} : ¬ c.le a b = true ↔ c.compare a b = .gt := by
  simp [le]

theorem le_refl (c : Comparer) (a : Bytes) : c.le a a = true :=
  le_iff.2 ReflCmp.isLE_rfl

theorem le_trans (c : Comparer) (a b d : Bytes) (hab : c.le a b = true) (hbd : c.le b d = true) :
    c.le a d = true :=
  le_iff.2 (TransCmp.isLE_trans (le_iff.1 hab) (le_iff.1 hbd))

theorem le_of_not_le {c : Comparer} {a b : Bytes} (h : ¬ c.le a b = true) : c.le b a = true := by
  have hlt : c.compare b a = .lt := OrientedCmp.lt_of_gt (not_le_iff.1 h)
  rw [le_iff, hlt]
  rfl

theorem le_total (c : Comparer) (a b : Bytes) : (c.le a b || c.le b a) = true := by
  by_cases h : c.le a b = true
  · simp [h]
  · simp [le_of_not_le h]

/-- Records that may stand in either order tie. -/
theorem compare_eq_of_le_of_le {c : Comparer} {a b : Bytes} (hab : c.le a b = true)
    (hba : c.le b a = true) : c.compare a b = .eq :=
  OrientedCmp.isLE_antisymm (le_iff.1 hab) (le_iff.1 hba)

/-! ## Lists of keys -/

theorem compareKeys_append (collation : Collation) (keys more : List SortKey) (a b : Bytes) :
    compareKeys collation (keys ++ more) a b =
      (compareKeys collation keys a b).then (compareKeys collation more a b) := by
  induction keys with
  | nil => rfl
  | cons k ks ih =>
    simp only [List.cons_append, compareKeys]
    rw [ih, Ordering.then_assoc]

/-- **Keys compare lawfully**, whatever the records hold: a record ties with itself, swapping the
records reverses the outcome, what is not greater is so transitively, and of two lists of keys the
second one decides where the first one ties. -/
theorem compare_laws (collation : Collation) (keys more : List SortKey) (a b d : Bytes) :
    let c : Comparer := ⟨keys, collation⟩
    c.compare a a = .eq ∧
      c.compare a b = (c.compare b a).swap ∧
      (c.compare a b ≠ .gt → c.compare b d ≠ .gt → c.compare a d ≠ .gt) ∧
      (Comparer.mk (keys ++ more) collation).compare a b =
        if c.compare a b = .eq then (Comparer.mk more collation).compare a b
        else c.compare a b := by
  intro c
  refine ⟨ReflCmp.compare_self, OrientedCmp.eq_swap, ?_, ?_⟩
  · intro hab hbd
    have hle := c.le_trans a b d (le_iff_ne_gt.2 hab) (le_iff_ne_gt.2 hbd)
    exact le_iff_ne_gt.1 hle
  · have hsplit : (Comparer.mk (keys ++ more) collation).compare a b =
        (c.compare a b).then ((Comparer.mk more collation).compare a b) :=
      compareKeys_append collation keys more a b
    rw [hsplit]
    cases c.compare a b <;> rfl

/-- A number, then `?:`, which is none, then a record that ends before the key: descending, what
is missing comes last, and two records that lack a number tie until a further key is looked at. -/
theorem compare_laws_undecodable :
    let number : SortKey := ⟨⟨0, 2, .zd, .ascii⟩, .descending⟩
    let text : SortKey := ⟨⟨0, 1, .ch, .ascii⟩, .ascending⟩
    let c : Comparer := ⟨[number], .recoded .ascii .ebcdic⟩
    c.compare [0x31, 0x32] [0x3F, 0x3A] ≠ .gt ∧ c.compare [0x3F, 0x3A] [0x41] ≠ .gt ∧
      c.compare [0x31, 0x32] [0x41] ≠ .gt ∧
      (Comparer.mk [number, text] (.recoded .ascii .ebcdic)).compare [0x3F, 0x3A] [0x41] =
        (Comparer.mk [text] (.recoded .ascii .ebcdic)).compare [0x3F, 0x3A] [0x41] := by
  have hfirst := compare_laws (.recoded .ascii .ebcdic) [⟨⟨0, 2, .zd, .ascii⟩, .descending⟩] []
    [0x31, 0x32] [0x3F, 0x3A] [0x41]
  have hsecond := compare_laws (.recoded .ascii .ebcdic) [⟨⟨0, 2, .zd, .ascii⟩, .descending⟩]
    [⟨⟨0, 1, .ch, .ascii⟩, .ascending⟩] [0x3F, 0x3A] [0x41] []
  exact ⟨by decide, by decide, hfirst.2.2.1 (by decide) (by decide),
    hsecond.2.2.2.trans (if_pos (by decide))⟩

end Comparer

end CardSort
