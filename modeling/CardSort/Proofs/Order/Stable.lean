import CardSort.Job.Pass

/-!
# Stable order

What it means that records which arrived in one order are placed in the order of their keys, with
ties left as they arrived. Sorting in memory, merging runs and sorting through spilled runs are
all compared with this one notion.

* `Comparer.tied` — the records that tie with a given one, in order.
* `KeepsTies` — every such subsequence is the same before and after.
* `StableOrder` — ties kept, and no record greater than a later one; `KeyOrder`, the same but for
  the ties.
* `StableOrder.unique` — **there is only one stable order** of the records that arrived.
* `Comparer.sort_stableOrder` — sorting produces it.
* `StableOrder.cons_least` — putting the least record in front extends it; the step of a merge.
-/

set_option autoImplicit false

namespace CardSort

open Std (ReflCmp OrientedCmp TransCmp)

variable {c : Comparer} {r a : Bytes} {xs ys arrived placed : List Bytes}

/-! ## Subsequences of ties -/

/-- The records that tie with `r`, in their order. -/
def Comparer.tied (c : Comparer) (r : Bytes) (records : List Bytes) : List Bytes :=
  records.filter fun x => c.compare r x = .eq

namespace Comparer

theorem mem_tied_self (h : a ∈ xs) : a ∈ c.tied a xs := by
  simp [tied, h, ReflCmp.compare_self]

theorem mem_of_mem_tied (h : a ∈ c.tied r xs) : a ∈ xs :=
  (List.mem_filter.1 h).1

theorem tied_append (c : Comparer) (r : Bytes) (xs ys : List Bytes) :
    c.tied r (xs ++ ys) = c.tied r xs ++ c.tied r ys :=
  List.filter_append ..

theorem tied_flatten (c : Comparer) (r : Bytes) (pieces : List (List Bytes)) :
    c.tied r pieces.flatten = (pieces.map (c.tied r)).flatten :=
  List.filter_flatten

theorem tied_cons_of_eq (h : c.compare r a = .eq) : c.tied r (a :: xs) = a :: c.tied r xs := by
  simp [tied, h]

theorem tied_cons_of_ne (h : c.compare r a ≠ .eq) : c.tied r (a :: xs) = c.tied r xs := by
  simp [tied, h]

/-- A record may move to the front past records that do not tie with it. -/
theorem tied_append_cons (hx : ∀ x ∈ xs, c.compare x a ≠ .eq) :
    c.tied r (xs ++ a :: ys) = c.tied r (a :: (xs ++ ys)) := by
  by_cases hr : c.compare r a = .eq
  · have hnone : c.tied r xs = [] := by
      refine List.filter_eq_nil_iff.2 fun x hmem hrx => hx x hmem ?_
      exact TransCmp.eq_trans (OrientedCmp.eq_symm (by simpa using hrx)) hr
    rw [tied_append, tied_cons_of_eq hr, tied_cons_of_eq hr, tied_append, hnone]
    rfl
  · rw [tied_append, tied_cons_of_ne hr, tied_cons_of_ne hr, tied_append]

end Comparer

/-- The records are the same, and those that tie stand in the same order. -/
def KeepsTies (c : Comparer) (arrived placed : List Bytes) : Prop :=
  ∀ r, c.tied r placed = c.tied r arrived

namespace KeepsTies

theorem refl (c : Comparer) (records : List Bytes) : KeepsTies c records records := fun _ => rfl

theorem trans {xs ys zs : List Bytes} (h₁ : KeepsTies c xs ys) (h₂ : KeepsTies c ys zs) :
    KeepsTies c xs zs := fun r => (h₂ r).trans (h₁ r)

/-- No record is lost and none is duplicated, since every record ties with itself. -/
theorem perm (h : KeepsTies c arrived placed) : placed.Perm arrived := by
  refine List.perm_iff_count.2 fun a => ?_
  have hself : ∀ xs, (c.tied a xs).count a = xs.count a := fun xs =>
    List.count_filter (by simp [ReflCmp.compare_self])
  rw [← hself placed, h a, hself arrived]

/-- Pieces that keep their ties one by one keep them together. -/
theorem flatten {f : List Bytes → List Bytes} {pieces : List (List Bytes)}
    (h : ∀ piece ∈ pieces, KeepsTies c piece (f piece)) :
    KeepsTies c pieces.flatten (pieces.map f).flatten := by
  intro r
  rw [Comparer.tied_flatten, Comparer.tied_flatten, List.map_map]
  exact congrArg List.flatten (List.map_congr_left fun piece hp => h piece hp r)

end KeepsTies

/-! ## Stable order -/

/-- The records that arrived are placed in the order of their keys, ties as they arrived. -/
structure StableOrder (c : Comparer) (arrived placed : List Bytes) : Prop where
  keepsTies : KeepsTies c arrived placed
  sorted : placed.Pairwise fun a b => c.le a b = true

/-- The records that arrived are placed in the order of their keys, ties in any order. -/
structure KeyOrder (c : Comparer) (arrived placed : List Bytes) : Prop where
  perm : placed.Perm arrived
  sorted : placed.Pairwise fun a b => c.le a b = true

namespace StableOrder

theorem keyOrder (h : StableOrder c arrived placed) : KeyOrder c arrived placed :=
  ⟨h.keepsTies.perm, h.sorted⟩

theorem nil (c : Comparer) : StableOrder c [] [] := ⟨KeepsTies.refl c [], List.Pairwise.nil⟩

/-- Another order of arrival with the same ties has the same stable order. -/
theorem of_keepsTies (h : StableOrder c xs placed) (hx : KeepsTies c arrived xs) :
    StableOrder c arrived placed :=
  ⟨hx.trans h.keepsTies, h.sorted⟩

theorem head_le_head {a b : Bytes} {p q : List Bytes}
    (hties : ∀ r, c.tied r (a :: p) = c.tied r (b :: q))
    (hsorted : (a :: p).Pairwise fun x y => c.le x y = true) : c.le a b = true := by
  have hb : b ∈ c.tied b (a :: p) := by
    rw [hties b]
    exact Comparer.mem_tied_self List.mem_cons_self
  rcases List.mem_cons.1 (Comparer.mem_of_mem_tied hb) with rfl | hb
  · exact c.le_refl b
  · exact (List.pairwise_cons.1 hsorted).1 b hb

theorem tied_tail {a : Bytes} {p q : List Bytes}
    (hties : ∀ r, c.tied r (a :: p) = c.tied r (a :: q)) : ∀ r, c.tied r p = c.tied r q := by
  intro r
  have h := hties r
  by_cases hr : c.compare r a = .eq
  · rw [Comparer.tied_cons_of_eq hr, Comparer.tied_cons_of_eq hr] at h
    exact (List.cons.inj h).2
  · rwa [Comparer.tied_cons_of_ne hr, Comparer.tied_cons_of_ne hr] at h

/-- The heads of two orders of the same records tie, hence they are one record: the first of its
class. The rest follows by induction. -/
theorem eq_of_sorted {p q : List Bytes} (hties : ∀ r, c.tied r p = c.tied r q)
    (hp : p.Pairwise fun a b => c.le a b = true) (hq : q.Pairwise fun a b => c.le a b = true) :
    p = q := by
  induction p generalizing q with
  | nil =>
    cases q with
    | nil => rfl
    | cons b q =>
      have hb := Comparer.mem_tied_self (c := c) (List.mem_cons_self (a := b) (l := q))
      rw [← hties b] at hb
      cases hb
  | cons a p ih =>
    cases q with
    | nil =>
      have ha := Comparer.mem_tied_self (c := c) (List.mem_cons_self (a := a) (l := p))
      rw [hties a] at ha
      cases ha
    | cons b q =>
      have hab : c.le a b = true := head_le_head hties hp
      have hba : c.le b a = true := head_le_head (fun r => (hties r).symm) hq
      have hhead : a = b := by
        have h := hties a
        rw [Comparer.tied_cons_of_eq ReflCmp.compare_self,
          Comparer.tied_cons_of_eq (Comparer.compare_eq_of_le_of_le hab hba)] at h
        exact (List.cons.inj h).1
      subst hhead
      have htail := ih (tied_tail hties) (List.pairwise_cons.1 hp).2 (List.pairwise_cons.1 hq).2
      rw [htail]

/-- **The stable order is unique.** -/
theorem unique {p q : List Bytes} (hp : StableOrder c arrived p) (hq : StableOrder c arrived q) :
    p = q :=
  eq_of_sorted (fun r => (hp.keepsTies r).trans (hq.keepsTies r).symm) hp.sorted hq.sorted

/-- The first of the least records, put in front of the stable order of the others. -/
theorem cons_least (h : StableOrder c (xs ++ ys) placed)
    (hx : ∀ x ∈ xs, c.compare x a = .gt) (hy : ∀ y ∈ ys, c.le a y = true) :
    StableOrder c (xs ++ a :: ys) (a :: placed) := by
  constructor
  · intro r
    have hne : ∀ x ∈ xs, c.compare x a ≠ .eq := fun x hmem => by simp [hx x hmem]
    rw [Comparer.tied_append_cons hne]
    by_cases hr : c.compare r a = .eq
    · rw [Comparer.tied_cons_of_eq hr, Comparer.tied_cons_of_eq hr, h.keepsTies r]
    · rw [Comparer.tied_cons_of_ne hr, Comparer.tied_cons_of_ne hr, h.keepsTies r]
  · refine List.pairwise_cons.2 ⟨fun b hb => ?_, h.sorted⟩
    rcases List.mem_append.1 (h.keepsTies.perm.mem_iff.1 hb) with hb | hb
    · exact Comparer.le_of_not_le (Comparer.not_le_iff.2 (hx b hb))
    · exact hy b hb

end StableOrder

/-! ## Sorting -/

/-- Sorting inserts each record before the records that may not stand before it. -/
theorem Comparer.sort_keepsTies (c : Comparer) (records : List Bytes) :
    KeepsTies c records (c.sort records) := by
  induction records with
  | nil =>
    rw [sort, List.mergeSort_nil]
    exact KeepsTies.refl c []
  | cons a records ih =>
    obtain ⟨l₁, l₂, hcons, hrest, hlt⟩ :=
      List.mergeSort_cons c.le_trans c.le_total a records
    have hne : ∀ x ∈ l₁, c.compare x a ≠ .eq := by
      intro x hx heq
      have hle : c.le a x = true := by simp [Comparer.le, OrientedCmp.eq_symm heq]
      have hnot := hlt x hx
      rw [hle] at hnot
      cases hnot
    intro r
    rw [sort, hcons, tied_append_cons hne, ← hrest]
    by_cases hr : c.compare r a = .eq
    · rw [tied_cons_of_eq hr, tied_cons_of_eq hr, ← ih r]
      rfl
    · rw [tied_cons_of_ne hr, tied_cons_of_ne hr, ← ih r]
      rfl

/-- **Sorting in memory is stable and orders by the keys.** -/
theorem Comparer.sort_stableOrder (c : Comparer) (records : List Bytes) :
    StableOrder c records (c.sort records) :=
  ⟨c.sort_keepsTies records, List.pairwise_mergeSort c.le_trans c.le_total records⟩

/-- A stable order of the records is what sorting gives. -/
theorem StableOrder.eq_sort (h : StableOrder c arrived placed) : placed = c.sort arrived :=
  h.unique (c.sort_stableOrder arrived)

end CardSort
