import Mathlib.Data.List.Infix
import CardSort.Occurrence

/-!
# The first occurrence of a part

Where `Occurrence.splitAtFirst` splits, and that the split does not depend on what follows the
occurrence. A part occurs in a list behind `b` if `b ++ part` is the front of the list.

* `Occurrence.splitAtFirst_eq_some_iff` — **the split is at the first occurrence**.
* `Occurrence.splitAtFirst_eq_none_iff` — without an occurrence there is none.
* `Occurrence.splitAtFirst_append`, `Occurrence.splitAtFirst_take` — what follows the occurrence
  may change.
* `Occurrence.Unbordered` — no front of the part is its end.
* `Occurrence.splitAtFirst_append_part` — **such a part, put behind a list without it, occurs
  there first.**
* `Occurrence.splitAtFirst_singleton` — the first occurrence of a single element.
-/

set_option autoImplicit false

namespace CardSort.Occurrence

variable {α : Type} [DecidableEq α] {part xs before rest b : List α}

theorem after?_eq_none_iff : after? part xs = none ↔ ¬ part <+: xs := by
  rw [Option.eq_none_iff_forall_ne_some]
  constructor
  · rintro h ⟨rest, hrest⟩
    exact h rest (after?_eq_some_iff.2 hrest.symm)
  · intro h rest hrest
    exact h ⟨rest, (after?_eq_some_iff.1 hrest).symm⟩

/-! ## The first occurrence -/

/-- Without a split there is no occurrence: by induction on the list, at each of its tails. -/
theorem not_prefix_of_splitAtFirst (h : splitAtFirst part xs = none) (b : List α) :
    ¬ b ++ part <+: xs := by
  induction xs generalizing b with
  | nil =>
    rw [splitAtFirst, Option.map_eq_none_iff, after?_eq_none_iff] at h
    intro hb
    obtain ⟨-, rfl⟩ := List.append_eq_nil_iff.1 (List.prefix_nil.1 hb)
    exact h List.prefix_rfl
  | cons x xs ih =>
    rw [splitAtFirst] at h
    cases hafter : after? part (x :: xs) with
    | some rest =>
      simp only [hafter] at h
      cases h
    | none =>
      simp only [hafter, Option.map_eq_none_iff] at h
      cases b with
      | nil => exact after?_eq_none_iff.1 hafter
      | cons y b =>
        intro hb
        exact ih h b (List.cons_prefix_cons.1 hb).2

/-- No occurrence comes before the split. -/
theorem length_le_of_splitAtFirst (h : splitAtFirst part xs = some (before, rest))
    (hb : b ++ part <+: xs) : before.length ≤ b.length := by
  induction xs generalizing before b with
  | nil =>
    rw [splitAtFirst] at h
    obtain ⟨rest, _, hsplit⟩ := Option.map_eq_some_iff.1 h
    cases hsplit
    exact Nat.zero_le _
  | cons x xs ih =>
    rw [splitAtFirst] at h
    cases hafter : after? part (x :: xs) with
    | some rest =>
      simp only [hafter] at h
      cases h
      exact Nat.zero_le _
    | none =>
      simp only [hafter] at h
      obtain ⟨⟨front, back⟩, hrest, hsplit⟩ := Option.map_eq_some_iff.1 h
      cases hsplit
      cases b with
      | nil => exact absurd hb (after?_eq_none_iff.1 hafter)
      | cons y b => exact Nat.succ_le_succ (ih hrest (List.cons_prefix_cons.1 hb).2)

/-- **Without an occurrence there is no split.** -/
theorem splitAtFirst_eq_none_iff : splitAtFirst part xs = none ↔ ∀ b, ¬ b ++ part <+: xs := by
  refine ⟨not_prefix_of_splitAtFirst, fun h => ?_⟩
  cases hsplit : splitAtFirst part xs with
  | none => rfl
  | some split =>
    obtain ⟨before, rest⟩ := split
    exact absurd ⟨rest, (eq_of_splitAtFirst hsplit).symm⟩ (h before)

/-- **The split is at the first occurrence.** -/
theorem splitAtFirst_eq_some_iff :
    splitAtFirst part xs = some (before, rest) ↔
      xs = before ++ part ++ rest ∧ ∀ b, b ++ part <+: xs → before.length ≤ b.length := by
  constructor
  · intro h
    exact ⟨eq_of_splitAtFirst h, fun b => length_le_of_splitAtFirst h⟩
  · rintro ⟨rfl, hfirst⟩
    cases hsplit : splitAtFirst part (before ++ part ++ rest) with
    | none => exact absurd ⟨rest, rfl⟩ (not_prefix_of_splitAtFirst hsplit before)
    | some split =>
      obtain ⟨front, back⟩ := split
      have heq := eq_of_splitAtFirst hsplit
      have hle := hfirst front ⟨back, heq.symm⟩
      have hge := length_le_of_splitAtFirst hsplit ⟨rest, rfl⟩
      rw [List.append_assoc, List.append_assoc] at heq
      obtain ⟨rfl, hback⟩ := List.append_inj heq (by omega)
      rw [List.append_cancel_left hback]

/-! ## What follows the occurrence -/

theorem splitAtFirst_append (h : splitAtFirst part xs = some (before, rest)) (more : List α) :
    splitAtFirst part (xs ++ more) = some (before, rest ++ more) := by
  obtain ⟨rfl, hfirst⟩ := splitAtFirst_eq_some_iff.1 h
  refine splitAtFirst_eq_some_iff.2 ⟨List.append_assoc .., ?_⟩
  intro b hb
  apply Nat.le_of_not_lt
  intro hlt
  -- an occurrence before the split would lie within the shorter list
  have hinside : b ++ part <+: before ++ part ++ rest := by
    refine List.prefix_of_prefix_length_le hb (List.prefix_append _ more) ?_
    simp only [List.length_append]
    omega
  exact Nat.not_le_of_lt hlt (hfirst b hinside)

theorem splitAtFirst_take (h : splitAtFirst part xs = some (before, rest)) :
    splitAtFirst part (before ++ part) = some (before, []) := by
  obtain ⟨rfl, hfirst⟩ := splitAtFirst_eq_some_iff.1 h
  refine splitAtFirst_eq_some_iff.2 ⟨(List.append_nil _).symm, fun b hb => ?_⟩
  exact hfirst b (hb.trans (List.prefix_append _ rest))

/-! ## Parts that do not overlap themselves -/

/-- No front of the part but the empty one and the part itself is also its end. -/
def Unbordered (part : List α) : Prop := ∀ p, p <+: part → p <:+ part → p = [] ∨ p = part

instance (part : List α) : Decidable (Unbordered part) :=
  decidable_of_iff (∀ p ∈ part.inits, p <:+ part → p = [] ∨ p = part) <| by
    simp only [Unbordered, List.mem_inits]

/-- **An unbordered part behind a list without it occurs there first**: an earlier occurrence
would overlap the part. -/
theorem splitAtFirst_append_part (hunbordered : Unbordered part)
    (h : splitAtFirst part xs = none) : splitAtFirst part (xs ++ part) = some (xs, []) := by
  refine splitAtFirst_eq_some_iff.2 ⟨(List.append_nil _).symm, ?_⟩
  intro b hb
  apply Nat.le_of_not_lt
  intro hlt
  by_cases hinside : (b ++ part).length ≤ xs.length
  · have hb' := List.prefix_of_prefix_length_le hb (List.prefix_append xs part) hinside
    exact not_prefix_of_splitAtFirst h b hb'
  · obtain ⟨p, hp⟩ : xs <+: b ++ part :=
      List.prefix_of_prefix_length_le (List.prefix_append xs part) hb (by omega)
    have hlength := congrArg List.length hp
    simp only [List.length_append] at hlength hinside
    have hfront : p <+: part := by
      rw [← hp] at hb
      exact (List.prefix_append_right_inj xs).1 hb
    have hend : p <:+ part := by
      refine List.suffix_of_suffix_length_le ⟨xs, hp⟩ (List.suffix_append b part) ?_
      omega
    rcases hunbordered p hfront hend with rfl | rfl
    · rw [List.length_nil] at hlength
      omega
    · omega

/-! ## Single elements -/

theorem splitAtFirst_singleton_eq_none {a : α} (h : a ∉ xs) : splitAtFirst [a] xs = none :=
  splitAtFirst_eq_none_iff.2 fun _ hb => h (hb.subset (by simp))

/-- A list without the element, in front of it. -/
theorem splitAtFirst_singleton {a : α} (h : a ∉ xs) (rest : List α) :
    splitAtFirst [a] (xs ++ a :: rest) = some (xs, rest) := by
  have hunbordered : Unbordered [a] := by
    intro p hp _
    simpa [List.prefix_cons_iff] using hp
  have hfirst := splitAtFirst_append
    (splitAtFirst_append_part hunbordered (splitAtFirst_singleton_eq_none h)) rest
  simpa using hfirst

end CardSort.Occurrence
