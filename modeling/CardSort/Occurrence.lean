/-!
# One list within another

Words of cards and records of byte streams are both found by a known part of a list.

* `Occurrence.after?` is what follows a known head (`Occurrence.after?_eq_some_iff`).
* `Occurrence.splitAtFirst` splits a list around the first occurrence of a part; nothing but the
  part is lost (`Occurrence.eq_of_splitAtFirst`).
-/

set_option autoImplicit false

namespace CardSort.Occurrence

variable {α : Type} [DecidableEq α]

/-- The rest of a list that begins with the given head. -/
def after? : List α → List α → Option (List α)
  | [], xs => some xs
  | _ :: _, [] => none
  | h :: hs, x :: xs => if h = x then after? hs xs else none

/-- **What is left after a known head**: the list is the head followed by the rest. -/
theorem after?_eq_some_iff {head xs rest : List α} :
    after? head xs = some rest ↔ xs = head ++ rest := by
  induction head generalizing xs with
  | nil => simp [after?]
  | cons h hs ih =>
    cases xs with
    | nil => simp [after?]
    | cons x xs =>
      by_cases hx : h = x
      · simp [after?, hx, ih]
      · simp [after?, hx, Ne.symm hx]

/-- The parts of a list before and after the first occurrence of `part`. -/
def splitAtFirst (part : List α) : List α → Option (List α × List α)
  | [] => (after? part []).map fun rest => ([], rest)
  | x :: xs =>
    match after? part (x :: xs) with
    | some rest => some ([], rest)
    | none => (splitAtFirst part xs).map fun (before, rest) => (x :: before, rest)

theorem eq_of_splitAtFirst {part xs before rest : List α}
    (h : splitAtFirst part xs = some (before, rest)) : xs = before ++ part ++ rest := by
  induction xs generalizing before with
  | nil =>
    simp only [splitAtFirst, Option.map_eq_some_iff, after?_eq_some_iff] at h
    obtain ⟨r, hr, he⟩ := h
    cases he
    simpa using hr
  | cons x xs ih =>
    simp only [splitAtFirst] at h
    split at h
    · next r hr =>
      cases h
      simpa using after?_eq_some_iff.1 hr
    · obtain ⟨⟨p, q⟩, hp, he⟩ := Option.map_eq_some_iff.1 h
      cases he
      simp [ih hp]

end CardSort.Occurrence
