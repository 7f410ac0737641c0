import CardSort.Filter
import CardSort.Proofs.Except

/-!
# Filters combined

Two filters that a record has to pass are one filter. It leaves the second one alone where the
first one does not let the record pass.

* `Filter.both` — one filter for two, of which the first is evaluated first.
* `Filter.passes_both` — what it evaluates.
* `Filter.passes_combine` — **a filter to include and one to omit**.
-/

set_option autoImplicit false

namespace CardSort.Filter

/-- Both filters, the first one evaluated first. A filter that is absent passes every record. -/
def both (first second : Option Filter) : Option Filter :=
  match first, second with
  | some f, some g => some (.and f g)
  | some f, none => some f
  | none, second => second

theorem passes_both (first second : Option Filter) (record : Bytes) :
    passes (both first second) record = (do
      if ← passes first record then passes second record else pure false) := by
  cases first with
  | none => rfl
  | some f =>
    cases second with
    | some g => rfl
    | none =>
      show f.evaluate record = _
      simp only [passes]
      cases f.evaluate record with
      | error e => rfl
      | ok passed => cases passed <;> rfl

theorem combine_eq_both (i o : Option Filter) : combine i o = both i (o.map .not) := by
  cases i <;> cases o <;> rfl

theorem passes_not_eq_ok_iff {o : Option Filter} {record : Bytes} :
    passes (o.map .not) record = .ok true ↔ ∀ f ∈ o, f.evaluate record = .ok false := by
  cases o with
  | none => exact iff_of_true rfl nofun
  | some f =>
    have hnot : passes ((some f).map .not) record = (f.evaluate record).map (! ·) := rfl
    rw [hnot, map_eq_ok_iff]
    simp

/-- **A record passes if the filter to include lets it pass and the one to omit does not hold.**
Where the first one does not let it pass, the outcome is that of the first one, whatever the
second one is. -/
theorem passes_combine (i : Option Filter) (record : Bytes) :
    (∀ o, passes (combine i o) record = .ok true ↔
        passes i record = .ok true ∧ ∀ f ∈ o, f.evaluate record = .ok false) ∧
      (passes i record ≠ .ok true → ∀ o, passes (combine i o) record = passes i record) := by
  constructor
  · intro o
    rw [combine_eq_both, passes_both, bind_eq_ok_iff, ← passes_not_eq_ok_iff]
    constructor
    · rintro ⟨passed, hi, ho⟩
      cases passed with
      | false => cases ho
      | true => exact ⟨hi, ho⟩
    · rintro ⟨hi, ho⟩
      exact ⟨true, hi, ho⟩
  · intro hne o
    rw [combine_eq_both, passes_both]
    cases hi : passes i record with
    | error e => rfl
    | ok passed =>
      cases passed with
      | false => rfl
      | true => exact absurd hi hne

end CardSort.Filter
