import CardSort.Card.Cursor

/-!
# What parsers yield

A property of all results of a parser, whatever the card and wherever the cursor stands. It is
shown along the parser: a step hands on what is known of its result.

* `Card.Yields` — every result of a parser has a property.
* `Card.Yields.bind`, `Card.Yields.next`, `Card.Yields.collect` — one parser after another, and a
  list of items.
* `Card.Yields.of_read`, `Card.Yields.of_readWithFormat` — a whole operand.
-/

set_option autoImplicit false

namespace CardSort.Card

variable {α β : Type}

theorem run_bind_iff {p : Parser α} {f : α → Parser β} {c c' : Cursor} {b : β} :
    (p >>= f) c = .ok b c' ↔ ∃ a d, p c = .ok a d ∧ f a d = .ok b c' := by
  show EStateM.bind p f c = .ok b c' ↔ _
  unfold EStateM.bind
  cases p c with
  | ok a d =>
    refine ⟨fun h => ⟨a, d, rfl, h⟩, ?_⟩
    rintro ⟨_, _, h, hb⟩
    cases h
    exact hb
  | error e d => simp

/-- Whatever the parser reads has the property. -/
def Yields (p : Parser α) (P : α → Prop) : Prop :=
  ∀ (c : Cursor) (a : α) (c' : Cursor), p c = .ok a c' → P a

namespace Yields

variable {p : Parser α} {f : α → Parser β} {P : α → Prop} {Q : β → Prop}

theorem bind (hp : Yields p P) (hf : ∀ a, P a → Yields (f a) Q) : Yields (p >>= f) Q := by
  intro c b c' h
  obtain ⟨a, d, ha, hb⟩ := run_bind_iff.1 h
  exact hf a (hp c a d ha) d b c' hb

/-- A step whose result does not matter. -/
theorem next (hf : ∀ a, Yields (f a) Q) : Yields (p >>= f) Q :=
  bind (P := fun _ => True) (fun _ _ _ _ => trivial) fun a _ => hf a

theorem pure {a : α} (h : P a) : Yields (Pure.pure a) P := by
  intro c b c' hb
  cases hb
  exact h

theorem fail (issue : CardIssue) : Yields (Card.fail issue) P := by
  intro c a c' h
  cases h

theorem failAt (issue : CardIssue) (index : Nat) : Yields (Card.failAt issue index) P := by
  intro c a c' h
  cases h

theorem collectWhile {item : Parser α} (more : Cursor → Bool) (hitem : Yields item P)
    (fuel : Nat) : Yields (Card.collectWhile more item fuel) fun xs => ∀ x ∈ xs, P x := by
  induction fuel with
  | zero => exact pure (by simp)
  | succ fuel ih =>
    refine next fun c => ?_
    split
    · refine bind hitem fun x hx => bind ih fun xs hxs => pure ?_
      simpa using ⟨hx, hxs⟩
    · exact pure (by simp)

/-- Every item of a list has what an item has. -/
theorem collect {item : Parser α} (more : Cursor → Bool) (hitem : Yields item P) :
    Yields (Card.collect more item) fun xs => ∀ x ∈ xs, P x :=
  fun c => collectWhile more hitem c.size c

theorem of_read {source : String} {a : α} (hp : Yields p P) (h : read p source = .ok a) : P a := by
  unfold read at h
  split at h
  · cases h
  · rename_i c _
    split at h
    · rename_i hread
      cases h
      exact hp c _ _ hread
    · cases h

theorem of_readWithFormat {p : Option FieldFormat → Parser α} {source : String} {a : α}
    (hp : ∀ format, Yields (p format) P) (h : readWithFormat p source = .ok a) : P a := by
  unfold readWithFormat at h
  cases hformat : defaultFormat source with
  | error f =>
    rw [hformat] at h
    cases h
  | ok format =>
    rw [hformat] at h
    exact (hp format).of_read h

end Yields

end CardSort.Card
