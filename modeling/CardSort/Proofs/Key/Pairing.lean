import CardSort.Proofs.Card.Pairing
import CardSort.Sum.Card

/-!
# Keys and sums read side by side

The operands of sort, merge and sum statements under a `Card.Pairing`. They use up a whole card,
so the whole operands are read by pairings in which both cards end together.

* `Card.Pairing.agree_fieldParts` — what keys and fields of a sum begin with.
* `SortKey.alike_onCard`, `SumRule.alike_fieldOnCard` — one key, one field of a sum.
* `Comparer.alike_onCard`, `SumRule.alike_onCard` — a whole operand.
-/

set_option autoImplicit false

namespace CardSort

open Card Card.Pairing

variable {P : Pairing} {encoding : Encoding} {default default' : Option FieldFormat}

/-- A list of fields ends for both readings at once. -/
theorem Card.Pairing.endsFields_eq (hclosed : P.Closed) {n : Nat} {c d : Cursor}
    (h : P.Pair n c d) : d.endsFields = c.endsFields := by
  simp only [Cursor.endsFields, Cursor.atEnd, Cursor.isOn, current_eq hclosed h, onFormat_eq h]

theorem Card.Pairing.endsFields_of_zero (hclosed : P.Closed) {c d : Cursor} (h : P.Pair 0 c d) :
    (! c.endsFields) = false := by
  simp [Cursor.endsFields, Cursor.atEnd, (hclosed c d h).1]

/-- The start, the length and the format of a field, read in front of what is done with them. -/
theorem Card.Pairing.agree_fieldParts {α : Type} {V : α → α → Nat → Prop} {isCode : String → Bool}
    {index index' n : Nat} {c d : Cursor} {f g : Nat → Nat → FieldFormat → Parser α}
    (hdefault : Extends default default') (hspot : P.Spot index) (h : P.Pair n c d)
    (hnext : ∀ position length format m c d, m + 2 ≤ n → P.Pair m c d →
      P.Agree V (f position length format c) (g position length format d)) :
    P.Agree V
      ((do
        let position ← number
        let length ← number
        match ← fieldFormat isCode default with
        | none => Card.failAt .missingFormat index
        | some format => f position length format) c)
      ((do
        let position ← number
        let length ← number
        match ← fieldFormat isCode default' with
        | none => Card.failAt .missingFormat index'
        | some format => g position length format) d) := by
  refine Alike.number.next h fun position m c d hm h => ?_
  refine Alike.number.next h fun length k c d hk h => ?_
  refine (Agree.fieldFormat hdefault h).bind ?_
  rintro a b l c d ⟨hab, hl⟩ h
  cases a with
  | none => exact Agree.failAt h hspot
  | some format =>
    rw [hab format rfl]
    exact hnext position length format l c d (by omega) h

/-! ## Keys -/

theorem SortKey.alike_directionOnCard :
    P.Alike (fun _ => 0) directionOnCard directionOnCard := by
  intro n c d h
  refine Agree.get ?_
  simp only [word?_eq h]
  cases hcode : c.word?.bind Direction.ofCode? with
  | none => exact Agree.pure h ⟨rfl, Nat.le_refl _⟩
  | some direction =>
    obtain ⟨w, hw, -⟩ := Option.bind_eq_some_iff.1 hcode
    refine (Agree.advance h (pos_of_word? h hw)).bind ?_
    intro _ _ m c d hm h
    exact Agree.pure h ⟨rfl, by omega⟩

theorem SortKey.alike_onCard (hdefault : Extends default default') :
    P.Alike (fun _ => 1) (SortKey.onCard encoding default) (SortKey.onCard encoding default') := by
  intro n c d h
  have hspot := spot h
  refine Agree.get (agree_fieldParts hdefault hspot h fun position length format m c d hm h => ?_)
  refine SortKey.alike_directionOnCard.next h fun direction k c d hk h => ?_
  refine (Alike.declareField hspot position length format encoding).next h
    fun field l c d hl h => ?_
  exact Alike.done h (by omega)

theorem Comparer.alike_keysOnCard (hclosed : P.Closed) (hdefault : Extends default default') :
    P.Alike (fun _ => 0) (keysOnCard encoding default) (keysOnCard encoding default') := by
  intro n c d h
  refine (Alike.eat (by simp)).next h fun parenthesized m c d hm h => ?_
  refine (Alike.collect (fun n c d h => by rw [endsFields_eq hclosed h])
    (fun _ _ => endsFields_of_zero hclosed) (SortKey.alike_onCard hdefault)).next h
    fun keys m' c d hm' h => ?_
  cases hkeys : keys.isEmpty with
  | true => exact Agree.fail h
  | false =>
    simp only [Bool.false_eq_true, if_false]
    refine Agree.close parenthesized h fun m c d hm h => ?_
    refine Alike.skipFormat.next h fun _ m c d hm h => ?_
    refine (Alike.expectEnd hclosed).next h fun _ m c d hm h => ?_
    exact Alike.done h (by omega)

theorem Comparer.alike_onCard {config : Config} (hclosed : P.Closed)
    (hdefault : Extends default default') :
    P.Alike (fun _ => 0) (Comparer.onCard config default) (Comparer.onCard config default') := by
  intro n c d h
  refine Alike.skipFormat.next h fun _ m c d hm h => ?_
  refine (Alike.or (Alike.eatWord _) (Alike.eatWord _)).next h fun copy m c d hm h => ?_
  cases copy with
  | true =>
    refine Alike.skipFormat.next h fun _ m c d hm h => ?_
    refine (Alike.expectEnd hclosed).next h fun _ m c d hm h => ?_
    exact Alike.done h (by omega)
  | false =>
    refine (Alike.eatHead _).next h fun _ m c d hm h => ?_
    refine (Alike.eatWord _).next h fun copy m c d hm h => ?_
    cases copy with
    | true =>
      refine (Alike.expectEnd hclosed).next h fun _ m c d hm h => ?_
      exact Alike.done h (by omega)
    | false =>
      refine (Comparer.alike_keysOnCard hclosed hdefault).next h fun keys m c d hm h => ?_
      exact Alike.done h (by omega)

/-! ## Sums -/

namespace SumRule

theorem alike_fieldOnCard (hdefault : Extends default default') :
    P.Alike (fun _ => 1) (fieldOnCard encoding default) (fieldOnCard encoding default') := by
  intro n c d h
  have hspot := spot h
  refine Agree.get (agree_fieldParts hdefault hspot h fun position length format m c d hm h => ?_)
  cases htext : format.isText with
  | true =>
    simp only [if_true]
    exact Agree.failAt h hspot
  | false =>
    simp only [Bool.false_eq_true, if_false]
    refine (Alike.declareField hspot position length format encoding m c d h).mono ?_
    rintro _ _ k ⟨rfl, hk⟩
    exact ⟨rfl, by omega⟩

theorem alike_fieldsOnCard (hclosed : P.Closed) (hdefault : Extends default default') :
    P.Alike (fun _ => 0) (fieldsOnCard encoding default) (fieldsOnCard encoding default') := by
  intro n c d h
  refine (Alike.eatWord _).next h fun none m c d hm h => ?_
  cases none with
  | true => exact Alike.done h (by omega)
  | false =>
    refine (Alike.collect (fun n c d h => by rw [endsFields_eq hclosed h])
      (fun _ _ => endsFields_of_zero hclosed) (alike_fieldOnCard hdefault)).next h
      fun fields k c d hk h => ?_
    cases hfields : fields.isEmpty with
    | true => exact Agree.fail h
    | false => exact Alike.done h (by omega)

theorem alike_ruleOnCard (hclosed : P.Closed) (hdefault : Extends default default') :
    P.Alike (fun _ => 0) (ruleOnCard encoding default) (ruleOnCard encoding default') := by
  intro n c d h
  refine (Alike.or (Alike.eatWord _) (Alike.eatWord _)).next h fun none m c d hm h => ?_
  cases none with
  | true => exact Alike.done h (by omega)
  | false =>
    refine (Alike.eatHead _).next h fun _ m c d hm h => ?_
    refine (Alike.eat (by simp)).next h fun parenthesized m c d hm h => ?_
    refine (alike_fieldsOnCard hclosed hdefault).next h fun rule m c d hm h => ?_
    refine Agree.close parenthesized h fun m c d hm h => ?_
    exact Alike.done h (by omega)

theorem alike_onCard (hclosed : P.Closed) (hdefault : Extends default default') :
    P.Alike (fun _ => 0) (SumRule.onCard encoding default) (SumRule.onCard encoding default') := by
  intro n c d h
  refine Alike.skipFormat.next h fun _ m c d hm h => ?_
  refine (alike_ruleOnCard hclosed hdefault).next h fun rule m c d hm h => ?_
  refine Alike.skipFormat.next h fun _ m c d hm h => ?_
  refine (Alike.expectEnd hclosed).next h fun _ m c d hm h => ?_
  exact Alike.done h (by omega)

end SumRule

end CardSort
