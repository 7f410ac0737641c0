import CardSort.Destination
import CardSort.Proofs.Filter.Pairing
import CardSort.Proofs.Layout.Pairing

/-!
# Destinations read side by side

The operands of one destination under a `Card.Pairing`. A destination ends at a semicolon as it
does at the end of the card, so the second card may go on behind it. The whole list is read by
pairings in which both cards end together.

* `Destination.agree_operandOnCard` — one operand.
* `Destination.ReadsBlock` — what the readings of one destination come to.
* `Destination.agree_operandsOnCard`, `Destination.agree_onCard` — one destination.
* `Destination.agree_listOnCard` — destinations up to the end of the card.
-/

set_option autoImplicit false

namespace CardSort.Destination

open Card Card.Pairing

variable {P : Pairing} {encoding : Encoding} {default default' : Option FieldFormat} {n : Nat}
  {c d : Cursor}

theorem alike_once {α : Type} {index index' : Nat} (hspot : P.Spot index) (slot : Option α)
    (word : String) : P.Alike (fun _ => 0) (once slot word index) (once slot word index') := by
  intro n c d h
  unfold once
  cases slot.isSome with
  | true => exact Agree.failAt h hspot
  | false => exact Alike.done h (Nat.le_refl _)

theorem agree_operandOnCard {word : String} (hdefault : Extends default default') (draft : Draft)
    (h : P.Pair n c d) (hword : c.word? = some word) :
    P.Agree (fun a b m => a = b ∧ m + 1 ≤ n)
      (operandOnCard encoding default draft word c.index c)
      (operandOnCard encoding default' draft word d.index d) := by
  have hspot := spot h
  have hpos := pos_of_word? h hword
  refine Agree.tryHead "INCLUDE=" h (fun m c d hm h => ?_) (Agree.tryHead "OMIT=" h
    (fun m c d hm h => ?_) (Agree.tryHeads "OUTREC=" "BUILD=" h (fun m c d hm h => ?_) ?_))
  · refine (alike_once hspot draft.included word).next h fun _ k c d hk h => ?_
    refine (Filter.alike_onCard hdefault).next h fun filter l c d hl h => ?_
    exact Agree.pure h ⟨rfl, by omega⟩
  · refine (alike_once hspot draft.omitted word).next h fun _ k c d hk h => ?_
    refine (Filter.alike_onCard hdefault).next h fun filter l c d hl h => ?_
    exact Agree.pure h ⟨rfl, by omega⟩
  · refine (alike_once hspot draft.layout word).next h fun _ k c d hk h => ?_
    refine Layout.alike_onCard.next h fun layout l c d hl h => ?_
    exact Agree.pure h ⟨rfl, by omega⟩
  · cases hname : Text.after? "FNAMES=" word with
    | some name =>
      simp only [Bool.false_eq_true, if_false]
      refine (Agree.advance h hpos).bind ?_
      intro _ _ m c d hm h
      cases name.isEmpty with
      | true =>
        refine Alike.word.next h fun name k c d hk h => ?_
        exact Agree.pure h ⟨rfl, by omega⟩
      | false => exact Agree.pure h ⟨rfl, hm⟩
    | none =>
      cases hformat : Text.beginsWith formatKeyword word with
      | true =>
        simp only [Bool.false_eq_true, if_false, if_true]
        refine (Agree.advance h hpos).bind ?_
        intro _ _ m c d hm h
        exact Agree.pure h ⟨rfl, hm⟩
      | false => exact Agree.failAt h hspot

theorem operandsOnCard_of_endsBlock (h : (c.atEnd || c.isOn .semicolon) = true) (fuel : Nat)
    (draft : Draft) : operandsOnCard encoding default fuel draft c = .ok draft c := by
  cases fuel with
  | zero => rfl
  | succ fuel =>
    refine run_bind_iff.2 ⟨c, c, rfl, ?_⟩
    simp only [h, if_true]
    rfl

theorem endsBlock_of_zero (h : P.Pair 0 c d) : (c.atEnd || c.isOn .semicolon) = true := by
  obtain ⟨hc | hc, -⟩ := P.of_zero h <;> simp [Cursor.atEnd, Cursor.isOn, hc]

theorem zero_of_endsBlock (hblock : P.IsBlock) (h : P.Pair n c d)
    (hends : (c.atEnd || c.isOn .semicolon) = true) : n = 0 := by
  obtain ⟨t, hc, -, hn⟩ | ⟨hn, -⟩ := current_cases h
  · have hne := hblock n c d h hn
    simp [Cursor.atEnd, Cursor.isOn, hc] at hends
    exact absurd (hends ▸ hc) hne
  · exact hn

/-- What the readings of a block come to: one value. They use up a token unless the block ends at
once, and all tokens of a single block. -/
structure ReadsBlock {α : Type} (P : Pairing) (n : Nat) (c : Cursor) (a b : α) (m : Nat) :
    Prop where
  value_eq : a = b
  le : m ≤ n
  whole : P.IsBlock → m = 0
  less : (c.atEnd || c.isOn .semicolon) = false → m < n

/-- The operands of a destination, with fuel for all tokens that are left. -/
theorem agree_operandsOnCard (hdefault : Extends default default') :
    ∀ fuel fuel' (draft : Draft) n c d, P.Pair n c d → n ≤ fuel → n ≤ fuel' →
      P.Agree (ReadsBlock P n c) (operandsOnCard encoding default fuel draft c)
        (operandsOnCard encoding default' fuel' draft d) := by
  have hstop : ∀ fuel fuel' (draft : Draft) n c d, P.Pair n c d →
      (c.atEnd || c.isOn .semicolon) = true →
      P.Agree (ReadsBlock P n c) (operandsOnCard encoding default fuel draft c)
        (operandsOnCard encoding default' fuel' draft d) := by
    intro fuel fuel' draft n c d h hends
    rw [operandsOnCard_of_endsBlock hends,
      operandsOnCard_of_endsBlock (by rw [endsBlock_eq h, hends])]
    refine Agree.pure h ⟨rfl, Nat.le_refl _, fun hblock => zero_of_endsBlock hblock h hends, ?_⟩
    exact fun hnot => absurd (hends.symm.trans hnot) (by decide)
  refine Agree.loop (V := fun n c => ReadsBlock P n c) ?_ ?_
  · intro fuel fuel' draft c d h
    exact hstop fuel fuel' draft 0 c d h (endsBlock_of_zero h)
  · intro fuel fuel' draft n c d h hpos hrest
    cases hends : c.atEnd || c.isOn .semicolon with
    | true => exact hstop _ _ draft n c d h hends
    | false =>
      refine Agree.get ?_
      simp only [endsBlock_eq h, hends, Bool.false_eq_true, if_false, word?_eq h]
      cases hword : c.word? with
      | none => exact Agree.fail h
      | some word =>
        refine (agree_operandOnCard hdefault draft h hword).bind ?_
        rintro draft _ m c d ⟨rfl, hm⟩ h
        refine (hrest draft m c d h hm).mono ?_
        rintro a _ k ⟨rfl, hk, hzero, -⟩
        exact ⟨rfl, by omega, hzero, fun _ => by omega⟩

/-- One destination. -/
theorem agree_onCard (hdefault : Extends default default') (h : P.Pair n c d) :
    P.Agree (ReadsBlock P n c) (Destination.onCard encoding default c)
      (Destination.onCard encoding default' d) := by
  have hsize := P.le_size h
  refine (agree_operandsOnCard hdefault c.size d.size {} n c d h hsize.1 hsize.2).bind ?_
  rintro draft _ m c d ⟨rfl, hle, hwhole, hless⟩ h
  exact Agree.pure h ⟨rfl, hle, hwhole, hless⟩

/-! ## Lists of destinations -/

theorem skipSemicolons_of_not_isOn (h : c.isOn .semicolon = false) (fuel : Nat) :
    skipSemicolons fuel c = .ok () c := by
  cases fuel with
  | zero => rfl
  | succ fuel =>
    have heat : eat .semicolon c = .ok false c := by simp [eat, h]
    exact run_bind_iff.2 ⟨false, c, heat, rfl⟩

theorem agree_skipSemicolons (hclosed : P.Closed) :
    ∀ fuel fuel' n c d, P.Pair n c d → n ≤ fuel → n ≤ fuel' →
      P.Agree (fun _ _ m => m ≤ n) (skipSemicolons fuel c) (skipSemicolons fuel' d) := by
  intro fuel fuel' n c d h hn hn'
  refine Agree.loop (p := fun fuel (_ : Unit) => skipSemicolons fuel)
    (q := fun fuel (_ : Unit) => skipSemicolons fuel) (V := fun n _ _ _ m => m ≤ n) ?_ ?_ fuel
    fuel' () n c d h hn hn'
  · intro fuel fuel' _ c d h
    obtain ⟨hc, hd⟩ := hclosed c d h
    rw [skipSemicolons_of_not_isOn (by simp [Cursor.isOn, hc]),
      skipSemicolons_of_not_isOn (by simp [Cursor.isOn, hd])]
    exact Agree.pure h (Nat.le_refl _)
  · intro fuel fuel' _ n c d h _ hrest
    refine (Alike.eat_of_closed hclosed .semicolon).next h fun eaten m c d hm h => ?_
    cases eaten with
    | false => exact Agree.pure h hm
    | true =>
      refine (hrest () m c d h hm).mono ?_
      intro _ _ k hk
      exact hk.trans (Nat.le_of_succ_le hm)

/-- With fuel for all that is left, no semicolon is left. -/
theorem isOn_of_skipSemicolons {fuel : Nat} {c c' : Cursor} {u : Unit}
    (h : skipSemicolons fuel c = .ok u c') (hfuel : c.size ≤ fuel) :
    c'.isOn .semicolon = false := by
  induction fuel generalizing c with
  | zero => exact absurd hfuel (Nat.not_succ_le_zero _)
  | succ fuel ih =>
    cases hon : c.isOn .semicolon with
    | false =>
      rw [skipSemicolons_of_not_isOn hon] at h
      cases h
      exact hon
    | true =>
      obtain ⟨eaten, next, heat, hskip⟩ := run_bind_iff.1 h
      have hnext : advance c = .ok () next ∧ eaten = true := by
        simp only [eat, hon, if_true, seqRight_eq_bind] at heat
        obtain ⟨_, next', hadvance, hpure⟩ := run_bind_iff.1 heat
        cases hpure
        exact ⟨hadvance, rfl⟩
      obtain ⟨hadvance, rfl⟩ := hnext
      simp only [if_true] at hskip
      by_cases hcurrent : next.current = none
      · have hoff : next.isOn .semicolon = false := by simp [Cursor.isOn, hcurrent]
        rw [skipSemicolons_of_not_isOn hoff] at hskip
        cases hskip
        exact hoff
      · have hsmaller := size_lt_of_advance hadvance hcurrent
        exact ih hskip (by omega)

/-- Destinations up to the end of the card, with fuel for all tokens that are left. -/
theorem agree_listOnCard (hclosed : P.Closed) (hdefault : Extends default default') :
    ∀ fuel fuel' n c d, P.Pair n c d → n < fuel → n < fuel' →
      P.Agree (fun a b m => a = b ∧ m = 0) (listOnCard encoding default fuel c)
        (listOnCard encoding default' fuel' d) := by
  intro fuel
  induction fuel with
  | zero =>
    intro fuel' n c d h hn
    omega
  | succ fuel ih =>
    intro fuel' n c d h hn hn'
    obtain ⟨fuel', rfl⟩ : ∃ k, fuel' = k + 1 := Nat.exists_eq_add_one.2 (by omega)
    have hsize := P.le_size h
    refine (agree_skipSemicolons hclosed c.size d.size n c d h hsize.1 hsize.2).bind_run ?_
    intro _ _ m c d hskip hm h
    have hoff := isOn_of_skipSemicolons hskip (Nat.le_refl _)
    refine Agree.get ?_
    simp only [show d.atEnd = c.atEnd by simp only [Cursor.atEnd, current_eq hclosed h]]
    cases hend : c.atEnd with
    | true =>
      refine Agree.pure h ⟨rfl, ?_⟩
      obtain ⟨t, ht, -⟩ | ⟨hzero, -⟩ := current_cases h
      · simp [Cursor.atEnd, ht] at hend
      · exact hzero
    | false =>
      simp only [Bool.false_eq_true, if_false]
      refine (agree_onCard hdefault h).bind ?_
      rintro destination _ k c d ⟨rfl, -, -, hk⟩ h
      have hless := hk (by rw [hend, hoff]; rfl)
      refine (ih fuel' k c d h (by omega) (by omega)).bind ?_
      rintro destinations _ l c d ⟨rfl, rfl⟩ h
      exact Agree.pure h ⟨rfl, rfl⟩

end CardSort.Destination
