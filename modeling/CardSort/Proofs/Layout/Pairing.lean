import CardSort.Layout.Card
import CardSort.Proofs.Card.Pairing

/-!
# Layouts read side by side

Layouts under a `Card.Pairing`: the groups and words that edit a number, the items, and lists of
items.

* `groupOnCard_eq` — a group is read value by value, up to a token that is no value.
* `EditWords.agree_onCard` — the words about editing, by the fuel that bounds their number.
* `Content.alike_onCard`, `LayoutItem.alike_onCard` — one item.
* `Layout.alike_onCard`, `Layout.alike_wholeOnCard` — a list of items and a whole operand.
-/

set_option autoImplicit false

namespace CardSort

open Card Card.Pairing

variable {P : Pairing} {encoding : Encoding} {n : Nat} {c d : Cursor}

/-! ## Groups -/

/-- Whether the cursor is on a value of a group. -/
def onGroupValue (c : Cursor) : Bool :=
  match c.current with
  | some (.word _) | some (.literal _) => true
  | _ => false

theorem isOn_closeParen_of_onGroupValue (h : onGroupValue c = true) :
    c.isOn .closeParen = false := by
  unfold onGroupValue at h
  unfold Cursor.isOn
  split at h <;> simp_all

theorem groupValue_of_not_onGroupValue (h : onGroupValue c = false) :
    groupValue c = .error (c.fault (.expectedToken .closeParen)) c := by
  refine run_bind_error_right (p := get) (d := c) rfl ?_
  unfold onGroupValue at h
  split at h
  · cases h
  · cases h
  · rename_i hword hliteral
    cases hc : c.current with
    | none => rfl
    | some t =>
      cases t with
      | word w => exact absurd hc (hword w)
      | literal s => exact absurd hc (hliteral s)
      | openParen | closeParen | semicolon => rfl

/-- A token that is no value ends the values of a group, or else it is the fault that the
closing parenthesis is missing. -/
theorem collectWhile_groupValue (fuel : Nat) (c : Cursor) :
    collectWhile (! ·.isOn .closeParen) groupValue fuel c =
        collectWhile onGroupValue groupValue fuel c ∨
      ∃ values c', collectWhile onGroupValue groupValue fuel c = .ok values c' ∧
        c'.isOn .closeParen = false ∧
        collectWhile (! ·.isOn .closeParen) groupValue fuel c =
          .error (c'.fault (.expectedToken .closeParen)) c' := by
  induction fuel generalizing c with
  | zero => exact .inl rfl
  | succ fuel ih =>
    cases hvalue : onGroupValue c with
    | false =>
      cases hclose : c.isOn .closeParen with
      | true =>
        left
        rw [collectWhile_of_not_more hvalue, collectWhile_of_not_more (by simp [hclose])]
      | false =>
        refine .inr ⟨[], c, collectWhile_of_not_more hvalue _, hclose, ?_⟩
        rw [collectWhile_of_more (by simp [hclose])]
        exact run_bind_error_left (groupValue_of_not_onGroupValue hvalue)
    | true =>
      have hclose := isOn_closeParen_of_onGroupValue hvalue
      rw [collectWhile_of_more hvalue, collectWhile_of_more (by simp [hclose])]
      cases hfirst : groupValue c with
      | error f c' =>
        left
        rw [run_bind_error_left hfirst, run_bind_error_left hfirst]
      | ok value c₁ =>
        rw [run_bind_ok hfirst, run_bind_ok hfirst]
        obtain heq | ⟨values, c', hvalues, hc', herror⟩ := ih c₁
        · left
          show EStateM.bind _ _ c₁ = EStateM.bind _ _ c₁
          simp only [EStateM.bind, heq]
        · exact .inr ⟨value :: values, c', run_bind_ok hvalues, hc', run_bind_error_left herror⟩

/-- A group in parentheses is read value by value. -/
theorem groupOnCard_eq :
    groupOnCard = (do
      expect .openParen
      let values ← collect onGroupValue groupValue
      expect .closeParen
      pure values) := by
  refine congrArg (expect .openParen >>= ·) (funext fun _ => funext fun c => ?_)
  obtain heq | ⟨values, c', hvalues, hc', herror⟩ := collectWhile_groupValue c.size c
  · show EStateM.bind _ _ c = EStateM.bind _ _ c
    simp only [EStateM.bind, collect, heq]
  · rw [run_bind_ok (p := collect onGroupValue groupValue) hvalues,
      run_bind_error_left (p := collect (! ·.isOn .closeParen) groupValue) herror]
    refine (run_bind_error_left ?_).symm
    refine run_bind_error_right (p := eat .closeParen) (a := false) (d := c') ?_ rfl
    simp [eat, hc']

theorem onGroupValue_eq (h : P.Pair n c d) : onGroupValue d = onGroupValue c := by
  obtain ⟨t, hc, hd, -⟩ | ⟨-, hc | hc, hd | hd⟩ := current_cases h <;>
    simp [onGroupValue, hc, hd]

theorem onGroupValue_of_zero (h : P.Pair 0 c d) : onGroupValue c = false := by
  obtain ⟨hc | hc, -⟩ := P.of_zero h <;> simp [onGroupValue, hc]

theorem alike_groupValue : P.Alike (fun _ => 1) groupValue groupValue := by
  intro n c d h
  refine Agree.get ?_
  obtain ⟨t, hc, hd, hn⟩ | ⟨-, hc | hc, -⟩ := current_cases h
  · simp only [hc, hd]
    cases t with
    | word w =>
      refine (Agree.advance h hn).bind ?_
      intro _ _ m c d hm h
      exact Alike.done h hm
    | literal s =>
      refine (Agree.advance h hn).bind ?_
      intro _ _ m c d hm h
      exact Alike.done h hm
    | openParen | closeParen | semicolon => exact Agree.fail h
  · simp only [hc]
    exact Agree.fail h
  · simp only [hc]
    exact Agree.fail h

theorem alike_groupOnCard : P.Alike (fun _ => 0) groupOnCard groupOnCard := by
  rw [groupOnCard_eq]
  intro n c d h
  refine (Alike.expect (by simp)).next h fun _ m c d hm h => ?_
  refine (Alike.collect (fun _ _ _ => onGroupValue_eq)
    (fun _ _ => onGroupValue_of_zero) alike_groupValue).next h
    fun values m c d hm h => ?_
  refine (Alike.expect (by simp)).next h fun _ m c d hm h => ?_
  exact Alike.done h (by omega)

/-! ## Words about editing -/

namespace EditWords

theorem onCard_of_word?_eq_none (h : c.word? = none) (fuel : Nat) (e : EditWords) :
    onCard fuel e c = .ok e c := by
  cases fuel with
  | zero => rfl
  | succ fuel =>
    refine run_bind_iff.2 ⟨c, c, rfl, ?_⟩
    simp only [h]
    rfl

/-- The words about editing, with fuel for all tokens that are left. -/
theorem agree_onCard :
    ∀ fuel fuel' (e : EditWords) n c d, P.Pair n c d → n ≤ fuel → n ≤ fuel' →
      P.Agree (fun a b m => a = b ∧ m ≤ n) (onCard fuel e c) (onCard fuel' e d) := by
  have hstop : ∀ fuel fuel' (e : EditWords) n c d, P.Pair n c d → c.word? = none →
      P.Agree (fun a b m => a = b ∧ m ≤ n) (onCard fuel e c) (onCard fuel' e d) := by
    intro fuel fuel' e n c d h hw
    rw [onCard_of_word?_eq_none hw, onCard_of_word?_eq_none ((word?_eq h).trans hw)]
    exact Agree.pure h ⟨rfl, Nat.le_refl _⟩
  refine Agree.loop (V := fun n _ a b m => a = b ∧ m ≤ n) ?_ ?_
  · intro fuel fuel' e c d h
    refine hstop fuel fuel' e 0 c d h (Option.eq_none_iff_forall_ne_some.2 fun w hw => ?_)
    exact absurd (pos_of_word? h hw) (Nat.lt_irrefl 0)
  intro fuel fuel' e n c d h hpos hrest
  cases hw : c.word? with
  | none => exact hstop _ _ e n c d h hw
  | some w =>
    -- the words that are left once this one is read
    have hmore : ∀ (e' : EditWords) m c d, P.Pair m c d → m < n →
        P.Agree (fun a b l => a = b ∧ l ≤ n) (onCard fuel e' c) (onCard fuel' e' d) := by
      intro e' m c d h hm
      refine (hrest e' m c d h hm).mono ?_
      rintro a _ l ⟨rfl, hl⟩
      exact ⟨rfl, by omega⟩
    refine Agree.get ?_
    simp only [word?_eq h, hw]
    by_cases hedit : w = "EDIT="
    · simp only [if_pos hedit]
      refine (Agree.advance h hpos).bind ?_
      intro _ _ m c d hm h
      refine alike_groupOnCard.next h fun values m c d hm h => ?_
      exact hmore _ m c d h (by omega)
    simp only [if_neg hedit]
    by_cases hsigns : w = "SIGNS="
    · simp only [if_pos hsigns]
      refine (Agree.advance h hpos).bind ?_
      intro _ _ m c d hm h
      refine alike_groupOnCard.next h fun values m c d hm h => ?_
      exact hmore _ m c d h (by omega)
    simp only [if_neg hsigns]
    cases Text.after? "LENGTH=" w with
    | some digits =>
      cases hlength : (Numeral.word64? digits).filter (· ≠ 0) with
      | none =>
        simp only [hlength]
        exact Agree.fail h
      | some length =>
        simp only [hlength]
        refine (Agree.advance h hpos).bind ?_
        intro _ _ m c d hm h
        exact hmore _ m c d h hm
    | none =>
      cases Mask.predefined? w with
      | none => exact Agree.pure h ⟨rfl, Nat.le_refl _⟩
      | some mask =>
        refine (Agree.advance h hpos).bind ?_
        intro _ _ m c d hm h
        exact hmore _ m c d h hm

end EditWords

/-! ## Parts of items -/

theorem alike_repeatsOnCard {index index' : Nat} (hspot : P.Spot index) (count : Option Nat) :
    P.Alike (fun _ => 0) (repeatsOnCard count index) (repeatsOnCard count index') := by
  intro n c d h
  match count with
  | some 0 => exact Agree.failAt h hspot
  | some (_ + 1) => exact Alike.done h (Nat.le_refl _)
  | none => exact Alike.done h (Nat.le_refl _)

theorem alike_signsOnCard {index index' : Nat} (hspot : P.Spot index) (mask : Mask)
    (signs : Option (List (List Char))) :
    P.Alike (fun _ => 0) (signsOnCard mask signs index) (signsOnCard mask signs index') := by
  intro n c d h
  cases signs with
  | none => exact Alike.done h (Nat.le_refl _)
  | some texts =>
    simp only [signsOnCard]
    cases mask.withSigns texts with
    | ok m => exact Alike.done h (Nat.le_refl _)
    | error issue => exact Agree.failAt h hspot

theorem alike_formatOnCard : P.Alike (fun _ => 0) formatOnCard formatOnCard := by
  intro n c d h
  refine Agree.get ?_
  simp only [word?_eq h]
  cases hcode : c.word?.bind FieldFormat.ofCode? with
  | none => exact Alike.done h (Nat.le_refl _)
  | some f =>
    obtain ⟨w, hw, -⟩ := Option.bind_eq_some_iff.1 hcode
    refine (Agree.advance h (pos_of_word? h hw)).bind ?_
    intro _ _ m c d hm h
    exact Alike.done h (by omega)

theorem alike_columnOnCard {index index' : Nat} (hspot : P.Spot index) (w : String) :
    P.Alike (fun _ => 0) (columnOnCard w index) (columnOnCard w index') := by
  intro n c d h
  unfold columnOnCard
  cases Text.cutAt ':' w.toList with
  | none => exact Alike.done h (Nat.le_refl _)
  | some parts =>
    obtain ⟨digits, rest⟩ := parts
    cases hcolumn : (Numeral.unsigned? Numeral.wordLimit digits).filter (· ≠ 0) with
    | none =>
      simp only [hcolumn]
      exact Agree.failAt h hspot
    | some column =>
      simp only [hcolumn]
      cases hrest : rest.isEmpty with
      | true =>
        simp only [if_true]
        refine Alike.word.next h fun next m c d hm h => ?_
        exact Alike.done h (by omega)
      | false => exact Alike.done h (Nat.le_refl _)

/-! ## Items -/

namespace Content

theorem alike_fieldOnCard {index index' : Nat} (hspot : P.Spot index) (position length : Nat) :
    P.Alike (fun _ => 0) (fieldOnCard encoding position length index)
      (fieldOnCard encoding position length index') := by
  intro n c d h
  refine alike_formatOnCard.next h fun format m c d hm h => ?_
  have hsize := P.le_size h
  refine (EditWords.agree_onCard c.size d.size {} m c d h hsize.1 hsize.2).bind ?_
  rintro edit _ k c d ⟨rfl, hk⟩ h
  cases format with
  | none =>
    cases hany : edit.any with
    | true =>
      simp only [if_true]
      exact Agree.failAt h hspot
    | false =>
      simp only [Bool.false_eq_true, if_false]
      refine (Alike.declareField hspot position length .ch encoding).next h
        fun field l c d hl h => ?_
      exact Alike.done h (by omega)
  | some f =>
    cases htext : f.isText with
    | true =>
      simp only [htext, if_true]
      exact Agree.failAt h hspot
    | false =>
      simp only [htext, Bool.false_eq_true, if_false]
      cases hmask : edit.mask with
      | none => exact Agree.failAt h hspot
      | some mask =>
        refine (alike_signsOnCard hspot mask edit.signs).next h fun mask l c d hl h => ?_
        refine (Alike.declareField hspot position length f encoding).next h
          fun field i c d hi h => ?_
        exact Alike.done h (by omega)

theorem alike_textOnCard {index index' : Nat} (hspot : P.Spot index) (count : Option Nat) :
    P.Alike (fun _ => 0) (textOnCard encoding count index) (textOnCard encoding count index') := by
  intro n c d h
  refine (alike_repeatsOnCard hspot count).next h fun k m c d hm h => ?_
  refine Alike.literal.next h fun text m c d hm h => ?_
  exact Alike.done h (by omega)

theorem alike_hexOnCard {index index' : Nat} (hspot : P.Spot index) (count : Option Nat) :
    P.Alike (fun _ => 0) (hexOnCard encoding count index) (hexOnCard encoding count index') := by
  intro n c d h
  refine (alike_repeatsOnCard hspot count).next h fun k m c d hm h => ?_
  have hliteral := spot h
  refine Agree.get ?_
  simp only [onLiteral_eq h]
  cases hon : c.onLiteral with
  | false =>
    simp only [Bool.false_eq_true, if_false]
    exact Alike.done h (by omega)
  | true =>
    simp only [if_true]
    refine Alike.literal.next h fun text m c d hm h => ?_
    cases Numeral.hexBytes? text.toList with
    | some bytes => exact Alike.done h (by omega)
    | none => exact Agree.failAt h hliteral

theorem alike_onCard {index index' : Nat} (hspot : P.Spot index) (w : String) :
    P.Alike (fun _ => 0) (Content.onCard encoding w index) (Content.onCard encoding w index') := by
  intro n c d h
  refine Agree.get ?_
  simp only [onLiteral_eq h]
  cases htext : (repeatCount? 'C' w.toList).filter fun _ => c.onLiteral with
  | some count => exact alike_textOnCard hspot count n c d h
  | none =>
    cases hhex : repeatCount? 'X' w.toList with
    | some count => exact alike_hexOnCard hspot count n c d h
    | none =>
      cases hzero : repeatCount? 'Z' w.toList with
      | some count =>
        refine (alike_repeatsOnCard hspot count).next h fun k m c d hm h => ?_
        exact Alike.done h (by omega)
      | none =>
        cases hposition : Numeral.word64? w with
        | some position =>
          refine Alike.number.next h fun length m c d hm h => ?_
          refine (alike_fieldOnCard hspot position length m c d h).mono ?_
          rintro content _ k ⟨rfl, hk⟩
          exact ⟨rfl, by omega⟩
        | none => exact Agree.failAt h hspot

end Content

theorem LayoutItem.alike_onCard :
    P.Alike (fun _ => 1) (LayoutItem.onCard encoding) (LayoutItem.onCard encoding) := by
  intro n c d h
  have hspot := spot h
  refine Agree.get ?_
  refine Alike.word.next h fun w m c d hm h => ?_
  refine (alike_columnOnCard hspot w).next h fun parts k c d hk h => ?_
  refine (Content.alike_onCard hspot parts.2).next h fun content l c d hl h => ?_
  exact Alike.done h (by omega)

/-! ## Lists of items -/

namespace Layout

theorem continuesAt_eq {parenthesized : Bool} (h : P.Pair n c d) :
    continuesAt parenthesized d = continuesAt parenthesized c := by
  have hend : (d.atEnd || d.isOn .closeParen || d.isOn .semicolon) =
      (c.atEnd || c.isOn .closeParen || c.isOn .semicolon) := by
    rw [Bool.or_right_comm, endsBlock_eq h, isOn_eq h (by simp), Bool.or_right_comm]
  simp only [continuesAt, hend, word?_eq h]

theorem continuesAt_of_zero {parenthesized : Bool} (h : P.Pair 0 c d) :
    continuesAt parenthesized c = false := by
  obtain ⟨hc | hc, -⟩ := P.of_zero h <;>
    simp [continuesAt, Cursor.atEnd, Cursor.isOn, hc]

theorem alike_onCard :
    P.Alike (fun _ => 1) (Layout.onCard encoding) (Layout.onCard encoding) := by
  intro n c d h
  refine (Alike.eat (by simp)).next h fun parenthesized m c d hm h => ?_
  refine (Alike.collect (fun _ _ _ => continuesAt_eq)
    (fun _ _ => continuesAt_of_zero) LayoutItem.alike_onCard).next h
    fun items k c d hk h => ?_
  cases items with
  | nil => exact Agree.fail h
  | cons item items =>
    simp only [List.length_cons, List.isEmpty_cons, Bool.false_eq_true, if_false] at hk ⊢
    refine Agree.close parenthesized h fun l c d hl h => ?_
    exact Alike.done h (by omega)

theorem alike_wholeOnCard (hclosed : P.Closed) :
    P.Alike (fun _ => 0) (wholeOnCard encoding) (wholeOnCard encoding) := by
  intro n c d h
  refine ((Alike.eatHead _).or ((Alike.eatHead _).or ((Alike.eatHead _).or
    (Alike.eatHead _)))).next h fun _ m c d hm h => ?_
  refine alike_onCard.next h fun layout m c d hm h => ?_
  refine (Alike.expectEnd hclosed).next h fun _ m c d hm h => ?_
  exact Alike.done h (by omega)

end Layout

end CardSort
