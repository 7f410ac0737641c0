import CardSort.Filter.Card
import CardSort.Proofs.Card.Pairing
import CardSort.Proofs.Except

/-!
# Conditions read side by side

Conditions under a `Card.Pairing`. An operand is a run of tokens that are taken with their byte
indexes, so the two readings take the same tokens at different indexes.

* `Operand.matches_ofTokens` — what the tokens of an operand denote.
* `Filter.nestedOnCard_succ` — a condition is a simple one, `Filter.simpleOnCard`, and what is
  joined to it, `Filter.joinOnCard`.
* `Filter.agree_nestedOnCard` — a condition, by the fuel that bounds its nesting.
* `Filter.alike_onCard`, `Filter.alike_wholeOnCard` — a condition and a whole operand.
-/

set_option autoImplicit false

namespace CardSort

open Card Card.Pairing

variable {P : Pairing} {encoding : Encoding} {default default' : Option FieldFormat}
  {n : Nat} {c d : Cursor}

namespace Operand

/-! ## Operands of a condition -/

/-- A fault may lie at the token. -/
def MayBlame (P : Pairing) (x : Located) : Prop :=
  P.Spot x.1 ∧ ∀ w, x.2 = .word w → FieldFormat.ofCode? w = none →
    P.Allows (.unknownFormat w x.1 P.source)

/-- One token, taken at two places. -/
def IsBeside (P : Pairing) (x y : Located) : Prop := x.2 = y.2 ∧ MayBlame P x

theorem mayBlame {t : Token} (h : P.Pair n c d) (hc : c.current = some t) :
    MayBlame P (c.index, t) := by
  refine ⟨spot h, ?_⟩
  rintro w rfl hcode
  have hcurrent : c.current = some (.word ("" ++ w)) := by simpa using hc
  exact P.allows_unknownFormat h hcurrent hcode

theorem numberOf?_eq {x y : Located} (h : x.2 = y.2) : numberOf? x = numberOf? y := by
  obtain ⟨i, t⟩ := x
  obtain ⟨j, u⟩ := y
  obtain rfl : t = u := h
  cases t <;> rfl

theorem matches_fieldOf {index index' : Nat} {start start' length length' : Located}
    {format format' : Unit → Except Fault FieldFormat} (hsource : c.source = P.source)
    (hspot : P.Spot index) (hstart : start.2 = start'.2) (hlength : length.2 = length'.2)
    (hformat : P.Matches (format ()) (format' ())) :
    P.Matches (fieldOf encoding c index start length format)
      (fieldOf encoding d index' start' length' format') := by
  unfold fieldOf
  rw [numberOf?_eq hstart, numberOf?_eq hlength]
  cases numberOf? start' with
  | none => exact Matches.card .noFieldReference hsource hspot
  | some position =>
    cases numberOf? length' with
    | none => exact Matches.card .noFieldReference hsource hspot
    | some width =>
      refine hformat.bind fun f => ?_
      cases Field.of position width f encoding with
      | ok field => rfl
      | error r => exact Matches.card (.fieldRefused r) hsource hspot

theorem mayBlame_of_mem {xs ys : List Located} (h : List.Forall₂ (IsBeside P) xs ys) {x : Located}
    (hx : x ∈ xs) : MayBlame P x := by
  obtain ⟨y, -, hxy⟩ := exists_mem_of_forall₂ h.flip hx
  exact hxy.2

/-- Two tokens that are no constant are the start and length of a field. -/
theorem ofTokens_pair {index : Nat} {x y : Located}
    (hC : ∀ s, x.2 = .word "C" → y.2 ≠ .literal s)
    (hX : ∀ s, x.2 = .word "X" → y.2 ≠ .literal s) :
    ofTokens encoding default c index [x, y] =
      fieldOf encoding c index x y fun _ =>
        match default with
        | some f => .ok f
        | none => .error (c.faultAt .missingFormat index) := by
  have hC' : ∀ i j s, x = (i, .word "C") → y = (j, .literal s) → False := by
    rintro _ _ s rfl rfl
    exact hC s rfl rfl
  have hX' : ∀ i j s, x = (i, .word "X") → y = (j, .literal s) → False := by
    rintro _ _ s rfl rfl
    exact hX s rfl rfl
  cases default <;> rw [ofTokens] <;> assumption

/-- Tokens at other places denote the same operand. -/
theorem matches_ofTokens {index index' : Nat} {xs ys : List Located}
    (hdefault : Extends default default') (hsource : c.source = P.source) (hspot : P.Spot index)
    (h : List.Forall₂ (IsBeside P) xs ys) :
    P.Matches (ofTokens encoding default c index xs)
      (ofTokens encoding default' d index' ys) := by
  have hblame : ∀ x ∈ xs, MayBlame P x := fun _ => mayBlame_of_mem h
  fun_cases ofTokens encoding default c index xs with
  | case1 => exact Matches.card .noOperand hsource hspot
  | case2 _ w value hvalue =>
    obtain ⟨⟨_, _⟩, ys₁, ⟨rfl, -⟩, h₁, rfl⟩ := List.forall₂_cons_left_iff.1 h
    obtain rfl := List.forall₂_nil_left_iff.1 h₁
    simp only [ofTokens, hvalue]
    rfl
  | case3 at_ w => exact Matches.card (.notDecimal w) hsource (hblame _ List.mem_cons_self).1
  | case4 _ _ s =>
    obtain ⟨⟨_, _⟩, ys₁, ⟨rfl, -⟩, h₁, rfl⟩ := List.forall₂_cons_left_iff.1 h
    obtain ⟨⟨_, _⟩, ys₂, ⟨rfl, -⟩, h₂, rfl⟩ := List.forall₂_cons_left_iff.1 h₁
    obtain rfl := List.forall₂_nil_left_iff.1 h₂
    rfl
  | case5 _ _ s bytes hbytes =>
    obtain ⟨⟨_, _⟩, ys₁, ⟨rfl, -⟩, h₁, rfl⟩ := List.forall₂_cons_left_iff.1 h
    obtain ⟨⟨_, _⟩, ys₂, ⟨rfl, -⟩, h₂, rfl⟩ := List.forall₂_cons_left_iff.1 h₁
    obtain rfl := List.forall₂_nil_left_iff.1 h₂
    simp only [ofTokens, hbytes]
    rfl
  | case6 _ at_ s =>
    exact Matches.card .badHex hsource (hblame (at_, .literal s) (by simp)).1
  | case7 start length hC hX =>
    obtain ⟨start', ys₁, ⟨hstart, -⟩, h₁, rfl⟩ := List.forall₂_cons_left_iff.1 h
    obtain ⟨length', ys₂, ⟨hlength, -⟩, h₂, rfl⟩ := List.forall₂_cons_left_iff.1 h₁
    obtain rfl := List.forall₂_nil_left_iff.1 h₂
    rw [ofTokens_pair]
    · refine matches_fieldOf hsource hspot hstart hlength ?_
      cases default with
      | none => exact Matches.card .missingFormat hsource hspot
      | some f =>
        rw [hdefault f rfl]
        rfl
    · intro s hx hy
      exact hC start.1 length.1 s (Prod.ext rfl (hstart.trans hx)) (Prod.ext rfl (hlength.trans hy))
    · intro s hx hy
      exact hX start.1 length.1 s (Prod.ext rfl (hstart.trans hx)) (Prod.ext rfl (hlength.trans hy))
  | case8 start length at_ third =>
    obtain ⟨start', ys₁, ⟨hstart, -⟩, h₁, rfl⟩ := List.forall₂_cons_left_iff.1 h
    obtain ⟨length', ys₂, ⟨hlength, -⟩, h₂, rfl⟩ := List.forall₂_cons_left_iff.1 h₁
    obtain ⟨⟨at', _⟩, ys₃, ⟨rfl, hthird⟩, h₃, rfl⟩ := List.forall₂_cons_left_iff.1 h₂
    obtain rfl := List.forall₂_nil_left_iff.1 h₃
    simp only [ofTokens]
    refine matches_fieldOf hsource hspot hstart hlength ?_
    cases third with
    | word code =>
      cases hcode : FieldFormat.ofCode? code with
      | some f =>
        simp only [hcode]
        rfl
      | none =>
        simp only [hcode, hsource]
        exact hthird.2 code rfl hcode
    | literal | openParen | closeParen | semicolon =>
      exact Matches.card .noFieldFormat hsource hthird.1
  | case9 =>
    refine Matches.card .tooManyTokens hsource ?_
    cases hlast : xs.getLast? with
    | none => exact hspot
    | some x => exact (hblame x (List.mem_of_getLast? hlast)).1

/-- A semicolon ends an operand as the end of the card does. -/
theorem continuesAt_eq (h : P.Pair n c d) : continuesAt d = continuesAt c := by
  obtain ⟨t, hc, hd, -⟩ | ⟨-, hc | hc, hd | hd⟩ := current_cases h <;>
    simp [continuesAt, isEndedBy, hc, hd]

theorem continuesAt_of_zero (h : P.Pair 0 c d) : continuesAt c = false := by
  obtain ⟨hc | hc, -⟩ := P.of_zero h <;> simp [continuesAt, isEndedBy, hc]

theorem agree_takeToken (h : P.Pair n c d) (hc : continuesAt c = true) :
    P.Agree (fun a b m => (∃ x ∈ a, ∃ y ∈ b, IsBeside P x y) ∧ m < n) (takeToken c)
      (takeToken d) := by
  obtain ⟨t, hct, hdt, hn⟩ | ⟨rfl, -, -⟩ := current_cases h
  · have hblame := mayBlame h hct
    refine Agree.get ((Agree.advance h hn).bind ?_)
    intro _ _ m c' d' hm h
    refine Agree.pure h ⟨⟨(c.index, t), ?_, (d.index, t), ?_, rfl, hblame⟩, hm⟩
    · simp [hct]
    · simp [hdt]
  · rw [continuesAt_of_zero h] at hc
    cases hc

theorem forall₂_filterMap {as bs : List (Option Located)}
    (h : List.Forall₂ (fun a b => ∃ x ∈ a, ∃ y ∈ b, IsBeside P x y) as bs) :
    List.Forall₂ (IsBeside P) (as.filterMap id) (bs.filterMap id) := by
  induction h with
  | nil => exact .nil
  | cons hab _ ih =>
    obtain ⟨x, rfl, y, rfl, hxy⟩ := hab
    exact .cons hxy ih

theorem alike_onCard (hdefault : Extends default default') :
    P.Alike (fun _ => 0) (Operand.onCard encoding default) (Operand.onCard encoding default') := by
  intro n c₀ d₀ h
  have hspot := spot h
  refine Agree.get ?_
  refine (Agree.collect (fun _ _ _ => continuesAt_eq)
    (fun _ _ => continuesAt_of_zero) (fun _ _ _ => agree_takeToken) h).bind ?_
  rintro as bs m c d ⟨hall, hm⟩ h
  refine Agree.get ?_
  have hmatch : P.Matches (ofTokens encoding default c c₀.index (as.filterMap id))
      (ofTokens encoding default' d d₀.index (bs.filterMap id)) :=
    matches_ofTokens hdefault (P.source_eq h) hspot (forall₂_filterMap hall)
  cases hr : ofTokens encoding default c c₀.index (as.filterMap id) with
  | error f =>
    rw [hr] at hmatch
    exact hmatch
  | ok operand =>
    rw [hr] at hmatch
    simp only [show ofTokens encoding default' d d₀.index (bs.filterMap id) = .ok operand
      from hmatch]
    exact Alike.done h (by omega)

end Operand

/-! ## Conditions -/

namespace Filter

/-- A condition that nothing is joined to. -/
def simpleOnCard (encoding : Encoding) (default : Option FieldFormat) (onCard : Parser Filter) :
    Parser Filter := do
  if ← eat .openParen then do
    let inner ← onCard
    expect .closeParen
    pure inner
  else comparisonOnCard encoding default

/-- What may be joined to a condition that has been read: a condition behind `AND` or `OR`. -/
def joinOnCard (onCard : Parser Filter) (left : Filter) : Parser Filter := do
  if ← eatWord "AND" <||> eatWord "&" then do
    let right ← onCard
    pure (.and left right)
  else if ← eatWord "OR" <||> eatWord "|" then do
    let right ← onCard
    pure (.or left right)
  else pure left

theorem nestedOnCard_succ (encoding : Encoding) (default : Option FieldFormat) (fuel : Nat) :
    nestedOnCard encoding default (fuel + 1) = (do
      let left ← simpleOnCard encoding default (nestedOnCard encoding default fuel)
      joinOnCard (nestedOnCard encoding default fuel) left) := by
  rw [nestedOnCard, simpleOnCard, bind_assoc]
  refine congrArg _ (funext fun opened => ?_)
  cases opened with
  | false => rfl
  | true =>
    simp only [if_true, bind_assoc, pure_bind]
    rfl

theorem alike_comparisonOnCard (hdefault : Extends default default') :
    P.Alike (fun _ => 1) (comparisonOnCard encoding default)
      (comparisonOnCard encoding default') := by
  intro n c d h
  refine (Operand.alike_onCard hdefault).next h fun left m c d hm h => ?_
  refine Agree.get ?_
  simp only [word?_eq h]
  cases hop : c.word?.bind CompareOp.ofCode? with
  | none => exact Agree.fail h
  | some op =>
    obtain ⟨w, hw, -⟩ := Option.bind_eq_some_iff.1 hop
    refine (Agree.advance h (pos_of_word? h hw)).bind ?_
    intro _ _ k c d hk h
    refine (Operand.alike_onCard hdefault).next h fun right l c d hl h => ?_
    exact Alike.done h (by omega)

section Parts

variable {p q : Parser Filter} {k : Nat}
  (hnested : ∀ m c d, P.Pair m c d → m < k →
    P.Agree (fun a b l => a = b ∧ l + 1 ≤ m) (p c) (q d))
include hnested

theorem agree_simpleOnCard (hdefault : Extends default default') (h : P.Pair n c d) (hn : n ≤ k) :
    P.Agree (fun a b m => a = b ∧ m + 1 ≤ n) (simpleOnCard encoding default p c)
      (simpleOnCard encoding default' q d) := by
  refine (Alike.eat (by simp)).next h fun opened m c d hm h => ?_
  cases opened with
  | true =>
    simp only [Bool.toNat_true] at hm
    refine (hnested m c d h (by omega)).bind ?_
    rintro inner _ l c d ⟨rfl, hl⟩ h
    refine (Alike.expect (by simp)).next h fun _ i c d hi h => ?_
    exact Agree.pure h ⟨rfl, by omega⟩
  | false =>
    refine (alike_comparisonOnCard hdefault m c d h).mono ?_
    rintro left _ l ⟨rfl, hl⟩
    replace hl : l + 1 ≤ m := hl
    exact ⟨rfl, by omega⟩

theorem agree_joinOnCard (left : Filter) (h : P.Pair n c d) (hn : n ≤ k) :
    P.Agree (fun a b m => a = b ∧ m ≤ n) (joinOnCard p left c) (joinOnCard q left d) := by
  refine ((Alike.eatWord "AND").or (Alike.eatWord "&")).next h fun both m c d hm h => ?_
  cases both with
  | true =>
    simp only [Bool.toNat_true] at hm
    refine (hnested m c d h (by omega)).bind ?_
    rintro right _ l c d ⟨rfl, hl⟩ h
    exact Agree.pure h ⟨rfl, by omega⟩
  | false =>
    refine ((Alike.eatWord "OR").or (Alike.eatWord "|")).next h fun either l c d hl h => ?_
    cases either with
    | true =>
      simp only [Bool.toNat_true] at hl
      refine (hnested l c d h (by omega)).bind ?_
      rintro right _ i c d ⟨rfl, hi⟩ h
      exact Agree.pure h ⟨rfl, by omega⟩
    | false => exact Agree.pure h ⟨rfl, by omega⟩

end Parts

/-- A condition. The fuel of the second reading is enough for the tokens that are left; where
that of the first runs out, it ends with a fault. -/
theorem agree_nestedOnCard (hdefault : Extends default default') :
    ∀ fuel fuel' n c d, P.Pair n c d → n < fuel' →
      P.Agree (fun a b m => a = b ∧ m + 1 ≤ n) (nestedOnCard encoding default fuel c)
        (nestedOnCard encoding default' fuel' d) := by
  intro fuel
  induction fuel with
  | zero =>
    intro fuel' n c d h _
    exact Agree.fail h
  | succ fuel ih =>
    intro fuel' n c d h hn
    obtain ⟨fuel', rfl⟩ : ∃ k, fuel' = k + 1 := Nat.exists_eq_add_one.2 (by omega)
    rw [nestedOnCard_succ, nestedOnCard_succ]
    refine (agree_simpleOnCard (ih fuel') hdefault h (by omega)).bind ?_
    rintro left _ m c d ⟨rfl, hm⟩ h
    refine (agree_joinOnCard (ih fuel') left h (by omega)).mono ?_
    rintro a _ j ⟨rfl, hj⟩
    exact ⟨rfl, by omega⟩

theorem alike_onCard (hdefault : Extends default default') :
    P.Alike (fun _ => 1) (Filter.onCard encoding default) (Filter.onCard encoding default') := by
  intro n c d h
  have hsize := (P.le_size h).2
  exact agree_nestedOnCard hdefault _ _ n c d h (by omega)

theorem alike_wholeOnCard (hclosed : P.Closed) (hdefault : Extends default default') :
    P.Alike (fun _ => 0) (wholeOnCard encoding default) (wholeOnCard encoding default') := by
  intro n c d h
  refine Alike.skipFormat.next h fun _ m c d hm h => ?_
  refine (Alike.eatHead _).next h fun _ m c d hm h => ?_
  refine (alike_onCard hdefault).next h fun filter m c d hm h => ?_
  refine Alike.skipFormat.next h fun _ m c d hm h => ?_
  refine (Alike.expectEnd hclosed).next h fun _ m c d hm h => ?_
  exact Alike.done h (by omega)

end Filter

end CardSort
