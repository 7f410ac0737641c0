import CardSort.Filter
import CardSort.Proofs.Except
import CardSort.Proofs.Key.Order

/-!
# The algebra of conditions

Two operands are read in one way whatever the comparison asks of them. What has been found out
about them then settles all six comparisons, so the six cannot contradict each other.

* `CompareOp.negation`, `CompareOp.mirror` — the comparison that denies this one, and the one that
  says the same with the operands exchanged.
* `Finding` — what is found out about two operands, and `Finding.test`, what a comparison makes of
  it.
* `Condition.evaluate_eq_map` — a condition tests the finding of its operands.
* `Condition.finding_swap` — operands exchanged give the finding exchanged.
* `Condition.evaluate_laws` — **the laws of the six comparisons**, for every two operands.
-/

set_option autoImplicit false

namespace CardSort

/-! ## Comparisons -/

namespace CompareOp

/-- The comparison that holds where this one does not. -/
def negation : CompareOp → CompareOp
  | eq => ne
  | ne => eq
  | gt => le
  | ge => lt
  | lt => ge
  | le => gt

/-- The comparison that says the same of the operands exchanged. -/
def mirror : CompareOp → CompareOp
  | eq => eq
  | ne => ne
  | gt => lt
  | ge => le
  | lt => gt
  | le => ge

@[simp] theorem test_negation (op : CompareOp) (o : Ordering) :
    op.negation.test o = ! op.test o := by
  cases op <;> cases o <;> rfl

@[simp] theorem test_mirror (op : CompareOp) (o : Ordering) :
    op.mirror.test o.swap = op.test o := by
  cases op <;> cases o <;> rfl

end CompareOp

theorem paddedCompare_swap (pad : UInt8) (a b : Bytes) :
    paddedCompare pad b a = (paddedCompare pad a b).swap := by
  fun_induction paddedCompare pad a b with
  | case1 => rw [paddedCompare, Ordering.swap_eq]
  | case2 x xs ih => rw [paddedCompare, ih, Ordering.swap_then, Nat.compare_swap]
  | case3 y ys ih => rw [paddedCompare, ih, Ordering.swap_then, Nat.compare_swap]
  | case4 x xs y ys ih => rw [paddedCompare, ih, Ordering.swap_then, Nat.compare_swap]

/-! ## Findings -/

/-- What is found out about two operands: how they are ordered and, if exactly one of them is a
search field, whether it holds the other one. -/
structure Finding where
  order : Ordering
  held? : Option Bool

namespace Finding

/-- What a comparison makes of a finding. Only `EQ` and `NE` search. -/
def test (f : Finding) (op : CompareOp) : Bool :=
  match f.held? with
  | none => op.test f.order
  | some held =>
    match op with
    | .eq => held
    | .ne => ! held
    | op => op.test f.order

/-- The finding for the operands exchanged. -/
def swap (f : Finding) : Finding := { f with order := f.order.swap }

theorem test_negation (f : Finding) (op : CompareOp) : f.test op.negation = ! f.test op := by
  obtain ⟨o, held⟩ := f
  cases held with
  | none => exact op.test_negation o
  | some held => cases op <;> cases o <;> cases held <;> rfl

theorem test_swap (f : Finding) (op : CompareOp) : f.swap.test op.mirror = f.test op := by
  obtain ⟨o, held⟩ := f
  cases held with
  | none => exact op.test_mirror o
  | some held => cases op <;> cases o <;> rfl

end Finding

/-! ## Conditions test findings -/

/-- Two readings end alike in either order, except for the fault if both fail. -/
theorem read_both {ε α β γ δ : Type} (x : Except ε α) (y : Except ε β) (f : α → β → γ)
    (g : β → α → δ) :
    (∃ e e', (do let a ← x; let b ← y; pure (f a b)) = .error e ∧
        (do let b ← y; let a ← x; pure (g b a)) = .error e') ∨
      ∃ a b, (do let a ← x; let b ← y; pure (f a b)) = .ok (f a b) ∧
        (do let b ← y; let a ← x; pure (g b a)) = .ok (g b a) := by
  cases x with
  | error e =>
    cases y with
    | error e' => exact .inl ⟨e, e', rfl, rfl⟩
    | ok b => exact .inl ⟨e, e, rfl, rfl⟩
  | ok a =>
    cases y with
    | error e' => exact .inl ⟨e', e', rfl, rfl⟩
    | ok b => exact .inr ⟨a, b, rfl, rfl⟩

namespace Condition

/-- Whether the one search field among two operands holds the other one. -/
def held? (l r : Operand) (a b : Bytes) : Option Bool :=
  match l.isSearchField, r.isSearchField with
  | true, false => some (Bytes.occursIn b a)
  | false, true => some (Bytes.occursIn a b)
  | _, _ => none

/-- What is found out about two operands in a record. -/
def finding (l r : Operand) (enc : Encoding) (record : Bytes) : Except Fault Finding :=
  if (mk l .eq r enc).isText then do
    let a ← l.bytes enc record
    let b ← r.bytes enc record
    pure { order := paddedCompare enc.space a b, held? := held? l r a b }
  else do
    let a ← l.decimal enc record
    let b ← r.decimal enc record
    pure { order := a.compare b, held? := none }

variable (l r : Operand) (op : CompareOp) (enc : Encoding) (record : Bytes)

theorem testText_eq (a b : Bytes) : (mk l op r enc).testText a b =
    Finding.test { order := paddedCompare enc.space a b, held? := held? l r a b } op := by
  unfold testText search? held? Finding.test
  cases l.isSearchField <;> cases r.isSearchField <;> cases op <;> simp

/-- A condition tests the finding of its operands, which its comparison has no part in. -/
theorem evaluate_eq_map :
    (mk l op r enc).evaluate record = (finding l r enc record).map (·.test op) := by
  have htext : (mk l op r enc).isText = (mk l .eq r enc).isText := rfl
  unfold evaluate finding
  simp only [htext, testText_eq]
  split
  · cases l.bytes enc record with
    | error e => rfl
    | ok a => cases r.bytes enc record <;> rfl
  · cases l.decimal enc record with
    | error e => rfl
    | ok a => cases r.decimal enc record <;> rfl

/-! ## Operands exchanged -/

theorem isText_swap : (mk r .eq l enc).isText = (mk l .eq r enc).isText := by
  simp only [isText, Bool.or_comm r.isTextField, Bool.and_comm r.isConstant,
    Bool.or_comm r.isLiteral]

theorem held?_swap (a b : Bytes) : held? r l b a = held? l r a b := by
  unfold held?
  cases l.isSearchField <;> cases r.isSearchField <;> rfl

/-- Operands exchanged give the finding exchanged, or none as before. -/
theorem finding_swap :
    (∃ e e', finding l r enc record = .error e ∧ finding r l enc record = .error e') ∨
      ∃ f, finding l r enc record = .ok f ∧ finding r l enc record = .ok f.swap := by
  unfold finding
  rw [isText_swap]
  split
  · obtain hfail | ⟨a, b, hl, hr⟩ := read_both (l.bytes enc record) (r.bytes enc record)
      (fun a b => Finding.mk (paddedCompare enc.space a b) (held? l r a b))
      (fun b a => Finding.mk (paddedCompare enc.space b a) (held? r l b a))
    · exact .inl hfail
    · refine .inr ⟨_, hl, hr.trans ?_⟩
      rw [paddedCompare_swap, held?_swap, Finding.swap]
  · obtain hfail | ⟨a, b, hl, hr⟩ := read_both (l.decimal enc record) (r.decimal enc record)
      (fun a b => Finding.mk (a.compare b) none) (fun b a => Finding.mk (b.compare a) none)
    · exact .inl hfail
    · refine .inr ⟨_, hl, hr.trans ?_⟩
      rw [@Std.OrientedCmp.eq_swap _ Decimal.compare Decimal.transCmp_compare.toOrientedCmp b a,
        Finding.swap]

/-! ## Operands that are ordered -/

/-- Nothing is searched for unless exactly one operand is a search field. -/
theorem held?_eq_none {l r : Operand} (h : l.isSearchField = r.isSearchField) (a b : Bytes) :
    held? l r a b = none := by
  unfold held?
  rw [h]
  cases r.isSearchField <;> rfl

theorem finding_held? {l r : Operand} {enc : Encoding} {record : Bytes} {f : Finding}
    (h : l.isSearchField = r.isSearchField) (hf : finding l r enc record = .ok f) :
    f.held? = none := by
  unfold finding at hf
  split at hf
  · obtain ⟨a, -, hf⟩ := bind_eq_ok_iff.1 hf
    obtain ⟨b, -, hf⟩ := bind_eq_ok_iff.1 hf
    cases hf
    exact held?_eq_none h a b
  · obtain ⟨a, -, hf⟩ := bind_eq_ok_iff.1 hf
    obtain ⟨b, -, hf⟩ := bind_eq_ok_iff.1 hf
    cases hf
    rfl

/-- **The laws of the six comparisons.** A comparison and its negation never agree and fail alike.
A comparison and its mirror on the operands exchanged agree, or both fail. And the comparisons of
two operands all fail alike or all succeed; then, unless exactly one of the operands is a search
field, exactly one of `LT`, `EQ` and `GT` holds, and `GE` and `LE` are what they say. -/
theorem evaluate_laws :
    (∀ op : CompareOp, (mk l op.negation r enc).evaluate record =
        ((mk l op r enc).evaluate record).map (! ·)) ∧
      (∀ op : CompareOp,
        (∃ e e', (mk l op r enc).evaluate record = .error e ∧
            (mk r op.mirror l enc).evaluate record = .error e') ∨
          ∃ b, (mk l op r enc).evaluate record = .ok b ∧
            (mk r op.mirror l enc).evaluate record = .ok b) ∧
      ((∃ e, ∀ op, (mk l op r enc).evaluate record = .error e) ∨
        ∃ outcome : CompareOp → Bool,
          (∀ op, (mk l op r enc).evaluate record = .ok (outcome op)) ∧
            (l.isSearchField = r.isSearchField →
              [outcome .lt, outcome .eq, outcome .gt].count true = 1 ∧
                outcome .ge = (outcome .gt || outcome .eq) ∧
                outcome .le = (outcome .lt || outcome .eq))) := by
  refine ⟨fun op => ?_, fun op => ?_, ?_⟩
  · rw [evaluate_eq_map, evaluate_eq_map]
    cases finding l r enc record with
    | error e => rfl
    | ok f => exact congrArg Except.ok (f.test_negation op)
  · rw [evaluate_eq_map, evaluate_eq_map]
    obtain ⟨e, e', hl, hr⟩ | ⟨f, hl, hr⟩ := finding_swap l r enc record
    · exact .inl ⟨e, e', by rw [hl]; rfl, by rw [hr]; rfl⟩
    · refine .inr ⟨f.test op, by rw [hl]; rfl, ?_⟩
      rw [hr]
      exact congrArg Except.ok (f.test_swap op)
  · simp only [evaluate_eq_map]
    cases hf : finding l r enc record with
    | error e => exact .inl ⟨e, fun _ => rfl⟩
    | ok f =>
      refine .inr ⟨f.test, fun _ => rfl, fun h => ?_⟩
      obtain ⟨o, held⟩ := f
      obtain rfl : held = none := finding_held? h hf
      -- Without a search every comparison reads the order.
      cases o <;> decide

/-- A zoned field of `100` against the number 50. -/
theorem evaluate_laws_zoned :
    let condition (op : CompareOp) : Condition :=
      ⟨.field ⟨0, 3, .zd, .ascii⟩, op, .number ⟨false, 50, 0, by decide, by decide⟩, .ascii⟩
    ∃ outcome : CompareOp → Bool,
      (∀ op, (condition op).evaluate [0x31, 0x30, 0x30] = .ok (outcome op)) ∧
        [outcome .lt, outcome .eq, outcome .gt].count true = 1 ∧
        outcome .ge = (outcome .gt || outcome .eq) ∧
        outcome .le = (outcome .lt || outcome .eq) := by
  intro condition
  have hgt : (condition .gt).evaluate [0x31, 0x30, 0x30] = .ok true := by decide +kernel
  obtain ⟨-, -, ⟨e, hfail⟩ | ⟨outcome, hok, hlaws⟩⟩ := evaluate_laws
    (.field ⟨0, 3, .zd, .ascii⟩) (.number ⟨false, 50, 0, by decide, by decide⟩) .ascii
    [0x31, 0x30, 0x30]
  · have := hgt.symm.trans (hfail .gt)
    cases this
  · exact ⟨outcome, hok, hlaws (by decide)⟩

/-- A search field that holds the other operand and is below it satisfies both `EQ` and `LT`. -/
example :
    let condition (op : CompareOp) : Condition :=
      ⟨.field ⟨0, 3, .ss, .ascii⟩, op, .text [0x42], .ascii⟩
    (condition .eq).evaluate [0x41, 0x42, 0x43] = .ok true ∧
      (condition .lt).evaluate [0x41, 0x42, 0x43] = .ok true := by cbv

end Condition

end CardSort
