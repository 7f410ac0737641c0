import CardSort.Proofs.Deck.Clauses
import CardSort.Proofs.Destination.Blocks
import CardSort.Proofs.Filter.Combination
import Mathlib.Data.List.Nodup

/-!
# Records to include and records to omit

A deck has statements for the records to include and to omit, and a destination has operands for
them. Both have each of the two at most once and in any order, and both combine them into one filter
as `Filter.ofCards` does.

* `Destination.Selects` — the tokens of clauses among the operands of a destination.
* `Destination.Selects.reads` — **the clauses of a destination are read** one after the other, each
  into its own slot; `Destination.listOfCard_clauses` reads a whole operand.
* `Filter.passes_combine` — what a combined filter evaluates.
* `Filter.select_alike` — **decks, destinations and single operands select alike.**
-/

set_option autoImplicit false

namespace CardSort

open Card

/-! ## Destinations -/

namespace Destination

variable {encoding : Encoding} {default : Option FieldFormat} {included omitted : Option String}
  {i o : Option Filter} {clauses : List Clause} {s : Selection} {f : Filter} {d : Draft}
  {us ts rest : List Token} {ps : List (Selection × Filter)}

/-- The tokens are clauses, one behind the other. -/
inductive Selects (encoding : Encoding) : List Token → List (Selection × Filter) → Prop where
  | nil : Selects encoding [] []
  | cons {s : Selection} {f : Filter} {us ts : List Token} {ps : List (Selection × Filter)}
      (h : Filter.Denotes encoding none .whole us f) (hrest : Selects encoding ts ps) :
      Selects encoding (.word (Clause.word s) :: (us ++ ts)) ((s, f) :: ps)

/-- The filter of a kind that has been read. -/
def Draft.slot (d : Draft) : Selection → Option Filter
  | .included => d.included
  | .omitted => d.omitted

/-- The draft with one more filter. -/
def Draft.fill (d : Draft) : Selection × Filter → Draft
  | (.included, f) => { d with included := some f }
  | (.omitted, f) => { d with omitted := some f }

theorem Draft.slot_fill_of_ne {p q : Selection × Filter} (hne : q.1 ≠ p.1) :
    (d.fill p).slot q.1 = d.slot q.1 := by
  obtain ⟨s, f⟩ := p
  obtain ⟨t, g⟩ := q
  cases s <;> cases t
  · exact absurd rfl hne
  · rfl
  · rfl
  · exact absurd rfl hne

theorem Draft.fill_comm {p q : Selection × Filter} (hne : p.1 ≠ q.1) :
    (d.fill p).fill q = (d.fill q).fill p := by
  obtain ⟨s, f⟩ := p
  obtain ⟨t, g⟩ := q
  cases s <;> cases t
  · exact absurd rfl hne
  · rfl
  · rfl
  · exact absurd rfl hne

theorem reads_once {α : Type} {slot : Option α} (hempty : slot = none) (word : String)
    (index : Nat) : Reads (once slot word index) ts () ts := by
  subst hempty
  exact .pure

/-- A clause is read into its slot. -/
theorem reads_operandOnCard (h : Filter.Denotes encoding default .whole us f)
    (hrest : Filter.Follows .whole rest) (hempty : d.slot s = none) (word : String)
    (index : Nat) :
    Reads (operandOnCard encoding default d word index)
      (.word (Clause.word s) :: (us ++ rest)) (d.fill (s, f)) rest := by
  have hcondition := h.reads_onCard hrest
  cases s with
  | included =>
    exact Reads.eatHead.bind ((reads_once hempty _ _).bind (hcondition.bind .pure))
  | omitted =>
    have hother : Reads (eatHead "INCLUDE=") (.word (Clause.word .omitted) :: (us ++ rest)) false
        (.word (Clause.word .omitted) :: (us ++ rest)) := by
      refine .eatHead_other ?_
      rintro _ ⟨⟩
      decide
    exact hother.bind (Reads.eatHead.bind ((reads_once hempty _ _).bind (hcondition.bind .pure)))

theorem Selects.follows (h : Selects encoding ts ps) : Filter.Follows .whole ts := by
  cases h with
  | nil => exact ⟨nofun, fun _ _ _ => nofun⟩
  | @cons s f us ts ps _ _ =>
    refine ⟨?_, fun _ w hw => ?_⟩
    · rintro _ ⟨⟩
      cases s <;> decide
    · rintro ⟨⟩
      cases s <;> revert hw <;> decide

theorem Selects.isFormat (h : Selects encoding ts ps) : ∀ t ∈ ts, t.isFormat = false := by
  induction h with
  | nil => exact nofun
  | @cons s f us ts ps h _ ih =>
    have hword : (Token.word (Clause.word s)).isFormat = false := by cases s <;> decide
    simpa [or_imp, forall_and, hword] using ⟨h.isFormat, ih⟩

/-- **The clauses of a destination are read**, each into its own slot. By induction on the clauses:
what has been read leaves the slots of the others empty. -/
theorem Selects.reads (h : Selects encoding ts ps) {fuel : Nat} (hfuel : ts.length ≤ fuel)
    (hempty : ∀ p ∈ ps, d.slot p.1 = none) (hdistinct : (ps.map Prod.fst).Nodup) :
    Reads (operandsOnCard encoding none fuel d) ts (ps.foldl Draft.fill d) [] := by
  induction h generalizing d fuel with
  | nil =>
    cases fuel with
    | zero => exact .pure
    | succ fuel =>
      refine .get fun c hc => ?_
      simp only [hc.atEnd_nil, Bool.true_or, if_true]
      exact .pure
  | @cons s f us ts ps h hrest ih =>
    rw [List.length_cons, List.length_append] at hfuel
    obtain ⟨fuel, rfl⟩ : ∃ k, fuel = k + 1 := Nat.exists_eq_add_one.2 (by omega)
    rw [List.map_cons, List.nodup_cons] at hdistinct
    obtain ⟨hslot, hslots⟩ := List.forall_mem_cons.1 hempty
    have hfilled : ∀ p ∈ ps, (d.fill (s, f)).slot p.1 = none := by
      intro p hp
      have hne : p.1 ≠ s := by
        rintro rfl
        exact hdistinct.1 (List.mem_map.2 ⟨p, hp, rfl⟩)
      rw [Draft.slot_fill_of_ne hne]
      exact hslots p hp
    refine .get fun c hc => ?_
    have hoff : c.isOn .semicolon = false := hc.isOn_eq_false (by simp)
    simp only [hc.atEnd_cons, hoff, Bool.or_self, Bool.false_eq_true, if_false, hc.word?_eq,
      nextWord?]
    exact (reads_operandOnCard h hrest.follows hslot _ _).bind
      (ih (by omega) hfilled hdistinct.2)

theorem nodup_selections (i o : Option Filter) :
    ((Filter.selections i o).map Prod.fst).Nodup := by
  cases i <;> cases o <;> simp [Filter.selections]

/-- Filters of different kinds fill a draft in any order. -/
theorem foldl_fill (h : ps.Perm (Filter.selections i o)) :
    ps.foldl Draft.fill {} = { included := i, omitted := o } := by
  have hcomm : ∀ p ∈ Filter.selections i o, ∀ q ∈ Filter.selections i o, ∀ d : Draft,
      (d.fill p).fill q = (d.fill q).fill p := by
    intro p hp q hq d
    by_cases hkind : p.1 = q.1
    · rw [List.inj_on_of_nodup_map (nodup_selections i o) hp hq hkind]
    · exact Draft.fill_comm hkind
  rw [← h.symm.foldl_eq' hcomm]
  cases i <;> cases o <;> rfl

theorem Selects.reads_onCard (h : Selects encoding ts ps) (hps : ps.Perm (Filter.selections i o)) :
    Reads (onCard encoding none) ts { filter := Filter.combine i o } [] := by
  have hdraft : Reads (fun c => operandsOnCard encoding none c.size {} c) ts
      { included := i, omitted := o } [] := by
    intro c hc
    have hempty : ∀ p ∈ ps, ({} : Draft).slot p.1 = none := by
      rintro ⟨_ | _, f⟩ _ <;> rfl
    have hdistinct := (hps.map Prod.fst).nodup_iff.2 (nodup_selections i o)
    rw [← foldl_fill hps]
    exact h.reads hc.length_le_size hempty hdistinct c hc
  exact hdraft.bind .pure

/-! ## Whole operands -/

/-- Clauses behind one another, with commas between them, show their tokens. -/
theorem exists_selects (h : List.Forall₂ (Clause.Gives encoding) clauses ps) :
    ∃ ts, Renders ts (List.intercalate [','] (clauses.map fun c => c.operand.toList)) ∧
      Selects encoding ts ps := by
  induction h with
  | nil => exact ⟨[], .nil (by simp), .nil⟩
  | @cons c p clauses ps hc _ ih =>
    obtain ⟨us, hlexes, hus⟩ := hc.exists_lexes
    obtain ⟨ts, hts, hselects⟩ := ih
    refine ⟨.word (Clause.word p.1) :: (us ++ ts), ?_, .cons hus hselects⟩
    cases clauses with
    | nil =>
      obtain rfl := hts.unique (.nil (by simp))
      simpa using hlexes.renders
    | cons next clauses =>
      rw [List.map_cons, List.map_cons, List.intercalate_cons_cons, List.append_assoc]
      exact hlexes.renders.join rfl hts

theorem Selects.exists_cons (h : Selects encoding ts ps) (hne : ps ≠ []) :
    ∃ t us, ts = t :: us ∧ t ≠ .semicolon := by
  cases h with
  | nil => exact absurd rfl hne
  | cons => exact ⟨_, _, rfl, nofun⟩

/-- **A destination of clauses has the filter that combines them**, in whatever order they stand. -/
theorem listOfCard_clauses
    (hi : included.mapM (fun c => Filter.ofCard (Filter.operandOf c) encoding) = .ok i)
    (ho : omitted.mapM (fun c => Filter.ofCard (Filter.operandOf c) encoding) = .ok o)
    (hclauses : clauses.Perm (Clause.ofConditions included omitted)) (hne : clauses ≠ []) :
    listOfCard (",".intercalate (clauses.map Clause.operand)) encoding =
      .ok [{ filter := Filter.combine i o }] := by
  obtain ⟨ps, hgives, hps⟩ := Clause.exists_gives hi ho hclauses
  obtain ⟨ts, hrenders, hselects⟩ := exists_selects hgives
  have hlexes : Lexes (",".intercalate (clauses.map Clause.operand)).toList ts := by
    rw [String.toList_intercalate, List.map_map]
    exact hrenders.lexes
  have hformat : FirstFormat ts none := by
    have := FirstFormat.append hselects.isFormat .missing
    rwa [List.append_nil] at this
  have hpsne : ps ≠ [] := by
    rintro rfl
    cases hgives
    exact hne rfl
  obtain ⟨t, us, rfl, ht⟩ := hselects.exists_cons hpsne
  have hlist : Reads (fun c => listOnCard encoding none (c.size + 1) c) (t :: us)
      [{ filter := Filter.combine i o }] [] := by
    intro c hc
    obtain ⟨next, hnext, hat, hsource⟩ := hselects.reads_onCard hps c hc
    have hend : listOnCard encoding none c.size next = .ok [] next := listOnCard_nil hat _
    exact ⟨next, (listOnCard_cons_iff hc ht).2 ⟨_, next, [], hnext, hend, rfl⟩, hat, hsource⟩
  exact readWithFormat_eq_ok hlexes hformat hlist

end Destination

/-! ## Everywhere -/

namespace Filter

variable {config : Config} {included omitted : Option String} {i o : Option Filter}
  {clauses : List Clause}

/-- **Decks, destinations and single operands select alike.** Conditions to include and to omit, one
of each at most, give one filter: as the statements of a deck in any order, as the two operands of a
filter, and as the operands of a destination in any order. A record passes it if the condition to
include holds and the one to omit does not; where the first one does not hold, the second one does
not matter. -/
theorem select_alike
    (hi : included.mapM (fun c => ofCard (operandOf c) config.encoding) = .ok i)
    (ho : omitted.mapM (fun c => ofCard (operandOf c) config.encoding) = .ok o)
    (hclauses : clauses.Perm (Clause.ofConditions included omitted))
    (hsingle : ∀ c ∈ clauses, '\n' ∉ c.condition.toList) :
    Deck.ofText ("\n".intercalate (clauses.map Clause.statement)) config =
        .ok { mode := .copy, filter := combine i o } ∧
      ofCards (included.map operandOf) (omitted.map operandOf) config.encoding =
        .ok (combine i o) ∧
      (clauses ≠ [] →
        Destination.listOfCard (",".intercalate (clauses.map Clause.operand)) config.encoding =
          .ok [{ filter := combine i o }]) ∧
      ∀ record, (passes (combine i o) record = .ok true ↔
          passes i record = .ok true ∧ ∀ f ∈ o, f.evaluate record = .ok false) ∧
        (passes i record ≠ .ok true → ∀ o', passes (combine i o') record = passes i record) := by
  have hmap (condition : Option String) :
      (condition.map operandOf).mapM (fun text => ofCard text config.encoding) =
        condition.mapM fun c => ofCard (operandOf c) config.encoding := by
    cases condition <;> rfl
  refine ⟨Deck.ofText_clauses hi ho hclauses hsingle, ?_,
    Destination.listOfCard_clauses hi ho hclauses, fun record => ?_⟩
  · rw [ofCards, hmap, hi, ok_bind, hmap, ho]
    rfl
  · obtain ⟨hiff, hfirst⟩ := passes_combine i record
    exact ⟨hiff o, hfirst⟩

/-- Records with an `A` in byte 1, but without those with a number over 5 in bytes 2 and 3. -/
theorem select_alike_letter :
    let letter : Filter := .compare ⟨.field ⟨0, 1, .ch, .ascii⟩, .eq, .text [0x41], .ascii⟩
    let number : Filter := .compare
      ⟨.field ⟨1, 2, .zd, .ascii⟩, .gt, .number ⟨false, 5, 0, by decide, by decide⟩, .ascii⟩
    let filter : Option Filter := some (.and letter (.not number))
    Deck.ofText "OMIT COND=(2,2,ZD,GT,5)\nINCLUDE COND=(1,1,CH,EQ,C'A')" {} =
        .ok { mode := .copy, filter := filter } ∧
      ofCards (some (operandOf "1,1,CH,EQ,C'A'")) (some (operandOf "2,2,ZD,GT,5")) .ascii =
        .ok filter ∧
      Destination.listOfCard "OMIT=(2,2,ZD,GT,5),INCLUDE=(1,1,CH,EQ,C'A')" .ascii =
        .ok [{ filter := filter }] ∧
      ∀ record, passes filter record = .ok true ↔
        letter.evaluate record = .ok true ∧ number.evaluate record = .ok false := by
  intro letter number filter
  let clauses : List Clause := [⟨.omitted, "2,2,ZD,GT,5"⟩, ⟨.included, "1,1,CH,EQ,C'A'"⟩]
  have hletter : ofCard (operandOf "1,1,CH,EQ,C'A'") .ascii = .ok letter := by decide +kernel
  have hnumber : ofCard (operandOf "2,2,ZD,GT,5") .ascii = .ok number := by decide +kernel
  have hperm : clauses.Perm
      (Clause.ofConditions (some "1,1,CH,EQ,C'A'") (some "2,2,ZD,GT,5")) := .swap _ _ _
  have hsingle : ∀ c ∈ clauses, '\n' ∉ c.condition.toList := by decide +kernel
  obtain ⟨hdeck, hcards, hdestination, hrecord⟩ := @select_alike {} (some "1,1,CH,EQ,C'A'")
    (some "2,2,ZD,GT,5") (some letter) (some number) clauses
    (mapM_some_eq_ok_iff.2 ⟨letter, hletter, rfl⟩)
    (mapM_some_eq_ok_iff.2 ⟨number, hnumber, rfl⟩) hperm hsingle
  have hlines : "\n".intercalate (clauses.map Clause.statement) =
      "OMIT COND=(2,2,ZD,GT,5)\nINCLUDE COND=(1,1,CH,EQ,C'A')" := by decide +kernel
  have hoperands : ",".intercalate (clauses.map Clause.operand) =
      "OMIT=(2,2,ZD,GT,5),INCLUDE=(1,1,CH,EQ,C'A')" := by decide +kernel
  have hdestination := hdestination (List.cons_ne_nil _ _)
  rw [hlines] at hdeck
  rw [hoperands] at hdestination
  refine ⟨hdeck, hcards, hdestination, fun record => (hrecord record).1.trans ?_⟩
  refine and_congr_right fun _ => ⟨fun h => h number rfl, ?_⟩
  rintro h _ ⟨⟩
  exact h

end Filter

end CardSort
