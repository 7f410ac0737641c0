import CardSort.Proofs.Deck.Order
import CardSort.Proofs.Deck.Spacing
import CardSort.Proofs.Filter.Grammar
import Mathlib.Data.List.Perm.Basic

/-!
# Conditions in statements

A condition in parentheses selects records as the operand of a statement of a deck, behind `COND=`,
and as an operand of a destination, behind its keyword. Its tokens are the same in both places.

* `Selection`, `Clause` — a condition, and what becomes of the records that satisfy it.
* `Clause.Gives` — the filter that the condition of a clause is read as.
* `Clause.Gives.exists_lexes` — the tokens of a clause among the operands of a destination.
* `Clause.exists_gives` — clauses in some order give filters in that order.
* `Text.lines_intercalate` — lines joined by line feeds.
* `Deck.ofText_clauses` — **a deck of clauses has the filter that combines them**.
-/

set_option autoImplicit false

namespace CardSort

open Card

/-! ## Clauses -/

/-- What becomes of the records that satisfy a condition: only they are kept, or they are left
out. -/
inductive Selection where
  | included
  | omitted
deriving DecidableEq

/-- The keyword on cards. -/
def Selection.keyword : Selection → String
  | included => "INCLUDE"
  | omitted => "OMIT"

/-- The operand of a statement with the condition. -/
def Filter.operandOf (condition : String) : String := "COND=(" ++ condition ++ ")"

/-- A condition, and what becomes of the records that satisfy it. -/
structure Clause where
  selection : Selection
  condition : String

namespace Clause

/-- The clause as a statement of a deck. -/
def statement (c : Clause) : String := c.selection.keyword ++ " " ++ Filter.operandOf c.condition

/-- The clause as an operand of a destination. -/
def operand (c : Clause) : String := c.selection.keyword ++ "=(" ++ c.condition ++ ")"

/-- The clauses of two optional conditions. -/
def ofConditions (included omitted : Option String) : List Clause :=
  included.toList.map (⟨.included, ·⟩) ++ omitted.toList.map (⟨.omitted, ·⟩)

/-- The condition of the clause is read as the filter. -/
structure Gives (encoding : Encoding) (c : Clause) (p : Selection × Filter) : Prop where
  selection : p.1 = c.selection
  filter : Filter.ofCard (Filter.operandOf c.condition) encoding = .ok p.2

end Clause

/-- The filters of two optional conditions. -/
def Filter.selections (included omitted : Option Filter) : List (Selection × Filter) :=
  included.toList.map (.included, ·) ++ omitted.toList.map (.omitted, ·)

/-! ## Tokens of clauses -/

section Tokens

variable {ts us : List Token} {cs : List Char} {encoding : Encoding}

/-- A word in front of a parenthesis is a token of its own. -/
theorem Card.lexes_word_iff {w : String} (hw : (Token.word w).WellFormed) :
    Lexes (w.toList ++ '(' :: cs) ts ↔ ∃ us, ts = .word w :: us ∧ Lexes ('(' :: cs) us := by
  have hread : Lexeme.read ((w.toList ++ '(' :: cs).dropWhile isSeparator) =
      .token (.word w) ('(' :: cs) := by
    obtain ⟨c, rest, hc⟩ := List.exists_cons_of_ne_nil (Token.render_ne_nil hw)
    have hseparator := Token.isSeparator_false_of_render hw hc
    rw [Token.render] at hc
    have hstart : (w.toList ++ '(' :: cs).dropWhile isSeparator = w.toList ++ '(' :: cs := by
      simp [hc, hseparator]
    rw [hstart]
    refine Lexeme.read_render (t := .word w) hw ?_
    rintro _ ⟨⟩
    rfl
  constructor
  · intro h
    cases h with
    | finished h => cases hread.symm.trans h
    | token h hmore =>
      cases hread.symm.trans h
      exact ⟨_, rfl, hmore⟩
  · rintro ⟨us, rfl, h⟩
    exact .token hread h

/-- A text that ends with a closing parenthesis shows one as its last token. -/
theorem Card.Renders.getLast?_closeParen (h : Renders ts cs) (hcs : cs.getLast? = some ')') :
    ts.getLast? = some .closeParen := by
  induction h with
  | nil hgap =>
    have := hgap _ (List.mem_of_getLast? hcs)
    cases this
  | @cons gap cs t ts hgap ht hrest hapart ih =>
    rw [getLast?_append_right (by simp [Token.render_ne_nil ht])] at hcs
    obtain rfl | hne := eq_or_ne cs []
    · obtain rfl : ts = [] := hrest.unique (.nil (by simp))
      rw [List.append_nil] at hcs
      cases t with
      | word w =>
        cases Token.endsWord_eq_false ht (List.mem_of_getLast? hcs)
      | literal text =>
        rw [Token.render, ← List.cons_append, List.getLast?_concat] at hcs
        cases hcs
      | openParen | semicolon => cases hcs
      | closeParen => rfl
    · rw [getLast?_append_right hne] at hcs
      have hlast := ih hcs
      rw [List.getLast?_cons, hlast]
      rfl

end Tokens

/-- A condition that is read as the operand of a statement is one of the grammar, in
parentheses. -/
theorem Filter.exists_denotes_of_ofCard {condition : String} {f : Filter} {encoding : Encoding}
    (h : ofCard (operandOf condition) encoding = .ok f) :
    ∃ us, Lexes ('(' :: (condition.toList ++ [')'])) us ∧ Denotes encoding none .whole us f := by
  have htext : (operandOf condition).toList =
      "COND=".toList ++ '(' :: (condition.toList ++ [')']) := by simp [operandOf]
  obtain ⟨default, -, hread⟩ := bind_eq_ok_iff.1 h
  obtain ⟨ts, hts⟩ := ((Deck.closes_filter default).readsWhole fun _ hclosed =>
    alike_wholeOnCard hclosed (.refl default)).lexes hread
  have hcond : (Token.word "COND=").WellFormed := ⟨by decide, by decide⟩
  obtain ⟨us, rfl, hus⟩ := (lexes_word_iff hcond).1 (htext ▸ hts)
  have hlast : us.getLast? = some .closeParen := by
    refine hus.renders.getLast?_closeParen ?_
    rw [← List.cons_append, List.getLast?_concat]
  exact ⟨us, hus, (ofCard_eq_ok_iff hts hlast).1 h⟩

namespace Clause

variable {encoding : Encoding} {included omitted : Option String} {i o : Option Filter}
  {clauses : List Clause}

/-- The word that opens a clause among the operands of a destination. -/
def word (s : Selection) : String := s.keyword ++ "="

theorem wellFormed_word (s : Selection) : (Token.word (word s)).WellFormed := by
  cases s <;> exact ⟨by decide, by decide⟩

/-- The tokens of a clause as an operand of a destination. -/
theorem Gives.exists_lexes {c : Clause} {p : Selection × Filter} (h : c.Gives encoding p) :
    ∃ us, Lexes c.operand.toList (.word (word p.1) :: us) ∧
      Filter.Denotes encoding none .whole us p.2 := by
  obtain ⟨us, hlexes, hus⟩ := Filter.exists_denotes_of_ofCard h.filter
  have htext : c.operand.toList =
      (word p.1).toList ++ '(' :: (c.condition.toList ++ [')']) := by
    simp [operand, word, h.selection]
  refine ⟨us, ?_, hus⟩
  rw [htext]
  exact (lexes_word_iff (wellFormed_word p.1)).2 ⟨us, rfl, hlexes⟩

theorem gives_of_mapM {condition : Option String} {f : Option Filter} (s : Selection)
    (h : condition.mapM (fun c => Filter.ofCard (Filter.operandOf c) encoding) = .ok f) :
    List.Forall₂ (Gives encoding) (condition.toList.map (⟨s, ·⟩)) (f.toList.map (s, ·)) := by
  cases condition with
  | none =>
    cases h
    exact .nil
  | some condition =>
    obtain ⟨f, hf, rfl⟩ := mapM_some_eq_ok_iff.1 h
    exact .cons ⟨rfl, hf⟩ .nil

/-- Clauses in some order give filters in that order. -/
theorem exists_gives
    (hi : included.mapM (fun c => Filter.ofCard (Filter.operandOf c) encoding) = .ok i)
    (ho : omitted.mapM (fun c => Filter.ofCard (Filter.operandOf c) encoding) = .ok o)
    (hclauses : clauses.Perm (ofConditions included omitted)) :
    ∃ ps, List.Forall₂ (Gives encoding) clauses ps ∧ ps.Perm (Filter.selections i o) :=
  List.perm_comp_forall₂ hclauses (List.rel_append (gives_of_mapM _ hi) (gives_of_mapM _ ho))

end Clause

/-! ## Lines -/

namespace Text

theorem linesFrom_append {line : List Char} (h : '\n' ∉ line) (reversed rest : List Char) :
    linesFrom reversed (line ++ rest) = linesFrom (line.reverse ++ reversed) rest := by
  induction line generalizing reversed with
  | nil => rfl
  | cons c line ih =>
    rw [List.mem_cons, not_or] at h
    rw [List.cons_append, linesFrom, if_neg (Ne.symm h.1), ih h.2]
    simp

/-- Lines joined by line feeds, if no line is empty or ends with a carriage return. -/
theorem lines_intercalate {ls : List (List Char)}
    (h : ∀ l ∈ ls, '\n' ∉ l ∧ ∃ c ∈ l.getLast?, c ≠ '\r') :
    lines (List.intercalate ['\n'] ls) = ls := by
  have hfeed (line rest : List Char) (h : '\n' ∉ line) :
      lines (line ++ '\n' :: rest) = dropReturn line :: lines rest := by
    rw [lines, linesFrom_append h, linesFrom]
    simp [lines]
  induction ls with
  | nil => rfl
  | cons line ls ih =>
    obtain ⟨⟨hline, c, hc, hne⟩, hls⟩ := List.forall_mem_cons.1 h
    cases ls with
    | nil =>
      have hcons : line.reverse.isEmpty = false := by
        cases line with
        | nil => cases hc
        | cons => simp
      have := linesFrom_append hline [] []
      rw [List.append_nil, List.append_nil] at this
      rw [List.intercalate_singleton, lines, this, linesFrom, hcons]
      simp
    | cons next ls =>
      have hreturn : dropReturn line = line := by
        unfold dropReturn
        rw [Option.mem_def.1 hc]
        split
        · rename_i heq
          exact absurd (Option.some.inj heq) hne
        · rfl
      rw [List.intercalate_cons_cons, List.append_assoc, List.singleton_append, hfeed _ _ hline,
        ih hls, hreturn]

end Text

/-! ## Decks -/

namespace Deck

variable {config : Config} {included omitted : Option String} {i o : Option Filter}
  {clauses : List Clause} {d : Draft} {c : Clause}

theorem toList_statement (c : Clause) : c.statement.toList =
    c.selection.keyword.toList ++ ' ' :: (Filter.operandOf c.condition).toList := by
  simp [Clause.statement]

theorem keyword_mem (s : Selection) : s.keyword ∈ keywords := by
  cases s <;> decide

theorem isBlank_keyword (s : Selection) : ∀ c ∈ s.keyword.toList, Text.isBlank c = false :=
  fun c hc => ((isKeywordChar_of_mem (keyword_mem s)).2 c hc).isBlank

theorem keyword_statement (c : Clause) :
    (Statement.of c.statement).keyword = c.selection.keyword ∧
      (Statement.of c.statement).operand = Filter.operandOf c.condition := by
  have hstart : Text.trimStart (' ' :: (Filter.operandOf c.condition).toList) =
      (Filter.operandOf c.condition).toList := by
    simp [Filter.operandOf, Text.trimStart, Text.isBlank]
  have hspace : ∀ b ∈ (' ' :: (Filter.operandOf c.condition).toList).head?,
      Text.isBlank b = true := by
    rintro _ ⟨⟩
    rfl
  have h := Statement.of_append (isBlank_keyword c.selection) hspace
  rw [← toList_statement, String.ofList_toList, String.ofList_toList, hstart,
    String.ofList_toList] at h
  exact h

/-- The filter of a kind that has been read. -/
def Draft.slot (d : Draft) : Selection → Option Filter
  | .included => d.included
  | .omitted => d.omitted

/-- The draft with one more filter. -/
def Draft.fill (d : Draft) : Selection → Filter → Draft
  | .included, f => { d with included := some f }
  | .omitted, f => { d with omitted := some f }

/-- The statement of a clause fills the slot of its kind. -/
theorem take_clause {s : Selection} {condition : String} {f : Filter} (hempty : d.slot s = none)
    (hf : Filter.ofCard (Filter.operandOf condition) config.encoding = .ok f) :
    d.take config (Statement.of (Clause.mk s condition).statement) = .ok (d.fill s f) := by
  obtain ⟨hkeyword, hoperand⟩ := keyword_statement ⟨s, condition⟩
  unfold Draft.take
  rw [hkeyword, hoperand]
  cases s with
  | included => exact Statement.slot_eq_ok_iff.2 ⟨hempty, f, hf, rfl⟩
  | omitted => exact Statement.slot_eq_ok_iff.2 ⟨hempty, f, hf, rfl⟩

/-- An optional condition fills its slot or says nothing. -/
theorem foldlM_take_condition {s : Selection} {condition : Option String} {f : Option Filter}
    (hempty : d.slot s = none)
    (h : condition.mapM (fun c => Filter.ofCard (Filter.operandOf c) config.encoding) = .ok f) :
    ((condition.toList.map (Clause.mk s)).map fun c => Statement.of c.statement).foldlM
      (Draft.take config) d = .ok (f.elim d (d.fill s)) := by
  cases condition with
  | none =>
    cases h
    rfl
  | some condition =>
    obtain ⟨f, hf, rfl⟩ := mapM_some_eq_ok_iff.1 h
    exact bind_eq_ok_iff.2 ⟨_, take_clause hempty hf, rfl⟩

section Conditions

variable
  (hi : included.mapM (fun c => Filter.ofCard (Filter.operandOf c) config.encoding) = .ok i)
  (ho : omitted.mapM (fun c => Filter.ofCard (Filter.operandOf c) config.encoding) = .ok o)
include hi ho

theorem foldlM_take_ofConditions :
    ((Clause.ofConditions included omitted).map fun c => Statement.of c.statement).foldlM
      (Draft.take config) {} = .ok { included := i, omitted := o } := by
  have hempty : (i.elim {} (Draft.fill {} .included)).slot .omitted = none := by
    cases i <;> rfl
  have hfilled : o.elim (i.elim {} (Draft.fill {} .included))
      ((i.elim {} (Draft.fill {} .included)).fill .omitted) =
        { included := i, omitted := o } := by
    cases i <;> cases o <;> rfl
  rw [Clause.ofConditions, List.map_append, List.foldlM_append, bind_eq_ok_iff]
  refine ⟨_, foldlM_take_condition rfl hi, ?_⟩
  rw [foldlM_take_condition hempty ho, hfilled]

/-- Clauses in any order fill their slots. -/
theorem foldlM_take_clauses (hclauses : clauses.Perm (Clause.ofConditions included omitted)) :
    (clauses.map fun c => Statement.of c.statement).foldlM (Draft.take config) {} =
      .ok { included := i, omitted := o } := by
  have hnone (keyword : String) (hkeyword : ∀ s : Selection, s.keyword ≠ keyword)
      (clauses : List Clause) :
      ofKeyword keyword (clauses.map fun c => Statement.of c.statement) = [] := by
    refine List.filter_eq_nil_iff.2 fun s hs => ?_
    obtain ⟨c, -, rfl⟩ := List.mem_map.1 hs
    rw [(keyword_statement c).1, decide_eq_true_iff]
    exact hkeyword c.selection
  have houtfil := hnone "OUTFIL" (by rintro (_ | _) <;> decide)
  have hoption := hnone "OPTION" (by rintro (_ | _) <;> decide)
  exact foldlM_take_perm (hclauses.symm.map _) (by rw [houtfil, houtfil])
    (by rw [hoption, hoption]) (foldlM_take_ofConditions hi ho)

end Conditions

theorem trim_statement (c : Clause) : Text.trim c.statement.toList = c.statement.toList := by
  have hne := (isKeywordChar_of_mem (keyword_mem c.selection)).1
  rw [toList_statement, Text.trim_append (isBlank_keyword c.selection) hne]
  simp [Filter.operandOf, Text.trimEnd, Text.isBlank]

theorem isCode_statement (c : Clause) : isCode c.statement.toList = true := by
  obtain ⟨s, condition⟩ := c
  rw [isCode, trim_statement, toList_statement]
  cases s <;> simp [Selection.keyword]

theorem isIndented_statement (c : Clause) : isIndented c.statement.toList = false := by
  obtain ⟨s, condition⟩ := c
  rw [toList_statement]
  cases s <;> simp [Selection.keyword, isIndented]

theorem continues_nil : ∀ line ∈ ([] : List (List Char)), isCode line = true →
    isIndented line = true ∧ opensStatement (Text.trim line) = false :=
  nofun

/-- The line of a clause. -/
def clauseBlock (c : Clause) : Block where
  head := c.statement.toList
  tail := []
  head_isCode := isCode_statement c
  head_isIndented := isIndented_statement c
  tail_continues := continues_nil

/-- **A deck of clauses has the filter that combines them**, in whatever order they stand. -/
theorem ofText_clauses
    (hi : included.mapM (fun c => Filter.ofCard (Filter.operandOf c) config.encoding) = .ok i)
    (ho : omitted.mapM (fun c => Filter.ofCard (Filter.operandOf c) config.encoding) = .ok o)
    (hclauses : clauses.Perm (Clause.ofConditions included omitted))
    (hsingle : ∀ c ∈ clauses, '\n' ∉ c.condition.toList) :
    ofText ("\n".intercalate (clauses.map Clause.statement)) config =
      .ok { mode := .copy, filter := Filter.combine i o } := by
  have hlines : Text.lines ("\n".intercalate (clauses.map Clause.statement)).toList =
      clauses.map fun c => c.statement.toList := by
    rw [String.toList_intercalate, List.map_map]
    refine Text.lines_intercalate fun line hmem => ?_
    obtain ⟨c, hc, rfl⟩ := List.mem_map.1 hmem
    have hkeyword : '\n' ∉ c.selection.keyword.toList := by cases c.selection <;> decide
    have hline : c.statement.toList =
        (c.selection.keyword.toList ++ " COND=(".toList ++ c.condition.toList) ++ [')'] := by
      simp [toList_statement, Filter.operandOf]
    rw [Function.comp_apply, hline]
    exact ⟨by simpa [hkeyword] using hsingle c hc, ')', List.getLast?_concat, by decide⟩
  have hlaid : Laid ("\n".intercalate (clauses.map Clause.statement))
      (clauses.map clauseBlock) := by
    refine ⟨[], ?_, by simp⟩
    rw [hlines, List.flatMap_map, List.nil_append]
    exact (List.flatMap_pure_eq_map _ _).symm
  refine (ofText_of_laid hlaid).2 ⟨{ included := i, omitted := o }, ?_, rfl⟩
  have hstatements : statementsOf (clauses.map clauseBlock) =
      clauses.map fun c => Statement.of c.statement := by
    rw [statementsOf, List.map_map, List.map_map]
    refine List.map_congr_left fun c _ => ?_
    simp [Block.text, clauseBlock, trim_statement]
  rw [hstatements]
  exact foldlM_take_clauses hi ho hclauses

end Deck

end CardSort
