import CardSort.Proofs.Card.Spacing
import CardSort.Proofs.Deck.Order
import CardSort.Proofs.Destination.Pairing
import CardSort.Proofs.Key.Pairing
import Mathlib.Data.List.DropRight

/-!
# Statements with other blanks

A statement may be cut next to blanks and commas that stand outside literals, and joined again by
blanks, and still says the same: its operand shows the same tokens, or the same words if it is one
of options.

* `Cuttable` — where a statement may be cut; `Pieces`, a statement in pieces.
* `Spaced` — **what is read from a text alike, whatever the blanks in it**: the tokens of a card
  (`spaced_tokens`), and the words of options (`spaced_optionWords`).
* `Statement.of_append`, `Statement.exists_tail` — keyword and operand.
* `comparer_congr` and the like — operands with the same tokens.
-/

set_option autoImplicit false

namespace CardSort

open Card

/-! ## Blanks at the ends of a text -/

namespace Text

variable {a b : List Char}

/-- The only blank of the text is the space. -/
def OnlySpaces (cs : List Char) : Prop := ∀ c ∈ cs, isBlank c = true → c = ' '

/-- Of the printable characters of ASCII, only the space is a blank. -/
theorem eq_space_of_printable {c : Char} (hc : ' ' ≤ c ∧ c ≤ '~') (hblank : isBlank c = true) :
    c = ' ' := by
  have hlow : 32 ≤ c.toNat := hc.1
  have hhigh : c.toNat ≤ 126 := hc.2
  have hspace : c.toNat = 32 := by
    simp only [isBlank, Bool.or_eq_true, Bool.and_eq_true, decide_eq_true_eq] at hblank
    omega
  exact Char.ext (UInt32.toNat.inj hspace)

theorem OnlySpaces.of_subset (h : OnlySpaces b) (hsub : a ⊆ b) : OnlySpaces a :=
  fun c hc => h c (hsub hc)

theorem trimStart_append (ha : ∀ c ∈ a.head?, isBlank c = false) (hne : a ≠ []) :
    trimStart (a ++ b) = a ++ b := by
  obtain ⟨c, a, rfl⟩ := List.exists_cons_of_ne_nil hne
  simp [trimStart, ha c rfl]

theorem trimEnd_append (ha : ∀ c ∈ a, isBlank c = false) : trimEnd (a ++ b) = a ++ trimEnd b := by
  have hself : a.reverse.dropWhile isBlank = a.reverse := by
    cases hrev : a.reverse with
    | nil => rfl
    | cons c cs =>
      have hc : c ∈ a := List.mem_reverse.1 (hrev ▸ List.mem_cons_self)
      simp [ha c hc]
  rw [trimEnd, List.reverse_append, List.dropWhile_append, hself]
  split
  · next hempty =>
    rw [trimEnd, List.isEmpty_iff.1 hempty]
    simp
  · rw [List.reverse_append, List.reverse_reverse, trimEnd]

theorem trimEnd_prefix_self (cs : List Char) : trimEnd cs <+: cs :=
  List.rdropWhile_prefix isBlank cs

theorem trimStart_subset (cs : List Char) : trimStart cs ⊆ cs :=
  (List.dropWhile_suffix isBlank).subset

theorem trim_subset (cs : List Char) : trim cs ⊆ cs :=
  List.Subset.trans (trimEnd_prefix_self _).subset (trimStart_subset cs)

/-- A word in front of a text stays when the text is trimmed. -/
theorem trim_append (ha : ∀ c ∈ a, isBlank c = false) (hne : a ≠ []) :
    trim (a ++ b) = a ++ trimEnd b := by
  rw [trim, trimStart_append (fun c hc => ha c (List.mem_of_mem_head? hc)) hne, trimEnd_append ha]

end Text

namespace Deck

variable {τ : Type} {ts us : List τ} {a b cs : List Char}

/-! ## Pieces of a statement -/

/-- A statement may be cut next to a blank or a comma that stands outside quotes. -/
structure Cuttable (before after : List Char) : Prop where
  outside : Even (before.count quote)
  beside : (∃ c ∈ before.getLast?, c = ' ' ∨ c = ',') ∨ ∃ c ∈ after.head?, c = ' ' ∨ c = ','

/-- A statement in pieces. -/
inductive Pieces : List Char → List (List Char) → Prop where
  | whole (cs : List Char) : Pieces cs [cs]
  | cut {piece rest : List Char} {pieces : List (List Char)} (h : Cuttable piece rest)
      (hrest : Pieces rest pieces) : Pieces (piece ++ rest) (piece :: pieces)

/-- What is read from a text alike, whatever the blanks in it: a cut parts what is read, and a
blank adds nothing to it. -/
structure Spaced (Shows : List Char → List τ → Prop) : Prop where
  nil : Shows [] []
  split {a b : List Char} {ts : List τ} : Shows (a ++ b) ts → Cuttable a b →
    ∃ ts₁ ts₂, ts = ts₁ ++ ts₂ ∧ Shows a ts₁ ∧ Shows b ts₂
  join {a b : List Char} {ts us : List τ} : Shows a ts → Shows b us →
    Shows (a ++ ' ' :: b) (ts ++ us)
  of_append_blank {a : List Char} {ts : List τ} : Shows (a ++ [' ']) ts → Shows a ts
  unique {a : List Char} {ts us : List τ} : Shows a ts → Shows a us → ts = us

namespace Spaced

variable {Shows : List Char → List τ → Prop}

theorem cons_blank_iff (hS : Spaced Shows) : Shows (' ' :: a) ts ↔ Shows a ts := by
  refine ⟨fun h => ?_, fun h => hS.join hS.nil h⟩
  have hcut : Cuttable [' '] a := ⟨⟨0, rfl⟩, .inl ⟨' ', rfl, .inl rfl⟩⟩
  obtain ⟨ts₁, ts₂, rfl, h₁, h₂⟩ := hS.split (a := [' ']) h hcut
  have hnone : Shows [' '] [] := hS.join hS.nil hS.nil
  rwa [hS.unique h₁ hnone]

theorem trimStart_iff (hS : Spaced Shows) (ha : Text.OnlySpaces a) :
    Shows (Text.trimStart a) ts ↔ Shows a ts := by
  induction a with
  | nil => rfl
  | cons c a ih =>
    cases hc : Text.isBlank c with
    | false => simp [Text.trimStart, hc]
    | true =>
      obtain rfl := ha c List.mem_cons_self hc
      rw [hS.cons_blank_iff, ← ih (ha.of_subset (List.subset_cons_self ..))]
      simp [Text.trimStart, hc]

/-- By induction on the text, its end first. -/
theorem trimEnd (hS : Spaced Shows) (ha : Text.OnlySpaces a) (h : Shows a ts) :
    Shows (Text.trimEnd a) ts := by
  induction a using List.reverseRecOn with
  | nil => exact h
  | append_singleton a c ih =>
    cases hc : Text.isBlank c with
    | false => simpa [Text.trimEnd, hc] using h
    | true =>
      obtain rfl := ha c (by simp) hc
      have := ih (ha.of_subset (List.subset_append_left ..)) (hS.of_append_blank h)
      simpa [Text.trimEnd, hc] using this

theorem trim (hS : Spaced Shows) (ha : Text.OnlySpaces a) (h : Shows a ts) :
    Shows (Text.trim a) ts :=
  hS.trimEnd (ha.of_subset (Text.trimStart_subset a)) ((hS.trimStart_iff ha).2 h)

/-- What is read from a statement is read from its pieces, one after the other. -/
theorem pieces (hS : Spaced Shows) {pieces : List (List Char)} (hpieces : Pieces cs pieces)
    (h : Shows cs ts) : ∃ tss, List.Forall₂ Shows pieces tss ∧ ts = tss.flatten := by
  induction hpieces generalizing ts with
  | whole cs => exact ⟨[ts], .cons h .nil, by simp⟩
  | cut hcut _ ih =>
    obtain ⟨ts₁, ts₂, rfl, h₁, h₂⟩ := hS.split h hcut
    obtain ⟨tss, hall, rfl⟩ := ih h₂
    exact ⟨ts₁ :: tss, .cons h₁ hall, by simp⟩

end Spaced

/-! ## Tokens -/

theorem isSeparator_of_cut {c : Char} (h : c = ' ' ∨ c = ',') : isSeparator c = true := by
  obtain rfl | rfl := h <;> rfl

theorem spaced_tokens : Spaced fun cs ts => Renders ts cs where
  nil := .nil (by simp)
  split h hcut := by
    refine h.split hcut.outside ?_
    exact hcut.beside.imp (fun ⟨c, hc, h⟩ => ⟨c, hc, isSeparator_of_cut h⟩)
      fun ⟨c, hc, h⟩ => ⟨c, hc, isSeparator_of_cut h⟩
  join h h' := h.join rfl h'
  of_append_blank h := h.of_append_separator rfl
  unique := Renders.unique

/-! ## Words of options -/

/-- Whether a word of options ends at the character. -/
def endsOption (c : Char) : Bool := c = ',' || Text.isBlank c

theorem optionWords_eq (cs : List Char) : optionWords cs =
    ((cs.splitOnP endsOption).filter (! ·.isEmpty)).map String.ofList := rfl

@[simp] theorem optionWords_nil : optionWords [] = [] := rfl

theorem optionWords_append_cons {c : Char} (hc : endsOption c = true) :
    optionWords (a ++ c :: b) = optionWords a ++ optionWords b := by
  simp only [optionWords_eq, List.splitOnP_append_cons _ _ hc, List.filter_append, List.map_append]

theorem optionWords_append_singleton {c : Char} (hc : endsOption c = true) :
    optionWords (a ++ [c]) = optionWords a := by
  rw [optionWords_append_cons hc, optionWords_nil, List.append_nil]

theorem optionWords_cons {c : Char} (hc : endsOption c = true) :
    optionWords (c :: b) = optionWords b :=
  optionWords_append_cons (a := []) hc

theorem optionWords_append (h : (∃ c ∈ a.getLast?, endsOption c = true) ∨
    ∃ c ∈ b.head?, endsOption c = true) :
    optionWords (a ++ b) = optionWords a ++ optionWords b := by
  obtain ⟨c, hlast, hc⟩ | ⟨c, hhead, hc⟩ := h
  · obtain ⟨a, rfl⟩ := List.getLast?_eq_some_iff.1 hlast
    rw [List.append_assoc, List.singleton_append, optionWords_append_cons hc,
      optionWords_append_singleton hc]
  · obtain ⟨b, rfl⟩ := List.head?_eq_some_iff.1 hhead
    rw [optionWords_append_cons hc, optionWords_cons hc]

theorem endsOption_of_cut {c : Char} (h : c = ' ' ∨ c = ',') : endsOption c = true := by
  obtain rfl | rfl := h <;> rfl

theorem spaced_optionWords : Spaced fun cs ws => optionWords cs = ws where
  nil := rfl
  split h hcut := by
    refine ⟨_, _, ?_, rfl, rfl⟩
    rw [← h]
    exact optionWords_append (hcut.beside.imp
      (fun ⟨c, hc, h⟩ => ⟨c, hc, endsOption_of_cut h⟩)
      fun ⟨c, hc, h⟩ => ⟨c, hc, endsOption_of_cut h⟩)
  join h h' := by rw [optionWords_append_cons rfl, h, h']
  of_append_blank h := by rw [← h, optionWords_append_singleton rfl]
  unique h h' := h.symm.trans h'

/-- A word without blanks and commas. -/
theorem optionWords_word (ha : ∀ c ∈ a, endsOption c = false) (hne : a ≠ []) :
    optionWords a = [String.ofList a] := by
  rw [optionWords_eq, List.splitOnP_eq_singleton ha]
  simp [hne]

/-! ## Keyword and operand -/

/-- A statement is a keyword without blanks, and an operand behind the blanks that follow. -/
theorem Statement.of_append {keyword tail : List Char}
    (hkeyword : ∀ c ∈ keyword, Text.isBlank c = false)
    (htail : ∀ c ∈ tail.head?, Text.isBlank c = true) :
    (Statement.of (String.ofList (keyword ++ tail))).keyword = String.ofList keyword ∧
      (Statement.of (String.ofList (keyword ++ tail))).operand =
        String.ofList (Text.trimStart tail) := by
  have hall : ∀ c ∈ keyword, (! Text.isBlank c) = true := by simpa using hkeyword
  have hdrop : (keyword ++ tail).dropWhile (! Text.isBlank ·) = tail := by
    rw [List.dropWhile_append_of_pos hall]
    cases tail with
    | nil => rfl
    | cons c tail => simp [htail c rfl]
  have htake : (keyword ++ tail).takeWhile (! Text.isBlank ·) = keyword := by
    rw [List.takeWhile_append_of_pos hall]
    cases tail with
    | nil => simp
    | cons c tail => simp [htail c rfl]
  unfold Statement.of Text.cutAtBlank
  rw [String.toList_ofList, hdrop, htake]
  cases tail with
  | nil => simp [Text.trimStart]
  | cons c tail => simp [Text.trimStart, htail c rfl]

/-- The keyword of a statement, and what follows it. -/
theorem Statement.exists_tail (text : String) : ∃ tail,
    text.toList = (Statement.of text).keyword.toList ++ tail ∧
      (∀ c ∈ tail.head?, Text.isBlank c = true) ∧
      (Statement.of text).operand.toList = Text.trimStart tail := by
  have hkeyword : ∀ c ∈ text.toList.takeWhile (! Text.isBlank ·), Text.isBlank c = false := by
    intro c hc
    simpa using List.mem_takeWhile_imp hc
  have htail : ∀ c ∈ (text.toList.dropWhile (! Text.isBlank ·)).head?,
      Text.isBlank c = true := by
    intro c hc
    have hstop := List.head?_dropWhile_not (! Text.isBlank ·) text.toList
    rw [Option.mem_def.1 hc] at hstop
    simpa using hstop
  have hof := Statement.of_append hkeyword htail
  rw [List.takeWhile_append_dropWhile, String.ofList_toList] at hof
  refine ⟨_, ?_, htail, ?_⟩
  · rw [hof.1, String.toList_ofList, List.takeWhile_append_dropWhile]
  · rw [hof.2, String.toList_ofList]

/-- What the characters of a keyword are: neither separators nor quotes nor the mark of comments. -/
structure IsKeywordChar (c : Char) : Prop where
  endsWord : Card.endsWord c = false
  endsOption : Deck.endsOption c = false
  ne_star : c ≠ '*'

theorem IsKeywordChar.isBlank {c : Char} (h : IsKeywordChar c) : Text.isBlank c = false := by
  have := h.endsOption
  simp only [Deck.endsOption, Bool.or_eq_false_iff] at this
  exact this.2

theorem IsKeywordChar.ne_quote {c : Char} (h : IsKeywordChar c) : c ≠ quote := by
  rintro rfl
  cases h.endsWord

theorem isKeywordChar_of_mem {keyword : String} (h : keyword ∈ keywords) :
    keyword.toList ≠ [] ∧ ∀ c ∈ keyword.toList, IsKeywordChar c := by
  have hall : keywords.all (fun keyword => ! keyword.toList.isEmpty && keyword.toList.all
      fun c => ! Card.endsWord c && ! Deck.endsOption c && c ≠ '*') = true := by
    decide
  have hkeyword := List.all_eq_true.1 hall keyword h
  simp only [Bool.and_eq_true, Bool.not_eq_true', List.all_eq_true, decide_eq_true_eq,
    List.isEmpty_eq_false_iff] at hkeyword
  obtain ⟨hne, hchars⟩ := hkeyword
  exact ⟨hne, fun c hc => ⟨(hchars c hc).1.1, (hchars c hc).1.2, (hchars c hc).2⟩⟩

/-! ## Operands with the same tokens -/

section Operands

variable {text text' : String} {encoding : Encoding} {config : Config}

theorem closes_keysOnCard (default : Option FieldFormat) :
    Closes (Comparer.keysOnCard encoding default) := by
  refine .next fun parenthesized => .next fun keys => ?_
  split
  · exact closes_fail _
  · cases parenthesized with
    | false => exact .next fun _ => closes_expectEnd
    | true => exact .next fun _ => .next fun _ => closes_expectEnd

theorem closes_comparer (default : Option FieldFormat) :
    Closes (Comparer.onCard config default) := by
  refine .next fun _ => .next fun copies => ?_
  cases copies with
  | true => exact .next fun _ => closes_expectEnd
  | false =>
    refine .next fun _ => .next fun copies => ?_
    cases copies with
    | true => exact closes_expectEnd
    | false => exact (closes_keysOnCard default).map

theorem closes_filter (default : Option FieldFormat) :
    Closes (Filter.wholeOnCard encoding default) :=
  .next fun _ => .next fun _ => .next fun _ => .next fun _ => closes_expectEnd

theorem closes_layout : Closes (Layout.wholeOnCard encoding) :=
  .next fun _ => .next fun _ => closes_expectEnd

theorem closes_sum (default : Option FieldFormat) : Closes (SumRule.onCard encoding default) :=
  .next fun _ => .next fun _ => .next fun _ => closes_expectEnd

variable (h : ∀ ts, Lexes text.toList ts → Lexes text'.toList ts)
include h

theorem comparer_congr {a : Option Comparer} (ha : Comparer.ofCard text config = .ok a) :
    Comparer.ofCard text' config = .ok a :=
  ReadsWhole.readWithFormat_congr (fun format => (closes_comparer format).readsWhole
    fun _ hclosed => Comparer.alike_onCard hclosed (.refl format)) h ha

theorem filter_congr {a : Filter} (ha : Filter.ofCard text encoding = .ok a) :
    Filter.ofCard text' encoding = .ok a :=
  ReadsWhole.readWithFormat_congr (fun format => (closes_filter format).readsWhole
    fun _ hclosed => Filter.alike_wholeOnCard hclosed (.refl format)) h ha

theorem layout_congr {a : Layout} (ha : Layout.ofCard text encoding = .ok a) :
    Layout.ofCard text' encoding = .ok a :=
  (closes_layout.readsWhole fun _ hclosed => Layout.alike_wholeOnCard hclosed).read_congr h ha

theorem sum_congr {a : SumRule} (ha : SumRule.ofCard text encoding = .ok a) :
    SumRule.ofCard text' encoding = .ok a :=
  ReadsWhole.readWithFormat_congr (fun format => (closes_sum format).readsWhole
    fun _ hclosed => SumRule.alike_onCard hclosed (.refl format)) h ha

theorem destinations_congr {a : List Destination}
    (ha : Destination.listOfCard text encoding = .ok a) :
    Destination.listOfCard text' encoding = .ok a := by
  refine ReadsWhole.readWithFormat_congr (fun format P hclosed n c d hpair => ?_) h ha
  have hsize := P.le_size hpair
  exact Destination.agree_listOnCard hclosed (.refl format) _ _ n c d hpair
    (Nat.lt_succ_of_le hsize.1) (Nat.lt_succ_of_le hsize.2)

end Operands

end Deck

end CardSort
