import CardSort.Layout.Card
import CardSort.Proofs.Card.Fields
import CardSort.Proofs.Occurrence

/-!
# Items of layouts read back from cards

An item copies bytes, writes constants or edits a number through a mask of its own. It has no mark
at its end, but it is told apart from the item behind it by the first word of that one: an item
begins with a digit, or as a hexadecimal constant does, and what continues the item in front of it
begins with neither.

* `Mask.ofTexts` — a mask by its pattern and sign texts.
* `Content.Prints`, `LayoutItem.Prints` — the tokens of an item.
* `Edit.Printable`, `Content.Printable`, `LayoutItem.Printable` — what a card can say.
* `OpensItem`, `NextOpensItem` — what an item begins with, and what may stand behind it.
* `EditWords.reads_onCard` — **the words about editing are read back**.
* `LayoutItem.Prints.reads` — **an item is read back**, whatever item follows it.
-/

set_option autoImplicit false

namespace CardSort

open Card

/-! ## Printing -/

/-- The mask of a pattern, with its sign texts replaced if there are any. -/
def Mask.ofTexts (pattern : String) (signs : Option (List String)) : Except CardIssue Mask :=
  match signs with
  | none => .ok (custom pattern.toList)
  | some texts => (custom pattern.toList).withSigns (texts.map String.toList)

/-- A pattern takes one, two or four sign texts. -/
theorem Mask.exists_ofTexts_iff {pattern : String} {texts : List String} :
    (∃ m, ofTexts pattern (some texts) = .ok m) ↔ texts.length ∈ [1, 2, 4] := by
  rcases texts with _ | ⟨a, _ | ⟨b, _ | ⟨c, _ | ⟨d, _ | ⟨e, texts⟩⟩⟩⟩⟩
  all_goals simp [ofTexts, withSigns]

/-- What a card can say about editing: a mask that comes from a pattern, and a length from 1 on. -/
structure Edit.Printable (e : Edit) : Prop where
  mask : ∃ pattern signs, Mask.ofTexts pattern signs = .ok e.mask
  length : ∀ n ∈ e.length, 0 < n ∧ n < Numeral.wordLimit

/-- A group of texts in parentheses. -/
def groupTokens (texts : List String) : List Token :=
  .openParen :: (texts.map Token.literal ++ [.closeParen])

/-- The tokens of a mask with sign texts and a length. -/
def editTokens (pattern : String) (signs : Option (List String)) (length : Option Nat) :
    List Token :=
  .word "EDIT=" :: (groupTokens [pattern] ++
    (signs.toList.flatMap (fun texts => .word "SIGNS=" :: groupTokens texts) ++
      length.toList.map fun n => Token.word ("LENGTH=" ++ n.repr)))

namespace Content

/-- The first word and the other tokens show the content: a field by position and length, bytes in
hexadecimal, and an edited number by position, length, format and mask. -/
inductive Prints : Content → String → List Token → Prop where
  | copy (f : Field) : Prints (.copy f) f.position.repr [.word f.length.repr]
  | constant {bytes : Bytes} {cs : List Char} (h : Numeral.SpellsHex bytes cs) :
      Prints (.constant bytes) "X" [.literal (String.ofList cs)]
  | edit (f : Field) {pattern : String} {signs : Option (List String)} {mask : Mask}
      (length : Option Nat) (hmask : Mask.ofTexts pattern signs = .ok mask) :
      Prints (.edit f ⟨mask, length⟩) f.position.repr
        (.word f.length.repr :: .word f.format.code :: editTokens pattern signs length)

/-- Fields that can be declared and any constant are what an item on a card can say. A field that
is edited is numeric. -/
def Printable (encoding : Encoding) : Content → Prop
  | copy f => Field.of f.position f.length .ch encoding = .ok f
  | constant _ => True
  | edit f e =>
    f.format.isNumeric = true ∧ Field.of f.position f.length f.format encoding = .ok f ∧ e.Printable

end Content

/-- The tokens show the item: its content, with the column in front of the first word. -/
inductive LayoutItem.Prints : LayoutItem → List Token → Prop where
  | bare {content : Content} {w : String} {ts : List Token} (h : content.Prints w ts) :
      Prints ⟨none, content⟩ (.word w :: ts)
  | column (n : Nat) {content : Content} {w : String} {ts : List Token}
      (h : content.Prints w ts) :
      Prints ⟨some n, content⟩ (.word (n.repr ++ ":" ++ w) :: ts)

/-- What a card can say as an item: a column is counted from 1 on. -/
structure LayoutItem.Printable (encoding : Encoding) (item : LayoutItem) : Prop where
  column : ∀ n ∈ item.column, 0 < n ∧ n < Numeral.wordLimit
  content : item.content.Printable encoding

/-! ## What may follow an item -/

/-- The word begins as the first word of an item does, with a digit or as a hexadecimal constant. -/
def OpensItem (w : String) : Prop := ∃ c ∈ w.toList.head?, c.isDigit = true ∨ c = 'X'

/-- If a word is next, it begins an item. So the tokens may follow an item. -/
def NextOpensItem (rest : List Token) : Prop := ∀ w, nextWord? rest = some w → OpensItem w

namespace OpensItem

variable {w keyword : String}

/-- A keyword begins with some other character. -/
theorem beginsWith_eq_false (h : OpensItem w)
    (hkeyword : ∃ d ∈ keyword.toList.head?, d.isDigit = false ∧ d ≠ 'X') :
    Text.beginsWith keyword w = false := by
  obtain ⟨c, hc, hopens⟩ := h
  obtain ⟨d, hd, hdigit, hX⟩ := hkeyword
  refine Text.beginsWith_eq_false_of_ne hd hc ?_
  rintro rfl
  rcases hopens with hopens | hopens
  · exact Bool.noConfusion (hdigit.symm.trans hopens)
  · exact hX hopens

theorem after?_eq_none (h : OpensItem w)
    (hkeyword : ∃ d ∈ keyword.toList.head?, d.isDigit = false ∧ d ≠ 'X') :
    Text.after? keyword w = none := by
  simpa [Text.beginsWith] using h.beginsWith_eq_false hkeyword

theorem ne (h : OpensItem w)
    (hkeyword : ∃ d ∈ keyword.toList.head?, d.isDigit = false ∧ d ≠ 'X') : w ≠ keyword := by
  rintro rfl
  have hafter : Text.after? w w = some "" := Text.after?_eq_some_iff.2 (by simp)
  rw [h.after?_eq_none hkeyword] at hafter
  cases hafter

theorem ofCode? (h : OpensItem w) : FieldFormat.ofCode? w = none := by
  unfold FieldFormat.ofCode?
  split
  case h_7 => rfl
  all_goals exact absurd rfl (h.ne ⟨_, rfl, by decide⟩)

theorem predefined? (h : OpensItem w) : Mask.predefined? w = none := by
  unfold Mask.predefined?
  rw [h.after?_eq_none ⟨'M', rfl, by decide⟩]
  rfl

theorem opensDestinationOperand (h : OpensItem w) : opensDestinationOperand w = false := by
  simp only [Card.opensDestinationOperand, destinationKeywords, List.any_eq_false]
  intro keyword hmem
  simp only [List.mem_cons, List.not_mem_nil, or_false] at hmem
  rw [Bool.not_eq_true]
  refine h.beginsWith_eq_false ?_
  rcases hmem with rfl | rfl | rfl | rfl | rfl
  all_goals exact ⟨_, rfl, by decide⟩

end OpensItem

theorem opensItem_repr_append (n : Nat) (w : String) : OpensItem (n.repr ++ w) := by
  obtain ⟨c, cs, hcons, hc⟩ := Numeral.exists_toDigits_eq_cons n
  exact ⟨c, by simp [Nat.toList_repr, hcons], .inl hc⟩

theorem opensItem_repr (n : Nat) : OpensItem n.repr := by
  simpa using opensItem_repr_append n ""

theorem Content.Prints.opensItem {content : Content} {w : String} {ts : List Token}
    (h : content.Prints w ts) : OpensItem w := by
  cases h with
  | copy f => exact opensItem_repr f.position
  | constant _ => exact ⟨'X', rfl, .inr rfl⟩
  | edit f _ _ => exact opensItem_repr f.position

theorem LayoutItem.Prints.exists_word {item : LayoutItem} {ts : List Token}
    (h : item.Prints ts) : ∃ w more, ts = .word w :: more ∧ OpensItem w := by
  cases h with
  | bare h => exact ⟨_, _, rfl, h.opensItem⟩
  | @column n _ w _ h =>
    refine ⟨_, _, rfl, ?_⟩
    rw [String.append_assoc]
    exact opensItem_repr_append n (":" ++ w)

/-! ## Words about editing -/

/-- Columns and lengths are numbers from 1 on. -/
theorem filter_word64?_repr {n : Nat} (hpos : 0 < n) (hlt : n < Numeral.wordLimit) :
    (Numeral.word64? n.repr).filter (· ≠ 0) = some n := by
  rw [Numeral.word64?_repr hlt]
  simp [Nat.ne_of_gt hpos]

section Edit

variable {ts rest : List Token}

theorem reads_groupOnCard (texts : List String) :
    Reads groupOnCard (groupTokens texts ++ rest) (texts.map String.toList) rest := by
  have hitems : Items (! ·.isOn .closeParen) groupValue
      (texts.map Token.literal ++ .closeParen :: rest) (texts.map String.toList)
      (.closeParen :: rest) := by
    induction texts with
    | nil => exact .nil
    | cons text texts ih =>
      refine .cons (fun c hc => by simp [hc.isOn_cons]) (.get fun c hc => ?_) (by simp) ih
      simp only [hc.current]
      exact Reads.advance.bind .pure
  have hvalues := hitems.collect fun c hc => by simp [hc.isOn_cons]
  have hgroup : groupTokens texts ++ rest =
      .openParen :: (texts.map Token.literal ++ .closeParen :: rest) := by
    simp [groupTokens]
  rw [hgroup]
  exact Reads.expect.bind (hvalues.bind (Reads.expect.bind .pure))

namespace EditWords

variable {e e' : EditWords} {fuel : Nat}

theorem reads_edit {pattern : String}
    (h : Reads (onCard fuel { e with mask := some (Mask.custom pattern.toList) }) ts e' rest) :
    Reads (onCard (fuel + 1) e) (.word "EDIT=" :: (groupTokens [pattern] ++ ts)) e' rest := by
  refine .get fun c hc => ?_
  simp only [hc.word?_eq, nextWord?, if_true]
  exact Reads.advance.bind ((reads_groupOnCard [pattern]).bind (by simpa using h))

theorem reads_signs {texts : List String}
    (h : Reads (onCard fuel { e with signs := some (texts.map String.toList) }) ts e' rest) :
    Reads (onCard (fuel + 1) e) (.word "SIGNS=" :: (groupTokens texts ++ ts)) e' rest := by
  refine .get fun c hc => ?_
  have hne : "SIGNS=" ≠ "EDIT=" := by decide
  simp only [hc.word?_eq, nextWord?, hne, if_false, if_true]
  exact Reads.advance.bind ((reads_groupOnCard texts).bind h)

theorem reads_length {n : Nat} (hpos : 0 < n) (hlt : n < Numeral.wordLimit)
    (h : Reads (onCard fuel { e with length := some n }) ts e' rest) :
    Reads (onCard (fuel + 1) e) (.word ("LENGTH=" ++ n.repr) :: ts) e' rest := by
  refine .get fun c hc => ?_
  have hafter : Text.after? "LENGTH=" ("LENGTH=" ++ n.repr) = some n.repr :=
    Text.after?_eq_some_iff.2 rfl
  have hne (keyword : String) (hkeyword : Text.after? "LENGTH=" keyword = none) :
      "LENGTH=" ++ n.repr ≠ keyword := by
    rintro rfl
    rw [hafter] at hkeyword
    cases hkeyword
  simp only [hc.word?_eq, nextWord?, hne "EDIT=" rfl, hne "SIGNS=" rfl, if_false, hafter,
    filter_word64?_repr hpos hlt]
  exact Reads.advance.bind h

/-- The words about editing end in front of another item. -/
theorem reads_end (h : NextOpensItem rest) : Reads (onCard fuel e) rest e rest := by
  cases fuel with
  | zero => exact .pure
  | succ fuel =>
    refine .get fun c hc => ?_
    cases hw : nextWord? rest with
    | none =>
      simp only [hc.word?_eq, hw]
      exact .pure
    | some w =>
      have hopens := h w hw
      have hedit : w ≠ "EDIT=" := hopens.ne ⟨'E', rfl, by decide⟩
      have hsigns : w ≠ "SIGNS=" := hopens.ne ⟨'S', rfl, by decide⟩
      have hlength : Text.after? "LENGTH=" w = none := hopens.after?_eq_none ⟨'L', rfl, by decide⟩
      simp only [hc.word?_eq, hw, hedit, hsigns, if_false, hlength, hopens.predefined?]
      exact .pure

/-- **The words about editing are read back**, up to another item. -/
theorem reads_onCard {pattern : String} {signs : Option (List String)} {length : Option Nat}
    (hlength : ∀ n ∈ length, 0 < n ∧ n < Numeral.wordLimit) (hrest : NextOpensItem rest) :
    Reads (onCard (fuel + 3) {}) (editTokens pattern signs length ++ rest)
      ⟨some (Mask.custom pattern.toList), signs.map (·.map String.toList), length⟩ rest := by
  have hend : ∀ fuel mask signs, Reads (onCard (fuel + 1) ⟨mask, signs, none⟩)
      (length.toList.map (fun n => Token.word ("LENGTH=" ++ n.repr)) ++ rest)
      ⟨mask, signs, length⟩ rest := by
    intro fuel mask signs
    cases length with
    | none => exact reads_end hrest
    | some n =>
      obtain ⟨hpos, hlt⟩ := hlength n rfl
      exact reads_length hpos hlt (reads_end hrest)
  have hsigns : ∀ mask, Reads (onCard (fuel + 2) ⟨mask, none, none⟩)
      (signs.toList.flatMap (fun texts => .word "SIGNS=" :: groupTokens texts) ++
        (length.toList.map (fun n => Token.word ("LENGTH=" ++ n.repr)) ++ rest))
      ⟨mask, signs.map (·.map String.toList), length⟩ rest := by
    intro mask
    cases signs with
    | none => exact hend (fuel + 1) mask none
    | some texts => simpa using reads_signs (hend fuel mask (some (texts.map String.toList)))
  simpa [editTokens] using reads_edit (hsigns (some (Mask.custom pattern.toList)))

end EditWords

end Edit

/-! ## Items -/

section Item

variable {encoding : Encoding} {f : Field} {ts rest : List Token} {w : String} {index : Nat}

theorem repeatCount?_eq_none {kind c : Char} {cs : List Char} (hc : c ∈ cs.getLast?)
    (hne : c ≠ kind) : repeatCount? kind cs = none := by
  have hbefore : Text.before? kind cs = none := by
    simpa [Text.before?, Option.mem_def.1 hc] using hne
  simp [repeatCount?, hbefore]

theorem repeatCount?_repr {kind : Char} (hkind : kind.isDigit = false) (n : Nat) :
    repeatCount? kind n.repr.toList = none := by
  rw [Nat.toList_repr]
  have hlast := List.getLast?_eq_some_getLast (Nat.toDigits_ne_nil (n := n) (b := 10))
  refine repeatCount?_eq_none hlast (Numeral.ne_of_isDigit ?_ hkind)
  exact Numeral.isDigit_of_mem_toDigits (List.getLast_mem _)

theorem reads_formatOnCard {format : FieldFormat} :
    Reads formatOnCard (.word format.code :: rest) (some format) rest := by
  refine .get fun c hc => ?_
  simp only [hc.word?_eq, nextWord?, Option.bind_some, FieldFormat.ofCode?_code]
  exact Reads.advance.bind .pure

theorem reads_formatOnCard_none (h : NextOpensItem rest) :
    Reads formatOnCard rest none rest := by
  refine .get fun c hc => ?_
  have hnone : (nextWord? rest).bind FieldFormat.ofCode? = none := by
    cases hw : nextWord? rest with
    | none => rfl
    | some w => exact (h w hw).ofCode?
  simp only [hc.word?_eq, hnone]
  exact .pure

namespace Content

theorem reads_copy (hf : Field.of f.position f.length .ch encoding = .ok f)
    (hrest : NextOpensItem rest) :
    Reads (fieldOnCard encoding f.position f.length index) rest (.copy f) rest := by
  have hedit : Reads (fun c => EditWords.onCard c.size {} c) rest {} rest :=
    fun c hc => EditWords.reads_end hrest c hc
  exact (reads_formatOnCard_none hrest).bind (hedit.bind ((Reads.declareField hf).bind .pure))

theorem reads_signsOnCard {pattern : String} {signs : Option (List String)} {mask : Mask}
    (hmask : Mask.ofTexts pattern signs = .ok mask) :
    Reads (signsOnCard (Mask.custom pattern.toList) (signs.map (·.map String.toList)) index) rest
      mask rest := by
  cases signs with
  | none =>
    cases hmask
    exact .pure
  | some texts =>
    replace hmask : (Mask.custom pattern.toList).withSigns (texts.map String.toList) = .ok mask :=
      hmask
    simp only [signsOnCard, Option.map_some, hmask]
    exact .pure

theorem reads_edit {pattern : String} {signs : Option (List String)} {mask : Mask}
    {length : Option Nat} (hmask : Mask.ofTexts pattern signs = .ok mask)
    (hf : (Content.edit f ⟨mask, length⟩).Printable encoding) (hrest : NextOpensItem rest) :
    Reads (fieldOnCard encoding f.position f.length index)
      (.word f.format.code :: (editTokens pattern signs length ++ rest))
      (.edit f ⟨mask, length⟩) rest := by
  obtain ⟨hnumeric, hof, hedit⟩ := hf
  have htext : f.format.isText = false := by simpa [FieldFormat.isNumeric] using hnumeric
  have hwords : Reads (fun c => EditWords.onCard c.size {} c)
      (editTokens pattern signs length ++ rest)
      ⟨some (Mask.custom pattern.toList), signs.map (·.map String.toList), length⟩ rest := by
    intro c hc
    -- the pattern alone takes as many tokens as there are words about editing
    have hsize := hc.length_le_size
    obtain ⟨fuel, hfuel⟩ : ∃ fuel, c.size = fuel + 3 := by
      refine ⟨c.size - 3, ?_⟩
      simp only [editTokens, groupTokens, List.length_append, List.length_cons] at hsize
      omega
    have hread : Reads (EditWords.onCard (fuel + 3) {}) (editTokens pattern signs length ++ rest)
        ⟨some (Mask.custom pattern.toList), signs.map (·.map String.toList), length⟩ rest :=
      EditWords.reads_onCard hedit.length hrest
    rw [← hfuel] at hread
    exact hread c hc
  refine reads_formatOnCard.bind (hwords.bind ?_)
  simp only [htext, Bool.false_eq_true, if_false]
  exact (reads_signsOnCard hmask).bind ((Reads.declareField hof).bind .pure)

/-- An item that begins with a number is a field. -/
theorem reads_field {position length : Nat} {content : Content} {format : FieldFormat}
    (hof : Field.of position length format encoding = .ok f)
    (h : Reads (fieldOnCard encoding position length index) ts content rest) :
    Reads (onCard encoding position.repr index) (.word length.repr :: ts) content rest := by
  obtain ⟨hposition, hlength⟩ := word64?_of_field hof
  refine .get fun c hc => ?_
  simp only [repeatCount?_repr (show Char.isDigit 'C' = false from rfl),
    repeatCount?_repr (show Char.isDigit 'X' = false from rfl),
    repeatCount?_repr (show Char.isDigit 'Z' = false from rfl), Option.filter_none, hposition]
  exact (Reads.number hlength).bind h

theorem reads_constant {bytes : Bytes} {cs : List Char} (h : Numeral.SpellsHex bytes cs) :
    Reads (onCard encoding "X" index) (.literal (String.ofList cs) :: rest) (.constant bytes)
      rest := by
  have hbytes : Numeral.hexBytes? (String.ofList cs).toList = some bytes := by
    rw [String.toList_ofList]
    exact Numeral.hexBytes?_of_spellsHex h
  have hone : repeatBytes 1 bytes = bytes := by simp [repeatBytes]
  refine .get fun c hc => .bind .pure (.get fun d hd => ?_)
  have hliteral : d.onLiteral = true := by simp [Cursor.onLiteral, hd.current]
  simp only [hliteral, if_true]
  refine Reads.literal.bind ?_
  simp only [hbytes, hone]
  exact .pure

/-- **The content of an item is read back**, whatever item follows it. -/
theorem Prints.reads {content : Content} (h : content.Prints w ts)
    (hc : content.Printable encoding) (hrest : NextOpensItem rest) :
    Reads (onCard encoding w index) (ts ++ rest) content rest := by
  cases h with
  | copy f => exact reads_field hc (reads_copy hc hrest)
  | constant h => exact reads_constant h
  | edit f length hmask => exact reads_field hc.2.1 (reads_edit hmask hc hrest)

end Content

/-! ## Columns -/

theorem not_mem_repr (n : Nat) : ':' ∉ n.repr.toList := by
  intro hmem
  rw [Nat.toList_repr] at hmem
  exact Numeral.ne_of_isDigit (Numeral.isDigit_of_mem_toDigits hmem) rfl rfl

theorem Content.Prints.not_mem_word {content : Content} (h : content.Prints w ts) :
    ':' ∉ w.toList := by
  cases h with
  | copy f => exact not_mem_repr f.position
  | constant _ => decide
  | edit f _ _ => exact not_mem_repr f.position

theorem reads_columnOnCard {n : Nat} (hpos : 0 < n) (hlt : n < Numeral.wordLimit) (hne : w ≠ "") :
    Reads (columnOnCard (n.repr ++ ":" ++ w) index) rest (some n, w) rest := by
  have hcut : Text.cutAt ':' (n.repr ++ ":" ++ w).toList = some (n.repr.toList, w.toList) := by
    have hword : (n.repr ++ ":" ++ w).toList = n.repr.toList ++ ':' :: w.toList := by simp
    rw [hword]
    exact Occurrence.splitAtFirst_singleton (not_mem_repr n) w.toList
  have hnumber : (Numeral.unsigned? Numeral.wordLimit n.repr.toList).filter (· ≠ 0) = some n :=
    filter_word64?_repr hpos hlt
  have hword : w.toList.isEmpty = false := by simpa using hne
  simp only [columnOnCard, hcut, hnumber, hword, Bool.false_eq_true, if_false,
    String.ofList_toList]
  exact .pure

theorem reads_columnOnCard_none (hw : ':' ∉ w.toList) :
    Reads (columnOnCard w index) rest (none, w) rest := by
  have hcut : Text.cutAt ':' w.toList = none := Occurrence.splitAtFirst_singleton_eq_none hw
  simp only [columnOnCard, hcut]
  exact .pure

theorem OpensItem.ne_empty (h : OpensItem w) : w ≠ "" := by
  rintro rfl
  obtain ⟨c, hc, -⟩ := h
  cases hc

/-- **An item is read back**, whatever item follows it. -/
theorem LayoutItem.Prints.reads {item : LayoutItem} (h : item.Prints ts)
    (hitem : item.Printable encoding) (hrest : NextOpensItem rest) :
    Reads (LayoutItem.onCard encoding) (ts ++ rest) item rest := by
  have hcontent := hitem.content
  refine .get fun c hc => ?_
  cases h with
  | bare h =>
    exact Reads.word.bind ((reads_columnOnCard_none h.not_mem_word).bind
      ((h.reads hcontent hrest).bind .pure))
  | column n h =>
    obtain ⟨hpos, hlt⟩ := hitem.column n rfl
    exact Reads.word.bind ((reads_columnOnCard hpos hlt h.opensItem.ne_empty).bind
      ((h.reads hcontent hrest).bind .pure))

end Item

/-! ## Tokens that stand on a card -/

section WellFormed

variable {ts : List Token} {w : String}

theorem wellFormed_append {head : String} (hhead : head.toList.all (! endsWord ·) = true)
    (hw : (Token.word w).WellFormed) : (Token.word (head ++ w)).WellFormed := by
  refine ⟨fun h => hw.1 ?_, ?_⟩
  · have := congrArg String.toList h
    simp only [String.toList_append, String.toList_empty, List.append_eq_nil_iff] at this
    simpa using this.2
  · rw [String.toList_append, List.all_append, hhead, hw.2]
    rfl

theorem wellFormed_groupTokens (texts : List String) :
    ∀ t ∈ groupTokens texts, t.WellFormed := by
  intro t ht
  simp only [groupTokens, List.mem_cons, List.mem_append, List.mem_map, List.not_mem_nil,
    or_false] at ht
  obtain rfl | ⟨text, -, rfl⟩ | rfl := ht
  all_goals trivial

theorem wellFormed_editTokens (pattern : String) (signs : Option (List String))
    (length : Option Nat) : ∀ t ∈ editTokens pattern signs length, t.WellFormed := by
  intro t ht
  simp only [editTokens, List.mem_cons, List.mem_append, List.mem_flatMap, List.mem_map] at ht
  obtain rfl | ht | ⟨texts, -, rfl | ht⟩ | ⟨n, -, rfl⟩ := ht
  · exact ⟨by decide, by decide⟩
  · exact wellFormed_groupTokens _ t ht
  · exact ⟨by decide, by decide⟩
  · exact wellFormed_groupTokens _ t ht
  · exact wellFormed_append (by decide) (wellFormed_repr n)

theorem Content.Prints.wellFormed {content : Content} (h : content.Prints w ts) :
    ∀ t ∈ Token.word w :: ts, t.WellFormed := by
  cases h with
  | copy f =>
    simp [wellFormed_repr]
  | constant _ =>
    have hX : (Token.word "X").WellFormed := ⟨by decide, by decide⟩
    have hliteral (text : String) : (Token.literal text).WellFormed := trivial
    simp [hX, hliteral]
  | edit f length _ =>
    have hcode : (Token.word f.format.code).WellFormed := (plain_code f.format).wellFormed
    simpa [wellFormed_repr, hcode] using wellFormed_editTokens _ _ length

theorem LayoutItem.Prints.wellFormed {item : LayoutItem} (h : item.Prints ts) :
    ∀ t ∈ ts, t.WellFormed := by
  cases h with
  | bare h => exact h.wellFormed
  | column n h =>
    obtain ⟨hw, hts⟩ := List.forall_mem_cons.1 h.wellFormed
    have hcolon : (":" : String).toList.all (! endsWord ·) = true := by decide
    rw [String.append_assoc]
    refine List.forall_mem_cons.2 ⟨wellFormed_append ?_ (wellFormed_append hcolon hw), hts⟩
    exact (wellFormed_repr n).2

end WellFormed

namespace Content

theorem exists_prints {encoding : Encoding} {content : Content}
    (h : content.Printable encoding) : ∃ w ts, content.Prints w ts := by
  cases content with
  | copy f => exact ⟨_, _, .copy f⟩
  | constant bytes =>
    obtain ⟨cs, hcs⟩ := Numeral.exists_spellsHex bytes
    exact ⟨_, _, .constant hcs⟩
  | edit f e =>
    obtain ⟨pattern, signs, hmask⟩ := h.2.2.mask
    exact ⟨_, _, .edit f e.length hmask⟩

end Content

end CardSort
