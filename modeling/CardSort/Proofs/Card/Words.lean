import CardSort.Filter.Card
import CardSort.Proofs.Card.Parsing
import CardSort.Proofs.Decimal.Numeral

/-!
# Words of a card

Numbers and codes are words that no keyword can be mistaken for.

* `Text.beginsWith_eq_false` — a word that begins with another character than a keyword does.
* `Card.BeginsNumeral` — words that begin as a number does; `beginsNumeral_repr`,
  `beginsNumeral_toText`.
* `Card.Token.Plain` — a token that stands on a card as it is and gives no default format, as
  numbers, codes, literals and parentheses do.
-/

set_option autoImplicit false

namespace CardSort

theorem Text.beginsWith_eq_false {head w : String} (hne : head ≠ "")
    (h : ∀ c ∈ head.toList.head?, c ∉ w.toList.head?) : Text.beginsWith head w = false := by
  cases hafter : Text.after? head w with
  | none => simp [Text.beginsWith, hafter]
  | some more =>
    obtain rfl := Text.after?_eq_some_iff.1 hafter
    obtain ⟨c, cs, hc⟩ := List.exists_cons_of_ne_nil (show head.toList ≠ [] by simpa using hne)
    exact absurd (show c ∈ (head ++ more).toList.head? by simp [hc]) (h c (by simp [hc]))

theorem Text.beginsWith_eq_false_of_ne {head w : String} {c d : Char}
    (hd : d ∈ head.toList.head?) (hc : c ∈ w.toList.head?) (hne : d ≠ c) :
    Text.beginsWith head w = false := by
  refine beginsWith_eq_false ?_ fun e he hew => hne ?_
  · rintro rfl
    simp at hd
  · rw [Option.mem_unique hd he, Option.mem_unique hc hew]

theorem CompareOp.ofCode?_code (op : CompareOp) : ofCode? op.code = some op := by
  cases op <;> rfl

theorem CompareOp.eq_code_of_ofCode? {w : String} {op : CompareOp} (h : ofCode? w = some op) :
    w = op.code := by
  unfold ofCode? at h
  split at h
  all_goals cases h
  all_goals rfl

namespace Card

/-! ## Numbers -/

/-- The word begins as a number does, with a digit or a minus sign. -/
def BeginsNumeral (w : String) : Prop :=
  ∃ c ∈ w.toList.head?, c.isDigit = true ∨ c = '-'

theorem beginsNumeral_repr (n : Nat) : BeginsNumeral n.repr := by
  obtain ⟨c, cs, hcons, hc⟩ := Numeral.exists_toDigits_eq_cons n
  exact ⟨c, by simp [Nat.toList_repr, hcons], .inl hc⟩

theorem beginsNumeral_toText (d : Decimal) : BeginsNumeral d.toText := by
  obtain ⟨c, cs, hcons, hc⟩ := d.exists_unsignedText_eq_cons
  unfold BeginsNumeral Decimal.toText
  rw [Decimal.render_eq]
  cases d.minus with
  | true => exact ⟨'-', by simp, .inr rfl⟩
  | false => exact ⟨c, by simp [hcons], .inl hc⟩

namespace BeginsNumeral

variable {w keyword : String}

/-- A keyword begins with some other character. -/
theorem beginsWith_eq_false (h : BeginsNumeral w)
    (hkeyword : ∃ d ∈ keyword.toList.head?, d.isDigit = false ∧ d ≠ '-') :
    Text.beginsWith keyword w = false := by
  obtain ⟨c, hc, hnumeral⟩ := h
  obtain ⟨d, hd, hdigit, hminus⟩ := hkeyword
  refine Text.beginsWith_eq_false_of_ne hd hc ?_
  rintro rfl
  rcases hnumeral with hnumeral | hnumeral
  · exact Bool.noConfusion (hdigit.symm.trans hnumeral)
  · exact hminus hnumeral

theorem ne (h : BeginsNumeral w)
    (hkeyword : ∃ d ∈ keyword.toList.head?, d.isDigit = false ∧ d ≠ '-') : w ≠ keyword := by
  rintro rfl
  have hfalse := h.beginsWith_eq_false hkeyword
  have hafter : Text.after? w w = some "" := Text.after?_eq_some_iff.2 (by simp)
  simp [Text.beginsWith, hafter] at hfalse

theorem isFormat (h : BeginsNumeral w) : (Token.word w).isFormat = false :=
  h.beginsWith_eq_false ⟨'F', rfl, by decide⟩

/-- A number ends no operand of a condition. -/
theorem isEndedBy (h : BeginsNumeral w) : Operand.isEndedBy (.word w) = false := by
  have hop : CompareOp.ofCode? w = none := by
    cases hop : CompareOp.ofCode? w with
    | none => rfl
    | some op =>
      refine absurd (CompareOp.eq_code_of_ofCode? hop) (h.ne ?_)
      cases op
      all_goals exact ⟨_, rfl, by decide⟩
  have hkeyword : opensDestinationOperand w = false := by
    simp only [opensDestinationOperand, destinationKeywords, List.any_eq_false]
    intro keyword hmem
    simp only [List.mem_cons, List.not_mem_nil, or_false] at hmem
    rw [Bool.not_eq_true]
    refine h.beginsWith_eq_false ?_
    rcases hmem with rfl | rfl | rfl | rfl | rfl
    all_goals exact ⟨_, rfl, by decide⟩
  have hformat := h.isFormat
  rw [Token.isFormat] at hformat
  have hand : w ≠ "AND" := h.ne ⟨'A', rfl, by decide⟩
  have hor : w ≠ "OR" := h.ne ⟨'O', rfl, by decide⟩
  have hampersand : w ≠ "&" := h.ne ⟨'&', rfl, by decide⟩
  have hbar : w ≠ "|" := h.ne ⟨'|', rfl, by decide⟩
  simp [Operand.isEndedBy, hop, hkeyword, hformat, hand, hor, hampersand, hbar]

end BeginsNumeral

/-! ## Words that stand on a card -/

theorem endsWord_of_isDigit {c : Char} (h : c.isDigit = true) : endsWord c = false := by
  simp only [endsWord, isSeparator, Bool.or_eq_false_iff, decide_eq_false_iff_not]
  refine ⟨⟨⟨⟨⟨⟨⟨⟨?_, ?_⟩, ?_⟩, ?_⟩, ?_⟩, ?_⟩, ?_⟩, ?_⟩, ?_⟩
  all_goals exact Numeral.ne_of_isDigit h rfl

theorem wellFormed_repr (n : Nat) : (Token.word n.repr).WellFormed := by
  constructor
  · intro h
    have := congrArg String.toList h
    simp [Nat.toList_repr, Nat.toDigits_ne_nil] at this
  · refine List.all_eq_true.2 fun c hc => ?_
    rw [Nat.toList_repr] at hc
    simp [endsWord_of_isDigit (Numeral.isDigit_of_mem_toDigits hc)]

theorem wellFormed_toText (d : Decimal) : (Token.word d.toText).WellFormed := by
  have hdigits : ∀ c ∈ Decimal.zeroFill (d.scale + 1) d.magnitudeDigits, endsWord c = false :=
    fun c hc => endsWord_of_isDigit (Decimal.isDigit_of_mem_zeroFill hc)
  constructor
  · intro h
    obtain ⟨c, hc, -⟩ := beginsNumeral_toText d
    simp [h] at hc
  · refine List.all_eq_true.2 fun c hc => ?_
    rw [Bool.not_eq_true']
    simp only [Decimal.toText, Decimal.render_eq, Decimal.unsignedText, String.toList_ofList,
      List.mem_append] at hc
    rcases hc with hc | hc | hc
    · split at hc
      · rw [List.mem_singleton.1 hc]
        rfl
      · cases hc
    · exact hdigits c (List.mem_of_mem_take hc)
    · split at hc
      · cases hc
      · rcases List.mem_cons.1 hc with rfl | hc
        · rfl
        · exact hdigits c (List.mem_of_mem_drop hc)

/-- The token stands on a card as it is, and it is no `FORMAT=` word. -/
structure Token.Plain (t : Token) : Prop where
  wellFormed : t.WellFormed
  isFormat : t.isFormat = false

@[simp] theorem plain_literal (text : String) : (Token.literal text).Plain := ⟨trivial, rfl⟩

@[simp] theorem plain_openParen : Token.openParen.Plain := ⟨trivial, rfl⟩

@[simp] theorem plain_closeParen : Token.closeParen.Plain := ⟨trivial, rfl⟩

@[simp] theorem plain_repr (n : Nat) : (Token.word n.repr).Plain :=
  ⟨wellFormed_repr n, (beginsNumeral_repr n).isFormat⟩

@[simp] theorem plain_toText (d : Decimal) : (Token.word d.toText).Plain :=
  ⟨wellFormed_toText d, (beginsNumeral_toText d).isFormat⟩

@[simp] theorem plain_code (f : FieldFormat) : (Token.word f.code).Plain := by
  cases f <;> exact ⟨⟨by decide, by decide⟩, rfl⟩

@[simp] theorem plain_op (op : CompareOp) : (Token.word op.code).Plain := by
  cases op <;> exact ⟨⟨by decide, by decide⟩, rfl⟩

end Card

end CardSort
