import CardSort.Proofs.Filter.Grammar
import CardSort.Proofs.Field.Range

/-!
# Conditions read back from cards

A filter of comparisons that are joined by `and` and `or` can be printed on a card, with the left
side of each junction in parentheses and with any more parentheses around it and its parts. The
card is read as that filter.

* `Operand.Prints`, `Filter.Prints` — the tokens of an operand and of a condition.
* `Operand.Printable`, `Filter.Printable` — what a card of an encoding can say.
* `Operand.Prints.denotes`, `Filter.Prints.denotes` — **what is printed is of the grammar** that is
  read.
* `Filter.ofCard_of_isCard` — **every printable filter has a card, and all its cards are read as
  the filter**.
-/

set_option autoImplicit false

namespace CardSort

open Card

/-! ## Printing -/

namespace Operand

/-- The tokens show the operand: a field by position, length and format, a decimal by its digits,
a text in quotes and bytes in hexadecimal. -/
inductive Prints (encoding : Encoding) : Operand → List Token → Prop where
  | field (f : Field) :
      Prints encoding (.field f) [.word f.position.repr, .word f.length.repr, .word f.format.code]
  | number (d : Decimal) : Prints encoding (.number d) [.word d.toText]
  | text (bytes : Bytes) :
      Prints encoding (.text bytes)
        [.word "C", .literal (String.ofList (encoding.decode bytes))]
  | hex {bytes : Bytes} {cs : List Char} (h : Numeral.SpellsHex bytes cs) :
      Prints encoding (.hex bytes) [.word "X", .literal (String.ofList cs)]

/-- Fields that can be declared and decimals that are read back from their digits are what a
condition on a card can compare, besides constants. -/
def Printable (encoding : Encoding) : Operand → Prop
  | field f => Field.of f.position f.length f.format encoding = .ok f
  | number d => d.minus = d.isNegative
  | text _ | hex _ => True

theorem exists_prints (encoding : Encoding) (o : Operand) : ∃ ts, o.Prints encoding ts := by
  cases o with
  | field f => exact ⟨_, .field f⟩
  | number d => exact ⟨_, .number d⟩
  | text bytes => exact ⟨_, .text bytes⟩
  | hex bytes =>
    obtain ⟨cs, hcs⟩ := Numeral.exists_spellsHex bytes
    exact ⟨_, .hex hcs⟩

end Operand

namespace Filter

/-- The tokens show the filter: comparisons as they are, junctions with their left side in
parentheses. Parentheses may be put around the whole and around every part. -/
inductive Prints (encoding : Encoding) : Filter → List Token → Prop where
  | compare {left right : Operand} {op : CompareOp} {ls rs : List Token}
      (hleft : left.Prints encoding ls) (hright : right.Prints encoding rs) :
      Prints encoding (.compare ⟨left, op, right, encoding⟩) (ls ++ .word op.code :: rs)
  | paren {f : Filter} {ts : List Token} (h : Prints encoding f ts) :
      Prints encoding f (.openParen :: (ts ++ [.closeParen]))
  | and {l r : Filter} {ls rs : List Token} (hl : Prints encoding l ls)
      (hr : Prints encoding r rs) :
      Prints encoding (.and l r) (.openParen :: (ls ++ .closeParen :: .word "AND" :: rs))
  | or {l r : Filter} {ls rs : List Token} (hl : Prints encoding l ls)
      (hr : Prints encoding r rs) :
      Prints encoding (.or l r) (.openParen :: (ls ++ .closeParen :: .word "OR" :: rs))

/-- The filter compares printable operands in the encoding and negates nothing. -/
def Printable (encoding : Encoding) : Filter → Prop
  | .compare c => c.encoding = encoding ∧ c.left.Printable encoding ∧ c.right.Printable encoding
  | .and l r | .or l r => l.Printable encoding ∧ r.Printable encoding
  | .not _ => False

theorem exists_prints {encoding : Encoding} {f : Filter} (hf : f.Printable encoding) :
    ∃ ts, f.Prints encoding ts := by
  induction f with
  | compare c =>
    obtain ⟨left, op, right, e⟩ := c
    obtain rfl : e = encoding := hf.1
    obtain ⟨ls, hls⟩ := left.exists_prints e
    obtain ⟨rs, hrs⟩ := right.exists_prints e
    exact ⟨_, .compare hls hrs⟩
  | and l r ihl ihr =>
    obtain ⟨ls, hls⟩ := ihl hf.1
    obtain ⟨rs, hrs⟩ := ihr hf.2
    exact ⟨_, .and hls hrs⟩
  | or l r ihl ihr =>
    obtain ⟨ls, hls⟩ := ihl hf.1
    obtain ⟨rs, hrs⟩ := ihr hf.2
    exact ⟨_, .or hls hrs⟩
  | not f => exact hf.elim

/-- The text is a card of the filter: its tokens behind `COND=`, in parentheses. -/
def IsCard (encoding : Encoding) (f : Filter) (text : String) : Prop :=
  ∃ ts, f.Prints encoding ts ∧
    Renders (.word "COND=" :: .openParen :: (ts ++ [.closeParen])) text.toList

end Filter

/-! ## Operands -/

namespace Operand

variable {encoding : Encoding} {o : Operand} {ls : List Token}

theorem Prints.isEndedBy (h : o.Prints encoding ls) : ∀ t ∈ ls, isEndedBy t = false := by
  cases h with
  | field f =>
    have hcode : Operand.isEndedBy (.word f.format.code) = false := by
      cases f.format <;> rfl
    simp [hcode, (beginsNumeral_repr f.position).isEndedBy, (beginsNumeral_repr f.length).isEndedBy]
  | number d => simp [(beginsNumeral_toText d).isEndedBy]
  | text bytes =>
    have hkind : Operand.isEndedBy (.word "C") = false := rfl
    have hliteral (s : String) : Operand.isEndedBy (.literal s) = false := rfl
    simp [hkind, hliteral]
  | hex h =>
    have hkind : Operand.isEndedBy (.word "X") = false := rfl
    have hliteral (s : String) : Operand.isEndedBy (.literal s) = false := rfl
    simp [hkind, hliteral]

theorem Prints.plain (h : o.Prints encoding ls) : ∀ t ∈ ls, t.Plain := by
  cases h with
  | field f => simp
  | number d => simp
  | text bytes =>
    have hkind : (Token.word "C").Plain := ⟨⟨by decide, by decide⟩, rfl⟩
    simp [hkind]
  | hex h =>
    have hkind : (Token.word "X").Plain := ⟨⟨by decide, by decide⟩, rfl⟩
    simp [hkind]

/-- **A printed operand denotes the operand**, wherever its tokens stand. -/
theorem ofTokens_of_prints (h : o.Prints encoding ls) (ho : o.Printable encoding)
    {tokens : List Located} (htokens : tokens.map Prod.snd = ls) (default : Option FieldFormat)
    (c : Cursor) (index : Nat) : ofTokens encoding default c index tokens = .ok o := by
  cases h with
  | field f =>
    simp only [List.map_eq_cons_iff, List.map_eq_nil_iff] at htokens
    obtain ⟨⟨i, _⟩, _, rfl, rfl, ⟨j, _⟩, _, rfl, rfl, ⟨k, _⟩, _, rfl, rfl, rfl⟩ := htokens
    replace ho : Field.of f.position f.length f.format encoding = .ok f := ho
    have hrange := Field.position_add_length_lt ho
    have hposition : Numeral.word64? f.position.repr = some f.position :=
      Numeral.word64?_repr (Nat.lt_of_le_of_lt (Nat.le_add_right _ _) hrange)
    have hlength : Numeral.word64? f.length.repr = some f.length :=
      Numeral.word64?_repr (Nat.lt_of_le_of_lt (Nat.le_add_left _ _) hrange)
    simp [ofTokens, fieldOf, numberOf?, hposition, hlength, FieldFormat.ofCode?_code, ok_bind, ho,
      pure, Except.pure]
  | number d =>
    simp only [List.map_eq_cons_iff, List.map_eq_nil_iff] at htokens
    obtain ⟨⟨i, _⟩, _, rfl, rfl, rfl⟩ := htokens
    have hd : Decimal.ofConstant? d.toText.toList = some d := by
      rw [Decimal.toText, String.toList_ofList]
      exact Decimal.ofConstant?_render ho
    simp [ofTokens, hd]
  | text bytes =>
    simp only [List.map_eq_cons_iff, List.map_eq_nil_iff] at htokens
    obtain ⟨⟨i, _⟩, _, rfl, rfl, ⟨j, _⟩, _, rfl, rfl, rfl⟩ := htokens
    simp [ofTokens, Encoding.encode_decode]
  | hex h =>
    simp only [List.map_eq_cons_iff, List.map_eq_nil_iff] at htokens
    obtain ⟨⟨i, _⟩, _, rfl, rfl, ⟨j, _⟩, _, rfl, rfl, rfl⟩ := htokens
    simp [ofTokens, Numeral.hexBytes?_of_spellsHex h]

/-- **A printed operand is one of the grammar.** -/
theorem Prints.denotes (h : o.Prints encoding ls) (ho : o.Printable encoding)
    (default : Option FieldFormat) : o.Denotes encoding default ls where
  isEndedBy := h.isEndedBy
  ofTokens c index _ htokens := ofTokens_of_prints h ho htokens default c index

end Operand

/-! ## Conditions -/

namespace Filter

variable {encoding : Encoding} {f : Filter} {ts : List Token}

/-- **A printed condition is one of the grammar.** -/
theorem Prints.denotes (h : f.Prints encoding ts) (hf : f.Printable encoding)
    (default : Option FieldFormat) : Denotes encoding default .whole ts f := by
  induction h with
  | compare hleft hright =>
    obtain ⟨-, hl, hr⟩ := hf
    exact .alone (.compare (hleft.denotes hl default) (hright.denotes hr default))
  | paren _ ih => exact .alone (.paren (ih hf))
  | @and l r ls rs _ _ ihl ihr =>
    have := Denotes.and (w := "AND") (.paren (ihl hf.1)) (by decide) (ihr hf.2)
    simpa using this
  | @or l r ls rs _ _ ihl ihr =>
    have := Denotes.or (w := "OR") (.paren (ihl hf.1)) (by decide) (ihr hf.2)
    simpa using this

/-! ## Whole cards -/

theorem Prints.plain (h : f.Prints encoding ts) : ∀ t ∈ ts, t.Plain := by
  induction h with
  | compare hleft hright =>
    simpa [or_imp, forall_and] using ⟨hleft.plain, hright.plain⟩
  | paren _ ih => simpa [or_imp, forall_and] using ih
  | and _ _ ihl ihr =>
    have hand : (Token.word "AND").Plain := ⟨⟨by decide, by decide⟩, rfl⟩
    simpa [or_imp, forall_and, hand] using ⟨ihl, ihr⟩
  | or _ _ ihl ihr =>
    have hor : (Token.word "OR").Plain := ⟨⟨by decide, by decide⟩, rfl⟩
    simpa [or_imp, forall_and, hor] using ⟨ihl, ihr⟩

/-- The tokens of a card are those of the filter in parentheses, behind `COND=`. -/
theorem Prints.plain_card (h : f.Prints encoding ts) :
    ∀ t ∈ (.word "COND=" :: .openParen :: (ts ++ [.closeParen]) : List Token), t.Plain := by
  have hcond : (Token.word "COND=").Plain := ⟨⟨by decide, by decide⟩, rfl⟩
  simpa [or_imp, forall_and, hcond] using h.plain

theorem reads_wholeOnCard (h : f.Prints encoding ts) (hf : f.Printable encoding)
    (default : Option FieldFormat) :
    Reads (wholeOnCard encoding default) (.word "COND=" :: .openParen :: (ts ++ [.closeParen])) f
      [] :=
  (Denotes.alone (.paren (h.denotes hf default))).reads_wholeOnCard

/-- **Reading conditions inverts printing them.** Every filter that negates nothing and compares
fields that can be declared, decimals and constants in the encoding has a card, and each of its
cards is read as that filter, however its parts are put in parentheses and its tokens are
separated. -/
theorem ofCard_of_isCard (hf : f.Printable encoding) :
    (∃ text, f.IsCard encoding text) ∧
      ∀ text, f.IsCard encoding text → ofCard text encoding = .ok f := by
  constructor
  · obtain ⟨ts, hts⟩ := exists_prints hf
    obtain ⟨cs, hcs⟩ := exists_renders fun t ht => (hts.plain_card t ht).wellFormed
    exact ⟨String.ofList cs, ts, hts, by simpa using hcs⟩
  · rintro text ⟨ts, hts, hrenders⟩
    have hformat : FirstFormat (.word "COND=" :: .openParen :: (ts ++ [.closeParen])) none := by
      have := FirstFormat.append (fun t ht => (hts.plain_card t ht).isFormat) .missing
      rwa [List.append_nil] at this
    exact readWithFormat_eq_ok hrenders.lexes hformat (reads_wholeOnCard hts hf none)

/-- The text in bytes 1 to 4 is `it's` or the number in bytes 5 and 6 is at least `-1.5`, and byte
7 is not `0xAB`. -/
def sampleCondition : Filter :=
  .and
    (.or (.compare ⟨.field ⟨0, 4, .ch, .ascii⟩, .eq, .text [0x69, 0x74, 0x27, 0x73], .ascii⟩)
      (.compare ⟨.number ⟨true, 15, 1, by decide, by decide⟩, .le, .field ⟨4, 2, .zd, .ascii⟩,
        .ascii⟩))
    (.compare ⟨.field ⟨6, 1, .bi, .ascii⟩, .ne, .hex [0xAB], .ascii⟩)

theorem sampleCondition_ofCard :
    ofCard "COND=(((1,4,CH,EQ,C'it''s'),OR -1.5,LE,5,2,ZD),AND,(7,1,BI,NE,X'aB'))" .ascii =
        .ok sampleCondition ∧
      ((∃ text, sampleCondition.IsCard .ascii text) ∧
        ∀ text, sampleCondition.IsCard .ascii text →
          ofCard text .ascii = .ok sampleCondition) := by
  have hprintable : sampleCondition.Printable .ascii :=
    ⟨⟨⟨rfl, rfl, trivial⟩, rfl, rfl, rfl⟩, rfl, rfl, trivial⟩
  exact ⟨by decide +kernel, ofCard_of_isCard hprintable⟩

end Filter

end CardSort
