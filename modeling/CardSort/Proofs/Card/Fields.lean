import CardSort.Proofs.Card.Words
import CardSort.Proofs.Field.Range
import CardSort.Sum.Card

/-!
# Lists of fields on cards

Keys and summed fields are listed by position and length. The format may be left out where the
card has a default format, and the direction of a key may be left out as well, so what a word
means depends on the word that follows it. A number opens the next field. Any other word behind a
length is taken for a format code, also a `FORMAT=` word.

* `ListedField` — a field as it stands in a list; `ListedField.IsBare` has nothing but numbers.
* `ListedField.IsKey`, `ListedField.IsSummed` — the key or the summed field that it stands for;
  `ListedField.key`, `ListedField.summed` compute it, or say what is wrong.
* `Card.ReadsListed` — what reading keys and reading summed fields have in common.
* `Card.items_listed` — **a list of fields is read back**, up to a word that continues none of
  them.
* `ListHeading` — how a list is opened: `FIELDS=` with the list glued to it, apart, or not at all.
* `Card.defaultFormat_before_and_behind` — **a default format may stand before every list, but
  behind a list only if a parenthesis or another word ends the last field**.
-/

set_option autoImplicit false

namespace CardSort

open Card

/-- A field as it stands in a list. -/
structure ListedField where
  position : Nat
  length : Nat
  format : Option FieldFormat := none
  direction : Option Direction := none
deriving DecidableEq, Repr

namespace ListedField

/-- The tokens of a field: its numbers, and its format and direction if it has them. -/
def tokens (l : ListedField) : List Token :=
  .word l.position.repr :: .word l.length.repr ::
    (l.format.toList.map (fun f => Token.word f.code) ++
      l.direction.toList.map fun d => Token.word d.code)

/-- The field has neither a format nor a direction of its own. -/
def IsBare (l : ListedField) : Prop := l.format = none ∧ l.direction = none

/-- The key that the field stands for under a default format. -/
def IsKey (encoding : Encoding) (default : FieldFormat) (l : ListedField) (k : SortKey) : Prop :=
  Field.of l.position l.length (l.format.getD default) encoding = .ok k.field ∧
    k.direction = l.direction.getD .ascending

/-- The summed field that the field stands for under a default format. -/
def IsSummed (encoding : Encoding) (default : FieldFormat) (l : ListedField) (f : Field) : Prop :=
  Field.of l.position l.length (l.format.getD default) encoding = .ok f ∧
    (l.format.getD default).isText = false ∧ l.direction = none

/-- The key that the field stands for on a card with the default format, if there is one, or what is
wrong with it. -/
def key (encoding : Encoding) (default : Option FieldFormat) (l : ListedField) :
    Except CardIssue SortKey :=
  match l.format.or default with
  | none => .error .missingFormat
  | some format => do
    let field ← (Field.of l.position l.length format encoding).mapError .fieldRefused
    pure ⟨field, l.direction.getD .ascending⟩

/-- The summed field that the field stands for on a card with the default format, if there is one,
or what is wrong with it; the fields of a sum have no direction. -/
def summed (encoding : Encoding) (default : Option FieldFormat) (l : ListedField) :
    Except CardIssue Field :=
  match l.format.or default with
  | none => .error .missingFormat
  | some format =>
    if format.isText then .error (.sumOfText format)
    else (Field.of l.position l.length format encoding).mapError .fieldRefused

/-- The tokens may follow the field: their first word is not taken for a part of it. -/
def MayPrecede (l : ListedField) (rest : List Token) : Prop :=
  ∀ w, nextWord? rest = some w →
    Direction.ofCode? w = none ∧ (l.IsBare → (Numeral.word64? w).isSome = true)

variable {encoding : Encoding} {default : Option FieldFormat} {f : FieldFormat} {l : ListedField}
  {k : SortKey} {field : Field}

theorem key_eq_ok_iff : l.key encoding default = .ok k ↔
    ∃ format, l.format.or default = some format ∧
      Field.of l.position l.length format encoding = .ok k.field ∧
      k.direction = l.direction.getD .ascending := by
  unfold key
  cases l.format.or default with
  | none => simp
  | some format =>
    simp only [bind_eq_ok_iff, mapError_eq_ok_iff, Option.some.injEq, exists_eq_left']
    constructor
    · rintro ⟨field, hof, h⟩
      cases h
      exact ⟨hof, rfl⟩
    · rintro ⟨hof, hdirection⟩
      exact ⟨k.field, hof, by rw [← hdirection]; rfl⟩

theorem summed_eq_ok_iff : l.summed encoding default = .ok field ↔
    ∃ format, l.format.or default = some format ∧ format.isText = false ∧
      Field.of l.position l.length format encoding = .ok field := by
  unfold summed
  cases l.format.or default with
  | none => simp
  | some format =>
    simp only [Option.some.injEq, exists_eq_left']
    cases format.isText with
    | true => simp
    | false => simp [mapError_eq_ok_iff]

theorem key_of_isKey (h : l.IsKey encoding f k) : l.key encoding (some f) = .ok k :=
  key_eq_ok_iff.2 ⟨l.format.getD f, by cases l.format <;> rfl, h⟩

theorem summed_of_isSummed (h : l.IsSummed encoding f field) :
    l.summed encoding (some f) = .ok field :=
  summed_eq_ok_iff.2 ⟨l.format.getD f, by cases l.format <;> rfl, h.2.1, h.1⟩

theorem plain_tokens (l : ListedField) : ∀ t ∈ l.tokens, t.Plain := by
  have hdirection (d : Direction) : (Token.word d.code).Plain := by
    cases d <;> exact ⟨⟨by decide, by decide⟩, rfl⟩
  unfold tokens
  cases l.format <;> cases l.direction <;> simp [hdirection]

end ListedField

namespace Card

variable {encoding : Encoding} {default : Option FieldFormat} {f : FieldFormat} {l : ListedField}
  {rest : List Token}

/-! ## The parts of a field -/

theorem Reads.fieldFormat_code {isCode : String → Bool} {default : Option FieldFormat}
    (h : isCode f.code = true) :
    Reads (fieldFormat isCode default) (.word f.code :: rest) (some f) rest := by
  refine .get fun c hc => ?_
  simp only [hc.word?_eq, nextWord?, h, if_true, FieldFormat.ofCode?_code]
  exact Reads.advance.bind .pure

theorem Reads.fieldFormat_default {isCode : String → Bool} {default : Option FieldFormat}
    (h : ∀ w, nextWord? rest = some w → isCode w = false) :
    Reads (fieldFormat isCode default) rest default rest := by
  refine .get fun c hc => ?_
  rw [hc.word?_eq]
  cases hw : nextWord? rest with
  | none => exact .pure
  | some w =>
    simp only [h w hw, Bool.false_eq_true, if_false]
    exact .pure

theorem Refuses.fieldFormat {isCode : String → Bool} {default : Option FieldFormat} {w : String}
    (h : isCode w = true) (hcode : FieldFormat.ofCode? w = none) :
    Refuses (fieldFormat isCode default) (.word w :: rest) fun index source =>
      .unknownFormat w index source := by
  intro c hc
  refine ⟨c.index, c, run_bind_error_right rfl ?_⟩
  simp only [hc.word?_eq, nextWord?, h, if_true, hcode]
  rfl

theorem Reads.directionOnCard_code {d : Direction} :
    Reads SortKey.directionOnCard (.word d.code :: rest) d rest := by
  refine .get fun c hc => ?_
  have hcode : Direction.ofCode? d.code = some d := by
    cases d <;> rfl
  simp only [hc.word?_eq, nextWord?, Option.bind_some, hcode]
  exact Reads.advance.bind .pure

theorem Reads.directionOnCard_default
    (h : ∀ w, nextWord? rest = some w → Direction.ofCode? w = none) :
    Reads SortKey.directionOnCard rest .ascending rest := by
  refine .get fun c hc => ?_
  have hnone : (nextWord? rest).bind Direction.ofCode? = none := by
    cases hw : nextWord? rest with
    | none => rfl
    | some w => exact h w hw
  simp only [hc.word?_eq, hnone]
  exact .pure

theorem Reads.declareField {position length index : Nat} {field : Field}
    (h : Field.of position length f encoding = .ok field) :
    Reads (declareField position length f encoding index) rest field rest := by
  unfold Card.declareField
  rw [h]
  exact .pure

/-! ## Keys and summed fields -/

/-- The fault of a format word that is taken for the format of a field. -/
def formatWordFault (f : FieldFormat) (index : Nat) (source : String) : Fault :=
  .unknownFormat (formatKeyword ++ f.code) index source

/-- What reading keys and reading summed fields have in common. -/
structure ReadsListed {α : Type} (item : Parser α) (stands : ListedField → α → Prop) : Prop where
  /-- The position is a number of a card. -/
  position : ∀ l x, stands l x → Numeral.word64? l.position.repr = some l.position
  /-- A field is read up to tokens that may follow it. -/
  reads : ∀ l x rest, stands l x → l.MayPrecede rest → Reads item (l.tokens ++ rest) x rest
  /-- A format word behind a bare field is taken for the format of the field. -/
  refuses : ∀ l x f rest, stands l x → l.IsBare →
    Refuses item (l.tokens ++ formatWord f :: rest) (formatWordFault f)

theorem ReadsListed.mono {α : Type} {item : Parser α} {stands stands' : ListedField → α → Prop}
    (h : ReadsListed item stands) (hsub : ∀ l x, stands' l x → stands l x) :
    ReadsListed item stands' where
  position l x hl := h.position l x (hsub l x hl)
  reads l x rest hl := h.reads l x rest (hsub l x hl)
  refuses l x f rest hl := h.refuses l x f rest (hsub l x hl)

theorem word64?_of_field {position length : Nat} {field : Field}
    (h : Field.of position length f encoding = .ok field) :
    Numeral.word64? position.repr = some position ∧ Numeral.word64? length.repr = some length := by
  have hrange := Field.position_add_length_lt h
  exact ⟨Numeral.word64?_repr (Nat.lt_of_le_of_lt (Nat.le_add_right _ _) hrange),
    Numeral.word64?_repr (Nat.lt_of_le_of_lt (Nat.le_add_left _ _) hrange)⟩

theorem ofCode?_formatWord (f : FieldFormat) :
    FieldFormat.ofCode? (formatKeyword ++ f.code) = none := by
  cases f <;> rfl

theorem reads_keyFormat (hrest : l.MayPrecede rest) :
    Reads (fieldFormat SortKey.isFormatWord default)
      (l.format.toList.map (fun g => Token.word g.code) ++
        (l.direction.toList.map (fun d => Token.word d.code) ++ rest))
      (l.format.or default) (l.direction.toList.map (fun d => Token.word d.code) ++ rest) := by
  cases hformat : l.format with
  | some g =>
    have hcode : SortKey.isFormatWord g.code = true := by
      cases g <;> rfl
    exact .fieldFormat_code hcode
  | none =>
    refine .fieldFormat_default ?_
    intro w hw
    cases hdirection : l.direction with
    | some d =>
      rw [hdirection] at hw
      cases hw
      cases d <;> rfl
    | none =>
      rw [hdirection] at hw
      have hnumber := (hrest w hw).2 ⟨hformat, hdirection⟩
      simp [SortKey.isFormatWord, Option.isNone_eq_false_iff.2 hnumber]

theorem reads_keyDirection (hrest : l.MayPrecede rest) :
    Reads SortKey.directionOnCard (l.direction.toList.map (fun d => Token.word d.code) ++ rest)
      (l.direction.getD .ascending) rest := by
  cases l.direction with
  | some d => exact .directionOnCard_code
  | none => exact .directionOnCard_default fun w hw => (hrest w hw).1

/-- A format word behind a bare field is taken for the format of the field, where the format
would be read. -/
theorem refuses_format_behind {α : Type} {isCode : String → Bool} {default : Option FieldFormat}
    {more : Nat → Nat → Option FieldFormat → Parser α} {field : Field} {g : FieldFormat}
    (hfield : Field.of l.position l.length g encoding = .ok field) (hbare : l.IsBare)
    (hcode : isCode (formatKeyword ++ f.code) = true) :
    Refuses (do
        let position ← number
        let length ← number
        let format ← fieldFormat isCode default
        more position length format)
      (l.tokens ++ formatWord f :: rest) (formatWordFault f) := by
  obtain ⟨hposition, hlength⟩ := word64?_of_field hfield
  obtain ⟨hformat, hdirection⟩ := hbare
  have htokens : l.tokens = [.word l.position.repr, .word l.length.repr] := by
    simp [ListedField.tokens, hformat, hdirection]
  rw [htokens]
  exact (Reads.number hposition).bind_refuses ((Reads.number hlength).bind_refuses
    (Refuses.fieldFormat hcode (ofCode?_formatWord f)).bind)

/-- The keys that are listed are read, whether the card has a default format or not. -/
theorem readsListed_keyOnCard (encoding : Encoding) (default : Option FieldFormat) :
    ReadsListed (SortKey.onCard encoding default) fun l k => l.key encoding default = .ok k where
  position l k h := by
    obtain ⟨format, -, hfield, -⟩ := ListedField.key_eq_ok_iff.1 h
    exact (word64?_of_field hfield).1
  reads := by
    rintro l ⟨field, direction⟩ rest h hrest
    obtain ⟨format, hformat, hfield, rfl⟩ := ListedField.key_eq_ok_iff.1 h
    obtain ⟨hposition, hlength⟩ := word64?_of_field hfield
    unfold ListedField.tokens
    rw [List.cons_append, List.cons_append, List.append_assoc]
    refine .get fun c _ => ?_
    refine (Reads.number hposition).bind ((Reads.number hlength).bind
      ((reads_keyFormat hrest).bind ?_))
    rw [hformat]
    exact (reads_keyDirection hrest).bind ((Reads.declareField hfield).bind .pure)
  refuses := by
    intro l k g rest h hbare
    obtain ⟨format, -, hfield, -⟩ := ListedField.key_eq_ok_iff.1 h
    have hcode : SortKey.isFormatWord (formatKeyword ++ g.code) = true := by
      cases g <;> rfl
    exact .get fun _ _ => refuses_format_behind hfield hbare hcode

theorem readsListed_key :
    ReadsListed (SortKey.onCard encoding (some f)) (ListedField.IsKey encoding f) :=
  (readsListed_keyOnCard encoding (some f)).mono fun _ _ => ListedField.key_of_isKey

theorem reads_summedFormat (hdirection : l.direction = none) (hrest : l.MayPrecede rest) :
    Reads (fieldFormat SumRule.isFormatWord default)
      (l.format.toList.map (fun g => Token.word g.code) ++ rest) (l.format.or default) rest := by
  cases hformat : l.format with
  | some g =>
    have hcode : SumRule.isFormatWord g.code = true := by
      cases g <;> rfl
    exact .fieldFormat_code hcode
  | none =>
    refine .fieldFormat_default fun w hw => ?_
    have hnumber := (hrest w hw).2 ⟨hformat, hdirection⟩
    simp [SumRule.isFormatWord, Option.isNone_eq_false_iff.2 hnumber]

/-- The summed fields that are listed are read, whether the card has a default format or not. -/
theorem readsListed_fieldOnCard (encoding : Encoding) (default : Option FieldFormat) :
    ReadsListed (SumRule.fieldOnCard encoding default) fun l field =>
      l.direction = none ∧ l.summed encoding default = .ok field where
  position l field h := by
    obtain ⟨format, -, -, hfield⟩ := ListedField.summed_eq_ok_iff.1 h.2
    exact (word64?_of_field hfield).1
  reads := by
    rintro l field rest ⟨hdirection, h⟩ hrest
    obtain ⟨format, hformat, hnumeric, hfield⟩ := ListedField.summed_eq_ok_iff.1 h
    obtain ⟨hposition, hlength⟩ := word64?_of_field hfield
    simp only [ListedField.tokens, hdirection, Option.toList_none, List.map_nil, List.append_nil,
      List.cons_append]
    refine .get fun c _ => ?_
    refine (Reads.number hposition).bind ((Reads.number hlength).bind
      ((reads_summedFormat hdirection hrest).bind ?_))
    simp only [hformat, hnumeric, Bool.false_eq_true, if_false]
    exact Reads.declareField hfield
  refuses := by
    intro l field g rest h hbare
    obtain ⟨format, -, -, hfield⟩ := ListedField.summed_eq_ok_iff.1 h.2
    have hcode : SumRule.isFormatWord (formatKeyword ++ g.code) = true := by
      cases g <;> rfl
    exact .get fun _ _ => refuses_format_behind hfield hbare hcode

theorem readsListed_summed :
    ReadsListed (SumRule.fieldOnCard encoding (some f)) (ListedField.IsSummed encoding f) :=
  (readsListed_fieldOnCard encoding (some f)).mono fun _ _ h =>
    ⟨h.2.2, ListedField.summed_of_isSummed h⟩

/-! ## Lists -/

/-- The tokens of a list of fields. -/
def listTokens (ls : List ListedField) : List Token := ls.flatMap ListedField.tokens

/-- Whether a list of fields ends in front of the tokens. -/
def endsList : List Token → Bool
  | [] => true
  | t :: _ => t = .closeParen || t.isFormat

theorem Cursor.At.endsFields {c : Cursor} (h : c.At rest) : c.endsFields = endsList rest := by
  unfold Cursor.endsFields
  cases rest with
  | nil => simp [endsList, h.atEnd_nil]
  | cons t ts => simp [endsList, h.atEnd_cons, h.isOn_cons, h.onFormat]

section Lists

variable {α : Type} {item : Parser α} {stands : ListedField → α → Prop} {ls : List ListedField}
  {xs : List α}

/-- A number opens the next field. -/
theorem mayPrecede_tokens {next : ListedField}
    (hposition : Numeral.word64? next.position.repr = some next.position) :
    l.MayPrecede (next.tokens ++ rest) := by
  rintro _ ⟨⟩
  have hbegins := beginsNumeral_repr next.position
  refine ⟨?_, fun _ => by simp [hposition]⟩
  unfold Direction.ofCode?
  split
  · rename_i h
    exact absurd h (hbegins.ne ⟨'A', rfl, by decide⟩)
  · rename_i h
    exact absurd h (hbegins.ne ⟨'D', rfl, by decide⟩)
  · rfl

/-- **A list of fields is read back**, up to tokens that may follow its last field. -/
theorem items_listed (hitem : ReadsListed item stands) (h : List.Forall₂ stands ls xs)
    (hlast : ∀ l ∈ ls.getLast?, l.MayPrecede rest) :
    Items (! ·.endsFields) item (listTokens ls ++ rest) xs rest := by
  induction h with
  | nil => exact .nil
  | @cons l x ls xs hl hls ih =>
    have hsplit : listTokens (l :: ls) ++ rest = l.tokens ++ (listTokens ls ++ rest) := by
      simp [listTokens]
    have hmay : l.MayPrecede (listTokens ls ++ rest) := by
      cases hls with
      | nil => exact hlast l rfl
      | @cons next _ ls _ hnext _ =>
        have : listTokens (next :: ls) ++ rest = next.tokens ++ (listTokens ls ++ rest) := by
          simp [listTokens]
        rw [this]
        exact mayPrecede_tokens (hitem.position next _ hnext)
    rw [hsplit]
    refine .cons ?_ (hitem.reads l x _ hl hmay) ?_ (ih ?_)
    · intro c hc
      have hformat := (beginsNumeral_repr l.position).isFormat
      simp [hc.endsFields, ListedField.tokens, endsList, hformat]
    · simp [ListedField.tokens]
      omega
    · intro last hmem
      refine hlast last ?_
      cases ls with
      | nil => cases hmem
      | cons next ls => simpa using hmem

theorem reads_collect_listed (hitem : ReadsListed item stands) (h : List.Forall₂ stands ls xs)
    (hlast : ∀ l ∈ ls.getLast?, l.MayPrecede rest) (hends : endsList rest = true) :
    Reads (collect (! ·.endsFields) item) (listTokens ls ++ rest) xs rest :=
  (items_listed hitem h hlast).collect fun c hc => by simp [hc.endsFields, hends]

/-- A list is refused where one of its fields is, behind fields that are read. -/
theorem refuses_collect_at {fault : Nat → String → Fault} (hitem : ReadsListed item stands)
    (h : List.Forall₂ stands ls xs) (hposition : Numeral.word64? l.position.repr = some l.position)
    (hrefuses : Refuses item (l.tokens ++ rest) fault) :
    Refuses (collect (! ·.endsFields) item) (listTokens ls ++ (l.tokens ++ rest)) fault := by
  refine (items_listed hitem h fun _ _ => mayPrecede_tokens hposition).collect_refuses ?_ hrefuses
  intro c hc
  have hformat := (beginsNumeral_repr l.position).isFormat
  simp [hc.endsFields, endsList, hformat]

/-- A list whose last field is bare is refused if a format word follows it. -/
theorem refuses_collect_listed (hitem : ReadsListed item stands) (h : List.Forall₂ stands ls xs)
    (hbare : ∃ l ∈ ls.getLast?, l.IsBare) :
    Refuses (collect (! ·.endsFields) item) (listTokens ls ++ formatWord f :: rest)
      (formatWordFault f) := by
  obtain ⟨last, hmem, hbare⟩ := hbare
  obtain ⟨front, rfl⟩ := List.getLast?_eq_some_iff.1 hmem
  have hflip : List.Forall₂ (flip stands) xs (front ++ [last]) := h.flip
  have hfront := (List.forall₂_take_append _ _ _ hflip).flip
  obtain ⟨x, _, hlast, -, -⟩ := List.forall₂_cons_right_iff.1 (List.forall₂_drop_append _ _ _ hflip)
  have hsplit : listTokens (front ++ [last]) ++ formatWord f :: rest =
      listTokens front ++ (last.tokens ++ formatWord f :: rest) := by
    simp [listTokens]
  rw [hsplit]
  exact refuses_collect_at hitem hfront (hitem.position last x hlast)
    (hitem.refuses last x f rest hlast hbare)

end Lists

/-! ## Operands -/

/-- Tokens behind a keyword, to which a word is glued. -/
def glue (head : String) : List Token → List Token
  | .word w :: ts => .word (head ++ w) :: ts
  | ts => .word head :: ts

theorem Reads.eatHead_glue {head : String} {ts : List Token}
    (h : ∀ w, nextWord? ts = some w → w ≠ "") :
    Reads (Card.eatHead head) (glue head ts) true ts := by
  unfold glue
  split
  · exact .eatHead_glued (h _ rfl)
  · exact .eatHead

/-- The fields of a list, in parentheses or bare. -/
def listBody (parenthesized : Bool) (ls : List ListedField) : List Token :=
  if parenthesized then .openParen :: (listTokens ls ++ [.closeParen]) else listTokens ls

/-- How a list of fields is opened: not at all, by a keyword to which the list is glued, or by a
keyword apart from it. -/
inductive ListHeading where
  | absent
  | glued
  | apart
deriving DecidableEq, Repr

/-- A list of fields behind its heading. -/
def ListHeading.tokens (ts : List Token) : ListHeading → List Token
  | absent => ts
  | glued => glue "FIELDS=" ts
  | apart => .word "FIELDS=" :: ts

/-- The operand of a list of fields. -/
def listOperand (parenthesized : Bool) (ls : List ListedField) : List Token :=
  glue "FIELDS=" (listBody parenthesized ls)

theorem isFormat_fields (w : String) : (Token.word ("FIELDS=" ++ w)).isFormat = false := by
  show Text.beginsWith formatKeyword ("FIELDS=" ++ w) = false
  cases hafter : Text.after? formatKeyword ("FIELDS=" ++ w) with
  | none => simp [Text.beginsWith, hafter]
  | some code =>
    have htext := congrArg String.toList (Text.after?_eq_some_iff.1 hafter)
    simp [formatKeyword] at htext

/-- The tokens begin as a list does, with a parenthesis or with a number. -/
inductive BeginsList : List Token → Prop where
  | paren (ts : List Token) : BeginsList (.openParen :: ts)
  | number {w : String} (hw : BeginsNumeral w) (ts : List Token) : BeginsList (.word w :: ts)

theorem beginsList_tokens {ls : List ListedField} (hne : ls ≠ []) :
    BeginsList (listTokens ls ++ rest) := by
  obtain ⟨l, ls, rfl⟩ := List.exists_cons_of_ne_nil hne
  exact .number (beginsNumeral_repr l.position) _

theorem beginsList_body {parenthesized : Bool} {ls : List ListedField} (hne : ls ≠ []) :
    BeginsList (listBody parenthesized ls ++ rest) := by
  cases parenthesized with
  | true => exact .paren _
  | false => exact beginsList_tokens hne

namespace BeginsList

variable {ts : List Token} {head keyword : String}

theorem glue_append (h : BeginsList ts) : glue head ts ++ rest = glue head (ts ++ rest) := by
  cases h <;> rfl

/-- The tokens do not begin with a keyword. -/
theorem head?_ne (h : BeginsList ts)
    (hkeyword : ∃ d ∈ keyword.toList.head?, d.isDigit = false ∧ d ≠ '-') :
    ts.head? ≠ some (.word keyword) := by
  cases h with
  | paren => simp
  | number hw => simpa using hw.ne hkeyword

theorem exists_glue (h : BeginsList ts) (head : String) :
    ∃ w more, glue head ts = .word (head ++ w) :: more ∧ more ⊆ ts ∧
      (w = "" ∨ BeginsNumeral w) := by
  cases h with
  | paren more => exact ⟨"", .openParen :: more, by simp [glue], List.Subset.refl _, .inl rfl⟩
  | number hw more => exact ⟨_, more, rfl, List.subset_cons_self _ _, .inr hw⟩

/-- Tokens behind a keyword are not the keyword with another one behind it. -/
theorem glue_head?_ne_append (h : BeginsList ts)
    (hkeyword : ∃ d ∈ keyword.toList.head?, d.isDigit = false ∧ d ≠ '-') :
    (glue head ts).head? ≠ some (.word (head ++ keyword)) := by
  obtain ⟨w, more, hglue, -, hw⟩ := h.exists_glue head
  rw [hglue]
  intro heq
  obtain rfl : w = keyword := by simpa using heq
  rcases hw with rfl | hw
  · simp at hkeyword
  · exact hw.ne hkeyword rfl

theorem glue_head?_ne (h : BeginsList ts) (hkeyword : Text.beginsWith head keyword = false) :
    (glue head ts).head? ≠ some (.word keyword) := by
  obtain ⟨w, more, hglue, -, -⟩ := h.exists_glue head
  rw [hglue]
  intro heq
  have hafter : Text.after? head keyword = some w :=
    Text.after?_eq_some_iff.2 (by simpa using heq.symm)
  simp [Text.beginsWith, hafter] at hkeyword

theorem isFormat_glue (h : BeginsList ts) :
    (glue "FIELDS=" ts).head?.any Token.isFormat = false := by
  obtain ⟨w, more, hglue, -, -⟩ := h.exists_glue "FIELDS="
  rw [hglue]
  exact isFormat_fields w

/-- A list is no keyword that stands in the place of all fields. -/
theorem reads_keyword (h : BeginsList ts) (head keyword : String)
    (hkeyword : ∃ d ∈ keyword.toList.head?, d.isDigit = false ∧ d ≠ '-')
    (hhead : Text.beginsWith head keyword = false) :
    Reads (eatWord (head ++ keyword) <||> eatWord keyword) (glue head ts) false (glue head ts) :=
  .orM_right (.eatWord_other (h.glue_head?_ne_append hkeyword))
    (.eatWord_other (h.glue_head?_ne hhead))

theorem reads_eatHead (h : BeginsList ts) : Reads (eatHead head) (glue head ts) true ts := by
  refine .eatHead_glue ?_
  cases h with
  | paren => rintro _ ⟨⟩
  | number hw =>
    rintro _ ⟨⟩ rfl
    obtain ⟨c, hc, -⟩ := hw
    simp at hc

/-! ### Headings -/

theorem isFormat_heading (h : BeginsList ts) (heading : ListHeading) :
    (heading.tokens ts).head?.any Token.isFormat = false := by
  cases heading with
  | absent =>
    cases h with
    | paren => rfl
    | number hw => exact hw.isFormat
  | glued => exact h.isFormat_glue
  | apart => rfl

/-- A list behind a heading is no keyword that stands in the place of all fields. -/
theorem reads_keyword_heading (h : BeginsList ts) (heading : ListHeading) (keyword : String)
    (hkeyword : ∃ d ∈ keyword.toList.head?, d.isDigit = false ∧ d ≠ '-')
    (hhead : Text.beginsWith "FIELDS=" keyword = false) :
    Reads (eatWord ("FIELDS=" ++ keyword) <||> eatWord keyword) (heading.tokens ts) false
      (heading.tokens ts) := by
  cases heading with
  | absent =>
    refine .orM_right (.eatWord_other (h.head?_ne ⟨'F', ?_, by decide⟩))
      (.eatWord_other (h.head?_ne hkeyword))
    simp
  | glued => exact h.reads_keyword "FIELDS=" keyword hkeyword hhead
  | apart =>
    refine .orM_right (.eatWord_other ?_) (.eatWord_other ?_)
    · intro heq
      have htext := congrArg String.toList (Token.word.inj (Option.some.inj heq))
      rw [String.toList_append, List.self_eq_append_right] at htext
      simp [htext] at hkeyword
    · intro heq
      have hsame : keyword = "FIELDS=" := by simpa [ListHeading.tokens] using heq.symm
      rw [hsame] at hhead
      exact absurd hhead (by decide)

theorem reads_eatHead_heading (h : BeginsList ts) (heading : ListHeading) :
    ∃ b, Reads (eatHead "FIELDS=") (heading.tokens ts) b ts := by
  cases heading with
  | absent =>
    refine ⟨false, .eatHead_other ?_⟩
    cases h with
    | paren => rintro _ ⟨⟩
    | number hw =>
      rintro _ ⟨⟩
      exact hw.beginsWith_eq_false ⟨'F', rfl, by decide⟩
  | glued => exact ⟨true, h.reads_eatHead⟩
  | apart => exact ⟨true, .eatHead⟩

end BeginsList

section Operands

variable {config : Config} {default : Option FieldFormat} {ls : List ListedField}
  {keys : List SortKey} {fields : List Field} {parenthesized : Bool} {before behind : List Token}

/-- The tokens beside a list: nothing, or a format word. -/
def IsFormatSide (f : FieldFormat) (side : List Token) : Prop := side = [] ∨ side = [formatWord f]

theorem IsFormatSide.skipFormat (h : IsFormatSide f before)
    (hrest : rest.head?.any Token.isFormat = false) :
    ∃ b, Reads skipFormat (before ++ rest) b rest := by
  rcases h with rfl | rfl
  · exact ⟨false, .skipFormat_other hrest⟩
  · exact ⟨true, .skipFormat (isFormat_formatWord f)⟩

theorem IsFormatSide.skipFormat_end (h : IsFormatSide f behind) :
    ∃ b, Reads Card.skipFormat behind b [] := by
  have hskip := h.skipFormat (show ([] : List Token).head?.any Token.isFormat = false from rfl)
  rwa [List.append_nil] at hskip

theorem IsFormatSide.endsList (h : IsFormatSide f behind) : endsList behind = true := by
  rcases h with rfl | rfl
  · rfl
  · simp [Card.endsList, isFormat_formatWord]

/-- The tokens behind a list may follow its last field: the list is in parentheses, or nothing
follows, or the last field is not bare. -/
def MayFollow (parenthesized : Bool) (ls : List ListedField) (behind : List Token) : Prop :=
  parenthesized = true ∨ ∀ l ∈ ls.getLast?, l.MayPrecede behind

/-- What closes a list, and the tokens behind it. -/
def closing (parenthesized : Bool) (behind : List Token) : List Token :=
  if parenthesized then .closeParen :: behind else behind

theorem reads_open (hne : ls ≠ []) :
    Reads (eat .openParen) (listBody parenthesized ls ++ behind) parenthesized
      (listTokens ls ++ closing parenthesized behind) := by
  cases parenthesized with
  | true => simpa [listBody, closing] using Reads.eat
  | false =>
    obtain ⟨l, ls, rfl⟩ := List.exists_cons_of_ne_nil hne
    refine .eat_other ?_
    simp [listBody, listTokens, ListedField.tokens]

theorem reads_collect_closing {α : Type} {item : Parser α} {stands : ListedField → α → Prop}
    {xs : List α} (hitem : ReadsListed item stands) (h : List.Forall₂ stands ls xs)
    (hbehind : IsFormatSide f behind) (hmay : MayFollow parenthesized ls behind) :
    Reads (collect (! ·.endsFields) item) (listTokens ls ++ closing parenthesized behind) xs
      (closing parenthesized behind) := by
  cases parenthesized with
  | true =>
    refine reads_collect_listed hitem h ?_ rfl
    intro l _ w hw
    cases hw
  | false =>
    refine reads_collect_listed hitem h ?_ hbehind.endsList
    rcases hmay with hmay | hmay
    · cases hmay
    · exact hmay

theorem reads_keysOnCard {stands : ListedField → SortKey → Prop}
    (hitem : ReadsListed (SortKey.onCard config.encoding default) stands)
    (hkeys : List.Forall₂ stands ls keys) (hne : ls ≠ []) (hbehind : IsFormatSide f behind)
    (hmay : MayFollow parenthesized ls behind) :
    Reads (Comparer.keysOnCard config.encoding default)
      (listBody parenthesized ls ++ behind) keys [] := by
  have hnonempty : keys.isEmpty = false := by
    cases hkeys with
    | nil => exact absurd rfl hne
    | cons _ _ => rfl
  obtain ⟨b, hskip⟩ := hbehind.skipFormat_end
  refine (reads_open hne).bind ((reads_collect_closing hitem hkeys hbehind hmay).bind ?_)
  simp only [hnonempty, Bool.false_eq_true, if_false]
  have hend := hskip.bind (f := fun _ => do
    expectEnd
    pure keys) (Reads.expectEnd.bind .pure)
  cases parenthesized with
  | true => exact Reads.expect.bind hend
  | false => exact hend

theorem listOperand_append (hne : ls ≠ []) :
    listOperand parenthesized ls ++ rest = glue "FIELDS=" (listBody parenthesized ls ++ rest) := by
  have hbody : BeginsList (listBody parenthesized ls ++ []) := beginsList_body hne
  rw [List.append_nil] at hbody
  exact hbody.glue_append

/-- Keys are read behind every heading, with a default format on either side, where it may
stand. -/
theorem reads_comparer_heading {stands : ListedField → SortKey → Prop}
    (hitem : ReadsListed (SortKey.onCard config.encoding default) stands)
    (hkeys : List.Forall₂ stands ls keys) (hne : ls ≠ []) (heading : ListHeading)
    (hbefore : IsFormatSide f before) (hbehind : IsFormatSide f behind)
    (hmay : MayFollow parenthesized ls behind) :
    Reads (Comparer.onCard config default)
      (before ++ heading.tokens (listBody parenthesized ls ++ behind))
      (some ⟨keys, config.collation⟩) [] := by
  have hbody : BeginsList (listBody parenthesized ls ++ behind) := beginsList_body hne
  obtain ⟨b, hskip⟩ := hbefore.skipFormat (hbody.isFormat_heading heading)
  obtain ⟨b', hhead⟩ := hbody.reads_eatHead_heading heading
  exact hskip.bind ((hbody.reads_keyword_heading heading "COPY" ⟨'C', rfl, by decide⟩ rfl).bind
    (hhead.bind ((Reads.eatWord_other (hbody.head?_ne ⟨'C', rfl, by decide⟩)).bind
      ((reads_keysOnCard hitem hkeys hne hbehind hmay).bind .pure))))

/-- A card is refused if its list of keys is. -/
theorem refuses_comparer_heading {fault : Nat → String → Fault} (hne : ls ≠ [])
    (heading : ListHeading)
    (hcollect : Refuses (collect (! ·.endsFields) (SortKey.onCard config.encoding default))
      (listTokens ls ++ closing parenthesized behind) fault) :
    Refuses (Comparer.onCard config default)
      (heading.tokens (listBody parenthesized ls ++ behind)) fault := by
  have hbody : BeginsList (listBody parenthesized ls ++ behind) := beginsList_body hne
  obtain ⟨b, hhead⟩ := hbody.reads_eatHead_heading heading
  exact (Reads.skipFormat_other (hbody.isFormat_heading heading)).bind_refuses
    ((hbody.reads_keyword_heading heading "COPY" ⟨'C', rfl, by decide⟩ rfl).bind_refuses
      (hhead.bind_refuses
        ((Reads.eatWord_other (hbody.head?_ne ⟨'C', rfl, by decide⟩)).bind_refuses
          ((reads_open hne).bind_refuses hcollect.bind).bind)))

/-- Keys are read with a default format on either side, where it may stand. -/
theorem reads_comparer (hkeys : List.Forall₂ (ListedField.IsKey config.encoding f) ls keys)
    (hne : ls ≠ []) (hbefore : IsFormatSide f before) (hbehind : IsFormatSide f behind)
    (hmay : MayFollow parenthesized ls behind) :
    Reads (Comparer.onCard config (some f)) (before ++ (listOperand parenthesized ls ++ behind))
      (some ⟨keys, config.collation⟩) [] := by
  rw [listOperand_append hne]
  exact reads_comparer_heading readsListed_key hkeys hne .glued hbefore hbehind hmay

theorem refuses_comparer (hkeys : List.Forall₂ (ListedField.IsKey config.encoding f) ls keys)
    (hne : ls ≠ []) (hbare : ∃ l ∈ ls.getLast?, l.IsBare) :
    Refuses (Comparer.onCard config (some f)) (listOperand false ls ++ [formatWord f])
      (formatWordFault f) := by
  rw [listOperand_append hne]
  exact refuses_comparer_heading hne .glued
    (refuses_collect_listed readsListed_key hkeys hbare)

theorem reads_fieldsOnCard {stands : ListedField → Field → Prop}
    (hitem : ReadsListed (SumRule.fieldOnCard config.encoding default) stands)
    (hfields : List.Forall₂ stands ls fields) (hne : ls ≠ [])
    (hbehind : IsFormatSide f behind) (hmay : MayFollow parenthesized ls behind) :
    Reads (SumRule.fieldsOnCard config.encoding default)
      (listTokens ls ++ closing parenthesized behind) (.addFields fields)
      (closing parenthesized behind) := by
  have hnonempty : fields.isEmpty = false := by
    cases hfields with
    | nil => exact absurd rfl hne
    | cons _ _ => rfl
  refine (Reads.eatWord_other ((beginsList_tokens hne).head?_ne ⟨'N', rfl, by decide⟩)).bind
    ((reads_collect_closing hitem hfields hbehind hmay).bind ?_)
  simp only [hnonempty, Bool.false_eq_true, if_false]
  exact .pure

/-- Summed fields are read behind every heading, with a default format on either side, where it may
stand. -/
theorem reads_sum_heading {stands : ListedField → Field → Prop}
    (hitem : ReadsListed (SumRule.fieldOnCard config.encoding default) stands)
    (hfields : List.Forall₂ stands ls fields) (hne : ls ≠ []) (heading : ListHeading)
    (hbefore : IsFormatSide f before) (hbehind : IsFormatSide f behind)
    (hmay : MayFollow parenthesized ls behind) :
    Reads (SumRule.onCard config.encoding default)
      (before ++ heading.tokens (listBody parenthesized ls ++ behind)) (.addFields fields) [] := by
  have hbody : BeginsList (listBody parenthesized ls ++ behind) := beginsList_body hne
  obtain ⟨b, hskip⟩ := hbefore.skipFormat (hbody.isFormat_heading heading)
  obtain ⟨b', hhead⟩ := hbody.reads_eatHead_heading heading
  have hrule : Reads (SumRule.ruleOnCard config.encoding default)
      (heading.tokens (listBody parenthesized ls ++ behind)) (.addFields fields) behind := by
    refine (hbody.reads_keyword_heading heading "NONE" ⟨'N', rfl, by decide⟩ rfl).bind
      (hhead.bind ((reads_open hne).bind
        ((reads_fieldsOnCard hitem hfields hne hbehind hmay).bind ?_)))
    cases parenthesized with
    | true => exact Reads.expect.bind .pure
    | false => exact .pure
  obtain ⟨b'', hskip'⟩ := hbehind.skipFormat_end
  exact hskip.bind (hrule.bind (hskip'.bind (Reads.expectEnd.bind .pure)))

/-- A card is refused if its list of summed fields is. -/
theorem refuses_sum_heading {fault : Nat → String → Fault} (hne : ls ≠ []) (heading : ListHeading)
    (hcollect : Refuses (collect (! ·.endsFields) (SumRule.fieldOnCard config.encoding default))
      (listTokens ls ++ closing parenthesized behind) fault) :
    Refuses (SumRule.onCard config.encoding default)
      (heading.tokens (listBody parenthesized ls ++ behind)) fault := by
  have hbody : BeginsList (listBody parenthesized ls ++ behind) := beginsList_body hne
  obtain ⟨b, hhead⟩ := hbody.reads_eatHead_heading heading
  have hfieldsOnCard : Refuses (SumRule.fieldsOnCard config.encoding default)
      (listTokens ls ++ closing parenthesized behind) fault :=
    (Reads.eatWord_other ((beginsList_tokens hne).head?_ne ⟨'N', rfl, by decide⟩)).bind_refuses
      hcollect.bind
  exact (Reads.skipFormat_other (hbody.isFormat_heading heading)).bind_refuses
    ((hbody.reads_keyword_heading heading "NONE" ⟨'N', rfl, by decide⟩ rfl).bind_refuses
      (hhead.bind_refuses ((reads_open hne).bind_refuses hfieldsOnCard.bind))).bind

/-- Summed fields are read with a default format on either side, where it may stand. -/
theorem reads_sum (hfields : List.Forall₂ (ListedField.IsSummed config.encoding f) ls fields)
    (hne : ls ≠ []) (hbefore : IsFormatSide f before) (hbehind : IsFormatSide f behind)
    (hmay : MayFollow parenthesized ls behind) :
    Reads (SumRule.onCard config.encoding (some f))
      (before ++ (listOperand parenthesized ls ++ behind)) (.addFields fields) [] := by
  rw [listOperand_append hne]
  exact reads_sum_heading readsListed_summed hfields hne .glued hbefore hbehind hmay

theorem refuses_sum (hfields : List.Forall₂ (ListedField.IsSummed config.encoding f) ls fields)
    (hne : ls ≠ []) (hbare : ∃ l ∈ ls.getLast?, l.IsBare) :
    Refuses (SumRule.onCard config.encoding (some f)) (listOperand false ls ++ [formatWord f])
      (formatWordFault f) := by
  rw [listOperand_append hne]
  exact refuses_sum_heading hne .glued
    (refuses_collect_listed readsListed_summed hfields hbare)

theorem plain_listBody (parenthesized : Bool) (ls : List ListedField) :
    ∀ t ∈ listBody parenthesized ls, t.Plain := by
  have hplain : ∀ t ∈ listTokens ls, t.Plain := by
    intro t ht
    obtain ⟨l, -, hl⟩ := List.mem_flatMap.1 ht
    exact l.plain_tokens t hl
  cases parenthesized with
  | true => simpa [listBody, or_imp, forall_and] using hplain
  | false => exact hplain

theorem isFormat_listOperand (hne : ls ≠ []) :
    ∀ t ∈ listOperand parenthesized ls, t.isFormat = false := by
  have hbody : BeginsList (listBody parenthesized ls ++ []) := beginsList_body hne
  rw [List.append_nil] at hbody
  obtain ⟨w, more, hglue, hmore, -⟩ := hbody.exists_glue "FIELDS="
  rw [listOperand, hglue]
  intro t ht
  rcases List.mem_cons.1 ht with rfl | ht
  · exact isFormat_fields w
  · exact (plain_listBody parenthesized ls t (hmore ht)).isFormat

/-! ## The default format of a list -/

/-- A format word may stand behind the list: a parenthesis closes the list, or its last field has
a format or a direction of its own. -/
def FormatMayFollow (parenthesized : Bool) (ls : List ListedField) : Prop :=
  parenthesized = true ∨ ∀ l ∈ ls.getLast?, ¬ l.IsBare

theorem FormatMayFollow.mayFollow (h : FormatMayFollow parenthesized ls) :
    MayFollow parenthesized ls [formatWord f] := by
  refine h.imp_right fun h l hl => ?_
  rintro _ ⟨⟩
  refine ⟨?_, fun hbare => absurd hbare (h l hl)⟩
  cases f <;> rfl

/-- A card with the list `ls` has the value `a` if the default format `f` stands before the list,
as in the text `before`. If it stands behind the list, as in the text `behind`, the value is the
same where a format word may follow the list; elsewhere the format word is an unknown format. -/
structure TakesFormat {α : Type} (ofCard : String → Except Fault α) (a : α) (f : FieldFormat)
    (parenthesized : Bool) (ls : List ListedField) (before behind : String) : Prop where
  read_before : ofCard before = .ok a
  read_behind : FormatMayFollow parenthesized ls → ofCard behind = .ok a
  refused_behind : ¬ FormatMayFollow parenthesized ls → ∃ index,
    ofCard behind = .error (.unknownFormat (formatKeyword ++ f.code) index behind)

theorem takesFormat {α : Type} {p : Option FieldFormat → Parser α} {a : α}
    {textBefore textBehind : String} (hne : ls ≠ [])
    (hbefore : Renders (formatWord f :: listOperand parenthesized ls) textBefore.toList)
    (hbehind : Renders (listOperand parenthesized ls ++ [formatWord f]) textBehind.toList)
    (hreads : ∀ before behind, IsFormatSide f before → IsFormatSide f behind →
      MayFollow parenthesized ls behind →
      Reads (p (some f)) (before ++ (listOperand parenthesized ls ++ behind)) a [])
    (hrefuses : (∃ l ∈ ls.getLast?, l.IsBare) →
      Refuses (p (some f)) (listOperand false ls ++ [formatWord f]) (formatWordFault f)) :
    TakesFormat (readWithFormat p) a f parenthesized ls textBefore textBehind where
  read_before := by
    have hnothing : MayFollow parenthesized ls [] := .inr fun _ _ _ hw => nomatch hw
    have hread := hreads [formatWord f] [] (.inr rfl) (.inl rfl) hnothing
    rw [List.append_nil] at hread
    exact readWithFormat_eq_ok hbefore.lexes .here hread
  read_behind := by
    intro hmay
    exact readWithFormat_eq_ok hbehind.lexes (.append (isFormat_listOperand hne) .here)
      (hreads [] [formatWord f] (.inl rfl) (.inr rfl) hmay.mayFollow)
  refused_behind := by
    intro hmay
    obtain ⟨hparen, hlast⟩ := not_or.1 hmay
    obtain rfl : parenthesized = false := by simpa using hparen
    have hbare : ∃ l ∈ ls.getLast?, l.IsBare := by
      simpa [not_forall] using hlast
    exact readWithFormat_eq_error hbehind.lexes (.append (isFormat_listOperand hne) .here)
      (hrefuses hbare)

/-- **A default format may stand before every list of fields, and behind it if the list is in
parentheses or its last field says more than its numbers.** The value is the same on either side.
Behind a bare list whose last field is just two numbers, the `FORMAT=` word is taken for the format
of that field, and the card is refused. -/
theorem defaultFormat_before_and_behind {textBefore textBehind : String} (hne : ls ≠ [])
    (hbefore : Renders (formatWord f :: listOperand parenthesized ls) textBefore.toList)
    (hbehind : Renders (listOperand parenthesized ls ++ [formatWord f]) textBehind.toList) :
    (∀ keys, List.Forall₂ (ListedField.IsKey config.encoding f) ls keys →
      TakesFormat (fun text => Comparer.ofCard text config) (some ⟨keys, config.collation⟩) f
        parenthesized ls textBefore textBehind) ∧
    ∀ fields, List.Forall₂ (ListedField.IsSummed config.encoding f) ls fields →
      TakesFormat (fun text => SumRule.ofCard text config.encoding) (.addFields fields) f
        parenthesized ls textBefore textBehind := by
  constructor
  · intro keys hkeys
    exact takesFormat hne hbefore hbehind
      (fun _ _ hside hside' hmay => reads_comparer hkeys hne hside hside' hmay)
      (refuses_comparer hkeys hne)
  · intro fields hfields
    exact takesFormat hne hbefore hbehind
      (fun _ _ hside hside' hmay => reads_sum hfields hne hside hside' hmay)
      (refuses_sum hfields hne)

/-- The bare field `1,2` takes the format `ZD` from a word before the list, as a key and as a
summed field, and refuses the word behind the list. -/
theorem bareField_before_and_behind :
    let field : ListedField := { position := 1, length := 2 }
    TakesFormat (fun text => Comparer.ofCard text {})
        (some ⟨[⟨⟨0, 2, .zd, .ascii⟩, .ascending⟩], .native⟩) .zd false [field]
        "FORMAT=ZD,FIELDS=1,2" "FIELDS=1,2,FORMAT=ZD" ∧
      TakesFormat (fun text => SumRule.ofCard text .ascii) (.addFields [⟨0, 2, .zd, .ascii⟩]) .zd
        false [field] "FORMAT=ZD,FIELDS=1,2" "FIELDS=1,2,FORMAT=ZD" := by
  intro field
  have hcomma : isSeparator ',' = true := rfl
  have hfirst : (Token.word "FIELDS=1").WellFormed := ⟨by decide, by decide⟩
  have hsecond : (Token.word "2").WellFormed := ⟨by decide, by decide⟩
  have hformat : (Token.word "FORMAT=ZD").WellFormed := ⟨by decide, by decide⟩
  have hbefore : Renders (formatWord .zd :: listOperand false [field])
      "FORMAT=ZD,FIELDS=1,2".toList := by
    have htokens : formatWord .zd :: listOperand false [field] =
        [.word "FORMAT=ZD", .word "FIELDS=1", .word "2"] := by decide +kernel
    rw [htokens]
    exact ((renders_singleton hsecond).token hcomma hfirst).token hcomma hformat
  have hbehind : Renders (listOperand false [field] ++ [formatWord .zd])
      "FIELDS=1,2,FORMAT=ZD".toList := by
    have htokens : listOperand false [field] ++ [formatWord .zd] =
        [.word "FIELDS=1", .word "2", .word "FORMAT=ZD"] := by decide +kernel
    rw [htokens]
    exact ((renders_singleton hformat).token hcomma hsecond).token hcomma hfirst
  obtain ⟨hkeys, hfields⟩ := defaultFormat_before_and_behind (by simp) hbefore hbehind
  exact ⟨hkeys _ (.cons ⟨rfl, rfl⟩ .nil), hfields _ (.cons ⟨rfl, rfl, rfl⟩ .nil)⟩

/-- The keys of `FORMAT=CH,FIELDS=1,2` are refused if the default format stands behind them. -/
theorem bareKey_refuses_format_behind :
    Comparer.ofCard "FORMAT=CH,FIELDS=1,2" {} =
        .ok (some ⟨[⟨⟨0, 2, .ch, .ascii⟩, .ascending⟩], .native⟩) ∧
      Comparer.ofCard "FIELDS=1,2,FORMAT=CH" {} =
        .error (.unknownFormat "FORMAT=CH" 11 "FIELDS=1,2,FORMAT=CH") := by
  decide +kernel

end Operands

end Card

end CardSort
