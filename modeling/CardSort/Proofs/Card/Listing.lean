import CardSort.Proofs.Card.Fields

/-!
# Lists of keys and sums are read back

A list of fields without a default format has exactly one reading, however its card is written: with
separators of every kind and number, in parentheses or bare, behind `FIELDS=` or without it. Either
every field is read as it stands, or the card is refused for the first field that is wrong.

* `Card.Shows` — a card that shows a list of fields; `Card.exists_shows` finds one.
* `Card.refuses_key`, `Card.refuses_summed` — a field is refused for what is wrong with it.
* `Card.refuses_collect_first` — a list is refused for the first field that is wrong.
* `Card.Answers` — a card that gives the outcome of a reading.
* `Card.list_reads_back` — **a list is read as its fields, or refused for the first wrong one**.
-/

set_option autoImplicit false

namespace CardSort

open Card

/-- The numbers of the field are numbers of a card. -/
def ListedField.InWords (l : ListedField) : Prop :=
  l.position < 2 ^ (64 : Nat) ∧ l.length < 2 ^ (64 : Nat)

instance (l : ListedField) : Decidable l.InWords := inferInstanceAs (Decidable (_ ∧ _))

namespace Card

variable {encoding : Encoding} {default : Option FieldFormat} {l : ListedField}
  {ls : List ListedField} {rest : List Token} {issue : CardIssue}

/-! ## Cards that show a list -/

/-- The text shows the list of fields behind the heading, in parentheses or bare, and nothing
else. -/
def Shows (heading : ListHeading) (parenthesized : Bool) (ls : List ListedField) (text : String) :
    Prop :=
  Renders (heading.tokens (listBody parenthesized ls)) text.toList

theorem wellFormed_fields {w : String} (h : w = "" ∨ (Token.word w).WellFormed) :
    (Token.word ("FIELDS=" ++ w)).WellFormed := by
  have hkeyword : "FIELDS=".toList.all (! endsWord ·) = true := by decide
  have hword : w.toList.all (! endsWord ·) = true := by
    rcases h with rfl | h
    · rfl
    · exact h.2
  constructor
  · intro hempty
    have htext := congrArg String.toList hempty
    simp at htext
  · rw [String.toList_append, List.all_append, hkeyword, hword]
    rfl

/-- A list behind its heading stands on a card as it is, and gives no default format. -/
theorem plain_heading (heading : ListHeading) (parenthesized : Bool) (ls : List ListedField) :
    ∀ t ∈ heading.tokens (listBody parenthesized ls), t.Plain := by
  have hbody := plain_listBody parenthesized ls
  have hkeyword : (Token.word "FIELDS=").Plain :=
    ⟨wellFormed_fields (w := "") (.inl rfl), isFormat_fields ""⟩
  have happart : ∀ t ∈ .word "FIELDS=" :: listBody parenthesized ls, t.Plain :=
    List.forall_mem_cons.2 ⟨hkeyword, hbody⟩
  cases heading with
  | absent => exact hbody
  | glued =>
    show ∀ t ∈ glue "FIELDS=" (listBody parenthesized ls), t.Plain
    unfold glue
    split
    · rename_i w ts heq
      rw [heq, List.forall_mem_cons] at hbody
      exact List.forall_mem_cons.2
        ⟨⟨wellFormed_fields (.inr hbody.1.wellFormed), isFormat_fields w⟩, hbody.2⟩
    · exact happart
  | apart => exact happart

/-- Every list can be shown. -/
theorem exists_shows (heading : ListHeading) (parenthesized : Bool) (ls : List ListedField) :
    ∃ text, Shows heading parenthesized ls text := by
  obtain ⟨cs, hcs⟩ := exists_renders fun t ht =>
    (plain_heading heading parenthesized ls t ht).wellFormed
  exact ⟨String.ofList cs, by rwa [Shows, String.toList_ofList]⟩

/-- A list gives no default format. -/
theorem firstFormat_heading (heading : ListHeading) (parenthesized : Bool)
    (ls : List ListedField) : FirstFormat (heading.tokens (listBody parenthesized ls)) none := by
  have hformat := FirstFormat.append
    (fun t ht => (plain_heading heading parenthesized ls t ht).isFormat) .missing
  rwa [List.append_nil] at hformat

/-! ## Fields that are wrong -/

theorem Refuses.failAt {α : Type} {index : Nat} {ts : List Token} :
    Refuses (Card.failAt (α := α) issue index) ts (Fault.card issue) :=
  fun c _ => ⟨index, c, rfl⟩

theorem Refuses.declareField {position length index : Nat} {format : FieldFormat}
    {refusal : FieldRefusal} (h : Field.of position length format encoding = .error refusal) :
    Refuses (Card.declareField position length format encoding index) rest
      (Fault.card (.fieldRefused refusal)) := by
  unfold Card.declareField
  rw [h]
  exact .failAt

/-- A key that is wrong is refused for what is wrong with it. -/
theorem refuses_key (hwords : l.InWords) (h : l.key encoding default = .error issue)
    (hrest : l.MayPrecede rest) :
    Refuses (SortKey.onCard encoding default) (l.tokens ++ rest) (Fault.card issue) := by
  unfold ListedField.tokens
  rw [List.cons_append, List.cons_append, List.append_assoc]
  refine .get fun c _ => ?_
  refine (Reads.number (Numeral.word64?_repr hwords.1)).bind_refuses
    ((Reads.number (Numeral.word64?_repr hwords.2)).bind_refuses
      ((reads_keyFormat hrest).bind_refuses ?_))
  unfold ListedField.key at h
  cases hformat : l.format.or default with
  | none =>
    rw [hformat] at h
    cases h
    exact .failAt
  | some format =>
    simp only [hformat] at h
    rcases bind_eq_error_iff.1 h with h | ⟨_, _, h⟩
    · obtain ⟨refusal, hof, rfl⟩ := mapError_eq_error_iff.1 h
      exact (reads_keyDirection hrest).bind_refuses (Refuses.declareField hof).bind
    · cases h

/-- A summed field that is wrong is refused for what is wrong with it. -/
theorem refuses_summed (hwords : l.InWords) (hdirection : l.direction = none)
    (h : l.summed encoding default = .error issue) (hrest : l.MayPrecede rest) :
    Refuses (SumRule.fieldOnCard encoding default) (l.tokens ++ rest) (Fault.card issue) := by
  simp only [ListedField.tokens, hdirection, Option.toList_none, List.map_nil, List.append_nil,
    List.cons_append]
  refine .get fun c _ => ?_
  refine (Reads.number (Numeral.word64?_repr hwords.1)).bind_refuses
    ((Reads.number (Numeral.word64?_repr hwords.2)).bind_refuses
      ((reads_summedFormat hdirection hrest).bind_refuses ?_))
  unfold ListedField.summed at h
  cases hformat : l.format.or default with
  | none =>
    rw [hformat] at h
    cases h
    exact .failAt
  | some format =>
    simp only [hformat] at h ⊢
    cases htext : format.isText with
    | true =>
      simp only [htext, if_true] at h ⊢
      cases h
      exact .failAt
    | false =>
      simp only [htext, Bool.false_eq_true, if_false] at h ⊢
      obtain ⟨refusal, hof, rfl⟩ := mapError_eq_error_iff.1 h
      exact .declareField hof

/-! ## Lists with a wrong field -/

/-- What ends a list, or the next field of it, may follow a field. -/
theorem mayPrecede_listTokens (hwords : ∀ k ∈ ls, k.InWords) (hrest : nextWord? rest = none) :
    l.MayPrecede (listTokens ls ++ rest) := by
  cases ls with
  | nil =>
    intro w hw
    cases hrest.symm.trans hw
  | cons next ls =>
    have hnext : listTokens (next :: ls) ++ rest = next.tokens ++ (listTokens ls ++ rest) := by
      simp [listTokens]
    rw [hnext]
    exact mayPrecede_tokens (Numeral.word64?_repr (hwords next List.mem_cons_self).1)

/-- **A list is refused for the first field that is wrong**, behind fields that are read. -/
theorem refuses_collect_first {α : Type} {item : Parser α} {stands : ListedField → α → Prop}
    {front back : List ListedField} {xs : List α} {fault : Nat → String → Fault}
    (hitem : ReadsListed item stands) (hfront : List.Forall₂ stands front xs)
    (hwords : ∀ k ∈ l :: back, k.InWords) (hrest : nextWord? rest = none)
    (hrefuses : ∀ rest, l.MayPrecede rest → Refuses item (l.tokens ++ rest) fault) :
    Refuses (collect (! ·.endsFields) item) (listTokens (front ++ l :: back) ++ rest) fault := by
  obtain ⟨hl, hback⟩ := List.forall_mem_cons.1 hwords
  have hsplit : listTokens (front ++ l :: back) ++ rest =
      listTokens front ++ (l.tokens ++ (listTokens back ++ rest)) := by
    simp [listTokens]
  rw [hsplit]
  exact refuses_collect_at hitem hfront (Numeral.word64?_repr hl.1)
    (hrefuses _ (mayPrecede_listTokens hback hrest))

/-! ## Whole operands -/

/-- The card gives the outcome of a reading: its value, or a fault of the card that says what is
wrong. -/
def Answers {α : Type} (ofCard : String → Except Fault α) (text : String) :
    Except CardIssue α → Prop
  | .ok a => ofCard text = .ok a
  | .error issue => ∃ index, ofCard text = .error (.card issue index text)

section Operands

variable {config : Config} {heading : ListHeading} {parenthesized : Bool} {text : String}

theorem nextWord?_closing (parenthesized : Bool) : nextWord? (closing parenthesized []) = none := by
  cases parenthesized <;> rfl

theorem mayFollow_nil : MayFollow parenthesized ls [] := .inr fun _ _ _ hw => nomatch hw

/-- A list of keys is read as its fields, or refused for the first wrong one. -/
theorem answers_keys (hne : ls ≠ []) (hwords : ∀ l ∈ ls, l.InWords)
    (htext : Shows heading parenthesized ls text) :
    Answers (fun text => Comparer.ofCard text config) text
      ((ls.mapM (ListedField.key config.encoding none)).map
        fun keys => some ⟨keys, config.collation⟩) := by
  have hformat := firstFormat_heading heading parenthesized ls
  have hitem := readsListed_keyOnCard config.encoding none
  cases hkeys : ls.mapM (ListedField.key config.encoding none) with
  | ok keys =>
    have hmay : MayFollow parenthesized ls [] := mayFollow_nil
    have hreads := reads_comparer_heading (f := .ch) hitem (mapM_eq_ok_iff.1 hkeys) hne heading
      (.inl rfl) (.inl rfl) hmay
    rw [List.nil_append, List.append_nil] at hreads
    exact readWithFormat_eq_ok htext.lexes hformat hreads
  | error issue =>
    -- the fields in front of the first wrong one are read, and it stops the loop
    obtain ⟨front, l, back, keys, rfl, hfront, hl⟩ := mapM_eq_error_iff.1 hkeys
    have hbehind : ∀ k ∈ l :: back, k.InWords := fun k hk =>
      hwords k (List.mem_append_right _ hk)
    have hcollect := refuses_collect_first hitem (mapM_eq_ok_iff.1 hfront) hbehind
      (nextWord?_closing parenthesized)
      fun rest hrest => refuses_key (hbehind l List.mem_cons_self) hl hrest
    have hrefuses := refuses_comparer_heading hne heading hcollect
    rw [List.append_nil] at hrefuses
    exact readWithFormat_eq_error htext.lexes hformat hrefuses

/-- A list of summed fields is read as its fields, or refused for the first wrong one. -/
theorem answers_fields (hne : ls ≠ []) (hwords : ∀ l ∈ ls, l.InWords)
    (hdirection : ∀ l ∈ ls, l.direction = none) (htext : Shows heading parenthesized ls text) :
    Answers (fun text => SumRule.ofCard text config.encoding) text
      ((ls.mapM (ListedField.summed config.encoding none)).map .addFields) := by
  have hformat := firstFormat_heading heading parenthesized ls
  have hitem := readsListed_fieldOnCard config.encoding none
  cases hfields : ls.mapM (ListedField.summed config.encoding none) with
  | ok fields =>
    have hstands := (List.forall₂_and_left _ _).2 ⟨hdirection, mapM_eq_ok_iff.1 hfields⟩
    have hmay : MayFollow parenthesized ls [] := mayFollow_nil
    have hreads := reads_sum_heading (f := .ch) hitem hstands hne heading (.inl rfl) (.inl rfl) hmay
    rw [List.nil_append, List.append_nil] at hreads
    exact readWithFormat_eq_ok htext.lexes hformat hreads
  | error issue =>
    obtain ⟨front, l, back, fields, rfl, hfront, hl⟩ := mapM_eq_error_iff.1 hfields
    have hbehind : ∀ k ∈ l :: back, k.InWords := fun k hk =>
      hwords k (List.mem_append_right _ hk)
    have hstands := (List.forall₂_and_left _ _).2
      ⟨fun k hk => hdirection k (List.mem_append_left _ hk), mapM_eq_ok_iff.1 hfront⟩
    have hplain : l.direction = none :=
      hdirection l (List.mem_append_right _ List.mem_cons_self)
    have hcollect := refuses_collect_first hitem hstands hbehind
      (nextWord?_closing parenthesized)
      fun rest hrest => refuses_summed (hbehind l List.mem_cons_self) hplain hl hrest
    have hrefuses := refuses_sum_heading hne heading hcollect
    rw [List.append_nil] at hrefuses
    exact readWithFormat_eq_error htext.lexes hformat hrefuses

/-- **A list is read as its fields, or refused for the first wrong one.** Every list of fields can
be shown on a card, and however it is shown, its keys are those that its fields stand for one by
one, ascending where no direction is written, with the collation of the configuration; a field
without a format or one that cannot be declared is what the card is refused for. The same holds for
the fields of a sum, where a text format is wrong too. -/
theorem list_reads_back (config : Config) (heading : ListHeading) (parenthesized : Bool)
    (hne : ls ≠ []) (hwords : ∀ l ∈ ls, l.InWords) :
    (∃ text, Shows heading parenthesized ls text) ∧
    ∀ text, Shows heading parenthesized ls text →
      Answers (fun text => Comparer.ofCard text config) text
        ((ls.mapM (ListedField.key config.encoding none)).map
          fun keys => some ⟨keys, config.collation⟩) ∧
      ((∀ l ∈ ls, l.direction = none) →
        Answers (fun text => SumRule.ofCard text config.encoding) text
          ((ls.mapM (ListedField.summed config.encoding none)).map .addFields)) :=
  ⟨exists_shows heading parenthesized ls, fun _ htext =>
    ⟨answers_keys hne hwords htext, fun hdirection => answers_fields hne hwords hdirection htext⟩⟩

/-- Two fields between spaces and commas. As keys they are read, ascending where nothing is said,
but the characters of one of them cannot be summed. -/
theorem list_reads_back_spaced :
    Comparer.ofCard "FIELDS= ( 1,3 CH,4,2 ZD,D )" {} =
        .ok (some ⟨[⟨⟨0, 3, .ch, .ascii⟩, .ascending⟩, ⟨⟨3, 2, .zd, .ascii⟩, .descending⟩],
          .native⟩) ∧
      ∃ index, SumRule.ofCard "FIELDS= ( 4,2 ZD,1,3 CH )" .ascii =
        .error (.card (.sumOfText .ch) index "FIELDS= ( 4,2 ZD,1,3 CH )") := by
  have hspace : isSeparator ' ' = true := rfl
  have hcomma : isSeparator ',' = true := rfl
  have hnumber (n : Nat) : (Token.word n.repr).WellFormed := wellFormed_repr n
  have hcode (f : FieldFormat) : (Token.word f.code).WellFormed := (plain_code f).wellFormed
  have hfields : (Token.word "FIELDS=").WellFormed := ⟨by decide, by decide⟩
  have hdown : (Token.word "D").WellFormed := ⟨by decide, by decide⟩
  have hopen : Token.openParen.WellFormed := trivial
  have hclose : Renders [.closeParen] [')'] := renders_singleton trivial
  let name : ListedField := { position := 1, length := 3, format := some .ch }
  let amount : ListedField := { position := 4, length := 2, format := some .zd }
  let descending : ListedField := { amount with direction := some .descending }
  have hamount : Renders (descending.tokens ++ [.closeParen]) "4,2 ZD,D )".toList :=
    (((hclose.token hspace hdown).token hcomma (hcode .zd)).token hspace (hnumber 2)).token hcomma
      (hnumber 4)
  have hkeys : Shows .apart true [name, descending] "FIELDS= ( 1,3 CH,4,2 ZD,D )" :=
    ((((hamount.token hcomma (hcode .ch)).token hspace (hnumber 3)).token hcomma
      (hnumber 1)).token hspace hopen).token hspace hfields
  have hname : Renders (name.tokens ++ [.closeParen]) "1,3 CH )".toList :=
    ((hclose.token hspace (hcode .ch)).token hspace (hnumber 3)).token hcomma (hnumber 1)
  have hsum : Shows .apart true [amount, name] "FIELDS= ( 4,2 ZD,1,3 CH )" :=
    ((((hname.token hcomma (hcode .zd)).token hspace (hnumber 2)).token hcomma
      (hnumber 4)).token hspace hopen).token hspace hfields
  have hread := (list_reads_back {} .apart true (by simp) (by decide)).2 _ hkeys
  have hrefused := (list_reads_back {} .apart true (by simp) (by decide)).2 _ hsum
  exact ⟨hread.1, hrefused.2 (by decide)⟩

end Operands

end Card

end CardSort
