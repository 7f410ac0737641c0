import CardSort.Proofs.Card.Scanning

/-!
# Where the tokens of a card stand

A cursor holds its token, the index of the token and the unread text apart from each other. When it
has read a token, the token stands in the text at the index, in front of the unread text.

* `CutsAt` — the text can be cut at a byte index; `CutsAt.behind`, `CutsAt.isValid`.
* `Cursor.Stands` — the invariant of a cursor on its text; `Cursor.Stands.isValid`,
  `Cursor.Stands.index_atEnd`.
* `Cursor.advance_cases` — **a token that is read stands in the text**, and the fault of a literal
  that is not closed marks it there.
* `Cursor.stands_of_start` — the first token.
* `Cursor.Stands.behind` — a word without its head.
-/

set_option autoImplicit false

namespace CardSort

/-! ## Byte indexes -/

theorem Text.utf8ByteSize_ofList (cs : List Char) :
    (String.ofList cs).utf8ByteSize = Text.byteLength cs := by
  induction cs with
  | nil => simp
  | cons c cs ih =>
    rw [← List.singleton_append, String.ofList_append, String.utf8ByteSize_append, ih,
      ← String.singleton_eq_ofList, String.utf8ByteSize_singleton]
    simp

theorem Text.byteLength_toList (s : String) : Text.byteLength s.toList = s.utf8ByteSize := by
  rw [← Text.utf8ByteSize_ofList, String.ofList_toList]

namespace Card

/-- The text can be cut at the byte index, and `after` is the part behind the cut. -/
def CutsAt (text : String) (index : Nat) (after : List Char) : Prop :=
  ∃ before, text.toList = before ++ after ∧ Text.byteLength before = index

theorem CutsAt.isValid {text : String} {index : Nat} {after : List Char}
    (h : CutsAt text index after) : (String.Pos.Raw.mk index).IsValid text := by
  obtain ⟨before, htext, hindex⟩ := h
  refine String.Pos.Raw.isValid_iff_exists_append.2
    ⟨String.ofList before, String.ofList after, ?_, ?_⟩
  · rw [← String.ofList_append, ← htext, String.ofList_toList]
  · rw [← hindex, ← Text.utf8ByteSize_ofList]
    rfl

/-- A cut further behind. -/
theorem CutsAt.behind {text : String} {index : Nat} {mid after : List Char}
    (h : CutsAt text index (mid ++ after)) : CutsAt text (index + Text.byteLength mid) after := by
  obtain ⟨before, htext, hindex⟩ := h
  exact ⟨before ++ mid, by rw [htext, List.append_assoc], by rw [Text.byteLength_append, hindex]⟩

/-! ## Cursors -/

/-- The cursor stands on its text: the unread text is what is behind its offset, and the token is
written at its index, directly in front of the unread text, which does not go on with it. At the end
nothing is left. -/
structure Cursor.Stands (c : Cursor) : Prop where
  rest : CutsAt c.source c.offset c.rest
  token : ∀ t, c.current = some t → t.WellFormed ∧ (∀ d ∈ c.rest.head?, t.EndsAt d) ∧
    CutsAt c.source c.index (t.render ++ c.rest) ∧ c.index + t.width = c.offset
  atEnd : c.current = none → c.rest = [] ∧ c.index = c.offset

theorem Token.width_pos {t : Token} (ht : t.WellFormed) : 0 < t.width := by
  obtain ⟨c, rest, hc⟩ := List.exists_cons_of_ne_nil (Token.render_ne_nil ht)
  have hsize := c.utf8Size_pos
  rw [Token.width, hc, Text.byteLength_cons]
  omega

/-- A token takes bytes, so the index is in front of the unread text. -/
theorem Cursor.Stands.index_lt {c : Cursor} (h : c.Stands) {t : Token} (ht : c.current = some t) :
    c.index < c.offset := by
  obtain ⟨hwf, -, -, hwidth⟩ := h.token t ht
  have hpos := Token.width_pos hwf
  omega

/-- The text can be cut where the cursor stands. -/
theorem Cursor.Stands.isValid {c : Cursor} (h : c.Stands) :
    (String.Pos.Raw.mk c.index).IsValid c.source := by
  cases hc : c.current with
  | none =>
    rw [(h.atEnd hc).2]
    exact h.rest.isValid
  | some t =>
    obtain ⟨-, -, hcut, -⟩ := h.token t hc
    exact hcut.isValid

theorem Cursor.Stands.index_atEnd {c : Cursor} (h : c.Stands) (hc : c.current = none) :
    c.index = c.source.utf8ByteSize := by
  obtain ⟨hrest, hindex⟩ := h.atEnd hc
  obtain ⟨before, hsource, hbefore⟩ := h.rest
  rw [hrest, List.append_nil] at hsource
  rw [hindex, ← hbefore, ← hsource, Text.byteLength_toList]

/-- **Reading on from where the unread text begins**: to a token that stands behind it, or to the
end, unless a literal is not closed, which the fault marks in the text. -/
theorem Cursor.advance_cases {c : Cursor} (h : CutsAt c.source c.offset c.rest) :
    (∃ c', advance c = .ok () c' ∧ c'.Stands ∧ c'.source = c.source ∧ c.offset ≤ c'.index) ∨
      ∃ index c', advance c = .error (.card .unterminatedLiteral index c.source) c' ∧
        (String.Pos.Raw.mk index).IsValid c.source := by
  have hsplit : c.rest = c.rest.takeWhile isSeparator ++ c.rest.dropWhile isSeparator :=
    List.takeWhile_append_dropWhile.symm
  have hcut : CutsAt c.source (c.offset + Text.byteLength (c.rest.takeWhile isSeparator))
      (c.rest.dropWhile isSeparator) := CutsAt.behind (hsplit ▸ h)
  cases hread : Lexeme.read (c.rest.dropWhile isSeparator) with
  | finished =>
    rw [Lexeme.eq_nil_of_read hread] at hcut
    simp only [advance, hread]
    refine .inl ⟨_, rfl, ⟨hcut, ?_, fun _ => ⟨rfl, rfl⟩⟩, rfl, Nat.le_add_right _ _⟩
    rintro t ⟨⟩
  | token t more =>
    obtain ⟨hwf, hends⟩ := endsAt_of_read hread
    rw [Lexeme.read_eq_token hread] at hcut
    simp only [advance, hread]
    refine .inl ⟨_, rfl, ⟨hcut.behind, ?_, ?_⟩, rfl, Nat.le_add_right _ _⟩
    · rintro _ ⟨⟩
      exact ⟨hwf, hends, hcut, rfl⟩
    · rintro ⟨⟩
  | unclosed =>
    simp only [advance, hread]
    exact .inr ⟨_, _, rfl, hcut.isValid⟩

/-- The first token of a text is where a cursor begins. -/
theorem Cursor.stands_of_start {text : String} {c : Cursor} (h : start text = .ok c) :
    c.Stands ∧ c.source = text := by
  have hbefore : CutsAt text 0 text.toList := ⟨[], rfl, rfl⟩
  unfold start at h
  rcases Cursor.advance_cases (c := .before text) hbefore with
    ⟨c', hadvance, hstands, hsource, -⟩ | ⟨_, _, hadvance, -⟩
  · rw [hadvance] at h
    cases h
    exact ⟨hstands, hsource⟩
  · rw [hadvance] at h
    cases h

/-- At its end a text gives no further token, and the cursor stays. -/
theorem Cursor.Stands.advance_atEnd {c : Cursor} (h : c.Stands) (hc : c.current = none) :
    advance c = .ok () c := by
  obtain ⟨hrest, hindex⟩ := h.atEnd hc
  obtain ⟨source, current, index, rest, offset⟩ := c
  simp only at hc hrest hindex
  subst hc hrest hindex
  rfl

/-- What is left of a word when its head is taken off stands behind the head. -/
theorem Cursor.Stands.behind {c : Cursor} {head rest : String} (h : c.Stands)
    (hc : c.current = some (.word (head ++ rest))) (hrest : rest ≠ "") :
    Cursor.Stands
      { c with current := some (.word rest), index := c.index + head.utf8ByteSize } := by
  obtain ⟨hwf, hends, hcut, hwidth⟩ := h.token _ hc
  refine ⟨h.rest, ?_, ?_⟩
  · rintro _ ⟨⟩
    refine ⟨⟨hrest, ?_⟩, hends, ?_, ?_⟩
    · have hall := hwf.2
      rw [String.toList_append, List.all_append, Bool.and_eq_true] at hall
      exact hall.2
    · rw [Token.render, String.toList_append, List.append_assoc] at hcut
      rw [← Text.byteLength_toList]
      exact hcut.behind
    · rw [Token.width, Token.render, String.toList_append, Text.byteLength_append,
        Text.byteLength_toList, ← Nat.add_assoc] at hwidth
      exact hwidth
  · rintro ⟨⟩

end Card

end CardSort
