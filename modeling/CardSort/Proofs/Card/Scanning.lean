import CardSort.Card.Cursor
import CardSort.Proofs.Card.Lexing
import Mathlib.Algebra.Group.Nat.Even

/-!
# Reading a card to its end

A card is read to its end exactly if it shows tokens, and a text shows tokens exactly if its number
of quotes is even. Otherwise one literal is opened and never closed, and the fault lies at its
quote.

* `Lexes.renders`, `lexes_iff_renders` — a text is read as the tokens that it shows.
* `Breaks` — the text is read as tokens up to a literal that is not closed; `lexes_or_breaks`.
* `Unclosed` — what such a text looks like, said without reading it; `Breaks.unclosed`,
  `Unclosed.unique`.
* `tokens` — all tokens of a card; `tokens_spec`.
-/

set_option autoImplicit false

namespace CardSort.Card

/-! ## Quotes of a text -/

theorem even_count_doubleQuotes (cs : List Char) : Even ((doubleQuotes cs).count quote) := by
  induction cs with
  | nil => exact .zero
  | cons c cs ih =>
    by_cases hc : c = quote
    · simp only [doubleQuotes, hc, if_true, List.count_cons_self]
      exact (Nat.even_add_one.trans (not_congr Nat.even_add_one)).2 (not_not.2 ih)
    · simpa [doubleQuotes, hc] using ih

theorem count_quote_separators {gap : List Char} (h : ∀ c ∈ gap, isSeparator c = true) :
    gap.count quote = 0 :=
  List.count_eq_zero.2 fun hq => ne_quote_of_isSeparator (h quote hq) rfl

theorem Token.even_count_render {t : Token} (ht : t.WellFormed) :
    Even (t.render.count quote) := by
  cases t with
  | word text =>
    have hnot : quote ∉ text.toList := by
      intro hq
      have hends := Token.endsWord_eq_false ht hq
      simp [endsWord] at hends
    rw [Token.render, List.count_eq_zero.2 hnot]
    exact .zero
  | literal text =>
    obtain ⟨k, hk⟩ := even_count_doubleQuotes text.toList
    refine ⟨k + 1, ?_⟩
    simp [Token.render, hk]
    omega
  | openParen | closeParen | semicolon => exact ⟨0, rfl⟩

/-- A text that shows tokens has an even number of quotes. -/
theorem Renders.even_count {ts : List Token} {cs : List Char} (h : Renders ts cs) :
    Even (cs.count quote) := by
  induction h with
  | nil hgap => exact ⟨0, count_quote_separators hgap⟩
  | cons hgap ht _ _ ih =>
    rw [List.count_append, List.count_append, count_quote_separators hgap, Nat.zero_add]
    exact (Token.even_count_render ht).add ih

/-! ## What is read is shown -/

theorem head?_ne_quote_of_closeLiteral {cs text more : List Char}
    (h : closeLiteral cs = some (text, more)) : ∀ c ∈ more.head?, c ≠ quote := by
  fun_induction closeLiteral cs generalizing text with
  | case1 => cases h
  | case2 =>
    cases h
    simp
  | case3 => cases h
  | case4 rest ih =>
    obtain ⟨⟨t, m⟩, ht, he⟩ := Option.map_eq_some_iff.1 h
    cases he
    exact ih ht
  | case5 d rest hd =>
    cases h
    simpa using hd
  | case6 c d rest hc ih =>
    obtain ⟨⟨t, m⟩, ht, he⟩ := Option.map_eq_some_iff.1 h
    cases he
    exact ih ht

/-- A token that is read stands on a card as it is, and what follows does not continue it. -/
theorem Lexeme.endsAt_of_read {c : Char} {rest more : List Char} {t : Token}
    (hc : isSeparator c = false) (h : Lexeme.read (c :: rest) = .token t more) :
    t.WellFormed ∧ ∀ d ∈ more.head?, t.EndsAt d := by
  simp only [Lexeme.read] at h
  split at h
  · cases h
    exact ⟨trivial, fun _ _ => trivial⟩
  split at h
  · cases h
    exact ⟨trivial, fun _ _ => trivial⟩
  split at h
  · cases h
    exact ⟨trivial, fun _ _ => trivial⟩
  split at h
  · split at h
    · next hclose =>
      cases h
      exact ⟨trivial, head?_ne_quote_of_closeLiteral hclose⟩
    · cases h
  · next hopen hclose hsemicolon hquote =>
    have hword : endsWord c = false := by simp [endsWord, hc, hopen, hclose, hsemicolon, hquote]
    cases h
    refine ⟨⟨by simp [hword], ?_⟩, ?_⟩
    · rw [String.toList_ofList]
      exact List.all_takeWhile
    · intro d hd
      have hstop := List.head?_dropWhile_not (! endsWord ·) (c :: rest)
      rw [hd] at hstop
      simpa [Token.EndsAt] using hstop

/-- Tokens between which no separator stands do not run into one another. -/
theorem Renders.separator_of_endsAt {t next : Token} {ts : List Token} {cs : List Char}
    (h : Renders ts cs) (hends : ∀ c ∈ cs.head?, t.EndsAt c) (hnext : next ∈ ts.head?)
    (hruns : t.RunsInto next) : ∃ c ∈ cs.head?, isSeparator c = true := by
  cases h with
  | nil => cases hnext
  | @cons gap rest u us hgap hu _ _ =>
    obtain rfl : u = next := by simpa using hnext
    cases gap with
    | cons g gap => exact ⟨g, by simp, hgap g List.mem_cons_self⟩
    | nil =>
      cases u with
      | openParen | closeParen | semicolon => cases t <;> exact hruns.elim
      | word text =>
        cases t with
        | literal | openParen | closeParen | semicolon => exact hruns.elim
        | word =>
          obtain ⟨w, ws, hw⟩ := List.exists_cons_of_ne_nil (Token.render_ne_nil hu)
          have hfirst : endsWord w = true := hends w (by simp [hw])
          have hword := Token.endsWord_eq_false hu (c := w) (by
            rw [Token.render] at hw
            simp [hw])
          exact absurd hfirst (by simp [hword])
      | literal text =>
        cases t with
        | word | openParen | closeParen | semicolon => exact hruns.elim
        | literal => exact absurd rfl (hends quote (by simp [Token.render]))

theorem all_isSeparator_takeWhile (cs : List Char) :
    ∀ c ∈ cs.takeWhile isSeparator, isSeparator c = true :=
  fun _ => List.mem_takeWhile_imp

/-- The separators in front of a token that is read, the token, and the rest. -/
theorem eq_append_of_read {cs more : List Char} {t : Token}
    (h : Lexeme.read (cs.dropWhile isSeparator) = .token t more) :
    cs = cs.takeWhile isSeparator ++ (t.render ++ more) := by
  rw [← Lexeme.read_eq_token h, List.takeWhile_append_dropWhile]

theorem endsAt_of_read {cs more : List Char} {t : Token}
    (h : Lexeme.read (cs.dropWhile isSeparator) = .token t more) :
    t.WellFormed ∧ ∀ d ∈ more.head?, t.EndsAt d := by
  cases hcs : cs.dropWhile isSeparator with
  | nil => simp [hcs, Lexeme.read] at h
  | cons c rest =>
    rw [hcs] at h
    exact Lexeme.endsAt_of_read (isSeparator_false_of_dropWhile hcs) h

/-- A token that is read in front of a text that shows tokens. -/
theorem Renders.cons_of_read {cs more : List Char} {t : Token} {ts : List Token}
    (hread : Lexeme.read (cs.dropWhile isSeparator) = .token t more) (h : Renders ts more) :
    Renders (t :: ts) cs := by
  obtain ⟨ht, hends⟩ := endsAt_of_read hread
  rw [eq_append_of_read hread]
  exact .cons (all_isSeparator_takeWhile cs) ht h
    fun next hnext hruns => h.separator_of_endsAt hends hnext hruns

theorem Lexeme.eq_nil_of_read {cs : List Char} (h : Lexeme.read cs = .finished) : cs = [] := by
  cases cs with
  | nil => rfl
  | cons c rest =>
    simp only [Lexeme.read] at h
    repeat' split at h
    all_goals cases h

theorem Lexes.renders {cs : List Char} {ts : List Token} (h : Lexes cs ts) : Renders ts cs := by
  induction h with
  | finished h =>
    exact .nil (List.dropWhile_eq_nil_iff.1 (Lexeme.eq_nil_of_read h))
  | token hread _ ih => exact ih.cons_of_read hread

/-- **A text is read as exactly the tokens that it shows.** -/
theorem lexes_iff_renders {cs : List Char} {ts : List Token} : Lexes cs ts ↔ Renders ts cs :=
  ⟨Lexes.renders, Renders.lexes⟩

/-! ## Literals that are not closed -/

theorem getLast?_append_right {xs ys : List Char} (h : ys ≠ []) :
    (xs ++ ys).getLast? = ys.getLast? := by
  rw [List.getLast?_append, List.getLast?_eq_some_getLast h, Option.some_or]

/-- The text is read as the tokens up to a literal that is not closed; `before` is the text in
front of its quote. -/
inductive Breaks : List Char → List Token → List Char → Prop where
  | unclosed {cs : List Char} (h : Lexeme.read (cs.dropWhile isSeparator) = .unclosed) :
      Breaks cs [] (cs.takeWhile isSeparator)
  | token {cs more before : List Char} {t : Token} {ts : List Token}
      (h : Lexeme.read (cs.dropWhile isSeparator) = .token t more)
      (hmore : Breaks more ts before) :
      Breaks cs (t :: ts) (cs.takeWhile isSeparator ++ (t.render ++ before))

/-- Every text is read to its end or up to a literal that is not closed. -/
theorem lexes_or_breaks (cs : List Char) :
    (∃ ts, Lexes cs ts) ∨ ∃ ts before, Breaks cs ts before := by
  induction hn : cs.length using Nat.strong_induction_on generalizing cs with
  | _ n ih =>
    cases hread : Lexeme.read (cs.dropWhile isSeparator) with
    | finished => exact .inl ⟨[], .finished hread⟩
    | unclosed => exact .inr ⟨[], _, .unclosed hread⟩
    | token t more =>
      have hlt : more.length < n := hn ▸ length_lt_of_read hread
      rcases ih more.length hlt more rfl with ⟨ts, hts⟩ | ⟨ts, before, hts⟩
      · exact .inl ⟨t :: ts, .token hread hts⟩
      · exact .inr ⟨t :: ts, _, .token hread hts⟩

/-- The text ends in a literal that is not closed, and `before` stands in front of its quote: all
quotes before it come in pairs, it is not the second quote of a pair, and every quote behind it is
doubled. -/
structure Unclosed (cs before : List Char) : Prop where
  opens : ∃ text, cs = before ++ quote :: doubleQuotes text
  even : Even (before.count quote)
  apart : quote ∉ before.getLast?

theorem closeLiteral_eq_none {cs : List Char} (h : closeLiteral cs = none) :
    ∃ text, cs = doubleQuotes text := by
  fun_induction closeLiteral cs with
  | case1 => exact ⟨[], rfl⟩
  | case2 => cases h
  | case3 c hc => exact ⟨[c], by simp [doubleQuotes, hc]⟩
  | case4 rest ih =>
    obtain ⟨text, rfl⟩ := ih (Option.map_eq_none_iff.1 h)
    exact ⟨quote :: text, by simp [doubleQuotes]⟩
  | case5 => cases h
  | case6 c d rest hc ih =>
    obtain ⟨text, htext⟩ := ih (Option.map_eq_none_iff.1 h)
    exact ⟨c :: text, by simp [doubleQuotes, hc, htext]⟩

theorem Lexeme.opens_of_read {cs : List Char} (h : Lexeme.read cs = .unclosed) :
    ∃ text, cs = quote :: doubleQuotes text := by
  cases cs with
  | nil => cases h
  | cons c rest =>
    simp only [Lexeme.read] at h
    split at h
    · cases h
    split at h
    · cases h
    split at h
    · cases h
    split at h
    · next hquote =>
      split at h
      · cases h
      · next hclose =>
        obtain ⟨text, rfl⟩ := closeLiteral_eq_none hclose
        exact ⟨text, by rw [hquote]⟩
    · cases h

/-- A quote behind a token opens a literal: it neither belongs to the token nor follows one of its
quotes. -/
theorem Token.quote_not_mem_getLast? {t : Token} (ht : t.WellFormed) (hends : t.EndsAt quote) :
    quote ∉ t.render.getLast? := by
  intro hlast
  cases t with
  | word text =>
    have hword := Token.endsWord_eq_false ht (List.mem_of_mem_getLast? hlast)
    simp [endsWord] at hword
  | literal text => exact hends rfl
  | openParen | closeParen | semicolon => exact absurd hlast (by decide)

theorem Breaks.isUnclosed {cs before : List Char} {ts : List Token} (h : Breaks cs ts before) :
    Unclosed cs before := by
  induction h with
  | @unclosed cs hread =>
    obtain ⟨text, htext⟩ := Lexeme.opens_of_read hread
    have hgap := all_isSeparator_takeWhile cs
    refine ⟨⟨text, ?_⟩, ⟨0, count_quote_separators hgap⟩, ?_⟩
    · rw [← htext, List.takeWhile_append_dropWhile]
    · intro hlast
      exact ne_quote_of_isSeparator (hgap quote (List.mem_of_mem_getLast? hlast)) rfl
  | @token cs more before t ts hread _ ih =>
    obtain ⟨ht, hends⟩ := endsAt_of_read hread
    obtain ⟨text, htext⟩ := ih.opens
    refine ⟨⟨text, ?_⟩, ?_, ?_⟩
    · rw [List.append_assoc, List.append_assoc, ← htext]
      exact eq_append_of_read hread
    · rw [List.count_append, List.count_append,
        count_quote_separators (all_isSeparator_takeWhile cs), Nat.zero_add]
      exact (Token.even_count_render ht).add ih.even
    · -- the quote that opens the literal follows a token at once only if nothing stands before it
      obtain rfl | hbefore := eq_or_ne before []
      · rw [List.append_nil, getLast?_append_right (Token.render_ne_nil ht)]
        exact Token.quote_not_mem_getLast? ht (hends quote (by simp [htext]))
      · rw [← List.append_assoc, getLast?_append_right hbefore]
        exact ih.apart

theorem Unclosed.not_even {cs before : List Char} (h : Unclosed cs before) :
    ¬ Even (cs.count quote) := by
  obtain ⟨text, rfl⟩ := h.opens
  rw [List.count_append, List.count_cons_self, ← Nat.add_assoc, Nat.even_add_one]
  exact not_not.2 (h.even.add (even_count_doubleQuotes text))

/-- In a text whose quotes are doubled, an odd number of quotes in front of a cut ends in the first
quote of a pair, the second one of which stands behind the cut. -/
theorem quote_beside_of_odd {text cs rest : List Char} (h : doubleQuotes text = cs ++ rest)
    (hodd : ¬ Even (cs.count quote)) : quote ∈ cs.getLast? ∧ quote ∈ rest.head? := by
  induction text generalizing cs with
  | nil =>
    obtain ⟨rfl, -⟩ := List.append_eq_nil_iff.1 h.symm
    exact absurd .zero hodd
  | cons c text ih =>
    cases cs with
    | nil => exact absurd .zero hodd
    | cons d ds =>
      by_cases hc : c = quote
      · simp only [doubleQuotes, hc, if_true, List.cons_append, List.cons.injEq] at h
        obtain ⟨rfl, h⟩ := h
        cases ds with
        | nil =>
          have hrest : rest = quote :: doubleQuotes text := h.symm
          rw [hrest]
          exact ⟨rfl, rfl⟩
        | cons e es =>
          simp only [List.cons_append, List.cons.injEq] at h
          obtain ⟨rfl, h⟩ := h
          have hodd' : ¬ Even (es.count quote) := by
            simpa [Nat.even_add_one] using hodd
          obtain ⟨hlast, hhead⟩ := ih h hodd'
          rw [List.getLast?_cons_cons, List.getLast?_cons, Option.mem_def.1 hlast]
          exact ⟨rfl, hhead⟩
      · simp only [doubleQuotes, hc, if_false, List.cons_append, List.cons.injEq] at h
        obtain ⟨rfl, h⟩ := h
        have hodd' : ¬ Even (ds.count quote) := by
          rwa [List.count_cons_of_ne hc] at hodd
        obtain ⟨hlast, hhead⟩ := ih h hodd'
        rw [List.getLast?_cons, Option.mem_def.1 hlast]
        exact ⟨rfl, hhead⟩

theorem Unclosed.eq_of_le {cs before before' : List Char} (h : Unclosed cs before)
    (h' : Unclosed cs before') (hle : before.length ≤ before'.length) : before = before' := by
  obtain ⟨text, htext⟩ := h.opens
  obtain ⟨text', htext'⟩ := h'.opens
  obtain ⟨more, rfl⟩ : before <+: before' :=
    List.prefix_of_prefix_length_le ⟨_, htext.symm⟩ ⟨_, htext'.symm⟩ hle
  rw [htext, List.append_assoc, List.append_cancel_left_eq] at htext'
  cases more with
  | nil => simp
  | cons c more =>
    obtain ⟨rfl, hmore⟩ := List.cons.inj htext'
    have hodd : ¬ Even (more.count quote) := by
      have heven := h'.even
      rw [List.count_append, List.count_cons_self, Nat.even_add, Nat.even_add_one] at heven
      exact heven.1 h.even
    have hlast := (quote_beside_of_odd hmore hodd).1
    refine absurd ?_ h'.apart
    rw [getLast?_append_right (by simp), List.getLast?_cons, Option.mem_def.1 hlast]
    rfl

/-- Only one quote opens a literal that is not closed. -/
theorem Unclosed.unique {cs before before' : List Char} (h : Unclosed cs before)
    (h' : Unclosed cs before') : before = before' := by
  rcases Nat.le_total before.length before'.length with hle | hle
  · exact h.eq_of_le h' hle
  · exact (h'.eq_of_le h hle).symm

/-! ## All tokens of a card -/

/-- All tokens of a card, if it can be read to its end. -/
def tokens (source : String) : Except Fault (List Token) :=
  match scan source with
  | .error f => .error f
  | .ok found =>
    match found.fault with
    | some f => .error f
    | none => .ok (found.tokens.map Prod.snd)

section Advancing

variable {c : Cursor} {t : Token}

theorem advance_of_finished (h : Lexeme.read (c.rest.dropWhile isSeparator) = .finished) :
    ∃ next, advance c = .ok () next ∧ next.current = none := by
  unfold advance
  simp only [h]
  exact ⟨_, rfl, rfl⟩

theorem advance_of_token {more : List Char}
    (h : Lexeme.read (c.rest.dropWhile isSeparator) = .token t more) :
    ∃ next, advance c = .ok () next ∧ next.current = some t ∧ next.rest = more ∧
      next.source = c.source ∧
      next.offset = c.offset + Text.byteLength (c.rest.takeWhile isSeparator ++ t.render) := by
  unfold advance
  simp only [h]
  refine ⟨_, rfl, rfl, rfl, rfl, ?_⟩
  rw [Text.byteLength_append, Token.width, Nat.add_assoc]

theorem advance_of_unclosed (h : Lexeme.read (c.rest.dropWhile isSeparator) = .unclosed) :
    ∃ next, advance c = .error (.card .unterminatedLiteral
      (c.offset + Text.byteLength (c.rest.takeWhile isSeparator)) c.source) next := by
  unfold advance
  simp only [h]
  exact ⟨_, rfl⟩

theorem scanFrom_of_current_eq_none (h : c.current = none) (fuel : Nat) :
    scanFrom fuel c = ⟨[], c, none⟩ := by
  cases fuel with
  | zero => rfl
  | succ fuel => simp [scanFrom, h]

/-- From a cursor on a token, the scan finds this token and all that are read behind it. -/
theorem scanFrom_of_lexes {ts : List Token} (h : Lexes c.rest ts) (hc : c.current = some t)
    {fuel : Nat} (hfuel : c.rest.length < fuel) :
    (scanFrom fuel c).tokens.map Prod.snd = t :: ts ∧ (scanFrom fuel c).fault = none := by
  generalize hcs : c.rest = cs at h hfuel
  induction h generalizing c t fuel with
  | finished hread =>
    obtain ⟨fuel, rfl⟩ := Nat.exists_eq_succ_of_ne_zero (Nat.ne_zero_of_lt hfuel)
    obtain ⟨next, hadvance, hnext⟩ := advance_of_finished (hcs ▸ hread)
    simp [scanFrom, hc, hadvance, scanFrom_of_current_eq_none hnext]
  | token hread _ ih =>
    obtain ⟨fuel, rfl⟩ := Nat.exists_eq_succ_of_ne_zero (Nat.ne_zero_of_lt hfuel)
    obtain ⟨next, hadvance, hcurrent, hrest, -⟩ := advance_of_token (hcs ▸ hread)
    have hmore := Nat.lt_of_lt_of_le (length_lt_of_read hread) (Nat.le_of_lt_succ hfuel)
    obtain ⟨htokens, hfault⟩ := ih hcurrent hrest hmore
    simp [scanFrom, hc, hadvance, htokens, hfault]

/-- From a cursor on a token, the scan breaks off at the literal that is not closed. -/
theorem scanFrom_of_breaks {ts : List Token} {before : List Char} (h : Breaks c.rest ts before)
    (hc : c.current = some t) {fuel : Nat} (hfuel : c.rest.length < fuel) :
    (scanFrom fuel c).fault = some
      (.card .unterminatedLiteral (c.offset + Text.byteLength before) c.source) := by
  generalize hcs : c.rest = cs at h hfuel
  induction h generalizing c t fuel with
  | unclosed hread =>
    obtain ⟨fuel, rfl⟩ := Nat.exists_eq_succ_of_ne_zero (Nat.ne_zero_of_lt hfuel)
    obtain ⟨next, hadvance⟩ := advance_of_unclosed (hcs ▸ hread)
    simp [scanFrom, hc, hadvance, hcs]
  | token hread _ ih =>
    obtain ⟨fuel, rfl⟩ := Nat.exists_eq_succ_of_ne_zero (Nat.ne_zero_of_lt hfuel)
    obtain ⟨next, hadvance, hcurrent, hrest, hsource, hoffset⟩ := advance_of_token (hcs ▸ hread)
    have hmore := Nat.lt_of_lt_of_le (length_lt_of_read hread) (Nat.le_of_lt_succ hfuel)
    have hfault := ih hcurrent hrest hmore
    simp [scanFrom, hc, hadvance, hfault, hsource, hoffset, hcs, Nat.add_assoc]

end Advancing

theorem tokens_of_start {source : String} {c : Cursor}
    (h : advance (.before source) = .ok () c) :
    tokens source = match (scanFrom c.size c).fault with
      | some f => .error f
      | none => .ok ((scanFrom c.size c).tokens.map Prod.snd) := by
  simp only [tokens, scan, start, h, Except.map]

theorem tokens_of_lexes {source : String} {ts : List Token} (h : Lexes source.toList ts) :
    tokens source = .ok ts := by
  cases h with
  | finished hread =>
    obtain ⟨c, hadvance, hc⟩ := advance_of_finished (c := .before source) hread
    rw [tokens_of_start hadvance, scanFrom_of_current_eq_none hc]
    rfl
  | token hread hmore =>
    obtain ⟨c, hadvance, hc, hrest, -⟩ := advance_of_token (c := .before source) hread
    obtain ⟨htokens, hfault⟩ := scanFrom_of_lexes (hrest ▸ hmore) hc c.rest.length.lt_succ_self
    rw [tokens_of_start hadvance, Cursor.size, hfault, htokens]

theorem tokens_of_breaks {source : String} {ts : List Token} {before : List Char}
    (h : Breaks source.toList ts before) :
    tokens source = .error (.card .unterminatedLiteral (Text.byteLength before) source) := by
  cases h with
  | unclosed hread =>
    obtain ⟨c, hadvance⟩ := advance_of_unclosed (c := .before source) hread
    simp only [tokens, scan, start, hadvance, Except.map]
    simp [Cursor.before]
  | token hread hmore =>
    obtain ⟨c, hadvance, hc, hrest, hsource, hoffset⟩ :=
      advance_of_token (c := .before source) hread
    have hfault := scanFrom_of_breaks (hrest ▸ hmore) hc c.rest.length.lt_succ_self
    rw [tokens_of_start hadvance, Cursor.size, hfault]
    simp [hsource, hoffset, Cursor.before, Nat.add_assoc]

/-- **The tokens of a card.** A card is read as a list of tokens exactly if its text shows them,
and it is read to its end exactly if the number of its quotes is even. Otherwise it ends in a
literal that is not closed, and the fault lies at the byte of its opening quote. -/
theorem tokens_spec (text : String) :
    (∀ ts, tokens text = .ok ts ↔ Renders ts text.toList) ∧
      ((∃ ts, tokens text = .ok ts) ↔ Even (text.toList.count quote)) ∧
      ∀ f, tokens text = .error f ↔ ∃ before, Unclosed text.toList before ∧
        f = .card .unterminatedLiteral (Text.byteLength before) text := by
  rcases lexes_or_breaks text.toList with ⟨ts, hlexes⟩ | ⟨ts, before, hbreaks⟩
  · have htokens := tokens_of_lexes hlexes
    have heven := hlexes.renders.even_count
    refine ⟨fun us => ?_, iff_of_true ⟨ts, htokens⟩ heven, fun f => ?_⟩
    · refine ⟨fun h => ?_, fun h => tokens_of_lexes h.lexes⟩
      rw [htokens] at h
      cases h
      exact hlexes.renders
    · rw [htokens]
      refine iff_of_false (fun h => nomatch h) ?_
      rintro ⟨before, hunclosed, -⟩
      exact hunclosed.not_even heven
  · have htokens := tokens_of_breaks hbreaks
    have hunclosed := hbreaks.isUnclosed
    refine ⟨fun us => ?_, iff_of_false ?_ hunclosed.not_even, fun f => ?_⟩
    · rw [htokens]
      exact iff_of_false (fun h => nomatch h) fun h => hunclosed.not_even h.even_count
    · rintro ⟨us, hus⟩
      rw [htokens] at hus
      cases hus
    · rw [htokens]
      constructor
      · rintro ⟨⟩
        exact ⟨before, hunclosed, rfl⟩
      · rintro ⟨before', hunclosed', rfl⟩
        rw [hunclosed.unique hunclosed']

end CardSort.Card
