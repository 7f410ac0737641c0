import CardSort.Card.Token
import Mathlib.Data.List.TakeWhile

/-!
# Splitting a card into tokens

A card shows a list of tokens with separators between them. Reading it token by token gives the
list back, however the separators are set, as long as no two tokens run into one another.

* `Lexes` — the tokens that are read from a text up to its end; `Lexes.length_le`.
* `Renders` — a text that shows a list of tokens; `exists_renders` finds one.
* `Lexeme.read_render` — a token in front of a text that does not run into it is read alone.
* `Renders.lexes` — **a text that shows tokens is read as these tokens**.
-/

set_option autoImplicit false

namespace CardSort.Card

/-! ## Reading tokens -/

/-- The text is read as the tokens, one after the other, up to its end. -/
inductive Lexes : List Char → List Token → Prop where
  | finished {cs : List Char} (h : Lexeme.read (cs.dropWhile isSeparator) = .finished) :
      Lexes cs []
  | token {cs more : List Char} {t : Token} {ts : List Token}
      (h : Lexeme.read (cs.dropWhile isSeparator) = .token t more) (hmore : Lexes more ts) :
      Lexes cs (t :: ts)

theorem isSeparator_false_of_dropWhile {cs rest : List Char} {c : Char}
    (h : cs.dropWhile isSeparator = c :: rest) : isSeparator c = false := by
  have := List.head?_dropWhile_not isSeparator cs
  rwa [h] at this

theorem Lexeme.render_ne_nil_of_read {c : Char} {rest more : List Char} {t : Token}
    (hc : isSeparator c = false) (h : Lexeme.read (c :: rest) = .token t more) :
    t.render ≠ [] := by
  simp only [Lexeme.read] at h
  split at h
  · cases h
    simp [Token.render]
  split at h
  · cases h
    simp [Token.render]
  split at h
  · cases h
    simp [Token.render]
  split at h
  · split at h
    · cases h
      simp [Token.render]
    · cases h
  · cases h
    simp_all [Token.render, endsWord]

/-- What is left after a token is shorter than the text in front of it. -/
theorem length_lt_of_read {cs more : List Char} {t : Token}
    (h : Lexeme.read (cs.dropWhile isSeparator) = .token t more) : more.length < cs.length := by
  have hdrop : (cs.dropWhile isSeparator).length ≤ cs.length := cs.length_dropWhile_le _
  have hlength := congrArg List.length (Lexeme.read_eq_token h)
  rw [List.length_append] at hlength
  have hpos : 0 < t.render.length := by
    cases hcs : cs.dropWhile isSeparator with
    | nil => simp [hcs, Lexeme.read] at h
    | cons c rest =>
      rw [hcs] at h
      exact List.length_pos_iff.2
        (Lexeme.render_ne_nil_of_read (isSeparator_false_of_dropWhile hcs) h)
  omega

theorem Lexes.length_le {cs : List Char} {ts : List Token} (h : Lexes cs ts) :
    ts.length ≤ cs.length := by
  induction h with
  | finished => simp
  | token h _ ih =>
    have := length_lt_of_read h
    simp only [List.length_cons]
    omega

/-! ## Showing tokens -/

/-- Words on cards are not empty and hold no character at which a word ends. -/
def Token.WellFormed : Token → Prop
  | .word text => text ≠ "" ∧ text.toList.all (! endsWord ·) = true
  | _ => True

theorem Token.endsWord_eq_false {text : String} (h : (Token.word text).WellFormed) {c : Char}
    (hc : c ∈ text.toList) : endsWord c = false := by
  simpa using List.all_eq_true.1 h.2 c hc

/-- Whether a token would be read together with the next one if no separator stood between
them. -/
def Token.RunsInto : Token → Token → Prop
  | .word _, .word _ => True
  | .literal _, .literal _ => True
  | _, _ => False

/-- The text shows the tokens: separators may stand anywhere between them, and do stand where a
token would run into the next one. -/
inductive Renders : List Token → List Char → Prop where
  | nil {gap : List Char} (hgap : ∀ c ∈ gap, isSeparator c = true) : Renders [] gap
  | cons {gap cs : List Char} {t : Token} {ts : List Token}
      (hgap : ∀ c ∈ gap, isSeparator c = true) (ht : t.WellFormed) (hrest : Renders ts cs)
      (hapart : ∀ next ∈ ts.head?, t.RunsInto next → ∃ c ∈ cs.head?, isSeparator c = true) :
      Renders (t :: ts) (gap ++ (t.render ++ cs))

/-- One more separator in front of a text. -/
theorem Renders.separator {ts : List Token} {cs : List Char} {c : Char} (h : Renders ts cs)
    (hc : isSeparator c = true) : Renders ts (c :: cs) := by
  cases h with
  | nil hgap => exact .nil (by simpa [hc] using hgap)
  | @cons gap _ t ts hgap ht hrest hapart =>
    have hgap : ∀ d ∈ c :: gap, isSeparator d = true := by simpa [hc] using hgap
    exact .cons hgap ht hrest hapart

/-- One more token and a separator in front of a text. -/
theorem Renders.token {ts : List Token} {cs : List Char} {c : Char} {t : Token}
    (h : Renders ts cs) (hc : isSeparator c = true) (ht : t.WellFormed) :
    Renders (t :: ts) (t.render ++ c :: cs) := by
  have hnone : ∀ d ∈ ([] : List Char), isSeparator d = true := by simp
  refine Renders.cons hnone ht (h.separator hc) ?_
  intro _ _ _
  exact ⟨c, rfl, hc⟩

theorem renders_singleton {t : Token} (ht : t.WellFormed) : Renders [t] t.render := by
  have hnone : ∀ d ∈ ([] : List Char), isSeparator d = true := by simp
  have h := Renders.cons hnone ht (.nil hnone) (by simp)
  rwa [List.nil_append, List.append_nil] at h

theorem exists_renders {ts : List Token} (h : ∀ t ∈ ts, t.WellFormed) :
    ∃ cs, Renders ts cs := by
  induction ts with
  | nil => exact ⟨[], .nil (by simp)⟩
  | cons t ts ih =>
    obtain ⟨cs, hcs⟩ := ih fun u hu => h u (List.mem_cons_of_mem _ hu)
    exact ⟨_, hcs.token (show isSeparator ' ' = true from rfl) (h t List.mem_cons_self)⟩

/-- A text that shows tokens begins with a separator or with the first token. -/
theorem Renders.head? {ts : List Token} {cs : List Char} {c : Char} (h : Renders ts cs)
    (hc : c ∈ cs.head?) :
    isSeparator c = true ∨ ∃ t ∈ ts.head?, t.WellFormed ∧ c ∈ (t.render ++ cs.tail).head? := by
  cases h with
  | nil hgap => exact .inl (hgap c (List.mem_of_mem_head? hc))
  | @cons gap rest t ts hgap ht hrest hapart =>
    cases gap with
    | cons g gap =>
      simp only [List.cons_append, List.head?_cons, Option.mem_some_iff] at hc
      exact .inl (hc ▸ hgap g List.mem_cons_self)
    | nil =>
      refine .inr ⟨t, rfl, ht, ?_⟩
      cases t with
      | word text =>
        have hne : text.toList ≠ [] := by simpa using ht.1
        obtain ⟨w, ws, hw⟩ := List.exists_cons_of_ne_nil hne
        simpa [Token.render, hw] using hc
      | literal text => simpa [Token.render] using hc
      | openParen | closeParen | semicolon => simpa [Token.render] using hc

/-! ## Reading what is shown -/

theorem closeLiteral_doubleQuotes {text more : List Char} (h : ∀ c ∈ more.head?, c ≠ quote) :
    closeLiteral (doubleQuotes text ++ quote :: more) = some (text, more) := by
  induction text with
  | nil =>
    cases more with
    | nil => rfl
    | cons c more =>
      have hc : c ≠ quote := h c rfl
      simp [doubleQuotes, closeLiteral, hc]
  | cons c text ih =>
    by_cases hc : c = quote
    · simp [doubleQuotes, closeLiteral, hc, ih]
    · -- behind the character stands at least the closing quote
      obtain ⟨d, rest, hd⟩ : ∃ d rest, doubleQuotes text ++ quote :: more = d :: rest :=
        List.exists_cons_of_ne_nil (by simp)
      rw [hd] at ih
      simp [doubleQuotes, closeLiteral, hc, hd, ih]

theorem endsWord_of_isSeparator {c : Char} (h : isSeparator c = true) : endsWord c = true := by
  simp [endsWord, h]

theorem ne_quote_of_isSeparator {c : Char} (h : isSeparator c = true) : c ≠ quote := by
  rintro rfl
  exact absurd h (by decide)

/-- The character at which a token ends may not continue it: a word ends at one of a few
characters, a literal in front of anything but a quote. -/
def Token.EndsAt : Token → Char → Prop
  | .word _, c => endsWord c = true
  | .literal _, c => c ≠ quote
  | _, _ => True

/-- **A token in front of a text that does not continue it is read alone.** -/
theorem Lexeme.read_render {t : Token} {more : List Char} (ht : t.WellFormed)
    (hends : ∀ c ∈ more.head?, t.EndsAt c) : Lexeme.read (t.render ++ more) = .token t more := by
  cases t with
  | word text =>
    have hne : text.toList ≠ [] := by simpa using ht.1
    obtain ⟨w, ws, hw⟩ := List.exists_cons_of_ne_nil hne
    have hall : ∀ c ∈ text.toList, (! endsWord c) = true := List.all_eq_true.1 ht.2
    have htake : more.takeWhile (! endsWord ·) = [] := by
      cases more with
      | nil => rfl
      | cons c more => simp [show endsWord c = true from hends c rfl]
    have hdrop : more.dropWhile (! endsWord ·) = more := by
      cases more with
      | nil => rfl
      | cons c more => simp [show endsWord c = true from hends c rfl]
    have hfirst := Token.endsWord_eq_false ht (show w ∈ text.toList by simp [hw])
    simp only [endsWord, Bool.or_eq_false_iff, decide_eq_false_iff_not] at hfirst
    simp only [Token.render]
    rw [hw, List.cons_append, Lexeme.read, if_neg hfirst.1.1.1.2, if_neg hfirst.1.1.2,
      if_neg hfirst.1.2, if_neg hfirst.2, ← List.cons_append, ← hw,
      List.takeWhile_append_of_pos hall, List.dropWhile_append_of_pos hall, htake, hdrop]
    simp
  | literal text =>
    have hclose : closeLiteral (doubleQuotes text.toList ++ quote :: more) =
        some (text.toList, more) := closeLiteral_doubleQuotes hends
    have hquote : quote ≠ '(' ∧ quote ≠ ')' ∧ quote ≠ ';' := by decide
    simp [Token.render, Lexeme.read, hquote, hclose]
  | openParen | closeParen | semicolon => simp [Token.render, Lexeme.read]

theorem Token.isSeparator_false_of_render {t : Token} (ht : t.WellFormed) {c : Char}
    {rest : List Char} (h : t.render = c :: rest) : isSeparator c = false := by
  cases t with
  | word text =>
    rw [Token.render] at h
    have hc := Token.endsWord_eq_false ht (show c ∈ text.toList by simp [h])
    simp only [endsWord, Bool.or_eq_false_iff] at hc
    exact hc.1.1.1.1
  | literal text =>
    cases h
    rfl
  | openParen | closeParen | semicolon =>
    cases h
    rfl

theorem Token.render_ne_nil {t : Token} (ht : t.WellFormed) : t.render ≠ [] := by
  cases t with
  | word text => simpa [Token.render] using ht.1
  | literal text => simp [Token.render]
  | openParen | closeParen | semicolon => simp [Token.render]

/-- What follows a token that is shown does not continue it. -/
theorem Renders.endsAt {t : Token} {ts : List Token} {cs : List Char} (h : Renders ts cs)
    (hapart : ∀ next ∈ ts.head?, t.RunsInto next → ∃ c ∈ cs.head?, isSeparator c = true)
    {c : Char} (hc : c ∈ cs.head?) : t.EndsAt c := by
  have hsep : isSeparator c = true → t.EndsAt c := by
    intro hc
    cases t with
    | word text => exact endsWord_of_isSeparator hc
    | literal text => exact ne_quote_of_isSeparator hc
    | openParen | closeParen | semicolon => trivial
  rcases h.head? hc with hc' | ⟨next, hnext, hwf, hfirst⟩
  · exact hsep hc'
  · by_cases hruns : t.RunsInto next
    · obtain ⟨d, hd, hdsep⟩ := hapart next hnext hruns
      obtain rfl : c = d := Option.mem_unique hc hd
      exact hsep hdsep
    · cases t with
      | openParen | closeParen | semicolon => trivial
      | word text =>
        cases next with
        | word _ => exact absurd trivial hruns
        | literal _ | openParen | closeParen | semicolon =>
          simp only [Token.render, List.cons_append, List.head?_cons, Option.mem_some_iff] at hfirst
          subst hfirst
          rfl
      | literal text =>
        cases next with
        | literal _ => exact absurd trivial hruns
        | word next =>
          obtain ⟨w, ws, hw⟩ := List.exists_cons_of_ne_nil (Token.render_ne_nil hwf)
          rw [hw, List.cons_append, List.head?_cons, Option.mem_some_iff] at hfirst
          rw [Token.render] at hw
          have hends := Token.endsWord_eq_false hwf (show w ∈ next.toList by simp [hw])
          rintro rfl
          simp [hfirst, endsWord] at hends
        | openParen | closeParen | semicolon =>
          simp only [Token.render, List.cons_append, List.head?_cons, Option.mem_some_iff] at hfirst
          subst hfirst
          show _ ≠ quote
          decide

/-- **A text that shows tokens is read as these tokens.** -/
theorem Renders.lexes {ts : List Token} {cs : List Char} (h : Renders ts cs) : Lexes cs ts := by
  induction h with
  | nil hgap =>
    refine .finished ?_
    rw [List.dropWhile_eq_nil_iff.2 hgap]
    rfl
  | @cons gap cs t ts hgap ht hrest hapart ih =>
    refine .token ?_ ih
    obtain ⟨c, rest, hc⟩ := List.exists_cons_of_ne_nil (Token.render_ne_nil ht)
    have hstart : (t.render ++ cs).dropWhile isSeparator = t.render ++ cs := by
      simp [hc, Token.isSeparator_false_of_render ht hc]
    rw [List.dropWhile_append_of_pos hgap, hstart]
    exact Lexeme.read_render ht fun d hd => hrest.endsAt hapart hd

end CardSort.Card
