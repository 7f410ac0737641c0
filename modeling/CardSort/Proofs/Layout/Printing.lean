import CardSort.Proofs.Layout.Items

/-!
# Layouts read back from cards

A list of items can be printed on a card, bare or in parentheses, behind a keyword or without one.
There is nothing between the items but separators, and the card is read as that list.

* `Layout.Prints`, `Layout.IsCard` — the tokens of a list of items, and its cards.
* `Layout.items_printed` — **a list of items is read back**, item by item.
* `Layout.ofCard_printed` — **every printable list of items has a card, and all its cards are read
  as the list**.
-/

set_option autoImplicit false

namespace CardSort.Layout

open Card

/-! ## Printing -/

/-- The keywords that may stand in front of the items. -/
def keywords : List String := ["FIELDS=", "BUILD=", "OUTREC=", "INREC="]

/-- The items in parentheses or bare. -/
def body (parenthesized : Bool) (ts : List Token) : List Token :=
  if parenthesized then .openParen :: (ts ++ [.closeParen]) else ts

/-- The operand of the items, behind a keyword or without one. -/
def operand (keyword : Option String) (parenthesized : Bool) (ts : List Token) : List Token :=
  match keyword with
  | none => body parenthesized ts
  | some k => glue k (body parenthesized ts)

/-- The tokens show the items, one after the other. -/
def Prints (items : List LayoutItem) (ts : List Token) : Prop :=
  ∃ tss, List.Forall₂ LayoutItem.Prints items tss ∧ ts = tss.flatten

/-- The text is a card of the items. -/
def IsCard (keyword : Option String) (parenthesized : Bool) (items : List LayoutItem)
    (text : String) : Prop :=
  ∃ ts, Prints items ts ∧ Renders (operand keyword parenthesized ts) text.toList

/-! ## Lists of items -/

variable {encoding : Encoding} {items : List LayoutItem} {tss : List (List Token)}
  {ts rest : List Token} {parenthesized : Bool} {keyword : Option String}

theorem nextOpensItem_flatten (h : List.Forall₂ LayoutItem.Prints items tss)
    (hrest : NextOpensItem rest) : NextOpensItem (tss.flatten ++ rest) := by
  cases h with
  | nil => exact hrest
  | cons hitem _ =>
    obtain ⟨w, more, rfl, hopens⟩ := hitem.exists_word
    rintro _ ⟨⟩
    exact hopens

/-- A list goes on in front of an item. -/
theorem looks_continuesAt {w : String} (hw : OpensItem w) :
    Looks (continuesAt parenthesized) (.word w :: ts) true := by
  intro c hc
  simp [continuesAt, hc.atEnd_cons, hc.isOn_cons, hc.word?_eq, nextWord?,
    hw.opensDestinationOperand]

/-- **A list of items is read back**, up to tokens that may follow its last item. By induction on
the items: what follows one of them is another one, or what follows the list. -/
theorem items_printed (h : List.Forall₂ LayoutItem.Prints items tss)
    (hitems : ∀ item ∈ items, item.Printable encoding) (hrest : NextOpensItem rest) :
    Items (continuesAt parenthesized) (LayoutItem.onCard encoding) (tss.flatten ++ rest) items
      rest := by
  induction h with
  | nil => exact .nil
  | @cons item ts items tss hitem hall ih =>
    obtain ⟨hprintable, hitems⟩ := List.forall_mem_cons.1 hitems
    have hreads := hitem.reads hprintable (nextOpensItem_flatten hall hrest)
    obtain ⟨w, more, rfl, hopens⟩ := hitem.exists_word
    rw [List.flatten_cons, List.append_assoc]
    refine .cons (looks_continuesAt hopens) hreads ?_ (ih hitems)
    simp only [List.cons_append, List.length_cons, List.length_append]
    omega

/-- What closes a list in parentheses. -/
def closing (parenthesized : Bool) : List Token := if parenthesized then [.closeParen] else []

theorem nextOpensItem_closing : NextOpensItem (closing parenthesized) := by
  intro w hw
  cases parenthesized <;> cases hw

theorem looks_closing : Looks (continuesAt parenthesized) (closing parenthesized) false := by
  intro c hc
  cases parenthesized with
  | false => simp [continuesAt, Cursor.At.atEnd_nil hc]
  | true => simp [continuesAt, Cursor.At.isOn_cons (t := .closeParen) hc]

theorem Prints.exists_word (h : Prints items ts) (hne : items ≠ []) :
    ∃ w more, ts = .word w :: more ∧ OpensItem w := by
  obtain ⟨tss, hall, rfl⟩ := h
  cases hall with
  | nil => exact absurd rfl hne
  | cons hitem _ =>
    obtain ⟨w, more, rfl, hopens⟩ := hitem.exists_word
    exact ⟨w, _, rfl, hopens⟩

theorem Prints.nextOpensItem_body (h : Prints items ts) :
    NextOpensItem (body parenthesized ts) := by
  cases parenthesized with
  | true => rintro _ ⟨⟩
  | false =>
    obtain ⟨tss, hall, rfl⟩ := h
    have hnone : NextOpensItem [] := by rintro _ ⟨⟩
    simpa [body] using nextOpensItem_flatten hall hnone

theorem Prints.reads_onCard (h : Prints items ts) (hne : items ≠ [])
    (hitems : ∀ item ∈ items, item.Printable encoding) :
    Reads (onCard encoding) (body parenthesized ts) ⟨items, encoding⟩ [] := by
  have hopen : Reads (eat .openParen) (body parenthesized ts) parenthesized
      (ts ++ closing parenthesized) := by
    cases parenthesized with
    | true => exact Reads.eat
    | false =>
      obtain ⟨w, more, rfl, -⟩ := h.exists_word hne
      have hother : Reads (eat .openParen) (.word w :: more) false (.word w :: more) :=
        .eat_other (by simp)
      simpa [body, closing] using hother
  obtain ⟨tss, hall, rfl⟩ := h
  have hcollect : Reads (collect (continuesAt parenthesized) (LayoutItem.onCard encoding))
      (tss.flatten ++ closing parenthesized) items (closing parenthesized) :=
    (items_printed hall hitems nextOpensItem_closing).collect looks_closing
  have hsome : items.isEmpty = false := by simpa using hne
  refine hopen.bind (hcollect.bind ?_)
  simp only [hsome, Bool.false_eq_true, if_false]
  cases parenthesized with
  | true => exact Reads.expect.bind .pure
  | false => exact .pure

/-! ## Keywords -/

/-- The keyword in front of the items, if there is one. -/
def keywordOnCard : Parser Bool :=
  eatHead "FIELDS=" <||> eatHead "BUILD=" <||> eatHead "OUTREC=" <||> eatHead "INREC="

/-- Tokens behind a keyword begin with no keyword that begins with another letter. -/
theorem reads_glue_other {head other : String} {c d : Char} (hd : d ∈ other.toList.head?)
    (hc : c ∈ head.toList.head?) (hne : d ≠ c) :
    Reads (eatHead other) (glue head ts) false (glue head ts) := by
  have hbegins (w : String) : Text.beginsWith other (head ++ w) = false :=
    Text.beginsWith_eq_false_of_ne hd
      (by simpa using List.mem_head?_append_of_mem_head? hc) hne
  refine .eatHead_other ?_
  unfold glue
  split
  · rintro _ ⟨⟩
    exact hbegins _
  · rintro _ ⟨⟩
    simpa using hbegins ""

theorem reads_other (h : NextOpensItem ts) {other : String}
    (hother : ∃ d ∈ other.toList.head?, d.isDigit = false ∧ d ≠ 'X') :
    Reads (eatHead other) ts false ts :=
  .eatHead_other fun w hw => (h w hw).beginsWith_eq_false hother

theorem reads_keywordOnCard (h : NextOpensItem (body parenthesized ts))
    (hkeyword : ∀ k ∈ keyword, k ∈ keywords) :
    Reads keywordOnCard (operand keyword parenthesized ts) keyword.isSome
      (body parenthesized ts) := by
  cases keyword with
  | none =>
    exact .orM_right (reads_other h ⟨'F', rfl, by decide⟩)
      (.orM_right (reads_other h ⟨'B', rfl, by decide⟩)
        (.orM_right (reads_other h ⟨'O', rfl, by decide⟩) (reads_other h ⟨'I', rfl, by decide⟩)))
  | some k =>
    have hhead : Reads (eatHead k) (glue k (body parenthesized ts)) true (body parenthesized ts) :=
      .eatHead_glue fun w hw => (h w hw).ne_empty
    have hmem := hkeyword k rfl
    simp only [keywords, List.mem_cons, List.not_mem_nil, or_false] at hmem
    rcases hmem with rfl | rfl | rfl | rfl
    · exact .orM_left hhead
    · exact .orM_right (reads_glue_other (d := 'F') (c := 'B') rfl rfl (by decide))
        (.orM_left hhead)
    · exact .orM_right (reads_glue_other (d := 'F') (c := 'O') rfl rfl (by decide))
        (.orM_right (reads_glue_other (d := 'B') (c := 'O') rfl rfl (by decide))
          (.orM_left hhead))
    · exact .orM_right (reads_glue_other (d := 'F') (c := 'I') rfl rfl (by decide))
        (.orM_right (reads_glue_other (d := 'B') (c := 'I') rfl rfl (by decide))
          (.orM_right (reads_glue_other (d := 'O') (c := 'I') rfl rfl (by decide)) hhead))

theorem Prints.reads_wholeOnCard (h : Prints items ts) (hne : items ≠ [])
    (hitems : ∀ item ∈ items, item.Printable encoding) (hkeyword : ∀ k ∈ keyword, k ∈ keywords) :
    Reads (wholeOnCard encoding) (operand keyword parenthesized ts) ⟨items, encoding⟩ [] :=
  (reads_keywordOnCard h.nextOpensItem_body hkeyword).bind
    ((h.reads_onCard hne hitems).bind (Reads.expectEnd.bind .pure))

/-! ## Every list has a card -/

theorem exists_prints (hitems : ∀ item ∈ items, item.Printable encoding) :
    ∃ ts, Prints items ts := by
  suffices hall : ∃ tss, List.Forall₂ LayoutItem.Prints items tss by
    obtain ⟨tss, hall⟩ := hall
    exact ⟨tss.flatten, tss, hall, rfl⟩
  induction items with
  | nil => exact ⟨[], .nil⟩
  | cons item items ih =>
    obtain ⟨hitem, hitems⟩ := List.forall_mem_cons.1 hitems
    obtain ⟨tss, hall⟩ := ih hitems
    obtain ⟨w, ts, hts⟩ := Content.exists_prints hitem.content
    obtain ⟨_ | n, content⟩ := item
    · exact ⟨_, .cons (.bare hts) hall⟩
    · exact ⟨_, .cons (.column n hts) hall⟩

theorem Prints.wellFormed (h : Prints items ts) : ∀ t ∈ ts, t.WellFormed := by
  obtain ⟨tss, hall, rfl⟩ := h
  induction hall with
  | nil => simp
  | cons hitem _ ih => simpa [or_imp, forall_and] using ⟨hitem.wellFormed, by simpa using ih⟩

theorem Prints.wellFormed_operand (h : Prints items ts)
    (hkeyword : ∀ k ∈ keyword, k ∈ keywords) :
    ∀ t ∈ operand keyword parenthesized ts, t.WellFormed := by
  have hbody : ∀ t ∈ body parenthesized ts, t.WellFormed := by
    cases parenthesized with
    | true => simpa [body, or_imp, forall_and, Token.WellFormed] using h.wellFormed
    | false => exact h.wellFormed
  cases keyword with
  | none => exact hbody
  | some k =>
    have hk : k ≠ "" ∧ k.toList.all (! endsWord ·) = true := by
      have hall : ∀ k ∈ keywords, k ≠ "" ∧ k.toList.all (! endsWord ·) = true := by decide
      exact hall k (hkeyword k rfl)
    show ∀ t ∈ glue k (body parenthesized ts), t.WellFormed
    unfold glue
    split
    · next hbegins =>
      rw [hbegins] at hbody
      obtain ⟨hw, hmore⟩ := List.forall_mem_cons.1 hbody
      exact List.forall_mem_cons.2 ⟨wellFormed_append hk.2 hw, hmore⟩
    · exact List.forall_mem_cons.2 ⟨hk, hbody⟩

/-! ## The list of a card -/

/-- **Reading layouts inverts printing them.** Every list of items that copy bytes, write constants
and edit numbers through masks that come from patterns has a card, bare or in parentheses and behind
any keyword, and each of its cards is read as that list, however its tokens are separated. -/
theorem ofCard_printed (hne : items ≠ []) (hitems : ∀ item ∈ items, item.Printable encoding)
    (hkeyword : ∀ k ∈ keyword, k ∈ keywords) :
    (∃ text, IsCard keyword parenthesized items text) ∧
      ∀ text, IsCard keyword parenthesized items text →
        ofCard text encoding = .ok ⟨items, encoding⟩ := by
  constructor
  · obtain ⟨ts, hts⟩ := exists_prints hitems
    have hformed : ∀ t ∈ operand keyword parenthesized ts, t.WellFormed :=
      hts.wellFormed_operand hkeyword
    obtain ⟨cs, hcs⟩ := exists_renders hformed
    exact ⟨String.ofList cs, ts, hts, by simpa using hcs⟩
  · rintro text ⟨ts, hts, hrenders⟩
    exact read_eq_ok hrenders.lexes (hts.reads_wholeOnCard hne hitems hkeyword)

/-- Four bytes at column 5, no bytes, a number with all its sign texts in 12 columns, and two bytes
at column 40. -/
def sampleItems : List LayoutItem :=
  [⟨some 5, .copy ⟨0, 4, .ch, .ascii⟩⟩, ⟨none, .constant []⟩,
    ⟨none, .edit ⟨6, 3, .pd, .ascii⟩
      ⟨⟨"IIT'T".toList, some ⟨['+'], ['-']⟩, some ⟨"C'R".toList, []⟩⟩, some 12⟩⟩,
    ⟨some 40, .constant [0x0A, 0xFF]⟩]

theorem sampleItems_ofCard :
    ofCard ("BUILD=(5:1,4,X'',7,3,PD,EDIT=('SIIT''TS'),SIGNS=('+','-','C''R','')," ++
        "LENGTH=12 40:X'0aFF')") .ascii = .ok ⟨sampleItems, .ascii⟩ ∧
      ((∃ text, IsCard (some "BUILD=") true sampleItems text) ∧
        ∀ text, IsCard (some "BUILD=") true sampleItems text →
          ofCard text .ascii = .ok ⟨sampleItems, .ascii⟩) := by
  have hmask : Mask.ofTexts "SIIT'TS" (some ["+", "-", "C'R", ""]) =
      .ok ⟨"IIT'T".toList, some ⟨['+'], ['-']⟩, some ⟨"C'R".toList, []⟩⟩ := by
    decide +kernel
  have hedit : Edit.Printable ⟨⟨"IIT'T".toList, some ⟨['+'], ['-']⟩, some ⟨"C'R".toList, []⟩⟩,
      some 12⟩ := ⟨⟨_, _, hmask⟩, by decide⟩
  have hprintable : ∀ item ∈ sampleItems, item.Printable .ascii := by
    simp only [sampleItems, List.forall_mem_cons]
    exact ⟨⟨by decide, rfl⟩, ⟨by simp, trivial⟩, ⟨by simp, rfl, rfl, hedit⟩, ⟨by decide, trivial⟩,
      by simp⟩
  exact ⟨by decide +kernel, ofCard_printed (by decide) hprintable (by decide)⟩

end CardSort.Layout
