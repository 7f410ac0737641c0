import CardSort.Proofs.Deck.Spacing

/-!
# Statements on several lines

A deck may be laid out anew: its statements are cut next to blanks and commas, what follows a cut
stands on a line of its own, and comments and blank lines stand anywhere. It still compiles to what
it did, as every statement says the same with other blanks in it.

* `Respaced` — a statement with other blanks; `Draft.take_respaced`.
* `Continues`, `Spread` — lines that show the pieces of a statement, and those of a deck.
* `Continues.respaced`, `Spread.joinFrom` — what these lines are joined to.
* `ofText_of_spread` — **a deck laid out anew compiles to the same.**
-/

set_option autoImplicit false

namespace CardSort.Deck

open Card

variable {config : Config} {d d' : Draft} {s s' : Statement} {a b cs : List Char}

/-! ## Statements that say the same -/

/-- The statements say the same: they have one keyword, and what their operands show is the
same. -/
structure Respaced (s s' : Statement) : Prop where
  keyword : s'.keyword = s.keyword
  tokens : ∀ ts, Lexes s.operand.toList ts → Lexes s'.operand.toList ts
  words : optionWords s'.operand.toList = optionWords s.operand.toList

theorem Statement.slot_congr {α β : Type} {slot : Option β} {r r' : Except Fault α}
    {put : α → Draft} (hr : ∀ a, r = .ok a → r' = .ok a)
    (h : (do s.once slot; let a ← s.anchor r; pure (put a)) = Except.ok d') :
    (do s'.once slot; let a ← s'.anchor r'; pure (put a)) = Except.ok d' := by
  obtain ⟨hnone, a, ha, hput⟩ := Statement.slot_eq_ok_iff.1 h
  exact Statement.slot_eq_ok_iff.2 ⟨hnone, a, hr a ha, hput⟩

/-- A statement that says the same is taken alike. -/
theorem Draft.take_respaced (hs : Respaced s s') (h : d.take config s = .ok d') :
    d.take config s' = .ok d' := by
  have htokens := hs.tokens
  unfold Draft.take at h ⊢
  rw [hs.keyword]
  split at h
  case h_8 =>
    obtain ⟨ds, hds, h⟩ := bind_eq_ok_iff.1 h
    rw [Statement.anchor, mapError_eq_ok_iff] at hds
    refine bind_eq_ok_iff.2 ⟨ds, ?_, h⟩
    rw [Statement.anchor, mapError_eq_ok_iff]
    exact destinations_congr htokens hds
  case h_9 =>
    rw [hs.words]
    exact h
  case h_10 => cases h
  all_goals refine Statement.slot_congr (fun a ha => ?_) h
  · exact comparer_congr htokens ha
  · exact comparer_congr htokens ha
  · exact filter_congr htokens ha
  · exact filter_congr htokens ha
  · exact layout_congr htokens ha
  · exact layout_congr htokens ha
  · exact sum_congr htokens ha

/-- A statement that is taken begins with one of the keywords. -/
theorem Draft.keyword_mem (h : d.take config s = .ok d') : s.keyword ∈ keywords := by
  unfold Draft.take at h
  split at h
  case h_10 => cases h
  all_goals simp [keywords, *]

/-! ## Lines that show pieces -/

/-- The lines show the pieces of a statement behind the first one, each on a line that is indented
and neither is a comment nor opens a statement; comments and blank lines may stand anywhere. -/
inductive Continues : List (List Char) → List (List Char) → Prop where
  | nil : Continues [] []
  | skip {line : List Char} {lines pieces : List (List Char)} (h : isCode line = false)
      (hrest : Continues lines pieces) : Continues (line :: lines) pieces
  | line {line piece : List Char} {lines pieces : List (List Char)}
      (htrim : Text.trim line = Text.trim piece) (hindented : isIndented line = true)
      (hcomment : '*' ∉ (Text.trim piece).head?)
      (hkeyword : opensStatement (Text.trim piece) = false)
      (hrest : Continues lines pieces) : Continues (line :: lines) (piece :: pieces)

/-- The lines show the statements, each of them in pieces; comments and blank lines may stand
anywhere. -/
inductive Spread : List (List Char) → List String → Prop where
  | nil : Spread [] []
  | skip {line : List Char} {lines : List (List Char)} {statements : List String}
      (h : isCode line = false) (hrest : Spread lines statements) :
      Spread (line :: lines) statements
  | statement {line piece : List Char} {tail lines pieces : List (List Char)}
      {statement : String} {statements : List String}
      (hpieces : Pieces statement.toList (piece :: pieces))
      (htrim : Text.trim line = Text.trim piece) (htail : Continues tail pieces)
      (hrest : Spread lines statements) :
      Spread (line :: (tail ++ lines)) (statement :: statements)

/-- Lines joined to a statement, one blank in front of each. -/
def joinLines (joined : List Char) (lines : List (List Char)) : List Char :=
  (lines.filter isCode).foldl (fun joined line => joined ++ ' ' :: Text.trim line) joined

theorem joinLines_cons_of_not_isCode {line : List Char} (h : isCode line = false)
    (joined : List Char) (lines : List (List Char)) :
    joinLines joined (line :: lines) = joinLines joined lines := by
  simp [joinLines, h]

theorem joinLines_cons_of_isCode {line : List Char} (h : isCode line = true)
    (joined : List Char) (lines : List (List Char)) :
    joinLines joined (line :: lines) = joinLines (joined ++ ' ' :: Text.trim line) lines := by
  simp [joinLines, h]

/-- Behind the statement that lines are joined to stands a blank, or nothing. -/
theorem exists_joinLines_eq (joined : List Char) (lines : List (List Char)) :
    ∃ more, joinLines joined lines = joined ++ more ∧ ∀ c ∈ more.head?, c = ' ' := by
  induction lines generalizing joined with
  | nil => exact ⟨[], by simp [joinLines], by simp⟩
  | cons line lines ih =>
    cases hcode : isCode line with
    | false =>
      rw [joinLines_cons_of_not_isCode hcode]
      exact ih joined
    | true =>
      rw [joinLines_cons_of_isCode hcode]
      obtain ⟨more, hmore, -⟩ := ih (joined ++ ' ' :: Text.trim line)
      exact ⟨' ' :: (Text.trim line ++ more), by simp [hmore], by simp⟩

theorem isCode_of_trim_ne_nil {line : List Char} (hne : Text.trim line ≠ [])
    (hcomment : '*' ∉ (Text.trim line).head?) : isCode line = true := by
  unfold isCode
  split
  · next h => exact absurd h hne
  · next h => simp [h] at hcomment
  · rfl

namespace Continues

variable {lines pieces : List (List Char)}

/-- Lines with code continue the statement. -/
theorem forall_isCode (h : Continues lines pieces) : ∀ line ∈ lines, isCode line = true →
    isIndented line = true ∧ opensStatement (Text.trim line) = false := by
  induction h with
  | nil => simp
  | skip hcode _ ih =>
    refine List.forall_mem_cons.2 ⟨fun h => ?_, ih⟩
    cases hcode.symm.trans h
  | line htrim hindented _ hkeyword _ ih =>
    exact List.forall_mem_cons.2 ⟨fun _ => ⟨hindented, htrim ▸ hkeyword⟩, ih⟩

theorem onlySpaces (h : Continues lines pieces) (hpieces : ∀ p ∈ pieces, Text.OnlySpaces p)
    {joined : List Char} (hjoined : Text.OnlySpaces joined) :
    Text.OnlySpaces (joinLines joined lines) := by
  induction h generalizing joined with
  | nil => exact hjoined
  | skip hcode _ ih =>
    rw [joinLines_cons_of_not_isCode hcode]
    exact ih hpieces hjoined
  | @line line piece lines pieces htrim _ _ _ _ ih =>
    obtain ⟨hpiece, hpieces⟩ := List.forall_mem_cons.1 hpieces
    cases hcode : isCode line with
    | false =>
      rw [joinLines_cons_of_not_isCode hcode]
      exact ih hpieces hjoined
    | true =>
      rw [joinLines_cons_of_isCode hcode]
      refine ih hpieces fun c hc hblank => ?_
      rcases List.mem_append.1 hc with hc | hc
      · exact hjoined c hc hblank
      · rcases List.mem_cons.1 hc with rfl | hc
        · rfl
        · exact hpiece c (Text.trim_subset piece (htrim ▸ hc)) hblank

/-- What the pieces show is shown by the lines joined to what they follow: by induction on the
lines. -/
theorem shows {τ : Type} {Shows : List Char → List τ → Prop} (hS : Spaced Shows)
    (h : Continues lines pieces) {tss : List (List τ)} {ts : List τ} {joined : List Char}
    (hpieces : ∀ p ∈ pieces, Text.OnlySpaces p) (hall : List.Forall₂ Shows pieces tss)
    (hjoined : Shows joined ts) : Shows (joinLines joined lines) (ts ++ tss.flatten) := by
  induction h generalizing joined ts tss with
  | nil =>
    cases hall
    simpa [joinLines] using hjoined
  | skip hcode _ ih =>
    rw [joinLines_cons_of_not_isCode hcode]
    exact ih hpieces hall hjoined
  | @line line piece lines pieces htrim _ hcomment _ _ ih =>
    obtain ⟨hpiece, hpieces⟩ := List.forall_mem_cons.1 hpieces
    cases hall with
    | @cons _ us _ tss hshows hall =>
      have hline : Shows (Text.trim line) us := htrim ▸ hS.trim hpiece hshows
      rw [List.flatten_cons, ← List.append_assoc]
      by_cases hblank : Text.trim line = []
      · -- a blank line shows nothing
        have hcode : isCode line = false := by simp [isCode, hblank]
        rw [hblank] at hline
        rw [joinLines_cons_of_not_isCode hcode, hS.unique hline hS.nil, List.append_nil]
        exact ih hpieces hall hjoined
      · rw [joinLines_cons_of_isCode (isCode_of_trim_ne_nil hblank (htrim ▸ hcomment))]
        exact ih hpieces hall (hS.join hjoined hline)

end Continues

/-! ## Statements from their lines -/

/-- The first piece of a statement holds its keyword. -/
theorem Pieces.exists_head {keyword tail piece : List Char} {pieces : List (List Char)}
    (h : Pieces (keyword ++ tail) (piece :: pieces)) (hne : keyword ≠ [])
    (hkeyword : ∀ c ∈ keyword, endsOption c = false)
    (htail : ∀ c ∈ tail.head?, Text.isBlank c = true) :
    ∃ more, piece = keyword ++ more ∧ ∀ c ∈ more.head?, Text.isBlank c = true := by
  generalize hcs : keyword ++ tail = cs at h
  cases h with
  | whole => exact ⟨tail, hcs.symm, htail⟩
  | @cut _ rest _ hcut _ =>
    rcases List.append_eq_append_iff.1 hcs with ⟨more, rfl, rfl⟩ | ⟨inner, rfl, rfl⟩
    · refine ⟨more, rfl, fun c hc => htail c (List.mem_head?_append_of_mem_head? hc)⟩
    · obtain rfl | hinner := eq_or_ne inner []
      · exact ⟨[], by simp, by simp⟩
      -- a cut within the keyword would be next to a blank or a comma
      exfalso
      obtain ⟨c, hc, hsep⟩ : ∃ c ∈ piece ++ inner, c = ' ' ∨ c = ',' := by
        obtain ⟨c, hc, hsep⟩ | ⟨c, hc, hsep⟩ := hcut.beside
        · exact ⟨c, List.mem_append_left _ (List.mem_of_mem_getLast? hc), hsep⟩
        · obtain ⟨e, inner, rfl⟩ := List.exists_cons_of_ne_nil hinner
          exact ⟨c, by simp_all, hsep⟩
      exact Bool.noConfusion ((hkeyword c hc).symm.trans (endsOption_of_cut hsep))

/-- Behind a keyword stands what its operand shows. -/
theorem Spaced.keyword_iff {τ : Type} {Shows : List Char → List τ → Prop} (hS : Spaced Shows)
    {keyword tail : List Char} {k : τ} {ts : List τ} (hk : Shows keyword [k])
    (hquote : quote ∉ keyword) (htail : ∀ c ∈ tail.head?, Text.isBlank c = true)
    (honly : Text.OnlySpaces tail) :
    Shows (keyword ++ tail) (k :: ts) ↔ Shows (Text.trimStart tail) ts := by
  rw [hS.trimStart_iff honly]
  cases tail with
  | nil =>
    rw [List.append_nil]
    constructor
    · intro h
      obtain rfl : [] = ts := (List.cons.inj (hS.unique hk h)).2
      exact hS.nil
    · intro h
      obtain rfl := hS.unique h hS.nil
      exact hk
  | cons c tail =>
    obtain rfl := honly c List.mem_cons_self (htail c rfl)
    constructor
    · intro h
      have hcut : Cuttable keyword (' ' :: tail) :=
        ⟨List.count_eq_zero.2 hquote ▸ .zero, .inr ⟨' ', rfl, .inl rfl⟩⟩
      obtain ⟨ts₁, ts₂, hts, h₁, h₂⟩ := hS.split h hcut
      obtain rfl := hS.unique hk h₁
      obtain ⟨-, rfl⟩ := List.cons.inj hts
      exact h₂
    · intro h
      exact hS.join hk (hS.cons_blank_iff.1 h)

theorem Pieces.subset {pieces : List (List Char)} (h : Pieces cs pieces) :
    ∀ p ∈ pieces, p ⊆ cs := by
  induction h with
  | whole cs => simp
  | cut _ _ ih =>
    refine List.forall_mem_cons.2 ⟨List.subset_append_left .., fun p hp => ?_⟩
    exact List.Subset.trans (ih p hp) (List.subset_append_right ..)

section Joined

variable {text : String} {piece : List Char} {tail pieces : List (List Char)}
  (hpieces : Pieces text.toList (piece :: pieces))
  (hkeyword : (Statement.of text).keyword ∈ keywords)
include hpieces hkeyword

theorem Pieces.exists_trim_head :
    ∃ more, Text.trim piece = (Statement.of text).keyword.toList ++ more ∧
      ∀ c ∈ more.head?, Text.isBlank c = true := by
  obtain ⟨hne, hchars⟩ := isKeywordChar_of_mem hkeyword
  obtain ⟨rest, htext, hrest, -⟩ := Statement.exists_tail text
  rw [htext] at hpieces
  obtain ⟨more, rfl, hmore⟩ :=
    hpieces.exists_head hne (fun c hc => (hchars c hc).endsOption) hrest
  refine ⟨Text.trimEnd more, Text.trim_append (fun c hc => (hchars c hc).isBlank) hne, ?_⟩
  intro c hc
  obtain ⟨back, hback⟩ := Text.trimEnd_prefix_self more
  exact hmore c (hback ▸ List.mem_head?_append_of_mem_head? hc)

/-- The statement that the lines are joined to: behind the keyword stands a blank, or nothing. -/
theorem exists_joinLines_head (tail : List (List Char)) :
    ∃ more, joinLines (Text.trim piece) tail = (Statement.of text).keyword.toList ++ more ∧
      ∀ c ∈ more.head?, Text.isBlank c = true := by
  obtain ⟨front, hfront, hblank⟩ := hpieces.exists_trim_head hkeyword
  obtain ⟨back, hback, hspace⟩ := exists_joinLines_eq (Text.trim piece) tail
  refine ⟨front ++ back, by rw [hback, hfront, List.append_assoc], ?_⟩
  cases front with
  | cons c front => exact hblank
  | nil =>
    intro c hc
    rw [hspace c hc]
    rfl

variable (honly : Text.OnlySpaces text.toList)
include honly

/-- What the operand of a statement shows, the operand of the joined lines shows too. -/
theorem Continues.shows_operand {τ : Type} {Shows : List Char → List τ → Prop}
    (hS : Spaced Shows) {k : τ} {ts : List τ}
    (hk : Shows (Statement.of text).keyword.toList [k]) (htail : Continues tail pieces)
    (h : Shows (Statement.of text).operand.toList ts) :
    Shows (Statement.of (String.ofList (joinLines (Text.trim piece) tail))).operand.toList ts := by
  have hchars := (isKeywordChar_of_mem hkeyword).2
  have hquote : quote ∉ (Statement.of text).keyword.toList :=
    fun hmem => (hchars quote hmem).ne_quote rfl
  have hspaces : ∀ p ∈ piece :: pieces, Text.OnlySpaces p :=
    fun p hp => honly.of_subset (hpieces.subset p hp)
  have hspaces := List.forall_mem_cons.1 hspaces
  -- the whole statement shows its keyword and then what the operand shows
  have hwhole : Shows text.toList (k :: ts) := by
    obtain ⟨rest, htext, hrest, hoperand⟩ := Statement.exists_tail text
    have hsub : rest ⊆ text.toList := htext ▸ List.subset_append_right ..
    rw [htext]
    exact (hS.keyword_iff hk hquote hrest (honly.of_subset hsub)).2 (hoperand ▸ h)
  -- and so do the lines
  have hjoined : Shows (joinLines (Text.trim piece) tail) (k :: ts) := by
    obtain ⟨tss, hall, hts⟩ := hS.pieces hpieces hwhole
    cases hall with
    | cons hhead hall =>
      rw [hts, List.flatten_cons]
      exact htail.shows hS hspaces.2 hall (hS.trim hspaces.1 hhead)
  obtain ⟨more, hmore, hblank⟩ := exists_joinLines_head hpieces hkeyword tail
  have hsub : more ⊆ joinLines (Text.trim piece) tail := hmore ▸ List.subset_append_right ..
  have hline : Text.OnlySpaces (joinLines (Text.trim piece) tail) :=
    htail.onlySpaces hspaces.2 (hspaces.1.of_subset (Text.trim_subset piece))
  have hof := Statement.of_append (fun c hc => (hchars c hc).isBlank) hblank
  rw [hmore] at hjoined ⊢
  rw [hof.2, String.toList_ofList]
  exact (hS.keyword_iff hk hquote hblank (hline.of_subset hsub)).1 hjoined

/-- The lines are joined to a statement that says the same. -/
theorem Continues.respaced (htail : Continues tail pieces) :
    Respaced (Statement.of text)
      (Statement.of (String.ofList (joinLines (Text.trim piece) tail))) := by
  obtain ⟨hne, hchars⟩ := isKeywordChar_of_mem hkeyword
  obtain ⟨more, hmore, hblank⟩ := exists_joinLines_head hpieces hkeyword tail
  refine ⟨?_, fun ts hts => ?_, ?_⟩
  · rw [hmore, (Statement.of_append (fun c hc => (hchars c hc).isBlank) hblank).1,
      String.ofList_toList]
  · have hk : Renders [.word (Statement.of text).keyword]
        (Statement.of text).keyword.toList :=
      renders_singleton (t := .word _) ⟨fun h => hne (by rw [h]; rfl),
        List.all_eq_true.2 fun c hc => by simp [(hchars c hc).endsWord]⟩
    rw [lexes_iff_renders] at hts ⊢
    exact htail.shows_operand hpieces hkeyword honly spaced_tokens hk hts
  · have hk := optionWords_word (fun c hc => (hchars c hc).endsOption) hne
    exact htail.shows_operand hpieces hkeyword honly spaced_optionWords hk rfl

end Joined

/-! ## Decks -/

/-- The line of a keyword opens a statement. -/
theorem opensStatement_append {keyword : String} {tail : List Char} (h : keyword ∈ keywords)
    (htail : ∀ c ∈ tail.head?, Text.isBlank c = true) :
    opensStatement (keyword.toList ++ tail) = true := by
  obtain ⟨hne, hchars⟩ := isKeywordChar_of_mem h
  have hall : ∀ c ∈ keyword.toList, (! Text.isBlank c) = true := fun c hc => by
    simp [(hchars c hc).isBlank]
  have hword : Text.firstWord (keyword.toList ++ tail) = keyword.toList := by
    rw [Text.firstWord, Text.trimStart_append
      (fun c hc => (hchars c (List.mem_of_mem_head? hc)).isBlank) hne,
      List.takeWhile_append_of_pos hall]
    cases tail with
    | nil => simp
    | cons c tail => simp [htail c rfl]
  rw [opensStatement, hword, String.ofList_toList]
  simpa using h

/-- The statement in front of the line of a keyword is closed, and the lines that continue the new
one are joined to it. -/
theorem joinFrom_statement {line : List Char} {tail pieces : List (List Char)}
    (hcode : isCode line = true) (hopens : opensStatement (Text.trim line) = true)
    (htail : Continues tail pieces) (current : Option (List Char)) (rest : List (List Char)) :
    joinFrom current ((line :: (tail ++ rest)).filter isCode) =
      current.toList ++ joinFrom (some (joinLines (Text.trim line) tail)) (rest.filter isCode) := by
  have hjoin := joinFrom_continuation htail.forall_isCode (Text.trim line) (rest.filter isCode)
  rw [List.filter_cons_of_pos hcode, List.filter_append, joinLines, ← hjoin]
  cases current with
  | none => simp [joinFrom]
  | some joined => simp [joinFrom, hopens]

/-- The lines of a deck laid out anew are joined to statements that say the same: by induction on
the lines. -/
theorem Spread.joinFrom {lines : List (List Char)} {texts : List String} (h : Spread lines texts)
    (hkeyword : ∀ text ∈ texts, (Statement.of text).keyword ∈ keywords)
    (honly : ∀ text ∈ texts, Text.OnlySpaces text.toList) (current : Option (List Char)) :
    ∃ joined, joinFrom current (lines.filter isCode) = current.toList ++ joined ∧
      List.Forall₂ (fun text cs => Respaced (Statement.of text) (Statement.of (String.ofList cs)))
        texts joined := by
  induction h generalizing current with
  | nil => exact ⟨[], by simp [Deck.joinFrom], .nil⟩
  | skip hcode _ ih =>
    rw [List.filter_cons_of_neg (by simp [hcode])]
    exact ih hkeyword honly current
  | @statement line piece tail lines pieces text texts hpieces htrim htail _ ih =>
    obtain ⟨hkeyword, hkeywords⟩ := List.forall_mem_cons.1 hkeyword
    obtain ⟨honly, honlys⟩ := List.forall_mem_cons.1 honly
    obtain ⟨hne, hchars⟩ := isKeywordChar_of_mem hkeyword
    obtain ⟨more, hhead, hmore⟩ := hpieces.exists_trim_head hkeyword
    rw [← htrim] at hhead
    have hcode : isCode line = true := by
      obtain ⟨c, cs, hcs⟩ := List.exists_cons_of_ne_nil hne
      refine isCode_of_trim_ne_nil (by simp [hhead, hcs]) ?_
      simpa [hhead, hcs] using (hchars c (by simp [hcs])).ne_star
    have hopens := hhead ▸ opensStatement_append hkeyword hmore
    obtain ⟨joined, hjoined, hall⟩ := ih hkeywords honlys (some (joinLines (Text.trim line) tail))
    refine ⟨joinLines (Text.trim line) tail :: joined, ?_, .cons ?_ hall⟩
    · rw [joinFrom_statement hcode hopens htail, hjoined]
      rfl
    · rw [htrim]
      exact htail.respaced hpieces hkeyword honly

/-- Statements that say the same, one by one, are taken alike. -/
theorem foldlM_take_respaced {ss ss' : List Statement} (h : List.Forall₂ Respaced ss ss')
    (hfold : ss.foldlM (Draft.take config) d = .ok d') :
    ss'.foldlM (Draft.take config) d = .ok d' := by
  induction h generalizing d with
  | nil => exact hfold
  | cons hs _ ih =>
    rw [List.foldlM_cons] at hfold ⊢
    obtain ⟨m, htake, hrest⟩ := bind_eq_ok_iff.1 hfold
    exact bind_eq_ok_iff.2 ⟨m, Draft.take_respaced hs htake, ih hrest⟩

/-- **A deck laid out anew compiles to the same.** The statements of the deck are cut next to
blanks and commas outside quotes, and every piece behind a cut stands on an indented line. -/
theorem ofText_of_spread {text text' : String} {deck : Deck} (hdeck : ofText text config = .ok deck)
    (hprintable : ∀ s ∈ statements text, ∀ c ∈ s.toList, ' ' ≤ c ∧ c ≤ '~')
    (hspread : Spread (Text.lines text'.toList) (statements text)) :
    ofText text' config = .ok deck := by
  obtain ⟨d, hfold, hd⟩ := ofText_eq_ok_iff.1 hdeck
  have hkeyword : ∀ s ∈ statements text, (Statement.of s).keyword ∈ keywords := by
    intro s hs
    obtain ⟨e, he⟩ := (foldlM_take_iff.1 hfold).1 _ (List.mem_map_of_mem hs)
    exact Draft.keyword_mem he
  have honly : ∀ s ∈ statements text, Text.OnlySpaces s.toList := fun s hs c hc =>
    Text.eq_space_of_printable (hprintable s hs c hc)
  obtain ⟨joined, hjoined, hall⟩ := hspread.joinFrom hkeyword honly none
  have hstatements : statements text' = joined.map String.ofList := by
    rw [statements, hjoined, Option.toList_none, List.nil_append]
  refine ofText_eq_ok_iff.2 ⟨d, foldlM_take_respaced ?_ hfold, hd⟩
  rw [hstatements, List.map_map]
  exact List.forall₂_map_right_iff.2 (List.forall₂_map_left_iff.2 hall)

/-- A sort statement cut behind a comma, a condition cut in front of a literal that holds commas,
and an option cut in front of a blank; a blank line and a comment stand between them. -/
theorem ofText_of_spread_cuts :
    let sort := "SORT FIELDS=(1,8,CH,A,10,2,BI,D)"
    let select := "INCLUDE COND=(1,6,CH,EQ,C'A, B,C')"
    let text := sort ++ "\n" ++ select ++ "\nOPTION EQUALS"
    let text' := "SORT FIELDS=(1,8,CH,A,\n\t10,2,BI,D)\n\nINCLUDE COND=(1,6,CH,EQ,\n" ++
      "* a name\n   C'A, B,C')  \nOPTION\n EQUALS\n"
    let deck : Deck :=
      { comparer := some ⟨[⟨⟨0, 8, .ch, .ascii⟩, .ascending⟩, ⟨⟨9, 2, .bi, .ascii⟩, .descending⟩],
          .native⟩
        filter := some (.compare ⟨.field ⟨0, 6, .ch, .ascii⟩, .eq,
          .text [65, 44, 32, 66, 44, 67], .ascii⟩)
        stable := some true }
    ofText text {} = .ok deck ∧ Spread (Text.lines text'.toList) (statements text) ∧
      ofText text' {} = .ok deck := by
  intro sort select text text' deck
  have hdeck : ofText text {} = .ok deck := by decide +kernel
  have hstatements : statements text = [sort, select, "OPTION EQUALS"] := by decide +kernel
  have hsort : Pieces sort.toList ["SORT FIELDS=(1,8,CH,A,".toList, "10,2,BI,D)".toList] := by
    have hparts : sort.toList = "SORT FIELDS=(1,8,CH,A,".toList ++ "10,2,BI,D)".toList := by
      decide +kernel
    exact hparts ▸ .cut ⟨by decide +kernel, .inl ⟨',', by decide +kernel, .inr rfl⟩⟩ (.whole _)
  have hselect : Pieces select.toList ["INCLUDE COND=(1,6,CH,EQ,".toList, "C'A, B,C')".toList] := by
    have hparts : select.toList = "INCLUDE COND=(1,6,CH,EQ,".toList ++ "C'A, B,C')".toList := by
      decide +kernel
    exact hparts ▸ .cut ⟨by decide +kernel, .inl ⟨',', by decide +kernel, .inr rfl⟩⟩ (.whole _)
  have hoption : Pieces "OPTION EQUALS".toList ["OPTION".toList, " EQUALS".toList] := by
    have hparts : "OPTION EQUALS".toList = "OPTION".toList ++ " EQUALS".toList := by
      decide +kernel
    exact hparts ▸ .cut ⟨by decide +kernel, .inr ⟨' ', by decide +kernel, .inl rfl⟩⟩ (.whole _)
  have hlines : Text.lines text'.toList =
      "SORT FIELDS=(1,8,CH,A,".toList :: (["\t10,2,BI,D)".toList, []] ++
        "INCLUDE COND=(1,6,CH,EQ,".toList :: (["* a name".toList, "   C'A, B,C')  ".toList] ++
          "OPTION".toList :: ([" EQUALS".toList] ++ []))) := by
    decide +kernel
  have hspread : Spread (Text.lines text'.toList) (statements text) := by
    rw [hstatements, hlines]
    refine .statement hsort ?_ (.line ?_ ?_ ?_ ?_ (.skip ?_ .nil)) <|
      .statement hselect ?_ (.skip ?_ (.line ?_ ?_ ?_ ?_ .nil)) <|
      .statement hoption ?_ (.line ?_ ?_ ?_ ?_ .nil) .nil
    all_goals decide +kernel
  have hprintable : ∀ s ∈ statements text, ∀ c ∈ s.toList, ' ' ≤ c ∧ c ≤ '~' := by
    have hall : (statements text).all (·.toList.all fun c => ' ' ≤ c ∧ c ≤ '~') = true := by
      decide +kernel
    simpa [List.all_eq_true] using hall
  exact ⟨hdeck, hspread, ofText_of_spread hdeck hprintable hspread⟩

end CardSort.Deck
