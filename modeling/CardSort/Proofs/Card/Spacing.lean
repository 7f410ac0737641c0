import CardSort.Proofs.Card.Beside
import CardSort.Proofs.Except

/-!
# Separators between tokens

A card may be cut next to a separator that stands outside literals: one part shows the tokens in
front of the cut, the other one those behind it. A parser that reads a card to its end reads every
other card with the same tokens alike.

* `Renders.split`, `Renders.join` — **a card cut at a separator**, and two cards joined by one.
* `Renders.unique` — a text shows one list of tokens.
* `ReadsWhole` — a parser that reads cards to their end, and those with the same tokens alike;
  `Closes.readsWhole`.
* `ReadsWhole.read_congr`, `ReadsWhole.readWithFormat_congr` — **operands with the same tokens**.
-/

set_option autoImplicit false

namespace CardSort.Card

variable {t : Token} {ts us : List Token} {a b cs : List Char}

/-! ## Cutting a card -/

/-- The cut is next to a separator. -/
def BesideSeparator (a b : List Char) : Prop :=
  (∃ c ∈ a.getLast?, isSeparator c = true) ∨ ∃ c ∈ b.head?, isSeparator c = true

/-- Outside literals, what stands on both sides of a cut within a token is no separator. -/
theorem Token.not_besideSeparator (ht : t.WellFormed) (h : t.render = a ++ b) (ha : a ≠ [])
    (hb : b ≠ []) (heven : Even (a.count quote)) : ¬ BesideSeparator a b := by
  suffices hnone : (∀ c ∈ a.getLast?, isSeparator c = false) ∧
      ∀ c ∈ b.head?, isSeparator c = false by
    rintro (⟨c, hc, hsep⟩ | ⟨c, hc, hsep⟩)
    · exact Bool.noConfusion ((hnone.1 c hc).symm.trans hsep)
    · exact Bool.noConfusion ((hnone.2 c hc).symm.trans hsep)
  cases t with
  | word text =>
    rw [Token.render] at h
    have hword : ∀ c ∈ a ++ b, isSeparator c = false := by
      intro c hc
      rw [← h] at hc
      have hends := Token.endsWord_eq_false ht hc
      simp only [endsWord, Bool.or_eq_false_iff] at hends
      exact hends.1.1.1.1
    exact ⟨fun c hc => hword c (List.mem_append_left _ (List.mem_of_mem_getLast? hc)),
      fun c hc => hword c (List.mem_append_right _ (List.mem_of_mem_head? hc))⟩
  | literal text =>
    obtain ⟨d, a, rfl⟩ := List.exists_cons_of_ne_nil ha
    obtain ⟨rfl, htext⟩ := List.cons.inj h
    have hodd : ¬ Even (a.count quote) := by
      simpa [Nat.even_add_one] using heven
    -- the number of quotes is odd, so the cut is in front of the closing quote
    obtain ⟨rest, hrest⟩ : ∃ rest, doubleQuotes text.toList = a ++ rest := by
      rcases List.append_eq_append_iff.1 htext with ⟨rest, rfl, hclose⟩ | ⟨rest, hfront, -⟩
      · cases rest with
        | nil => exact ⟨[], by simp⟩
        | cons e rest =>
          obtain ⟨-, hnil⟩ := List.cons.inj hclose
          exact absurd (List.append_eq_nil_iff.1 hnil.symm).2 hb
      · exact ⟨rest, hfront⟩
    obtain ⟨hlast, hhead⟩ := quote_beside_of_odd hrest hodd
    have hb' : quote ∈ b.head? := by
      rw [hrest, List.append_assoc] at htext
      rw [← List.append_cancel_left htext]
      exact List.mem_head?_append_of_mem_head? hhead
    have ha' : quote ∈ (quote :: a).getLast? := by
      rw [List.getLast?_cons, Option.mem_def.1 hlast]
      rfl
    refine ⟨fun c hc => ?_, fun c hc => ?_⟩
    · rw [Option.mem_unique hc ha']
      rfl
    · rw [Option.mem_unique hc hb']
      rfl
  | openParen | closeParen | semicolon =>
    exfalso
    have hlength := congrArg List.length h
    have hapos := List.length_pos_iff.2 ha
    have hbpos := List.length_pos_iff.2 hb
    simp only [Token.render, List.length_singleton, List.length_append] at hlength
    omega

theorem BesideSeparator.left {a' : List Char} (h : BesideSeparator (a' ++ a) b) (ha : a ≠ []) :
    BesideSeparator a b := by
  unfold BesideSeparator at h
  rwa [getLast?_append_right ha] at h

theorem BesideSeparator.right {b' : List Char} (h : BesideSeparator a (b ++ b')) (hb : b ≠ []) :
    BesideSeparator a b := by
  unfold BesideSeparator at h
  obtain ⟨c, b, rfl⟩ := List.exists_cons_of_ne_nil hb
  exact h

/-- **A card cut at a separator**: its parts show the tokens on both sides of the cut. By induction
on the tokens, according to where the cut is. -/
theorem Renders.split (h : Renders ts (a ++ b)) (heven : Even (a.count quote))
    (hcut : BesideSeparator a b) :
    ∃ ts₁ ts₂, ts = ts₁ ++ ts₂ ∧ Renders ts₁ a ∧ Renders ts₂ b := by
  generalize hcs : a ++ b = cs at h
  induction h generalizing a with
  | nil hgap =>
    subst hcs
    exact ⟨[], [], rfl, .nil fun c hc => hgap c (List.mem_append_left _ hc),
      .nil fun c hc => hgap c (List.mem_append_right _ hc)⟩
  | @cons gap cs t ts hgap ht hrest hapart ih =>
    rcases List.append_eq_append_iff.1 hcs with ⟨back, rfl, rfl⟩ | ⟨mid, rfl, hmid⟩
    · -- within the separators in front of the token
      refine ⟨[], t :: ts, rfl, .nil fun c hc => hgap c (List.mem_append_left _ hc), ?_⟩
      exact .cons (fun c hc => hgap c (List.mem_append_right _ hc)) ht hrest hapart
    have hnone : ∀ c ∈ ([] : List Char), isSeparator c = true := by simp
    obtain rfl | hne := eq_or_ne mid []
    · -- in front of the token
      rw [List.nil_append] at hmid
      rw [List.append_nil, ← hmid]
      exact ⟨[], t :: ts, rfl, .nil hgap, .cons hnone ht hrest hapart⟩
    rw [List.count_append, count_quote_separators hgap, Nat.zero_add] at heven
    have hcut := hcut.left hne
    rcases List.append_eq_append_iff.1 hmid with ⟨more, rfl, rfl⟩ | ⟨back, hrender, rfl⟩
    · obtain rfl | hmore := eq_or_ne more []
      · -- behind the token
        exact ⟨[t], ts, rfl, .cons hgap ht (.nil hnone) (by simp), hrest⟩
      · -- further on
        rw [List.count_append] at heven
        have heven := (Nat.even_add.1 heven).1 (Token.even_count_render ht)
        obtain ⟨ts₁, ts₂, rfl, h₁, h₂⟩ := ih heven (hcut.left hmore) rfl
        refine ⟨t :: ts₁, ts₂, rfl, .cons hgap ht h₁ fun next hnext hruns => ?_, h₂⟩
        obtain ⟨d, more, rfl⟩ := List.exists_cons_of_ne_nil hmore
        exact hapart next (List.mem_head?_append_of_mem_head? hnext) hruns
    · obtain rfl | hback := eq_or_ne back []
      · -- behind the token
        rw [List.append_nil] at hrender
        have hone := Renders.cons hgap ht (.nil hnone) (by simp)
        rw [List.append_nil, hrender] at hone
        exact ⟨[t], ts, rfl, hone, hrest⟩
      · exact absurd (hcut.right hback) (Token.not_besideSeparator ht hrender hne hback heven)

/-- Two cards joined by a separator. -/
theorem Renders.join {c : Char} (h : Renders ts a) (hc : isSeparator c = true)
    (h' : Renders us b) : Renders (ts ++ us) (a ++ c :: b) := by
  induction h with
  | @nil gap hgap =>
    induction gap with
    | nil => exact h'.separator hc
    | cons d gap ih =>
      obtain ⟨hd, hgap⟩ := List.forall_mem_cons.1 hgap
      exact (ih hgap).separator hd
  | @cons gap cs t ts hgap ht hrest hapart ih =>
    rw [List.append_assoc, List.append_assoc]
    refine .cons hgap ht ih fun next hnext hruns => ?_
    cases ts with
    | nil =>
      cases hrest with
      | nil hgap =>
        cases cs with
        | nil => exact ⟨c, rfl, hc⟩
        | cons d cs => exact ⟨d, rfl, hgap d List.mem_cons_self⟩
    | cons u ts =>
      obtain ⟨d, hd, hsep⟩ := hapart next hnext hruns
      exact ⟨d, List.mem_head?_append_of_mem_head? hd, hsep⟩

/-- A text shows one list of tokens. -/
theorem Renders.unique (h : Renders ts cs) (h' : Renders us cs) : ts = us := by
  have hfirst : tokens (String.ofList cs) = .ok ts := tokens_of_lexes (by simpa using h.lexes)
  have hsecond : tokens (String.ofList cs) = .ok us := tokens_of_lexes (by simpa using h'.lexes)
  exact Except.ok.inj (hfirst.symm.trans hsecond)

/-- A separator at the end of a card says nothing. -/
theorem Renders.of_append_separator {c : Char} (h : Renders ts (a ++ [c]))
    (hc : isSeparator c = true) : Renders ts a := by
  have hone : ∀ d ∈ [c], isSeparator d = true := by simpa using hc
  have heven := h.even_count
  rw [List.count_append, count_quote_separators hone, Nat.add_zero] at heven
  obtain ⟨ts₁, ts₂, rfl, h₁, h₂⟩ := h.split heven (.inr ⟨c, rfl, hc⟩)
  have hnone : Renders [] [c] := .nil hone
  rw [h₂.unique hnone, List.append_nil]
  exact h₁

/-! ## Cards with the same tokens -/

section Operands

variable {α β : Type} {p : Parser α} {source source' : String}

/-- The parser reads cards that end together alike, and to their end. -/
def ReadsWhole (p : Parser α) : Prop :=
  ∀ P : Pairing, P.Closed → ∀ n c d, P.Pair n c d →
    P.Agree (fun a b m => a = b ∧ m = 0) (p c) (p d)

/-- The parser succeeds at the end of a card only. -/
def Closes (p : Parser α) : Prop := ∀ c a c', p c = .ok a c' → c'.current = none

theorem Closes.next {f : β → Parser α} {q : Parser β} (hf : ∀ b, Closes (f b)) :
    Closes (q >>= f) := by
  intro c a c' h
  obtain ⟨b, d, -, hb⟩ := run_bind_iff.1 h
  exact hf b d a c' hb

theorem Closes.map {f : β → α} {q : Parser β} (hq : Closes q) :
    Closes (do let b ← q; pure (f b)) := by
  intro c a c' h
  obtain ⟨b, d, hb, hpure⟩ := run_bind_iff.1 h
  cases hpure
  exact hq c b c' hb

theorem closes_fail (issue : CardIssue) : Closes (fail issue : Parser α) := by
  intro c a c' h
  cases h

theorem closes_expectEnd {a : α} : Closes (do expectEnd; pure a) := by
  intro c b c' h
  obtain ⟨_, d, hend, hpure⟩ := run_bind_iff.1 h
  cases hpure
  unfold expectEnd at hend
  split at hend
  · cases hend
    simpa [Cursor.atEnd] using ‹c.atEnd = true›
  · cases hend

/-- Two readings that agree have come to the end if the parser succeeds there only. -/
theorem Closes.readsWhole {used : α → Nat} (hcloses : Closes p)
    (hp : ∀ P : Pairing, P.Closed → P.Alike used p p) : ReadsWhole p := by
  intro P hclosed n c d hpair
  have hagree := hp P hclosed n c d hpair
  cases hread : p c with
  | error f c' =>
    rw [hread] at hagree
    exact hagree
  | ok a c' =>
    rw [hread] at hagree
    obtain ⟨b, d', m, hd, ⟨hab, -⟩, hpair'⟩ := hagree
    refine ⟨b, d', m, hd, ⟨hab, ?_⟩, hpair'⟩
    by_contra hm
    obtain ⟨t, ht, -⟩ := P.of_pos hpair' (Nat.pos_of_ne_zero hm)
    rw [hcloses c a c' hread] at ht
    cases ht

/-- Cards with the same tokens end together. -/
theorem Pairing.closed_tokens (source source' : String) :
    (Pairing.tokens source source' (fun _ => True) [] [] (fun _ => trivial) endsBlock_nil
      endsBlock_nil).Closed := by
  rintro c d ⟨ts, hzero, -, hc, hd, -⟩
  obtain rfl := List.eq_nil_of_length_eq_zero hzero.symm
  exact ⟨hc.current, hd.current⟩

namespace ReadsWhole

theorem lexes {a : α} (hp : ReadsWhole p) (h : read p source = .ok a) :
    ∃ ts, Lexes source.toList ts :=
  lexes_of_read (fun P hclosed n c hpair => (hp P hclosed n c c hpair).mono
    fun _ _ _ hm => hm.2) h

/-- Cards with the same tokens are read alike. -/
theorem read_congr {a : α} (hp : ReadsWhole p)
    (h : ∀ ts, Lexes source.toList ts → Lexes source'.toList ts)
    (hread : read p source = .ok a) : read p source' = .ok a := by
  obtain ⟨ts, hts⟩ := hp.lexes hread
  obtain ⟨c, hc, hat, hsource⟩ := exists_start hts
  obtain ⟨d, hd, hat', hsource'⟩ := exists_start (h ts hts)
  obtain ⟨c', hread⟩ := (read_eq_ok_iff hc).1 hread
  have hagree := hp _ (Pairing.closed_tokens source source') ts.length c d
    ⟨ts, rfl, fun _ _ => trivial, by simpa using hat, by simpa using hat', hsource, hsource'⟩
  rw [hread] at hagree
  obtain ⟨_, d', m, hd', ⟨rfl, -⟩, -⟩ := hagree
  exact (read_eq_ok_iff hd).2 ⟨d', hd'⟩

theorem readWithFormat_congr {p : Option FieldFormat → Parser α} {a : α}
    (hp : ∀ format, ReadsWhole (p format))
    (h : ∀ ts, Lexes source.toList ts → Lexes source'.toList ts)
    (hread : readWithFormat p source = .ok a) : readWithFormat p source' = .ok a := by
  obtain ⟨format, hformat, hread⟩ := bind_eq_ok_iff.1 hread
  obtain ⟨ts, hts⟩ := (hp format).lexes hread
  refine bind_eq_ok_iff.2 ⟨format, ?_, (hp format).read_congr h hread⟩
  exact (defaultFormat_eq_ok_iff (h ts hts)).2 ((defaultFormat_eq_ok_iff hts).1 hformat)

end ReadsWhole

end Operands

end CardSort.Card
