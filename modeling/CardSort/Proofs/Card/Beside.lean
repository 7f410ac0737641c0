import CardSort.Proofs.Card.Pairing
import CardSort.Proofs.Card.Scanning

/-!
# Cards that show the same tokens

What a parser reads depends on the tokens in front of it alone, and of what follows a block only
on its being the end or a semicolon. A card whose last literal is not closed is not read to its
end.

* `EndsBlock` — tokens in front of which a block ends.
* `Pairing.tokens` — two cards with the same tokens, and what stands behind them.
* `lexes_of_read` — a card that is read to its end shows tokens.
* `Lexes.semicolon` — two cards joined by a semicolon.
* `FirstFormat.append_or` — the default format of two cards in one.
* `defaultFormat_eq_ok_iff` — the default format that is found is that of the first format word.
-/

set_option autoImplicit false

namespace CardSort

theorem FieldFormat.eq_code_of_ofCode? {code : String} {f : FieldFormat}
    (h : FieldFormat.ofCode? code = some f) : code = f.code := by
  unfold FieldFormat.ofCode? at h
  split at h
  all_goals cases h
  all_goals rfl

end CardSort

namespace CardSort.Card

variable {t : Token} {ts us : List Token} {c d : Cursor}

/-! ## Tokens in front of two cards -/

/-- A block ends in front of the tokens. -/
def EndsBlock (ts : List Token) : Prop := ts.head? = none ∨ ts.head? = some .semicolon

theorem endsBlock_nil : EndsBlock [] := .inl rfl

theorem endsBlock_semicolon (ts : List Token) : EndsBlock (.semicolon :: ts) := .inr rfl

theorem EndsBlock.append_semicolon (h : EndsBlock ts) (us : List Token) :
    EndsBlock (ts ++ .semicolon :: us) := by
  cases ts with
  | nil => exact endsBlock_semicolon us
  | cons t ts => exact h

theorem Cursor.At.advance {c' : Cursor} {u : Unit} (h : c.At (t :: ts))
    (hadvance : Card.advance c = .ok u c') : c'.At ts ∧ c'.source = c.source := by
  obtain ⟨next, hnext, hat, hsource⟩ := exists_advance h.rest
  rw [hnext] at hadvance
  cases hadvance
  exact ⟨hat, hsource⟩

/-- A head is taken off the first token. -/
theorem Cursor.At.behind {w w' : String} (h : c.At (.word w :: ts)) (index : Nat) :
    Cursor.At { c with current := some (.word w'), index := index } (.word w' :: ts) :=
  ⟨rfl, h.rest⟩

/-- Two cards with the same tokens in front of them, all of the given kind; behind them the first
one goes on with `left` and the second one with `right`. -/
def Pairing.tokens (source source' : String) (kind : Token → Prop) (left right : List Token)
    (hword : ∀ w, kind (.word w)) (hleft : EndsBlock left) (hright : EndsBlock right) :
    Pairing where
  source := source
  Pair n c d := ∃ ts, n = ts.length ∧ (∀ t ∈ ts, kind t) ∧ c.At (ts ++ left) ∧
    d.At (ts ++ right) ∧ c.source = source ∧ d.source = source'
  Allows _ := True
  source_eq := by
    rintro n c d ⟨ts, -, -, -, -, hsource, -⟩
    exact hsource
  le_size := by
    rintro _ c d ⟨ts, rfl, -, hc, hd, -⟩
    have hcsize := hc.length_le_size
    have hdsize := hd.length_le_size
    rw [List.length_append] at hcsize hdsize
    exact ⟨by omega, by omega⟩
  of_pos := by
    rintro _ c d ⟨ts, rfl, -, hc, hd, -⟩ hpos
    obtain ⟨t, ts, rfl⟩ := List.exists_cons_of_length_pos hpos
    exact ⟨t, hc.current, hd.current⟩
  of_zero := by
    rintro c d ⟨ts, hzero, -, hc, hd, -⟩
    obtain rfl := List.eq_nil_of_length_eq_zero hzero.symm
    unfold Cursor.AtBlockEnd
    rw [hc.current, hd.current]
    exact ⟨hleft, hright⟩
  advance_ok := by
    rintro _ c d c' ⟨ts, rfl, hkind, hc, hd, hsource, hsource'⟩ hpos hadvance
    obtain ⟨t, ts, rfl⟩ := List.exists_cons_of_length_pos hpos
    obtain ⟨hc', hsourcec⟩ := Cursor.At.advance hc hadvance
    obtain ⟨d', hd', hat, hsourced⟩ := exists_advance hd.rest
    exact ⟨d', ts.length, hd', Nat.lt_succ_self _, ts, rfl,
      fun u hu => hkind u (List.mem_cons_of_mem _ hu), hc', hat, hsourcec.trans hsource,
      hsourced.trans hsource'⟩
  advance_error _ _ := trivial
  behind := by
    rintro _ c d head w ⟨ts, rfl, hkind, hc, hd, hsource, hsource'⟩ hcurrent -
    rw [hc.current] at hcurrent
    cases ts with
    | nil => obtain hleft | hleft := hleft <;> simp [hleft] at hcurrent
    | cons t ts =>
      obtain rfl : t = .word (head ++ w) := Option.some.inj hcurrent
      refine ⟨.word w :: ts, rfl, ?_, hc.behind _, hd.behind _, hsource, hsource'⟩
      exact List.forall_mem_cons.2 ⟨hword w, fun u hu => hkind u (List.mem_cons_of_mem _ hu)⟩
  allows_card _ _ := trivial
  allows_unknownFormat _ _ _ := trivial

/-! ## Whole cards -/

theorem read_eq_ok_iff {α : Type} {p : Parser α} {source : String} {a : α}
    (hc : start source = .ok c) : read p source = .ok a ↔ ∃ c', p c = .ok a c' := by
  simp only [read, hc]
  cases p c with
  | ok b c' => simp
  | error f c' => simp

/-! ## Cards that are not read to their end -/

/-- A card in front of a literal that is not closed, read beside itself. -/
def Pairing.broken (source : String) : Pairing where
  source := source
  Pair n c d := c = d ∧ c.source = source ∧ n = c.size ∧ c.current ≠ none ∧
    ∃ ts before, Breaks c.rest ts before
  Allows _ := True
  source_eq h := h.2.1
  le_size := by
    rintro n c _ ⟨rfl, -, rfl, -⟩
    exact ⟨Nat.le_refl _, Nat.le_refl _⟩
  of_pos := by
    rintro n c _ ⟨rfl, -, -, hc, -⟩ -
    obtain ⟨t, ht⟩ := Option.ne_none_iff_exists'.1 hc
    exact ⟨t, ht, ht⟩
  of_zero := by
    rintro c _ ⟨rfl, -, hzero, -⟩
    cases hzero
  advance_ok := by
    rintro n c _ c' ⟨rfl, hsource, rfl, -, ts, before, hbreaks⟩ - hadvance
    cases hbreaks with
    | unclosed hread =>
      obtain ⟨next, hnext⟩ := advance_of_unclosed hread
      rw [hnext] at hadvance
      cases hadvance
    | token hread hmore =>
      obtain ⟨next, hnext, hcurrent, hrest, hsourcec, -⟩ := advance_of_token hread
      rw [hnext] at hadvance
      cases hadvance
      have hne : c'.current ≠ none := by simp [hcurrent]
      exact ⟨c', _, hnext, size_lt_of_advance hnext hne, rfl, hsourcec.trans hsource, rfl, hne,
        _, _, hrest ▸ hmore⟩
  advance_error _ _ := trivial
  behind := by
    rintro n c _ head w ⟨rfl, hsource, rfl, -, hbreaks⟩ hc -
    exact ⟨rfl, hsource, rfl, Option.some_ne_none _, hbreaks⟩
  allows_card _ _ := trivial
  allows_unknownFormat _ _ _ := trivial

theorem Pairing.closed_broken (source : String) : (Pairing.broken source).Closed := by
  rintro c _ ⟨rfl, -, hzero, -⟩
  cases hzero

/-- A card that is read to its end shows tokens: every literal on it is closed. -/
theorem lexes_of_read {α : Type} {p : Parser α} {source : String} {a : α}
    (hp : ∀ P : Pairing, P.Closed → ∀ n c, P.Pair n c c →
      P.Agree (fun _ _ m => m = 0) (p c) (p c))
    (h : read p source = .ok a) : ∃ ts, Lexes source.toList ts := by
  obtain hlexes | ⟨ts, before, hbreaks⟩ := lexes_or_breaks source.toList
  · exact hlexes
  exfalso
  cases hbreaks with
  | unclosed hread =>
    obtain ⟨next, hnext⟩ := advance_of_unclosed (c := .before source) hread
    simp [read, start, hnext] at h
  | token hread hmore =>
    obtain ⟨c, hc, hcurrent, hrest, hsource, -⟩ := advance_of_token (c := .before source) hread
    have hagree := hp (.broken source) (Pairing.closed_broken source) c.size c
      ⟨rfl, hsource, rfl, by simp [hcurrent], _, _, hrest ▸ hmore⟩
    have hstart : start source = .ok c := by simp [start, hc]
    obtain ⟨c', hend⟩ := (read_eq_ok_iff hstart).1 h
    rw [hend] at hagree
    obtain ⟨b, d, m, -, rfl, -, -, hzero, -⟩ := hagree
    cases hzero

/-! ## Two cards in one -/

theorem Renders.semicolon {cs cs' : List Char} (h : Renders ts cs) (h' : Renders us cs') :
    Renders (ts ++ .semicolon :: us) (cs ++ ';' :: cs') := by
  induction h with
  | nil hgap => exact Renders.cons hgap trivial h' fun next _ hruns => hruns.elim
  | @cons gap cs t ts hgap ht hrest hapart ih =>
    have heq : gap ++ (t.render ++ cs) ++ ';' :: cs' =
        gap ++ (t.render ++ (cs ++ ';' :: cs')) := by
      simp only [List.append_assoc]
    rw [heq]
    refine Renders.cons hgap ht ih fun next hnext hruns => ?_
    cases ts with
    | nil =>
      obtain rfl : Token.semicolon = next := Option.some.inj hnext
      cases t <;> exact hruns.elim
    | cons u ts =>
      obtain ⟨x, hx, hsep⟩ := hapart next hnext hruns
      exact ⟨x, List.mem_head?_append_of_mem_head? hx, hsep⟩

/-- Two cards joined by a semicolon show the tokens of the one and, behind the semicolon, those
of the other. -/
theorem Lexes.semicolon {cs cs' : List Char} (h : Lexes cs ts) (h' : Lexes cs' us) :
    Lexes (cs ++ ';' :: cs') (ts ++ .semicolon :: us) :=
  (h.renders.semicolon h'.renders).lexes

/-- The default format of two cards in one is that of the first card, if it has one. -/
theorem FirstFormat.append_or {f g : Option FieldFormat} (h : FirstFormat ts f)
    (h' : FirstFormat us g) : FirstFormat (ts ++ us) (f.or g) := by
  induction h with
  | missing => exact h'
  | here => exact .here
  | later ht _ ih => exact .later ht ih

/-- The default format that is found is that of the first format word. -/
theorem FirstFormat.of_findFormat {f : Option FieldFormat} {c' : Cursor} {fuel : Nat}
    (hc : c.At ts) (hfuel : ts.length ≤ fuel) (h : Card.findFormat fuel c = .ok f c') :
    FirstFormat ts f := by
  induction ts generalizing fuel c with
  | nil =>
    rw [Pairing.findFormat_of_none hc.current] at h
    cases h
    exact .missing
  | cons t ts ih =>
    obtain ⟨fuel, rfl⟩ : ∃ k, fuel = k + 1 := Nat.exists_eq_add_one.2 (Nat.zero_lt_of_lt hfuel)
    -- behind any other token the search goes on
    have hlater (ht : t.isFormat = false)
        (h : (do Card.advance; Card.findFormat fuel) c = .ok f c') :
        FirstFormat (t :: ts) f := by
      obtain ⟨_, next, hadvance, hrest⟩ := run_bind_iff.1 h
      exact .later ht (ih (hc.advance hadvance).1 (Nat.le_of_succ_le_succ hfuel) hrest)
    obtain ⟨_, _, hget, hfind⟩ := run_bind_iff.1 h
    cases hget
    simp only [hc.current, List.head?_cons] at hfind
    cases t with
    | word w =>
      cases hafter : Text.after? formatKeyword w with
      | none =>
        simp only [hafter] at hfind
        exact hlater (by simp [Token.isFormat, Text.beginsWith, hafter]) hfind
      | some code =>
        obtain rfl := Text.after?_eq_some_iff.1 hafter
        cases hcode : FieldFormat.ofCode? code with
        | none =>
          simp only [hafter, hcode] at hfind
          cases hfind
        | some g =>
          simp only [hafter, hcode] at hfind
          cases hfind
          obtain rfl := FieldFormat.eq_code_of_ofCode? hcode
          exact .here
    | literal | openParen | closeParen | semicolon => exact hlater rfl hfind

theorem defaultFormat_eq_ok_iff {text : String} {format : Option FieldFormat}
    (h : Lexes text.toList ts) : defaultFormat text = .ok format ↔ FirstFormat ts format := by
  refine ⟨fun hformat => ?_, defaultFormat_eq_ok h⟩
  obtain ⟨c, hc, hat, -⟩ := exists_start h
  obtain ⟨c', hfind⟩ := (read_eq_ok_iff hc).1 hformat
  exact FirstFormat.of_findFormat hat hat.length_le_size hfind

end CardSort.Card
