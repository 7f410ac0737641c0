import CardSort.Proofs.Card.Beside
import CardSort.Proofs.Card.Words
import CardSort.Proofs.Filter.Pairing

/-!
# The grammar of conditions

Conditions have a grammar over tokens, and what is read of a card is a condition of this grammar:
the parser stops where the grammar ends, and reads the same condition in front of anything else
that ends it.

* `Operand.Denotes`, `Filter.Denotes` — the tokens of an operand and of a condition.
* `Filter.Follows` — the tokens that may stand behind a condition without belonging to it.
* `Filter.exists_denotes` — **what is read is a condition of the grammar**.
* `Filter.Denotes.reads` — **a condition of the grammar is read**, whatever follows it.
* `Filter.Denotes.isFormat` — no condition holds a format word.
* `Filter.ofCard_eq_ok_iff` — **a whole operand in parentheses** is read exactly if it is of the
  grammar.
-/

set_option autoImplicit false

namespace CardSort

open Card

variable {encoding : Encoding} {default : Option FieldFormat} {c c' : Cursor}
  {ls ts us rest : List Token}

namespace Card

/-- What is left to run behind a parser that reads. -/
theorem Reads.exists_run {α β : Type} {p : Parser α} {f : α → Parser β} {a : α} {b : β}
    (hp : Reads p ts a rest) (hc : c.At ts) (h : (p >>= f) c = .ok b c') :
    ∃ d, d.At rest ∧ f a d = .ok b c' := by
  obtain ⟨d, hd, hat, -⟩ := hp c hc
  obtain ⟨_, _, hd', hf⟩ := run_bind_iff.1 h
  rw [hd] at hd'
  cases hd'
  exact ⟨d, hat, hf⟩

theorem eq_nil_of_expectEnd (hc : c.At ts) (h : expectEnd c = .ok () c') : ts = [] := by
  cases ts with
  | nil => rfl
  | cons t ts =>
    simp only [expectEnd, hc.atEnd_cons, Bool.false_eq_true, if_false] at h
    cases h

/-- A token that was demanded stood there. -/
theorem exists_of_expect {t : Token} (hc : c.At ts) (h : expect t c = .ok () c') :
    ∃ us, ts = t :: us ∧ c'.At us := by
  by_cases hhead : ts.head? = some t
  · obtain ⟨us, rfl⟩ := List.head?_eq_some_iff.1 hhead
    obtain ⟨d, hd, hat, -⟩ := Reads.expect c hc
    rw [hd] at h
    cases h
    exact ⟨us, rfl, hat⟩
  · obtain ⟨d, -, hfail⟩ := (Reads.eat_other hhead).exists_run hc h
    cases hfail

end Card

/-! ## Operands -/

namespace Operand

/-- The tokens are an operand: none of them ends it, and together they denote it. -/
structure Denotes (encoding : Encoding) (default : Option FieldFormat) (ls : List Token)
    (o : Operand) : Prop where
  isEndedBy : ∀ t ∈ ls, isEndedBy t = false
  ofTokens : ∀ (c : Cursor) (index : Nat) (tokens : List Located), tokens.map Prod.snd = ls →
    Operand.ofTokens encoding default c index tokens = .ok o

/-- An operand ends in front of the tokens. -/
def Ends (rest : List Token) : Prop := ∀ t ∈ rest.head?, isEndedBy t = true

/-- What tokens denote does not depend on where they stand. -/
theorem ofTokens_congr {d : Cursor} {i j : Nat} {xs ys : List Located} {o : Operand}
    (h : xs.map Prod.snd = ys.map Prod.snd) (hxs : ofTokens encoding default c i xs = .ok o) :
    ofTokens encoding default d j ys = .ok o := by
  let P := Pairing.tokens c.source d.source (fun _ => True) [] [] (fun _ => trivial)
    endsBlock_nil endsBlock_nil
  have hbeside : List.Forall₂ (IsBeside P) xs ys := by
    rw [← List.forall₂_eq_eq_eq, List.forall₂_map_left_iff, List.forall₂_map_right_iff] at h
    exact h.imp fun x y hxy => ⟨hxy, fun _ => trivial, fun _ _ _ => trivial⟩
  have hmatch : P.Matches (ofTokens encoding default c i xs) (ofTokens encoding default d j ys) :=
    matches_ofTokens (Pairing.Extends.refl default) rfl (fun _ => trivial) hbeside
  rw [hxs] at hmatch
  exact hmatch

/-- All tokens up to one that ends the operand are taken. -/
theorem exists_collectWhile (hls : ∀ t ∈ ls, isEndedBy t = false) (hrest : Ends rest) {fuel : Nat}
    (hfuel : ls.length ≤ fuel) (hc : c.At (ls ++ rest)) :
    ∃ xs c', collectWhile continuesAt takeToken fuel c = .ok xs c' ∧
      (xs.filterMap id).map Prod.snd = ls ∧ c'.At rest ∧ c'.source = c.source := by
  induction ls generalizing fuel c with
  | nil =>
    have hstop : continuesAt c = false := by
      unfold continuesAt
      rw [hc.current]
      cases hhead : rest.head? with
      | none => simp [hhead]
      | some t => simp [hhead, hrest t hhead]
    refine ⟨[], c, ?_, rfl, hc, rfl⟩
    cases fuel with
    | zero => rfl
    | succ fuel => exact run_bind_iff.2 ⟨c, c, rfl, by simp only [hstop]; rfl⟩
  | cons t ls ih =>
    obtain ⟨fuel, rfl⟩ := Nat.exists_eq_succ_of_ne_zero (Nat.ne_zero_of_lt hfuel)
    have hmore : continuesAt c = true := by
      simp [continuesAt, hc.current, hls t List.mem_cons_self]
    obtain ⟨d, hd, hat, hsource⟩ := exists_advance hc.rest
    have hfuel : ls.length ≤ fuel := by simpa using hfuel
    obtain ⟨xs, c', hxs, hsnd, hat', hsource'⟩ :=
      ih (fun u hu => hls u (List.mem_cons_of_mem _ hu)) hfuel hat
    have htake : takeToken c = .ok (some (c.index, t)) d := by
      refine run_bind_iff.2 ⟨c, c, rfl, run_bind_iff.2 ⟨(), d, hd, ?_⟩⟩
      rw [hc.current]
      rfl
    refine ⟨some (c.index, t) :: xs, c', ?_, ?_, hat', hsource'.trans hsource⟩
    · refine run_bind_iff.2 ⟨c, c, rfl, ?_⟩
      simp only [hmore, if_true]
      exact run_bind_iff.2 ⟨_, d, htake, run_bind_iff.2 ⟨xs, c', hxs, rfl⟩⟩
    · show t :: (xs.filterMap id).map Prod.snd = t :: ls
      rw [hsnd]

/-- All tokens of an operand are collected. -/
theorem exists_collect (hls : ∀ t ∈ ls, isEndedBy t = false) (hrest : Ends rest)
    (hc : c.At (ls ++ rest)) :
    ∃ xs c', collect continuesAt takeToken c = .ok xs c' ∧
      (xs.filterMap id).map Prod.snd = ls ∧ c'.At rest ∧ c'.source = c.source := by
  refine exists_collectWhile hls hrest ?_ hc
  have := hc.length_le_size
  rw [List.length_append] at this
  omega

/-- **An operand is read**, whatever ends it. -/
theorem Denotes.reads {o : Operand} (h : Denotes encoding default ls o) (hrest : Ends rest) :
    Reads (onCard encoding default) (ls ++ rest) o rest := by
  intro c hc
  obtain ⟨xs, c', hxs, hsnd, hat, hsource⟩ := exists_collect h.isEndedBy hrest hc
  refine ⟨c', ?_, hat, hsource⟩
  refine run_bind_iff.2 ⟨c, c, rfl, run_bind_iff.2 ⟨xs, c', hxs, run_bind_iff.2 ⟨c', c', rfl, ?_⟩⟩⟩
  rw [h.ofTokens c' c.index _ hsnd]
  rfl

/-- **What is read is an operand**, up to the first token that ends it. -/
theorem exists_denotes {o : Operand} (hc : c.At ts) (h : onCard encoding default c = .ok o c') :
    ∃ ls rest, ts = ls ++ rest ∧ Ends rest ∧ c'.At rest ∧ Denotes encoding default ls o := by
  let ls := ts.takeWhile (! isEndedBy ·)
  let rest := ts.dropWhile (! isEndedBy ·)
  have hsplit : ts = ls ++ rest := List.takeWhile_append_dropWhile.symm
  have hls : ∀ t ∈ ls, isEndedBy t = false := fun t ht => by simpa using List.mem_takeWhile_imp ht
  have hrest : Ends rest := by
    intro t ht
    have hhead := List.head?_dropWhile_not (! isEndedBy ·) ts
    rw [Option.mem_def.1 ht] at hhead
    simpa using hhead
  obtain ⟨xs, d, hxs, hsnd, hat, -⟩ := exists_collect hls hrest (hsplit ▸ hc)
  obtain ⟨_, _, hget, h⟩ := run_bind_iff.1 h
  cases hget
  obtain ⟨_, _, hcollect, h⟩ := run_bind_iff.1 h
  rw [hxs] at hcollect
  cases hcollect
  obtain ⟨_, _, hget, h⟩ := run_bind_iff.1 h
  cases hget
  cases hof : ofTokens encoding default d c.index (xs.filterMap id) with
  | error f =>
    simp only [hof] at h
    cases h
  | ok a =>
    simp only [hof] at h
    cases h
    refine ⟨ls, rest, hsplit, hrest, hat, hls, fun c index tokens htokens => ?_⟩
    exact ofTokens_congr (hsnd.trans htokens.symm) hof

theorem Denotes.isFormat {o : Operand} (h : Denotes encoding default ls o) :
    ∀ t ∈ ls, t.isFormat = false := by
  intro t ht
  have hends := h.isEndedBy t ht
  cases t with
  | word w =>
    simp only [Operand.isEndedBy, Bool.or_eq_false_iff] at hends
    exact hends.1.2
  | literal | openParen | closeParen | semicolon => rfl

end Operand

/-! ## Conditions -/

namespace Filter

/-- A condition that nothing is joined to, or a whole condition. -/
inductive Form where
  | simple
  | whole

/-- The words that join conditions of which both, or one, shall hold. -/
def andWords : List String := ["AND", "&"]

@[inherit_doc andWords]
def orWords : List String := ["OR", "|"]

/-- The tokens are a condition. What is joined to a simple condition is a whole condition, so
chains nest to the right. -/
inductive Denotes (encoding : Encoding) (default : Option FieldFormat) :
    Form → List Token → Filter → Prop where
  | compare {left right : Operand} {op : CompareOp} {ls rs : List Token}
      (hl : left.Denotes encoding default ls) (hr : right.Denotes encoding default rs) :
      Denotes encoding default .simple (ls ++ .word op.code :: rs)
        (.compare ⟨left, op, right, encoding⟩)
  | paren {f : Filter} {ts : List Token} (h : Denotes encoding default .whole ts f) :
      Denotes encoding default .simple (.openParen :: (ts ++ [.closeParen])) f
  | alone {f : Filter} {ts : List Token} (h : Denotes encoding default .simple ts f) :
      Denotes encoding default .whole ts f
  | and {l r : Filter} {ls rs : List Token} {w : String}
      (hl : Denotes encoding default .simple ls l) (hw : w ∈ andWords)
      (hr : Denotes encoding default .whole rs r) :
      Denotes encoding default .whole (ls ++ .word w :: rs) (.and l r)
  | or {l r : Filter} {ls rs : List Token} {w : String}
      (hl : Denotes encoding default .simple ls l) (hw : w ∈ orWords)
      (hr : Denotes encoding default .whole rs r) :
      Denotes encoding default .whole (ls ++ .word w :: rs) (.or l r)

/-- The tokens may stand behind a condition without belonging to it. -/
def Follows (form : Form) (rest : List Token) : Prop :=
  Operand.Ends rest ∧ (form = .whole → ∀ w ∈ andWords ++ orWords, rest.head? ≠ some (.word w))

/-- The parser of a form of conditions, with fuel that bounds the nesting. -/
def formOnCard (encoding : Encoding) (default : Option FieldFormat) :
    Form → Nat → Parser Filter
  | .simple, fuel => simpleOnCard encoding default (nestedOnCard encoding default fuel)
  | .whole, fuel => nestedOnCard encoding default (fuel + 1)

/-! ## Single parts -/

section Parts

variable {f left right : Filter} {onCard : Parser Filter} {form : Form} {w : String}

theorem ends_of_joins (hw : w ∈ andWords ++ orWords) (rest : List Token) :
    Operand.Ends (.word w :: rest) := by
  rintro _ ⟨⟩
  revert w
  decide

theorem follows_closeParen (form : Form) (rest : List Token) :
    Follows form (.closeParen :: rest) := by
  refine ⟨?_, fun _ w _ => by simp⟩
  rintro _ ⟨⟩
  rfl

theorem reads_comparisonOnCard {l r : Operand} {op : CompareOp} {rs : List Token}
    (hl : l.Denotes encoding default ls) (hr : r.Denotes encoding default rs)
    (hrest : Operand.Ends rest) :
    Reads (comparisonOnCard encoding default) (ls ++ .word op.code :: (rs ++ rest))
      (.compare ⟨l, op, r, encoding⟩) rest := by
  have hop : Operand.Ends (.word op.code :: (rs ++ rest)) := by
    rintro _ ⟨⟩
    simp [Operand.isEndedBy, CompareOp.ofCode?_code]
  refine (hl.reads hop).bind (.get fun c hc => ?_)
  simp only [hc.word?_eq, nextWord?, Option.bind_some, CompareOp.ofCode?_code]
  exact Reads.advance.bind ((hr.reads hrest).bind .pure)

theorem exists_comparison (hc : c.At ts) (h : comparisonOnCard encoding default c = .ok f c') :
    ∃ us rest, ts = us ++ rest ∧ c'.At rest ∧ Denotes encoding default .simple us f := by
  obtain ⟨l, d, hleft, h⟩ := run_bind_iff.1 h
  obtain ⟨ls, rest, rfl, -, hd, hl⟩ := Operand.exists_denotes hc hleft
  obtain ⟨_, _, hget, h⟩ := run_bind_iff.1 h
  cases hget
  cases hop : d.word?.bind CompareOp.ofCode? with
  | none =>
    simp only [hop] at h
    cases h
  | some op =>
    simp only [hop] at h
    obtain ⟨w, hw, hcode⟩ := Option.bind_eq_some_iff.1 hop
    obtain rfl := CompareOp.eq_code_of_ofCode? hcode
    obtain ⟨rest, rfl⟩ : ∃ more, rest = .word op.code :: more := by
      rw [hd.word?_eq] at hw
      cases rest with
      | nil => cases hw
      | cons t more =>
        cases t with
        | word _ =>
          cases hw
          exact ⟨more, rfl⟩
        | literal | openParen | closeParen | semicolon => cases hw
    obtain ⟨e, he, h⟩ := Reads.advance.exists_run hd h
    obtain ⟨r, _, hright, h⟩ := run_bind_iff.1 h
    cases h
    obtain ⟨rs, rest, rfl, -, hat, hr⟩ := Operand.exists_denotes he hright
    exact ⟨ls ++ .word op.code :: rs, rest, by simp, hat, .compare hl hr⟩

theorem reads_joinOnCard_and (hw : w ∈ andWords) (h : Reads onCard ts right rest) :
    Reads (joinOnCard onCard left) (.word w :: ts) (.and left right) rest := by
  have hand : Reads (eatWord "AND" <||> eatWord "&") (.word w :: ts) true ts := by
    simp only [andWords, List.mem_cons, List.not_mem_nil, or_false] at hw
    obtain rfl | rfl := hw
    · exact .orM_left .eatWord
    · exact .orM_right (.eatWord_other (by simp)) .eatWord
  exact hand.bind (h.bind .pure)

theorem reads_joinOnCard_or (hw : w ∈ orWords) (h : Reads onCard ts right rest) :
    Reads (joinOnCard onCard left) (.word w :: ts) (.or left right) rest := by
  simp only [orWords, List.mem_cons, List.not_mem_nil, or_false] at hw
  have hand : Reads (eatWord "AND" <||> eatWord "&") (.word w :: ts) false (.word w :: ts) := by
    obtain rfl | rfl := hw <;>
      exact .orM_right (.eatWord_other (by simp)) (.eatWord_other (by simp))
  have hor : Reads (eatWord "OR" <||> eatWord "|") (.word w :: ts) true ts := by
    obtain rfl | rfl := hw
    · exact .orM_left .eatWord
    · exact .orM_right (.eatWord_other (by simp)) .eatWord
  exact hand.bind (hor.bind (h.bind .pure))

theorem reads_joinOnCard_follows (h : Follows .whole rest) :
    Reads (joinOnCard onCard left) rest left rest := by
  have hother (w : String) (hw : w ∈ andWords ++ orWords) :
      Reads (eatWord w) rest false rest := .eatWord_other (h.2 rfl w hw)
  exact (Reads.orM_right (hother _ (by decide)) (hother _ (by decide))).bind
    ((Reads.orM_right (hother _ (by decide)) (hother _ (by decide))).bind .pure)

end Parts

/-! ## Whole conditions -/

/-- **A condition of the grammar is read**, whatever follows it. -/
theorem Denotes.reads {form : Form} {f : Filter} (h : Denotes encoding default form us f)
    {fuel : Nat} (hfuel : us.length ≤ fuel) (hrest : Follows form rest) :
    Reads (formOnCard encoding default form fuel) (us ++ rest) f rest := by
  -- every nested condition is shorter than the one around it, so the fuel is enough
  induction h generalizing rest fuel with
  | @compare l r op ls rs hl hr =>
    have hopen : (ls ++ .word op.code :: (rs ++ rest)).head? ≠ some .openParen := by
      cases ls with
      | nil => simp
      | cons t ls =>
        rintro ⟨⟩
        exact Bool.noConfusion (hl.isEndedBy .openParen List.mem_cons_self)
    rw [List.append_assoc, List.cons_append]
    exact (Reads.eat_other hopen).bind (reads_comparisonOnCard hl hr hrest.1)
  | @paren f ts _ ih =>
    obtain ⟨fuel, rfl⟩ : ∃ k, fuel = k + 1 := Nat.exists_eq_add_one.2 (Nat.zero_lt_of_lt hfuel)
    rw [List.length_cons, List.length_append, List.length_singleton] at hfuel
    rw [List.cons_append, List.append_assoc, List.singleton_append]
    exact Reads.eat.bind ((ih (by omega) (follows_closeParen .whole rest)).bind
      (Reads.expect.bind .pure))
  | alone _ ih =>
    rw [formOnCard, nestedOnCard_succ]
    exact (ih hfuel ⟨hrest.1, nofun⟩).bind (reads_joinOnCard_follows hrest)
  | @and l r ls rs w _ hw _ ihl ihr =>
    rw [List.length_append, List.length_cons] at hfuel
    obtain ⟨fuel, rfl⟩ : ∃ k, fuel = k + 1 := Nat.exists_eq_add_one.2 (by omega)
    have hends := ends_of_joins (List.mem_append_left orWords hw) (rs ++ rest)
    rw [formOnCard, nestedOnCard_succ, List.append_assoc, List.cons_append]
    exact (ihl (by omega) ⟨hends, nofun⟩).bind
      (reads_joinOnCard_and hw (ihr (by omega) hrest))
  | @or l r ls rs w _ hw _ ihl ihr =>
    rw [List.length_append, List.length_cons] at hfuel
    obtain ⟨fuel, rfl⟩ : ∃ k, fuel = k + 1 := Nat.exists_eq_add_one.2 (by omega)
    have hends := ends_of_joins (List.mem_append_right andWords hw) (rs ++ rest)
    rw [formOnCard, nestedOnCard_succ, List.append_assoc, List.cons_append]
    exact (ihl (by omega) ⟨hends, nofun⟩).bind
      (reads_joinOnCard_or hw (ihr (by omega) hrest))

/-- A condition is read in front of whatever follows it. -/
theorem Denotes.reads_onCard {f : Filter} (h : Denotes encoding default .whole us f)
    (hrest : Follows .whole rest) : Reads (onCard encoding default) (us ++ rest) f rest := by
  intro c hc
  have hfuel := hc.length_le_size
  rw [List.length_append] at hfuel
  exact h.reads (by omega) hrest c hc

/-- What is read with so much fuel is a condition of the grammar. -/
def ReadsGrammar (encoding : Encoding) (default : Option FieldFormat) (form : Form)
    (p : Parser Filter) : Prop :=
  ∀ ⦃c : Cursor⦄ ⦃ts : List Token⦄ ⦃f : Filter⦄ ⦃c' : Cursor⦄, c.At ts → p c = .ok f c' →
    ∃ us rest, ts = us ++ rest ∧ c'.At rest ∧ Denotes encoding default form us f

theorem readsGrammar_simple {p : Parser Filter} (hp : ReadsGrammar encoding default .whole p) :
    ReadsGrammar encoding default .simple (simpleOnCard encoding default p) := by
  intro c ts f c' hc h
  by_cases hopen : ts.head? = some .openParen
  · obtain ⟨ts, rfl⟩ := List.head?_eq_some_iff.1 hopen
    obtain ⟨d, hd, h⟩ := Reads.eat.exists_run hc h
    obtain ⟨inner, e, hinner, h⟩ := run_bind_iff.1 h
    obtain ⟨us, rest, rfl, he, hus⟩ := hp hd hinner
    obtain ⟨_, _, hexpect, h⟩ := run_bind_iff.1 h
    cases h
    obtain ⟨rest, rfl, hat⟩ := exists_of_expect he hexpect
    exact ⟨.openParen :: (us ++ [.closeParen]), rest, by simp, hat, .paren hus⟩
  · obtain ⟨d, hd, h⟩ := (Reads.eat_other hopen).exists_run hc h
    exact exists_comparison hd h

/-- A word of either spelling was taken or none stood there. -/
theorem exists_of_eatWords {α : Type} {v w : String} {f : Bool → Parser α} {a : α} (hc : c.At ts)
    (h : (do f (← eatWord v <||> eatWord w)) c = .ok a c') :
    (∃ u us d, (u = v ∨ u = w) ∧ ts = .word u :: us ∧ d.At us ∧ f true d = .ok a c') ∨
      ∃ d, d.At ts ∧ f false d = .ok a c' := by
  by_cases hv : ts.head? = some (.word v)
  · obtain ⟨us, rfl⟩ := List.head?_eq_some_iff.1 hv
    obtain ⟨d, hd, h⟩ := (Reads.orM_left Reads.eatWord).exists_run hc h
    exact .inl ⟨v, us, d, .inl rfl, rfl, hd, h⟩
  by_cases hw : ts.head? = some (.word w)
  · obtain ⟨us, rfl⟩ := List.head?_eq_some_iff.1 hw
    obtain ⟨d, hd, h⟩ := (Reads.orM_right (.eatWord_other hv) .eatWord).exists_run hc h
    exact .inl ⟨w, us, d, .inr rfl, rfl, hd, h⟩
  · obtain ⟨d, hd, h⟩ := (Reads.orM_right (.eatWord_other hv) (.eatWord_other hw)).exists_run hc h
    exact .inr ⟨d, hd, h⟩

theorem exists_join {p : Parser Filter} (hp : ReadsGrammar encoding default .whole p)
    {left f : Filter} (hleft : Denotes encoding default .simple ls left) (hc : c.At ts)
    (h : joinOnCard p left c = .ok f c') :
    ∃ us rest, ts = us ++ rest ∧ c'.At rest ∧ Denotes encoding default .whole (ls ++ us) f := by
  obtain ⟨w, ts, d, hw, rfl, hd, h⟩ | ⟨d, hd, h⟩ := exists_of_eatWords hc h
  · obtain ⟨right, e, hright, h⟩ := run_bind_iff.1 h
    cases h
    obtain ⟨us, rest, rfl, hat, hus⟩ := hp hd hright
    exact ⟨.word w :: us, rest, rfl, hat, .and hleft (by simpa [andWords] using hw) hus⟩
  obtain ⟨w, ts, d, hw, rfl, hd, h⟩ | ⟨d, hd, h⟩ := exists_of_eatWords hd h
  · obtain ⟨right, e, hright, h⟩ := run_bind_iff.1 h
    cases h
    obtain ⟨us, rest, rfl, hat, hus⟩ := hp hd hright
    exact ⟨.word w :: us, rest, rfl, hat, .or hleft (by simpa [orWords] using hw) hus⟩
  · cases h
    exact ⟨[], ts, rfl, hd, by simpa using hleft.alone⟩

/-- **What is read is a condition of the grammar.** -/
theorem exists_denotes (fuel : Nat) :
    ReadsGrammar encoding default .whole (nestedOnCard encoding default fuel) := by
  induction fuel with
  | zero =>
    intro c ts f c' _ h
    cases h
  | succ fuel ih =>
    intro c ts f c' hc h
    rw [nestedOnCard_succ] at h
    obtain ⟨left, d, hleft, h⟩ := run_bind_iff.1 h
    obtain ⟨ls, mid, rfl, hd, hls⟩ := readsGrammar_simple ih hc hleft
    obtain ⟨us, rest, rfl, hat, hus⟩ := exists_join ih hls hd h
    exact ⟨ls ++ us, rest, by simp, hat, hus⟩

/-! ## Operands of statements -/

/-- No condition holds a format word. -/
theorem Denotes.isFormat {form : Form} {f : Filter} (h : Denotes encoding default form us f) :
    ∀ t ∈ us, t.isFormat = false := by
  have hword (w : String) (hw : w ∈ andWords ++ orWords) : (Token.word w).isFormat = false := by
    revert w
    decide
  induction h with
  | @compare l r op ls rs hl hr =>
    have hop : (Token.word op.code).isFormat = false := by cases op <;> rfl
    simpa [or_imp, forall_and, hop] using ⟨hl.isFormat, hr.isFormat⟩
  | paren _ ih => simpa [or_imp, forall_and, Token.isFormat] using ih
  | alone _ ih => exact ih
  | @and l r ls rs w _ hw _ ihl ihr =>
    simpa [or_imp, forall_and, hword w (List.mem_append_left _ hw)] using ⟨ihl, ihr⟩
  | @or l r ls rs w _ hw _ ihl ihr =>
    simpa [or_imp, forall_and, hword w (List.mem_append_right _ hw)] using ⟨ihl, ihr⟩

theorem Denotes.reads_wholeOnCard {f : Filter} (h : Denotes encoding default .whole us f) :
    Reads (wholeOnCard encoding default) (.word "COND=" :: us) f [] := by
  have hnil : Follows .whole [] := ⟨nofun, fun _ _ _ => nofun⟩
  have hcondition := h.reads_onCard hnil
  rw [List.append_nil] at hcondition
  exact (Reads.skipFormat_other rfl).bind (Reads.eatHead.bind (hcondition.bind
    ((Reads.skipFormat_other rfl).bind (Reads.expectEnd.bind .pure))))

/-- Behind a condition stands at most a format word. -/
theorem isFormat_of_end {f g : Filter} (hc : c.At rest)
    (h : (do let _ ← skipFormat; expectEnd; pure g : Parser Filter) c = .ok f c') :
    f = g ∧ ∀ t ∈ rest, t.isFormat = true := by
  cases hhead : rest.head?.any Token.isFormat with
  | false =>
    obtain ⟨d, hd, h⟩ := (Reads.skipFormat_other hhead).exists_run hc h
    obtain ⟨_, _, hend, h⟩ := run_bind_iff.1 h
    cases h
    rw [eq_nil_of_expectEnd hd hend]
    exact ⟨rfl, nofun⟩
  | true =>
    obtain ⟨t, ht, hformat⟩ := (Option.any_eq_true _ _).1 hhead
    obtain ⟨more, rfl⟩ := List.head?_eq_some_iff.1 ht
    obtain ⟨d, hd, h⟩ := (Reads.skipFormat hformat).exists_run hc h
    obtain ⟨_, _, hend, h⟩ := run_bind_iff.1 h
    cases h
    rw [eq_nil_of_expectEnd hd hend]
    exact ⟨rfl, by simpa using hformat⟩

/-- **An operand in parentheses is read exactly if it is a condition of the grammar.** A format word
could stand behind the condition, but not behind the last parenthesis. -/
theorem ofCard_eq_ok_iff {text : String} {f : Filter}
    (hlexes : Lexes text.toList (.word "COND=" :: us)) (hlast : us.getLast? = some .closeParen) :
    ofCard text encoding = .ok f ↔ Denotes encoding none .whole us f := by
  constructor
  · intro h
    obtain ⟨default, hdefault, h⟩ := bind_eq_ok_iff.1 h
    obtain ⟨c, hc, hat, -⟩ := exists_start hlexes
    obtain ⟨c', h⟩ := (read_eq_ok_iff hc).1 h
    obtain ⟨c, hat, h⟩ := (Reads.skipFormat_other rfl).exists_run hat h
    obtain ⟨c, hat, h⟩ := Reads.eatHead.exists_run hat h
    obtain ⟨g, d, hcondition, h⟩ := run_bind_iff.1 h
    obtain ⟨us, rest, rfl, hd, hus⟩ := exists_denotes _ hat hcondition
    obtain ⟨rfl, hformats⟩ := isFormat_of_end hd h
    obtain rfl : rest = [] := by
      by_contra hne
      have hlast : rest.getLast? = some .closeParen := by
        rwa [List.getLast?_append_of_ne_nil us hne] at hlast
      exact Bool.noConfusion (hformats _ (List.mem_of_getLast? hlast))
    -- no format word stands in the condition either, so there is no default format
    have hnone : FirstFormat (.word "COND=" :: (us ++ [])) none :=
      .later rfl (.append hus.isFormat .missing)
    rw [(defaultFormat_eq_ok_iff hlexes).2 hnone] at hdefault
    cases hdefault
    rwa [List.append_nil]
  · intro h
    have hformat : FirstFormat (.word "COND=" :: us) none := by
      have := FirstFormat.append h.isFormat .missing
      rw [List.append_nil] at this
      exact .later rfl this
    exact readWithFormat_eq_ok hlexes hformat h.reads_wholeOnCard

end Filter

end CardSort
