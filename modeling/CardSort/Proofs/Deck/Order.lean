import CardSort.Proofs.Deck.Lines
import CardSort.Proofs.Except
import Mathlib.Data.List.Induction
import Mathlib.Tactic.MkIffOfInductiveProp

/-!
# Order of statements

What a statement says does not depend on the statements around it: it fills a slot of the deck, or
adds destinations or options. So a deck is gathered from its statements kind by kind, and only the
order of the destinations and of the options can be seen in it.

* `Draft.Gathers` — a draft that holds what other drafts hold.
* `Draft.take_iff`, `foldlM_take_iff` — one statement, and all of them.
* `Draft.Gathers.perm` — statements in another order.
* `ofText_perm` — **decks that differ in the order of their statements are the same**.
-/

set_option autoImplicit false

namespace CardSort.Deck

variable {config : Config} {d e d' d'' : Draft} {es : List Draft} {s : Statement}
  {ss ss' : List Statement}

/-! ## Gathering drafts -/

/-- The draft `d'` holds what `d` and then the drafts `es` hold: at most one of them fills a slot,
destinations follow one another, and the last option on equal keys is the one that counts. -/
@[mk_iff]
structure Draft.Gathers (d : Draft) (es : List Draft) (d' : Draft) : Prop where
  keys : d'.keys.toList = d.keys.toList ++ es.flatMap (·.keys.toList)
  included : d'.included.toList = d.included.toList ++ es.flatMap (·.included.toList)
  omitted : d'.omitted.toList = d.omitted.toList ++ es.flatMap (·.omitted.toList)
  inrec : d'.inrec.toList = d.inrec.toList ++ es.flatMap (·.inrec.toList)
  outrec : d'.outrec.toList = d.outrec.toList ++ es.flatMap (·.outrec.toList)
  sum : d'.sum.toList = d.sum.toList ++ es.flatMap (·.sum.toList)
  destinations : d'.destinations = d.destinations ++ es.flatMap (·.destinations)
  stable : d'.stable = (es.flatMap (·.stable.toList)).getLast?.or d.stable
  copyOption : d'.copyOption = (d.copyOption || es.any (·.copyOption))

theorem toList_inj {α : Type} {o o' : Option α} : o'.toList = o.toList ↔ o' = o := by
  cases o <;> cases o' <;> simp

theorem toList_eq_append_singleton {α : Type} {o o' : Option α} {a : α} :
    o'.toList = o.toList ++ [a] ↔ o = none ∧ o' = some a := by
  cases o with
  | none => cases o' <;> simp
  | some b => cases o' <;> simp

theorem toList_or {α : Type} {o o₁ o₂ : Option α} {rest : List α}
    (h : o.toList = o₁.toList ++ (o₂.toList ++ rest)) :
    (o₁.or o₂).toList = o₁.toList ++ o₂.toList := by
  cases o₁ <;> cases o₂ <;> cases o <;> simp_all

theorem getLast?_toList {α : Type} (o : Option α) : o.toList.getLast? = o := by
  cases o <;> rfl

namespace Draft

theorem Gathers.unique (h : d.Gathers es d') (h' : d.Gathers es d'') : d' = d'' := by
  cases d'
  cases d''
  rw [Draft.mk.injEq]
  exact ⟨toList_inj.1 (h.keys.trans h'.keys.symm),
    toList_inj.1 (h.included.trans h'.included.symm),
    toList_inj.1 (h.omitted.trans h'.omitted.symm), toList_inj.1 (h.inrec.trans h'.inrec.symm),
    toList_inj.1 (h.outrec.trans h'.outrec.symm), toList_inj.1 (h.sum.trans h'.sum.symm),
    h.destinations.trans h'.destinations.symm, h.stable.trans h'.stable.symm,
    h.copyOption.trans h'.copyOption.symm⟩

theorem gathers_nil (d : Draft) : d.Gathers [] d := by
  simp [gathers_iff]

/-- What the first draft holds can be gathered before the others. -/
theorem gathers_cons_iff : d.Gathers (e :: es) d' ↔ ∃ m, d.Gathers [e] m ∧ m.Gathers es d' := by
  constructor
  · intro h
    refine ⟨{ keys := d.keys.or e.keys
              included := d.included.or e.included
              omitted := d.omitted.or e.omitted
              inrec := d.inrec.or e.inrec
              outrec := d.outrec.or e.outrec
              sum := d.sum.or e.sum
              destinations := d.destinations ++ e.destinations
              stable := e.stable.or d.stable
              copyOption := d.copyOption || e.copyOption }, ?_, ?_⟩
    · simp [gathers_iff, toList_or h.keys, toList_or h.included, toList_or h.omitted,
        toList_or h.inrec, toList_or h.outrec, toList_or h.sum, getLast?_toList]
    · simp [gathers_iff, toList_or h.keys, toList_or h.included, toList_or h.omitted,
        toList_or h.inrec, toList_or h.outrec, toList_or h.sum, h.keys, h.included, h.omitted,
        h.inrec, h.outrec, h.sum, h.destinations, h.stable, h.copyOption, getLast?_toList,
        Bool.or_assoc, List.getLast?_append, Option.or_assoc]
  · rintro ⟨m, hm, h⟩
    rw [gathers_iff] at hm h ⊢
    simp [h, hm, Bool.or_assoc, List.getLast?_append, Option.or_assoc]

/-! ## One statement -/

theorem Gathers.option (h : d.Gathers [e] d') (w : String) :
    d.Gathers [e.option w] (d'.option w) := by
  unfold Draft.option
  split
  · exact { h with copyOption := by simp }
  · exact { h with stable := by simp }
  · exact { h with stable := by simp }
  · exact h

theorem gathers_options (d : Draft) (words : List String) :
    d.Gathers [words.foldl Draft.option {}] (words.foldl Draft.option d) := by
  induction words using List.reverseRecOn with
  | nil => simp [gathers_iff]
  | append_singleton words w ih =>
    rw [List.foldl_append, List.foldl_append]
    exact ih.option w

theorem destinations_options (d : Draft) (words : List String) :
    (words.foldl Draft.option d).destinations = d.destinations := by
  induction words generalizing d with
  | nil => rfl
  | cons w words ih =>
    rw [List.foldl_cons, ih]
    unfold Draft.option
    split
    all_goals rfl

end Draft

/-- A statement that fills a slot is taken if the slot is empty and its operand can be read. -/
theorem Statement.slot_eq_ok_iff {α β : Type} {slot : Option β} {r : Except Fault α}
    {put : α → Draft} :
    (do s.once slot; let a ← s.anchor r; pure (put a)) = Except.ok d' ↔
      slot = none ∧ ∃ a, r = .ok a ∧ put a = d' := by
  have hanchor : (do let a ← s.anchor r; pure (put a)) = Except.ok d' ↔
      ∃ a, r = .ok a ∧ put a = d' := by
    rw [bind_eq_ok_iff]
    refine exists_congr fun a => and_congr mapError_eq_ok_iff ?_
    exact ⟨Except.ok.inj, congrArg Except.ok⟩
  rw [← hanchor]
  cases slot with
  | none => exact (and_iff_right rfl).symm
  | some a => exact iff_of_false (fun h => nomatch h) fun h => nomatch h.1

/-- **A statement adds what it says by itself.** -/
theorem Draft.take_iff : d.take config s = .ok d' ↔
    ∃ e, ({} : Draft).take config s = .ok e ∧ d.Gathers [e] d' := by
  unfold Draft.take
  split
  case h_8 =>
    constructor
    · intro h
      obtain ⟨ds, hds, h⟩ := bind_eq_ok_iff.1 h
      cases h
      exact ⟨_, bind_eq_ok_iff.2 ⟨ds, hds, rfl⟩, by simp [Draft.gathers_iff]⟩
    · rintro ⟨_, h, hgathers⟩
      obtain ⟨ds, hds, h⟩ := bind_eq_ok_iff.1 h
      cases h
      have hput : d.Gathers [{ destinations := [] ++ ds }]
          { d with destinations := d.destinations ++ ds } := by
        simp [Draft.gathers_iff]
      exact bind_eq_ok_iff.2 ⟨ds, hds, congrArg Except.ok (hput.unique hgathers)⟩
  case h_9 =>
    have hput := d.gathers_options (optionWords s.operand.toList)
    constructor
    · rintro ⟨⟩
      exact ⟨_, rfl, hput⟩
    · rintro ⟨_, ⟨⟩, hgathers⟩
      exact congrArg Except.ok (hput.unique hgathers)
  case h_10 =>
    exact iff_of_false (fun h => nomatch h) fun ⟨_, h, _⟩ => nomatch h
  -- every other statement fills a slot
  all_goals
    simp only [Statement.slot_eq_ok_iff, true_and]
    constructor
    · rintro ⟨hnone, a, ha, rfl⟩
      exact ⟨_, ⟨a, ha, rfl⟩, by simp [Draft.gathers_iff, hnone]⟩
    · rintro ⟨_, ⟨a, ha, rfl⟩, hgathers⟩
      cases d
      cases d'
      simp only [Draft.gathers_iff, List.flatMap_singleton, Option.toList_none, Option.toList_some,
        List.append_nil, toList_eq_append_singleton, toList_inj, List.getLast?_nil,
        Option.none_or, List.any_cons, List.any_nil, Bool.or_false] at hgathers
      exact ⟨by simp [hgathers], a, ha, by simp [hgathers]⟩

/-! ## All statements -/

/-- What a statement says by itself; nothing, if it cannot be read. -/
def said (config : Config) (s : Statement) : Draft := (({} : Draft).take config s).toOption.getD {}

theorem said_eq (h : ({} : Draft).take config s = .ok e) : said config s = e := by
  rw [said, h]
  rfl

/-- **The draft of a deck holds what its statements say**, each of which can be read by itself. -/
theorem foldlM_take_iff : ss.foldlM (Draft.take config) d = .ok d' ↔
    (∀ s ∈ ss, ∃ e, ({} : Draft).take config s = .ok e) ∧
      d.Gathers (ss.map (said config)) d' := by
  induction ss generalizing d with
  | nil =>
    have hnil : (Except.ok d : Except Fault Draft) = .ok d' ↔ d.Gathers [] d' := by
      constructor
      · rintro ⟨⟩
        exact Draft.gathers_nil _
      · intro h
        exact congrArg Except.ok (d.gathers_nil.unique h)
    simpa [Pure.pure, Except.pure] using hnil
  | cons s ss ih =>
    rw [List.foldlM_cons, bind_eq_ok_iff, List.map_cons, Draft.gathers_cons_iff,
      List.forall_mem_cons]
    constructor
    · rintro ⟨m, htake, hfold⟩
      obtain ⟨e, he, hm⟩ := Draft.take_iff.1 htake
      obtain ⟨hss, hrest⟩ := ih.1 hfold
      exact ⟨⟨⟨e, he⟩, hss⟩, m, said_eq he ▸ hm, hrest⟩
    · rintro ⟨⟨⟨e, he⟩, hss⟩, m, hm, hrest⟩
      exact ⟨m, Draft.take_iff.2 ⟨e, he, said_eq he ▸ hm⟩, ih.2 ⟨hss, hrest⟩⟩

/-! ## Another order -/

/-- Destinations come from `OUTFIL` statements, and what is said of equal keys from `OPTION`
statements. -/
theorem keyword_of_take (h : ({} : Draft).take config s = .ok e) :
    (s.keyword ≠ "OUTFIL" → e.destinations = []) ∧ (s.keyword ≠ "OPTION" → e.stable = none) := by
  unfold Draft.take at h
  split at h
  case h_8 hkeyword =>
    obtain ⟨ds, -, h⟩ := bind_eq_ok_iff.1 h
    cases h
    exact ⟨fun hne => absurd hkeyword hne, fun _ => rfl⟩
  case h_9 hkeyword =>
    cases h
    exact ⟨fun _ => Draft.destinations_options {} _, fun hne => absurd hkeyword hne⟩
  case h_10 => cases h
  all_goals
    obtain ⟨-, a, -, rfl⟩ := Statement.slot_eq_ok_iff.1 h
    exact ⟨fun _ => rfl, fun _ => rfl⟩

theorem said_of_keyword (config : Config) (s : Statement) :
    (s.keyword ≠ "OUTFIL" → (said config s).destinations = []) ∧
      (s.keyword ≠ "OPTION" → (said config s).stable = none) := by
  cases htake : ({} : Draft).take config s with
  | error f => simp [said, htake, Except.toOption]
  | ok e =>
    rw [said_eq htake]
    exact keyword_of_take htake

/-- A slot is filled alike in every order: there is at most one statement that fills it. -/
theorem slot_perm {α β : Type} {o : Option α} {f : β → List α} {xs ys : List β}
    (h : o.toList = [] ++ xs.flatMap f) (hperm : xs.Perm ys) : o.toList = [] ++ ys.flatMap f := by
  rw [List.nil_append] at h ⊢
  have hflat := hperm.flatMap_right f
  rw [← h] at hflat
  cases o with
  | none => exact (List.nil_perm.1 hflat).symm
  | some a => exact List.singleton_perm.1 hflat

theorem flatMap_filter {α β : Type} {f : β → List α} {p : β → Bool} (xs : List β)
    (h : ∀ x, p x = false → f x = []) : (xs.filter p).flatMap f = xs.flatMap f := by
  induction xs with
  | nil => rfl
  | cons x xs ih =>
    cases hp : p x with
    | false => simp [hp, h x hp, ih]
    | true => simp [hp, ih]

/-- The statements of the keyword, in their order. -/
def ofKeyword (keyword : String) (ss : List Statement) : List Statement :=
  ss.filter (·.keyword = keyword)

/-- Statements say the same in another order, if those on destinations and those on options keep
their order. -/
theorem Draft.Gathers.perm (h : ({} : Draft).Gathers (ss.map (said config)) d')
    (hperm : ss.Perm ss') (houtfil : ofKeyword "OUTFIL" ss = ofKeyword "OUTFIL" ss')
    (hoption : ofKeyword "OPTION" ss = ofKeyword "OPTION" ss') :
    ({} : Draft).Gathers (ss'.map (said config)) d' := by
  have hmap : (ss.map (said config)).Perm (ss'.map (said config)) := hperm.map _
  have hdestinations : ∀ xs : List Statement, (xs.map (said config)).flatMap (·.destinations) =
      (ofKeyword "OUTFIL" xs).flatMap fun s => (said config s).destinations := by
    intro xs
    rw [List.flatMap_map, ofKeyword, flatMap_filter]
    intro s hs
    exact (said_of_keyword config s).1 (by simpa using hs)
  have hstable : ∀ xs : List Statement, (xs.map (said config)).flatMap (·.stable.toList) =
      (ofKeyword "OPTION" xs).flatMap fun s => (said config s).stable.toList := by
    intro xs
    rw [List.flatMap_map, ofKeyword, flatMap_filter]
    intro s hs
    rw [(said_of_keyword config s).2 (by simpa using hs), Option.toList_none]
  exact {
    keys := slot_perm h.keys hmap
    included := slot_perm h.included hmap
    omitted := slot_perm h.omitted hmap
    inrec := slot_perm h.inrec hmap
    outrec := slot_perm h.outrec hmap
    sum := slot_perm h.sum hmap
    destinations := by rw [h.destinations, hdestinations, hdestinations, houtfil]
    stable := by rw [h.stable, hstable, hstable, hoption]
    copyOption := by rw [h.copyOption, hmap.any_eq] }

theorem foldlM_take_perm (hperm : ss.Perm ss')
    (houtfil : ofKeyword "OUTFIL" ss = ofKeyword "OUTFIL" ss')
    (hoption : ofKeyword "OPTION" ss = ofKeyword "OPTION" ss')
    (h : ss.foldlM (Draft.take config) {} = .ok d) : ss'.foldlM (Draft.take config) {} = .ok d := by
  obtain ⟨hsaid, hgathers⟩ := foldlM_take_iff.1 h
  exact foldlM_take_iff.2 ⟨fun s hs => hsaid s (hperm.mem_iff.2 hs),
    hgathers.perm hperm houtfil hoption⟩

/-- The statements of the blocks. -/
def statementsOf (bs : List Block) : List Statement := (bs.map Block.text).map Statement.of

theorem ofText_eq_ok_iff {text : String} {deck : Deck} : ofText text config = .ok deck ↔
    ∃ d, ((statements text).map Statement.of).foldlM (Draft.take config) {} = .ok d ∧
      d.deck = deck := by
  rw [ofText, bind_eq_ok_iff]
  simp only [List.foldlM_map]
  exact exists_congr fun d => and_congr Iff.rfl ⟨Except.ok.inj, congrArg Except.ok⟩

theorem ofText_of_laid {text : String} {bs : List Block} {deck : Deck} (h : Laid text bs) :
    ofText text config = .ok deck ↔
      ∃ d, (statementsOf bs).foldlM (Draft.take config) {} = .ok d ∧ d.deck = deck := by
  rw [ofText_eq_ok_iff, statements_of_laid h, statementsOf]

/-- The statements of one text are those of the other in another order, in which the `OUTFIL`
statements and the `OPTION` statements keep theirs. Comments may stand elsewhere. -/
structure Rearranged (bs bs' : List Block) : Prop where
  perm : (bs.map Block.text).Perm (bs'.map Block.text)
  outfil : (bs.filter (·.keyword = "OUTFIL")).map Block.text =
    (bs'.filter (·.keyword = "OUTFIL")).map Block.text
  option : (bs.filter (·.keyword = "OPTION")).map Block.text =
    (bs'.filter (·.keyword = "OPTION")).map Block.text

theorem Rearranged.symm {bs bs' : List Block} (h : Rearranged bs bs') : Rearranged bs' bs :=
  ⟨h.perm.symm, h.outfil.symm, h.option.symm⟩

theorem ofKeyword_statementsOf (keyword : String) (bs : List Block) :
    ofKeyword keyword (statementsOf bs) =
      statementsOf (bs.filter (·.keyword = keyword)) := by
  rw [ofKeyword, statementsOf, statementsOf, List.map_map, List.filter_map, List.map_map]
  refine congrArg (List.map _) (List.filter_congr fun b _ => ?_)
  rw [Function.comp_apply, Block.keyword, Function.comp_apply]

theorem ofText_of_rearranged {text text' : String} {bs bs' : List Block} {deck : Deck}
    (h : Laid text bs) (h' : Laid text' bs') (hbs : Rearranged bs bs')
    (hdeck : ofText text config = .ok deck) : ofText text' config = .ok deck := by
  obtain ⟨d, hd, rfl⟩ := (ofText_of_laid h).1 hdeck
  refine (ofText_of_laid h').2 ⟨d, ?_, rfl⟩
  have hperm : (statementsOf bs).Perm (statementsOf bs') := hbs.perm.map _
  refine foldlM_take_perm hperm ?_ ?_ hd
  · rw [ofKeyword_statementsOf, ofKeyword_statementsOf, statementsOf, hbs.outfil, statementsOf]
  · rw [ofKeyword_statementsOf, ofKeyword_statementsOf, statementsOf, hbs.option, statementsOf]

/-- **The order of statements does not matter**, as long as the `OUTFIL` statements and the `OPTION`
statements keep theirs: one deck gives what the other gives, and is refused if the other is. -/
theorem ofText_perm {text text' : String} {bs bs' : List Block} (h : Laid text bs)
    (h' : Laid text' bs') (hbs : Rearranged bs bs') (config : Config) :
    (∀ deck, ofText text config = .ok deck ↔ ofText text' config = .ok deck) ∧
      ((∃ f, ofText text config = .error f) ↔ ∃ f, ofText text' config = .error f) := by
  have hiff : ∀ deck, ofText text config = .ok deck ↔ ofText text' config = .ok deck := fun deck =>
    ⟨ofText_of_rearranged h h' hbs, ofText_of_rearranged h' h hbs.symm⟩
  refine ⟨hiff, ?_⟩
  cases htext : ofText text config with
  | ok deck =>
    rw [(hiff deck).1 htext]
  | error f =>
    cases htext' : ofText text' config with
    | ok deck =>
      rw [(hiff deck).2 htext'] at htext
      cases htext
    | error f' => exact iff_of_true ⟨f, rfl⟩ ⟨f', rfl⟩

/-- A sort statement on two lines, with a comment behind it and without one. -/
def sampleSorts : Block × Block :=
  (⟨"SORT FIELDS=(1,1,CH,A,".toList, ["  3,2,ZD,D)".toList, "* two keys".toList],
      by decide +kernel, by decide +kernel, by decide +kernel⟩,
    ⟨"SORT FIELDS=(1,1,CH,A,".toList, ["  3,2,ZD,D)".toList],
      by decide +kernel, by decide +kernel, by decide +kernel⟩)

/-- A statement with the option to keep the order of equal keys. -/
def sampleOption : Block :=
  ⟨"OPTION EQUALS".toList, [], by decide +kernel, by decide +kernel, by simp⟩

/-- Two statements with one destination each. -/
def sampleOutfils : Block × Block :=
  (⟨"OUTFIL FNAMES=A".toList, [], by decide +kernel, by decide +kernel, by simp⟩,
    ⟨"OUTFIL FNAMES=B".toList, [], by decide +kernel, by decide +kernel, by simp⟩)

/-- The blocks of a small deck, and the same in another order. -/
def sampleBlocks : List Block × List Block :=
  ([sampleSorts.1, sampleOutfils.1, sampleOption, sampleOutfils.2],
    [sampleOption, sampleOutfils.1, sampleOutfils.2, sampleSorts.2])

/-- A deck of four statements, and the same statements in another order under the comment. -/
theorem sampleBlocks_perm :
    let sort := "SORT FIELDS=(1,1,CH,A,\n  3,2,ZD,D)\n"
    let text := sort ++ "* two keys\nOUTFIL FNAMES=A\nOPTION EQUALS\nOUTFIL FNAMES=B\n"
    let text' := "* two keys\n\nOPTION EQUALS\nOUTFIL FNAMES=A\nOUTFIL FNAMES=B\n" ++ sort
    let deck : Deck :=
      { comparer := some ⟨[⟨⟨0, 1, .ch, .ascii⟩, .ascending⟩, ⟨⟨2, 2, .zd, .ascii⟩, .descending⟩],
          .native⟩
        destinations := [{ name := some "A" }, { name := some "B" }]
        stable := some true }
    Laid text sampleBlocks.1 ∧ Laid text' sampleBlocks.2 ∧
      Rearranged sampleBlocks.1 sampleBlocks.2 ∧
      ofText text {} = .ok deck ∧ ofText text' {} = .ok deck := by
  intro sort text text' deck
  have h : Laid text sampleBlocks.1 := ⟨[], by decide +kernel, by simp⟩
  have h' : Laid text' sampleBlocks.2 :=
    ⟨["* two keys".toList, []], by decide +kernel, by decide +kernel⟩
  have hbs : Rearranged sampleBlocks.1 sampleBlocks.2 :=
    ⟨by decide +kernel, by decide +kernel, by decide +kernel⟩
  have hdeck : ofText text {} = .ok deck := by decide +kernel
  exact ⟨h, h', hbs, hdeck, ((ofText_perm h h' hbs {}).1 deck).1 hdeck⟩

end CardSort.Deck
