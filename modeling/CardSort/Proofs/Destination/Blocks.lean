import CardSort.Proofs.Card.Beside
import CardSort.Proofs.Destination.Pairing
import CardSort.Proofs.Except

/-!
# Destinations of two cards in one

A destination ends at its semicolon, so nothing behind it matters to what is read; only the
default format is looked for on the whole card. Two cards joined by a semicolon give the
destinations of the first card and then those of the second, read with the one default format.

* `listWith` — destinations read with a given default format.
* `onCard_beside` — one destination, whatever stands behind its block.
* `GoesOn`, `Gives.append` — the destinations of the first card in front of the second.
* `listOfCard_append` — **two cards joined by a semicolon**.
-/

set_option autoImplicit false

namespace CardSort.Destination

open Card Card.Pairing

variable {encoding : Encoding} {default default' : Option FieldFormat} {c d : Cursor}
  {ts us left right : List Token}

/-! ## Single blocks -/

/-- One destination is read alike whatever stands behind its block, and to the end of it. -/
theorem onCard_beside {c' : Cursor} {destination : Destination}
    (hdefault : Extends default default') (hblock : ∀ t ∈ ts, t ≠ .semicolon)
    (hleft : EndsBlock left) (hright : EndsBlock right) (hc : c.At (ts ++ left))
    (hd : d.At (ts ++ right)) (h : onCard encoding default c = .ok destination c') :
    c'.At left ∧ ∃ d', onCard encoding default' d = .ok destination d' ∧ d'.At right := by
  let P := Pairing.tokens c.source d.source (· ≠ .semicolon) left right (by simp) hleft hright
  have hIsBlock : P.IsBlock := by
    rintro _ c d ⟨us, rfl, hus, hc, -⟩ hpos
    obtain ⟨t, us, rfl⟩ := List.exists_cons_of_length_pos hpos
    rw [hc.current]
    exact fun hsemicolon => hus t List.mem_cons_self (Option.some.inj hsemicolon)
  have hpair : P.Pair ts.length c d := ⟨ts, rfl, hblock, hc, hd, rfl, rfl⟩
  have hagree : P.Agree _ (onCard encoding default c) (onCard encoding default' d) :=
    agree_onCard hdefault hpair
  rw [h] at hagree
  obtain ⟨_, d', m, hd', ⟨rfl, -, hzero, -⟩, us, hus, -, hc', hd'', -⟩ := hagree
  obtain rfl := List.eq_nil_of_length_eq_zero (hus.symm.trans (hzero hIsBlock))
  exact ⟨hc', d', hd', hd''⟩

/-! ## Steps of a list -/

theorem listOnCard_nil (hc : c.At []) (fuel : Nat) :
    listOnCard encoding default (fuel + 1) c = .ok [] c := by
  have hskip : skipSemicolons c.size c = .ok () c :=
    skipSemicolons_of_not_isOn (hc.isOn_eq_false (by simp)) _
  refine run_bind_iff.2 ⟨(), c, hskip, run_bind_iff.2 ⟨c, c, rfl, ?_⟩⟩
  simp only [hc.atEnd_nil, if_true]
  rfl

/-- Semicolons are skipped with any fuel for the tokens that are left. -/
theorem skipSemicolons_congr (hc : c.At ts) {fuel fuel' : Nat} (h : ts.length ≤ fuel)
    (h' : ts.length ≤ fuel') : skipSemicolons fuel c = skipSemicolons fuel' c := by
  induction ts generalizing fuel fuel' c with
  | nil =>
    have hoff := hc.isOn_eq_false (u := .semicolon) (by simp)
    rw [skipSemicolons_of_not_isOn hoff, skipSemicolons_of_not_isOn hoff]
  | cons t ts ih =>
    by_cases ht : t = .semicolon
    · subst ht
      obtain ⟨k, rfl⟩ : ∃ k, fuel = k + 1 := Nat.exists_eq_add_one.2 (Nat.zero_lt_of_lt h)
      obtain ⟨k', rfl⟩ : ∃ k, fuel' = k + 1 := Nat.exists_eq_add_one.2 (Nat.zero_lt_of_lt h')
      obtain ⟨next, heat, hnext, -⟩ := Reads.eat c hc
      simp only [skipSemicolons, run_bind_ok heat, if_true]
      exact ih hnext (Nat.le_of_succ_le_succ h) (Nat.le_of_succ_le_succ h')
    · have hoff := hc.isOn_eq_false (u := .semicolon) (by simpa using ht)
      rw [skipSemicolons_of_not_isOn hoff, skipSemicolons_of_not_isOn hoff]

/-- A semicolon in front of a list does not matter. -/
theorem listOnCard_semicolon (encoding : Encoding) (hc : c.At (.semicolon :: ts)) :
    ∃ next, next.At ts ∧ ∀ default fuel,
      listOnCard encoding default (fuel + 1) c = listOnCard encoding default (fuel + 1) next := by
  obtain ⟨next, heat, hnext, -⟩ := Reads.eat c hc
  refine ⟨next, hnext, fun default fuel => ?_⟩
  have hskip : skipSemicolons c.size c = skipSemicolons next.size next := by
    show (eat .semicolon >>= fun eaten => if eaten then skipSemicolons c.rest.length else pure ()) c
      = _
    rw [run_bind_ok heat]
    exact skipSemicolons_congr hnext hc.rest.length_le hnext.length_le_size
  show EStateM.bind _ _ c = EStateM.bind _ _ next
  simp only [EStateM.bind, hskip]

/-- A list in front of any other token is a destination and the list behind it. -/
theorem listOnCard_cons_iff {t : Token} {fuel : Nat} {xs : List Destination} {c' : Cursor}
    (hc : c.At (t :: ts)) (ht : t ≠ .semicolon) :
    listOnCard encoding default (fuel + 1) c = .ok xs c' ↔
      ∃ x next ys, onCard encoding default c = .ok x next ∧
        listOnCard encoding default fuel next = .ok ys c' ∧ xs = x :: ys := by
  have hskip : skipSemicolons c.size c = .ok () c :=
    skipSemicolons_of_not_isOn (hc.isOn_eq_false (by simpa using ht)) _
  have hlist : listOnCard encoding default (fuel + 1) c =
      (do
        let x ← onCard encoding default
        let ys ← listOnCard encoding default fuel
        pure (x :: ys)) c := by
    refine (run_bind_ok (p := fun c => skipSemicolons c.size c) hskip).trans
      ((run_bind_ok (p := get) (d := c) rfl).trans ?_)
    simp only [hc.atEnd_cons, Bool.false_eq_true, if_false]
  rw [hlist, run_bind_iff]
  constructor
  · rintro ⟨x, next, hx, hrest⟩
    obtain ⟨ys, last, hys, hpure⟩ := run_bind_iff.1 hrest
    cases hpure
    exact ⟨x, next, ys, hx, hys, rfl⟩
  · rintro ⟨x, next, ys, hx, hys, rfl⟩
    exact ⟨x, next, hx, run_bind_iff.2 ⟨ys, c', hys, rfl⟩⟩

/-! ## Lists of destinations -/

/-- Tokens up to the first semicolon, and those behind. -/
theorem exists_block {t : Token} (ht : t ≠ .semicolon) (ts : List Token) :
    ∃ block rest, t :: ts = block ++ rest ∧ block ≠ [] ∧ (∀ u ∈ block, u ≠ .semicolon) ∧
      EndsBlock rest := by
  refine ⟨(t :: ts).takeWhile (· ≠ .semicolon), (t :: ts).dropWhile (· ≠ .semicolon),
    List.takeWhile_append_dropWhile.symm, ?_, fun u hu => ?_, ?_⟩
  · simp [ht]
  · simpa using List.mem_takeWhile_imp hu
  · have hhead := List.head?_dropWhile_not (· ≠ Token.semicolon) (t :: ts)
    cases hrest : (t :: ts).dropWhile (· ≠ .semicolon) with
    | nil => exact endsBlock_nil
    | cons u us =>
      rw [hrest] at hhead
      obtain rfl : u = .semicolon := by simpa using hhead
      exact endsBlock_semicolon us

/-- The destinations are read from the cursor, up to the end of the card. -/
def Gives (encoding : Encoding) (default : Option FieldFormat) (fuel : Nat) (c : Cursor)
    (ds : List Destination) : Prop :=
  ∃ c', listOnCard encoding default fuel c = .ok ds c'

/-- Cards with the same tokens give the same destinations, whatever fuel there is for them. -/
theorem Gives.congr {fuel fuel' : Nat} {ds : List Destination}
    (hdefault : Extends default default') (hc : c.At ts) (hd : d.At ts) (hfuel : ts.length < fuel)
    (hfuel' : ts.length < fuel') (h : Gives encoding default fuel c ds) :
    Gives encoding default' fuel' d ds := by
  let P := Pairing.tokens c.source d.source (fun _ => True) [] [] (fun _ => trivial)
    endsBlock_nil endsBlock_nil
  have hclosed : P.Closed := by
    rintro c d ⟨us, hzero, -, hc, hd, -⟩
    obtain rfl := List.eq_nil_of_length_eq_zero hzero.symm
    exact ⟨hc.current, hd.current⟩
  have hpair : P.Pair ts.length c d := by
    refine ⟨ts, rfl, fun _ _ => trivial, ?_, ?_, rfl, rfl⟩
    · rw [List.append_nil]
      exact hc
    · rw [List.append_nil]
      exact hd
  obtain ⟨c', h⟩ := h
  have hagree : P.Agree _ (listOnCard encoding default fuel c)
      (listOnCard encoding default' fuel' d) :=
    agree_listOnCard hclosed hdefault fuel fuel' ts.length c d hpair hfuel hfuel'
  rw [h] at hagree
  obtain ⟨_, d', _, hd', ⟨rfl, -⟩, -⟩ := hagree
  exact ⟨d', hd'⟩

/-- From the cursor on, the destinations `ds` are read and then those of a card with the tokens
`us`, with fuel for all of them. -/
def GoesOn (encoding : Encoding) (default : Option FieldFormat) (fuel : Nat) (c : Cursor)
    (ds : List Destination) (us : List Token) : Prop :=
  ∃ k next, us.length < k ∧ next.At us ∧ ∀ es, Gives encoding default fuel c es ↔
    ∃ es', Gives encoding default k next es' ∧ es = ds ++ es'

/-- A semicolon in front of a list that goes on. -/
theorem GoesOn.semicolon {fuel : Nat} {ds : List Destination}
    (hskip : listOnCard encoding default fuel c = listOnCard encoding default fuel d)
    (h : GoesOn encoding default fuel d ds us) : GoesOn encoding default fuel c ds us := by
  obtain ⟨k, next, hk, hnext, hgives⟩ := h
  refine ⟨k, next, hk, hnext, fun es => ?_⟩
  rw [← hgives, Gives, Gives, hskip]

/-- A destination in front of a list that goes on. -/
theorem GoesOn.cons {t : Token} {fuel : Nat} {x : Destination} {ds : List Destination}
    (hc : c.At (t :: ts)) (ht : t ≠ .semicolon) (hx : onCard encoding default c = .ok x d)
    (h : GoesOn encoding default fuel d ds us) :
    GoesOn encoding default (fuel + 1) c (x :: ds) us := by
  obtain ⟨k, next, hk, hnext, hgives⟩ := h
  refine ⟨k, next, hk, hnext, fun es => ?_⟩
  constructor
  · rintro ⟨c', hc'⟩
    obtain ⟨x', d', ys, hx', hys, rfl⟩ := (listOnCard_cons_iff hc ht).1 hc'
    rw [hx] at hx'
    cases hx'
    obtain ⟨es', hes', rfl⟩ := (hgives ys).1 ⟨c', hys⟩
    exact ⟨es', hes', rfl⟩
  · rintro ⟨es', hes', rfl⟩
    obtain ⟨c', hys⟩ := (hgives (ds ++ es')).2 ⟨es', hes', rfl⟩
    exact ⟨c', (listOnCard_cons_iff hc ht).2 ⟨x, d, ds ++ es', hx, hys, rfl⟩⟩

/-- **The destinations of one card stand in front of those of the next**: if a card gives
destinations, the card that goes on behind a semicolon gives them and then what is left there
gives. -/
theorem Gives.append {fuel fuel' : Nat} {ds : List Destination}
    (hdefault : Extends default default') (hc : c.At ts) (hd : d.At (ts ++ .semicolon :: us))
    (hfuel : ts.length < fuel) (hfuel' : (ts ++ .semicolon :: us).length < fuel')
    (h : Gives encoding default fuel c ds) : GoesOn encoding default' fuel' d ds us := by
  obtain ⟨fuel, rfl⟩ : ∃ k, fuel = k + 1 := Nat.exists_eq_add_one.2 (Nat.zero_lt_of_lt hfuel)
  obtain ⟨fuel', rfl⟩ : ∃ k, fuel' = k + 1 := Nat.exists_eq_add_one.2 (Nat.zero_lt_of_lt hfuel')
  obtain ⟨c', hlist⟩ := h
  -- by the tokens of the first card: a semicolon, or a block up to the next one
  induction hn : ts.length using Nat.strong_induction_on generalizing ts c d fuel fuel' ds with
  | _ n ih =>
    cases ts with
    | nil =>
      rw [listOnCard_nil hc] at hlist
      cases hlist
      obtain ⟨next, hnext, hskip⟩ := listOnCard_semicolon encoding hd
      have hk : us.length < fuel' + 1 := by
        simp only [List.nil_append, List.length_cons] at hfuel'
        omega
      refine GoesOn.semicolon (hskip default' fuel') ⟨fuel' + 1, next, hk, hnext, fun es => ?_⟩
      simp only [List.nil_append, exists_eq_right']
    | cons t ts =>
      by_cases ht : t = .semicolon
      · subst ht
        obtain ⟨nextc, hnextc, hskipc⟩ := listOnCard_semicolon encoding hc
        obtain ⟨nextd, hnextd, hskipd⟩ := listOnCard_semicolon encoding hd
        rw [hskipc] at hlist
        simp only [List.length_cons, List.cons_append] at hn hfuel hfuel'
        exact GoesOn.semicolon (hskipd default' fuel') (ih ts.length (by omega) hnextc hnextd fuel
          (by omega) fuel' (by omega) hlist rfl)
      · obtain ⟨x, nextc, ys, hx, hys, rfl⟩ := (listOnCard_cons_iff hc ht).1 hlist
        obtain ⟨block, rest, hsplit, hne, hblock, hrest⟩ := exists_block ht ts
        have hlength : (t :: ts).length = block.length + rest.length := by
          rw [hsplit, List.length_append]
        have hpos := List.length_pos_iff.2 hne
        rw [List.length_append] at hfuel'
        obtain ⟨fuel, rfl⟩ : ∃ k, fuel = k + 1 := Nat.exists_eq_add_one.2 (by omega)
        obtain ⟨fuel', rfl⟩ : ∃ k, fuel' = k + 1 := Nat.exists_eq_add_one.2 (by omega)
        have hd' : d.At (block ++ (rest ++ .semicolon :: us)) := by
          rwa [← List.append_assoc, ← hsplit]
        obtain ⟨hnextc, nextd, hxd, hnextd⟩ := onCard_beside hdefault hblock hrest
          (hrest.append_semicolon us) (hsplit ▸ hc) hd' hx
        refine GoesOn.cons hd ht hxd (ih rest.length (by omega) hnextc hnextd fuel (by omega) fuel'
          ?_ hys rfl)
        rw [List.length_append]
        omega

/-! ## Whole operands -/

/-- Reads the operand of an `OUTFIL` statement with a given default format. -/
def listWith (default : Option FieldFormat) (text : String) (encoding : Encoding) :
    Except Fault (List Destination) :=
  Card.read (fun c => listOnCard encoding default (c.size + 1) c) text

theorem listOfCard_eq_ok_iff {text : String} {ds : List Destination} :
    listOfCard text encoding = .ok ds ↔
      ∃ format, defaultFormat text = .ok format ∧ listWith format text encoding = .ok ds :=
  bind_eq_ok_iff

theorem lexes_of_listWith {text : String} {ds : List Destination}
    (h : listWith default text encoding = .ok ds) : ∃ ts, Lexes text.toList ts := by
  refine lexes_of_read (fun P hclosed n c hpair => ?_) h
  have hsize := Nat.lt_succ_of_le (P.le_size hpair).1
  refine (agree_listOnCard hclosed (Extends.refl default) _ _ n c c hpair hsize hsize).mono ?_
  exact fun _ _ _ hm => hm.2

theorem listWith_eq_ok_iff {text : String} {ds : List Destination} (hc : start text = .ok c) :
    listWith default text encoding = .ok ds ↔ Gives encoding default (c.size + 1) c ds :=
  read_eq_ok_iff hc

/-- A default format does not matter to an operand that is read without one. -/
theorem listWith_of_extends {text : String} {ds : List Destination}
    (hdefault : Extends default default') (h : listWith default text encoding = .ok ds) :
    listWith default' text encoding = .ok ds := by
  obtain ⟨ts, hts⟩ := lexes_of_listWith h
  obtain ⟨c, hc, hat, -⟩ := exists_start hts
  have hfuel := Nat.lt_succ_of_le hat.length_le_size
  rw [listWith_eq_ok_iff hc] at h ⊢
  exact h.congr hdefault hat hat hfuel hfuel

/-- Two cards joined by a semicolon, as far as they show tokens. -/
theorem lexes_joined {b₁ b₂ : String} (h₁ : Lexes b₁.toList ts) (h₂ : Lexes b₂.toList us) :
    Lexes (b₁ ++ ";" ++ b₂).toList (ts ++ .semicolon :: us) := by
  simpa using h₁.semicolon h₂

section Joined

variable {b₁ b₂ : String} {ds₁ ds₂ : List Destination}

/-- The destinations of two operands in one, read with a given default format. -/
theorem listWith_append_iff {ds : List Destination}
    (h₁ : listWith default b₁ encoding = .ok ds₁) (h₂ : Lexes b₂.toList us) :
    listWith default (b₁ ++ ";" ++ b₂) encoding = .ok ds ↔
      ∃ ds', listWith default b₂ encoding = .ok ds' ∧ ds = ds₁ ++ ds' := by
  obtain ⟨ts, hts⟩ := lexes_of_listWith h₁
  obtain ⟨c₁, hc₁, hat₁, -⟩ := exists_start hts
  obtain ⟨c₂, hc₂, hat₂, -⟩ := exists_start h₂
  obtain ⟨c, hc, hat, -⟩ := exists_start (lexes_joined hts h₂)
  rw [listWith_eq_ok_iff hc₁] at h₁
  obtain ⟨k, next, hk, hnext, hgives⟩ := h₁.append (Extends.refl default) hat₁ hat
    (Nat.lt_succ_of_le hat₁.length_le_size) (Nat.lt_succ_of_le hat.length_le_size)
  rw [listWith_eq_ok_iff hc, hgives]
  have hfuel₂ := Nat.lt_succ_of_le hat₂.length_le_size
  refine exists_congr fun ds' => and_congr_left fun _ => ?_
  rw [listWith_eq_ok_iff hc₂]
  exact ⟨Gives.congr (Extends.refl default) hnext hat₂ hk hfuel₂,
    Gives.congr (Extends.refl default) hat₂ hnext hfuel₂ hk⟩

/-- **Two operands joined by a semicolon** give the destinations of the first one and then those
of the second, which is read with the one default format of the whole: that of the first operand
if it has one. So they give what they give alone if no default format reaches fields that are read
with another one, or with none. -/
theorem listOfCard_append (h₁ : listOfCard b₁ encoding = .ok ds₁)
    (h₂ : listOfCard b₂ encoding = .ok ds₂) :
    ∃ f₁ f₂, defaultFormat b₁ = .ok f₁ ∧ defaultFormat b₂ = .ok f₂ ∧
      (∀ ds, listOfCard (b₁ ++ ";" ++ b₂) encoding = .ok ds ↔
        ∃ ds', listWith (f₁.or f₂) b₂ encoding = .ok ds' ∧ ds = ds₁ ++ ds') ∧
      (f₁ = none ∨ f₂ = none ∨ f₁ = f₂ ∨ listWith none b₂ encoding = .ok ds₂ →
        listOfCard (b₁ ++ ";" ++ b₂) encoding = .ok (ds₁ ++ ds₂)) := by
  obtain ⟨f₁, hf₁, h₁⟩ := listOfCard_eq_ok_iff.1 h₁
  obtain ⟨f₂, hf₂, h₂⟩ := listOfCard_eq_ok_iff.1 h₂
  obtain ⟨ts, hts⟩ := lexes_of_listWith h₁
  obtain ⟨us, hus⟩ := lexes_of_listWith h₂
  have hformat : defaultFormat (b₁ ++ ";" ++ b₂) = .ok (f₁.or f₂) := by
    rw [defaultFormat_eq_ok_iff (lexes_joined hts hus)]
    have hsecond : FirstFormat (.semicolon :: us) f₂ :=
      .later rfl ((defaultFormat_eq_ok_iff hus).1 hf₂)
    exact ((defaultFormat_eq_ok_iff hts).1 hf₁).append_or hsecond
  have hfirst : listWith (f₁.or f₂) b₁ encoding = .ok ds₁ := by
    refine listWith_of_extends ?_ h₁
    rintro f rfl
    rfl
  have hjoined : ∀ ds, listOfCard (b₁ ++ ";" ++ b₂) encoding = .ok ds ↔
      ∃ ds', listWith (f₁.or f₂) b₂ encoding = .ok ds' ∧ ds = ds₁ ++ ds' := by
    intro ds
    rw [← listWith_append_iff hfirst hus, listOfCard_eq_ok_iff]
    simp only [hformat, Except.ok.injEq, exists_eq_left']
  refine ⟨f₁, f₂, hf₁, hf₂, hjoined, fun hcases => (hjoined _).2 ⟨ds₂, ?_, rfl⟩⟩
  rcases hcases with rfl | rfl | rfl | hnone
  · rw [Option.none_or]
    exact h₂
  · exact listWith_of_extends (by rintro f ⟨⟩) h₂
  · rw [Option.or_self]
    exact h₂
  · exact listWith_of_extends (by rintro f ⟨⟩) hnone

end Joined

/-- The default format of the first operand reaches the second one, which names another one: its
numbers are compared as text. -/
theorem listOfCard_append_ne :
    let b₁ := "INCLUDE=(1,1,EQ,C'A'),FORMAT=CH"
    let b₂ := "INCLUDE=(1,2,GT,5),FORMAT=ZD"
    let filter (left : Field) (op : CompareOp) (right : Operand) : Filter :=
      .compare ⟨.field left, op, right, .ascii⟩
    let letter := filter ⟨0, 1, .ch, .ascii⟩ .eq (.text [65])
    let number := filter ⟨0, 2, .zd, .ascii⟩ .gt (.number ⟨false, 5, 0, by decide, by decide⟩)
    let text := filter ⟨0, 2, .ch, .ascii⟩ .gt (.number ⟨false, 5, 0, by decide, by decide⟩)
    listOfCard b₁ .ascii = .ok [{ filter := some letter }] ∧
      listOfCard b₂ .ascii = .ok [{ filter := some number }] ∧
      listOfCard (b₁ ++ ";" ++ b₂) .ascii =
        .ok [{ filter := some letter }, { filter := some text }] ∧
      listOfCard (b₁ ++ ";" ++ b₂) .ascii ≠
        .ok ([{ filter := some letter }] ++ [{ filter := some number }]) := by
  decide +kernel

/-- The second operand names its formats, so the default format of the first one does not
matter to it. -/
theorem listOfCard_append_named :
    let b₁ := "INCLUDE=(1,1,EQ,C'A'),FORMAT=CH"
    let b₂ := "FNAMES=REST,OMIT=(1,1,CH,EQ,C'A')"
    let letter : Filter := .compare ⟨.field ⟨0, 1, .ch, .ascii⟩, .eq, .text [65], .ascii⟩
    let d₁ : Destination := { filter := some letter }
    let d₂ : Destination := { name := some "REST", filter := some letter.not }
    listOfCard b₁ .ascii = .ok [d₁] ∧ listOfCard b₂ .ascii = .ok [d₂] ∧
      listWith none b₂ .ascii = .ok [d₂] ∧
      listOfCard (b₁ ++ ";" ++ b₂) .ascii = .ok ([d₁] ++ [d₂]) := by
  intro b₁ b₂ letter d₁ d₂
  have h₁ : listOfCard b₁ .ascii = .ok [d₁] := by decide +kernel
  have h₂ : listOfCard b₂ .ascii = .ok [d₂] := by decide +kernel
  have hnone : listWith none b₂ .ascii = .ok [d₂] := by decide +kernel
  obtain ⟨f₁, f₂, -, -, -, happend⟩ := listOfCard_append h₁ h₂
  exact ⟨h₁, h₂, hnone, happend (.inr (.inr (.inr hnone)))⟩

end CardSort.Destination
