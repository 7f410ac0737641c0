import CardSort.Proofs.Card.Lexing
import CardSort.Proofs.Card.Yields

/-!
# What parsers read from a list of tokens

Parsers look at the tokens of a card and not at its text, so what they do is told by the tokens
that are left. A parser reads a value off the front of them, or it refuses them with a fault.

* `Cursor.At` — the tokens that are left at a cursor.
* `Card.Reads` — a parser reads a value and leaves the rest; one lemma for each parser.
* `Card.Refuses` — a parser ends with a fault of the card.
* `Card.Items` — a list of items, read by `Card.collect`.
* `Card.FirstFormat` — the default format of a card.
* `Card.readWithFormat_eq_ok`, `Card.readWithFormat_eq_error` — a whole operand.
-/

set_option autoImplicit false

namespace CardSort.Card

variable {α β : Type} {t : Token} {ts mid rest : List Token} {w : String}

/-! ## Tokens that are left -/

/-- The first token, if it is a word. -/
def nextWord? : List Token → Option String
  | .word w :: _ => some w
  | _ => none

/-- The tokens are left: the cursor stands on the first one, the others are read next. -/
structure Cursor.At (c : Cursor) (ts : List Token) : Prop where
  current : c.current = ts.head?
  rest : Lexes c.rest ts.tail

namespace Cursor.At

variable {c : Cursor}

theorem length_le_size (h : c.At ts) : ts.length ≤ c.size := by
  have := h.rest.length_le
  unfold Cursor.size
  cases ts with
  | nil => simp
  | cons t ts => simpa using this

theorem atEnd_nil (h : c.At []) : c.atEnd = true := by
  simp [Cursor.atEnd, h.current]

theorem atEnd_cons (h : c.At (t :: ts)) : c.atEnd = false := by
  simp [Cursor.atEnd, h.current]

theorem isOn_cons {u : Token} (h : c.At (t :: ts)) : c.isOn u = decide (t = u) := by
  simp [Cursor.isOn, h.current]

theorem isOn_eq_false {u : Token} (h : c.At ts) (hne : ts.head? ≠ some u) : c.isOn u = false := by
  simpa [Cursor.isOn, h.current] using hne

theorem word?_eq (h : c.At ts) : c.word? = nextWord? ts := by
  unfold Cursor.word?
  rw [h.current]
  cases ts with
  | nil => rfl
  | cons t ts => cases t <;> rfl

end Cursor.At

/-! ## Reading and refusing -/

/-- The parser reads a value off the front of the tokens and leaves the rest. -/
def Reads (p : Parser α) (ts : List Token) (a : α) (rest : List Token) : Prop :=
  ∀ c : Cursor, c.At ts → ∃ c', p c = .ok a c' ∧ c'.At rest ∧ c'.source = c.source

/-- The parser ends with a fault, which names a byte index and the card. -/
def Refuses (p : Parser α) (ts : List Token) (fault : Nat → String → Fault) : Prop :=
  ∀ c : Cursor, c.At ts → ∃ index c', p c = .error (fault index c.source) c'

theorem run_bind_error_left {p : Parser α} {f : α → Parser β} {c c' : Cursor} {e : Fault}
    (h : p c = .error e c') : (p >>= f) c = .error e c' := by
  show EStateM.bind p f c = _
  simp [EStateM.bind, h]

theorem run_bind_error_right {p : Parser α} {f : α → Parser β} {a : α} {c d c' : Cursor}
    {e : Fault} (hp : p c = .ok a d) (hf : f a d = .error e c') :
    (p >>= f) c = .error e c' := by
  show EStateM.bind p f c = _
  simp [EStateM.bind, hp, hf]

namespace Reads

variable {p : Parser α} {f : α → Parser β} {a : α} {b : β}

theorem pure : Reads (Pure.pure a) ts a ts :=
  fun c hc => ⟨c, rfl, hc, rfl⟩

theorem bind (hp : Reads p ts a mid) (hf : Reads (f a) mid b rest) :
    Reads (p >>= f) ts b rest := by
  intro c hc
  obtain ⟨d, hd, hmid, hsource⟩ := hp c hc
  obtain ⟨c', hc', hrest, hsource'⟩ := hf d hmid
  exact ⟨c', run_bind_iff.2 ⟨a, d, hd, hc'⟩, hrest, hsource'.trans hsource⟩

theorem bind_refuses {fault : Nat → String → Fault} (hp : Reads p ts a mid)
    (hf : Refuses (f a) mid fault) : Refuses (p >>= f) ts fault := by
  intro c hc
  obtain ⟨d, hd, hmid, hsource⟩ := hp c hc
  obtain ⟨index, c', hc'⟩ := hf d hmid
  rw [hsource] at hc'
  exact ⟨index, c', run_bind_error_right hd hc'⟩

/-- A parser that looks at the cursor first. -/
theorem get {f : Cursor → Parser β} (hf : ∀ c : Cursor, c.At ts → Reads (f c) ts b rest) :
    Reads (MonadState.get >>= f) ts b rest := by
  intro c hc
  obtain ⟨c', hc', hrest⟩ := hf c hc c hc
  exact ⟨c', run_bind_iff.2 ⟨c, c, rfl, hc'⟩, hrest⟩

end Reads

namespace Refuses

variable {p : Parser α} {f : α → Parser β} {fault : Nat → String → Fault}

theorem bind (hp : Refuses p ts fault) : Refuses (p >>= f) ts fault := by
  intro c hc
  obtain ⟨index, c', hc'⟩ := hp c hc
  exact ⟨index, c', run_bind_error_left hc'⟩

/-- A parser that looks at the cursor first. -/
theorem get {f : Cursor → Parser β} (hf : ∀ c : Cursor, c.At ts → Refuses (f c) ts fault) :
    Refuses (MonadState.get >>= f) ts fault := by
  intro c hc
  obtain ⟨index, c', hc'⟩ := hf c hc c hc
  exact ⟨index, c', run_bind_error_right rfl hc'⟩

end Refuses

/-! ## Single tokens -/

theorem exists_advance {c : Cursor} (h : Lexes c.rest ts) :
    ∃ c', Card.advance c = .ok () c' ∧ c'.At ts ∧ c'.source = c.source := by
  unfold Card.advance
  cases h with
  | finished h =>
    simp only [h]
    exact ⟨_, rfl, ⟨rfl, .finished rfl⟩, rfl⟩
  | token h hmore =>
    simp only [h]
    exact ⟨_, rfl, ⟨rfl, hmore⟩, rfl⟩

namespace Reads

theorem advance : Reads Card.advance (t :: ts) () ts :=
  fun _ hc => exists_advance hc.rest

theorem advance_then {a : α} : Reads (Card.advance *> Pure.pure a) (t :: ts) a ts := by
  rw [seqRight_eq_bind]
  exact advance.bind pure

theorem eat : Reads (Card.eat t) (t :: ts) true ts := by
  intro c hc
  simp only [Card.eat, hc.isOn_cons, decide_true, if_true]
  exact advance_then c hc

theorem eat_other (h : ts.head? ≠ some t) : Reads (Card.eat t) ts false ts := by
  intro c hc
  simp only [Card.eat, hc.isOn_eq_false h, Bool.false_eq_true, if_false]
  exact ⟨c, rfl, hc, rfl⟩

theorem eatWord : Reads (Card.eatWord w) (.word w :: ts) true ts := eat

theorem eatWord_other (h : ts.head? ≠ some (.word w)) : Reads (Card.eatWord w) ts false ts :=
  eat_other h

theorem orM_left {p q : Parser Bool} (hp : Reads p ts true rest) :
    Reads (p <||> q) ts true rest :=
  hp.bind pure

theorem orM_right {p q : Parser Bool} {b : Bool} (hp : Reads p ts false mid)
    (hq : Reads q mid b rest) : Reads (p <||> q) ts b rest :=
  hp.bind hq

/-- A word that is the head alone. -/
theorem eatHead {head : String} : Reads (Card.eatHead head) (.word head :: ts) true ts := by
  intro c hc
  have hafter : Text.after? head head = some "" := Text.after?_eq_some_iff.2 (by simp)
  simp only [Card.eatHead, hc.word?_eq, nextWord?, Option.bind_some, hafter]
  exact advance_then c hc

/-- A head to which a word is glued. -/
theorem eatHead_glued {head : String} (hne : w ≠ "") :
    Reads (Card.eatHead head) (.word (head ++ w) :: ts) true (.word w :: ts) := by
  intro c hc
  have hafter : Text.after? head (head ++ w) = some w := Text.after?_eq_some_iff.2 rfl
  simp only [Card.eatHead, hc.word?_eq, nextWord?, Option.bind_some, hafter]
  exact ⟨_, rfl, ⟨rfl, hc.rest⟩, rfl⟩

/-- A head that the first token does not begin with. -/
theorem eatHead_other {head : String}
    (h : ∀ w, nextWord? ts = some w → Text.beginsWith head w = false) :
    Reads (Card.eatHead head) ts false ts := by
  intro c hc
  have hafter : (nextWord? ts).bind (Text.after? head) = none := by
    cases hw : nextWord? ts with
    | none => rfl
    | some w => simpa [Text.beginsWith] using h w hw
  simp only [Card.eatHead, hc.word?_eq, hafter]
  exact ⟨c, rfl, hc, rfl⟩

theorem expect : Reads (Card.expect t) (t :: ts) () ts :=
  eat.bind pure

theorem word : Reads Card.word (.word w :: ts) w ts := by
  intro c hc
  have hcurrent : c.current = some (.word w) := hc.current
  obtain ⟨d, hd, hat, hsource⟩ := exists_advance (c := { c with current := none }) hc.rest
  refine ⟨d, ?_, hat, hsource⟩
  simp only [Card.word, hcurrent, seqRight_eq_bind]
  exact run_bind_iff.2 ⟨(), d, hd, rfl⟩

theorem literal {text : String} : Reads Card.literal (.literal text :: ts) text ts := by
  intro c hc
  have hcurrent : c.current = some (.literal text) := hc.current
  obtain ⟨d, hd, hat, hsource⟩ := exists_advance (c := { c with current := none }) hc.rest
  refine ⟨d, ?_, hat, hsource⟩
  simp only [Card.literal, hcurrent, seqRight_eq_bind]
  exact run_bind_iff.2 ⟨(), d, hd, rfl⟩

theorem number {n : Nat} (h : Numeral.word64? w = some n) :
    Reads Card.number (.word w :: ts) n ts := by
  intro c hc
  simp only [Card.number, hc.word?_eq, nextWord?, Option.bind_some, h]
  exact advance_then c hc

theorem expectEnd : Reads Card.expectEnd [] () [] := by
  intro c hc
  simp only [Card.expectEnd, hc.atEnd_nil, if_true]
  exact ⟨c, rfl, hc, rfl⟩

end Reads

/-! ## Lists of items -/

/-- The look-ahead has the same outcome at every cursor at which the tokens are left. -/
def Looks (more : Cursor → Bool) (ts : List Token) (b : Bool) : Prop :=
  ∀ c : Cursor, c.At ts → more c = b

/-- The items are read one after the other, each of them takes a token at least, and the
look-ahead asks for each of them. -/
inductive Items (more : Cursor → Bool) (item : Parser α) :
    List Token → List α → List Token → Prop where
  | nil {ts : List Token} : Items more item ts [] ts
  | cons {ts mid rest : List Token} {x : α} {xs : List α} (hmore : Looks more ts true)
      (hitem : Reads item ts x mid) (hlt : mid.length < ts.length)
      (hrest : Items more item mid xs rest) : Items more item ts (x :: xs) rest

namespace Items

variable {more : Cursor → Bool} {item : Parser α} {xs : List α}

theorem length_le (h : Items more item ts xs rest) : xs.length + rest.length ≤ ts.length := by
  induction h with
  | nil => simp
  | cons _ _ hlt _ ih =>
    simp only [List.length_cons]
    omega

theorem collectWhile (h : Items more item ts xs rest) (hstop : Looks more rest false) :
    ∀ fuel, xs.length ≤ fuel → Reads (Card.collectWhile more item fuel) ts xs rest := by
  induction h with
  | nil =>
    intro fuel _
    cases fuel with
    | zero => exact .pure
    | succ fuel =>
      refine .get fun c hc => ?_
      simp only [hstop c hc, Bool.false_eq_true, if_false]
      exact .pure
  | cons hmore hitem _ _ ih =>
    intro fuel hfuel
    cases fuel with
    | zero => simp at hfuel
    | succ fuel =>
      have hrest := ih hstop fuel (by simpa using hfuel)
      refine .get fun c hc => ?_
      simp only [hmore c hc, if_true]
      exact hitem.bind (hrest.bind .pure)

/-- A list of items up to a token at which the look-ahead stops. -/
theorem collect (h : Items more item ts xs rest) (hstop : Looks more rest false) :
    Reads (Card.collect more item) ts xs rest := by
  intro c hc
  have hlength := h.length_le
  have hsize := hc.length_le_size
  exact h.collectWhile hstop c.size (by omega) c hc

theorem collectWhile_refuses {fault : Nat → String → Fault} (h : Items more item ts xs mid)
    (hmore : Looks more mid true) (hitem : Refuses item mid fault) :
    ∀ fuel, xs.length < fuel → Refuses (Card.collectWhile more item fuel) ts fault := by
  induction h with
  | nil =>
    intro fuel hfuel
    obtain ⟨fuel, rfl⟩ := Nat.exists_eq_succ_of_ne_zero (Nat.ne_zero_of_lt hfuel)
    refine .get fun c hc => ?_
    simp only [hmore c hc, if_true]
    exact hitem.bind
  | cons hmore' hitem' _ _ ih =>
    intro fuel hfuel
    obtain ⟨fuel, rfl⟩ := Nat.exists_eq_succ_of_ne_zero (Nat.ne_zero_of_lt hfuel)
    have hrest := ih hmore hitem fuel (by simpa using hfuel)
    refine .get fun c hc => ?_
    simp only [hmore' c hc, if_true]
    exact hitem'.bind_refuses hrest.bind

/-- A list of items the next one of which is refused. -/
theorem collect_refuses {fault : Nat → String → Fault} (h : Items more item ts xs (t :: mid))
    (hmore : Looks more (t :: mid) true) (hitem : Refuses item (t :: mid) fault) :
    Refuses (Card.collect more item) ts fault := by
  intro c hc
  have hlength := h.length_le
  have hsize := hc.length_le_size
  rw [List.length_cons] at hlength
  exact h.collectWhile_refuses hmore hitem c.size (by omega) c hc

end Items

/-! ## The default format -/

/-- Whether a token is a `FORMAT=` word. -/
def Token.isFormat : Token → Bool
  | .word w => Text.beginsWith formatKeyword w
  | _ => false

/-- The format word of a format. -/
def formatWord (f : FieldFormat) : Token := .word (formatKeyword ++ f.code)

theorem isFormat_formatWord (f : FieldFormat) : (formatWord f).isFormat = true := by
  have h : Text.after? formatKeyword (formatKeyword ++ f.code) = some f.code :=
    Text.after?_eq_some_iff.2 rfl
  simp [formatWord, Token.isFormat, Text.beginsWith, h]

/-- The tokens give the default format: that of the first `FORMAT=` word, if there is one. -/
inductive FirstFormat : List Token → Option FieldFormat → Prop where
  | missing : FirstFormat [] none
  | here {f : FieldFormat} {ts : List Token} : FirstFormat (formatWord f :: ts) (some f)
  | later {t : Token} {ts : List Token} {format : Option FieldFormat} (ht : t.isFormat = false)
      (hts : FirstFormat ts format) : FirstFormat (t :: ts) format

theorem FirstFormat.append {format : Option FieldFormat} (h : ∀ t ∈ ts, t.isFormat = false)
    (hrest : FirstFormat rest format) : FirstFormat (ts ++ rest) format := by
  induction ts with
  | nil => exact hrest
  | cons t ts ih =>
    exact .later (h t List.mem_cons_self) (ih fun u hu => h u (List.mem_cons_of_mem _ hu))

theorem Cursor.At.onFormat {c : Cursor} (h : c.At ts) :
    c.onFormat = ts.head?.any Token.isFormat := by
  unfold Cursor.onFormat Cursor.onWordWith
  rw [h.word?_eq]
  cases ts with
  | nil => rfl
  | cons t ts => cases t <;> rfl

namespace Reads

theorem skipFormat (h : t.isFormat = true) : Reads Card.skipFormat (t :: ts) true ts := by
  intro c hc
  simp only [Card.skipFormat, hc.onFormat, List.head?_cons, Option.any_some, h, if_true]
  exact advance_then c hc

theorem skipFormat_other (h : ts.head?.any Token.isFormat = false) :
    Reads Card.skipFormat ts false ts := by
  intro c hc
  simp only [Card.skipFormat, hc.onFormat, h, Bool.false_eq_true, if_false]
  exact ⟨c, rfl, hc, rfl⟩

end Reads

/-- The search for a default format ends at the first `FORMAT=` word or at the end. -/
theorem FirstFormat.findFormat {format : Option FieldFormat} (h : FirstFormat ts format) :
    ∀ fuel, ts.length ≤ fuel → ∃ rest, Reads (Card.findFormat fuel) ts format rest := by
  induction h with
  | missing =>
    intro fuel _
    cases fuel with
    | zero => exact ⟨[], .pure⟩
    | succ fuel =>
      refine ⟨[], .get fun c hc => ?_⟩
      simp only [hc.current, List.head?_nil]
      exact .pure
  | @here f ts =>
    intro fuel hfuel
    obtain ⟨fuel, rfl⟩ := Nat.exists_eq_succ_of_ne_zero (Nat.ne_zero_of_lt hfuel)
    have hafter : Text.after? formatKeyword (formatKeyword ++ f.code) = some f.code :=
      Text.after?_eq_some_iff.2 rfl
    refine ⟨formatWord f :: ts, .get fun c hc => ?_⟩
    simp only [hc.current, List.head?_cons, formatWord, hafter, FieldFormat.ofCode?_code]
    exact .pure
  | @later t ts format ht _ ih =>
    intro fuel hfuel
    obtain ⟨fuel, rfl⟩ := Nat.exists_eq_succ_of_ne_zero (Nat.ne_zero_of_lt hfuel)
    obtain ⟨rest, hrest⟩ := ih fuel (by simpa using hfuel)
    refine ⟨rest, .get fun c hc => ?_⟩
    cases t with
    | word w =>
      have hafter : Text.after? formatKeyword w = none := by
        simpa [Token.isFormat, Text.beginsWith] using ht
      simp only [hc.current, List.head?_cons, hafter]
      exact Reads.advance.bind hrest
    | literal _ | openParen | closeParen | semicolon =>
      simp only [hc.current, List.head?_cons]
      exact Reads.advance.bind hrest

/-! ## Whole operands -/

theorem exists_start {source : String} (h : Lexes source.toList ts) :
    ∃ c, start source = .ok c ∧ c.At ts ∧ c.source = source := by
  obtain ⟨c, hc, hat, hsource⟩ := exists_advance (c := .before source) h
  refine ⟨c, ?_, hat, hsource⟩
  simp [start, hc]

theorem read_eq_ok {p : Parser α} {a : α} {source : String} (h : Lexes source.toList ts)
    (hp : Reads p ts a rest) : read p source = .ok a := by
  obtain ⟨c, hc, hat, -⟩ := exists_start h
  obtain ⟨c', hread, -⟩ := hp c hat
  simp [read, hc, hread]

theorem read_eq_error {p : Parser α} {fault : Nat → String → Fault} {source : String}
    (h : Lexes source.toList ts) (hp : Refuses p ts fault) :
    ∃ index, read p source = .error (fault index source) := by
  obtain ⟨c, hc, hat, hsource⟩ := exists_start h
  obtain ⟨index, c', hread⟩ := hp c hat
  exact ⟨index, by simp [read, hc, hread, hsource]⟩

theorem defaultFormat_eq_ok {format : Option FieldFormat} {source : String}
    (h : Lexes source.toList ts) (hformat : FirstFormat ts format) :
    defaultFormat source = .ok format := by
  obtain ⟨c, hc, hat, -⟩ := exists_start h
  obtain ⟨rest, hrest⟩ := hformat.findFormat c.size hat.length_le_size
  obtain ⟨c', hread, -⟩ := hrest c hat
  simp [defaultFormat, read, hc, hread]

/-- A parser that reads all tokens of a card gives the value of the operand. -/
theorem readWithFormat_eq_ok {p : Option FieldFormat → Parser α} {a : α}
    {format : Option FieldFormat} {source : String} (h : Lexes source.toList ts)
    (hformat : FirstFormat ts format) (hp : Reads (p format) ts a rest) :
    readWithFormat p source = .ok a := by
  rw [readWithFormat, defaultFormat_eq_ok h hformat]
  exact read_eq_ok h hp

theorem readWithFormat_eq_error {p : Option FieldFormat → Parser α}
    {format : Option FieldFormat} {fault : Nat → String → Fault} {source : String}
    (h : Lexes source.toList ts) (hformat : FirstFormat ts format)
    (hp : Refuses (p format) ts fault) :
    ∃ index, readWithFormat p source = .error (fault index source) := by
  rw [readWithFormat, defaultFormat_eq_ok h hformat]
  exact read_eq_error h hp

end CardSort.Card
