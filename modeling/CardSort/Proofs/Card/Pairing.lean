import CardSort.Key.Card
import CardSort.Proofs.Card.Parsing
import Mathlib.Data.List.Forall2

/-!
# Two readings side by side

Two cards may be read in step: the readings stand on the same tokens until the first one ends,
where the second may still have a semicolon and more tokens in front of it. A `Pairing` says
which cursors belong together and which faults the first reading may end with. Each parser is
followed once, for all pairings; single pairings then say that it reads the same from the same
tokens, and where its faults lie.

* `Pairing` — the cursors that belong together, with what one token ahead keeps of it.
* `Pairing.Agree` — if the first reading succeeds, so does the second; a fault is an allowed one.
* `Pairing.Agree.bind`, `Pairing.Agree.loop` — one parser after another, and loops with fuel.
* `Pairing.Alike` — the readings of two parsers agree and give one value; one lemma for each
  parser.
* `Pairing.Agree.collect` — lists of items.
-/

set_option autoImplicit false

namespace CardSort.Card

theorem run_bind_ok {α β : Type} {p : Parser α} {f : α → Parser β} {a : α} {c d : Cursor}
    (h : p c = .ok a d) : (p >>= f) c = f a d := by
  show EStateM.bind p f c = _
  simp [EStateM.bind, h]

/-- A token that is taken off the cursor does not matter to the next one. -/
theorem advance_taken {c c' : Cursor} {u : Unit} :
    advance { c with current := none } = .ok u c' ↔ advance c = .ok u c' := by
  cases h : Lexeme.read (c.rest.dropWhile isSeparator) <;> simp [advance, h]

theorem advance_taken_error {c c' : Cursor} {f : Fault}
    (h : advance { c with current := none } = .error f c') :
    ∃ c₁, advance c = .error f c₁ := by
  cases hread : Lexeme.read (c.rest.dropWhile isSeparator) with
  | unclosed =>
    simp only [advance, hread] at h ⊢
    cases h
    exact ⟨_, rfl⟩
  | finished | token => simp [advance, hread] at h

/-- A token uses up some of the card. -/
theorem size_lt_of_advance {c c' : Cursor} {u : Unit} (h : advance c = .ok u c')
    (hc : c'.current ≠ none) : c'.size < c.size := by
  cases hread : Lexeme.read (c.rest.dropWhile isSeparator) with
  | token t more =>
    simp only [advance, hread] at h
    cases h
    exact Nat.succ_lt_succ (length_lt_of_read hread)
  | finished =>
    simp only [advance, hread] at h
    cases h
    exact absurd rfl hc
  | unclosed =>
    simp only [advance, hread] at h
    cases h

/-- Whether a block of a card ends at the cursor: at the end of the card or at a semicolon. -/
def Cursor.AtBlockEnd (c : Cursor) : Prop := c.current = none ∨ c.current = some .semicolon

/-- Two readings of cards in step. `Pair n c d` says that the cursors belong together, and that
at most `n` tokens are left until both are at the end of a block, though not at the same one. -/
structure Pairing where
  /-- The card of the first reading. -/
  source : String
  Pair : Nat → Cursor → Cursor → Prop
  /-- The faults that the first reading may end with. -/
  Allows : Fault → Prop
  source_eq {n : Nat} {c d : Cursor} : Pair n c d → c.source = source
  le_size {n : Nat} {c d : Cursor} : Pair n c d → n ≤ c.size ∧ n ≤ d.size
  of_pos {n : Nat} {c d : Cursor} : Pair n c d → 0 < n →
    ∃ t, c.current = some t ∧ d.current = some t
  of_zero {c d : Cursor} : Pair 0 c d → c.AtBlockEnd ∧ d.AtBlockEnd
  advance_ok {n : Nat} {c d c' : Cursor} : Pair n c d → 0 < n → advance c = .ok () c' →
    ∃ d' m, advance d = .ok () d' ∧ m < n ∧ Pair m c' d'
  advance_error {n : Nat} {c d c' : Cursor} {f : Fault} : Pair n c d →
    advance c = .error f c' → Allows f
  /-- A head is taken off the current word. -/
  behind {n : Nat} {c d : Cursor} {head w : String} : Pair n c d →
    c.current = some (.word (head ++ w)) → w ≠ "" →
    Pair n { c with current := some (.word w), index := c.index + head.utf8ByteSize }
      { d with current := some (.word w), index := d.index + head.utf8ByteSize }
  /-- The current token may be at fault. -/
  allows_card {n : Nat} {c d : Cursor} (issue : CardIssue) : Pair n c d →
    Allows (.card issue c.index source)
  /-- A word may be at fault from a head on, if it goes on with no code of a format. -/
  allows_unknownFormat {n : Nat} {c d : Cursor} {head w : String} : Pair n c d →
    c.current = some (.word (head ++ w)) → FieldFormat.ofCode? w = none →
    Allows (.unknownFormat w (c.index + head.utf8ByteSize) source)

namespace Pairing

variable {P : Pairing} {α β : Type} {n : Nat} {c d : Cursor}

/-! ## What paired cursors stand on -/

/-- The byte index is one at which the first reading may end with a fault. -/
def Spot (P : Pairing) (index : Nat) : Prop := ∀ issue, P.Allows (.card issue index P.source)

theorem spot (h : P.Pair n c d) : P.Spot c.index := fun issue => P.allows_card issue h

/-- The cursors are on one token, or both at the end of a block. -/
theorem current_cases (h : P.Pair n c d) :
    (∃ t, c.current = some t ∧ d.current = some t ∧ 0 < n) ∨
      (n = 0 ∧ c.AtBlockEnd ∧ d.AtBlockEnd) := by
  obtain rfl | hn := Nat.eq_zero_or_pos n
  · exact .inr ⟨rfl, P.of_zero h⟩
  · obtain ⟨t, hc, hd⟩ := P.of_pos h hn
    exact .inl ⟨t, hc, hd, hn⟩

theorem word?_eq (h : P.Pair n c d) : d.word? = c.word? := by
  obtain ⟨t, hc, hd, -⟩ | ⟨-, hc | hc, hd | hd⟩ := current_cases h <;>
    simp [Cursor.word?, hc, hd]

theorem onLiteral_eq (h : P.Pair n c d) : d.onLiteral = c.onLiteral := by
  obtain ⟨t, hc, hd, -⟩ | ⟨-, hc | hc, hd | hd⟩ := current_cases h <;>
    simp [Cursor.onLiteral, hc, hd]

theorem onFormat_eq (h : P.Pair n c d) : d.onFormat = c.onFormat := by
  simp [Cursor.onFormat, Cursor.onWordWith, word?_eq h]

/-- The semicolon is the only token that one of the cursors may be on alone. -/
theorem isOn_eq (h : P.Pair n c d) {t : Token} (ht : t ≠ .semicolon) : d.isOn t = c.isOn t := by
  obtain ⟨u, hc, hd, -⟩ | ⟨-, hc | hc, hd | hd⟩ := current_cases h <;>
    simp [Cursor.isOn, hc, hd, ht.symm]

/-- A block ends for both readings at once. -/
theorem endsBlock_eq (h : P.Pair n c d) :
    (d.atEnd || d.isOn .semicolon) = (c.atEnd || c.isOn .semicolon) := by
  obtain ⟨u, hc, hd, -⟩ | ⟨-, hc | hc, hd | hd⟩ := current_cases h <;>
    simp [Cursor.atEnd, Cursor.isOn, hc, hd]

theorem current_eq_of_word? {w : String} (h : c.word? = some w) :
    c.current = some (.word w) := by
  unfold Cursor.word? at h
  split at h
  · rename_i hc
    rw [hc, Option.some.inj h]
  · cases h

theorem pos_of_word? {w : String} (h : P.Pair n c d) (hw : c.word? = some w) : 0 < n := by
  obtain ⟨-, -, -, hn⟩ | ⟨-, hc | hc, -⟩ := current_cases h
  · exact hn
  · simp [Cursor.word?, hc] at hw
  · simp [Cursor.word?, hc] at hw

theorem pos_of_isOn {t : Token} (ht : t ≠ .semicolon) (h : P.Pair n c d) (hon : c.isOn t = true) :
    0 < n := by
  obtain ⟨-, -, -, hn⟩ | ⟨-, hc | hc, -⟩ := current_cases h
  · exact hn
  · simp [Cursor.isOn, hc] at hon
  · simp [Cursor.isOn, hc, ht.symm] at hon

/-- Both cards end where the readings do. -/
def Closed (P : Pairing) : Prop :=
  ∀ c d, P.Pair 0 c d → c.current = none ∧ d.current = none

/-- Pairings of closed cards see every token alike. -/
theorem current_eq (hclosed : P.Closed) (h : P.Pair n c d) : d.current = c.current := by
  obtain ⟨t, hc, hd, -⟩ | ⟨rfl, -, -⟩ := current_cases h
  · rw [hc, hd]
  · obtain ⟨hc, hd⟩ := hclosed c d h
    rw [hc, hd]

/-- The readings are of single blocks: no semicolon stands in front of their ends. -/
def IsBlock (P : Pairing) : Prop :=
  ∀ n c d, P.Pair n c d → 0 < n → c.current ≠ some .semicolon

/-! ## Agreement -/

/-- What two readings come to: if the first succeeds, so does the second, with a related value
and paired cursors; a fault of the first is an allowed one. -/
def Agree (P : Pairing) (V : α → α → Nat → Prop) :
    EStateM.Result Fault Cursor α → EStateM.Result Fault Cursor α → Prop
  | .ok a c, r => ∃ b d m, r = .ok b d ∧ V a b m ∧ P.Pair m c d
  | .error f _, _ => P.Allows f

namespace Agree

variable {V : α → α → Nat → Prop} {W : β → β → Nat → Prop}

theorem mono {V' : α → α → Nat → Prop} {r s : EStateM.Result Fault Cursor α} (h : P.Agree V r s)
    (hV : ∀ a b m, V a b m → V' a b m) : P.Agree V' r s := by
  cases r with
  | error => exact h
  | ok a c =>
    obtain ⟨b, d, m, hs, hab, hpair⟩ := h
    exact ⟨b, d, m, hs, hV a b m hab, hpair⟩

theorem pure {a b : α} (h : P.Pair n c d) (hV : V a b n) :
    P.Agree V (Pure.pure (f := Parser) a c) (Pure.pure (f := Parser) b d) :=
  ⟨b, d, n, rfl, hV, h⟩

/-- One parser after another, where the first one has come to a known end. -/
theorem bind_run {p q : Parser α} {f g : α → Parser β} (h : P.Agree V (p c) (q d))
    (hnext : ∀ a b m c' d', p c = .ok a c' → V a b m → P.Pair m c' d' →
      P.Agree W (f a c') (g b d')) :
    P.Agree W ((p >>= f) c) ((q >>= g) d) := by
  cases hp : p c with
  | error e c' =>
    rw [hp] at h
    rw [run_bind_error_left hp]
    exact h
  | ok a c' =>
    rw [hp] at h
    obtain ⟨b, d', m, hq, hV, hpair⟩ := h
    rw [run_bind_ok hp, run_bind_ok hq]
    exact hnext a b m c' d' hp hV hpair

theorem bind {p q : Parser α} {f g : α → Parser β} (h : P.Agree V (p c) (q d))
    (hnext : ∀ a b m c' d', V a b m → P.Pair m c' d' → P.Agree W (f a c') (g b d')) :
    P.Agree W ((p >>= f) c) ((q >>= g) d) :=
  h.bind_run fun a b m c' d' _ => hnext a b m c' d'

/-- A parser that looks at the cursor first. -/
theorem get {f g : Cursor → Parser α} (h : P.Agree V (f c c) (g d d)) :
    P.Agree V ((MonadState.get >>= f) c) ((MonadState.get >>= g) d) := h

theorem fail {issue : CardIssue} {r : EStateM.Result Fault Cursor α} (h : P.Pair n c d) :
    P.Agree V (Card.fail issue c) r := by
  show P.Allows (.card issue c.index c.source)
  rw [P.source_eq h]
  exact P.allows_card issue h

theorem failAt {issue : CardIssue} {index : Nat} {r : EStateM.Result Fault Cursor α}
    (h : P.Pair n c d) (hspot : P.Spot index) : P.Agree V (Card.failAt issue index c) r := by
  show P.Allows (.card issue index c.source)
  rw [P.source_eq h]
  exact hspot issue

/-- A word that is no code of a format. -/
theorem unknownFormat {w : String} {r : EStateM.Result Fault Cursor α} (h : P.Pair n c d)
    (hw : c.word? = some w) (hcode : FieldFormat.ofCode? w = none) :
    P.Agree V ((throw (.unknownFormat w c.index c.source) : Parser α) c) r := by
  show P.Allows (.unknownFormat w c.index c.source)
  have hcurrent : c.current = some (.word ("" ++ w)) := by
    simpa using current_eq_of_word? hw
  rw [P.source_eq h]
  exact P.allows_unknownFormat h hcurrent hcode

end Agree

/-- The two parsers read one value. The first uses up `used` tokens at least. -/
def Alike (P : Pairing) (used : α → Nat) (p q : Parser α) : Prop :=
  ∀ n c d, P.Pair n c d → P.Agree (fun a b m => a = b ∧ m + used a ≤ n) (p c) (q d)

/-! ## Computations -/

/-- What two computations come to: if the first succeeds, so does the second, with the same
value; a fault of the first is an allowed one. -/
def Matches (P : Pairing) : Except Fault α → Except Fault α → Prop
  | .ok a, r => r = .ok a
  | .error f, _ => P.Allows f

namespace Matches

variable {r s : Except Fault α}

theorem bind {f g : α → Except Fault β} (h : P.Matches r s)
    (hnext : ∀ a, P.Matches (f a) (g a)) : P.Matches (r >>= f) (s >>= g) := by
  cases r with
  | error e => exact h
  | ok a =>
    obtain rfl : s = .ok a := h
    exact hnext a

theorem card {index : Nat} (issue : CardIssue) (hsource : c.source = P.source)
    (hspot : P.Spot index) : P.Matches (.error (c.faultAt issue index)) s := by
  show P.Allows (.card issue index c.source)
  rw [hsource]
  exact hspot issue

end Matches

/-! ## Single tokens -/

namespace Agree

theorem advance (h : P.Pair n c d) (hn : 0 < n) :
    P.Agree (fun _ _ m => m < n) (Card.advance c) (Card.advance d) := by
  cases hr : Card.advance c with
  | error f c' => exact P.advance_error h hr
  | ok u c' =>
    obtain ⟨d', m, hd, hm, hpair⟩ := P.advance_ok h hn hr
    exact ⟨(), d', m, hd, hm, hpair⟩

/-- The next token after one that is taken off the cursor. -/
theorem advance_taken (h : P.Pair n c d) (hn : 0 < n) :
    P.Agree (fun _ _ m => m < n) (Card.advance { c with current := none })
      (Card.advance { d with current := none }) := by
  cases hr : Card.advance { c with current := none } with
  | error f c' =>
    obtain ⟨c₁, hc₁⟩ := advance_taken_error hr
    exact P.advance_error h hc₁
  | ok u c' =>
    obtain ⟨d', m, hd, hm, hpair⟩ := P.advance_ok h hn (Card.advance_taken.1 hr)
    exact ⟨(), d', m, Card.advance_taken.2 hd, hm, hpair⟩

theorem advance_then {a : α} {used : α → Nat} (h : P.Pair n c d) (hn : 0 < n)
    (hused : used a ≤ 1) :
    P.Agree (fun a b m => a = b ∧ m + used a ≤ n) ((Card.advance *> Pure.pure a : Parser α) c)
      ((Card.advance *> Pure.pure a : Parser α) d) := by
  simp only [seqRight_eq_bind]
  refine (advance h hn).bind fun _ _ m c d hm h => pure h ⟨rfl, ?_⟩
  omega

end Agree

/-- A head that is not there leaves the cursor where it is. -/
theorem eatHead_of_none {head : String} (h : c.word?.bind (Text.after? head) = none) :
    Card.eatHead head c = .ok false c := by
  simp only [Card.eatHead, h]

/-- A head that is there is taken off the current word, or the word is the head alone. -/
theorem Agree.takeHead {head rest : String} (h : P.Pair n c d)
    (hafter : c.word?.bind (Text.after? head) = some rest) :
    P.Agree (fun a b m => a = true ∧ b = true ∧ m ≤ n) (Card.eatHead head c)
      (Card.eatHead head d) := by
  obtain ⟨w, hw, hrest⟩ := Option.bind_eq_some_iff.1 hafter
  by_cases hempty : rest = ""
  · subst hempty
    simp only [Card.eatHead, word?_eq h, hafter, seqRight_eq_bind]
    refine (Agree.advance h (pos_of_word? h hw)).bind ?_
    intro _ _ m c d hm h
    exact Agree.pure h ⟨rfl, rfl, Nat.le_of_lt hm⟩
  · have hcurrent : c.current = some (.word (head ++ rest)) := by
      rw [current_eq_of_word? hw, Text.after?_eq_some_iff.1 hrest]
    simp only [Card.eatHead, word?_eq h, hafter]
    exact ⟨true, _, n, rfl, ⟨rfl, rfl, Nat.le_refl n⟩, P.behind h hcurrent hempty⟩

/-- A head may be taken off the current word. If it is not there, the cursors stay. -/
theorem Agree.tryHead {V : α → α → Nat → Prop} {f g : Bool → Parser α} (head : String)
    (h : P.Pair n c d)
    (htaken : ∀ m c d, m ≤ n → P.Pair m c d → P.Agree V (f true c) (g true d))
    (hkept : P.Agree V (f false c) (g false d)) :
    P.Agree V ((Card.eatHead head >>= f) c) ((Card.eatHead head >>= g) d) := by
  cases hafter : c.word?.bind (Text.after? head) with
  | none =>
    rw [run_bind_ok (eatHead_of_none hafter),
      run_bind_ok (eatHead_of_none (by rw [word?_eq h, hafter]))]
    exact hkept
  | some rest =>
    refine (Agree.takeHead h hafter).bind ?_
    rintro _ _ m c d ⟨rfl, rfl, hm⟩ h
    exact htaken m c d hm h

/-- One of two heads may be taken off the current word. -/
theorem Agree.tryHeads {V : α → α → Nat → Prop} {f g : Bool → Parser α} (head head' : String)
    (h : P.Pair n c d)
    (htaken : ∀ m c d, m ≤ n → P.Pair m c d → P.Agree V (f true c) (g true d))
    (hkept : P.Agree V (f false c) (g false d)) :
    P.Agree V (((Card.eatHead head <||> Card.eatHead head') >>= f) c)
      (((Card.eatHead head <||> Card.eatHead head') >>= g) d) := by
  simp only [orM, bind_assoc]
  exact Agree.tryHead head h htaken (Agree.tryHead head' h htaken hkept)

namespace Alike

variable {used : α → Nat} {p q : Parser α}

/-- A parser in front of others. -/
theorem next {W : β → β → Nat → Prop} {f g : α → Parser β} (hp : P.Alike used p q)
    (h : P.Pair n c d)
    (hnext : ∀ a m c d, m + used a ≤ n → P.Pair m c d → P.Agree W (f a c) (g a d)) :
    P.Agree W ((p >>= f) c) ((q >>= g) d) := by
  refine (hp n c d h).bind ?_
  rintro a _ m c d ⟨rfl, hm⟩ h
  exact hnext a m c d hm h

/-- The last step: a value is handed back. -/
theorem done {a : α} {m : Nat} (h : P.Pair m c d) (hm : m + used a ≤ n) :
    P.Agree (fun a b m => a = b ∧ m + used a ≤ n) (Pure.pure (f := Parser) a c)
      (Pure.pure (f := Parser) a d) :=
  Agree.pure h ⟨rfl, hm⟩

theorem eat {t : Token} (ht : t ≠ .semicolon) :
    P.Alike Bool.toNat (Card.eat t) (Card.eat t) := by
  intro n c d h
  simp only [Card.eat, isOn_eq h ht]
  split
  · rename_i hon
    exact Agree.advance_then h (pos_of_isOn ht h hon) (Nat.le_refl _)
  · exact Agree.pure h ⟨rfl, Nat.le_refl _⟩

/-- Any token, the semicolon included, if both cards end where the readings do. -/
theorem eat_of_closed (hclosed : P.Closed) (t : Token) :
    P.Alike Bool.toNat (Card.eat t) (Card.eat t) := by
  intro n c d h
  have hon : d.isOn t = c.isOn t := by simp only [Cursor.isOn, current_eq hclosed h]
  simp only [Card.eat, hon]
  cases hc : c.isOn t with
  | false => exact Agree.pure h ⟨rfl, Nat.le_refl _⟩
  | true =>
    have hpos : n ≠ 0 := by
      rintro rfl
      simp [Cursor.isOn, (hclosed c d h).1] at hc
    exact Agree.advance_then h (Nat.pos_of_ne_zero hpos) (Nat.le_refl _)

theorem eatWord (w : String) : P.Alike Bool.toNat (Card.eatWord w) (Card.eatWord w) :=
  eat (by simp)

theorem eatHead (head : String) :
    P.Alike (fun _ => 0) (Card.eatHead head) (Card.eatHead head) := by
  intro n c d h
  cases hafter : c.word?.bind (Text.after? head) with
  | none =>
    rw [eatHead_of_none hafter, eatHead_of_none (by rw [word?_eq h, hafter])]
    exact Agree.pure h ⟨rfl, Nat.le_refl _⟩
  | some rest =>
    refine (Agree.takeHead h hafter).mono ?_
    rintro _ _ m ⟨rfl, rfl, hm⟩
    exact ⟨rfl, hm⟩

theorem expect {t : Token} (ht : t ≠ .semicolon) :
    P.Alike (fun _ => 1) (Card.expect t) (Card.expect t) := by
  intro n c d h
  refine (eat ht n c d h).bind ?_
  rintro b _ m c d ⟨rfl, hle⟩ h
  cases b with
  | true => exact Agree.pure h ⟨rfl, hle⟩
  | false => exact Agree.fail h

theorem word : P.Alike (fun _ => 1) Card.word Card.word := by
  intro n c d h
  obtain ⟨t, hc, hd, hn⟩ | ⟨-, hc, -⟩ := current_cases h
  · cases t with
    | word w =>
      simp only [Card.word, hc, hd, seqRight_eq_bind]
      refine (Agree.advance_taken h hn).bind ?_
      intro _ _ m c d hm h
      exact Agree.pure h ⟨rfl, hm⟩
    | literal | openParen | closeParen | semicolon =>
      simp only [Card.word, hc, hd]
      exact Agree.fail h
  · obtain hc | hc := hc <;>
    · simp only [Card.word, hc]
      exact Agree.fail h

theorem literal : P.Alike (fun _ => 1) Card.literal Card.literal := by
  intro n c d h
  obtain ⟨t, hc, hd, hn⟩ | ⟨-, hc, -⟩ := current_cases h
  · cases t with
    | literal s =>
      simp only [Card.literal, hc, hd, seqRight_eq_bind]
      refine (Agree.advance_taken h hn).bind ?_
      intro _ _ m c d hm h
      exact Agree.pure h ⟨rfl, hm⟩
    | word | openParen | closeParen | semicolon =>
      simp only [Card.literal, hc, hd]
      exact Agree.fail h
  · obtain hc | hc := hc <;>
    · simp only [Card.literal, hc]
      exact Agree.fail h

theorem number : P.Alike (fun _ => 1) Card.number Card.number := by
  intro n c d h
  simp only [Card.number, word?_eq h]
  cases hk : c.word?.bind (Numeral.word64? ·) with
  | none => exact Agree.fail h
  | some k =>
    obtain ⟨w, hw, -⟩ := Option.bind_eq_some_iff.1 hk
    exact Agree.advance_then h (pos_of_word? h hw) (Nat.le_refl 1)

theorem skipFormat : P.Alike Bool.toNat Card.skipFormat Card.skipFormat := by
  intro n c d h
  simp only [Card.skipFormat, onFormat_eq h]
  split
  · rename_i hon
    cases hw : c.word? with
    | none => simp [Cursor.onFormat, Cursor.onWordWith, hw] at hon
    | some w => exact Agree.advance_then h (pos_of_word? h hw) (Nat.le_refl _)
  · exact Agree.pure h ⟨rfl, Nat.le_refl _⟩

/-- One keyword or another. -/
theorem or {used : Bool → Nat} {p q p' q' : Parser Bool} (hp : P.Alike used p p')
    (hq : P.Alike used q q') : P.Alike used (p <||> q) (p' <||> q') := by
  intro n c d h
  refine (hp n c d h).bind ?_
  rintro b _ m c d ⟨rfl, hle⟩ h
  cases b with
  | true => exact Agree.pure h ⟨rfl, hle⟩
  | false =>
    refine (hq m c d h).mono ?_
    rintro a b k ⟨rfl, hk⟩
    exact ⟨rfl, by omega⟩

/-- Both readings end at once if both cards end there. -/
theorem expectEnd (hclosed : P.Closed) :
    P.Alike (fun _ => 0) Card.expectEnd Card.expectEnd := by
  intro n c d h
  have hend : d.atEnd = c.atEnd := by simp only [Cursor.atEnd, current_eq hclosed h]
  unfold Card.expectEnd
  rw [hend]
  split
  · exact Agree.pure h ⟨rfl, Nat.le_refl _⟩
  · exact Agree.fail h

end Alike

/-- A closing parenthesis where a list was opened by one. -/
theorem Agree.close {V : α → α → Nat → Prop} {f g : Unit → Parser α} (parenthesized : Bool)
    (h : P.Pair n c d)
    (hnext : ∀ m c d, m ≤ n → P.Pair m c d → P.Agree V (f () c) (g () d)) :
    P.Agree V ((if parenthesized then Card.expect .closeParen >>= f else f ()) c)
      ((if parenthesized then Card.expect .closeParen >>= g else g ()) d) := by
  cases parenthesized with
  | false => exact hnext n c d (Nat.le_refl n) h
  | true =>
    refine (Alike.expect (t := .closeParen) (by simp)).next h fun _ m c d hm h => ?_
    exact hnext m c d (by omega) h

/-! ## Loops -/

/-- Loops with fuel for all tokens that are left agree if they do at the end of a block, and in
front of a token as soon as they do behind it. -/
theorem Agree.loop {σ : Type} {p q : Nat → σ → Parser α} {V : Nat → Cursor → α → α → Nat → Prop}
    (hend : ∀ fuel fuel' s c d, P.Pair 0 c d → P.Agree (V 0 c) (p fuel s c) (q fuel' s d))
    (hstep : ∀ fuel fuel' s n c d, P.Pair n c d → 0 < n →
      (∀ s m c d, P.Pair m c d → m < n → P.Agree (V m c) (p fuel s c) (q fuel' s d)) →
      P.Agree (V n c) (p (fuel + 1) s c) (q (fuel' + 1) s d)) :
    ∀ fuel fuel' s n c d, P.Pair n c d → n ≤ fuel → n ≤ fuel' →
      P.Agree (V n c) (p fuel s c) (q fuel' s d) := by
  intro fuel
  induction fuel with
  | zero =>
    intro fuel' s n c d h hn _
    obtain rfl := Nat.le_zero.1 hn
    exact hend 0 fuel' s c d h
  | succ fuel ih =>
    intro fuel' s n c d h hn hn'
    obtain rfl | hpos := Nat.eq_zero_or_pos n
    · exact hend (fuel + 1) fuel' s c d h
    · obtain ⟨fuel', rfl⟩ : ∃ k, fuel' = k + 1 :=
        Nat.exists_eq_add_one.2 (Nat.lt_of_lt_of_le hpos hn')
      exact hstep fuel fuel' s n c d h hpos fun s m c d h hm =>
        ih fuel' s m c d h (by omega) (by omega)

/-! ## Lists of items -/

section Lists

variable {more : Cursor → Bool} {item item' : Parser α} {R : α → α → Prop}

theorem collectWhile_of_not_more (h : more c = false) (fuel : Nat) :
    Card.collectWhile more item fuel c = .ok [] c := by
  cases fuel with
  | zero => rfl
  | succ fuel =>
    refine run_bind_iff.2 ⟨c, c, rfl, ?_⟩
    simp only [h, Bool.false_eq_true, if_false]
    rfl

theorem collectWhile_of_more (h : more c = true) (fuel : Nat) :
    Card.collectWhile more item (fuel + 1) c =
      (do
        let x ← item
        let xs ← Card.collectWhile more item fuel
        Pure.pure (x :: xs)) c := by
  show (if more c = true then _ else Pure.pure [] : Parser (List α)) c = _
  rw [if_pos h]

theorem Agree.collectWhile (hmore : ∀ n c d, P.Pair n c d → more d = more c)
    (hend : ∀ c d, P.Pair 0 c d → more c = false)
    (hitem : ∀ n c d, P.Pair n c d → more c = true →
      P.Agree (fun a b m => R a b ∧ m < n) (item c) (item' d)) :
    ∀ fuel fuel' n c d, P.Pair n c d → n ≤ fuel → n ≤ fuel' →
      P.Agree (fun as bs m => List.Forall₂ R as bs ∧ m + as.length ≤ n)
        (Card.collectWhile more item fuel c) (Card.collectWhile more item' fuel' d) := by
  intro fuel fuel' n c d h hn hn'
  have hstop : ∀ fuel fuel' n c d, P.Pair n c d → more c = false →
      P.Agree (fun as bs m => List.Forall₂ R as bs ∧ m + as.length ≤ n)
        (Card.collectWhile more item fuel c) (Card.collectWhile more item' fuel' d) := by
    intro fuel fuel' n c d h hc
    rw [collectWhile_of_not_more hc, collectWhile_of_not_more ((hmore n c d h).trans hc)]
    exact Agree.pure h ⟨.nil, by simp⟩
  refine Agree.loop (p := fun fuel (_ : Unit) => Card.collectWhile more item fuel)
    (q := fun fuel (_ : Unit) => Card.collectWhile more item' fuel)
    (V := fun n _ as bs m => List.Forall₂ R as bs ∧ m + as.length ≤ n) ?_ ?_ fuel fuel' () n c d h
    hn hn'
  · intro fuel fuel' _ c d h
    exact hstop fuel fuel' 0 c d h (hend c d h)
  · intro fuel fuel' _ n c d h _ hrest
    cases hc : more c with
    | false => exact hstop _ _ n c d h hc
    | true =>
      rw [collectWhile_of_more hc, collectWhile_of_more ((hmore n c d h).trans hc)]
      refine (hitem n c d h hc).bind ?_
      rintro a b m c d ⟨hab, hm⟩ h
      refine (hrest () m c d h hm).bind ?_
      rintro as bs k c d ⟨hall, hk⟩ h
      refine Agree.pure h ⟨.cons hab hall, ?_⟩
      simp only [List.length_cons]
      omega

/-- Lists of related items, where both readings see alike whether one more may follow. -/
theorem Agree.collect (hmore : ∀ n c d, P.Pair n c d → more d = more c)
    (hend : ∀ c d, P.Pair 0 c d → more c = false)
    (hitem : ∀ n c d, P.Pair n c d → more c = true →
      P.Agree (fun a b m => R a b ∧ m < n) (item c) (item' d)) (h : P.Pair n c d) :
    P.Agree (fun as bs m => List.Forall₂ R as bs ∧ m + as.length ≤ n)
      (Card.collect more item c) (Card.collect more item' d) :=
  Agree.collectWhile hmore hend hitem c.size d.size n c d h (P.le_size h).1 (P.le_size h).2

theorem Alike.collect (hmore : ∀ n c d, P.Pair n c d → more d = more c)
    (hend : ∀ c d, P.Pair 0 c d → more c = false) (hitem : P.Alike (fun _ => 1) item item') :
    P.Alike List.length (Card.collect more item) (Card.collect more item') := by
  intro n c d h
  refine (Agree.collect (R := Eq) hmore hend (fun n c d h _ => hitem n c d h) h).mono ?_
  rintro as bs m ⟨hall, hm⟩
  exact ⟨by rwa [List.forall₂_eq_eq_eq] at hall, hm⟩

end Lists

/-! ## Fields -/

/-- The second default format is the first one, if there is a first one. -/
def Extends (default default' : Option FieldFormat) : Prop :=
  ∀ f, default = some f → default' = some f

theorem Extends.refl (default : Option FieldFormat) : Extends default default := fun _ => id

theorem Agree.fieldFormat {isCode : String → Bool} {default default' : Option FieldFormat}
    (hdefault : Extends default default') (h : P.Pair n c d) :
    P.Agree (fun a b m => Extends a b ∧ m ≤ n) (Card.fieldFormat isCode default c)
      (Card.fieldFormat isCode default' d) := by
  refine Agree.get ?_
  simp only [word?_eq h]
  cases hw : c.word? with
  | none => exact Agree.pure h ⟨hdefault, Nat.le_refl _⟩
  | some w =>
    cases hisCode : isCode w with
    | false =>
      simp only [hisCode, Bool.false_eq_true, if_false]
      exact Agree.pure h ⟨hdefault, Nat.le_refl _⟩
    | true =>
      simp only [hisCode, if_true]
      cases hcode : FieldFormat.ofCode? w with
      | some f =>
        refine (Agree.advance h (pos_of_word? h hw)).bind ?_
        intro _ _ m c d hm h
        exact Agree.pure h ⟨fun _ => id, by omega⟩
      | none => exact Agree.unknownFormat h hw hcode

theorem Alike.declareField {index index' : Nat} (hspot : P.Spot index) (position length : Nat)
    (format : FieldFormat) (encoding : Encoding) :
    P.Alike (fun _ => 0) (Card.declareField position length format encoding index)
      (Card.declareField position length format encoding index') := by
  intro n c d h
  unfold Card.declareField
  cases Field.of position length format encoding with
  | ok f => exact Agree.pure h ⟨rfl, Nat.le_refl _⟩
  | error r => exact Agree.failAt h hspot

/-! ## The default format -/

theorem findFormat_of_none (h : c.current = none) (fuel : Nat) :
    Card.findFormat fuel c = .ok none c := by
  cases fuel with
  | zero => rfl
  | succ fuel =>
    refine run_bind_iff.2 ⟨c, c, rfl, ?_⟩
    simp only [h]
    rfl

/-- The search for a default format, with fuel for all tokens that are left. -/
theorem Agree.findFormat (hclosed : P.Closed) :
    ∀ fuel fuel' n c d, P.Pair n c d → n ≤ fuel → n ≤ fuel' →
      P.Agree (fun a b _ => a = b) (Card.findFormat fuel c) (Card.findFormat fuel' d) := by
  intro fuel fuel' n c d h hn hn'
  refine Agree.loop (p := fun fuel (_ : Unit) => Card.findFormat fuel)
    (q := fun fuel (_ : Unit) => Card.findFormat fuel) (V := fun _ _ a b _ => a = b) ?_ ?_ fuel
    fuel' () n c d h hn hn'
  · intro fuel fuel' _ c d h
    obtain ⟨hc, hd⟩ := hclosed c d h
    rw [findFormat_of_none hc, findFormat_of_none hd]
    exact Agree.pure h rfl
  · intro fuel fuel' _ n c d h hpos hrest
    obtain ⟨t, hc, hd⟩ := P.of_pos h hpos
    have hlater : P.Agree (fun a b _ => a = b) ((do Card.advance; Card.findFormat fuel) c)
        ((do Card.advance; Card.findFormat fuel') d) := by
      refine (Agree.advance h hpos).bind ?_
      intro _ _ m c d hm h
      exact hrest () m c d h hm
    refine Agree.get ?_
    simp only [hc, hd]
    cases t with
    | word w =>
      simp only
      cases hafter : Text.after? formatKeyword w with
      | none => exact hlater
      | some code =>
        simp only
        cases hcode : FieldFormat.ofCode? code with
        | some f => exact Agree.pure h rfl
        | none =>
          rw [Text.after?_eq_some_iff.1 hafter] at hc
          show P.Allows (.unknownFormat code (c.index + formatKeyword.utf8ByteSize) c.source)
          rw [P.source_eq h]
          exact P.allows_unknownFormat h hc hcode
    | literal | openParen | closeParen | semicolon => exact hlater

end Pairing

end CardSort.Card
