import CardSort.Proofs.Card.Pairing
import CardSort.Proofs.Card.Places

/-!
# The cursor keeps its place

One operation on a cursor moves its index within a word without reading on, and some take the token
off before they read. Whatever operations are run on a text, in whatever order, the token still
stands in the text at the index, in front of the unread text.

* `Operation` — the operations on a cursor; `Operation.run` says of each whether it has consumed
  something.
* `Operation.outcome` — **what an operation may do**: it consumes something and moves the index
  forward, or leaves the cursor as it was.
* `Operation.cursorAfter?` — the cursor after some operations on a text.
* `Operation.stands_of_cursorAfter?` — every such cursor stands on the text.
* `Operation.cursorAfter?_keeps_place` — **the place of the cursor after any operations**.
-/

set_option autoImplicit false

namespace CardSort

/-- Whether a literal that is not closed is at fault, which is how `Card.advance` fails and nothing
else does. -/
def Fault.isUnclosed : Fault → Bool
  | .card .unterminatedLiteral _ _ => true
  | _ => false

namespace Card

/-! ## Operations -/

/-- The operations on a cursor. -/
inductive Operation where
  | advance
  | eat (t : Token)
  | eatWord (w : String)
  | eatHead (head : String)
  | expect (t : Token)
  | word
  | number
  | literal
  | skipFormat
deriving DecidableEq, Repr

namespace Operation

/-- The outcome of a parser with what its answer says. -/
def answered {α : Type} (consumes : α → Bool) :
    EStateM.Result Fault Cursor α → EStateM.Result Fault Cursor Bool
  | .ok a c => .ok (consumes a) c
  | .error f c => .error f c

/-- Runs the operation and answers whether it has consumed a token or some of one. What is demanded
has been consumed if the operation succeeds, and an empty head of a word is nothing. -/
def run : Operation → Cursor → EStateM.Result Fault Cursor Bool
  | advance, c => answered (fun _ => c.current.isSome) (Card.advance c)
  | eat t, c => Card.eat t c
  | eatWord w, c => Card.eatWord w c
  | eatHead head, c => answered (· && head ≠ "") (Card.eatHead head c)
  | expect t, c => answered (fun _ => true) (Card.expect t c)
  | word, c => answered (fun _ => true) (Card.word c)
  | number, c => answered (fun _ => true) (Card.number c)
  | literal, c => answered (fun _ => true) (Card.literal c)
  | skipFormat, c => Card.skipFormat c

/-- The cursor that an operation leaves, also where it is refused; `none` if it fails in
`Card.advance`. -/
def leaves? (op : Operation) (c : Cursor) : Option Cursor :=
  match op.run c with
  | .ok _ c' => some c'
  | .error f c' => if f.isUnclosed then none else some c'

/-- The cursor after operations on a text, none of which fails in `Card.advance`. -/
def cursorAfter? (text : String) (ops : List Operation) : Option Cursor :=
  match start text with
  | .ok c => ops.foldlM (fun c op => op.leaves? c) c
  | .error _ => none

/-! ## One operation -/

/-- What an operation may do to a cursor. -/
inductive Outcome (c : Cursor) : EStateM.Result Fault Cursor Bool → Prop where
  /-- It consumes something: the index moves forward and the cursor stands on its text again. -/
  | consumed {c' : Cursor} (stands : c'.Stands) (source : c'.source = c.source)
      (index : c.index < c'.index) : Outcome c (.ok true c')
  /-- It consumes nothing and leaves the cursor as it was. -/
  | idle : Outcome c (.ok false c)
  /-- It does not find what it demands and leaves the cursor as it was. -/
  | refused {f : Fault} (fault : f.isUnclosed = false) : Outcome c (.error f c)
  /-- The next token is a literal that is not closed. -/
  | unclosed {f : Fault} {c' : Cursor} (fault : f.isUnclosed = true) : Outcome c (.error f c')

variable {α : Type} {c d : Cursor} {t : Token}

/-- The token of the cursor is consumed by reading on. The cursor may have lost the token before,
as reading on depends on the unread text alone. -/
theorem outcome_next {consumes : α → Bool} {a : α} (h : c.Stands) (ht : c.current = some t)
    (hsource : d.source = c.source) (hrest : d.rest = c.rest) (hoffset : d.offset = c.offset)
    (hconsumes : consumes a = true) :
    Outcome c (answered consumes ((Card.advance *> pure a : Parser α) d)) := by
  have hcut : CutsAt d.source d.offset d.rest := by
    rw [hsource, hrest, hoffset]
    exact h.rest
  have hlt := h.index_lt ht
  rw [seqRight_eq_bind]
  rcases Cursor.advance_cases hcut with
    ⟨c', hadvance, hstands, hsource', hle⟩ | ⟨index, c', hadvance, -⟩
  · rw [run_bind_ok hadvance]
    show Outcome c (.ok (consumes a) c')
    rw [hconsumes]
    exact .consumed hstands (hsource'.trans hsource) (by omega)
  · rw [run_bind_error_left hadvance]
    exact .unclosed rfl

/-- The operations that answer for themselves. -/
theorem answered_id (r : EStateM.Result Fault Cursor Bool) : answered id r = r := by
  cases r <;> rfl

theorem outcome_advance (h : c.Stands) : Outcome c (run .advance c) := by
  cases hc : c.current with
  | none =>
    rw [run, h.advance_atEnd hc, hc]
    exact .idle
  | some t =>
    have hlt := h.index_lt hc
    rw [run, hc]
    rcases Cursor.advance_cases h.rest with
      ⟨c', hadvance, hstands, hsource, hle⟩ | ⟨index, c', hadvance, -⟩
    · rw [hadvance]
      exact .consumed hstands hsource (by omega)
    · rw [hadvance]
      exact .unclosed rfl

theorem outcome_eat (h : c.Stands) (t : Token) : Outcome c (Card.eat t c) := by
  rw [Card.eat]
  split
  · rename_i hon
    rw [← answered_id ((Card.advance *> pure true : Parser Bool) c)]
    exact outcome_next h (of_decide_eq_true hon) rfl rfl rfl rfl
  · exact .idle

theorem outcome_eatHead (h : c.Stands) (head : String) : Outcome c (run (.eatHead head) c) := by
  rw [run, Card.eatHead]
  split
  · exact .idle
  · rename_i hhead
    obtain ⟨w, hw, hafter⟩ := Option.bind_eq_some_iff.1 hhead
    have hc := Pairing.current_eq_of_word? hw
    obtain rfl : w = head := by simpa using Text.after?_eq_some_iff.1 hafter
    have hne : w ≠ "" := (h.token _ hc).1.1
    exact outcome_next h hc rfl rfl rfl (by simpa using hne)
  · rename_i rest hrest hhead
    obtain ⟨w, hw, hafter⟩ := Option.bind_eq_some_iff.1 hhead
    have hc := Pairing.current_eq_of_word? hw
    rw [Text.after?_eq_some_iff.1 hafter] at hc
    have hstands := h.behind hc hrest
    by_cases hempty : head = ""
    · -- an empty head is found in front of every word, and nothing is taken off
      subst hempty
      rw [String.empty_append] at hc
      have hsame :
          { c with current := some (.word rest), index := c.index + "".utf8ByteSize } = c := by
        rw [← hc]
        rfl
      simp only [answered, hsame, ne_eq, not_true_eq_false, decide_false, Bool.and_false]
      exact .idle
    · have hsize : 0 < head.utf8ByteSize := by
        simpa [Nat.pos_iff_ne_zero] using hempty
      simp only [answered, ne_eq, hempty, not_false_eq_true, decide_true, Bool.and_self]
      exact .consumed hstands rfl (Nat.lt_add_of_pos_right hsize)

theorem run_expect (t : Token) (c : Cursor) :
    Card.expect t c = match Card.eat t c with
      | .ok true d => .ok () d
      | .ok false d => .error (d.fault (.expectedToken t)) d
      | .error f d => .error f d := by
  rw [Card.expect]
  cases heat : Card.eat t c with
  | ok b d =>
    rw [run_bind_ok heat]
    cases b <;> rfl
  | error f d => rw [run_bind_error_left heat]

theorem outcome_expect (h : c.Stands) (t : Token) : Outcome c (run (.expect t) c) := by
  have heat := outcome_eat h t
  rw [run, run_expect]
  generalize Card.eat t c = r at heat
  cases heat with
  | consumed stands source index => exact .consumed stands source index
  | idle => exact .refused rfl
  | refused fault => exact .refused fault
  | unclosed fault => exact .unclosed fault

theorem outcome_word (h : c.Stands) : Outcome c (run .word c) := by
  rw [run, Card.word]
  split
  · rename_i w hc
    exact outcome_next h hc rfl rfl rfl rfl
  · exact .refused rfl

theorem outcome_number (h : c.Stands) : Outcome c (run .number c) := by
  rw [run, Card.number]
  split
  · rename_i n hn
    obtain ⟨w, hw, -⟩ := Option.bind_eq_some_iff.1 hn
    exact outcome_next h (Pairing.current_eq_of_word? hw) rfl rfl rfl rfl
  · exact .refused rfl

theorem outcome_literal (h : c.Stands) : Outcome c (run .literal c) := by
  rw [run, Card.literal]
  split
  · rename_i s hc
    exact outcome_next h hc rfl rfl rfl rfl
  · exact .refused rfl

theorem outcome_skipFormat (h : c.Stands) : Outcome c (run .skipFormat c) := by
  rw [run, Card.skipFormat]
  split
  · rename_i hon
    rw [Cursor.onFormat, Cursor.onWordWith] at hon
    cases hw : c.word? with
    | none => simp [hw] at hon
    | some w =>
      rw [← answered_id ((Card.advance *> pure true : Parser Bool) c)]
      exact outcome_next h (Pairing.current_eq_of_word? hw) rfl rfl rfl rfl
  · exact .idle

/-- **What an operation may do to a cursor that stands on its text.** -/
theorem outcome (h : c.Stands) : ∀ op, Outcome c (run op c)
  | .advance => outcome_advance h
  | .eat t => outcome_eat h t
  | .eatWord w => outcome_eat h (.word w)
  | .eatHead head => outcome_eatHead h head
  | .expect t => outcome_expect h t
  | .word => outcome_word h
  | .number => outcome_number h
  | .literal => outcome_literal h
  | .skipFormat => outcome_skipFormat h

/-! ## Any operations -/

/-- A cursor that an operation leaves stands on the same text. -/
theorem stands_of_leaves? {op : Operation} {c' : Cursor} (h : c.Stands)
    (hleaves : op.leaves? c = some c') : c'.Stands ∧ c'.source = c.source := by
  have houtcome := outcome h op
  rw [leaves?] at hleaves
  generalize op.run c = r at houtcome hleaves
  cases houtcome with
  | consumed stands source index =>
    cases hleaves
    exact ⟨stands, source⟩
  | idle =>
    cases hleaves
    exact ⟨h, rfl⟩
  | refused fault =>
    simp only [fault, Bool.false_eq_true, if_false] at hleaves
    cases hleaves
    exact ⟨h, rfl⟩
  | unclosed fault =>
    simp only [fault, if_true] at hleaves
    cases hleaves

theorem stands_of_foldlM {ops : List Operation} :
    ∀ {c c' : Cursor}, c.Stands → ops.foldlM (fun c op => op.leaves? c) c = some c' →
      c'.Stands ∧ c'.source = c.source := by
  induction ops with
  | nil =>
    rintro c _ h ⟨⟩
    exact ⟨h, rfl⟩
  | cons op ops ih =>
    intro c c' h hrun
    rw [List.foldlM_cons] at hrun
    obtain ⟨d, hleaves, hrest⟩ := Option.bind_eq_some_iff.1 hrun
    obtain ⟨hd, hsource⟩ := stands_of_leaves? h hleaves
    obtain ⟨hc', hsource'⟩ := ih hd hrest
    exact ⟨hc', hsource'.trans hsource⟩

/-- Whatever operations are run on a text, the cursor stands on it. -/
theorem stands_of_cursorAfter? {text : String} {ops : List Operation}
    (h : cursorAfter? text ops = some c) : c.Stands ∧ c.source = text := by
  unfold cursorAfter? at h
  cases hstart : start text with
  | error f =>
    rw [hstart] at h
    cases h
  | ok first =>
    simp only [hstart] at h
    obtain ⟨hfirst, hsource⟩ := Cursor.stands_of_start hstart
    obtain ⟨hc, hsource'⟩ := stands_of_foldlM hfirst h
    exact ⟨hc, hsource'.trans hsource⟩

/-- **The place of the cursor after any operations**: the text can be cut at the index, where its
token stands and ends, or where the text ends. Whatever is done next moves the index forward if it
consumes something, and leaves the cursor as it was if it does not. -/
theorem cursorAfter?_keeps_place {text : String} {ops : List Operation}
    (h : cursorAfter? text ops = some c) :
    (String.Pos.Raw.mk c.index).IsValid text ∧
      (∀ t, c.current = some t → t.WellFormed ∧
        ∃ more, CutsAt text c.index (t.render ++ more) ∧ ∀ d ∈ more.head?, t.EndsAt d) ∧
      (c.current = none → c.index = text.utf8ByteSize) ∧
      ∀ op : Operation, match op.run c with
        | .ok true c' => c.index < c'.index
        | .ok false c' => c' = c
        | .error f c' => f.isUnclosed = true ∨ c' = c := by
  obtain ⟨hstands, rfl⟩ := stands_of_cursorAfter? h
  refine ⟨hstands.isValid, ?token, hstands.index_atEnd, ?next⟩
  case token =>
    intro t ht
    obtain ⟨hwf, hends, hcut, -⟩ := hstands.token t ht
    exact ⟨hwf, c.rest, hcut, hends⟩
  case next =>
    intro op
    have houtcome := outcome hstands op
    generalize op.run c = r at houtcome
    cases houtcome with
    | consumed stands source index => exact index
    | idle => rfl
    | refused fault => exact .inr rfl
    | unclosed fault => exact .inl fault

/-- An operand that is glued to its keyword, where a parenthesis is demanded in vain. -/
theorem cursorAfter?_keeps_place_glued :
    ∃ c, cursorAfter? "BUILD=1,3" [.eatHead "BUILD=", .expect .openParen] = some c ∧
      c.current = some (.word "1") ∧ c.index = 6 ∧
      (String.Pos.Raw.mk c.index).IsValid "BUILD=1,3" := by
  have h : cursorAfter? "BUILD=1,3" [.eatHead "BUILD=", .expect .openParen] =
      some ⟨"BUILD=1,3", some (.word "1"), 6, [',', '3'], 7⟩ := by decide
  exact ⟨_, h, rfl, rfl, (cursorAfter?_keeps_place h).1⟩

end Operation

end Card

end CardSort
