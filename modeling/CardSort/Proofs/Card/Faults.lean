import CardSort.Proofs.Card.Pairing
import CardSort.Proofs.Card.Places

/-!
# Where the faults of a card lie

Every fault of a card names a byte index at which the text can be cut, and an unknown format
stands there in the text. It is shown for a card that is read beside itself: the cursor keeps
its place on the card, and the faults are taken from the places of its tokens.

* `Fault.Marks` — a fault that points at what is wrong in a text.
* `Cursor.Placed` — a cursor that knows its place; `Cursor.Placed.advance`.
* `Pairing.placed` — a card read beside itself.
* `read_error_marks`, `readWithFormat_error_marks` — whole operands.
-/

set_option autoImplicit false

namespace CardSort

/-- The fault points at what is wrong in the text: at a byte index where the text can be cut,
and in front of the code, if the code of a format is unknown. -/
def Fault.Marks (text : String) : Fault → Prop
  | .card _ index source => source = text ∧ (String.Pos.Raw.mk index).IsValid text
  | .unknownFormat code index source =>
    source = text ∧ FieldFormat.ofCode? code = none ∧
      ∃ before after, text = before ++ code ++ after ∧ before.utf8ByteSize = index
  | _ => False

namespace Card

/-- The cursor knows its place on the card: the unread text stands at its offset, and the
current token at its index. -/
structure Cursor.Placed (c : Cursor) : Prop where
  rest : CutsAt c.source c.offset c.rest
  index : ∃ after, CutsAt c.source c.index after ∧
    ∀ w, c.current = some (.word w) → w.toList <+: after

theorem Cursor.placed_before (source : String) : (Cursor.before source).Placed :=
  ⟨⟨[], rfl, rfl⟩, source.toList, ⟨[], rfl, rfl⟩, by rintro w ⟨⟩⟩

/-- A cursor that stands on its text knows its place. -/
theorem Cursor.Stands.placed {c : Cursor} (h : c.Stands) : c.Placed := by
  refine ⟨h.rest, ?_⟩
  cases hc : c.current with
  | none =>
    rw [(h.atEnd hc).2]
    exact ⟨c.rest, h.rest, by rintro w ⟨⟩⟩
  | some t =>
    obtain ⟨-, -, hcut, -⟩ := h.token t hc
    refine ⟨_, hcut, ?_⟩
    rintro w ⟨⟩
    exact List.prefix_append _ _

/-- What the next token leaves: a cursor that knows its place again, or a fault at its place. -/
theorem Cursor.Placed.advance {c : Cursor} (h : c.Placed) :
    match Card.advance c with
    | .ok _ c' => c'.Placed ∧ c'.source = c.source
    | .error f _ => f.Marks c.source := by
  rcases Cursor.advance_cases h.rest with
    ⟨c', hadvance, hstands, hsource, -⟩ | ⟨index, c', hadvance, hvalid⟩
  · rw [hadvance]
    exact ⟨hstands.placed, hsource⟩
  · rw [hadvance]
    exact ⟨rfl, hvalid⟩

/-- What stands behind a head of the current word. -/
theorem Cursor.Placed.word {c : Cursor} {head w : String} (h : c.Placed)
    (hc : c.current = some (.word (head ++ w))) :
    ∃ more, CutsAt c.source (c.index + head.utf8ByteSize) (w.toList ++ more) := by
  obtain ⟨after, hcut, hafter⟩ := h.index
  obtain ⟨more, rfl⟩ := hafter _ hc
  rw [String.toList_append, List.append_assoc] at hcut
  exact ⟨more, Text.byteLength_toList head ▸ hcut.behind⟩

/-- A bound on the tokens from the cursor on, none if it is at the end. -/
def Cursor.left (c : Cursor) : Nat := if c.current = none then 0 else c.size

theorem Cursor.left_of_some {c : Cursor} {t : Token} (h : c.current = some t) :
    c.left = c.size := by
  simp [Cursor.left, h]

theorem Cursor.exists_of_left_pos {c : Cursor} (h : 0 < c.left) : ∃ t, c.current = some t := by
  cases hc : c.current with
  | none => simp [Cursor.left, hc] at h
  | some t => exact ⟨t, rfl⟩

theorem Cursor.current_of_left_eq_zero {c : Cursor} (h : c.left = 0) : c.current = none := by
  cases hc : c.current with
  | none => rfl
  | some t =>
    rw [Cursor.left_of_some hc, Cursor.size] at h
    cases h

/-- A card read beside itself, by a cursor that knows its place. -/
def Pairing.placed (source : String) : Pairing where
  source := source
  Pair n c d := c = d ∧ c.Placed ∧ c.source = source ∧ n = c.left
  Allows := Fault.Marks source
  source_eq h := h.2.2.1
  le_size := by
    rintro n c _ ⟨rfl, -, -, rfl⟩
    unfold Cursor.left
    split <;> simp
  of_pos := by
    rintro n c _ ⟨rfl, -, -, rfl⟩ hn
    obtain ⟨t, ht⟩ := Cursor.exists_of_left_pos hn
    exact ⟨t, ht, ht⟩
  of_zero := by
    rintro c _ ⟨rfl, -, -, hleft⟩
    have hc := Cursor.current_of_left_eq_zero hleft.symm
    exact ⟨.inl hc, .inl hc⟩
  advance_ok := by
    rintro n c _ c' ⟨rfl, hplaced, rfl, rfl⟩ hn hadvance
    obtain ⟨hplaced', hsource⟩ : c'.Placed ∧ c'.source = c.source := by
      simpa only [hadvance] using hplaced.advance
    refine ⟨c', c'.left, hadvance, ?_, rfl, hplaced', hsource, rfl⟩
    obtain ⟨t, ht⟩ := Cursor.exists_of_left_pos hn
    cases hc' : c'.current with
    | none => simpa [Cursor.left, hc'] using hn
    | some t' =>
      rw [Cursor.left_of_some hc', Cursor.left_of_some ht]
      exact size_lt_of_advance hadvance (by simp [hc'])
  advance_error := by
    rintro n c _ c' f ⟨rfl, hplaced, rfl, -⟩ hadvance
    simpa only [hadvance] using hplaced.advance
  behind := by
    rintro n c _ head w ⟨rfl, hplaced, rfl, rfl⟩ hc hw
    refine ⟨rfl, ⟨hplaced.rest, ?_⟩, rfl, ?_⟩
    · obtain ⟨more, hcut⟩ := hplaced.word hc
      refine ⟨_, hcut, ?_⟩
      rintro v ⟨⟩
      exact List.prefix_append _ _
    · rw [Cursor.left_of_some hc, Cursor.left_of_some rfl]
      rfl
  allows_card := by
    rintro n c _ issue ⟨rfl, hplaced, rfl, -⟩
    obtain ⟨after, hcut, -⟩ := hplaced.index
    exact ⟨rfl, hcut.isValid⟩
  allows_unknownFormat := by
    rintro n c _ head w ⟨rfl, hplaced, rfl, -⟩ hc hcode
    obtain ⟨more, before, htext, hindex⟩ := hplaced.word hc
    refine ⟨rfl, hcode, String.ofList before, String.ofList more, ?_, ?_⟩
    · apply String.toList_inj.1
      simpa using htext
    · rw [Text.utf8ByteSize_ofList, hindex]

theorem Pairing.closed_placed (source : String) : (Pairing.placed source).Closed := by
  rintro c _ ⟨rfl, -, -, hleft⟩
  have hc := Cursor.current_of_left_eq_zero hleft.symm
  exact ⟨hc, hc⟩

/-! ## Whole operands -/

/-- The first token of a card leaves a cursor that knows its place. -/
theorem start_placed (source : String) :
    match start source with
    | .ok c => c.Placed ∧ c.source = source
    | .error f => f.Marks source := by
  have h := (Cursor.placed_before source).advance
  unfold start
  cases hadvance : advance (.before source) with
  | ok u c =>
    rw [hadvance] at h
    exact h
  | error f c =>
    rw [hadvance] at h
    exact h

section Operands

variable {α : Type} {source : String} {f : Fault}

/-- Faults point at what is wrong, if the parser agrees with itself beside itself. -/
theorem read_error_marks {p : Parser α} {V : Nat → α → α → Nat → Prop}
    (hp : ∀ P : Pairing, P.Closed → ∀ n c, P.Pair n c c → P.Agree (V n) (p c) (p c))
    (h : read p source = .error f) : f.Marks source := by
  have hstart := start_placed source
  unfold read at h
  cases hc : start source with
  | error e =>
    rw [hc] at h hstart
    cases h
    exact hstart
  | ok c =>
    rw [hc] at h hstart
    have hagree := hp (Pairing.placed source) (Pairing.closed_placed source) c.left c
      ⟨rfl, hstart.1, hstart.2, rfl⟩
    cases hread : p c with
    | ok a c' =>
      simp only [hread] at h
      cases h
    | error e c' =>
      rw [hread] at hagree
      simp only [hread] at h
      cases h
      exact hagree

theorem defaultFormat_error_marks (h : defaultFormat source = .error f) : f.Marks source := by
  refine read_error_marks (V := fun _ a b _ => a = b) (fun P hclosed n c hpair => ?_) h
  have hsize := P.le_size hpair
  exact Pairing.Agree.findFormat hclosed c.size c.size n c c hpair hsize.1 hsize.2

theorem readWithFormat_error_marks {p : Option FieldFormat → Parser α}
    {V : Nat → α → α → Nat → Prop}
    (hp : ∀ P : Pairing, P.Closed → ∀ format n c, P.Pair n c c →
      P.Agree (V n) (p format c) (p format c))
    (h : readWithFormat p source = .error f) : f.Marks source := by
  unfold readWithFormat at h
  cases hformat : defaultFormat source with
  | error e =>
    rw [hformat] at h
    cases h
    exact defaultFormat_error_marks hformat
  | ok format =>
    rw [hformat] at h
    exact read_error_marks (fun P hclosed => hp P hclosed format) h

end Operands

end Card

end CardSort
