import CardSort.Deck
import CardSort.Proofs.Card.Faults
import CardSort.Proofs.Destination.Pairing
import CardSort.Proofs.Except
import CardSort.Proofs.Key.Pairing

/-!
# Where the faults of a deck lie

A deck that is refused names one of its statements and a byte index in it. The fault arises in
the operand, where it points at what is wrong, and the statement carries it over to its own text.

* `Statement.exists_operand` — the operand ends its statement, and `offset` is where it begins.
* `Fault.Marks.within` — a fault of the operand is one of the statement.
* `Draft.take_error_marks` — the fault of one statement.
* `ofText_error` — **the fault of a deck points at what is wrong in one of its statements**.
-/

set_option autoImplicit false

namespace CardSort

open Card

/-! ## Operands in statements -/

theorem Fault.Marks.within (before : String) {operand : String} {f : Fault}
    (h : f.Marks operand) :
    (f.within before.utf8ByteSize (before ++ operand)).Marks (before ++ operand) := by
  cases f with
  | card issue index source =>
    obtain ⟨-, hvalid⟩ := h
    obtain ⟨left, right, rfl, hleft⟩ := String.Pos.Raw.isValid_iff_exists_append.1 hvalid
    refine ⟨rfl, String.Pos.Raw.isValid_iff_exists_append.2
      ⟨before ++ left, right, (String.append_assoc ..).symm, ?_⟩⟩
    rw [String.Pos.Raw.ext_iff] at hleft ⊢
    simp only [String.byteIdx_rawEndPos, String.utf8ByteSize_append] at hleft ⊢
    omega
  | unknownFormat code index source =>
    obtain ⟨-, hcode, left, right, rfl, rfl⟩ := h
    refine ⟨rfl, hcode, before ++ left, right, ?_, ?_⟩
    · simp only [String.append_assoc]
    · rw [String.utf8ByteSize_append, Nat.add_comm]
  | _ => exact h

namespace Deck

variable {config : Config}

theorem trimStart_suffix (cs : List Char) : Text.trimStart cs <:+ cs :=
  List.dropWhile_suffix _

theorem cutAtBlank_suffix {cs keyword rest : List Char}
    (h : Text.cutAtBlank cs = some (keyword, rest)) : rest <:+ cs := by
  unfold Text.cutAtBlank at h
  split at h
  · cases h
  · rename_i c rest' hdrop
    cases h
    exact (List.suffix_cons c rest).trans (hdrop ▸ List.dropWhile_suffix _)

/-- The operand ends its statement, and the offset is where it begins. -/
theorem Statement.exists_operand (text : String) :
    ∃ before, text = before ++ (Statement.of text).operand ∧
      before.utf8ByteSize = (Statement.of text).offset := by
  obtain ⟨operand, hsuffix, hoperand, hoffset⟩ : ∃ operand, operand <:+ text.toList ∧
      (Statement.of text).operand = String.ofList operand ∧
      (Statement.of text).offset = text.utf8ByteSize - Text.byteLength operand := by
    unfold Statement.of
    cases hcut : Text.cutAtBlank text.toList with
    | none => exact ⟨[], List.nil_suffix, rfl, rfl⟩
    | some parts =>
      exact ⟨_, (trimStart_suffix _).trans (cutAtBlank_suffix hcut), rfl, rfl⟩
  obtain ⟨before, hbefore⟩ := hsuffix
  refine ⟨String.ofList before, ?_, ?_⟩
  · rw [hoperand, ← String.ofList_append, hbefore, String.ofList_toList]
  · rw [hoffset, Text.utf8ByteSize_ofList, ← Text.byteLength_toList, ← hbefore,
      Text.byteLength_append]
    omega

/-! ## Operands -/

section Operands

variable {text : String} {encoding : Encoding} {f : Fault}

theorem comparer_error_marks (h : Comparer.ofCard text config = .error f) : f.Marks text :=
  readWithFormat_error_marks (fun _ hclosed format n c =>
    Comparer.alike_onCard hclosed (Pairing.Extends.refl format) n c c) h

theorem filter_error_marks (h : Filter.ofCard text encoding = .error f) : f.Marks text :=
  readWithFormat_error_marks (fun _ hclosed format n c =>
    Filter.alike_wholeOnCard hclosed (Pairing.Extends.refl format) n c c) h

theorem layout_error_marks (h : Layout.ofCard text encoding = .error f) : f.Marks text :=
  read_error_marks (fun _ hclosed n c => Layout.alike_wholeOnCard hclosed n c c) h

theorem sum_error_marks (h : SumRule.ofCard text encoding = .error f) : f.Marks text :=
  readWithFormat_error_marks (fun _ hclosed format n c =>
    SumRule.alike_onCard hclosed (Pairing.Extends.refl format) n c c) h

theorem destinations_error_marks (h : Destination.listOfCard text encoding = .error f) :
    f.Marks text :=
  readWithFormat_error_marks (fun P hclosed format n c hpair =>
    have hsize := Nat.lt_succ_of_le (P.le_size hpair).1
    Destination.agree_listOnCard hclosed (Pairing.Extends.refl format) _ _ n c c hpair hsize
      hsize) h

end Operands

/-! ## Statements -/

section Statements

variable {text : String} {f : Fault}

theorem Statement.fault_marks (text : String) (issue : CardIssue) :
    ((Statement.of text).fault issue).Marks text := by
  refine ⟨rfl, String.Pos.Raw.isValid_iff_exists_append.2 ⟨"", text, ?_, rfl⟩⟩
  simp

theorem Statement.anchor_error_marks {α : Type} {r : Except Fault α}
    (hr : ∀ e, r = .error e → e.Marks (Statement.of text).operand)
    (h : (Statement.of text).anchor r = .error f) : f.Marks text := by
  obtain ⟨e, he, rfl⟩ := mapError_eq_error_iff.1 h
  obtain ⟨before, htext, hoffset⟩ := Statement.exists_operand text
  have hmarks := Fault.Marks.within before (hr e he)
  rwa [← htext, hoffset] at hmarks

/-- A statement that fills a slot is refused if it is given before, or if its operand is. -/
theorem Statement.slot_error_marks {α β : Type} {slot : Option β} {r : Except Fault α}
    {put : α → Draft} (hr : ∀ e, r = .error e → e.Marks (Statement.of text).operand)
    (h : (do (Statement.of text).once slot; let a ← (Statement.of text).anchor r
             pure (put a)) = Except.error f) : f.Marks text := by
  cases slot with
  | some b =>
    cases h
    exact Statement.fault_marks text _
  | none =>
    cases hanchor : (Statement.of text).anchor r with
    | error e =>
      rw [hanchor] at h
      cases h
      exact Statement.anchor_error_marks hr hanchor
    | ok a =>
      rw [hanchor] at h
      cases h

/-- The fault of one statement. -/
theorem Draft.take_error_marks {d : Draft} (h : d.take config (Statement.of text) = .error f) :
    f.Marks text := by
  unfold Draft.take at h
  split at h
  · exact Statement.slot_error_marks (fun _ => comparer_error_marks) h
  · exact Statement.slot_error_marks (fun _ => comparer_error_marks) h
  · exact Statement.slot_error_marks (fun _ => filter_error_marks) h
  · exact Statement.slot_error_marks (fun _ => filter_error_marks) h
  · exact Statement.slot_error_marks (fun _ => layout_error_marks) h
  · exact Statement.slot_error_marks (fun _ => layout_error_marks) h
  · exact Statement.slot_error_marks (fun _ => sum_error_marks) h
  · cases hanchor : (Statement.of text).anchor
        (Destination.listOfCard (Statement.of text).operand config.encoding) with
    | error e =>
      rw [hanchor] at h
      cases h
      exact Statement.anchor_error_marks (fun _ => destinations_error_marks) hanchor
    | ok ds =>
      rw [hanchor] at h
      cases h
  · cases h
  · cases h
    exact Statement.fault_marks text _

end Statements

/-! ## Decks -/

theorem exists_error_of_foldlM {α β ε : Type} {step : β → α → Except ε β} {xs : List α} {b : β}
    {e : ε} (h : xs.foldlM step b = .error e) : ∃ x ∈ xs, ∃ b', step b' x = .error e := by
  induction xs generalizing b with
  | nil => cases h
  | cons x xs ih =>
    rw [List.foldlM_cons] at h
    cases hstep : step b x with
    | error e' =>
      rw [hstep] at h
      cases h
      exact ⟨x, List.mem_cons_self, b, hstep⟩
    | ok b' =>
      rw [hstep] at h
      obtain ⟨y, hy, hrest⟩ := ih h
      exact ⟨y, List.mem_cons_of_mem _ hy, hrest⟩

/-- **The fault of a deck points at what is wrong in one of its statements**: at a byte index at
which the statement can be cut, and in front of the code, if the code of a format is unknown. -/
theorem ofText_error {text : String} {f : Fault} (h : ofText text config = .error f) :
    ∃ s ∈ statements text, ∃ index, index ≤ s.utf8ByteSize ∧
      (String.Pos.Raw.mk index).IsValid s ∧
      ((∃ issue, f = .card issue index s) ∨
        ∃ code, f = .unknownFormat code index s ∧ FieldFormat.ofCode? code = none ∧
          ∃ before after, s = before ++ code ++ after ∧ before.utf8ByteSize = index) := by
  obtain ⟨s, hs, d, htake⟩ : ∃ s ∈ statements text, ∃ d : Draft,
      d.take config (Statement.of s) = .error f := by
    unfold ofText at h
    cases hfold : (statements text).foldlM (fun d s => d.take config (Statement.of s))
        ({} : Draft) with
    | error e =>
      rw [hfold] at h
      cases h
      exact exists_error_of_foldlM hfold
    | ok draft =>
      rw [hfold] at h
      cases h
  have hmarks := Draft.take_error_marks htake
  cases f with
  | card issue index source =>
    obtain ⟨rfl, hvalid⟩ := hmarks
    exact ⟨source, hs, index, hvalid.le_utf8ByteSize, hvalid, .inl ⟨issue, rfl⟩⟩
  | unknownFormat code index source =>
    obtain ⟨rfl, hcode, before, after, htext, hindex⟩ := hmarks
    have hvalid : (String.Pos.Raw.mk index).IsValid source := by
      refine String.Pos.Raw.isValid_iff_exists_append.2 ⟨before, code ++ after, ?_, ?_⟩
      · rw [htext, String.append_assoc]
      · rw [← hindex]
        rfl
    exact ⟨source, hs, index, hvalid.le_utf8ByteSize, hvalid,
      .inr ⟨code, rfl, hcode, before, after, htext, hindex⟩⟩
  | _ => exact hmarks.elim

/-- An unknown format in the second statement, behind a name with a letter of two bytes. -/
theorem ofText_error_behind_name :
    let text := "* one output\n OPTION EQUALS\n OUTFIL FNAMES=Höhe,\n   INCLUDE=(1,4,XX,EQ,7)\n"
    let statement := "OUTFIL FNAMES=Höhe, INCLUDE=(1,4,XX,EQ,7)"
    let f := Fault.unknownFormat "XX" 34 statement
    ofText text {} = .error f ∧
      ∃ s ∈ statements text, ∃ index, index ≤ s.utf8ByteSize ∧
        (String.Pos.Raw.mk index).IsValid s ∧
        ((∃ issue, f = .card issue index s) ∨
          ∃ code, f = .unknownFormat code index s ∧ FieldFormat.ofCode? code = none ∧
            ∃ before after, s = before ++ code ++ after ∧ before.utf8ByteSize = index) := by
  intro text statement f
  have h : ofText text {} = .error f := by decide +kernel
  exact ⟨h, ofText_error h⟩

end Deck

end CardSort
