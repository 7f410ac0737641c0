import CardSort.Proofs.Field.Store

/-!
# Which numbers a field holds

Every numeric format has a range of integers for each width. A store succeeds for the integers of
that range and for no others, and it either does the whole of its work or none of it.

* `Field.of_eq_ok_iff`, `Field.of_eq_ok` — which fields can be declared, and what is known of them.
* `Field.Represents` — the range of a numeric field.
* `Field.exists_encode_iff` — a declared field encodes the numbers of its range.
* `Field.store_exact` — **a store is exact, checks the range, and is atomic.**
-/

set_option autoImplicit false

namespace CardSort.Field

variable {position length : Nat} {format : FieldFormat} {encoding : Encoding} {f : Field}

/-- A field is declared if it starts at a position, is not empty, ends at a number of a card and, if
it is numeric, is no wider than its format admits. -/
theorem of_eq_ok_iff : Field.of position length format encoding = .ok f ↔
    (0 < position ∧ 0 < length ∧ position + length < 2 ^ (64 : Nat) ∧
      ∀ maximum, format.maxLength? = some maximum → length ≤ maximum) ∧
      f = ⟨position - 1, length, format, encoding⟩ := by
  unfold Field.of
  split
  · simp only [reduceCtorEq, false_iff]
    omega
  split
  · simp only [reduceCtorEq, false_iff]
    omega
  split
  · simp only [reduceCtorEq, false_iff]
    omega
  cases hmax : format.maxLength? with
  | none =>
    rw [Except.ok.injEq, eq_comm]
    exact (and_iff_right ⟨by omega, by omega, by omega, fun _ h => nomatch h⟩).symm
  | some limit =>
    simp only
    split
    · refine iff_of_false (fun h => nomatch h) fun h => ?_
      have hlimit := h.1.2.2.2 limit rfl
      omega
    · rw [Except.ok.injEq, eq_comm]
      refine (and_iff_right ⟨by omega, by omega, by omega, fun maximum hmaximum => ?_⟩).symm
      cases hmaximum
      omega

/-- A declared field has the position, length and format that it was declared with; it is not
empty, and a numeric one is no wider than its format admits. -/
theorem of_eq_ok (h : Field.of position length format encoding = .ok f) :
    f = ⟨position - 1, length, format, encoding⟩ ∧ 0 < length ∧
      ∀ maximum, format.maxLength? = some maximum → length ≤ maximum := by
  obtain ⟨⟨-, hlength, -, hmax⟩, hf⟩ := of_eq_ok_iff.1 h
  exact ⟨hf, hlength, hmax⟩

/-- Position and length of a declared field are numbers of a card. -/
theorem position_add_length_lt (h : Field.of position length format encoding = .ok f) :
    position + length < 2 ^ (64 : Nat) :=
  (of_eq_ok_iff.1 h).1.2.2.1

/-- The integers that a numeric field can hold: as many digits as there are bytes, two digits to a
byte less one for the sign, or the two's complement and the unsigned numbers of its bits. -/
def Represents (f : Field) (n : Int) : Prop :=
  match f.format with
  | .zd => n.natAbs < 10 ^ f.length
  | .pd => n.natAbs < 10 ^ (2 * f.length - 1)
  | .fi => -(2 : Int) ^ (8 * f.length - 1) ≤ n ∧ n < 2 ^ (8 * f.length - 1)
  | .bi => 0 ≤ n ∧ n < 2 ^ (8 * f.length)
  | .ch | .ss => False

instance (f : Field) (n : Int) : Decidable (f.Represents n) := by
  unfold Represents
  split <;> infer_instance

/-- **A declared field encodes the numbers whose integer part is in its range**, and no others. -/
theorem exists_encode_iff (hof : Field.of position length format encoding = .ok f)
    (hnumeric : format.isNumeric = true) {value : Decimal} :
    (∃ content, f.encode value = .ok content) ↔ f.Represents value.truncate := by
  obtain ⟨rfl, hpositive, hmax⟩ := of_eq_ok hof
  rw [encode_eq]
  unfold Represents
  cases format with
  | zd =>
    simp only [mapError_eq_ok_iff, Zoned.encode_eq]
    exact exists_ite_eq_ok_iff
  | pd =>
    simp only [mapError_eq_ok_iff, Packed.encode_eq]
    have hwidth : length ≠ 0 := by omega
    refine exists_ite_eq_ok_iff.trans ?_
    simp only [hwidth, ne_eq, not_false_eq_true, true_and]
  | fi =>
    simp only [mapError_eq_ok_iff, Binary.encodeSigned_eq]
    have hwidth : length ≤ Binary.maxWidth := hmax 8 rfl
    refine exists_ite_eq_ok_iff.trans ?_
    simp only [Binary.fitsSigned_iff, hpositive, hwidth, true_and]
  | bi =>
    simp only [mapError_eq_ok_iff, Binary.encodeUnsigned_eq]
    have hwidth : length ≤ Binary.maxWidth := hmax 8 rfl
    refine exists_ite_eq_ok_iff.trans ?_
    simp only [Binary.fitsUnsigned_iff, hwidth, true_and]
  | ch => cases hnumeric
  | ss => cases hnumeric

/-- A store succeeds if the field is there and its bytes can be made. -/
theorem exists_store_iff {record : Bytes} {value : Decimal} :
    (∃ stored, (f.store value).run record = .ok () stored) ↔
      f.stop ≤ record.length ∧ ∃ content, f.encode value = .ok content := by
  simp only [run_store_eq_ok_iff]
  constructor
  · rintro ⟨_, hstop, content, hencode, _⟩
    exact ⟨hstop, content, hencode⟩
  · rintro ⟨hstop, content, hencode⟩
    exact ⟨_, hstop, content, hencode, rfl⟩

/-- **A store is exact, checks the range, and is atomic.** A declared numeric field takes a number
if the record contains the field and the integer part is in its range. Then the field reads back
that integer, and no other byte has changed. Otherwise the store leaves the record as it was, and
the fault tells a record that is too short from a number that is out of range. -/
theorem store_exact (hof : Field.of position length format encoding = .ok f)
    (hnumeric : format.isNumeric = true) (record : Bytes) (value : Decimal) :
    ((∃ stored, (f.store value).run record = .ok () stored) ↔
      f.stop ≤ record.length ∧ f.Represents value.truncate) ∧
    (∀ stored, (f.store value).run record = .ok () stored →
      f.Reads stored value.truncate ∧ SameOutside [f] stored record) ∧
    (∀ fault stored, (f.store value).run record = .error fault stored →
      stored = record ∧
        fault = if record.length < f.stop then f.tooShort record
          else .overflow value.toText f.length f.format) := by
  have hf : f.format.isNumeric = true := by
    rw [(of_eq_ok hof).1]
    exact hnumeric
  refine ⟨?_, ?_, ?_⟩
  · rw [exists_store_iff, exists_encode_iff hof hnumeric]
  · intro stored hstore
    exact (store_eq_ok hf hstore).symm
  · intro fault stored hstore
    exact store_eq_error hf hstore

/-- Between two bytes of its record, a packed field of two bytes takes `-999.9` as `-999` and
refuses `1000`. -/
theorem store_exact_packed :
    let f : Field := ⟨1, 2, .pd, .ascii⟩
    let record : Bytes := [0x41, 0x12, 0x3F, 0x42]
    let stored : Bytes := [0x41, 0x99, 0x9D, 0x42]
    let small : Decimal := ⟨true, 9999, 1, by decide, by decide⟩
    let large : Decimal := ⟨false, 1000, 0, by decide, by decide⟩
    Field.of 2 2 .pd .ascii = .ok f ∧
      ((f.store small).run record = .ok () stored ∧ f.Reads stored (-999) ∧
        SameOutside [f] stored record) ∧
      (f.store large).run record = .error (.overflow large.toText 2 .pd) record := by
  intro f record stored small large
  have hof : Field.of 2 2 .pd .ascii = .ok f := rfl
  have hencode : f.encode small = .ok [0x99, 0x9D] := by decide +kernel
  have hstore : (f.store small).run record = .ok () stored :=
    run_store_eq_ok_iff.2 ⟨by decide, _, hencode, rfl⟩
  have htaken := (store_exact hof rfl record small).2.1 stored hstore
  have htruncate : small.truncate = -999 := by decide +kernel
  rw [htruncate] at htaken
  have hrefused := (store_exact hof rfl record large).1
  cases hlarge : (f.store large).run record with
  | ok _ left => exact absurd (hrefused.1 ⟨left, hlarge⟩).2 (by decide +kernel)
  | error fault left =>
    obtain ⟨rfl, rfl⟩ := (store_exact hof rfl record large).2.2 fault left hlarge
    exact ⟨hof, ⟨hstore, htaken⟩, rfl⟩

end CardSort.Field
