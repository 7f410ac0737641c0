import CardSort.Proofs.Field.Codec

/-!
# Storing a number changes one field

A record after a number has been stored in a field: the field holds the number, and every byte
that is not the field's is as before.

* `Field.Covers` and `Field.Disjoint` — the bytes of a field, and fields that share none.
* `SameOutside` — records of one length that differ at most in given fields.
* `Field.Reads` — the integer in a field of a record.
* `Field.decimal_congr` — a field reads its own bytes only.
* `Field.run_store` — a store puts what the field encodes in its place, or changes nothing.
* `Field.store_eq_ok` — **what a store does to a record.**
* `Field.Reads.of_store` — fields that share no byte with the stored one read as before.
* `Field.store_eq_error` — a store fails for a record too short or a number too large, and leaves
  the record as it was.
-/

set_option autoImplicit false

namespace CardSort

namespace Bytes

variable {record patch : Bytes} {start : Nat}

theorem getElem?_splice_outside (hstart : start ≤ record.length) {i : Nat}
    (hi : ¬ (start ≤ i ∧ i < start + patch.length)) :
    (record.splice start patch)[i]? = record[i]? := by
  have htake : (record.take start).length = start := by
    rw [List.length_take]
    omega
  unfold splice
  by_cases hbefore : i < start
  · rw [List.append_assoc, List.getElem?_append_left (by omega), List.getElem?_take_of_lt hbefore]
  · rw [List.getElem?_append_right (by rw [List.length_append]; omega), List.getElem?_drop,
      List.length_append, htake]
    congr 1
    omega

theorem getElem?_splice_inside (hstart : start ≤ record.length) {i : Nat}
    (hi : start ≤ i ∧ i < start + patch.length) :
    (record.splice start patch)[i]? = patch[i - start]? := by
  have htake : (record.take start).length = start := by
    rw [List.length_take]
    omega
  unfold splice
  rw [List.append_assoc, List.getElem?_append_right (by omega), htake,
    List.getElem?_append_left (by omega)]

theorem slice?_splice (hfit : start + patch.length ≤ record.length) :
    slice? (record.splice start patch) start patch.length = some patch := by
  have htake : (record.take start).length = start := by
    rw [List.length_take]
    omega
  rw [slice?, length_splice hfit, if_pos hfit, splice, List.append_assoc,
    List.drop_append_of_le_length (by omega), List.drop_of_length_le (by omega),
    List.nil_append, List.take_left]

/-- The bytes of a range put in their own place change nothing. -/
theorem splice_slice? {content : Bytes} {length : Nat}
    (h : slice? record start length = some content) : record.splice start content = record := by
  have hlength := length_of_slice? h
  unfold slice? at h
  split at h
  · cases h
    rw [splice, hlength, ← List.drop_drop, List.append_assoc, List.take_append_drop,
      List.take_append_drop]
  · cases h

/-- A range depends on its own bytes only. -/
theorem slice?_congr {a b : Bytes} {start length : Nat} (hlength : a.length = b.length)
    (h : ∀ i, start ≤ i ∧ i < start + length → a[i]? = b[i]?) :
    slice? a start length = slice? b start length := by
  have hbytes : (a.drop start).take length = (b.drop start).take length := by
    apply List.ext_getElem?
    intro i
    by_cases hi : i < length
    · rw [List.getElem?_take_of_lt hi, List.getElem?_take_of_lt hi, List.getElem?_drop,
        List.getElem?_drop]
      exact h _ (by omega)
    · rw [List.getElem?_take_eq_none (by omega), List.getElem?_take_eq_none (by omega)]
  rw [slice?, slice?, hlength, hbytes]

end Bytes

/-- Whether the byte at an offset belongs to the field. -/
def Field.Covers (f : Field) (i : Nat) : Prop := f.offset ≤ i ∧ i < f.stop

/-- Fields that have no byte in common. -/
def Field.Disjoint (f g : Field) : Prop := ∀ i, ¬ (f.Covers i ∧ g.Covers i)

theorem Field.disjoint_of_stop_le {f g : Field} (h : f.stop ≤ g.offset) : f.Disjoint g := by
  intro i hi
  have hf : i < f.stop := hi.1.2
  have hg : g.offset ≤ i := hi.2.1
  omega

/-- The field of the record holds the integer. -/
def Field.Reads (f : Field) (record : Bytes) (n : Int) : Prop :=
  ∃ d, f.decimal record = .ok d ∧ d.IsInteger n

/-- Two records of the same length that differ at most in the bytes of the fields. -/
structure SameOutside (fields : List Field) (a b : Bytes) : Prop where
  length : a.length = b.length
  bytes : ∀ i, (∀ f ∈ fields, ¬ f.Covers i) → a[i]? = b[i]?

namespace SameOutside

variable {fields fields' : List Field} {a b d : Bytes}

theorem refl (fields : List Field) (a : Bytes) : SameOutside fields a a := ⟨rfl, fun _ _ => rfl⟩

theorem trans (hab : SameOutside fields a b) (hbd : SameOutside fields b d) :
    SameOutside fields a d :=
  ⟨hab.length.trans hbd.length, fun i hi => (hab.bytes i hi).trans (hbd.bytes i hi)⟩

theorem mono (hsub : fields ⊆ fields') (h : SameOutside fields a b) : SameOutside fields' a b :=
  ⟨h.length, fun i hi => h.bytes i fun f hf => hi f (hsub hf)⟩

end SameOutside

namespace Field

variable {f : Field} {fields : List Field} {record stored : Bytes} {value d : Decimal} {n : Int}

theorem bytes_eq_ok_iff {content : Bytes} :
    f.bytes record = .ok content ↔ record.slice? f.offset f.length = some content := by
  unfold Field.bytes
  split
  · rename_i b hb
    rw [hb, Except.ok.injEq, Option.some.injEq]
  · rename_i hnone
    rw [hnone]
    simp only [reduceCtorEq]

theorem exists_bytes_iff : (∃ content, f.bytes record = .ok content) ↔ f.stop ≤ record.length := by
  simp only [bytes_eq_ok_iff]
  rw [← Option.isSome_iff_exists, Option.isSome_iff_ne_none, Ne, Bytes.slice?_eq_none_iff,
    Nat.not_lt]
  rfl

theorem bytes_eq_error {fault : Fault} (h : f.bytes record = .error fault) :
    record.length < f.stop ∧ fault = f.tooShort record := by
  unfold Field.bytes at h
  split at h
  · cases h
  · rename_i hnone
    exact ⟨Bytes.slice?_eq_none_iff.1 hnone, (Except.error.inj h).symm⟩

theorem decimal_eq_ok_iff :
    f.decimal record = .ok d ↔ ∃ content, f.bytes record = .ok content ∧ f.decode content = .ok d :=
  bind_eq_ok_iff

/-- A numeric field reads integers only. -/
theorem reads_truncate (hnumeric : f.format.isNumeric = true) (h : f.decimal record = .ok d) :
    f.Reads record d.truncate := by
  obtain ⟨content, _, hdecode⟩ := decimal_eq_ok_iff.1 h
  exact ⟨d, h, isInteger_decode hnumeric hdecode⟩

theorem bytes_congr {a b : Bytes} (hlength : a.length = b.length)
    (h : ∀ i, f.Covers i → a[i]? = b[i]?) : f.bytes a = f.bytes b := by
  unfold Field.bytes tooShort
  rw [Bytes.slice?_congr hlength h, hlength]

/-- A field reads its own bytes only. -/
theorem decimal_congr {a b : Bytes} (hlength : a.length = b.length)
    (h : ∀ i, f.Covers i → a[i]? = b[i]?) : f.decimal a = f.decimal b := by
  unfold Field.decimal
  rw [bytes_congr hlength h]

/-- Changes in other fields do not change what a field reads. -/
theorem Reads.of_sameOutside {a b : Bytes} (h : SameOutside fields a b)
    (hdisjoint : ∀ g ∈ fields, f.Disjoint g) (hread : f.Reads b n) : f.Reads a n := by
  have hdecimal : f.decimal a = f.decimal b :=
    decimal_congr h.length fun i hi => h.bytes i fun g hg hgi => hdisjoint g hg i ⟨hi, hgi⟩
  unfold Reads at hread ⊢
  rwa [hdecimal]

/-- A numeric field passes its check if there is an integer in it. -/
theorem validate_eq_ok_iff (hnumeric : f.format.isNumeric = true) :
    f.validate record = .ok () ↔ ∃ n, f.Reads record n := by
  unfold Field.validate
  rw [if_pos hnumeric, bind_eq_ok_iff]
  constructor
  · rintro ⟨d, hd, _⟩
    exact ⟨_, reads_truncate hnumeric hd⟩
  · rintro ⟨n, d, hd, _⟩
    exact ⟨d, hd, rfl⟩

/-- **A store puts what the field encodes in its place, or changes nothing.** -/
theorem run_store (f : Field) (record : Bytes) (value : Decimal) :
    (f.store value).run record =
      match f.bytes record, f.encode value with
      | .error fault, _ => .error fault record
      | .ok _, .ok content => .ok () (record.splice f.offset content)
      | .ok _, .error fault => .error fault record := by
  cases hbytes : f.bytes record with
  | error fault => simp only [store, inPlace, EStateM.run, hbytes]
  | ok content =>
    have hslice := bytes_eq_ok_iff.1 hbytes
    have hwidth : (f.write value).fresh content.length = f.encode value := by
      rw [encode, Bytes.length_of_slice? hslice]
    have hwrite : f.write value content = Writer.overwrite (f.write value).fresh content :=
      congrFun (write_eq f value) content
    cases hencode : f.encode value with
    | ok written =>
      simp only [Writer.overwrite, hwidth, hencode] at hwrite
      simp only [store, inPlace, EStateM.run, hbytes, hwrite]
    | error fault =>
      simp only [Writer.overwrite, hwidth, hencode] at hwrite
      simp only [store, inPlace, EStateM.run, hbytes, hwrite, Bytes.splice_slice? hslice]

theorem run_store_eq_ok_iff : (f.store value).run record = .ok () stored ↔
    f.stop ≤ record.length ∧
      ∃ content, f.encode value = .ok content ∧ stored = record.splice f.offset content := by
  rw [run_store, ← exists_bytes_iff]
  cases f.bytes record with
  | error fault => simp only [reduceCtorEq, exists_false, false_and]
  | ok old =>
    cases f.encode value with
    | error fault => simp only [reduceCtorEq, false_and, exists_false, and_false]
    | ok content =>
      simp only [EStateM.Result.ok.injEq, Except.ok.injEq, exists_eq', true_and, exists_eq_left']
      exact eq_comm

/-- A store replaces the bytes of the field and leaves all others as they were. -/
theorem exists_content_of_store (hnumeric : f.format.isNumeric = true)
    (h : (f.store value).run record = .ok () stored) :
    ∃ content, f.encode value = .ok content ∧ f.bytes stored = .ok content ∧
      SameOutside [f] stored record := by
  obtain ⟨hstop, content, hencode, rfl⟩ := run_store_eq_ok_iff.1 h
  have hlength : content.length = f.length := (decode_encode hnumeric hencode).length
  have hfit : f.offset + content.length ≤ record.length := by
    rw [hlength]
    exact hstop
  refine ⟨content, hencode, bytes_eq_ok_iff.2 ?_, Bytes.length_splice hfit, ?_⟩
  · rw [← hlength]
    exact Bytes.slice?_splice hfit
  · intro i hi
    have hoff : ¬ f.Covers i := hi f (List.mem_singleton.2 rfl)
    unfold Covers stop at hoff
    rw [← hlength] at hoff
    exact Bytes.getElem?_splice_outside (by omega) hoff

/-- **A store puts a number into its field and leaves all other bytes as they were.** -/
theorem store_eq_ok (hnumeric : f.format.isNumeric = true)
    (h : (f.store value).run record = .ok () stored) :
    SameOutside [f] stored record ∧ f.Reads stored value.truncate := by
  obtain ⟨content, hencode, hbytes, hsame⟩ := exists_content_of_store hnumeric h
  obtain ⟨_, d, hd, hinteger⟩ := decode_encode hnumeric hencode
  exact ⟨hsame, d, decimal_eq_ok_iff.2 ⟨content, hbytes, hd⟩, hinteger⟩

/-- A store does not change what another field reads. -/
theorem Reads.of_store {g : Field} (hnumeric : f.format.isNumeric = true) (hdisjoint : f.Disjoint g)
    (hstore : (f.store value).run record = .ok () stored) (hread : g.Reads record n) :
    g.Reads stored n := by
  refine hread.of_sameOutside (store_eq_ok hnumeric hstore).1 fun f' hf' i hi => ?_
  rw [List.mem_singleton.1 hf'] at hi
  exact hdisjoint i ⟨hi.2, hi.1⟩

/-- **A store that fails leaves the record as it was.** It fails because the field is not in the
record or, if it is, for the size of the number. -/
theorem store_eq_error {fault : Fault} (hnumeric : f.format.isNumeric = true)
    (h : (f.store value).run record = .error fault stored) :
    stored = record ∧ fault = if record.length < f.stop then f.tooShort record
      else .overflow value.toText f.length f.format := by
  rw [run_store] at h
  cases hbytes : f.bytes record with
  | error e =>
    obtain ⟨hshort, htooShort⟩ := bytes_eq_error hbytes
    rw [hbytes] at h
    cases h
    exact ⟨rfl, by rw [if_pos hshort, htooShort]⟩
  | ok content =>
    have hstop : ¬ record.length < f.stop := Nat.not_lt.2 (exists_bytes_iff.1 ⟨content, hbytes⟩)
    cases hencode : f.encode value with
    | ok encoded =>
      rw [hbytes, hencode] at h
      cases h
    | error e =>
      rw [hbytes, hencode] at h
      cases h
      exact ⟨rfl, by rw [if_neg hstop, encode_eq_error hnumeric hencode]⟩

/-- A store into a numeric field of the record fails only for the size of the number. -/
theorem isOverflow_of_store {fault : Fault} (hnumeric : f.format.isNumeric = true)
    (hread : f.Reads record n) (h : (f.store value).run record = .error fault stored) :
    SumRule.isOverflow fault = true := by
  obtain ⟨d, hd, _⟩ := hread
  obtain ⟨content, hcontent, _⟩ := decimal_eq_ok_iff.1 hd
  have hstop : ¬ record.length < f.stop := Nat.not_lt.2 (exists_bytes_iff.1 ⟨content, hcontent⟩)
  rw [(store_eq_error hnumeric h).2, if_neg hstop]
  rfl

end Field

end CardSort
