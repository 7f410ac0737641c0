import CardSort.Proofs.Field.Canonical

/-!
# Decoding never overflows

The widest field of each numeric format holds an integer below `10 ^ 28`, and decimals go further.
So a field of a declared width decodes to an integer of its range, or it is not well-formed in its
format; its number is never too large.

* `Reading` — what comes out of a codec: an integer of a range, or a fault that is not its size.
* `Zoned.reading_decode`, `Packed.reading_decode`, `Binary.exists_decodeSigned`,
  `Binary.exists_decodeUnsigned` — what each codec reads in a field of a declared width.
* `Field.DeclaredNumber` — the numeric fields that can be declared.
* `Field.DeclaredNumber.reading_decode` — **such a field reads an integer of its range, or bytes
  that are no number**.
-/

set_option autoImplicit false

namespace CardSort

/-- What comes out of a codec that never overflows: an integer of the range, or a fault of the
bytes. -/
inductive Reading (range : Int → Prop) : Except CodecFault Decimal → Prop where
  | number {d : Decimal} {n : Int} (integer : d.IsInteger n) (mem : range n) :
    Reading range (.ok d)
  | invalid {fault : CodecFault} (small : ∀ value width, fault ≠ .overflow value width) :
    Reading range (.error fault)

/-! ## Zoned decimals -/

namespace Zoned

variable {enc : Encoding} {bytes : Bytes} {fault : CodecFault}

theorem digitsFrom_ne_overflow {acc : Nat} (h : digitsFrom acc bytes = .error fault)
    (value : String) (width : Nat) : fault ≠ .overflow value width := by
  induction bytes generalizing acc with
  | nil => cases h
  | cons b rest ih =>
    simp only [digitsFrom] at h
    split at h
    · cases h
      simp
    · exact ih h

/-- A zoned decimal of at most 28 digits is read as a number of so many digits. -/
theorem reading_decode (enc : Encoding) (hwidth : bytes.length ≤ 28) :
    Reading (fun n => n.natAbs < 10 ^ bytes.length) (decode enc bytes) := by
  cases hdigits : digitsFrom 0 bytes with
  | error fault =>
    have hdecode : decode enc bytes = .error fault := by rw [decode, hdigits]; rfl
    rw [hdecode]
    exact .invalid (digitsFrom_ne_overflow hdigits)
  | ok magnitude =>
    have hlt := magnitude_lt hdigits
    have hrange : 10 ^ bytes.length ≤ 10 ^ 28 := Nat.pow_le_pow_right (by decide) hwidth
    have habs : (if isNegative enc bytes then -(magnitude : Int) else magnitude).natAbs =
        magnitude := by
      split <;> omega
    obtain ⟨d, hd, hinteger⟩ := Accumulator.exists_toDecimal
      (n := if isNegative enc bytes then -(magnitude : Int) else magnitude) (by omega)
    rw [decode, hdigits, ok_bind, hd]
    exact .number hinteger (by rw [habs]; exact hlt)

end Zoned

/-! ## Packed decimals -/

namespace Packed

variable {bytes : Bytes} {fault : CodecFault}

theorem push_ne_overflow {acc nibble : Nat} {b : UInt8} (h : push acc nibble b = .error fault)
    (value : String) (width : Nat) : fault ≠ .overflow value width := by
  unfold push at h
  split at h
  · cases h
    simp
  · cases h

theorem isNegativeSign_ne_overflow {nibble : Nat} (h : isNegativeSign nibble = .error fault)
    (value : String) (width : Nat) : fault ≠ .overflow value width := by
  unfold isNegativeSign at h
  split at h
  · cases h
  split at h
  · cases h
  · cases h
    simp

theorem valueFrom_ne_overflow {acc : Nat} (h : valueFrom acc bytes = .error fault)
    (value : String) (width : Nat) : fault ≠ .overflow value width := by
  induction bytes generalizing acc with
  | nil => cases h
  | cons b rest ih =>
    cases rest with
    | nil =>
      rcases bind_eq_error_iff.1 h with h | ⟨_, _, h⟩
      · exact push_ne_overflow h value width
      rcases bind_eq_error_iff.1 h with h | ⟨_, _, h⟩
      · exact isNegativeSign_ne_overflow h value width
      · cases h
    | cons c rest =>
      rw [valueFrom_cons (List.cons_ne_nil c rest)] at h
      rcases bind_eq_error_iff.1 h with h | ⟨_, _, h⟩
      · exact push_ne_overflow h value width
      rcases bind_eq_error_iff.1 h with h | ⟨_, _, h⟩
      · exact push_ne_overflow h value width
      · exact ih h

theorem natAbs_value_lt {n : Int} (hne : bytes ≠ []) (h : valueFrom 0 bytes = .ok n) :
    n.natAbs < 10 ^ (2 * bytes.length - 1) := by
  obtain ⟨ds, last, negative, -, hnibbles, hten, -, hn⟩ := valueFrom_eq_ok hne h
  have hlt : Positional.valueFrom 10 0 ds < 10 ^ (2 * bytes.length - 1) := by
    rw [← length_digits hnibbles]
    exact Positional.value_lt hten
  rw [hn]
  split <;> omega

/-- A packed decimal of at most 14 bytes is read as a number of its digits. -/
theorem reading_decode (hne : bytes ≠ []) (hwidth : bytes.length ≤ 14) :
    Reading (fun n => n.natAbs < 10 ^ (2 * bytes.length - 1)) (decode bytes) := by
  cases hvalue : valueFrom 0 bytes with
  | error fault =>
    have hdecode : decode bytes = .error fault := by rw [decode, hvalue]; rfl
    rw [hdecode]
    exact .invalid (valueFrom_ne_overflow hvalue)
  | ok n =>
    have hlt := natAbs_value_lt hne hvalue
    have hrange : 10 ^ (2 * bytes.length - 1) ≤ 10 ^ 28 :=
      Nat.pow_le_pow_right (by decide) (by omega)
    obtain ⟨d, hd, hinteger⟩ := Accumulator.exists_toDecimal (n := n) (by omega)
    rw [decode, hvalue, ok_bind, hd]
    exact .number hinteger hlt

end Packed

/-! ## Binary integers -/

namespace Binary

variable {bytes : Bytes}

/-- At most eight bytes are read as their unsigned value. -/
theorem exists_decodeUnsigned (hwidth : bytes.length ≤ 8) :
    ∃ d, decodeUnsigned bytes = .ok d ∧ d.IsInteger (unsigned bytes) := by
  have hsmall := unsigned_lt_of_length_le hwidth
  exact Accumulator.exists_toDecimal (by omega)

/-- At most eight bytes are read as their value in two's complement. -/
theorem exists_decodeSigned (hne : bytes ≠ []) (hwidth : bytes.length ≤ 8) :
    ∃ d, decodeSigned bytes = .ok d ∧ d.IsInteger (signed bytes) := by
  have hsmall := natAbs_signed_lt hne hwidth
  exact Accumulator.exists_toDecimal (by omega)

theorem unsigned_bounds (bytes : Bytes) :
    0 ≤ (unsigned bytes : Int) ∧ (unsigned bytes : Int) < 2 ^ (8 * bytes.length) := by
  have hlt := Int.ofNat_lt.2 (unsigned_lt bytes)
  rw [Int.natCast_pow] at hlt
  rw [pow_bits]
  exact ⟨Int.natCast_nonneg _, hlt⟩

end Binary

/-! ## Declared fields -/

namespace Field

/-- A numeric field that can be declared. -/
structure DeclaredNumber (f : Field) : Prop where
  numeric : f.format.isNumeric = true
  declared : ∃ position, Field.of position f.length f.format f.encoding = .ok f

variable {f : Field} {record content : Bytes} {n : Int} {d : Decimal}

theorem DeclaredNumber.length_pos (hf : f.DeclaredNumber) : 0 < f.length := by
  obtain ⟨position, hof⟩ := hf.declared
  exact (of_eq_ok hof).2.1

theorem DeclaredNumber.length_le (hf : f.DeclaredNumber) {maximum : Nat}
    (hmax : f.format.maxLength? = some maximum) : f.length ≤ maximum := by
  obtain ⟨position, hof⟩ := hf.declared
  exact (of_eq_ok hof).2.2 maximum hmax

/-- A number of a declared field has at most 28 digits. -/
theorem DeclaredNumber.natAbs_lt (hf : f.DeclaredNumber) (h : f.Represents n) :
    n.natAbs < 10 ^ (28 : Nat) := by
  have hpositive := hf.length_pos
  have hle {maximum : Nat} : f.format.maxLength? = some maximum → f.length ≤ maximum :=
    hf.length_le
  unfold Represents at h
  cases hformat : f.format with
  | zd =>
    simp only [hformat] at h hle
    exact Nat.lt_of_lt_of_le h (Nat.pow_le_pow_right (by decide) (hle rfl))
  | pd =>
    simp only [hformat] at h hle
    have hwidth : f.length ≤ 14 := hle rfl
    exact Nat.lt_of_lt_of_le h (Nat.pow_le_pow_right (by decide) (by omega))
  | fi =>
    simp only [hformat] at h hle
    have hwidth : f.length ≤ 8 := hle rfl
    have hbits : 8 * f.length - 1 ≤ 63 := by omega
    have hrange : (2 : Int) ^ (8 * f.length - 1) ≤ 2 ^ 63 :=
      Positional.pow_le_pow 2 (by decide) hbits
    omega
  | bi =>
    simp only [hformat] at h hle
    have hwidth : f.length ≤ 8 := hle rfl
    have hbits : 8 * f.length ≤ 64 := by omega
    have hrange : (2 : Int) ^ (8 * f.length) ≤ 2 ^ 64 :=
      Positional.pow_le_pow 2 (by decide) hbits
    omega
  | ch =>
    simp only [hformat] at h
  | ss =>
    simp only [hformat] at h

/-- **A declared field reads an integer of its range, or bytes that are no number.** -/
theorem DeclaredNumber.reading_decode (hf : f.DeclaredNumber)
    (hlength : content.length = f.length) :
    ∃ outcome, Reading f.Represents outcome ∧ f.decode content = outcome.mapError f.codecFault := by
  have hpositive := hf.length_pos
  have hnumeric := hf.numeric
  have hne : content ≠ [] := by
    rintro rfl
    rw [List.length_nil] at hlength
    omega
  have hwidth {maximum : Nat} : f.format.maxLength? = some maximum → content.length ≤ maximum := by
    rw [hlength]
    exact hf.length_le
  unfold Field.decode Represents
  cases hformat : f.format with
  | zd =>
    simp only [hformat] at hwidth ⊢
    rw [← hlength]
    exact ⟨_, Zoned.reading_decode f.encoding (hwidth rfl), rfl⟩
  | pd =>
    simp only [hformat] at hwidth ⊢
    rw [← hlength]
    exact ⟨_, Packed.reading_decode hne (hwidth rfl), rfl⟩
  | fi =>
    simp only [hformat] at hwidth ⊢
    rw [← hlength]
    obtain ⟨d, hd, hinteger⟩ := Binary.exists_decodeSigned hne (hwidth rfl)
    exact ⟨_, .number hinteger (Binary.signed_bounds hne), by rw [hd]⟩
  | bi =>
    simp only [hformat] at hwidth ⊢
    rw [← hlength]
    obtain ⟨d, hd, hinteger⟩ := Binary.exists_decodeUnsigned (hwidth rfl)
    exact ⟨_, .number hinteger (Binary.unsigned_bounds content), by rw [hd]⟩
  | ch =>
    rw [hformat] at hnumeric
    cases hnumeric
  | ss =>
    rw [hformat] at hnumeric
    cases hnumeric

/-- A record gives a declared field an integer of its range, is too short for the field, or holds
no number in it. -/
theorem DeclaredNumber.decimal_cases (hf : f.DeclaredNumber) (record : Bytes) :
    (∃ d n, f.decimal record = .ok d ∧ d.IsInteger n ∧ f.Represents n) ∨
      (record.length < f.stop ∧ f.decimal record = .error (f.tooShort record)) ∨
      (f.stop ≤ record.length ∧ ∃ fault, (∀ value width, fault ≠ .overflow value width) ∧
        f.decimal record = .error (.invalidNumber 0 f.position (.codec f.format fault))) := by
  cases hbytes : f.bytes record with
  | error e =>
    obtain ⟨hshort, rfl⟩ := bytes_eq_error hbytes
    refine .inr (.inl ⟨hshort, ?_⟩)
    rw [decimal, hbytes]
    rfl
  | ok content =>
    have hlength : content.length = f.length := Bytes.length_of_slice? (bytes_eq_ok_iff.1 hbytes)
    have hdecimal : f.decimal record = f.decode content := by rw [decimal, hbytes, ok_bind]
    obtain ⟨outcome, hreading, hdecode⟩ := hf.reading_decode hlength
    rw [hdecimal, hdecode]
    cases hreading with
    | number hinteger hmem => exact .inl ⟨_, _, rfl, hinteger, hmem⟩
    | @invalid fault hsmall =>
      refine .inr (.inr ⟨exists_bytes_iff.1 ⟨content, hbytes⟩, fault, hsmall, ?_⟩)
      cases fault with
      | overflow value width => exact absurd rfl (hsmall value width)
      | badDigit nibble byte => rfl
      | badSign nibble => rfl

/-- What a declared field reads is an integer of its range. -/
theorem DeclaredNumber.reads_represents (hf : f.DeclaredNumber) (h : f.decimal record = .ok d) :
    ∃ n, d.IsInteger n ∧ f.Represents n := by
  rcases hf.decimal_cases record with
    ⟨d', n, hd, hinteger, hrange⟩ | ⟨-, herror⟩ | ⟨-, _, -, herror⟩
  · cases h.symm.trans hd
    exact ⟨n, hinteger, hrange⟩
  · cases h.symm.trans herror
  · cases h.symm.trans herror

end Field

end CardSort
