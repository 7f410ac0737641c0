import CardSort.Filter
import CardSort.Proofs.Key.Binary

/-!
# Numbers of hexadecimal constants

A hexadecimal constant is read byte by byte, and the number is checked on its way: it must stay in
128 bits, fit the same bits under a sign, and make a decimal of 96 bits. Together the checks are one
bound on the number at the end, however many zeros stand in front of it.

* `Operand.hexRegisters?` — the number with each check where it is made;
  `Operand.hexRegisters?_eq` says that one check behind each byte and one at the end do the same.
* `Operand.appendBytes?_eq` — a number that grows too large stays too large.
* `Operand.hexValue?_eq` — **the bound is that of a decimal**.
* `Condition.evaluate_binary_eq_hex` — a binary field equals a constant of its width exactly if it
  holds its bytes.
* `Operand.hexValue?_bigEndian` — **the number of a hexadecimal constant**.
-/

set_option autoImplicit false

namespace CardSort

namespace Binary

/-- Bytes of one width are known by their number. -/
theorem unsigned_inj {x y : Bytes} (h : x.length = y.length) :
    unsigned x = unsigned y ↔ x = y := by
  refine ⟨fun he => ?_, fun he => he ▸ rfl⟩
  have hx := Positional.digits_bytes x
  have hy := Positional.digits_bytes y
  have hvalue : Positional.value 256 (x.map UInt8.toNat) =
      Positional.value 256 (y.map UInt8.toNat) := he
  rw [← hx, ← hy, h, hvalue]

end Binary

/-! ## Reading byte by byte -/

namespace Operand

variable {n : Nat} {bytes : Bytes} {d : Decimal}

/-- A number in a register of so many bits, `none` if they do not hold it. -/
def register? (bits n : Nat) : Option Nat := if n < 2 ^ bits then some n else none

/-- One more byte in a register of 128 bits: the number is moved up and the byte is added, and
either step may leave the register. -/
def pushByte? (n : Nat) (b : UInt8) : Option Nat := do
  let moved ← register? 128 (n * 256)
  register? 128 (moved + b.toNat)

/-- The number of a hexadecimal constant with each check where it is made: byte by byte in 128 bits,
in the 127 bits beside a sign, and in the 96 bits of a decimal. -/
def hexRegisters? (bytes : Bytes) : Option Decimal := do
  let n ← bytes.foldlM pushByte? 0
  let n ← register? 127 n
  Decimal.ofInt? n

/-- The low bits that moving up leaves free hold any byte. -/
theorem pushByte?_eq (n : Nat) (b : UInt8) :
    pushByte? n b = register? 128 (256 * n + b.toNat) := by
  have hb := b.toNat_lt
  by_cases hmoved : n * 256 < 2 ^ 128
  · rw [pushByte?, register?, if_pos hmoved, Option.bind_eq_bind, Option.bind_some, Nat.mul_comm]
  · have hsum : ¬ 256 * n + b.toNat < 2 ^ 128 := by omega
    rw [pushByte?, register?, register?, if_neg hmoved, if_neg hsum]
    rfl

theorem foldlM_pushByte? (n : Nat) (bytes : Bytes) :
    bytes.foldlM pushByte? n = appendBytes? n bytes := by
  induction bytes generalizing n with
  | nil => rfl
  | cons b rest ih =>
    rw [List.foldlM_cons, pushByte?_eq, register?, appendBytes?]
    split
    · rw [Option.bind_eq_bind, Option.bind_some, ih]
    · rfl

/-- The bytes that are still to come make a number no smaller. -/
theorem le_valueFrom (n : Nat) (ds : List Nat) : n ≤ Positional.valueFrom 256 n ds := by
  rw [Positional.valueFrom_eq]
  exact Nat.le_trans (Nat.le_mul_of_pos_right n (Nat.pow_pos (by decide))) (Nat.le_add_right _ _)

/-- **A number that grows too large stays too large**, so the checks on the way amount to one on the
number at the end. -/
theorem appendBytes?_eq (h : n < 2 ^ (128 : Nat)) :
    appendBytes? n bytes = register? 128 (Positional.valueFrom 256 n (bytes.map UInt8.toNat)) := by
  induction bytes generalizing n with
  | nil => exact (if_pos h).symm
  | cons b rest ih =>
    rw [appendBytes?, List.map_cons, Positional.valueFrom, Nat.mul_comm n 256]
    by_cases hnext : 256 * n + b.toNat < 2 ^ (128 : Nat)
    · exact (if_pos hnext).trans (ih hnext)
    · have hle := le_valueFrom (256 * n + b.toNat) (rest.map UInt8.toNat)
      have hlarge :
          ¬ Positional.valueFrom 256 (256 * n + b.toNat) (rest.map UInt8.toNat) < 2 ^ 128 :=
        fun hsmall => hnext (Nat.lt_of_le_of_lt hle hsmall)
      exact (if_neg hnext).trans (if_neg hlarge).symm

theorem appendBytes?_zero (bytes : Bytes) :
    appendBytes? 0 bytes = register? 128 (Binary.unsigned bytes) :=
  appendBytes?_eq (by decide)

/-- **The number of a constant is its big-endian reading, if that is a decimal.** -/
theorem hexValue?_eq (bytes : Bytes) :
    hexValue? bytes = Decimal.ofInt? (Binary.unsigned bytes) := by
  rw [hexValue?, appendBytes?_zero, register?]
  split
  · rfl
  · rename_i hlarge
    rw [Option.bind_none, eq_comm, Decimal.ofInt?_eq_none_iff]
    omega

/-- The checks of the three registers are those that are made. -/
theorem hexRegisters?_eq (bytes : Bytes) : hexRegisters? bytes = hexValue? bytes := by
  rw [hexRegisters?, foldlM_pushByte?, hexValue?, appendBytes?_zero]
  congr 1
  funext n
  rw [register?]
  split
  · rfl
  · rename_i hlarge
    rw [Option.bind_eq_bind, Option.bind_none, eq_comm, Decimal.ofInt?_eq_none_iff]
    omega

/-- Up to eight bytes make a number, which binary fields read in them as well. -/
theorem exists_hexValue? (hwidth : bytes.length ≤ 8) :
    ∃ d, hexValue? bytes = some d ∧ Binary.decodeUnsigned bytes = .ok d ∧
      d.IsInteger (Binary.unsigned bytes) := by
  obtain ⟨d, hdecode, hinteger⟩ := Binary.exists_decodeUnsigned hwidth
  have hsmall := Binary.unsigned_lt_of_length_le hwidth
  have hwrap : Accumulator.wrap (Binary.unsigned bytes) = Binary.unsigned bytes :=
    Accumulator.wrap_of_small (by omega)
  have hvalue := Accumulator.ofInt?_of_toDecimal hdecode
  rw [hwrap] at hvalue
  exact ⟨d, (hexValue?_eq bytes).trans hvalue, hdecode, hinteger⟩

end Operand

/-! ## Binary fields against constants -/

theorem Field.decimal_of_decodeUnsigned {f : Field} {record content : Bytes} {d : Decimal}
    (hformat : f.format = .bi) (h : f.bytes record = .ok content)
    (hdecode : Binary.decodeUnsigned content = .ok d) : f.decimal record = .ok d := by
  refine decimal_eq_ok_iff.2 ⟨content, h, ?_⟩
  rw [decode, hformat, hdecode]
  rfl

/-- **A binary field equals a constant of its width exactly if it holds its bytes.** A record
without the field fails the comparison as it fails the field. -/
theorem Condition.evaluate_binary_eq_hex {f : Field} {bytes : Bytes} (hformat : f.format = .bi)
    (hlength : f.length = bytes.length) (hwidth : bytes.length ≤ 8) (encoding : Encoding)
    (record : Bytes) :
    (Condition.mk (.field f) .eq (.hex bytes) encoding).evaluate record =
      (f.bytes record).map fun content => decide (content = bytes) := by
  have hnumbers : (Condition.mk (.field f) .eq (.hex bytes) encoding).isText = false := by
    simp [Condition.isText, Operand.isTextField, Operand.isConstant, hformat, FieldFormat.isText]
  rw [Condition.evaluate, hnumbers, if_neg Bool.false_ne_true]
  cases hbytes : f.bytes record with
  | error fault =>
    have hdecimal : f.decimal record = .error fault := by rw [Field.decimal, hbytes]; rfl
    rw [Operand.decimal, hdecimal]
    rfl
  | ok content =>
    have hsame : content.length = bytes.length :=
      (Bytes.length_of_slice? (Field.bytes_eq_ok_iff.1 hbytes)).trans hlength
    obtain ⟨d, -, hdecode, hfield⟩ := Operand.exists_hexValue? (hsame ▸ hwidth)
    obtain ⟨e, hvalue, -, hconstant⟩ := Operand.exists_hexValue? hwidth
    have htest : decide (d.compare e = .eq) = decide (content = bytes) := by
      rw [hfield.compare_eq hconstant, compare_natCast, decide_eq_decide, Nat.compare_eq_eq,
        Binary.unsigned_inj hsame]
    rw [Operand.decimal, Operand.decimal, Field.decimal_of_decodeUnsigned hformat hbytes hdecode,
      hvalue]
    exact congrArg Except.ok htest

namespace Operand

/-- **The number of a hexadecimal constant.** It is the big-endian reading of the bytes, leading
zeros or not, and there is one exactly if that reading is at most `2 ^ 96 - 1`; the three registers
through which it passes refuse nothing else. For up to eight bytes it is the number of a binary
field that holds them, so a declared field of their width satisfies `EQ` with the constant exactly
if it holds its bytes. -/
theorem hexValue?_bigEndian (bytes : Bytes) :
    hexRegisters? bytes = hexValue? bytes ∧
      (∀ d, hexValue? bytes = some d ↔
        d.minus = false ∧ d.magnitude = Binary.unsigned bytes ∧ d.scale = 0) ∧
      ((∃ d, hexValue? bytes = some d) ↔ Binary.unsigned bytes ≤ 2 ^ (96 : Nat) - 1) ∧
      (bytes.length ≤ 8 → ∃ d, hexValue? bytes = some d ∧ Binary.decodeUnsigned bytes = .ok d ∧
        ∀ (f : Field) (record : Bytes), f.format = .bi → f.bytes record = .ok bytes →
          f.decimal record = .ok d) ∧
      ∀ position encoding f, Field.of position bytes.length .bi encoding = .ok f →
        ∀ display record,
          (Condition.mk (.field f) .eq (.hex bytes) display).evaluate record = .ok true ↔
            f.bytes record = .ok bytes := by
  refine ⟨hexRegisters?_eq bytes, fun d => ?_, ?_, fun hwidth => ?_, ?_⟩
  · rw [hexValue?_eq, Decimal.ofInt?_natCast_eq_some_iff]
  · rw [hexValue?_eq, ← Option.ne_none_iff_exists', Ne, Decimal.ofInt?_eq_none_iff]
    omega
  · obtain ⟨d, hd, hdecode, -⟩ := exists_hexValue? hwidth
    exact ⟨d, hd, hdecode, fun f record hformat h =>
      Field.decimal_of_decodeUnsigned hformat h hdecode⟩
  · intro position encoding f hof display record
    obtain ⟨rfl, -, hmax⟩ := Field.of_eq_ok hof
    rw [Condition.evaluate_binary_eq_hex rfl rfl (hmax 8 rfl), map_eq_ok_iff]
    constructor
    · rintro ⟨content, hcontent, htrue⟩
      rw [hcontent, of_decide_eq_true htrue]
    · intro h
      exact ⟨bytes, h, decide_eq_true rfl⟩

/-- `X'0001'` against a field of two bytes behind a letter. -/
theorem hexValue?_bigEndian_two_bytes :
    let bytes : Bytes := [0x00, 0x01]
    let f : Field := ⟨1, 2, .bi, .ascii⟩
    bytes.length ≤ 8 ∧
      (∃ d, hexValue? bytes = some d ∧ f.decimal [0x41, 0x00, 0x01] = .ok d) ∧
      Field.of 2 bytes.length .bi .ascii = .ok f ∧
      (Condition.mk (.field f) .eq (.hex bytes) .ascii).evaluate [0x41, 0x00, 0x01] = .ok true ∧
      (Condition.mk (.field f) .eq (.hex bytes) .ascii).evaluate [0x41, 0x01, 0x00] ≠ .ok true := by
  intro bytes f
  have hwidth : bytes.length ≤ 8 := by decide
  have hof : Field.of 2 bytes.length .bi .ascii = .ok f := rfl
  obtain ⟨-, -, -, hnumber, hcondition⟩ := hexValue?_bigEndian bytes
  obtain ⟨d, hd, -, hdecimal⟩ := hnumber hwidth
  refine ⟨hwidth, ⟨d, hd, hdecimal f _ rfl rfl⟩, hof, ?_, ?_⟩
  · exact (hcondition 2 .ascii f hof .ascii _).2 rfl
  · intro h
    have hbytes := (hcondition 2 .ascii f hof .ascii [0x41, 0x01, 0x00]).1 h
    exact absurd hbytes (by decide)

/-- Leading zeros do not count: twenty of them in front of the byte `05`. -/
example : (hexValue? (List.replicate 20 0x00 ++ [0x05])).map Decimal.magnitude = some 5 := by decide

end Operand

end CardSort
