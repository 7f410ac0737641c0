import CardSort.Proofs.Field.Decoding
import CardSort.Proofs.Key.Order

/-!
# Binary keys order like bytes

Binary keys are compared as numbers, but the numbers of fields of one width are in the order of
their bytes: unsigned ones as they stand, and signed ones after the top bit of the first byte has
been flipped, which moves every number up by half of the range.

* `Binary.flipTop` — the bytes with the top bit of the first one flipped.
* `Binary.compare_unsigned` — unsigned numbers of one width are in the order of their bytes.
* `Binary.signed_eq_flipTop` — flipping the top bit moves a number up by half of the range.
* `Comparer.compare_binary` — **binary keys order like bytes**.
-/

set_option autoImplicit false

namespace CardSort

/-! ## Comparing numbers -/

theorem compare_natCast (m n : Nat) : compare (m : Int) (n : Int) = compare m n := by
  simp only [Int.compare_eq_ite_lt, Nat.compare_eq_ite_lt, Int.ofNat_lt]

theorem compare_sub_right (m n k : Int) : compare (m - k) (n - k) = compare m n := by
  simp only [Int.compare_eq_ite_lt, Int.sub_lt_sub_right_iff]

/-- Digits decide, and what stands behind them if they tie. -/
theorem compare_digits {m n i j places : Nat} (hi : i < places) (hj : j < places) :
    compare (m * places + i) (n * places + j) = (compare m n).then (compare i j) := by
  rcases Nat.lt_trichotomy m n with hlt | rfl | hgt
  · have hle : (m + 1) * places ≤ n * places := Nat.mul_le_mul_right _ hlt
    rw [Nat.add_mul, Nat.one_mul] at hle
    rw [Nat.compare_eq_lt.2 hlt, Ordering.lt_then, Nat.compare_eq_lt]
    omega
  · rw [Nat.compare_eq_eq.2 rfl, Ordering.eq_then]
    simp only [Nat.compare_eq_ite_lt, Nat.add_lt_add_iff_left]
  · have hle : (n + 1) * places ≤ m * places := Nat.mul_le_mul_right _ hgt
    rw [Nat.add_mul, Nat.one_mul] at hle
    rw [Nat.compare_eq_gt.2 hgt, Ordering.gt_then, Nat.compare_eq_gt]
    omega

namespace Binary

variable {first : UInt8} {rest x y : Bytes}

/-- The bytes with the top bit of the first one flipped. -/
def flipTop : Bytes → Bytes
  | [] => []
  | first :: rest => (first ^^^ 0x80) :: rest

theorem toNat_flip (b : UInt8) : ((b ^^^ 0x80).toNat : Int) =
    if b.toNat < 128 then (b.toNat : Int) + 128 else b.toNat - 128 := by
  have htable : ∀ n < 256, ((UInt8.ofNat n ^^^ 0x80).toNat : Int) =
      if n < 128 then (n : Int) + 128 else n - 128 := by decide +kernel
  have hb := htable b.toNat b.toNat_lt
  rwa [UInt8.ofNat_toNat] at hb

/-- **Unsigned numbers of one width are in the order of their bytes.** -/
theorem compare_unsigned (h : x.length = y.length) :
    compare (unsigned x) (unsigned y) = List.compareLex compare x y := by
  induction x generalizing y with
  | nil =>
    cases y with
    | nil => rfl
    | cons b ys => cases h
  | cons a xs ih =>
    cases y with
    | nil => cases h
    | cons b ys =>
      have hlength : xs.length = ys.length := Nat.succ.inj h
      have hys := unsigned_lt ys
      rw [← hlength] at hys
      rw [unsigned_cons, unsigned_cons, ← hlength, compare_digits (unsigned_lt xs) hys, ih hlength,
        List.compareLex_cons_cons, UInt8.compare_eq_toNat_compare_toNat]

theorem length_flipTop (bytes : Bytes) : (flipTop bytes).length = bytes.length := by
  cases bytes <;> rfl

/-- **Flipping the top bit moves a number up by half of the range.** -/
theorem signed_eq_flipTop (first : UInt8) (rest : Bytes) :
    signed (first :: rest) = unsigned (flipTop (first :: rest)) - 128 * 256 ^ rest.length := by
  have hcast : ((256 ^ rest.length : Nat) : Int) = (256 : Int) ^ rest.length :=
    Int.natCast_pow 256 rest.length
  rw [signed, flipTop, unsigned_cons, unsigned_cons, List.length_cons, Int.pow_succ',
    Int.natCast_add, Int.natCast_add, Int.natCast_mul, Int.natCast_mul, hcast, toNat_flip]
  split
  · rw [Int.add_mul]
    omega
  · rw [Int.sub_mul]
    omega

/-- **Signed numbers of one width are in the order of their bytes with the top bit flipped.** -/
theorem compare_signed (h : x.length = y.length) :
    compare (signed x) (signed y) = List.compareLex compare (flipTop x) (flipTop y) := by
  have hlength : (flipTop x).length = (flipTop y).length := by
    rw [length_flipTop, length_flipTop, h]
  cases x with
  | nil =>
    cases y with
    | nil => rfl
    | cons b ys => cases h
  | cons a xs =>
    cases y with
    | nil => cases h
    | cons b ys =>
      have hrest : xs.length = ys.length := Nat.succ.inj h
      rw [signed_eq_flipTop, signed_eq_flipTop, hrest, compare_sub_right, compare_natCast,
        compare_unsigned hlength]

end Binary

/-! ## Keys -/

namespace Field

variable {f : Field} {record content : Bytes}

/-- A field of unsigned numbers reads the number of its bytes. -/
theorem reads_unsigned (hformat : f.format = .bi) (hwidth : f.length ≤ 8)
    (h : f.bytes record = .ok content) : f.Reads record (Binary.unsigned content) := by
  rw [← Bytes.length_of_slice? (bytes_eq_ok_iff.1 h)] at hwidth
  obtain ⟨d, hd, hinteger⟩ := Binary.exists_decodeUnsigned hwidth
  refine ⟨d, decimal_eq_ok_iff.2 ⟨content, h, ?_⟩, hinteger⟩
  rw [decode, hformat, hd]
  rfl

/-- A field of signed numbers reads the number of its bytes. -/
theorem reads_signed (hformat : f.format = .fi) (hwidth : 0 < f.length ∧ f.length ≤ 8)
    (h : f.bytes record = .ok content) : f.Reads record (Binary.signed content) := by
  rw [← Bytes.length_of_slice? (bytes_eq_ok_iff.1 h)] at hwidth
  obtain ⟨d, hd, hinteger⟩ :=
    Binary.exists_decodeSigned (List.ne_nil_of_length_pos hwidth.1) hwidth.2
  refine ⟨d, decimal_eq_ok_iff.2 ⟨content, h, ?_⟩, hinteger⟩
  rw [decode, hformat, hd]
  rfl

end Field

theorem Collation.compare_native (x y : Bytes) :
    native.compare x y = List.compareLex Ord.compare x y := by
  have hbytes : compareOn UInt8.toNat = Ord.compare := by
    funext a b
    exact (UInt8.compare_eq_toNat_compare_toNat a b).symm
  rw [← hbytes]
  exact Bytes.compareBy_eq_compareLex _ x y

namespace Comparer

variable {f : Field} {collation : Collation} {a b x y : Bytes} {m n : Int}

theorem compare_single (k : SortKey) (collation : Collation) (a b : Bytes) :
    compare ⟨[k], collation⟩ a b = k.compare collation a b := by
  rw [compare, compareKeys, compareKeys, Ordering.then_eq]

/-- A key of numbers is compared as the numbers are. -/
theorem compare_numbers (hnumeric : f.format.isText = false) (ha : f.Reads a m) (hb : f.Reads b n) :
    compare ⟨[⟨f, .ascending⟩], collation⟩ a b = Ord.compare m n := by
  obtain ⟨d, hd, hm⟩ := ha
  obtain ⟨e, he, hn⟩ := hb
  rw [compare_single, SortKey.compare, Direction.apply, SortKey.compareAscending, hnumeric, hd, he,
    if_neg Bool.false_ne_true]
  exact hm.compare_eq hn

/-- A key of characters is compared as its bytes are. -/
theorem compare_characters (htext : f.format.isText = true) (ha : f.bytes a = .ok x)
    (hb : f.bytes b = .ok y) :
    compare ⟨[⟨f, .ascending⟩], .native⟩ a b = List.compareLex Ord.compare x y := by
  rw [compare_single, SortKey.compare, Direction.apply, SortKey.compareAscending, htext, ha, hb,
    if_pos rfl]
  exact Collation.compare_native x y

/-- **Binary keys order like bytes.** Fields of one to eight bytes can be declared at every
position. Records that have one are ordered by it as an unsigned number the way they are ordered by
it as characters without recoding, and as a signed number the way its bytes are ordered once the top
bit of the first one has been flipped. -/
theorem compare_binary {position width : Nat} (hposition : 0 < position)
    (hwidth : 0 < width ∧ width ≤ 8) (hrange : position + width < 2 ^ (64 : Nat))
    (encoding : Encoding) (collation : Collation) {a b : Bytes}
    (ha : position - 1 + width ≤ a.length) (hb : position - 1 + width ≤ b.length) :
    ∃ bi ch fi, Field.of position width .bi encoding = .ok bi ∧
      Field.of position width .ch encoding = .ok ch ∧
      Field.of position width .fi encoding = .ok fi ∧
      compare ⟨[⟨bi, .ascending⟩], collation⟩ a b = compare ⟨[⟨ch, .ascending⟩], .native⟩ a b ∧
      ∃ x y, fi.bytes a = .ok x ∧ fi.bytes b = .ok y ∧
        compare ⟨[⟨fi, .ascending⟩], collation⟩ a b =
          List.compareLex Ord.compare (Binary.flipTop x) (Binary.flipTop y) := by
  have hof (format : FieldFormat)
      (hmax : ∀ maximum, format.maxLength? = some maximum → width ≤ maximum) :
      Field.of position width format encoding = .ok ⟨position - 1, width, format, encoding⟩ :=
    Field.of_eq_ok_iff.2 ⟨⟨hposition, hwidth.1, hrange, hmax⟩, rfl⟩
  have height : ∀ maximum, some 8 = some maximum → width ≤ maximum := by
    rintro _ ⟨⟩
    exact hwidth.2
  refine ⟨_, _, _, hof .bi height, hof .ch (fun _ h => nomatch h), hof .fi height, ?_⟩
  obtain ⟨x, hx⟩ := Field.exists_bytes_iff (f := ⟨position - 1, width, .ch, encoding⟩).2 ha
  obtain ⟨y, hy⟩ := Field.exists_bytes_iff (f := ⟨position - 1, width, .ch, encoding⟩).2 hb
  -- the fields share their bytes, whatever their formats
  have hbytes (format : FieldFormat) {record content : Bytes}
      (h : Field.bytes ⟨position - 1, width, .ch, encoding⟩ record = .ok content) :
      Field.bytes ⟨position - 1, width, format, encoding⟩ record = .ok content :=
    Field.bytes_eq_ok_iff.2 (Field.bytes_eq_ok_iff.1 h)
  have hlength : x.length = y.length :=
    (Bytes.length_of_slice? (Field.bytes_eq_ok_iff.1 hx)).trans
      (Bytes.length_of_slice? (Field.bytes_eq_ok_iff.1 hy)).symm
  constructor
  · have hax := Field.reads_unsigned rfl hwidth.2 (hbytes .bi hx)
    have hby := Field.reads_unsigned rfl hwidth.2 (hbytes .bi hy)
    rw [compare_numbers rfl hax hby, compare_characters rfl hx hy, compare_natCast,
      Binary.compare_unsigned hlength]
  · have hax := Field.reads_signed rfl hwidth (hbytes .fi hx)
    have hby := Field.reads_signed rfl hwidth (hbytes .fi hy)
    refine ⟨x, y, hbytes .fi hx, hbytes .fi hy, ?_⟩
    rw [compare_numbers rfl hax hby, Binary.compare_signed hlength]

/-- Two bytes behind a letter: `00 01` stands in front of `FF FF` as an unsigned number and behind
it as a signed one. -/
theorem compare_binary_two_bytes :
    let a : Bytes := [0x41, 0x00, 0x01]
    let b : Bytes := [0x41, 0xFF, 0xFF]
    compare ⟨[⟨⟨1, 2, .bi, .ascii⟩, .ascending⟩], .native⟩ a b = .lt ∧
      compare ⟨[⟨⟨1, 2, .fi, .ascii⟩, .ascending⟩], .native⟩ a b = .gt := by
  intro a b
  obtain ⟨bi, ch, fi, hbi, hch, hfi, hunsigned, x, y, hx, hy, hsigned⟩ :=
    compare_binary (show 0 < 2 by decide) (show 0 < 2 ∧ 2 ≤ 8 by decide) (by decide) .ascii .native
      (show 2 - 1 + 2 ≤ a.length by decide) (show 2 - 1 + 2 ≤ b.length by decide)
  cases hbi
  cases hch
  cases hfi
  cases hx
  cases hy
  exact ⟨hunsigned.trans (by decide +kernel), hsigned.trans (by decide +kernel)⟩

end Comparer

end CardSort
