import CardSort.Proofs.Field.Range

/-!
# Decoded numbers written back

Readers accept several spellings of a number: unchecked zones, six sign nibbles, signed zeros. A
number that has been read can be written back, and then it stands in the one spelling that writers
use. So bytes survive exactly if they are in that spelling.

* `CanonicalSign` — the sign mark that writers use.
* `Field.Canonical` — the spelling that writers use, for each format.
* `Zoned.exists_encode_of_decode`, `Packed.exists_encode_of_decode`,
  `Binary.encodeSigned_of_decodeSigned`, `Binary.encodeUnsigned_of_decodeUnsigned` — what each
  codec makes of bytes that it has read.
* `Field.encode_decoded` — **a decoded number can be written back, is then read as the same number,
  and stands in the same bytes exactly if these were canonical.**
-/

set_option autoImplicit false

namespace CardSort

open Bytes (highNibble lowNibble ofNibbles)

/-! ## Signs -/

/-- The mark of a sign that stands for plus or for minus, as written for the integer `n`: zero is
not marked negative. -/
structure CanonicalSign (plus minus : Nat) (n : Int) (mark : Nat) : Prop where
  known : mark = plus ∨ mark = minus
  zero : n = 0 → mark ≠ minus

/-- A mark is the one that a writer puts on an integer exactly if it is canonical for it, provided
that readers take it for the sign of the integer. -/
theorem canonicalSign_iff {plus minus mark magnitude : Nat} {negative : Bool} {n : Int}
    (hne : plus ≠ minus) (hplus : mark = plus → negative = false)
    (hminus : mark = minus → negative = true)
    (hn : n = if negative then -(magnitude : Int) else magnitude) :
    mark = (if n < 0 then minus else plus) ↔ CanonicalSign plus minus n mark := by
  constructor
  · intro hmark
    by_cases hneg : n < 0
    · rw [if_pos hneg] at hmark
      exact ⟨.inr hmark, fun hzero => by omega⟩
    · rw [if_neg hneg] at hmark
      refine ⟨.inl hmark, ?_⟩
      intro _ hminus'
      exact hne (hmark.symm.trans hminus')
  · rintro ⟨hknown, hzero⟩
    rcases hknown with hmark | hmark
    · rw [hplus hmark, if_neg Bool.false_ne_true] at hn
      rw [if_neg (by omega)]
      exact hmark
    · rw [hminus hmark, if_pos rfl] at hn
      have hnonzero : n ≠ 0 := fun h => hzero h hmark
      rw [if_pos (by omega)]
      exact hmark

/-- A sign and at most 28 digits come out of the accumulator as they went in. -/
theorem Accumulator.truncate_of_digits {magnitude width : Nat} {negative : Bool} {d : Decimal}
    (hwidth : width ≤ 28) (hlt : magnitude < 10 ^ width)
    (h : toDecimal (if negative then -(magnitude : Int) else magnitude) = .ok d) :
    d.truncate = (if negative then -(magnitude : Int) else magnitude) ∧
      d.truncate.natAbs = magnitude := by
  have hsmall : magnitude < 2 ^ (127 : Nat) := by
    calc magnitude < 10 ^ width := hlt
      _ ≤ 10 ^ 28 := Nat.pow_le_pow_right (by decide) hwidth
      _ < 2 ^ (127 : Nat) := by decide
  have htruncate := truncate_of_toDecimal (by split <;> omega) h
  refine ⟨htruncate, ?_⟩
  rw [htruncate]
  split <;> omega

/-! ## Zoned decimals -/

namespace Zoned

variable {enc : Encoding} {bytes : Bytes} {d : Decimal}

/-- The bytes in which the integer `n` is written: every byte but the last is under the zone of
digits, and the last one under the zone of the sign. -/
def Canonical (enc : Encoding) (bytes : Bytes) (n : Int) : Prop :=
  (∀ b ∈ bytes.dropLast, highNibble b = enc.digitZone) ∧
    ∀ b ∈ bytes.getLast?, CanonicalSign enc.positiveZone enc.negativeZone n (highNibble b)

theorem digitsFrom_eq_ok {acc magnitude : Nat} (h : digitsFrom acc bytes = .ok magnitude) :
    (∀ d ∈ bytes.map lowNibble, d < 10) ∧
      magnitude = Positional.valueFrom 10 acc (bytes.map lowNibble) := by
  induction bytes generalizing acc with
  | nil =>
    cases h
    exact ⟨by simp, rfl⟩
  | cons b rest ih =>
    simp only [digitsFrom] at h
    split at h
    · cases h
    · rename_i hdigit
      obtain ⟨hrest, hmagnitude⟩ := ih h
      refine ⟨?_, hmagnitude⟩
      intro x hx
      rcases List.mem_cons.1 hx with rfl | hx
      · omega
      · exact hrest x hx

theorem magnitude_lt {magnitude : Nat} (h : digitsFrom 0 bytes = .ok magnitude) :
    magnitude < 10 ^ bytes.length := by
  obtain ⟨hten, hmagnitude⟩ := digitsFrom_eq_ok h
  have hvalue := Positional.value_lt hten
  rw [List.length_map] at hvalue
  rw [hmagnitude]
  exact hvalue

theorem isNegative_of_getLast? (enc : Encoding) {b : UInt8} (hb : b ∈ bytes.getLast?) :
    isNegative enc bytes = enc.isNegativeZone (highNibble b) := by
  rw [isNegative, Option.mem_def.1 hb]

theorem ofNibbles_lowNibble_eq_iff {zone : Nat} {b : UInt8} (hzone : zone < 16) :
    ofNibbles zone (lowNibble b) = b ↔ highNibble b = zone := by
  have hlow : lowNibble b < 16 := Nat.mod_lt _ (by decide)
  constructor
  · intro h
    rw [← h]
    exact Bytes.highNibble_ofNibbles hzone hlow
  · rintro rfl
    exact Bytes.ofNibbles_nibbles b

/-- The digits of bytes, put under their zones again, are the bytes if the zones are the same. -/
theorem zoneDigits_lowNibble_eq_iff (enc : Encoding) (negative : Bool) (bytes : Bytes) :
    zoneDigits enc negative (bytes.map lowNibble) = bytes ↔
      (∀ b ∈ bytes.dropLast, highNibble b = enc.digitZone) ∧
        ∀ b ∈ bytes.getLast?,
          highNibble b = if negative then enc.negativeZone else enc.positiveZone := by
  have hdigit : enc.digitZone < 16 := by cases enc <;> decide
  have hsign : (if negative then enc.negativeZone else enc.positiveZone) < 16 := by
    cases negative <;> cases enc <;> decide
  induction bytes with
  | nil => simp [zoneDigits]
  | cons b rest ih =>
    cases rest with
    | nil =>
      simp only [List.map_cons, List.map_nil, zoneDigits, List.cons.injEq, and_true]
      rw [ofNibbles_lowNibble_eq_iff hsign]
      simp
    | cons c rest =>
      have hcons : zoneDigits enc negative ((b :: c :: rest).map lowNibble) =
          ofNibbles enc.digitZone (lowNibble b) ::
            zoneDigits enc negative ((c :: rest).map lowNibble) := rfl
      rw [hcons, List.cons.injEq]
      refine (and_congr (ofNibbles_lowNibble_eq_iff hdigit) ih).trans ?_
      simp [and_assoc]

/-- A zoned decimal that has been read is written back with canonical zones. -/
theorem exists_encode_of_decode (hwidth : bytes.length ≤ 28) (h : decode enc bytes = .ok d) :
    ∃ again, encode enc d bytes.length = .ok again ∧
      (again = bytes ↔ Canonical enc bytes d.truncate) := by
  obtain ⟨magnitude, hdigits, hread⟩ := bind_eq_ok_iff.1 h
  obtain ⟨hten, hmagnitude⟩ := digitsFrom_eq_ok hdigits
  have hlt := magnitude_lt hdigits
  obtain ⟨htruncate, habs⟩ := Accumulator.truncate_of_digits hwidth hlt hread
  have hagain : Positional.digits 10 bytes.length d.truncate.natAbs = bytes.map lowNibble := by
    have hnumeral := Positional.digits_value hten
    rw [List.length_map] at hnumeral
    rw [habs, hmagnitude]
    exact hnumeral
  refine ⟨zoneDigits enc (d.truncate < 0) (bytes.map lowNibble), ?_, ?_⟩
  · rw [encode_eq, hagain]
    exact if_pos (by rw [habs]; exact hlt)
  · rw [zoneDigits_lowNibble_eq_iff]
    refine and_congr_right fun _ => forall₂_congr fun b hb => ?_
    have hsign := isNegative_of_getLast? enc hb
    have hne : enc.positiveZone ≠ enc.negativeZone := by cases enc <;> decide
    simp only [decide_eq_true_eq]
    refine canonicalSign_iff hne (fun hzone => ?_) (fun hzone => ?_) htruncate
    · rw [hsign, hzone]
      cases enc <;> rfl
    · rw [hsign, hzone]
      cases enc <;> rfl

end Zoned

/-! ## Packed decimals -/

namespace Packed

variable {bytes : Bytes} {d : Decimal}

/-- The bytes in which the integer `n` is written: the sign is `C` or `D`. -/
def Canonical (bytes : Bytes) (n : Int) : Prop :=
  ∀ b ∈ bytes.getLast?, CanonicalSign 0xC 0xD n (lowNibble b)

/-- The nibbles of bytes in order. -/
def nibbles (bytes : Bytes) : List Nat := bytes.flatMap fun b => [highNibble b, lowNibble b]

theorem nibbles_cons (b : UInt8) (rest : Bytes) :
    nibbles (b :: rest) = highNibble b :: lowNibble b :: nibbles rest := rfl

theorem length_nibbles (bytes : Bytes) : (nibbles bytes).length = 2 * bytes.length := by
  induction bytes with
  | nil => rfl
  | cons b rest ih =>
    simp only [nibbles_cons, List.length_cons]
    omega

/-- In front of the sign there is one digit less than nibbles. -/
theorem length_digits {ds : List Nat} {sign : Nat} (h : nibbles bytes = ds ++ [sign]) :
    ds.length = 2 * bytes.length - 1 := by
  have hcount := length_nibbles bytes
  rw [h, List.length_append, List.length_singleton] at hcount
  omega

theorem packNibbles_nibbles (bytes : Bytes) : packNibbles (nibbles bytes) = bytes := by
  induction bytes with
  | nil => rfl
  | cons b rest ih => rw [nibbles_cons, packNibbles, ih, Bytes.ofNibbles_nibbles]

theorem nibbles_packNibbles {width : Nat} {ns : List Nat} (hlength : ns.length = 2 * width)
    (hns : ∀ x ∈ ns, x < 16) : nibbles (packNibbles ns) = ns := by
  induction width generalizing ns with
  | zero =>
    rw [List.eq_nil_of_length_eq_zero hlength]
    rfl
  | succ width ih =>
    match ns, hlength with
    | high :: low :: rest, hlength =>
      simp only [List.length_cons] at hlength
      have hhigh : high < 16 := hns high List.mem_cons_self
      have hlow : low < 16 := hns low (List.mem_cons_of_mem _ List.mem_cons_self)
      have hrest : ∀ x ∈ rest, x < 16 := fun x hx =>
        hns x (List.mem_cons_of_mem _ (List.mem_cons_of_mem _ hx))
      rw [packNibbles, nibbles_cons, ih (by omega) hrest, Bytes.highNibble_ofNibbles hhigh hlow,
        Bytes.lowNibble_ofNibbles high hlow]

/-- Nibbles are packed into given bytes if they are the nibbles of those bytes. -/
theorem packNibbles_eq_iff {ns : List Nat} (hlength : ns.length = 2 * bytes.length)
    (hns : ∀ x ∈ ns, x < 16) : packNibbles ns = bytes ↔ ns = nibbles bytes := by
  constructor
  · intro h
    rw [← h, nibbles_packNibbles hlength hns]
  · intro h
    rw [h, packNibbles_nibbles]

theorem push_eq_ok {acc nibble result : Nat} {b : UInt8} (h : push acc nibble b = .ok result) :
    nibble < 10 ∧ result = acc * 10 + nibble := by
  unfold push at h
  split at h
  · cases h
  · cases h
    exact ⟨by omega, rfl⟩

theorem isNegativeSign_eq_ok {nibble : Nat} {negative : Bool}
    (h : isNegativeSign nibble = .ok negative) :
    (nibble = 0xC → negative = false) ∧ (nibble = 0xD → negative = true) := by
  unfold isNegativeSign at h
  split at h
  · cases h
    exact ⟨fun hplus => by omega, fun _ => rfl⟩
  · rename_i hother
    split at h
    · cases h
      exact ⟨fun _ => rfl, fun hminus => by omega⟩
    · cases h

/-- What has been read is digits up to the last nibble and a sign in it. -/
theorem valueFrom_eq_ok {acc : Nat} {n : Int} (hne : bytes ≠ []) (h : valueFrom acc bytes = .ok n) :
    ∃ ds last negative, bytes.getLast? = some last ∧ nibbles bytes = ds ++ [lowNibble last] ∧
      (∀ x ∈ ds, x < 10) ∧ isNegativeSign (lowNibble last) = .ok negative ∧
      n = if negative then -(Positional.valueFrom 10 acc ds : Int)
        else Positional.valueFrom 10 acc ds := by
  induction bytes generalizing acc with
  | nil => exact absurd rfl hne
  | cons b rest ih =>
    cases rest with
    | nil =>
      obtain ⟨magnitude, hpush, h⟩ := bind_eq_ok_iff.1 h
      obtain ⟨negative, hsign, h⟩ := bind_eq_ok_iff.1 h
      obtain ⟨hten, rfl⟩ := push_eq_ok hpush
      cases h
      refine ⟨[highNibble b], b, negative, rfl, rfl, ?_, hsign, rfl⟩
      intro x hx
      rw [List.mem_singleton.1 hx]
      exact hten
    | cons c rest =>
      rw [valueFrom_cons (List.cons_ne_nil c rest)] at h
      obtain ⟨first, hfirst, h⟩ := bind_eq_ok_iff.1 h
      obtain ⟨second, hsecond, h⟩ := bind_eq_ok_iff.1 h
      obtain ⟨hhigh, rfl⟩ := push_eq_ok hfirst
      obtain ⟨hlow, rfl⟩ := push_eq_ok hsecond
      obtain ⟨ds, last, negative, hlast, hnibbles, hten, hsign, hn⟩ :=
        ih (List.cons_ne_nil c rest) h
      refine ⟨highNibble b :: lowNibble b :: ds, last, negative, ?_, ?_, ?_, hsign, hn⟩
      · rw [List.getLast?_cons_cons]
        exact hlast
      · rw [nibbles_cons, hnibbles]
        rfl
      · intro x hx
        rcases List.mem_cons.1 hx with rfl | hx
        · exact hhigh
        · rcases List.mem_cons.1 hx with rfl | hx
          · exact hlow
          · exact hten x hx

/-- A packed decimal that has been read is written back with a canonical sign. -/
theorem exists_encode_of_decode (hne : bytes ≠ []) (hwidth : bytes.length ≤ 14)
    (h : decode bytes = .ok d) :
    ∃ again, encode d bytes.length = .ok again ∧ (again = bytes ↔ Canonical bytes d.truncate) := by
  obtain ⟨n, hvalue, hread⟩ := bind_eq_ok_iff.1 h
  obtain ⟨ds, last, negative, hlast, hnibbles, hten, hsign, hn⟩ := valueFrom_eq_ok hne hvalue
  have hlength := length_digits hnibbles
  have hlt : Positional.valueFrom 10 0 ds < 10 ^ (2 * bytes.length - 1) := by
    rw [← hlength]
    exact Positional.value_lt hten
  have hdigits : 2 * bytes.length - 1 ≤ 28 := by omega
  rw [hn] at hread
  obtain ⟨htruncate, habs⟩ := Accumulator.truncate_of_digits hdigits hlt hread
  have hagain : Positional.digits 10 (2 * bytes.length - 1) d.truncate.natAbs = ds := by
    rw [habs, ← hlength]
    exact Positional.digits_value hten
  obtain ⟨hplus, hminus⟩ := isNegativeSign_eq_ok hsign
  refine ⟨packNibbles (ds ++ [if d.truncate < 0 then 0xD else 0xC]), ?_, ?_⟩
  · have hpositive : bytes.length ≠ 0 := fun h => hne (List.eq_nil_of_length_eq_zero h)
    rw [encode_eq, hagain]
    exact if_pos ⟨hpositive, by rw [habs]; exact hlt⟩
  · have hcount : (ds ++ [if d.truncate < 0 then 0xD else 0xC]).length = 2 * bytes.length := by
      have hpositive := List.length_pos_iff.2 hne
      rw [List.length_append, List.length_singleton]
      omega
    have hsixteen : ∀ x ∈ ds ++ [if d.truncate < 0 then 0xD else 0xC], x < 16 := by
      intro x hx
      rcases List.mem_append.1 hx with hx | hx
      · have hdigit := hten x hx
        omega
      · rw [List.mem_singleton.1 hx]
        split <;> decide
    -- the digits are the same, so the bytes differ at most in the sign
    rw [packNibbles_eq_iff hcount hsixteen, hnibbles, List.append_cancel_left_eq,
      List.singleton_inj, eq_comm, canonicalSign_iff (by decide) hplus hminus htruncate]
    unfold Canonical
    simp only [hlast, Option.mem_def, Option.some.injEq, forall_eq']

end Packed

/-! ## Binary integers -/

namespace Binary

variable {bytes : Bytes} {d : Decimal} {n : Int}

/-- Bytes are determined by their unsigned reading, or by any integer that ends in it. -/
theorem bytesOf_of_emod (h : n % (256 : Int) ^ bytes.length = unsigned bytes) :
    bytesOf bytes.length n = bytes := by
  rw [bytesOf, h, Int.toNat_natCast]
  exact Positional.digits_bytes bytes

theorem unsigned_emod (bytes : Bytes) :
    (unsigned bytes : Int) % (256 : Int) ^ bytes.length = unsigned bytes := by
  have hlt : (unsigned bytes : Int) < ((256 ^ bytes.length : Nat) : Int) :=
    Int.ofNat_lt.2 (unsigned_lt bytes)
  rw [Int.natCast_pow] at hlt
  exact Int.emod_eq_of_lt (Int.natCast_nonneg _) hlt

theorem signed_emod (hne : bytes ≠ []) :
    signed bytes % (256 : Int) ^ bytes.length = unsigned bytes := by
  rw [signed_eq hne]
  split
  · exact unsigned_emod bytes
  · rw [Int.sub_emod_right, unsigned_emod]

/-- Two's complement reaches half of the patterns on either side of zero. -/
theorem signed_bounds (hne : bytes ≠ []) :
    -(2 : Int) ^ (8 * bytes.length - 1) ≤ signed bytes ∧
      signed bytes < 2 ^ (8 * bytes.length - 1) := by
  have hpositive : 0 < bytes.length := List.length_pos_iff.2 hne
  have hhalf : 2 * (2 : Int) ^ (8 * bytes.length - 1) = 256 ^ bytes.length := by
    rw [← pow_bits, Int.mul_comm, ← Int.pow_succ]
    congr 1
    omega
  have hlt := unsigned_lt bytes
  have hcast : ((256 ^ bytes.length : Nat) : Int) = (256 : Int) ^ bytes.length :=
    Int.natCast_pow 256 bytes.length
  rw [signed_eq hne]
  split <;> omega

theorem natAbs_signed_lt (hne : bytes ≠ []) (hwidth : bytes.length ≤ 8) :
    (signed bytes).natAbs < 2 ^ (64 : Nat) := by
  have hbounds := signed_bounds hne
  have hbits : 8 * bytes.length - 1 ≤ 63 := by omega
  have hrange : (2 : Int) ^ (8 * bytes.length - 1) ≤ 2 ^ 63 :=
    Positional.pow_le_pow 2 (by decide) hbits
  omega

theorem unsigned_lt_of_length_le (hwidth : bytes.length ≤ 8) : unsigned bytes < 2 ^ (64 : Nat) :=
  Nat.lt_of_lt_of_le (unsigned_lt bytes) (Nat.pow_le_pow_right (n := 256) (by decide) hwidth)

/-- A signed integer that has been read is written back in the same bytes. -/
theorem encodeSigned_of_decodeSigned (hne : bytes ≠ []) (hwidth : bytes.length ≤ 8)
    (h : decodeSigned bytes = .ok d) : encodeSigned d bytes.length = .ok bytes := by
  have hpositive : 0 < bytes.length := List.length_pos_iff.2 hne
  have hbounds := signed_bounds hne
  have hsmall := natAbs_signed_lt hne hwidth
  have htruncate : d.truncate = signed bytes := Accumulator.truncate_of_toDecimal (by omega) h
  have hbytes := bytesOf_of_emod (signed_emod hne)
  rw [encodeSigned_eq, htruncate, hbytes]
  exact if_pos ⟨hwidth, fitsSigned_iff.2 ⟨hpositive, hbounds⟩⟩

/-- An unsigned integer that has been read is written back in the same bytes. -/
theorem encodeUnsigned_of_decodeUnsigned (hwidth : bytes.length ≤ 8)
    (h : decodeUnsigned bytes = .ok d) : encodeUnsigned d bytes.length = .ok bytes := by
  have hlt := unsigned_lt bytes
  have hsmall := unsigned_lt_of_length_le hwidth
  have htruncate : d.truncate = unsigned bytes := Accumulator.truncate_of_toDecimal (by omega) h
  have hbytes := bytesOf_of_emod (unsigned_emod bytes)
  have hfits : (unsigned bytes : Int) < 256 ^ bytes.length := by
    have hcast := Int.ofNat_lt.2 hlt
    rwa [Int.natCast_pow] at hcast
  rw [← pow_bits] at hfits
  rw [encodeUnsigned_eq, htruncate, hbytes]
  exact if_pos ⟨hwidth, fitsUnsigned_iff.2 ⟨Int.natCast_nonneg _, hfits⟩⟩

end Binary

/-! ## Fields -/

namespace Field

variable {position length : Nat} {format : FieldFormat} {encoding : Encoding} {f : Field}

/-- The bytes in which a numeric field writes the integer `n`, among those that it reads as `n`:
binary fields read every integer from one byte string only. -/
def Canonical (f : Field) (content : Bytes) (n : Int) : Prop :=
  match f.format with
  | .zd => Zoned.Canonical f.encoding content n
  | .pd => Packed.Canonical content n
  | .fi | .bi | .ch | .ss => True

theorem exists_encode_of_decode (hof : Field.of position length format encoding = .ok f)
    (hnumeric : format.isNumeric = true) {content : Bytes} {d : Decimal}
    (hlength : content.length = f.length) (hdecode : f.decode content = .ok d) :
    ∃ again, f.encode d = .ok again ∧ (again = content ↔ f.Canonical content d.truncate) := by
  obtain ⟨rfl, hpositive, hmax⟩ := of_eq_ok hof
  replace hlength : content.length = length := hlength
  have hne : content ≠ [] := by
    rintro rfl
    rw [List.length_nil] at hlength
    omega
  have hwidth : ∀ maximum, format.maxLength? = some maximum → content.length ≤ maximum := by
    rw [hlength]
    exact hmax
  unfold Field.decode at hdecode
  rw [encode_eq]
  unfold Canonical
  cases format with
  | zd =>
    simp only [mapError_eq_ok_iff] at hdecode ⊢
    rw [← hlength]
    exact Zoned.exists_encode_of_decode (hwidth 28 rfl) hdecode
  | pd =>
    simp only [mapError_eq_ok_iff] at hdecode ⊢
    rw [← hlength]
    exact Packed.exists_encode_of_decode hne (hwidth 14 rfl) hdecode
  | fi =>
    simp only [mapError_eq_ok_iff] at hdecode ⊢
    rw [← hlength]
    have hagain := Binary.encodeSigned_of_decodeSigned hne (hwidth 8 rfl) hdecode
    exact ⟨content, hagain, iff_of_true rfl trivial⟩
  | bi =>
    simp only [mapError_eq_ok_iff] at hdecode ⊢
    rw [← hlength]
    have hagain := Binary.encodeUnsigned_of_decodeUnsigned (hwidth 8 rfl) hdecode
    exact ⟨content, hagain, iff_of_true rfl trivial⟩
  | ch => cases hnumeric
  | ss => cases hnumeric

/-- **A decoded number is written back faithfully.** Whatever bytes of its width a declared numeric
field reads as a number, the number can be stored in any record with that field; the bytes of the
field then have the same width and are read as the very same number; and they are the bytes that
were read exactly if those were canonical. -/
theorem encode_decoded (hof : Field.of position length format encoding = .ok f)
    (hnumeric : format.isNumeric = true) {content : Bytes} {d : Decimal}
    (hlength : content.length = f.length) (hdecode : f.decode content = .ok d) :
    ∃ again, f.encode d = .ok again ∧ again.length = content.length ∧ f.decode again = .ok d ∧
      (again = content ↔ f.Canonical content d.truncate) ∧
      ∀ record, f.stop ≤ record.length →
        ∃ stored, (f.store d).run record = .ok () stored ∧ f.bytes stored = .ok again ∧
          SameOutside [f] stored record := by
  have hf : f.format.isNumeric = true := by
    rw [(of_eq_ok hof).1]
    exact hnumeric
  obtain ⟨again, hencode, hcanonical⟩ := exists_encode_of_decode hof hnumeric hlength hdecode
  obtain ⟨hwidth, d', hd', hinteger⟩ := decode_encode hf hencode
  -- a field reads each integer in one spelling only, so the number is the same in all respects
  have hsame : d' = d := by
    have hread := exact_decode hf hd'
    rw [hinteger.truncate, exact_decode hf hdecode] at hread
    exact (Option.some.inj hread).symm
  rw [hsame] at hd'
  refine ⟨again, hencode, hwidth.trans hlength.symm, hd', hcanonical, ?_⟩
  intro record hstop
  obtain ⟨stored, hstore⟩ := exists_store_iff.2 ⟨hstop, again, hencode⟩
  obtain ⟨_, hagain, hbytes, hsame⟩ := exists_content_of_store hf hstore
  cases hencode.symm.trans hagain
  exact ⟨stored, hstore, hbytes, hsame⟩

/-- In EBCDIC `51 B2` and `F1 D2` both are -12. It is written back as the latter, so that only the
latter is canonical. -/
theorem encode_decoded_zoned :
    let f : Field := ⟨0, 2, .zd, .ebcdic⟩
    let d : Decimal := ⟨true, 12, 0, by decide, by decide⟩
    Field.of 1 2 .zd .ebcdic = .ok f ∧ f.decode [0x51, 0xB2] = .ok d ∧
      f.decode [0xF1, 0xD2] = .ok d ∧ f.encode d = .ok [0xF1, 0xD2] ∧
      ¬ f.Canonical [0x51, 0xB2] (-12) ∧ f.Canonical [0xF1, 0xD2] (-12) := by
  intro f d
  have hof : Field.of 1 2 .zd .ebcdic = .ok f := rfl
  have hloose : f.decode [0x51, 0xB2] = .ok d := by decide +kernel
  have hstrict : f.decode [0xF1, 0xD2] = .ok d := by decide +kernel
  have hencode : f.encode d = .ok [0xF1, 0xD2] := by decide +kernel
  have htruncate : d.truncate = -12 := by decide +kernel
  obtain ⟨again, hagain, -, -, hloosely, -⟩ := encode_decoded hof rfl rfl hloose
  obtain ⟨again', hagain', -, -, hstrictly, -⟩ := encode_decoded hof rfl rfl hstrict
  cases hencode.symm.trans hagain
  cases hencode.symm.trans hagain'
  rw [htruncate] at hloosely hstrictly
  exact ⟨hof, hloose, hstrict, hencode, fun h => absurd (hloosely.2 h) (by decide),
    hstrictly.1 rfl⟩

end Field

end CardSort
