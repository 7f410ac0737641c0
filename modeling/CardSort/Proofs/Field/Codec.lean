import CardSort.Field
import CardSort.Proofs.Decimal.Laws
import CardSort.Proofs.Except
import CardSort.Proofs.Positional
import CardSort.Sum

/-!
# Numbers written into fields are read back

Every numeric format reads what it has written: the integer part of the number, with no fraction
digits.

* `Writer.overwrite` — a writer that fails before it writes (`Zoned.write_eq`, `Packed.write_eq`,
  `Binary.writeIn_eq`, `Field.write_eq`): the digits left over are those of a number that does not
  fit.
* `IntegerCodec` — what the four codecs have in common (`Zoned.integerCodec`,
  `Packed.integerCodec`, `Binary.integerCodec_signed`, `Binary.integerCodec_unsigned`).
* `Field.exists_codec` — a numeric field encodes and decodes by one of them.
* `Field.decode_encode` — **what a numeric field writes, it reads back**.
* `Field.encode_eq_error` — a number that a numeric field refuses is too large for it.
-/

set_option autoImplicit false

namespace CardSort

namespace Decimal

/-- An integer is its absolute value under its sign. -/
theorem signed_natAbs (n : Int) :
    (if decide (n < 0) then -(n.natAbs : Int) else n.natAbs) = n := by
  split
  · rename_i h
    rw [decide_eq_true_eq] at h
    omega
  · rename_i h
    rw [decide_eq_true_eq] at h
    omega

end Decimal

namespace Accumulator

variable {n : Int} {d : Decimal}

theorem exists_toDecimal (h : n.natAbs < 2 ^ (96 : Nat)) :
    ∃ d, toDecimal n = .ok d ∧ d.IsInteger n := by
  obtain ⟨d, hd⟩ := Decimal.exists_ofInt? h
  have hwrap : wrap n = n := wrap_of_small (Nat.lt_trans h (by decide))
  refine ⟨d, ?_, Decimal.isInteger_of_ofInt? hd⟩
  unfold toDecimal
  rw [hwrap, hd]

theorem ofInt?_of_toDecimal (h : toDecimal n = .ok d) : Decimal.ofInt? (wrap n) = some d := by
  unfold toDecimal at h
  split at h
  · rename_i e he
    cases h
    exact he
  · cases h

/-- A number that 128 bits keep comes out as it went in. -/
theorem truncate_of_toDecimal (hsmall : n.natAbs < 2 ^ (127 : Nat)) (h : toDecimal n = .ok d) :
    d.truncate = n := by
  have hread := ofInt?_of_toDecimal h
  rw [wrap_of_small hsmall] at hread
  exact (Decimal.isInteger_of_ofInt? hread).truncate

theorem exact_of_toDecimal (h : toDecimal n = .ok d) : Decimal.ofInt? d.truncate = some d := by
  have hread := ofInt?_of_toDecimal h
  rw [(Decimal.isInteger_of_ofInt? hread).truncate]
  exact hread

end Accumulator

/-! ## Writers -/

namespace Writer

variable {ε ε' : Type}

/-- The writer that puts the bytes made for the width of its target in their place, and leaves the
target alone if none are made. -/
def overwrite (make : Nat → Except ε Bytes) : Writer ε Unit := fun target =>
  match make target.length with
  | .ok bytes => .ok () bytes
  | .error e => .error e target

section

variable {make : Nat → Except ε Bytes} {target bytes : Bytes} {e : ε}

theorem run_overwrite_ok (h : make target.length = .ok bytes) :
    (overwrite make).run target = .ok () bytes := by
  simp only [EStateM.run, overwrite, h]

theorem run_overwrite_error (h : make target.length = .error e) :
    (overwrite make).run target = .error e target := by
  simp only [EStateM.run, overwrite, h]

end

theorem fresh_overwrite (make : Nat → Except ε Bytes) (width : Nat) :
    (overwrite make).fresh width = make width := by
  unfold fresh EStateM.run overwrite
  rw [List.length_replicate]
  cases make width <;> rfl

theorem overwrite_fresh (make : Nat → Except ε Bytes) :
    overwrite (overwrite make).fresh = overwrite make :=
  congrArg overwrite (funext (fresh_overwrite make))

theorem fresh_adaptExcept (w : Writer ε Unit) (g : ε → ε') (width : Nat) :
    fresh (w.adaptExcept g) width = (w.fresh width).mapError g := by
  unfold fresh EStateM.run EStateM.adaptExcept
  cases w (List.replicate width 0) <;> rfl

theorem adaptExcept_overwrite (make : Nat → Except ε Bytes) (g : ε → ε') :
    (overwrite make).adaptExcept g = overwrite fun width => (make width).mapError g := by
  funext target
  unfold EStateM.adaptExcept overwrite
  cases hmake : make target.length with
  | ok bytes => simp only [hmake, Except.mapError]
  | error e => simp only [hmake, Except.mapError]

end Writer

/-- A codec of integers in fields of a fixed width. It reads what it has written and refuses only
what is too large. -/
structure IntegerCodec (encode : Decimal → Nat → Except CodecFault Bytes)
    (decode : Bytes → Except CodecFault Decimal) : Prop where
  length : ∀ {value : Decimal} {width : Nat} {bytes : Bytes},
    encode value width = .ok bytes → bytes.length = width
  reads : ∀ {value : Decimal} {width : Nat} {bytes : Bytes},
    encode value width = .ok bytes → ∃ d, decode bytes = .ok d ∧ d.IsInteger value.truncate
  refuses : ∀ {value : Decimal} {width : Nat} {e : CodecFault},
    encode value width = .error e → e = .overflow value.toText width
  exact : ∀ {bytes : Bytes} {d : Decimal}, decode bytes = .ok d →
    Decimal.ofInt? d.truncate = some d

/-! ## Zoned decimals -/

namespace Zoned

variable {enc : Encoding} {value : Decimal} {width : Nat} {bytes : Bytes}

/-- The bytes of digits: every digit under the zone of digits, the last under the sign. -/
def zoneDigits (enc : Encoding) (negative : Bool) : List Nat → Bytes
  | [] => []
  | [d] => [Bytes.ofNibbles (if negative then enc.negativeZone else enc.positiveZone) d]
  | d :: ds => Bytes.ofNibbles enc.digitZone d :: zoneDigits enc negative ds

theorem length_zoneDigits (enc : Encoding) (negative : Bool) (ds : List Nat) :
    (zoneDigits enc negative ds).length = ds.length := by
  fun_induction zoneDigits with
  | case1 => rfl
  | case2 => rfl
  | case3 d ds _ ih => rw [List.length_cons, ih, List.length_cons]

/-- The digits are read from under their zones. -/
theorem digitsFrom_zoneDigits {negative : Bool} {ds : List Nat} (hds : ∀ d ∈ ds, d < 10)
    (acc : Nat) :
    digitsFrom acc (zoneDigits enc negative ds) = .ok (Positional.valueFrom 10 acc ds) := by
  fun_induction zoneDigits generalizing acc with
  | case1 => rfl
  | case2 d =>
    have hd : d < 10 := hds d List.mem_cons_self
    have hlow := Bytes.lowNibble_ofNibbles
      (if negative then enc.negativeZone else enc.positiveZone) (show d < 16 by omega)
    simp only [digitsFrom, hlow, Positional.valueFrom]
    rw [if_neg (by omega)]
  | case3 d ds _ ih =>
    have hd : d < 10 := hds d List.mem_cons_self
    have hlow := Bytes.lowNibble_ofNibbles enc.digitZone (show d < 16 by omega)
    simp only [digitsFrom, hlow, Positional.valueFrom]
    rw [if_neg (by omega)]
    exact ih (fun x hx => hds x (List.mem_cons_of_mem _ hx)) _

/-- The sign is read from over the last digit. -/
theorem isNegative_zoneDigits {negative : Bool} {ds : List Nat} (hds : ∀ d ∈ ds, d < 10)
    (hsign : ds = [] → negative = false) :
    isNegative enc (zoneDigits enc negative ds) = negative := by
  fun_induction zoneDigits with
  | case1 => exact (hsign rfl).symm
  | case2 d =>
    have hd : d < 16 := Nat.lt_trans (hds d List.mem_cons_self) (by decide)
    have hzone : (if negative then enc.negativeZone else enc.positiveZone) < 16 := by
      cases negative <;> cases enc <;> decide
    simp only [isNegative, List.getLast?_singleton, Bytes.highNibble_ofNibbles hzone hd]
    cases negative <;> cases enc <;> rfl
  | case3 d ds hne ih =>
    have hds' : ∀ x ∈ ds, x < 10 := fun x hx => hds x (List.mem_cons_of_mem _ hx)
    have hrest : zoneDigits enc negative ds ≠ [] := by
      intro h
      have hlength := length_zoneDigits enc negative ds
      rw [h, List.length_nil] at hlength
      exact hne (List.eq_nil_of_length_eq_zero hlength.symm)
    rw [isNegative, List.getLast?_cons_of_ne_nil hrest]
    exact ih hds' fun h => absurd h hne

/-- The sign goes over the last digit. -/
theorem signLast_zoned (enc : Encoding) (negative : Bool) {ds : List Nat} (hds : ∀ d ∈ ds, d < 10) :
    signLast (if negative then enc.negativeZone else enc.positiveZone)
      (ds.map (Bytes.ofNibbles enc.digitZone)) = zoneDigits enc negative ds := by
  fun_induction zoneDigits enc negative ds with
  | case1 => rfl
  | case2 d =>
    have hd : d < 10 := hds d List.mem_cons_self
    rw [List.map_cons, List.map_nil, signLast, Bytes.lowNibble_ofNibbles _ (by omega)]
  | case3 d ds hne ih =>
    have hrest := ih fun x hx => hds x (List.mem_cons_of_mem _ hx)
    obtain ⟨d', ds', rfl⟩ := List.exists_cons_of_ne_nil hne
    rw [List.map_cons, List.map_cons, signLast, ← hrest, List.map_cons]
    simp

/-- **Digits that are left over are those of a number that does not fit.** -/
theorem write_eq (enc : Encoding) (value : Decimal) :
    write enc value = Writer.overwrite fun width =>
      if value.truncate.natAbs < 10 ^ width then
        .ok (zoneDigits enc (value.truncate < 0)
          (Positional.digits 10 width value.truncate.natAbs))
      else .error (.overflow value.toText width) := by
  funext target
  change (write enc value).run target = (Writer.overwrite _).run target
  have hds : ∀ d ∈ Positional.digits 10 target.length value.truncate.natAbs, d < 10 :=
    fun d hd => Positional.lt_of_mem_digits (by decide) hd
  by_cases hfits : value.truncate.natAbs < 10 ^ target.length
  · have hsign := signLast_zoned enc (value.truncate < 0) hds
    simp only [decide_eq_true_eq] at hsign
    rw [Writer.run_overwrite_ok (if_pos hfits), ← hsign]
    simp only [write, EStateM.run_bind, EStateM.run_get, Positional.fill_of_lt hfits, ne_eq,
      not_true_eq_false, if_false, EStateM.run_set, EStateM.run_modify]
  · have hleft := Positional.fill_snd_ne_zero (show 0 < 10 by decide) hfits
    rw [Writer.run_overwrite_error (if_neg hfits)]
    simp only [write, EStateM.run_bind, EStateM.run_get, hleft, ne_eq, not_false_eq_true, if_true,
      EStateM.run_throw]

theorem encode_eq : encode enc value width =
    if value.truncate.natAbs < 10 ^ width then
      .ok (zoneDigits enc (value.truncate < 0)
        (Positional.digits 10 width value.truncate.natAbs))
    else .error (.overflow value.toText width) := by
  rw [encode, write_eq, Writer.fresh_overwrite]

theorem encode_eq_ok (h : encode enc value width = .ok bytes) :
    value.truncate.natAbs < 10 ^ width ∧
      bytes = zoneDigits enc (value.truncate < 0)
        (Positional.digits 10 width value.truncate.natAbs) := by
  rw [encode_eq] at h
  exact ite_eq_ok_iff.1 h

theorem length_encode (h : encode enc value width = .ok bytes) : bytes.length = width := by
  rw [(encode_eq_ok h).2, length_zoneDigits, Positional.length_digits]

/-- **A zoned decimal is read back.** -/
theorem decode_encode (h : encode enc value width = .ok bytes) :
    ∃ d, decode enc bytes = .ok d ∧ d.IsInteger value.truncate := by
  obtain ⟨hfits, rfl⟩ := encode_eq_ok h
  have hds : ∀ d ∈ Positional.digits 10 width value.truncate.natAbs, d < 10 :=
    fun d hd => Positional.lt_of_mem_digits (by decide) hd
  -- a field of no bytes holds only zero, and zero has no minus sign
  have hsign : Positional.digits 10 width value.truncate.natAbs = [] →
      decide (value.truncate < 0) = false := by
    intro hnil
    have hwidth := Positional.length_digits 10 width value.truncate.natAbs
    rw [hnil, List.length_nil] at hwidth
    rw [← hwidth, Nat.pow_zero] at hfits
    rw [decide_eq_false_iff_not]
    omega
  have hvalue : Positional.valueFrom 10 0 (Positional.digits 10 width value.truncate.natAbs) =
      value.truncate.natAbs := by
    rw [← Positional.value, Positional.value_digits, Nat.mod_eq_of_lt hfits]
  obtain ⟨d, hd, hinteger⟩ := Accumulator.exists_toDecimal value.natAbs_truncate_lt
  refine ⟨d, ?_, hinteger⟩
  rw [decode, digitsFrom_zoneDigits hds, isNegative_zoneDigits hds hsign, hvalue, ok_bind,
    Decimal.signed_natAbs]
  exact hd

theorem integerCodec (enc : Encoding) : IntegerCodec (encode enc) (decode enc) where
  length := length_encode
  reads := decode_encode
  refuses h := by
    rw [encode_eq] at h
    exact eq_of_ite_eq_error h
  exact h := by
    obtain ⟨_, _, h⟩ := bind_eq_ok_iff.1 h
    exact Accumulator.exact_of_toDecimal h

end Zoned

/-! ## Packed decimals -/

namespace Packed

variable {value : Decimal} {width : Nat} {bytes : Bytes}

/-- The nibbles of `width` bytes: one digit less than they hold, then the sign. -/
theorem length_packNibbles {nibbles : List Nat} {width : Nat} (h : nibbles.length = 2 * width) :
    (packNibbles nibbles).length = width := by
  induction width generalizing nibbles with
  | zero =>
    rw [List.eq_nil_of_length_eq_zero h]
    rfl
  | succ width ih =>
    match nibbles, h with
    | high :: low :: rest, h =>
      simp only [List.length_cons] at h
      rw [packNibbles, List.length_cons, ih (by omega)]

theorem push_nibble {d : Nat} (h : d < 10) (acc : Nat) (b : UInt8) :
    push acc d b = .ok (acc * 10 + d) := by
  rw [push, if_neg (by omega)]

theorem valueFrom_cons {rest : Bytes} (h : rest ≠ []) (acc : Nat) (b : UInt8) :
    valueFrom acc (b :: rest) = (do
      let acc ← push acc (Bytes.highNibble b) b
      let acc ← push acc (Bytes.lowNibble b) b
      valueFrom acc rest) := by
  match rest, h with
  | _ :: _, _ => rfl

/-- Digits, two to a byte, are read up to the sign in the last nibble. -/
theorem valueFrom_packNibbles (negative : Bool) {width : Nat} {ds : List Nat}
    (hlength : ds.length = 2 * width + 1) (hds : ∀ d ∈ ds, d < 10) (acc : Nat) :
    valueFrom acc (packNibbles (ds ++ [if negative then 0xD else 0xC])) =
      .ok (if negative then -(Positional.valueFrom 10 acc ds : Int)
        else Positional.valueFrom 10 acc ds) := by
  induction width generalizing ds acc with
  | zero =>
    obtain ⟨d, rfl⟩ := List.length_eq_one_iff.1 hlength
    have hd : d < 10 := hds d List.mem_cons_self
    have hsign : (if negative then 0xD else 0xC) < 16 := by cases negative <;> decide
    simp only [List.cons_append, List.nil_append, packNibbles, valueFrom,
      Bytes.highNibble_ofNibbles (show d < 16 by omega) hsign,
      Bytes.lowNibble_ofNibbles d hsign, push_nibble hd, ok_bind, Positional.valueFrom]
    cases negative <;> rfl
  | succ width ih =>
    rcases ds with _ | ⟨high, _ | ⟨low, rest⟩⟩
    · rw [List.length_nil] at hlength
      omega
    · rw [List.length_singleton] at hlength
      omega
    · simp only [List.length_cons] at hlength
      have hhigh : high < 10 := hds high List.mem_cons_self
      have hlow : low < 10 := hds low (List.mem_cons_of_mem _ List.mem_cons_self)
      have hrest : ∀ d ∈ rest, d < 10 := fun d hd =>
        hds d (List.mem_cons_of_mem _ (List.mem_cons_of_mem _ hd))
      have hne : packNibbles (rest ++ [if negative then 0xD else 0xC]) ≠ [] := by
        intro h
        have hnibbles : (rest ++ [if negative then 0xD else 0xC]).length = 2 * (width + 1) := by
          rw [List.length_append, List.length_singleton]
          omega
        have hpacked := length_packNibbles hnibbles
        rw [h, List.length_nil] at hpacked
        omega
      have hread := ih (show rest.length = 2 * width + 1 by omega) hrest
        ((acc * 10 + high) * 10 + low)
      rw [List.cons_append, List.cons_append, packNibbles, valueFrom_cons hne,
        Bytes.highNibble_ofNibbles (by omega) (by omega), Bytes.lowNibble_ofNibbles _ (by omega),
        push_nibble hhigh, ok_bind, push_nibble hlow, ok_bind, hread]
      rfl

/-- **Digits that are left over are those of a number that does not fit.** -/
theorem write_eq (value : Decimal) :
    write value = Writer.overwrite fun width =>
      if width ≠ 0 ∧ value.truncate.natAbs < 10 ^ (2 * width - 1) then
        .ok (packNibbles (Positional.digits 10 (2 * width - 1) value.truncate.natAbs ++
          [if value.truncate < 0 then 0xD else 0xC]))
      else .error (.overflow value.toText width) := by
  funext target
  change (write value).run target = (Writer.overwrite _).run target
  by_cases hroom : target.length ≠ 0 ∧ value.truncate.natAbs < 10 ^ (2 * target.length - 1)
  · rw [Writer.run_overwrite_ok (if_pos hroom)]
    simp only [write, EStateM.run_bind, EStateM.run_get, hroom.1, Positional.fill_of_lt hroom.2,
      ne_eq, not_true_eq_false, if_false, EStateM.run_set]
  · rw [Writer.run_overwrite_error (if_neg hroom)]
    by_cases hwidth : target.length = 0
    · simp only [write, EStateM.run_bind, EStateM.run_get, hwidth, if_true, EStateM.run_throw]
    · have hleft := Positional.fill_snd_ne_zero (show 0 < 10 by decide)
        fun h => hroom ⟨hwidth, h⟩
      simp only [write, EStateM.run_bind, EStateM.run_get, hwidth, hleft, ne_eq,
        not_false_eq_true, if_true, if_false, EStateM.run_throw]

theorem encode_eq : encode value width =
    if width ≠ 0 ∧ value.truncate.natAbs < 10 ^ (2 * width - 1) then
      .ok (packNibbles (Positional.digits 10 (2 * width - 1) value.truncate.natAbs ++
        [if value.truncate < 0 then 0xD else 0xC]))
    else .error (.overflow value.toText width) := by
  rw [encode, write_eq, Writer.fresh_overwrite]

theorem encode_eq_ok (h : encode value width = .ok bytes) :
    (width ≠ 0 ∧ value.truncate.natAbs < 10 ^ (2 * width - 1)) ∧
      bytes = packNibbles (Positional.digits 10 (2 * width - 1) value.truncate.natAbs ++
        [if value.truncate < 0 then 0xD else 0xC]) := by
  rw [encode_eq] at h
  exact ite_eq_ok_iff.1 h

theorem length_encode (h : encode value width = .ok bytes) : bytes.length = width := by
  obtain ⟨⟨hwidth, _⟩, rfl⟩ := encode_eq_ok h
  apply length_packNibbles
  rw [List.length_append, Positional.length_digits, List.length_singleton]
  omega

/-- **A packed decimal is read back.** -/
theorem decode_encode (h : encode value width = .ok bytes) :
    ∃ d, decode bytes = .ok d ∧ d.IsInteger value.truncate := by
  obtain ⟨⟨hwidth, hfits⟩, rfl⟩ := encode_eq_ok h
  have hlength : (Positional.digits 10 (2 * width - 1) value.truncate.natAbs).length =
      2 * (width - 1) + 1 := by
    rw [Positional.length_digits]
    omega
  have hds : ∀ d ∈ Positional.digits 10 (2 * width - 1) value.truncate.natAbs, d < 10 :=
    fun d hd => Positional.lt_of_mem_digits (by decide) hd
  have hvalue : Positional.valueFrom 10 0
      (Positional.digits 10 (2 * width - 1) value.truncate.natAbs) = value.truncate.natAbs := by
    rw [← Positional.value, Positional.value_digits, Nat.mod_eq_of_lt hfits]
  have hread := valueFrom_packNibbles (value.truncate < 0) hlength hds 0
  rw [hvalue, Decimal.signed_natAbs] at hread
  obtain ⟨d, hd, hinteger⟩ := Accumulator.exists_toDecimal value.natAbs_truncate_lt
  refine ⟨d, ?_, hinteger⟩
  simp only [decide_eq_true_eq] at hread
  rw [decode, hread, ok_bind]
  exact hd

theorem integerCodec : IntegerCodec encode decode where
  length := length_encode
  reads := decode_encode
  refuses h := by
    rw [encode_eq] at h
    exact eq_of_ite_eq_error h
  exact h := by
    obtain ⟨_, _, h⟩ := bind_eq_ok_iff.1 h
    exact Accumulator.exact_of_toDecimal h

end Packed

/-! ## Binary integers -/

namespace Binary

variable {value : Decimal} {width : Nat} {n : Int} {bytes : Bytes}

theorem length_bytesOf (width : Nat) (n : Int) : (bytesOf width n).length = width := by
  rw [bytesOf, List.length_map, Positional.length_digits]

/-- Bytes keep an integer up to multiples of the number of their patterns. -/
theorem unsigned_bytesOf (width : Nat) (n : Int) :
    (unsigned (bytesOf width n) : Int) = n % 256 ^ width := by
  have hpositive : (0 : Int) < 256 ^ width := Int.pow_pos (by decide)
  have hmod : 0 ≤ n % (256 : Int) ^ width := Int.emod_nonneg _ (Int.ne_of_gt hpositive)
  have hlt : n % (256 : Int) ^ width < 256 ^ width := Int.emod_lt_of_pos _ hpositive
  have hfits : (n % (256 : Int) ^ width).toNat < 256 ^ width := by
    rw [Int.toNat_lt hmod, Int.natCast_pow]
    exact hlt
  rw [unsigned, bytesOf, Positional.value_bytes hfits, Int.toNat_of_nonneg hmod]

theorem unsigned_cons (first : UInt8) (rest : Bytes) :
    unsigned (first :: rest) = first.toNat * 256 ^ rest.length + unsigned rest := by
  rw [unsigned, List.map_cons, Positional.value_cons, List.length_map]
  rfl

theorem unsigned_lt (bytes : Bytes) : unsigned bytes < 256 ^ bytes.length :=
  Positional.value_bytes_lt bytes

/-- The first bit is set from half of the patterns on. -/
theorem signed_eq (h : bytes ≠ []) :
    signed bytes = if 2 * unsigned bytes < 256 ^ bytes.length then (unsigned bytes : Int)
      else unsigned bytes - (256 : Int) ^ bytes.length := by
  match bytes, h with
  | first :: rest, _ =>
    have hrest := unsigned_lt rest
    have hfirst : first.toNat < 128 ↔
        2 * unsigned (first :: rest) < 256 ^ (first :: rest).length := by
      rw [unsigned_cons, List.length_cons, Nat.pow_succ]
      constructor
      · intro hlow
        have hle : (first.toNat + 1) * 256 ^ rest.length ≤ 128 * 256 ^ rest.length :=
          Nat.mul_le_mul_right _ hlow
        rw [Nat.add_mul, Nat.one_mul] at hle
        omega
      · intro hlt
        by_cases hhigh : first.toNat < 128
        · exact hhigh
        · have hle : 128 * 256 ^ rest.length ≤ first.toNat * 256 ^ rest.length :=
            Nat.mul_le_mul_right _ (by omega)
          omega
    rw [signed]
    by_cases hlow : first.toNat < 128
    · rw [if_pos hlow, if_pos (hfirst.1 hlow)]
    · rw [if_neg hlow, if_neg fun h => hlow (hfirst.2 h)]

theorem pow_bits (width : Nat) : (2 : Int) ^ (8 * width) = 256 ^ width := by
  rw [Int.pow_mul]
  rfl

/-- Two's complement keeps the integers of half the range on either side of zero. -/
theorem signed_bytesOf (hwidth : 0 < width) (hlow : -(2 : Int) ^ (8 * width - 1) ≤ n)
    (hhigh : n < 2 ^ (8 * width - 1)) : signed (bytesOf width n) = n := by
  have hne : bytesOf width n ≠ [] := by
    intro h
    have hlength := length_bytesOf width n
    rw [h, List.length_nil] at hlength
    omega
  have hhalf : 2 * (2 : Int) ^ (8 * width - 1) = 256 ^ width := by
    rw [← pow_bits, Int.mul_comm, ← Int.pow_succ]
    congr 1
    omega
  have hunsigned := unsigned_bytesOf width n
  have hcast : ((256 ^ width : Nat) : Int) = (256 : Int) ^ width :=
    Int.natCast_pow 256 width
  rw [signed_eq hne, length_bytesOf]
  by_cases hnegative : n < 0
  · have hmod : n % (256 : Int) ^ width = n + 256 ^ width := by
      rw [← Int.add_emod_right]
      exact Int.emod_eq_of_lt (by omega) (by omega)
    rw [if_neg (by omega), hunsigned, hmod]
    omega
  · have hmod : n % (256 : Int) ^ width = n := Int.emod_eq_of_lt (by omega) (by omega)
    rw [if_pos (by omega), hunsigned, hmod]

theorem writeIn_eq (value : Decimal) (fits : Nat → Int → Bool) :
    writeIn value fits = Writer.overwrite fun width =>
      if width ≤ maxWidth ∧ fits width value.truncate then .ok (bytesOf width value.truncate)
      else .error (.overflow value.toText width) := by
  funext target
  change (writeIn value fits).run target = (Writer.overwrite _).run target
  by_cases hfits : target.length ≤ maxWidth ∧ fits target.length value.truncate
  · rw [Writer.run_overwrite_ok (if_pos hfits)]
    simp only [writeIn, EStateM.run_bind, EStateM.run_get, hfits, not_true_eq_false, and_self,
      if_false, EStateM.run_set]
  · rw [Writer.run_overwrite_error (if_neg hfits)]
    simp only [writeIn, EStateM.run_bind, EStateM.run_get, hfits, not_false_eq_true, if_true,
      EStateM.run_throw]

theorem fitsSigned_iff : fitsSigned width n = true ↔
    0 < width ∧ -(2 : Int) ^ (8 * width - 1) ≤ n ∧ n < 2 ^ (8 * width - 1) := by
  unfold fitsSigned
  exact decide_eq_true_iff

theorem fitsUnsigned_iff : fitsUnsigned width n = true ↔ 0 ≤ n ∧ n < 2 ^ (8 * width) := by
  unfold fitsUnsigned
  exact decide_eq_true_iff

theorem encodeSigned_eq : encodeSigned value width =
    if width ≤ maxWidth ∧ fitsSigned width value.truncate then .ok (bytesOf width value.truncate)
    else .error (.overflow value.toText width) := by
  rw [encodeSigned, writeSigned, writeIn_eq, Writer.fresh_overwrite]

theorem encodeUnsigned_eq : encodeUnsigned value width =
    if width ≤ maxWidth ∧ fitsUnsigned width value.truncate then .ok (bytesOf width value.truncate)
    else .error (.overflow value.toText width) := by
  rw [encodeUnsigned, writeUnsigned, writeIn_eq, Writer.fresh_overwrite]

theorem encodeSigned_eq_ok (h : encodeSigned value width = .ok bytes) :
    (0 < width ∧ -(2 : Int) ^ (8 * width - 1) ≤ value.truncate ∧
      value.truncate < 2 ^ (8 * width - 1)) ∧ bytes = bytesOf width value.truncate := by
  rw [encodeSigned_eq] at h
  obtain ⟨⟨-, hfits⟩, hbytes⟩ := ite_eq_ok_iff.1 h
  exact ⟨fitsSigned_iff.1 hfits, hbytes⟩

theorem encodeUnsigned_eq_ok (h : encodeUnsigned value width = .ok bytes) :
    (0 ≤ value.truncate ∧ value.truncate < 2 ^ (8 * width)) ∧
      bytes = bytesOf width value.truncate := by
  rw [encodeUnsigned_eq] at h
  obtain ⟨⟨-, hfits⟩, hbytes⟩ := ite_eq_ok_iff.1 h
  exact ⟨fitsUnsigned_iff.1 hfits, hbytes⟩

/-- **A signed integer is read back.** -/
theorem decode_encode_signed (h : encodeSigned value width = .ok bytes) :
    ∃ d, decodeSigned bytes = .ok d ∧ d.IsInteger value.truncate := by
  obtain ⟨⟨hwidth, hlow, hhigh⟩, rfl⟩ := encodeSigned_eq_ok h
  rw [decodeSigned, signed_bytesOf hwidth hlow hhigh]
  exact Accumulator.exists_toDecimal value.natAbs_truncate_lt

/-- **An unsigned integer is read back.** -/
theorem decode_encode_unsigned (h : encodeUnsigned value width = .ok bytes) :
    ∃ d, decodeUnsigned bytes = .ok d ∧ d.IsInteger value.truncate := by
  obtain ⟨⟨hlow, hhigh⟩, rfl⟩ := encodeUnsigned_eq_ok h
  rw [pow_bits] at hhigh
  rw [decodeUnsigned, unsigned_bytesOf, Int.emod_eq_of_lt hlow hhigh]
  exact Accumulator.exists_toDecimal value.natAbs_truncate_lt

theorem integerCodec_signed : IntegerCodec encodeSigned decodeSigned where
  length h := by rw [(encodeSigned_eq_ok h).2, length_bytesOf]
  reads := decode_encode_signed
  refuses h := by
    rw [encodeSigned_eq] at h
    exact eq_of_ite_eq_error h
  exact := Accumulator.exact_of_toDecimal

theorem integerCodec_unsigned : IntegerCodec encodeUnsigned decodeUnsigned where
  length h := by rw [(encodeUnsigned_eq_ok h).2, length_bytesOf]
  reads := decode_encode_unsigned
  refuses h := by
    rw [encodeUnsigned_eq] at h
    exact eq_of_ite_eq_error h
  exact := Accumulator.exact_of_toDecimal

end Binary

/-! ## Fields -/

namespace Field

variable {f : Field} {value d : Decimal} {content : Bytes}

/-- Bytes that a field could hold, and that it reads as an integer. -/
structure Holds (f : Field) (content : Bytes) (n : Int) : Prop where
  length : content.length = f.length
  reads : ∃ d, f.decode content = .ok d ∧ d.IsInteger n

/-- A field fails before it writes, and what it writes depends on its width alone. -/
theorem write_eq (f : Field) (value : Decimal) :
    f.write value = Writer.overwrite (f.write value).fresh := by
  unfold Field.write
  cases f.format with
  | zd => rw [Zoned.write_eq, Writer.adaptExcept_overwrite, Writer.overwrite_fresh]
  | pd => rw [Packed.write_eq, Writer.adaptExcept_overwrite, Writer.overwrite_fresh]
  | fi =>
    rw [Binary.writeSigned, Binary.writeIn_eq, Writer.adaptExcept_overwrite,
      Writer.overwrite_fresh]
  | bi =>
    rw [Binary.writeUnsigned, Binary.writeIn_eq, Writer.adaptExcept_overwrite,
      Writer.overwrite_fresh]
  | ch => rfl
  | ss => rfl

/-- A field encodes by the codec of its format. -/
theorem encode_eq (f : Field) (value : Decimal) :
    f.encode value = match f.format with
      | .zd => (Zoned.encode f.encoding value f.length).mapError f.codecFault
      | .pd => (Packed.encode value f.length).mapError f.codecFault
      | .fi => (Binary.encodeSigned value f.length).mapError f.codecFault
      | .bi => (Binary.encodeUnsigned value f.length).mapError f.codecFault
      | .ch | .ss => .error (.setting (.numberIntoText f.format)) := by
  unfold Field.encode Field.write
  cases f.format with
  | zd => exact Writer.fresh_adaptExcept _ _ _
  | pd => exact Writer.fresh_adaptExcept _ _ _
  | fi => exact Writer.fresh_adaptExcept _ _ _
  | bi => exact Writer.fresh_adaptExcept _ _ _
  | ch => rfl
  | ss => rfl

/-- A numeric field is a codec of integers, whose faults name the field. -/
theorem exists_codec (hnumeric : f.format.isNumeric = true) :
    ∃ encode decode, IntegerCodec encode decode ∧
      (∀ value, f.encode value = (encode value f.length).mapError f.codecFault) ∧
      ∀ content, f.decode content = (decode content).mapError f.codecFault := by
  simp only [encode_eq, Field.decode]
  cases hformat : f.format with
  | zd => exact ⟨_, _, Zoned.integerCodec f.encoding, fun _ => rfl, fun _ => rfl⟩
  | pd => exact ⟨_, _, Packed.integerCodec, fun _ => rfl, fun _ => rfl⟩
  | fi => exact ⟨_, _, Binary.integerCodec_signed, fun _ => rfl, fun _ => rfl⟩
  | bi => exact ⟨_, _, Binary.integerCodec_unsigned, fun _ => rfl, fun _ => rfl⟩
  | ch =>
    rw [hformat] at hnumeric
    cases hnumeric
  | ss =>
    rw [hformat] at hnumeric
    cases hnumeric

/-- **What a numeric field writes, it reads back.** -/
theorem decode_encode (hnumeric : f.format.isNumeric = true) (h : f.encode value = .ok content) :
    f.Holds content value.truncate := by
  obtain ⟨encode, decode, hcodec, hencode, hdecode⟩ := exists_codec hnumeric
  rw [hencode, mapError_eq_ok_iff] at h
  obtain ⟨d, hd, hinteger⟩ := hcodec.reads h
  refine ⟨hcodec.length h, d, ?_, hinteger⟩
  rw [hdecode, mapError_eq_ok_iff]
  exact hd

/-- A numeric field reads integers, each in one spelling only. -/
theorem exact_decode (hnumeric : f.format.isNumeric = true) (h : f.decode content = .ok d) :
    Decimal.ofInt? d.truncate = some d := by
  obtain ⟨encode, decode, hcodec, -, hdecode⟩ := exists_codec hnumeric
  rw [hdecode, mapError_eq_ok_iff] at h
  exact hcodec.exact h

theorem isInteger_decode (hnumeric : f.format.isNumeric = true) (h : f.decode content = .ok d) :
    d.IsInteger d.truncate :=
  Decimal.isInteger_of_ofInt? (exact_decode hnumeric h)

/-- A numeric field refuses only what is too large for it. -/
theorem encode_eq_error {fault : Fault} (hnumeric : f.format.isNumeric = true)
    (h : f.encode value = .error fault) : fault = .overflow value.toText f.length f.format := by
  obtain ⟨encode, decode, hcodec, hencode, -⟩ := exists_codec hnumeric
  rw [hencode, mapError_eq_error_iff] at h
  obtain ⟨e, he, rfl⟩ := h
  rw [hcodec.refuses he]
  rfl

end Field

end CardSort
