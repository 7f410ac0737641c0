import CardSort.Proofs.Field.Decoding

/-!
# Decoding in registers of 128 bits

The loops that decode keep their number in a signed register of 128 bits: a digit or a byte is
appended by a multiplication and an addition, and a minus sign negates at the end. Here every one of
these steps is checked, and a number that leaves the register ends the computation. Fields of a
declared width never get there, so the loops decode what the exact numbers say.

* `Register.append` — one digit or byte appended, with both steps checked.
* `Register.Exact` — a computation in registers that does what another one does with exact numbers.
* `Register.Room` — what keeps all steps to come in the register.
* `Zoned.decodeIn`, `Packed.decodeIn`, `Binary.decodeSignedIn`, `Binary.decodeUnsignedIn` — the
  loops.
* `Field.decodeIn` — the number in the bytes of a field, decoded in registers.
* `Field.DeclaredNumber.decodeIn_eq` — **a declared field never leaves the register**.
-/

set_option autoImplicit false

namespace CardSort

/-- A computation that may fail, in registers of 128 bits: it comes to nothing if a number does not
fit. -/
abbrev Register (α : Type) : Type := ExceptT CodecFault Option α

namespace Register

/-- The integers of a signed register of 128 bits. -/
def Fits (n : Int) : Prop := -(2 : Int) ^ (127 : Nat) ≤ n ∧ n < 2 ^ (127 : Nat)

instance (n : Int) : Decidable (Fits n) := inferInstanceAs (Decidable (_ ∧ _))

/-- A number put into a register. -/
def put (n : Int) : Register Int := if Fits n then pure n else ExceptT.mk none

/-- Appends a digit: the register is shifted by one place, and the digit put into it. The shift
leaves a zero in that place, so that bits put there are bits added. -/
def append (base digit acc : Int) : Register Int := do
  let shifted ← put (acc * base)
  put (shifted + digit)

/-- Appends a decimal digit; `byte` is where the nibble stands. -/
def push (acc : Int) (nibble : Nat) (byte : UInt8) : Register Int :=
  if nibble > 9 then throw (.badDigit nibble byte.toNat) else append 10 nibble acc

/-- A number under its sign. -/
def signed (negative : Bool) (magnitude : Int) : Register Int :=
  if negative then put (-magnitude) else pure magnitude

/-- A step that needs no register. -/
def lift {α : Type} (x : Except CodecFault α) : Register α := ExceptT.mk (some x)

/-- The computation stays in its registers and does what another one does with exact numbers, whose
results it holds as `hold` says. -/
def Exact {α γ : Type} (hold : γ → α) (x : Register α) (y : Except CodecFault γ) : Prop :=
  x.run = some (y.map hold)

/-- The register is wide enough for as many more places. -/
structure Room (base acc : Int) (places : Nat) : Prop where
  low : -(2 : Int) ^ (127 : Nat) ≤ acc * base ^ places
  high : (acc + 1) * base ^ places ≤ 2 ^ (127 : Nat)

variable {α β γ δ : Type} {base digit acc : Int} {places : Nat}

/-! ### Exact computations -/

theorem exact_lift (x : Except CodecFault α) : Exact id (lift x) x := by
  cases x <;> rfl

theorem exact_put {n : Int} (h : Fits n) : Exact id (put n) (.ok n) := by
  rw [put, if_pos h]
  rfl

/-- Exact computations in sequence are exact. -/
theorem Exact.bind {x : Register α} {f : α → Register β} {hold : γ → α} {hold' : δ → β}
    {y : Except CodecFault γ} {g : γ → Except CodecFault δ} (hx : Exact hold x y)
    (hf : ∀ a, y = .ok a → Exact hold' (f (hold a)) (g a)) : Exact hold' (x >>= f) (y >>= g) := by
  unfold Exact at hx
  rw [Exact, ExceptT.run_bind, hx]
  cases y with
  | error e => rfl
  | ok a => exact hf a rfl

theorem Exact.run_eq {x : Register α} {y : Except CodecFault α} (h : Exact id x y) :
    x.run = some y := by
  rw [h]
  cases y <;> rfl

/-! ### Room for what comes -/

/-- What fits after more places fits without them. -/
theorem fits_of_mul {n p : Int} (hp : 0 < p) (hlow : -(2 : Int) ^ (127 : Nat) ≤ n * p)
    (hhigh : n * p < 2 ^ (127 : Nat)) : Fits n := by
  rcases Int.le_total 0 n with hn | hn
  · have hle : n * 1 ≤ n * p := Int.mul_le_mul_of_nonneg_left hp hn
    unfold Fits
    omega
  · have hle : n * p ≤ n * 1 := Int.mul_le_mul_of_nonpos_left hn hp
    unfold Fits
    omega

theorem Room.mul_lt (hbase : 0 < base) (h : Room base acc places) :
    acc * base ^ places < 2 ^ (127 : Nat) := by
  have hpower : 0 < base ^ places := Int.pow_pos hbase
  have hhigh := h.high
  rw [Int.add_mul, Int.one_mul] at hhigh
  omega

theorem Room.fits (hbase : 0 < base) (h : Room base acc places) : Fits acc :=
  fits_of_mul (Int.pow_pos hbase) h.low (h.mul_lt hbase)

theorem Room.shift (hbase : 0 < base) (h : Room base acc (places + 1)) : Fits (acc * base) := by
  have hplaces : acc * base * base ^ places = acc * base ^ (places + 1) := by
    rw [Int.pow_succ', Int.mul_assoc]
  have hlow := h.low
  have hhigh := h.mul_lt hbase
  rw [← hplaces] at hlow hhigh
  exact fits_of_mul (Int.pow_pos hbase) hlow hhigh

theorem Room.append (hdigit : 0 ≤ digit ∧ digit < base) (h : Room base acc (places + 1)) :
    Room base (acc * base + digit) places := by
  have hpower : 0 ≤ base ^ places := Int.pow_nonneg (by omega)
  constructor
  · calc -(2 : Int) ^ (127 : Nat)
        ≤ acc * base * base ^ places := by
          rw [Int.mul_assoc, ← Int.pow_succ']
          exact h.low
      _ ≤ (acc * base + digit) * base ^ places :=
          Int.mul_le_mul_of_nonneg_right (by omega) hpower
  · have hle : acc * base + digit + 1 ≤ (acc + 1) * base := by
      rw [Int.add_mul, Int.one_mul]
      omega
    calc (acc * base + digit + 1) * base ^ places
        ≤ (acc + 1) * base * base ^ places := Int.mul_le_mul_of_nonneg_right hle hpower
      _ ≤ 2 ^ (127 : Nat) := by
          rw [Int.mul_assoc, ← Int.pow_succ']
          exact h.high

/-- Behind nothing, 38 digits fit. -/
theorem room_digits (h : places ≤ 38) : Room 10 ((0 : Nat) : Int) places := by
  have hrange : (10 : Int) ^ places ≤ 10 ^ 38 := Positional.pow_le_pow 10 (by decide) h
  constructor
  · rw [Int.natCast_zero, Int.zero_mul]
    decide
  · rw [Int.natCast_zero, Int.zero_add, Int.one_mul]
    exact Int.le_trans hrange (by decide)

/-- Behind a register filled with one bit, 15 bytes fit. -/
theorem room_bytes (hfill : acc = 0 ∨ acc = -1) (h : places ≤ 15) : Room 256 acc places := by
  have hrange : (256 : Int) ^ places ≤ 256 ^ 15 := Positional.pow_le_pow 256 (by decide) h
  have hlimit : (256 : Int) ^ 15 ≤ 2 ^ (127 : Nat) := by decide
  have hpower : 0 < (256 : Int) ^ places := Int.pow_pos (by decide)
  rcases hfill with rfl | rfl
  · constructor
    · rw [Int.zero_mul]
      decide
    · rw [Int.zero_add, Int.one_mul]
      exact Int.le_trans hrange hlimit
  · constructor
    · rw [Int.neg_mul, Int.one_mul]
      exact Int.neg_le_neg (Int.le_trans hrange hlimit)
    · rw [Int.add_left_neg, Int.zero_mul]
      decide

/-! ### Steps of the loops -/

/-- One digit is appended inside the register. -/
theorem exact_append (hdigit : 0 ≤ digit ∧ digit < base) (h : Room base acc (places + 1)) :
    Exact id (append base digit acc) (.ok (acc * base + digit)) := by
  have hbase : 0 < base := by omega
  refine (exact_put (h.shift hbase)).bind (g := fun n => .ok (n + digit)) fun n hn => ?_
  cases hn
  exact exact_put ((h.append hdigit).fits hbase)

/-- A decimal digit is appended to an exact number. -/
theorem exact_push {acc nibble : Nat} (b : UInt8) (h : Room 10 acc (places + 1)) :
    Exact Nat.cast (push acc nibble b) (Packed.push acc nibble b) := by
  unfold push Packed.push
  split
  · rfl
  · exact exact_append (by omega) h

theorem room_of_push {acc nibble next : Nat} {b : UInt8} (h : Room 10 acc (places + 1))
    (hpush : Packed.push acc nibble b = .ok next) : Room 10 next places := by
  obtain ⟨hten, rfl⟩ := Packed.push_eq_ok hpush
  have hdigit : 0 ≤ (nibble : Int) ∧ (nibble : Int) < 10 := by omega
  exact_mod_cast h.append hdigit

theorem exact_signed {magnitude : Nat} (negative : Bool) (h : Fits magnitude) :
    Exact id (signed negative magnitude)
      (.ok (if negative then -(magnitude : Int) else magnitude)) := by
  cases negative with
  | false => rfl
  | true =>
    refine exact_put ?_
    unfold Fits at h ⊢
    omega

end Register

open Register

/-! ## Zoned decimals -/

namespace Zoned

variable {bytes : Bytes}

/-- The number spelt by the low nibbles of a byte string, after a number already read. -/
def digitsIn (acc : Int) : Bytes → Register Int
  | [] => pure acc
  | b :: rest => do
    let acc ← push acc (Bytes.lowNibble b) b
    digitsIn acc rest

/-- Decodes a zoned decimal. -/
def decodeIn (enc : Encoding) (bytes : Bytes) : Register Decimal := do
  let magnitude ← digitsIn 0 bytes
  let n ← signed (isNegative enc bytes) magnitude
  lift (Accumulator.toDecimal n)

theorem digitsFrom_cons (acc : Nat) (b : UInt8) (rest : Bytes) :
    digitsFrom acc (b :: rest) =
      Packed.push acc (Bytes.lowNibble b) b >>= fun acc => digitsFrom acc rest := by
  simp only [digitsFrom, Packed.push]
  split <;> rfl

theorem exact_digitsIn {acc : Nat} (h : Room 10 acc bytes.length) :
    Exact Nat.cast (digitsIn acc bytes) (digitsFrom acc bytes) := by
  induction bytes generalizing acc with
  | nil => rfl
  | cons b rest ih =>
    rw [digitsFrom_cons]
    exact (exact_push b h).bind fun next hnext => ih (room_of_push h hnext)

theorem exact_decodeIn (enc : Encoding) (hwidth : bytes.length ≤ 28) :
    Exact id (decodeIn enc bytes) (decode enc bytes) := by
  have hroom : Room 10 ((0 : Nat) : Int) bytes.length := room_digits (by omega)
  refine (exact_digitsIn hroom).bind fun magnitude hdigits => ?_
  have hlt := magnitude_lt hdigits
  have hrange : 10 ^ bytes.length ≤ 10 ^ 28 := Nat.pow_le_pow_right (by decide) hwidth
  have hfits : Fits magnitude := by
    unfold Fits
    omega
  exact (exact_signed (isNegative enc bytes) hfits).bind
    (g := Accumulator.toDecimal) fun n _ => exact_lift _

end Zoned

/-! ## Packed decimals -/

namespace Packed

variable {bytes : Bytes}

/-- The signed number of a byte string, after the digits already read. -/
def valueIn (acc : Int) : Bytes → Register Int
  | [] => pure 0
  | [last] => do
    let magnitude ← Register.push acc (Bytes.highNibble last) last
    let negative ← lift (isNegativeSign (Bytes.lowNibble last))
    signed negative magnitude
  | b :: rest => do
    let acc ← Register.push acc (Bytes.highNibble b) b
    let acc ← Register.push acc (Bytes.lowNibble b) b
    valueIn acc rest

/-- Decodes a packed decimal. -/
def decodeIn (bytes : Bytes) : Register Decimal := do
  let n ← valueIn 0 bytes
  lift (Accumulator.toDecimal n)

/-- Two places are enough for each byte, though the last one brings only one digit. -/
theorem exact_valueIn {acc : Nat} (h : Room 10 acc (2 * bytes.length)) :
    Exact id (valueIn acc bytes) (valueFrom acc bytes) := by
  -- the low nibble of a byte is a digit or the sign, so the cases ask whether more bytes follow
  induction bytes generalizing acc with
  | nil => rfl
  | cons b rest ih =>
    have hfirst : Room 10 acc (2 * rest.length + 1 + 1) := h
    cases rest with
    | nil =>
      refine (exact_push b hfirst).bind fun magnitude hpush => ?_
      refine (exact_lift _).bind fun negative _ => ?_
      exact exact_signed negative ((room_of_push hfirst hpush).fits (by decide))
    | cons c rest =>
      refine (exact_push b hfirst).bind fun high hhigh => ?_
      have hsecond := room_of_push hfirst hhigh
      exact (exact_push b hsecond).bind fun low hlow => ih (room_of_push hsecond hlow)

theorem exact_decodeIn (hwidth : bytes.length ≤ 14) :
    Exact id (decodeIn bytes) (decode bytes) := by
  have hroom : Room 10 ((0 : Nat) : Int) (2 * bytes.length) :=
    room_digits (by omega)
  exact (exact_valueIn hroom).bind fun n _ => exact_lift _

end Packed

/-! ## Binary integers -/

namespace Binary

variable {bytes : Bytes}

/-- The bytes of a number, after a number already read. -/
def bytesIn (acc : Int) : Bytes → Register Int
  | [] => pure acc
  | b :: rest => do
    let acc ← append 256 b.toNat acc
    bytesIn acc rest

/-- Decodes a signed integer: the register is filled with the first bit. -/
def decodeSignedIn (bytes : Bytes) : Register Decimal :=
  match bytes with
  | [] => lift (Accumulator.toDecimal 0)
  | first :: _ => do
    let n ← bytesIn (if first.toNat < 128 then 0 else -1) bytes
    lift (Accumulator.toDecimal n)

/-- Decodes an unsigned integer. -/
def decodeUnsignedIn (bytes : Bytes) : Register Decimal := do
  let n ← bytesIn 0 bytes
  lift (Accumulator.toDecimal n)

/-- The bytes are put behind what the register holds. -/
theorem exact_bytesIn {acc : Int} (h : Room 256 acc bytes.length) :
    Exact id (bytesIn acc bytes) (.ok (acc * 256 ^ bytes.length + unsigned bytes)) := by
  -- by induction on the bytes for every register that has room for them, as each byte fills it
  induction bytes generalizing acc with
  | nil =>
    have hvalue : acc * 256 ^ ([] : Bytes).length + (unsigned [] : Nat) = acc := by
      rw [List.length_nil, Int.pow_zero, Int.mul_one]
      exact Int.add_zero acc
    rw [hvalue]
    rfl
  | cons b rest ih =>
    have hdigit : 0 ≤ (b.toNat : Int) ∧ (b.toNat : Int) < 256 := by
      have hb := b.toNat_lt
      omega
    have hvalue : acc * 256 ^ (b :: rest).length + unsigned (b :: rest) =
        (acc * 256 + b.toNat) * 256 ^ rest.length + unsigned rest := by
      rw [unsigned_cons, List.length_cons, Int.pow_succ', Int.natCast_add, Int.natCast_mul,
        Int.natCast_pow, Int.add_mul, Int.mul_assoc, Int.add_assoc]
      rfl
    have happend : Exact id (append 256 b.toNat acc) (.ok (acc * 256 + b.toNat)) :=
      exact_append hdigit h
    rw [hvalue]
    refine happend.bind (g := fun n : Int => .ok (n * 256 ^ rest.length + unsigned rest))
      fun n hn => ?_
    cases hn
    exact ih (h.append hdigit)

theorem exact_decodeUnsignedIn (hwidth : bytes.length ≤ 8) :
    Exact id (decodeUnsignedIn bytes) (decodeUnsigned bytes) := by
  have hbytes := exact_bytesIn (room_bytes (.inl rfl) (show bytes.length ≤ 15 by omega))
  rw [Int.zero_mul, Int.zero_add] at hbytes
  rw [decodeUnsigned, ← ok_bind (unsigned bytes : Int) Accumulator.toDecimal]
  exact hbytes.bind fun n _ => exact_lift _

/-- Behind a register filled with the first bit stands the value in two's complement. -/
theorem exact_decodeSignedIn (hwidth : bytes.length ≤ 8) :
    Exact id (decodeSignedIn bytes) (decodeSigned bytes) := by
  cases bytes with
  | nil => exact exact_lift _
  | cons first rest =>
    have hfill : (if first.toNat < 128 then 0 else -1 : Int) = 0 ∨
        (if first.toNat < 128 then 0 else -1 : Int) = -1 := by
      split
      · exact .inl rfl
      · exact .inr rfl
    have hvalue : (if first.toNat < 128 then 0 else -1 : Int) * 256 ^ (first :: rest).length +
        unsigned (first :: rest) = signed (first :: rest) := by
      rw [signed]
      split
      · rw [Int.zero_mul, Int.zero_add]
      · rw [Int.neg_mul, Int.one_mul]
        omega
    have hbytes := exact_bytesIn (room_bytes hfill (show (first :: rest).length ≤ 15 by omega))
    rw [hvalue] at hbytes
    rw [decodeSigned, ← ok_bind (signed (first :: rest)) Accumulator.toDecimal]
    exact hbytes.bind fun n _ => exact_lift _

end Binary

/-! ## Fields -/

namespace Field

variable {f : Field} {content : Bytes}

/-- The number in the bytes of a field, decoded in registers of 128 bits; nothing if a number leaves
its register. -/
def decodeIn (f : Field) (content : Bytes) : Option (Except Fault Decimal) :=
  match f.format with
  | .zd => (Zoned.decodeIn f.encoding content).run.map (Except.mapError f.codecFault)
  | .pd => (Packed.decodeIn content).run.map (Except.mapError f.codecFault)
  | .fi => (Binary.decodeSignedIn content).run.map (Except.mapError f.codecFault)
  | .bi => (Binary.decodeUnsignedIn content).run.map (Except.mapError f.codecFault)
  | .ch | .ss => some (decimalOfText (f.encoding.decode content) f.position)

/-- **A declared field never leaves the register**, whatever bytes it holds. -/
theorem DeclaredNumber.decodeIn_eq (hf : f.DeclaredNumber) (hlength : content.length = f.length) :
    f.decodeIn content = some (f.decode content) := by
  have hwidth {maximum : Nat} : f.format.maxLength? = some maximum → content.length ≤ maximum := by
    rw [hlength]
    exact hf.length_le
  unfold decodeIn decode
  cases hformat : f.format with
  | zd =>
    rw [hformat] at hwidth
    simp only [(Zoned.exact_decodeIn f.encoding (hwidth rfl)).run_eq, Option.map_some]
  | pd =>
    rw [hformat] at hwidth
    simp only [(Packed.exact_decodeIn (hwidth rfl)).run_eq, Option.map_some]
  | fi =>
    rw [hformat] at hwidth
    simp only [(Binary.exact_decodeSignedIn (hwidth rfl)).run_eq, Option.map_some]
  | bi =>
    rw [hformat] at hwidth
    simp only [(Binary.exact_decodeUnsignedIn (hwidth rfl)).run_eq, Option.map_some]
  | ch => rfl
  | ss => rfl

/-- Of more digits than a declared field has, 39 nines leave the register. -/
example : Field.decodeIn ⟨0, 39, .zd, .ascii⟩ (List.replicate 39 0x39) = none := by decide +kernel

end Field

end CardSort
