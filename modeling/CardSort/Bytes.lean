/-!
# Byte strings

Records, keys and constants are plain lists of bytes.

* `Bytes.slice?` reads a range, `Bytes.splice` replaces one.
* `Bytes.compareBy` orders byte strings weight by weight, a proper prefix first.
* `Bytes.occursIn` finds one byte string inside another.
* `Bytes.highNibble`, `Bytes.lowNibble` and `Bytes.ofNibbles` take bytes apart and build them.
-/

set_option autoImplicit false

namespace CardSort

/-- A byte string. -/
abbrev Bytes := List UInt8

namespace Bytes

/-! ## Ranges -/

/-- The `length` bytes from offset `start`, if all of them exist. -/
def slice? (record : Bytes) (start length : Nat) : Option Bytes :=
  if start + length ≤ record.length then some ((record.drop start).take length) else none

/-- The record with the bytes from offset `start` replaced by `patch`. -/
def splice (record : Bytes) (start : Nat) (patch : Bytes) : Bytes :=
  record.take start ++ patch ++ record.drop (start + patch.length)

theorem length_of_slice? {record field : Bytes} {start length : Nat}
    (h : slice? record start length = some field) : field.length = length := by
  unfold slice? at h
  split at h
  · cases h
    simp only [List.length_take, List.length_drop]
    omega
  · cases h

theorem slice?_eq_none_iff {record : Bytes} {start length : Nat} :
    slice? record start length = none ↔ record.length < start + length := by
  unfold slice?
  split <;> simp <;> omega

theorem length_splice {record patch : Bytes} {start : Nat}
    (h : start + patch.length ≤ record.length) :
    (splice record start patch).length = record.length := by
  simp only [splice, List.length_append, List.length_take, List.length_drop]
  omega

/-! ## Order and search -/

/-- Compares two byte strings weight by weight; a proper prefix comes first. -/
def compareBy (weight : UInt8 → Nat) : Bytes → Bytes → Ordering
  | [], [] => .eq
  | [], _ :: _ => .lt
  | _ :: _, [] => .gt
  | x :: xs, y :: ys => (compare (weight x) (weight y)).then (compareBy weight xs ys)

/-- Whether `needle` stands somewhere in the byte string; the empty needle always does. -/
def occursIn (needle : Bytes) : Bytes → Bool
  | [] => needle.isEmpty
  | b :: rest => needle.isPrefixOf (b :: rest) || occursIn needle rest

/-! ## Nibbles -/

/-- The upper four bits of a byte. -/
def highNibble (b : UInt8) : Nat := b.toNat / 16

/-- The lower four bits of a byte. -/
def lowNibble (b : UInt8) : Nat := b.toNat % 16

/-- The byte with the given upper and lower four bits. -/
def ofNibbles (high low : Nat) : UInt8 := UInt8.ofNat (16 * high + low)

theorem highNibble_ofNibbles {high low : Nat} (hh : high < 16) (hl : low < 16) :
    highNibble (ofNibbles high low) = high := by
  simp only [highNibble, ofNibbles, UInt8.toNat_ofNat']
  omega

theorem lowNibble_ofNibbles (high : Nat) {low : Nat} (hl : low < 16) :
    lowNibble (ofNibbles high low) = low := by
  simp only [lowNibble, ofNibbles, UInt8.toNat_ofNat']
  omega

theorem ofNibbles_nibbles (b : UInt8) : ofNibbles (highNibble b) (lowNibble b) = b := by
  have hb := b.toNat_lt
  simp only [ofNibbles, highNibble, lowNibble]
  rw [show 16 * (b.toNat / 16) + b.toNat % 16 = b.toNat by omega]
  exact UInt8.ofNat_toNat

end Bytes

end CardSort
