import CardSort.Proofs.Key.Order
import Mathlib.Data.List.Basic

/-!
# The order of a collation

A collation orders byte strings as if they were written in the encoding that sets the order. Its
weights say the same: the lower half of a weight holds the byte itself, but both encodings have one
byte for each character of Latin-1, so the upper halves never tie on different bytes.

* `Encoding.recode_injective` — no two bytes of one encoding become one byte of another.
* `Collation.translate` — a byte string as the encoding that sets the order would write it.
* `Collation.compare_weight` — the weights of two bytes are in the order of the bytes translated.
* `Collation.compare_translates` — **a collation compares what it translates to**, and byte strings
  tie only if they are equal.
-/

set_option autoImplicit false

namespace CardSort

/-! ## Comparing images -/

theorem compareLex_map {α β : Type} (f : α → β) (cmp : β → β → Ordering) (xs ys : List α) :
    List.compareLex cmp (xs.map f) (ys.map f) =
      List.compareLex (fun x y => cmp (f x) (f y)) xs ys := by
  induction xs generalizing ys with
  | nil => cases ys <;> rfl
  | cons x xs ih =>
    cases ys with
    | nil => rfl
    | cons y ys =>
      rw [List.map_cons, List.map_cons, List.compareLex_cons_cons, List.compareLex_cons_cons, ih]

/-- Lower halves that agree wherever the upper halves do decide nothing. -/
theorem compare_halves {m n i j : Nat} (hi : i < 256) (hj : j < 256) (h : m = n → i = j) :
    compare (m * 256 + i) (n * 256 + j) = compare m n := by
  rcases Nat.lt_trichotomy m n with hlt | rfl | hgt
  · rw [Nat.compare_eq_lt.2 hlt, Nat.compare_eq_lt]
    omega
  · rw [h rfl, Nat.compare_eq_eq.2 rfl, Nat.compare_eq_eq.2 rfl]
  · rw [Nat.compare_eq_gt.2 hgt, Nat.compare_eq_gt]
    omega

/-! ## Bytes of two encodings -/

namespace Encoding

/-- No two bytes of one encoding become one byte of another. -/
theorem recode_injective (display target : Encoding) :
    Function.Injective fun b => target.encodeChar (display.decodeByte b) := by
  intro x y h
  have hchar : display.decodeByte x = display.decodeByte y := by
    have := congrArg target.decodeByte h
    rwa [decodeByte_encodeChar (display.toNat_decodeByte_lt x),
      decodeByte_encodeChar (display.toNat_decodeByte_lt y)] at this
  rw [← display.encodeChar_decodeByte x, hchar, display.encodeChar_decodeByte]

end Encoding

/-! ## Weights and translated bytes -/

namespace Collation

/-- A byte of the data as the encoding that sets the order would write it: its character in that
encoding, or the byte itself if no other encoding sets the order. -/
def translateByte (display : Encoding) (target : Option Encoding) (b : UInt8) : UInt8 :=
  match target with
  | some target => if target = display then b else target.encodeChar (display.decodeByte b)
  | none => b

/-- A byte string as the encoding that sets the order would write it. -/
def translate (display : Encoding) (target : Option Encoding) (bytes : Bytes) : Bytes :=
  bytes.map (translateByte display target)

variable (display : Encoding) (target : Option Encoding)

theorem translateByte_injective : Function.Injective (translateByte display target) := by
  cases target with
  | none => exact fun _ _ h => h
  | some target =>
    intro x y h
    simp only [translateByte] at h
    split at h
    · exact h
    · exact display.recode_injective target h

theorem translate_injective : Function.Injective (translate display target) :=
  List.map_injective_iff.2 (translateByte_injective display target)

/-- The weight of a byte holds the translated byte above a half that is below 256 and is fixed by
the byte. -/
theorem exists_weight_eq : ∃ lower : UInt8 → Nat, ∀ b, lower b < 256 ∧
    (of display target).weight b = (translateByte display target b).toNat * 256 + lower b := by
  have hnative : ∀ b : UInt8, 0 < 256 ∧ native.weight b = b.toNat * 256 + 0 := by
    intro b
    rw [weight]
    omega
  cases target with
  | none => exact ⟨fun _ => 0, hnative⟩
  | some target =>
    simp only [of, translateByte]
    split
    · exact ⟨fun _ => 0, hnative⟩
    · exact ⟨UInt8.toNat, fun b => ⟨b.toNat_lt, rfl⟩⟩

/-- **The weights of two bytes are in the order of the bytes translated.** -/
theorem compare_weight (x y : UInt8) :
    Ord.compare ((of display target).weight x) ((of display target).weight y) =
      Ord.compare (translateByte display target x) (translateByte display target y) := by
  obtain ⟨lower, hweight⟩ := exists_weight_eq display target
  rw [(hweight x).2, (hweight y).2, UInt8.compare_eq_toNat_compare_toNat]
  refine compare_halves (hweight x).1 (hweight y).1 fun h => ?_
  rw [translateByte_injective display target (UInt8.toNat_inj.1 h)]

/-- Byte strings are compared by weights, also where they are compared as they stand. -/
theorem compare_eq_weights (collation : Collation) (a b : Bytes) :
    collation.compare a b =
      List.compareLex Ord.compare (a.map collation.weight) (b.map collation.weight) := by
  rw [compareLex_map]
  cases collation with
  | recoded display target => exact Bytes.compareBy_eq_compareLex _ a b
  | native =>
    have hweight : (fun x y => Ord.compare (native.weight x) (native.weight y)) =
        compareOn UInt8.toNat := by
      funext x y
      have h := compare_halves (m := x.toNat) (n := y.toNat) (i := 0) (j := 0) (by decide)
        (by decide) fun _ => rfl
      simpa only [weight, compareOn, Nat.add_zero] using h
    rw [hweight]
    exact Bytes.compareBy_eq_compareLex _ a b

theorem compare_eq_translate (a b : Bytes) : (of display target).compare a b =
    List.compareLex Ord.compare (translate display target a) (translate display target b) := by
  rw [compare_eq_weights, compareLex_map, translate, translate, compareLex_map]
  simp only [compare_weight]

/-- **A collation compares what it translates to.** It orders byte strings as the byte strings in
the encoding that sets the order are ordered, which is the order of their weights, and they tie only
if they are equal. -/
theorem compare_translates (a b : Bytes) :
    (of display target).compare a b =
        List.compareLex Ord.compare (translate display target a) (translate display target b) ∧
      (of display target).compare a b =
        List.compareLex Ord.compare (a.map (of display target).weight)
          (b.map (of display target).weight) ∧
      ((of display target).compare a b = .eq ↔ a = b) := by
  refine ⟨compare_eq_translate display target a b, compare_eq_weights _ a b, ?_⟩
  rw [compare_eq_translate, Std.LawfulEqCmp.compare_eq_iff_eq]
  exact (translate_injective display target).eq_iff

/-- EBCDIC has the small letters in front of the capital ones, and the digits behind both. -/
example : (of .ascii (some .ebcdic)).compare [0x61] [0x41] = .lt ∧
    (of .ascii (some .ebcdic)).compare [0x5A] [0x31] = .lt := by decide +kernel

end Collation

end CardSort
