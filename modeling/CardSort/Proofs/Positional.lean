import CardSort.Positional

/-!
# Digits and their value

A numeral of a fixed width is determined by the number it spells. Binary fields and length
prefixes write the digits in base 256 as bytes.

* `Positional.value_cons` — the first digit counts for as many powers as digits follow it.
* `Positional.value_lt` — a number has no more digits than its numeral.
* `Positional.digits_value` — a numeral is the digits of its value.
* `Positional.value_bytes` — the bytes of a number of limited width read back as the number.
* `Positional.digits_bytes` — bytes are those of the number that they spell.
-/

set_option autoImplicit false

namespace CardSort.Positional

theorem pow_le_pow {m n : Nat} (base : Nat) (hbase : 0 < base) (h : m ≤ n) :
    (base : Int) ^ m ≤ (base : Int) ^ n := by
  exact_mod_cast Nat.pow_le_pow_right hbase h

theorem valueFrom_eq (base acc : Nat) (ds : List Nat) :
    valueFrom base acc ds = acc * base ^ ds.length + value base ds := by
  induction ds generalizing acc with
  | nil => simp [valueFrom, value]
  | cons d ds ih =>
    have hfirst : value base (d :: ds) = d * base ^ ds.length + value base ds := by
      rw [value, valueFrom, ih, Nat.zero_mul, Nat.zero_add]
    rw [valueFrom, ih, hfirst, List.length_cons, Nat.pow_succ, Nat.add_mul, Nat.mul_assoc,
      Nat.mul_comm base, Nat.add_assoc]

theorem value_cons (base d : Nat) (ds : List Nat) :
    value base (d :: ds) = d * base ^ ds.length + value base ds := by
  rw [value, valueFrom, valueFrom_eq, Nat.zero_mul, Nat.zero_add]

theorem value_lt {base : Nat} {ds : List Nat} (hds : ∀ d ∈ ds, d < base) :
    value base ds < base ^ ds.length := by
  induction ds with
  | nil =>
    rw [List.length_nil, Nat.pow_zero]
    exact Nat.zero_lt_one
  | cons d ds ih =>
    have hd : d + 1 ≤ base := hds d List.mem_cons_self
    have hrest := ih fun x hx => hds x (List.mem_cons_of_mem _ hx)
    calc value base (d :: ds)
        = d * base ^ ds.length + value base ds := value_cons base d ds
      _ < d * base ^ ds.length + base ^ ds.length := Nat.add_lt_add_left hrest _
      _ = (d + 1) * base ^ ds.length := by rw [Nat.add_mul, Nat.one_mul]
      _ ≤ base * base ^ ds.length := Nat.mul_le_mul_right _ hd
      _ = base ^ (d :: ds).length := by rw [List.length_cons, Nat.pow_succ, Nat.mul_comm]

/-- **A numeral is the digits of the number it spells.** -/
theorem digits_value {base : Nat} {ds : List Nat} (hds : ∀ d ∈ ds, d < base) :
    digits base ds.length (value base ds) = ds := by
  -- digits are split off at the end, so the induction takes the last one away
  induction hlength : ds.length generalizing ds with
  | zero => exact (List.eq_nil_of_length_eq_zero hlength).symm
  | succ width ih =>
    obtain hnil | ⟨front, last, rfl⟩ := List.eq_nil_or_concat ds
    · rw [hnil, List.length_nil] at hlength
      omega
    · rw [List.concat_eq_append] at hds hlength ⊢
      rw [List.length_append, List.length_singleton] at hlength
      have hlast : last < base := hds last (List.mem_append_right _ List.mem_cons_self)
      have hfront := ih (fun d hd => hds d (List.mem_append_left _ hd)) (Nat.succ.inj hlength)
      have hvalue : value base (front ++ [last]) = value base front * base + last := by
        rw [value, valueFrom_append]
        rfl
      have hdiv : (value base front * base + last) / base = value base front := by
        rw [Nat.mul_comm, Nat.mul_add_div (Nat.zero_lt_of_lt hlast), Nat.div_eq_of_lt hlast,
          Nat.add_zero]
      have hmod : (value base front * base + last) % base = last := by
        rw [Nat.mul_comm, Nat.mul_add_mod, Nat.mod_eq_of_lt hlast]
      rw [hvalue, digits, hdiv, hmod, hfront]

theorem map_toNat_ofNat_digits (width n : Nat) :
    ((digits 256 width n).map UInt8.ofNat).map UInt8.toNat = digits 256 width n := by
  have hdigit : ∀ d ∈ digits 256 width n, (UInt8.toNat ∘ UInt8.ofNat) d = id d := by
    intro d hd
    have hlt : d < 256 := lt_of_mem_digits (by decide) hd
    simp only [Function.comp_apply, UInt8.toNat_ofNat']
    exact Nat.mod_eq_of_lt hlt
  rw [List.map_map, List.map_congr_left hdigit, List.map_id]

/-- A number of at most `width` bytes is read back from its bytes. -/
theorem value_bytes {width n : Nat} (h : n < 256 ^ width) :
    value 256 (((digits 256 width n).map UInt8.ofNat).map UInt8.toNat) = n := by
  rw [map_toNat_ofNat_digits, value_digits, Nat.mod_eq_of_lt h]

theorem lt_of_mem_map_toNat (bytes : List UInt8) : ∀ d ∈ bytes.map UInt8.toNat, d < 256 := by
  intro d hd
  obtain ⟨b, -, rfl⟩ := List.mem_map.1 hd
  exact b.toNat_lt

theorem value_bytes_lt (bytes : List UInt8) :
    value 256 (bytes.map UInt8.toNat) < 256 ^ bytes.length := by
  have hlt := value_lt (lt_of_mem_map_toNat bytes)
  rwa [List.length_map] at hlt

/-- Bytes are those of the number that they spell. -/
theorem digits_bytes (bytes : List UInt8) :
    (digits 256 bytes.length (value 256 (bytes.map UInt8.toNat))).map UInt8.ofNat = bytes := by
  have hdigits := digits_value (lt_of_mem_map_toNat bytes)
  have hbyte : UInt8.ofNat ∘ UInt8.toNat = id := by
    funext b
    exact UInt8.ofNat_toNat
  rw [List.length_map] at hdigits
  rw [hdigits, List.map_map, hbyte, List.map_id]

end CardSort.Positional
