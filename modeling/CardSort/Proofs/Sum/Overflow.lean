import CardSort.Proofs.Field.Registers
import CardSort.Proofs.Sum.Conservation

/-!
# Only totals overflow

Two numbers of declared fields have at most 28 digits each, so their exact sum still is a decimal.
What can overflow is the total that goes back into its field, and nothing before that.

* `Field.DeclaredNumber.exists_add?` — the sum of two decoded numbers is exact.
* `Field.Totals` — what two records add up to in a field.
* `SumRule.Overflows` — the first total that does not fit its field.
* `SumRule.addInto_cons` — one field of an addition.
* `SumRule.addInto_eq_none_iff` — an addition is given up for such a total only.
* `SumRule.numbers_in_range` — **numbers of declared fields never leave the range of decimals**,
  from their bytes to their sums.
-/

set_option autoImplicit false

namespace CardSort

namespace Field

variable {f g : Field} {pending record : Bytes} {value a b : Decimal} {n : Int}

/-- A number is stored into a field of the record if it is in the range of the field. -/
theorem DeclaredNumber.exists_store_iff (hf : f.DeclaredNumber) (hstop : f.stop ≤ record.length) :
    (∃ stored, (f.store value).run record = .ok () stored) ↔ f.Represents value.truncate := by
  obtain ⟨position, hof⟩ := hf.declared
  rw [Field.exists_store_iff, exists_encode_iff hof hf.numeric]
  exact and_iff_right hstop

/-- **The sum of two decoded numbers is exact.** -/
theorem DeclaredNumber.exists_add? (hf : f.DeclaredNumber) (hg : g.DeclaredNumber)
    (ha : f.decimal record = .ok a) (hb : g.decimal pending = .ok b) :
    ∃ m n sum, a.IsInteger m ∧ b.IsInteger n ∧ (m + n).natAbs < 2 ^ (96 : Nat) ∧
      a.add? b = some sum ∧ sum.IsInteger (m + n) := by
  obtain ⟨m, hm, hmrange⟩ := hf.reads_represents ha
  obtain ⟨n, hn, hnrange⟩ := hg.reads_represents hb
  have hsum : (m + n).natAbs < 2 ^ (96 : Nat) := by
    have hmlt := hf.natAbs_lt hmrange
    have hnlt := hg.natAbs_lt hnrange
    omega
  obtain ⟨sum, hadd⟩ := Decimal.exists_ofInt? hsum
  exact ⟨m, n, sum, hm, hn, hsum, (hm.add?_eq hn).trans hadd, Decimal.isInteger_of_ofInt? hadd⟩

/-- Both records hold a number in the field, and `n` is what they add up to. -/
def Totals (f : Field) (pending record : Bytes) (n : Int) : Prop :=
  ∃ a b, f.Reads pending a ∧ f.Reads record b ∧ a + b = n

end Field

namespace SumRule

variable {fields : List Field} {f : Field} {pending record total : Bytes} {n : Int}

/-- A total does not fit its field, and the totals of the fields in front of it fit theirs. -/
inductive Overflows (pending record : Bytes) : List Field → Prop where
  | here {f : Field} {fields : List Field} {n : Int} (total : f.Totals pending record n)
    (exceeds : ¬ f.Represents n) : Overflows pending record (f :: fields)
  | later {f : Field} {fields : List Field} {n : Int} (total : f.Totals pending record n)
    (fits : f.Represents n) (rest : Overflows pending record fields) :
    Overflows pending record (f :: fields)

/-- One field of an addition: if its total fits, it is stored and the addition goes on, and
otherwise the addition is given up. -/
theorem addInto_cons (hf : f.DeclaredNumber) (hlength : total.length = pending.length)
    (htotal : f.Totals pending record n) :
    (f.Represents n ∧ ∃ stored, stored.length = total.length ∧
      addInto pending record total (f :: fields) = addInto pending record stored fields) ∨
    (¬ f.Represents n ∧ addInto pending record total (f :: fields) = .ok none) := by
  obtain ⟨x, y, ⟨a, ha, hx⟩, ⟨b, hb, hy⟩, rfl⟩ := htotal
  obtain ⟨m, n, sum, hm, hn, -, hadd, hsum⟩ := hf.exists_add? hf ha hb
  obtain rfl : m = x := hm.unique hx
  obtain rfl : n = y := hn.unique hy
  have hstop : f.stop ≤ total.length := by
    obtain ⟨content, hcontent, -⟩ := Field.decimal_eq_ok_iff.1 ha
    rw [hlength]
    exact Field.exists_bytes_iff.1 ⟨content, hcontent⟩
  have hstores : (∃ stored, (f.store sum).run total = .ok () stored) ↔ f.Represents (m + n) := by
    rw [← hsum.truncate]
    exact hf.exists_store_iff hstop
  rw [addInto, ha, ok_bind, hb, ok_bind]
  simp only [hadd]
  cases hstore : (f.store sum).run total with
  | ok _ stored =>
    have hsame := (Field.store_eq_ok hf.numeric hstore).1
    exact .inl ⟨hstores.1 ⟨stored, hstore⟩, stored, hsame.length, rfl⟩
  | error fault left =>
    have hoverflow : isOverflow fault = true := by
      rw [(Field.store_eq_error hf.numeric hstore).2, if_neg (Nat.not_lt.2 hstop)]
      rfl
    refine .inr ⟨fun hfits => ?_, if_pos hoverflow⟩
    obtain ⟨stored, hstored⟩ := hstores.2 hfits
    cases hstore.symm.trans hstored

/-- An addition that is not stopped by a fault reads both records in its first field. -/
theorem exists_totals_of_addInto {out : Option Bytes} (hf : f.format.isNumeric = true)
    (h : addInto pending record total (f :: fields) = .ok out) :
    ∃ n, f.Totals pending record n := by
  obtain ⟨a, ha, h⟩ := bind_eq_ok_iff.1 h
  obtain ⟨b, hb, -⟩ := bind_eq_ok_iff.1 h
  exact ⟨_, _, _, Field.reads_truncate hf ha, Field.reads_truncate hf hb, rfl⟩

/-- **An addition is given up if a total does not fit its field, and for nothing else.** -/
theorem addInto_eq_none_iff (hfields : ∀ f ∈ fields, f.DeclaredNumber)
    (hlength : total.length = pending.length) :
    addInto pending record total fields = .ok none ↔ Overflows pending record fields := by
  -- every field stores into `total` but reads from `pending`, so only the length is carried along
  induction fields generalizing total with
  | nil => exact iff_of_false (fun h => by cases h) fun h => by cases h
  | cons f fields ih =>
    have hf := hfields f List.mem_cons_self
    have hrest : ∀ g ∈ fields, g.DeclaredNumber := fun g hg =>
      hfields g (List.mem_cons_of_mem _ hg)
    constructor
    · intro h
      obtain ⟨n, htotal⟩ := exists_totals_of_addInto hf.numeric h
      rcases addInto_cons hf hlength htotal with ⟨hfits, stored, hstored, hgo⟩ | ⟨hexceeds, -⟩
      · exact .later htotal hfits ((ih hrest (hstored.trans hlength)).1 (hgo ▸ h))
      · exact .here htotal hexceeds
    · intro h
      cases h with
      | here htotal hexceeds =>
        rcases addInto_cons hf hlength htotal with ⟨hfits, -⟩ | ⟨-, hnone⟩
        · exact absurd hfits hexceeds
        · exact hnone
      | later htotal hfits hoverflows =>
        rcases addInto_cons hf hlength htotal with ⟨-, stored, hstored, hgo⟩ | ⟨hexceeds, -⟩
        · rw [hgo]
          exact (ih hrest (hstored.trans hlength)).2 hoverflows
        · exact absurd hfits hexceeds

/-- A push counts an overflow if the record ties with the pending one and one of their totals does
not fit. -/
theorem push_overflows_iff (hfields : ∀ f ∈ fields, f.DeclaredNumber) {comparer : Comparer}
    {s : SumState} :
    ((addFields fields).push comparer s record).2.overflows = s.overflows + 1 ↔
      ∃ pending, s.pending = some pending ∧ comparer.compare pending record = .eq ∧
        Overflows pending record fields := by
  cases hpending : s.pending with
  | none => simp [push_of_none hpending]
  | some pending =>
    by_cases hkey : comparer.compare pending record = .eq
    · rw [push_addFields hpending hkey]
      have hiff : addInto pending record pending fields = .ok none ↔ _ :=
        addInto_eq_none_iff hfields rfl
      simp only [Option.some.injEq, exists_eq_left', hkey, true_and, ← hiff]
      split <;> simp_all
    · simp [push_of_ne hpending hkey, hkey]

/-- **Numbers of declared fields never leave the range of decimals.** A declared numeric field reads
an integer of its range from any record, or the record is too short, or the bytes are no number;
decoded in registers of 128 bits the number never leaves them. Any two numbers so read have an exact
sum of at most 96 bits. So a sum overflows exactly if records with equal keys have a total that does
not fit its field. -/
theorem numbers_in_range :
    (∀ f : Field, f.DeclaredNumber → ∀ record,
      ((∃ d n, f.decimal record = .ok d ∧ d.IsInteger n ∧ f.Represents n) ∨
        (record.length < f.stop ∧ f.decimal record = .error (f.tooShort record)) ∨
        (f.stop ≤ record.length ∧ ∃ fault, (∀ value width, fault ≠ .overflow value width) ∧
          f.decimal record = .error (.invalidNumber 0 f.position (.codec f.format fault)))) ∧
      ∀ content, f.bytes record = .ok content → f.decodeIn content = some (f.decimal record)) ∧
    (∀ f g : Field, f.DeclaredNumber → g.DeclaredNumber → ∀ x y a b,
      f.decimal x = .ok a → g.decimal y = .ok b →
      ∃ m n sum, a.IsInteger m ∧ b.IsInteger n ∧ (m + n).natAbs < 2 ^ (96 : Nat) ∧
        a.add? b = some sum ∧ sum.IsInteger (m + n)) ∧
    ∀ fields : List Field, (∀ f ∈ fields, f.DeclaredNumber) → ∀ comparer s record,
      (((addFields fields).push comparer s record).2.overflows = s.overflows + 1 ↔
        ∃ pending, s.pending = some pending ∧ comparer.compare pending record = .eq ∧
          Overflows pending record fields) := by
  refine ⟨fun f hf record => ⟨hf.decimal_cases record, fun content hcontent => ?_⟩, ?_, ?_⟩
  · have hlength := Bytes.length_of_slice? (Field.bytes_eq_ok_iff.1 hcontent)
    rw [hf.decodeIn_eq hlength, Field.decimal, hcontent, ok_bind]
  · exact fun f g hf hg x y a b ha hb => hf.exists_add? hg ha hb
  · exact fun fields hfields comparer s record => push_overflows_iff hfields

/-- The greatest number of 28 digits is read and doubled exactly, but the total needs 29 digits. So
the records stay apart. -/
theorem numbers_in_range_nines :
    let f : Field := ⟨0, 28, .zd, .ascii⟩
    let record : Bytes := List.replicate 28 0x39 ++ [0x41]
    let nines : Decimal := ⟨false, 10 ^ (28 : Nat) - 1, 0, by decide, by decide⟩
    let comparer : Comparer := ⟨[⟨⟨28, 1, .ch, .ascii⟩, .ascending⟩], .native⟩
    f.DeclaredNumber ∧ f.decimal record = .ok nines ∧
      f.decodeIn (List.replicate 28 0x39) = some (.ok nines) ∧
      (∃ sum, nines.add? nines = some sum ∧ sum.IsInteger (2 * 10 ^ (28 : Nat) - 2)) ∧
      ((addFields [f]).push comparer { pending := some record } record).2.overflows = 1 := by
  intro f record nines comparer
  have hf : f.DeclaredNumber := ⟨rfl, 1, rfl⟩
  have hread : f.decimal record = .ok nines := by decide +kernel
  have hcontent : f.bytes record = .ok (List.replicate 28 0x39) := by decide +kernel
  have hdecoded := (numbers_in_range.1 f hf record).2 _ hcontent
  rw [hread] at hdecoded
  obtain ⟨m, n, sum, hm, hn, -, hadd, hsum⟩ :=
    numbers_in_range.2.1 f f hf hf record record nines nines hread hread
  have hvalue : m + n = 2 * 10 ^ (28 : Nat) - 2 := by
    rw [← hm.coefficient, ← hn.coefficient]
    decide +kernel
  rw [hvalue] at hsum
  have hreads : f.Reads record (10 ^ (28 : Nat) - 1) := ⟨nines, hread, by decide +kernel, rfl⟩
  have htotal : f.Totals record record (2 * 10 ^ (28 : Nat) - 2) :=
    ⟨_, _, hreads, hreads, by decide⟩
  have hexceeds : ¬ f.Represents (2 * 10 ^ (28 : Nat) - 2) := by decide +kernel
  have hpush := numbers_in_range.2.2 [f] (by simp [hf]) comparer { pending := some record } record
  exact ⟨hf, hread, hdecoded, ⟨sum, hadd, hsum⟩,
    hpush.2 ⟨record, rfl, by decide +kernel, .here htotal hexceeds⟩⟩

end SumRule

end CardSort
