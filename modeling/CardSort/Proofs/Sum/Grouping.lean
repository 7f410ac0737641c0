import CardSort.Proofs.Key.Order
import CardSort.Proofs.Sum.Conservation

/-!
# Which records a sum puts together

A record is folded into the pending one if both have equal keys. The pending record holds sums by
then, so this says something about the record that opened it only as far as the sums have left
its keys alone.

* `SumRule.foldings` — the records folded, each with the record that opened the pending one.
* `SumRule.Opened` — **the invariant**: the pending record differs from the one that opened it in
  the summed fields only.
* `SumRule.push_opened` — one step: a record opens a group, or ties with the pending record.
* `SumRule.foldings_tie` — **keys apart from the summed fields are equal in a whole group.**
* `SumRule.foldings_of_summed_key` — a key within a summed field need not be.
-/

set_option autoImplicit false

namespace CardSort

/-! ## Keys and the bytes of their fields -/

theorem SortKey.compare_congr {k : SortKey} {fields : List Field} {a b : Bytes}
    (h : SameOutside fields a b) (hapart : ∀ f ∈ fields, k.field.Disjoint f)
    (collation : Collation) (r : Bytes) : k.compare collation a r = k.compare collation b r := by
  have hbytes : ∀ i, k.field.Covers i → a[i]? = b[i]? := by
    intro i hi
    apply h.bytes
    intro f hf hcovers
    exact hapart f hf i ⟨hi, hcovers⟩
  unfold SortKey.compare compareAscending
  rw [Field.bytes_congr h.length hbytes, Field.decimal_congr h.length hbytes]

/-- Records tie if each key of them does. -/
theorem Comparer.compareKeys_eq_iff {collation : Collation} {keys : List SortKey} {a b : Bytes} :
    compareKeys collation keys a b = .eq ↔ ∀ k ∈ keys, k.compare collation a b = .eq := by
  induction keys with
  | nil => simp [compareKeys]
  | cons k ks ih => rw [compareKeys, Ordering.then_eq_eq, ih, List.forall_mem_cons]

namespace SumRule

/-! ## Foldings -/

/-- A record folded into the pending one, with the record that opened it, both as pushed. -/
structure Folding where
  opener : Bytes
  record : Bytes
deriving DecidableEq, Repr

/-- The state after records have been pushed. -/
def pushAll (rule : SumRule) (comparer : Comparer) (s : SumState) (records : List Bytes) :
    SumState :=
  records.foldl (fun s r => (rule.push comparer s r).2) s

/-- The foldings of records pushed from a state on, in which `opener` has opened the pending
record. A record that is not folded opens the next one. -/
def foldingsFrom (rule : SumRule) (comparer : Comparer) (s : SumState) (opener : Bytes) :
    List Bytes → List Folding
  | [] => []
  | r :: rs =>
    let next := (rule.push comparer s r).2
    if next.summed = s.summed then foldingsFrom rule comparer next r rs
    else ⟨opener, r⟩ :: foldingsFrom rule comparer next opener rs

/-- The foldings of records pushed one after the other. -/
def foldings (rule : SumRule) (comparer : Comparer) (records : List Bytes) : List Folding :=
  rule.foldingsFrom comparer {} [] records

/-- The pending record, if there is one, differs from the one that opened it in the fields only. -/
def Opened (fields : List Field) (opener : Bytes) (s : SumState) : Prop :=
  ∀ p, s.pending = some p → SameOutside fields p opener

/-! ## One step -/

section

variable {fields : List Field} {c : Comparer} {s : SumState} {opener r : Bytes}

theorem opened_self {t : SumState} (h : t.pending = some r) : Opened fields r t := by
  intro p hp
  rw [h] at hp
  cases hp
  exact .refl _ _

/-- A record either opens a group of its own, and is not counted, or it is folded into a pending
record that it ties with, and is. -/
theorem push_opened (hnumeric : ∀ f ∈ fields, f.format.isNumeric = true)
    (hopened : Opened fields opener s) :
    (((addFields fields).push c s r).2.summed = s.summed ∧
      Opened fields r ((addFields fields).push c s r).2) ∨
    (((addFields fields).push c s r).2.summed = s.summed + 1 ∧
      Opened fields opener ((addFields fields).push c s r).2 ∧
      ∃ p, SameOutside fields p opener ∧ c.compare p r = .eq) := by
  cases hpending : s.pending with
  | none =>
    rw [push_of_none hpending]
    exact .inl ⟨rfl, opened_self rfl⟩
  | some p =>
    by_cases hkey : c.compare p r = .eq
    · rw [push_addFields hpending hkey]
      cases hadd : addInto p r p fields with
      | error fault =>
        refine .inl ⟨rfl, ?_⟩
        intro p' hp'
        cases hp'
      | ok outcome =>
        cases outcome with
        | none => exact .inl ⟨rfl, opened_self rfl⟩
        | some total =>
          have hsame := (sameOutside_of_addInto hnumeric hadd).trans (hopened p hpending)
          refine .inr ⟨rfl, ?_, p, hopened p hpending, hkey⟩
          intro p' hp'
          cases hp'
          exact hsame
    · rw [push_of_ne hpending hkey]
      exact .inl ⟨rfl, opened_self rfl⟩

/-! ## Runs -/

/-- The record of every folding ties with what its opener had become. -/
theorem foldingsFrom_tie (hnumeric : ∀ f ∈ fields, f.format.isNumeric = true)
    (hopened : Opened fields opener s) (records : List Bytes) :
    ∀ folding ∈ (addFields fields).foldingsFrom c s opener records,
      ∃ p, SameOutside fields p folding.opener ∧ c.compare p folding.record = .eq := by
  induction records generalizing s opener with
  | nil =>
    intro folding h
    cases h
  | cons r rs ih =>
    intro folding h
    rw [foldingsFrom] at h
    rcases push_opened (c := c) (r := r) hnumeric hopened with
      ⟨hsummed, hnext⟩ | ⟨hsummed, hnext, htie⟩
    · rw [if_pos hsummed] at h
      exact ih hnext folding h
    · rw [if_neg (by omega)] at h
      rcases List.mem_cons.1 h with rfl | h
      · exact htie
      · exact ih hnext folding h

/-- There is a folding for each record counted. -/
theorem length_foldingsFrom (hnumeric : ∀ f ∈ fields, f.format.isNumeric = true)
    (hopened : Opened fields opener s) (records : List Bytes) :
    ((addFields fields).foldingsFrom c s opener records).length + s.summed =
      ((addFields fields).pushAll c s records).summed := by
  induction records generalizing s opener with
  | nil => exact Nat.zero_add _
  | cons r rs ih =>
    rw [foldingsFrom, pushAll, List.foldl_cons, ← pushAll]
    rcases push_opened (c := c) (r := r) hnumeric hopened with
      ⟨hsummed, hnext⟩ | ⟨hsummed, hnext, -⟩
    · rw [if_pos hsummed, ← ih hnext, hsummed]
    · rw [if_neg (by omega), List.length_cons, ← ih hnext, hsummed]
      omega

/-- **A sum puts together what ties in the keys apart from it.** Of the records folded, all of
which are counted, each agrees with the record that opened the pending one in every key that
shares no byte with a summed field; if no key does, the two tie. Nothing is asked of the records
or of their order. -/
theorem foldings_tie (c : Comparer) (hnumeric : ∀ f ∈ fields, f.format.isNumeric = true)
    (records : List Bytes) :
    let foldings := (addFields fields).foldings c records
    foldings.length = ((addFields fields).pushAll c {} records).summed ∧
      ∀ folding ∈ foldings,
        (∀ k ∈ c.keys, (∀ f ∈ fields, k.field.Disjoint f) →
          k.compare c.collation folding.opener folding.record = .eq) ∧
        ((∀ k ∈ c.keys, ∀ f ∈ fields, k.field.Disjoint f) →
          c.compare folding.opener folding.record = .eq) := by
  intro foldings
  have hopened : Opened fields [] {} := by
    intro p hp
    cases hp
  refine ⟨length_foldingsFrom hnumeric hopened records, ?_⟩
  intro folding h
  obtain ⟨p, hsame, htie⟩ := foldingsFrom_tie hnumeric hopened records folding h
  have hkeys : ∀ k ∈ c.keys, (∀ f ∈ fields, k.field.Disjoint f) →
      k.compare c.collation folding.opener folding.record = .eq := by
    intro k hk hapart
    rw [← SortKey.compare_congr hsame hapart]
    exact Comparer.compareKeys_eq_iff.1 htie k hk
  refine ⟨hkeys, ?_⟩
  intro hapart
  exact Comparer.compareKeys_eq_iff.2 fun k hk => hkeys k hk (hapart k hk)

end

/-- `a30` and `a5` go into `a10`, each by the key in front; the sum in `b` does not fit. -/
theorem foldings_tie_apart :
    let fields : List Field := [⟨1, 2, .zd, .ascii⟩]
    let c : Comparer := ⟨[⟨⟨0, 1, .ch, .ascii⟩, .descending⟩], .native⟩
    let records : List Bytes := [[0x62, 0x36, 0x30], [0x62, 0x35, 0x30], [0x61, 0x31, 0x30],
      [0x61, 0x33, 0x30], [0x61, 0x30, 0x35]]
    let foldings := (addFields fields).foldings c records
    foldings =
        [⟨[0x61, 0x31, 0x30], [0x61, 0x33, 0x30]⟩, ⟨[0x61, 0x31, 0x30], [0x61, 0x30, 0x35]⟩] ∧
      foldings.length = ((addFields fields).pushAll c {} records).summed ∧
      ∀ folding ∈ foldings,
        (∀ k ∈ c.keys, (∀ f ∈ fields, k.field.Disjoint f) →
          k.compare c.collation folding.opener folding.record = .eq) ∧
        ((∀ k ∈ c.keys, ∀ f ∈ fields, k.field.Disjoint f) →
          c.compare folding.opener folding.record = .eq) :=
  ⟨by decide +kernel, foldings_tie _ (by decide) _⟩

/-- **A sum within a key puts together what does not tie.** With the one byte of the records both
key and summed field, `1` and `1` make `2`, and the `2` that follows goes into them. -/
theorem foldings_of_summed_key :
    let field : Field := ⟨0, 1, .zd, .ascii⟩
    let c : Comparer := ⟨[⟨field, .ascending⟩], .native⟩
    let records : List Bytes := [[0x31], [0x31], [0x32]]
    Field.of 1 1 .zd .ascii = .ok field ∧
      (∀ r ∈ records, (addFields [field]).validate r = .ok ()) ∧
      records.Pairwise (fun a b => c.compare a b ≠ .gt) ∧
      ∃ folding ∈ (addFields [field]).foldings c records,
        c.compare folding.opener folding.record ≠ .eq :=
  ⟨rfl, by decide +kernel, by decide +kernel, ⟨[0x31], [0x32]⟩, by decide +kernel,
    by decide +kernel⟩

end SumRule

end CardSort
