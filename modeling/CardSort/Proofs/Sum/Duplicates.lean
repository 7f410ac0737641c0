import Mathlib.Data.List.Dedup
import Mathlib.Data.List.Destutter
import CardSort.Job.Sink
import CardSort.Proofs.Order.Stable

/-!
# Dropping duplicates

The rule that drops duplicates looks at neighbours only. On records in key order that is enough:
the records of a class stand together, and the first of them stays.

* `Comparer.distinct` — the first record of each run of ties.
* `SumRule.fold_skipDuplicates` — this is what the rule leaves, and it counts the others.
* `Comparer.classes` — the classes of ties, wherever their records stand.
* `Comparer.tied_distinct` — of a class of records in order, the first one is left.
* `Comparer.distinct_sort_spec` — **of records in stable order one per class is left, the first to
  arrive**, and keys strictly ascend.
-/

set_option autoImplicit false

namespace CardSort

open Std (ReflCmp OrientedCmp TransCmp)

namespace Comparer

variable {c : Comparer} {a b r : Bytes} {records : List Bytes}

/-- The records do not tie. -/
def Apart (c : Comparer) (a b : Bytes) : Prop := c.compare a b ≠ .eq

instance (c : Comparer) : DecidableRel c.Apart :=
  fun a b => inferInstanceAs (Decidable (c.compare a b ≠ .eq))

/-- The first record of each run of ties. -/
def distinct (c : Comparer) (records : List Bytes) : List Bytes := records.destutter c.Apart

/-- The classes of records that tie, each in its order. -/
def classes (c : Comparer) (records : List Bytes) : List (List Bytes) :=
  (records.map fun r => c.tied r records).dedup

theorem mem_classes {cls : List Bytes} :
    cls ∈ c.classes records ↔ ∃ r ∈ records, c.tied r records = cls := by
  rw [classes, List.mem_dedup, List.mem_map]

/-- Records that tie have the same class. -/
theorem tied_congr (h : c.compare a b = .eq) (records : List Bytes) :
    c.tied a records = c.tied b records := by
  refine List.filter_congr fun x _ => ?_
  rw [TransCmp.congr_left h]

/-! ## Records in key order -/

theorem distinct_sublist (c : Comparer) (records : List Bytes) :
    (c.distinct records).Sublist records :=
  List.destutter_sublist _ records

/-- **Keys strictly ascend** once the duplicates of sorted records are dropped. -/
theorem distinct_strict (hsorted : records.Pairwise fun a b => c.le a b = true) :
    (c.distinct records).Pairwise fun a b => c.compare a b = .lt := by
  have hapart : (c.distinct records).IsChain c.Apart := List.isChain_destutter c.Apart records
  have hle : (c.distinct records).IsChain fun a b => c.le a b = true :=
    (hsorted.sublist (c.distinct_sublist records)).isChain
  have hlt : (c.distinct records).IsChain fun a b => c.compare a b = .lt := by
    refine List.isChain_iff_getElem.2 fun i hi => ?_
    have hne := List.isChain_iff_getElem.1 hapart i hi
    have hngt := le_iff_ne_gt.1 (List.isChain_iff_getElem.1 hle i hi)
    cases h : c.compare (c.distinct records)[i] (c.distinct records)[i + 1] with
    | lt => rfl
    | eq => exact absurd h hne
    | gt => exact absurd h hngt
  have : IsTrans Bytes fun a b => c.compare a b = .lt := ⟨fun _ _ _ => TransCmp.lt_trans⟩
  exact hlt.pairwise

theorem distinct_eq_self (h : records.Pairwise fun a b => c.compare a b = .lt) :
    c.distinct records = records := by
  refine List.destutter_of_isChain c.Apart records (h.isChain.imp ?_)
  intro a b hab heq
  rw [hab] at heq
  cases heq

/-- In key order a class with `a` in it ends before a record that does not tie with `a`. -/
theorem tied_eq_nil (hra : c.compare r a = .eq) (hab : c.Apart a b)
    (hsorted : (a :: b :: records).Pairwise fun a b => c.le a b = true) :
    c.tied r (b :: records) = [] := by
  obtain ⟨hfirst, hrest⟩ := List.pairwise_cons.1 hsorted
  refine List.filter_eq_nil_iff.2 fun x hx hrx => ?_
  have hax : c.compare a x = .eq :=
    TransCmp.eq_trans (OrientedCmp.eq_symm hra) (by simpa using hrx)
  have hxa : c.le x a = true := by simp [le, OrientedCmp.eq_symm hax]
  -- `b` stands between `a` and `x`
  have hbx : c.le b x = true := by
    rcases List.mem_cons.1 hx with rfl | hx
    · exact c.le_refl x
    · exact (List.pairwise_cons.1 hrest).1 x hx
  exact hab (compare_eq_of_le_of_le (hfirst b List.mem_cons_self) (c.le_trans b x a hbx hxa))

/-- By induction on the records that follow `a`, the first of its run. -/
theorem tied_destutter' (hsorted : (a :: records).Pairwise fun a b => c.le a b = true)
    (r : Bytes) :
    c.tied r (records.destutter' c.Apart a) =
      (c.tied r (a :: records)).head?.toList := by
  induction records generalizing a with
  | nil =>
    rw [List.destutter'_nil]
    by_cases hra : c.compare r a = .eq
    · rw [tied_cons_of_eq hra]
      rfl
    · rw [tied_cons_of_ne hra]
      rfl
  | cons b records ih =>
    have hrest := (List.pairwise_cons.1 hsorted).2
    by_cases hab : c.Apart a b
    · rw [List.destutter'_cons_pos (h := hab)]
      by_cases hra : c.compare r a = .eq
      · have hnil := tied_eq_nil hra hab hsorted
        rw [tied_cons_of_eq hra, tied_cons_of_eq hra, ih hrest, hnil]
        rfl
      · rw [tied_cons_of_ne hra, tied_cons_of_ne hra, ih hrest]
    · rw [List.destutter'_cons_neg (h := hab)]
      have hskip : (a :: records).Pairwise fun a b => c.le a b = true :=
        hsorted.sublist (.cons_cons a (List.sublist_cons_self b records))
      rw [ih hskip]
      rw [Apart, not_not] at hab
      by_cases hra : c.compare r a = .eq
      · rw [tied_cons_of_eq hra, tied_cons_of_eq hra]
        rfl
      · have hrb : c.compare r b ≠ .eq :=
          fun hrb => hra (TransCmp.eq_trans hrb (OrientedCmp.eq_symm hab))
        rw [tied_cons_of_ne hra, tied_cons_of_ne hra, tied_cons_of_ne hrb]

/-- **Of each class the first record is left.** -/
theorem tied_distinct (hsorted : records.Pairwise fun a b => c.le a b = true) (r : Bytes) :
    c.tied r (c.distinct records) = (c.tied r records).head?.toList := by
  cases records with
  | nil => rfl
  | cons a records => exact tied_destutter' hsorted r

/-! ## Records in stable order -/

/-- A record is left if it is the first of its class to arrive. -/
theorem mem_distinct_sort {w : Bytes} :
    w ∈ c.distinct (c.sort records) ↔ (c.tied w records).head? = some w := by
  have hsort := c.sort_stableOrder records
  have hclass := tied_distinct hsort.sorted w
  rw [hsort.keepsTies w] at hclass
  constructor
  · intro hw
    have hself := mem_tied_self (c := c) hw
    rw [hclass] at hself
    simpa using hself
  · intro hw
    refine mem_of_mem_tied (r := w) (c := c) ?_
    rw [hclass, hw]
    exact List.mem_singleton_self w

/-- **Dropping duplicates leaves one record per class**: keys strictly ascend, and the records left
are those with which the classes begin, in order of arrival. -/
theorem distinct_sort_spec (c : Comparer) (records : List Bytes) :
    let kept := c.distinct (c.sort records)
    kept.Pairwise (fun a b => c.compare a b = .lt) ∧
      (kept.map some).Perm ((c.classes records).map List.head?) := by
  intro kept
  have hstrict : kept.Pairwise fun a b => c.compare a b = .lt :=
    distinct_strict (c.sort_stableOrder records).sorted
  have hfirst : ∀ w ∈ kept, (c.tied w records).head? = some w := fun w => mem_distinct_sort.1
  have hclasses : (kept.map fun w => c.tied w records).Perm (c.classes records) := by
    refine (List.perm_ext_iff_of_nodup ?_ (List.nodup_dedup _)).2 fun cls => ?_
    · refine List.pairwise_map.2 (hstrict.imp_of_mem ?_)
      intro a b ha hb hab heq
      have hhead := hfirst a ha
      rw [heq, hfirst b hb] at hhead
      obtain rfl : b = a := Option.some.inj hhead
      have hself : c.compare b b = .eq := ReflCmp.compare_self
      cases hself.symm.trans hab
    · rw [List.mem_map]
      constructor
      · rintro ⟨w, hw, rfl⟩
        have hmem := mem_of_mem_tied (List.mem_of_mem_head? (hfirst w hw))
        exact mem_classes.2 ⟨w, hmem, rfl⟩
      · intro hcls
        obtain ⟨r, hr, rfl⟩ := mem_classes.1 hcls
        -- the class of `r` begins with a record that is left, and which ties with `r`
        have hne : c.tied r records ≠ [] := List.ne_nil_of_mem (mem_tied_self hr)
        obtain ⟨w, hw⟩ : ∃ w, (c.tied r records).head? = some w :=
          ⟨_, List.head?_eq_some_head hne⟩
        have hrw : c.compare r w = .eq := by
          simpa using (List.mem_filter.1 (List.mem_of_mem_head? hw)).2
        have hsame := tied_congr hrw records
        rw [hsame] at hw
        exact ⟨w, mem_distinct_sort.2 hw, hsame.symm⟩
  refine ⟨hstrict, ?_⟩
  have hheads := hclasses.map List.head?
  rw [List.map_map] at hheads
  have hsome : kept.map some = kept.map (List.head? ∘ fun w => c.tied w records) :=
    List.map_congr_left fun w hw => (hfirst w hw).symm
  rw [hsome]
  exact hheads

end Comparer

/-! ## The rule -/

/-- With a record pending, the rule leaves the first of each run of ties and counts the others. -/
theorem SumRule.foldFrom_skipDuplicates {c : Comparer} {s : SumState} {p : Bytes}
    (hopen : s.pending = some p) (records : List Bytes) :
    let kept := records.destutter' c.Apart p
    (skipDuplicates.foldFrom c none s records).feed = .ofList kept ∧
      (skipDuplicates.foldFrom c none s records).summed + kept.length =
        s.summed + (records.length + 1) := by
  induction records generalizing s p with
  | nil =>
    simp only [foldFrom, SumState.finish_of_pending hopen]
    exact ⟨rfl, rfl⟩
  | cons r rs ih =>
    by_cases hapart : c.Apart p r
    · have hkept := List.destutter'_cons_pos rs (h := hapart)
      obtain ⟨hfeed, hcount⟩ := ih (s := { s with pending := some r }) rfl
      simp only [foldFrom, push_of_ne hopen hapart, hkept, hfeed, List.length_cons]
      refine ⟨rfl, ?_⟩
      simp only at hcount
      omega
    · have hkept := List.destutter'_cons_neg rs (h := hapart)
      have hkey : c.compare p r = .eq := not_not.1 hapart
      obtain ⟨hfeed, hcount⟩ := ih (s := { s with pending := some p, summed := s.summed + 1 }) rfl
      simp only [foldFrom, push_skipDuplicates hopen hkey, hkept, hfeed, List.length_cons, true_and]
      simp only at hcount
      omega

/-- **The rule leaves the first of each run of ties** and counts the others. -/
theorem SumRule.fold_skipDuplicates (c : Comparer) (records : List Bytes) :
    (skipDuplicates.fold c (.ofList records)).feed = .ofList (c.distinct records) ∧
      (skipDuplicates.fold c (.ofList records)).summed + (c.distinct records).length =
        records.length := by
  cases records with
  | nil => exact ⟨rfl, rfl⟩
  | cons r rs =>
    obtain ⟨hfeed, hcount⟩ := foldFrom_skipDuplicates (c := c) (s := { pending := some r }) rfl rs
    refine ⟨hfeed, hcount.trans ?_⟩
    rw [List.length_cons]
    exact Nat.zero_add _

end CardSort
