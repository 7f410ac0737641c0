import CardSort.Job.Pass
import CardSort.Proofs.Order.Merge

/-!
# Records changed outside their keys

Sorting and merging look at nothing of a record but its keys. A change that leaves the keys of all
records alone may come before or after them, whatever it does to the rest of the records; so it
is with runs that fail and with runs that are not in key order.

* `Comparer.Unmoved` — the change does not show in any comparison.
* `Comparer.compare_congr` — a comparison depends on the bytes of the keys.
* `Comparer.sort_map` — **a change may come before or after a sort**.
* `Merge.merge_map` — **it may come before or after a merge**, by the recursion of the merge.
-/

set_option autoImplicit false

namespace CardSort

/-! ## Comparing -/

/-- A record is compared by the bytes of its fields. -/
theorem SortKey.compare_congr_bytes {k : SortKey} {a a' b b' : Bytes}
    (ha : k.field.bytes a' = k.field.bytes a) (hb : k.field.bytes b' = k.field.bytes b)
    (collation : Collation) : k.compare collation a' b' = k.compare collation a b := by
  unfold SortKey.compare SortKey.compareAscending Field.decimal
  rw [ha, hb]

namespace Comparer

/-- A change of records that does not show in any comparison. -/
def Unmoved (c : Comparer) (f : Bytes → Bytes) : Prop :=
  ∀ a b, c.compare (f a) (f b) = c.compare a b

variable {c : Comparer} {f : Bytes → Bytes}

theorem compareKeys_congr_bytes (collation : Collation) {keys : List SortKey} {a a' b b' : Bytes}
    (ha : ∀ k ∈ keys, k.field.bytes a' = k.field.bytes a)
    (hb : ∀ k ∈ keys, k.field.bytes b' = k.field.bytes b) :
    compareKeys collation keys a' b' = compareKeys collation keys a b := by
  induction keys with
  | nil => rfl
  | cons k ks ih =>
    rw [List.forall_mem_cons] at ha hb
    rw [compareKeys, compareKeys, SortKey.compare_congr_bytes ha.1 hb.1, ih ha.2 hb.2]

/-- A change that keeps the bytes of all keys does not show. -/
theorem unmoved_of_bytes (h : ∀ r, ∀ k ∈ c.keys, k.field.bytes (f r) = k.field.bytes r) :
    c.Unmoved f :=
  fun a b => compareKeys_congr_bytes c.collation (h a) (h b)

theorem Unmoved.le (h : c.Unmoved f) (a b : Bytes) : c.le (f a) (f b) = c.le a b := by
  rw [Comparer.le, h a b, Comparer.le]

/-- **A change outside the keys may come before or after a sort.** -/
theorem sort_map (h : c.Unmoved f) (records : List Bytes) :
    c.sort (records.map f) = (c.sort records).map f :=
  (List.map_mergeSort fun a _ b _ => (h.le a b).symm).symm

end Comparer

/-- The feed with each record changed. -/
def Feed.map (f : Bytes → Bytes) (feed : Feed) : Feed := { feed with records := feed.records.map f }

namespace Merge

variable {c : Comparer} {f : Bytes → Bytes}

/-- The source with each record changed. -/
def Source.map (f : Bytes → Bytes) (s : Source) : Source := ⟨f s.head, s.tail.map f, s.fault⟩

theorem sources_map (f : Bytes → Bytes) (feeds : List Feed) :
    sources (feeds.map (Feed.map f)) = (sources feeds).map (List.map (Source.map f)) := by
  induction feeds with
  | nil => rfl
  | cons feed feeds ih =>
    obtain ⟨records, fault⟩ := feed
    cases records with
    | nil =>
      cases fault with
      | none => exact ih
      | some g => rfl
    | cons r rs =>
      simp only [List.map_cons, Feed.map, sources] at ih ⊢
      rw [ih]
      cases sources feeds <;> rfl

theorem pickLeast_map (h : c.Unmoved f) (s : Source) (ss : List Source) :
    pickLeast c (s.map f) (ss.map (Source.map f)) =
      ((pickLeast c s ss).1.map (Source.map f), (pickLeast c s ss).2.1.map f,
        (pickLeast c s ss).2.2.map (Source.map f)) := by
  induction ss generalizing s with
  | nil => rfl
  | cons t ts ih =>
    simp only [List.map_cons, pickLeast, ih]
    rw [show c.le (s.map f).head ((pickLeast c t ts).2.1.map f).head =
      c.le s.head (pickLeast c t ts).2.1.head from h.le _ _]
    split <;> rfl

theorem mergeSources_map (h : c.Unmoved f) (ss : List Source) :
    mergeSources c (ss.map (Source.map f)) = (mergeSources c ss).map f := by
  induction ss using mergeSources.induct c with
  | case1 =>
    rw [List.map_nil, mergeSources]
    rfl
  | case2 s ss picked htail g hfault =>
    have hpicked := pickLeast_map h s ss
    rw [List.map_cons, mergeSources_of_fault htail hfault, mergeSources_of_fault]
    · rfl
    · rw [hpicked]
      exact congrArg (List.map f) htail
    · rw [hpicked]
      exact hfault
  | case3 s ss picked htail hfault ih =>
    have hpicked := pickLeast_map h s ss
    rw [List.map_cons, mergeSources_of_tail_nil htail hfault, mergeSources_of_tail_nil, hpicked,
      ← List.map_append, ih]
    · rfl
    · rw [hpicked]
      exact congrArg (List.map f) htail
    · rw [hpicked]
      exact hfault
  | case4 s ss picked r rs htail ih =>
    have hpicked := pickLeast_map h s ss
    have htail' : (pickLeast c (s.map f) (ss.map (Source.map f))).2.1.tail = f r :: rs.map f := by
      rw [hpicked]
      exact congrArg (List.map f) htail
    rw [List.map_append, List.map_cons] at ih
    rw [List.map_cons, mergeSources_of_tail_cons htail, mergeSources_of_tail_cons htail', hpicked]
    exact congrArg (Feed.cons (f picked.2.1.head)) ih

/-- **A change outside the keys may come before or after a merge.** -/
theorem merge_map (h : c.Unmoved f) (feeds : List Feed) :
    merge c (feeds.map (Feed.map f)) = (merge c feeds).map f := by
  rw [merge, merge, sources_map]
  cases sources feeds with
  | error g => rfl
  | ok ss => exact mergeSources_map h ss

end Merge

end CardSort
