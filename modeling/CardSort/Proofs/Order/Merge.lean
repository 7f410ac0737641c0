import CardSort.Proofs.Except
import CardSort.Proofs.Order.Stable

/-!
# Merging runs in key order

Runs that are in key order and do not fail are merged into the stable order of their records, run
after run: the earliest run counts as having arrived first.

* `Feed.InOrder` — a run that ends without a fault and is in key order.
* `Feed.gather` — the records of several runs, one run after the other.
* `Merge.pickLeast_before`, `Merge.pickLeast_after` — the source that comes next is less than all
  before it and at most all after it.
* `Merge.stableOrder_least` — taking one record off the least source keeps the stable order.
* `Merge.mergeSources_inOrder` — the merge of sources, by induction on the records left.
* `Merge.merge_eq_sort` — **a merge of runs in key order is the stable sort of their records**.
* `Merge.merge_perm` — a merge that ends without a fault emits the records of all runs, whatever
  their order; `Merge.merge_subset`, no other records in any case.
-/

set_option autoImplicit false

namespace CardSort

open Std (OrientedCmp TransCmp)

namespace Feed

/-- The feed ends without a fault, and its records are in key order. -/
structure InOrder (c : Comparer) (feed : Feed) : Prop where
  fault : feed.fault = none
  sorted : feed.records.Pairwise fun a b => c.le a b = true

/-- The records of feeds, one feed after the other. -/
def gather (feeds : List Feed) : List Bytes := feeds.flatMap records

theorem gather_cons (feed : Feed) (feeds : List Feed) :
    gather (feed :: feeds) = feed.records ++ gather feeds :=
  List.flatMap_cons ..

theorem gather_append (xs ys : List Feed) : gather (xs ++ ys) = gather xs ++ gather ys :=
  List.flatMap_append

theorem gather_map_ofList (runs : List (List Bytes)) : gather (runs.map ofList) = runs.flatten := by
  rw [gather, List.flatMap_map, ← List.flatMap_id]
  rfl

theorem mem_gather {x : Bytes} {feeds : List Feed} :
    x ∈ gather feeds ↔ ∃ feed ∈ feeds, x ∈ feed.records :=
  List.mem_flatMap

end Feed

namespace Merge

variable {c : Comparer}

/-- A source as the run that is left of it. -/
def Source.feed (s : Source) : Feed := ⟨s.head :: s.tail, s.fault⟩

/-- No record of a run in key order is less than its head. -/
theorem Source.head_le {s : Source} (h : s.feed.InOrder c) {x : Bytes}
    (hx : x ∈ s.feed.records) : c.le s.head x = true := by
  rcases List.mem_cons.1 hx with rfl | hx
  · exact c.le_refl _
  · exact List.rel_of_pairwise_cons h.sorted hx

theorem gather_append_cons (before after : List Source) (s : Source) :
    Feed.gather ((before ++ s :: after).map Source.feed) =
      Feed.gather (before.map Source.feed) ++
        s.head :: (s.tail ++ Feed.gather (after.map Source.feed)) := by
  rw [List.map_append, List.map_cons, Feed.gather_append, Feed.gather_cons]
  rfl

/-! ## The source that comes next -/

theorem pickLeast_before (c : Comparer) (s : Source) (ss : List Source) :
    ∀ t ∈ (pickLeast c s ss).1, c.compare t.head (pickLeast c s ss).2.1.head = .gt := by
  induction ss generalizing s with
  | nil => simp [pickLeast]
  | cons t ts ih =>
    simp only [pickLeast]
    split
    · simp
    · rename_i hle
      intro u hu
      rcases List.mem_cons.1 hu with rfl | hu
      · exact Comparer.not_le_iff.1 hle
      · exact ih t u hu

theorem pickLeast_after (c : Comparer) (s : Source) (ss : List Source) :
    ∀ t ∈ (pickLeast c s ss).2.2, c.le (pickLeast c s ss).2.1.head t.head = true := by
  induction ss generalizing s with
  | nil => simp [pickLeast]
  | cons t ts ih =>
    simp only [pickLeast]
    split
    · rename_i hle
      intro u hu
      refine c.le_trans _ _ _ hle ?_
      -- `u` stands before, at or after the least of the other sources
      rw [pickLeast_eq c t ts] at hu
      rcases List.mem_append.1 hu with hu | hu
      · have hgt := pickLeast_before c t ts u hu
        exact Comparer.le_of_not_le (Comparer.not_le_iff.2 hgt)
      · rcases List.mem_cons.1 hu with rfl | hu
        · exact c.le_refl _
        · exact ih t u hu
    · exact ih t

/-! ## Merging sources -/

/-- **One step of a merge**: the head of the least source, in front of the stable order of what
is left. -/
theorem stableOrder_least {before after : List Source} {least : Source} {placed : List Bytes}
    (hin : ∀ s ∈ before ++ least :: after, s.feed.InOrder c)
    (hbefore : ∀ s ∈ before, c.compare s.head least.head = .gt)
    (hafter : ∀ s ∈ after, c.le least.head s.head = true)
    (h : StableOrder c (Feed.gather (before.map Source.feed) ++
      (least.tail ++ Feed.gather (after.map Source.feed))) placed) :
    StableOrder c (Feed.gather ((before ++ least :: after).map Source.feed))
      (least.head :: placed) := by
  rw [gather_append_cons]
  refine h.cons_least ?_ ?_
  · intro x hx
    obtain ⟨feed, hfeed, hx⟩ := Feed.mem_gather.1 hx
    obtain ⟨s, hs, rfl⟩ := List.mem_map.1 hfeed
    have hle := Source.head_le (hin s (List.mem_append_left _ hs)) hx
    exact TransCmp.gt_of_isGE_of_gt (OrientedCmp.isGE_of_isLE (Comparer.le_iff.1 hle))
      (hbefore s hs)
  · intro y hy
    rcases List.mem_append.1 hy with hy | hy
    · have hleast := hin least (List.mem_append_right _ List.mem_cons_self)
      exact Source.head_le hleast (List.mem_cons_of_mem _ hy)
    · obtain ⟨feed, hfeed, hy⟩ := Feed.mem_gather.1 hy
      obtain ⟨s, hs, rfl⟩ := List.mem_map.1 hfeed
      have hin' := hin s (List.mem_append_right _ (List.mem_cons_of_mem _ hs))
      exact c.le_trans _ _ _ (hafter s hs) (Source.head_le hin' hy)

/-- The least source fails behind its head. -/
theorem mergeSources_of_fault {s : Source} {ss : List Source} {f : Fault}
    (htail : (pickLeast c s ss).2.1.tail = []) (hfault : (pickLeast c s ss).2.1.fault = some f) :
    mergeSources c (s :: ss) = .failed f := by
  rw [mergeSources]
  split
  · rw [hfault]
  · rename_i h
    simp [htail] at h

/-- The least source is exhausted by its head. -/
theorem mergeSources_of_tail_nil {s : Source} {ss : List Source}
    (htail : (pickLeast c s ss).2.1.tail = []) (hfault : (pickLeast c s ss).2.1.fault = none) :
    mergeSources c (s :: ss) =
      (mergeSources c ((pickLeast c s ss).1 ++ (pickLeast c s ss).2.2)).cons
        (pickLeast c s ss).2.1.head := by
  rw [mergeSources]
  split
  · rw [hfault]
  · rename_i h
    simp [htail] at h

/-- The least source goes on after its head. -/
theorem mergeSources_of_tail_cons {s : Source} {ss : List Source} {r : Bytes} {rs : List Bytes}
    (htail : (pickLeast c s ss).2.1.tail = r :: rs) :
    mergeSources c (s :: ss) =
      (mergeSources c ((pickLeast c s ss).1 ++
        ⟨r, rs, (pickLeast c s ss).2.1.fault⟩ :: (pickLeast c s ss).2.2)).cons
        (pickLeast c s ss).2.1.head := by
  rw [mergeSources]
  split
  · rename_i h
    simp [htail] at h
  · rename_i r' rs' h
    obtain ⟨rfl, rfl⟩ := List.cons.inj (h.symm.trans htail)
    rfl

/-- The merge of sources in key order, by induction on the number of records. -/
theorem mergeSources_inOrder (ss : List Source) (hin : ∀ s ∈ ss, s.feed.InOrder c) :
    (mergeSources c ss).fault = none ∧
      StableOrder c (Feed.gather (ss.map Source.feed)) (mergeSources c ss).records := by
  induction ss using mergeSources.induct c with
  | case1 =>
    rw [mergeSources]
    exact ⟨rfl, StableOrder.nil c⟩
  | case2 s ss picked htail f hfault =>
    rw [pickLeast_eq c s ss] at hin
    have hnone := (hin _ (List.mem_append_right _ List.mem_cons_self)).fault
    exact absurd (hfault.symm.trans hnone) (by simp)
  | case3 s ss picked htail hfault ih =>
    rw [mergeSources_of_tail_nil htail hfault]
    rw [pickLeast_eq c s ss] at hin ⊢
    have hrest : ∀ t ∈ picked.1 ++ picked.2.2, t.feed.InOrder c := by
      intro t ht
      rcases List.mem_append.1 ht with ht | ht
      · exact hin t (List.mem_append_left _ ht)
      · exact hin t (List.mem_append_right _ (List.mem_cons_of_mem _ ht))
    obtain ⟨hnone, hplaced⟩ := ih hrest
    refine ⟨hnone, stableOrder_least hin (pickLeast_before c s ss) (pickLeast_after c s ss) ?_⟩
    rw [List.map_append, Feed.gather_append] at hplaced
    rw [htail, List.nil_append]
    exact hplaced
  | case4 s ss picked r rs htail ih =>
    rw [mergeSources_of_tail_cons htail]
    rw [pickLeast_eq c s ss] at hin ⊢
    have hleast := hin picked.2.1 (List.mem_append_right _ List.mem_cons_self)
    -- what is left of the least source is in key order again, in its old place
    have hrest : ∀ t ∈ picked.1 ++ ⟨r, rs, picked.2.1.fault⟩ :: picked.2.2, t.feed.InOrder c := by
      intro t ht
      rcases List.mem_append.1 ht with ht | ht
      · exact hin t (List.mem_append_left _ ht)
      · rcases List.mem_cons.1 ht with rfl | ht
        · refine ⟨hleast.fault, ?_⟩
          have hsorted := (List.pairwise_cons.1 hleast.sorted).2
          rwa [htail] at hsorted
        · exact hin t (List.mem_append_right _ (List.mem_cons_of_mem _ ht))
    obtain ⟨hnone, hplaced⟩ := ih hrest
    refine ⟨hnone, stableOrder_least hin (pickLeast_before c s ss) (pickLeast_after c s ss) ?_⟩
    rw [List.map_append, Feed.gather_append, List.map_cons, Feed.gather_cons] at hplaced
    rw [htail]
    exact hplaced

/-! ## Merging feeds -/

/-- Feeds that do not fail give their sources; those without records drop out. -/
theorem sources_of_inOrder {feeds : List Feed} (hin : ∀ feed ∈ feeds, feed.InOrder c) :
    ∃ ss, sources feeds = .ok ss ∧ (∀ s ∈ ss, s.feed.InOrder c) ∧
      Feed.gather (ss.map Source.feed) = Feed.gather feeds := by
  induction feeds with
  | nil => exact ⟨[], rfl, by simp, rfl⟩
  | cons feed feeds ih =>
    obtain ⟨ss, hok, hss, hgather⟩ := ih fun f hf => hin f (List.mem_cons_of_mem _ hf)
    obtain ⟨hfault, hsorted⟩ := hin feed List.mem_cons_self
    obtain ⟨records, fault⟩ := feed
    cases records with
    | nil =>
      refine ⟨ss, ?_, hss, hgather⟩
      simp only at hfault
      simp only [sources, hfault]
      exact hok
    | cons r rs =>
      refine ⟨⟨r, rs, fault⟩ :: ss, ?_, ?_, ?_⟩
      · simp only [sources, hok]
        rfl
      · intro s hs
        rcases List.mem_cons.1 hs with rfl | hs
        · exact ⟨hfault, hsorted⟩
        · exact hss s hs
      · rw [List.map_cons, Feed.gather_cons, Feed.gather_cons, hgather]
        rfl

/-- **Merging runs in key order sorts their records stably**, the earlier run first among
ties. -/
theorem merge_eq_sort {feeds : List Feed} (hin : ∀ feed ∈ feeds, feed.InOrder c) :
    merge c feeds = .ofList (c.sort (Feed.gather feeds)) := by
  obtain ⟨ss, hok, hss, hgather⟩ := sources_of_inOrder hin
  obtain ⟨hfault, hplaced⟩ := mergeSources_inOrder ss hss
  rw [hgather] at hplaced
  have hrecords := hplaced.eq_sort
  simp only [merge, hok, Feed.ofList]
  rw [← hrecords, ← hfault]

/-! ## Merging runs in any order -/

/-- Sources whose merge ends without a fault have none, and all their records are emitted. -/
theorem mergeSources_perm (ss : List Source) (h : (mergeSources c ss).fault = none) :
    (∀ s ∈ ss, s.fault = none) ∧
      (mergeSources c ss).records.Perm (Feed.gather (ss.map Source.feed)) := by
  induction ss using mergeSources.induct c with
  | case1 =>
    rw [mergeSources]
    exact ⟨by simp, .refl _⟩
  | case2 s ss picked htail f hfault =>
    rw [mergeSources_of_fault htail hfault] at h
    cases h
  | case3 s ss picked htail hfault ih =>
    rw [mergeSources_of_tail_nil htail hfault] at h ⊢
    rw [pickLeast_eq c s ss]
    obtain ⟨hnone, hperm⟩ := ih h
    constructor
    · intro t ht
      simp only [List.mem_append, List.mem_cons] at ht
      rcases ht with ht | rfl | ht
      · exact hnone t (List.mem_append_left _ ht)
      · exact hfault
      · exact hnone t (List.mem_append_right _ ht)
    · rw [gather_append_cons, htail, List.nil_append]
      refine (hperm.cons picked.2.1.head).trans ?_
      rw [List.map_append, Feed.gather_append]
      exact List.perm_middle.symm
  | case4 s ss picked r rs htail ih =>
    rw [mergeSources_of_tail_cons htail] at h ⊢
    rw [pickLeast_eq c s ss]
    obtain ⟨hnone, hperm⟩ := ih h
    constructor
    · intro t ht
      simp only [List.mem_append, List.mem_cons] at ht
      rcases ht with ht | rfl | ht
      · exact hnone t (List.mem_append_left _ ht)
      · exact hnone ⟨r, rs, picked.2.1.fault⟩ (List.mem_append_right _ List.mem_cons_self)
      · exact hnone t (List.mem_append_right _ (List.mem_cons_of_mem _ ht))
    · rw [gather_append_cons, htail]
      refine (hperm.cons picked.2.1.head).trans ?_
      rw [gather_append_cons]
      exact List.perm_middle.symm

/-- A merge of sources emits nothing but their records, also if it fails. -/
theorem mergeSources_subset (ss : List Source) :
    (mergeSources c ss).records ⊆ Feed.gather (ss.map Source.feed) := by
  induction ss using mergeSources.induct c with
  | case1 => simp [mergeSources, Feed.ofList]
  | case2 s ss picked htail f =>
    rename_i hfault
    rw [mergeSources_of_fault htail hfault]
    exact List.nil_subset _
  | case3 s ss picked htail hfault =>
    rename_i ih
    rw [mergeSources_of_tail_nil htail hfault, pickLeast_eq c s ss, gather_append_cons, htail]
    rw [List.map_append, Feed.gather_append] at ih
    exact List.Subset.trans (List.cons_subset_cons _ ih) List.perm_middle.symm.subset
  | case4 s ss picked r rs htail =>
    rename_i ih
    rw [mergeSources_of_tail_cons htail, pickLeast_eq c s ss, gather_append_cons, htail]
    rw [gather_append_cons] at ih
    exact List.Subset.trans (List.cons_subset_cons _ ih) List.perm_middle.symm.subset

/-- The sources of feeds hold their records, and the fault of a feed is that of its source. -/
theorem sources_eq_ok {feeds : List Feed} {ss : List Source} (h : sources feeds = .ok ss) :
    Feed.gather (ss.map Source.feed) = Feed.gather feeds ∧
      ((∀ s ∈ ss, s.fault = none) → ∀ feed ∈ feeds, feed.fault = none) := by
  induction feeds generalizing ss with
  | nil =>
    cases h
    exact ⟨rfl, by simp⟩
  | cons feed feeds ih =>
    obtain ⟨records, fault⟩ := feed
    cases records with
    | nil =>
      cases fault with
      | some f => simp [sources] at h
      | none =>
        obtain ⟨hgather, hfeeds⟩ := ih h
        refine ⟨hgather, fun hnone feed hfeed => ?_⟩
        rcases List.mem_cons.1 hfeed with rfl | hfeed
        · rfl
        · exact hfeeds hnone feed hfeed
    | cons r rs =>
      obtain ⟨more, hmore, h⟩ := bind_eq_ok_iff.1 h
      cases h
      obtain ⟨hgather, hfeeds⟩ := ih hmore
      refine ⟨?_, fun hnone feed hfeed => ?_⟩
      · rw [List.map_cons, Feed.gather_cons, Feed.gather_cons, hgather]
        rfl
      · rw [List.forall_mem_cons] at hnone
        rcases List.mem_cons.1 hfeed with rfl | hfeed
        · exact hnone.1
        · exact hfeeds hnone.2 feed hfeed

/-- **A merge that ends without a fault emits the records of all feeds**, none of which fails. -/
theorem merge_perm {feeds : List Feed} (h : (merge c feeds).fault = none) :
    (∀ feed ∈ feeds, feed.fault = none) ∧
      (merge c feeds).records.Perm (Feed.gather feeds) := by
  unfold merge at h ⊢
  cases hss : sources feeds with
  | error f => simp [hss, Feed.failed] at h
  | ok ss =>
    simp only [hss] at h ⊢
    obtain ⟨hnone, hperm⟩ := mergeSources_perm ss h
    obtain ⟨hgather, hfeeds⟩ := sources_eq_ok hss
    exact ⟨hfeeds hnone, hgather ▸ hperm⟩

/-- A merge emits nothing but records of its feeds, also if one of them fails. -/
theorem merge_subset (c : Comparer) (feeds : List Feed) :
    (merge c feeds).records ⊆ Feed.gather feeds := by
  unfold merge
  cases hss : sources feeds with
  | error f => exact List.nil_subset _
  | ok ss =>
    rw [← (sources_eq_ok hss).1]
    exact mergeSources_subset ss

end Merge

end CardSort
