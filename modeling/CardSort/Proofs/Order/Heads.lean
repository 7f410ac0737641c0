import CardSort.Proofs.Except
import CardSort.Proofs.Order.Merge
import Mathlib.Data.List.Basic

/-!
# Merging through a heap of heads

A merge need not go through all runs to find the record that comes next. It keeps the head of
each run that is not exhausted in a heap, takes out the one that comes first, and puts the next
record of the same run in its place.

* `Head` — a record that stands first in its run; `Head.compare` is the order of the heap.
* `takeFirst` — takes the first head out of a heap, whatever the order in which it holds them.
* `fill`, `popAll`, `heapMerge` — **the literal loop** of such a merge.
* `popAll_eq_mergeSources` — the loop merges the runs behind its heads, by its recursion.
* `heapMerge_eq_merge` — **it merges as `merge` does**, also runs that fail.
-/

set_option autoImplicit false

namespace CardSort

open Std (OrientedCmp TransCmp ReflCmp)

/-- The next record of a run and what is left of it; nothing at its end. -/
def Feed.next (feed : Feed) : Except Fault (Option (Bytes × Feed)) :=
  match feed.records, feed.fault with
  | r :: rs, fault => .ok (some (r, ⟨rs, fault⟩))
  | [], none => .ok none
  | [], some f => .error f

namespace Merge

variable {c : Comparer}

/-! ## Heads -/

/-- A record that stands first in its run, and the index of the run. -/
structure Head where
  record : Bytes
  run : Nat
deriving DecidableEq, Repr

/-- The order in which heads leave the heap: by their keys, and among ties by their runs. -/
def Head.compare (c : Comparer) (a b : Head) : Ordering :=
  (c.compare a.record b.record).then (Ord.compare a.run b.run)

instance Head.transCmp_compare (c : Comparer) : TransCmp (Head.compare c) := by
  have := transCmp_comap Head.record c.compare
  have := transCmp_comap Head.run (Ord.compare (α := Nat))
  exact inferInstanceAs (TransCmp (compareLex (fun a b : Head => c.compare a.record b.record)
    (fun a b : Head => Ord.compare a.run b.run)))

theorem Head.compare_ne_gt_iff {a b : Head} :
    Head.compare c a b ≠ .gt ↔
      c.compare a.record b.record = .lt ∨ c.compare a.record b.record = .eq ∧ a.run ≤ b.run := by
  unfold Head.compare
  cases c.compare a.record b.record <;> simp [Nat.compare_ne_gt]

/-- Takes the head that comes first out of a heap, which holds its heads in any order. -/
def takeFirst (c : Comparer) (h : Head) : List Head → Head × List Head
  | [] => (h, [])
  | k :: ks =>
    let (first, rest) := takeFirst c k ks
    if Head.compare c h first = .gt then (first, h :: rest) else (h, k :: ks)

theorem takeFirst_perm (c : Comparer) (h : Head) (ks : List Head) :
    ((takeFirst c h ks).1 :: (takeFirst c h ks).2).Perm (h :: ks) := by
  induction ks generalizing h with
  | nil => exact .refl _
  | cons k ks ih =>
    simp only [takeFirst]
    split
    · exact (List.Perm.swap ..).trans ((ih k).cons h)
    · exact .refl _

theorem takeFirst_least (c : Comparer) (h : Head) (ks : List Head) :
    ∀ k ∈ h :: ks, Head.compare c (takeFirst c h ks).1 k ≠ .gt := by
  induction ks generalizing h with
  | nil =>
    intro k hk
    cases List.mem_singleton.1 hk
    simp [takeFirst, ReflCmp.compare_self]
  | cons k ks ih =>
    intro u hu
    simp only [takeFirst]
    split
    · rename_i hgt
      rcases List.mem_cons.1 hu with rfl | hu
      · rw [OrientedCmp.lt_of_gt hgt]
        decide
      · exact ih k u hu
    · rename_i hle
      rcases List.mem_cons.1 hu with rfl | hu
      · simp [ReflCmp.compare_self]
      · have hfirst := Ordering.isLE_iff_ne_gt.2 (ih k u hu)
        exact Ordering.isLE_iff_ne_gt.1 (TransCmp.isLE_trans (Ordering.isLE_iff_ne_gt.2 hle) hfirst)

/-! ## The loop -/

/-- What is left of run `i` behind its head. -/
def rest (runs : List Feed) (i : Nat) : Feed := runs.getD i (.ofList [])

/-- The number of records that are left behind the heads. -/
def recordsLeft (runs : List Feed) : Nat := (runs.map fun feed => feed.records.length).sum

theorem Feed.next_eq_ok_some_iff {feed left : Feed} {r : Bytes} :
    feed.next = .ok (some (r, left)) ↔ feed = ⟨r :: left.records, left.fault⟩ := by
  obtain ⟨records, fault⟩ := feed
  cases records with
  | nil => cases fault <;> simp [Feed.next]
  | cons a as =>
    obtain ⟨rs, g⟩ := left
    simp only [Feed.next, Except.ok.injEq, Option.some.injEq, Prod.mk.injEq, Feed.mk.injEq,
      List.cons.injEq, and_assoc]

theorem Feed.next_eq_ok_none_iff {feed : Feed} :
    feed.next = .ok none ↔ feed.records = [] ∧ feed.fault = none := by
  obtain ⟨records, fault⟩ := feed
  cases records with
  | nil => cases fault <;> simp [Feed.next]
  | cons a as => simp [Feed.next]

theorem Feed.next_eq_error_iff {feed : Feed} {f : Fault} :
    feed.next = .error f ↔ feed.records = [] ∧ feed.fault = some f := by
  obtain ⟨records, fault⟩ := feed
  cases records with
  | nil => cases fault <;> simp [Feed.next]
  | cons a as => simp [Feed.next]

theorem recordsLeft_set {runs : List Feed} {i : Nat} {r : Bytes} {left : Feed}
    (h : (rest runs i).next = .ok (some (r, left))) :
    recordsLeft (runs.set i left) + 1 = recordsLeft runs := by
  rw [Feed.next_eq_ok_some_iff] at h
  induction runs generalizing i with
  | nil => simp [rest, Feed.ofList] at h
  | cons feed runs ih =>
    cases i with
    | zero =>
      simp only [rest, List.getD_cons_zero] at h
      simp only [recordsLeft, List.set_cons_zero, List.map_cons, List.sum_cons, h,
        List.length_cons]
      omega
    | succ i =>
      have hrest := ih h
      simp only [recordsLeft, List.set_cons_succ, List.map_cons, List.sum_cons] at hrest ⊢
      omega

/-- The heads of runs of which the first records have been read. -/
def headsOf (read : List (Option (Bytes × Feed))) : List Head :=
  read.zipIdx.filterMap fun (next, run) => next.map fun (r, _) => ⟨r, run⟩

/-- What is left behind the heads of runs of which the first records have been read. -/
def behind (read : List (Option (Bytes × Feed))) : List Feed :=
  read.map fun next => (next.map Prod.snd).getD (.ofList [])

/-- Reads the head of each run into the heap, and leaves what is behind the heads. -/
def fill (feeds : List Feed) : Except Fault (List Head × List Feed) := do
  let read ← feeds.mapM Feed.next
  pure (headsOf read, behind read)

/-- The heads that leave the heap one after the other, and the fault that ends the merge. The next
record of a run takes the place of the head that has left. -/
def popAll (c : Comparer) (heap : List Head) (runs : List Feed) : List Head × Option Fault :=
  match heap with
  | [] => ([], none)
  | h :: hs =>
    let first := (takeFirst c h hs).1
    let others := (takeFirst c h hs).2
    match _next : (rest runs first.run).next with
    | .error f => ([], some f)
    | .ok none =>
      let popped := popAll c others runs
      (first :: popped.1, popped.2)
    | .ok (some (r, left)) =>
      let popped := popAll c (⟨r, first.run⟩ :: others) (runs.set first.run left)
      (first :: popped.1, popped.2)
termination_by heap.length + recordsLeft runs
decreasing_by
  · have hlength := (takeFirst_perm c h hs).length_eq
    simp only [List.length_cons] at hlength ⊢
    omega
  · have hlength := (takeFirst_perm c h hs).length_eq
    have hleft : recordsLeft (runs.set (takeFirst c h hs).1.run left) + 1 = recordsLeft runs :=
      recordsLeft_set _next
    simp only [List.length_cons] at hlength ⊢
    omega

/-- Merges feeds through a heap of heads. -/
def heapMerge (c : Comparer) (feeds : List Feed) : Feed :=
  match fill feeds with
  | .error f => .failed f
  | .ok (heap, runs) => ⟨(popAll c heap runs).1.map Head.record, (popAll c heap runs).2⟩

section

variable {h : Head} {hs : List Head} {runs : List Feed}

theorem popAll_of_fault {f : Fault}
    (hnext : (rest runs (takeFirst c h hs).1.run).next = .error f) :
    popAll c (h :: hs) runs = ([], some f) := by
  rw [popAll]
  split <;> simp_all

theorem popAll_of_end (hnext : (rest runs (takeFirst c h hs).1.run).next = .ok none) :
    popAll c (h :: hs) runs = ((takeFirst c h hs).1 :: (popAll c (takeFirst c h hs).2 runs).1,
      (popAll c (takeFirst c h hs).2 runs).2) := by
  rw [popAll]
  split <;> simp_all

theorem popAll_of_next {r : Bytes} {left : Feed}
    (hnext : (rest runs (takeFirst c h hs).1.run).next = .ok (some (r, left))) :
    popAll c (h :: hs) runs =
      ((takeFirst c h hs).1 :: (popAll c (⟨r, (takeFirst c h hs).1.run⟩ :: (takeFirst c h hs).2)
          (runs.set (takeFirst c h hs).1.run left)).1,
        (popAll c (⟨r, (takeFirst c h hs).1.run⟩ :: (takeFirst c h hs).2)
          (runs.set (takeFirst c h hs).1.run left)).2) := by
  rw [popAll]
  split <;> simp_all

end

/-! ## The loop merges -/

/-- The run behind a head, with the head in front. -/
def sourceOf (runs : List Feed) (h : Head) : Source :=
  ⟨h.record, (rest runs h.run).records, (rest runs h.run).fault⟩

theorem rest_set_of_ne {runs : List Feed} {i j : Nat} (hne : i ≠ j) (left : Feed) :
    rest (runs.set i left) j = rest runs j := by
  simp only [rest, List.getD_eq_getElem?_getD, List.getElem?_set_ne hne]

theorem rest_set_self {runs : List Feed} {i : Nat} {r : Bytes} {left : Feed}
    (hnext : (rest runs i).next = .ok (some (r, left))) : rest (runs.set i left) i = left := by
  have hi : i < runs.length := by
    refine Nat.lt_of_not_le fun hout => ?_
    simp [rest, List.getElem?_eq_none hout, Feed.ofList, Feed.next] at hnext
  simp only [rest, List.getD_eq_getElem?_getD, List.getElem?_set_self hi, Option.getD_some]

/-- What leaves the heap first is the head of the source that is picked first. -/
theorem takeFirst_eq_pickLeast {h : Head} {hs ordered : List Head} (runs : List Feed)
    (hperm : (h :: hs).Perm ordered) (hordered : (ordered.map Head.run).Pairwise (· < ·)) :
    ∃ s ss before after, ordered.map (sourceOf runs) = s :: ss ∧
      ordered = before ++ (takeFirst c h hs).1 :: after ∧
      pickLeast c s ss = (before.map (sourceOf runs), sourceOf runs (takeFirst c h hs).1,
        after.map (sourceOf runs)) ∧
      (takeFirst c h hs).2.Perm (before ++ after) := by
  obtain ⟨s, ss, hsources⟩ : ∃ s ss, ordered.map (sourceOf runs) = s :: ss := by
    cases ordered with
    | nil => exact absurd hperm.eq_nil (List.cons_ne_nil h hs)
    | cons k ks => exact ⟨_, _, rfl⟩
  have hsplit := pickLeast_eq c s ss
  rw [← hsources] at hsplit
  obtain ⟨before, behind, rfl, hbefore, hbehind⟩ := List.map_eq_append_iff.1 hsplit
  obtain ⟨k, after, rfl, hk, hafter⟩ := List.map_eq_cons_iff.1 hbehind
  have htaken := (takeFirst_perm c h hs).trans hperm
  -- the picked head comes before all others, so it is the one that the heap yields
  have hbelow : ∀ u ∈ before ++ after, Head.compare c k u = .lt := by
    intro u hu
    rcases List.mem_append.1 hu with hu | hu
    · have hgt := pickLeast_before c s ss (sourceOf runs u)
        (hbefore ▸ List.mem_map_of_mem hu)
      rw [← hk] at hgt
      unfold Head.compare
      rw [show c.compare k.record u.record = .lt from OrientedCmp.lt_of_gt hgt]
      rfl
    · have hle := pickLeast_after c s ss (sourceOf runs u) (hafter ▸ List.mem_map_of_mem hu)
      rw [← hk] at hle
      have hrun : k.run < u.run :=
        List.rel_of_pairwise_cons (List.pairwise_append.1 (List.pairwise_map.1 hordered)).2.1 hu
      have hne : c.compare k.record u.record ≠ .gt := Comparer.le_iff_ne_gt.1 hle
      unfold Head.compare
      rw [Nat.compare_eq_lt.2 hrun]
      cases hcompare : c.compare k.record u.record with
      | lt => rfl
      | eq => rfl
      | gt => exact absurd hcompare hne
  have hfirst : (takeFirst c h hs).1 = k := by
    rcases List.mem_cons.1 ((htaken.trans List.perm_middle).mem_iff.1 List.mem_cons_self) with
      hsame | hother
    · exact hsame
    · have hk : k ∈ h :: hs := hperm.mem_iff.2 (List.mem_append_right _ List.mem_cons_self)
      exact absurd (OrientedCmp.gt_of_lt (hbelow _ hother)) (takeFirst_least c h hs k hk)
  refine ⟨s, ss, before, after, hsources, by rw [hfirst], ?_, ?_⟩
  · rw [hfirst, hbefore, hk, hafter]
  · rw [hfirst] at htaken
    exact (htaken.trans List.perm_middle).cons_inv

/-- What is behind the other heads stays as it is when a run goes on. -/
theorem sources_set {before after : List Head} {first : Head} {runs : List Feed} {r : Bytes}
    {left : Feed} (hordered : ((before ++ first :: after).map Head.run).Pairwise (· < ·))
    (hnext : (rest runs first.run).next = .ok (some (r, left))) :
    (before ++ ⟨r, first.run⟩ :: after).map (sourceOf (runs.set first.run left)) =
      before.map (sourceOf runs) ++
        ⟨r, left.records, left.fault⟩ :: after.map (sourceOf runs) := by
  obtain ⟨-, hfirst, hbefore⟩ := List.pairwise_append.1 (List.pairwise_map.1 hordered)
  have hsame : ∀ u, first.run ≠ u.run →
      sourceOf (runs.set first.run left) u = sourceOf runs u := by
    intro u hne
    rw [sourceOf, rest_set_of_ne hne, sourceOf]
  rw [List.map_append, List.map_cons]
  congr 1
  · exact List.map_congr_left fun u hu =>
      hsame u (Nat.ne_of_gt (hbefore u hu first List.mem_cons_self))
  · congr 1
    · rw [sourceOf, rest_set_self hnext]
    · exact List.map_congr_left fun u hu =>
        hsame u (Nat.ne_of_lt (List.rel_of_pairwise_cons hfirst hu))

/-- The loop merges the sources of its heads. -/
theorem popAll_eq_mergeSources {heap ordered : List Head} {runs : List Feed}
    (hperm : heap.Perm ordered) (hordered : (ordered.map Head.run).Pairwise (· < ·)) :
    (⟨(popAll c heap runs).1.map Head.record, (popAll c heap runs).2⟩ : Feed) =
      mergeSources c (ordered.map (sourceOf runs)) := by
  induction heap, runs using popAll.induct c generalizing ordered with
  | case1 runs =>
    cases hperm.symm.eq_nil
    rw [popAll]
    simp [mergeSources, Feed.ofList]
  | case2 runs h hs first f =>
    rename_i hnext
    obtain ⟨s, ss, before, after, hsources, rfl, hpick, -⟩ :=
      takeFirst_eq_pickLeast (c := c) runs hperm hordered
    obtain ⟨htail, hfault⟩ := Feed.next_eq_error_iff.1 hnext
    rw [popAll_of_fault hnext, hsources, mergeSources_of_fault]
    · rfl
    · rw [hpick]
      exact htail
    · rw [hpick]
      exact hfault
  | case3 runs h hs first others hnext =>
    rename_i ih
    obtain ⟨s, ss, before, after, hsources, rfl, hpick, hothers⟩ :=
      takeFirst_eq_pickLeast (c := c) runs hperm hordered
    obtain ⟨htail, hfault⟩ := Feed.next_eq_ok_none_iff.1 hnext
    have hrest := ih hothers
      (hordered.sublist (((List.sublist_cons_self _ after).append_left before).map Head.run))
    rw [popAll_of_end hnext, hsources, mergeSources_of_tail_nil, hpick]
    · show _ = (mergeSources c (before.map _ ++ after.map _)).cons _
      rw [← List.map_append, ← hrest]
      rfl
    · rw [hpick]
      exact htail
    · rw [hpick]
      exact hfault
  | case4 runs h hs first others r left hnext =>
    rename_i ih
    obtain ⟨s, ss, before, after, hsources, rfl, hpick, hothers⟩ :=
      takeFirst_eq_pickLeast (c := c) runs hperm hordered
    have hrest := ih ((hothers.cons _).trans List.perm_middle.symm) (by simpa using hordered)
    have htail : (sourceOf runs first).tail = r :: left.records := by
      rw [sourceOf, Feed.next_eq_ok_some_iff.1 hnext]
    have hfault : (sourceOf runs first).fault = left.fault := by
      rw [sourceOf, Feed.next_eq_ok_some_iff.1 hnext]
    rw [popAll_of_next hnext, hsources, mergeSources_of_tail_cons, hpick]
    · show _ = (mergeSources c (before.map _ ++
        ⟨r, left.records, (sourceOf runs first).fault⟩ :: after.map _)).cons _
      rw [hfault, ← sources_set hordered hnext, ← hrest]
      rfl
    · rw [hpick]
      exact htail

/-! ## Filling the heap -/

section

variable {read : List (Option (Bytes × Feed))}

theorem mem_headsOf {h : Head} :
    h ∈ headsOf read ↔ ∃ left, read[h.run]? = some (some (h.record, left)) := by
  obtain ⟨r, i⟩ := h
  simp only [headsOf, List.mem_filterMap, Prod.exists, List.mk_mem_zipIdx_iff_getElem?]
  constructor
  · rintro ⟨next, run, hread, hnext⟩
    obtain ⟨⟨r', left⟩, rfl, hhead⟩ := Option.map_eq_some_iff.1 hnext
    cases hhead
    exact ⟨left, hread⟩
  · rintro ⟨left, hread⟩
    exact ⟨_, i, hread, rfl⟩

/-- The heads are read in the order of their runs. -/
theorem headsOf_ordered (read : List (Option (Bytes × Feed))) :
    ((headsOf read).map Head.run).Pairwise (· < ·) := by
  have hindices : (read.zipIdx.map Prod.snd).Pairwise (· < ·) := by
    rw [List.zipIdx_map_snd]
    exact List.pairwise_lt_range'
  rw [List.pairwise_map, headsOf, List.pairwise_filterMap]
  refine (List.pairwise_map.1 hindices).imp ?_
  rintro ⟨next, i⟩ ⟨next', j⟩ hlt h hh h' hh'
  obtain ⟨-, -, rfl⟩ := Option.map_eq_some_iff.1 hh
  obtain ⟨-, -, rfl⟩ := Option.map_eq_some_iff.1 hh'
  exact hlt

theorem rest_behind {i : Nat} {next : Option (Bytes × Feed)} (h : read[i]? = some next) :
    rest (behind read) i = (next.map Prod.snd).getD (.ofList []) := by
  simp [rest, behind, h]

/-- Heads and what is behind them are the sources of the runs. -/
theorem sourceOf_headsOf (read : List (Option (Bytes × Feed))) :
    (headsOf read).map (sourceOf (behind read)) =
      read.filterMap fun next => next.map fun (r, left) => ⟨r, left.records, left.fault⟩ := by
  have hindexed := congrArg (List.filterMap fun next : Option (Bytes × Feed) =>
    next.map fun (r, left) => (⟨r, left.records, left.fault⟩ : Source)) (List.zipIdx_map_fst 0 read)
  rw [← hindexed, List.filterMap_map, headsOf, List.map_filterMap]
  refine List.filterMap_congr fun x hx => ?_
  obtain ⟨next, i⟩ := x
  have hrest := rest_behind (List.mk_mem_zipIdx_iff_getElem?.1 hx)
  cases next with
  | none => rfl
  | some p =>
    show some (sourceOf (behind read) ⟨p.1, i⟩) = _
    rw [sourceOf, hrest]
    rfl

end

theorem sources_eq (feeds : List Feed) :
    sources feeds = (feeds.mapM Feed.next).map fun read =>
      read.filterMap fun next => next.map fun (r, left) => ⟨r, left.records, left.fault⟩ := by
  induction feeds with
  | nil => rfl
  | cons feed feeds ih =>
    obtain ⟨records, fault⟩ := feed
    rw [List.mapM_cons]
    cases records with
    | nil =>
      cases fault with
      | some f => rfl
      | none =>
        simp only [sources, Feed.next, ok_bind, ih]
        cases feeds.mapM Feed.next <;> rfl
    | cons r rs =>
      simp only [sources, Feed.next, ok_bind, ih]
      cases feeds.mapM Feed.next <;> rfl

/-- **Merging through a heap is merging**, also where runs fail. -/
theorem heapMerge_eq_merge (c : Comparer) (feeds : List Feed) :
    heapMerge c feeds = merge c feeds := by
  rw [heapMerge, merge, fill, sources_eq]
  cases feeds.mapM Feed.next with
  | error f => rfl
  | ok read =>
    show (⟨(popAll c (headsOf read) (behind read)).1.map Head.record,
      (popAll c (headsOf read) (behind read)).2⟩ : Feed) = _
    rw [popAll_eq_mergeSources (.refl _) (headsOf_ordered read), sourceOf_headsOf]
    rfl

end Merge

end CardSort
