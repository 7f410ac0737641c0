import CardSort.Proofs.Order.Heads

/-!
# A merge interleaves its runs

The heap of a merge holds one head for each run that is left, so the merge takes every run apart
in its own order, whatever order that is. Nothing is lost and nothing comes twice, also where the
runs are not in key order; what comes next is always the least of the heads.

* `Takes` — heads that are taken until nothing is left, each the one that comes first.
* `Waiting` — the invariant: one head for each run that is left; `Waiting.take_last` and
  `Waiting.take_next` say that a step of the loop keeps it.
* `popAll_takes` — the loop takes its runs apart, by its recursion.
* `Takes.filter_run` — each run is taken from its front to its end.
* `fault_merge` — a merge of runs that do not fail does not fail.
* `merge_interleaves` — **a merge interleaves its runs**, each record least among the heads.
-/

set_option autoImplicit false

namespace CardSort

namespace Merge

variable {c : Comparer}

/-! ## What the merge takes -/

/-- What is left of each run when the first record of run `i` has been taken. -/
def takeFrom (left : Nat → List Bytes) (i : Nat) : Nat → List Bytes :=
  fun j => if j = i then (left j).tail else left j

/-- Heads are taken until nothing is left, each from the front of its run, and each the one that
comes first among the heads of what is left. -/
inductive Takes (c : Comparer) : (Nat → List Bytes) → List Head → Prop where
  | nil {left : Nat → List Bytes} (hleft : ∀ i, left i = []) : Takes c left []
  | cons {left : Nat → List Bytes} {h : Head} {picks : List Head}
      (hhead : (left h.run).head? = some h.record)
      (hfirst : ∀ i r, (left i).head? = some r → Head.compare c h ⟨r, i⟩ ≠ .gt)
      (htakes : Takes c (takeFrom left h.run) picks) : Takes c left (h :: picks)

/-- The heap holds one head for each run that is left, and `left` tells what is left of each run:
its head and what is behind it. -/
structure Waiting (heap : List Head) (runs : List Feed) (left : Nat → List Bytes) : Prop where
  single : (heap.map Head.run).Nodup
  head : ∀ h ∈ heap, left h.run = h.record :: (rest runs h.run).records
  exhausted : ∀ i, i ∉ heap.map Head.run → left i = []

namespace Waiting

variable {heap heap' : List Head} {h first : Head} {hs others : List Head} {runs : List Feed}
  {left : Nat → List Bytes}

theorem perm (hwaiting : Waiting heap runs left) (hperm : heap.Perm heap') :
    Waiting heap' runs left where
  single := (hperm.map Head.run).nodup_iff.1 hwaiting.single
  head h hh := hwaiting.head h (hperm.mem_iff.2 hh)
  exhausted i hi := hwaiting.exhausted i fun hmem => hi ((hperm.map Head.run).mem_iff.1 hmem)

/-- What is left of a run begins with its head. -/
theorem mem_of_head? (hwaiting : Waiting heap runs left) {i : Nat} {r : Bytes}
    (hr : (left i).head? = some r) : ⟨r, i⟩ ∈ heap := by
  by_cases hi : i ∈ heap.map Head.run
  · obtain ⟨h, hmem, rfl⟩ := List.mem_map.1 hi
    rw [hwaiting.head h hmem, List.head?_cons] at hr
    cases hr
    exact hmem
  · rw [hwaiting.exhausted i hi] at hr
    cases hr

/-- A head has been taken, and its run has come to its end. -/
theorem take_last (hwaiting : Waiting (first :: others) runs left)
    (hend : (rest runs first.run).records = []) :
    Waiting others runs (takeFrom left first.run) := by
  obtain ⟨hfirst, hsingle⟩ := List.nodup_cons.1 hwaiting.single
  refine ⟨hsingle, ?_, ?_⟩
  · intro h hh
    have hne : h.run ≠ first.run := fun heq => hfirst (heq ▸ List.mem_map_of_mem hh)
    rw [takeFrom, if_neg hne, hwaiting.head h (List.mem_cons_of_mem _ hh)]
  · intro i hi
    rw [takeFrom]
    split
    · rename_i heq
      rw [heq, hwaiting.head first List.mem_cons_self, List.tail_cons, hend]
    · rename_i hne
      exact hwaiting.exhausted i (by simpa [hne] using hi)

/-- A head has been taken, and the next record of its run has come into its place. -/
theorem take_next (hwaiting : Waiting (first :: others) runs left) {r : Bytes} {behind : Feed}
    (hnext : (rest runs first.run).next = .ok (some (r, behind))) :
    Waiting (⟨r, first.run⟩ :: others) (runs.set first.run behind) (takeFrom left first.run) := by
  obtain ⟨hfirst, -⟩ := List.nodup_cons.1 hwaiting.single
  refine ⟨hwaiting.single, ?_, ?_⟩
  · intro h hh
    rcases List.mem_cons.1 hh with rfl | hh
    · show takeFrom left first.run first.run =
        r :: (rest (runs.set first.run behind) first.run).records
      rw [takeFrom, if_pos rfl, hwaiting.head first List.mem_cons_self, rest_set_self hnext,
        List.tail_cons, Feed.next_eq_ok_some_iff.1 hnext]
    · have hne : h.run ≠ first.run := fun heq => hfirst (heq ▸ List.mem_map_of_mem hh)
      rw [takeFrom, if_neg hne, hwaiting.head h (List.mem_cons_of_mem _ hh),
        rest_set_of_ne hne.symm]
  · intro i hi
    have hne : i ≠ first.run := fun heq => hi (by simp [heq])
    rw [takeFrom, if_neg hne]
    exact hwaiting.exhausted i hi

end Waiting

/-- **The loop takes the runs apart**, if none of them fails: by induction on the records that are
left, with one head for each run in the heap. -/
theorem popAll_takes {heap : List Head} {runs : List Feed} {left : Nat → List Bytes}
    (hwaiting : Waiting heap runs left) (hclean : ∀ i, (rest runs i).fault = none) :
    (popAll c heap runs).2 = none ∧ Takes c left (popAll c heap runs).1 := by
  induction heap, runs using popAll.induct c generalizing left with
  | case1 runs =>
    rw [popAll]
    exact ⟨rfl, .nil fun i => hwaiting.exhausted i (by simp)⟩
  | case2 runs h hs first f =>
    rename_i hnext
    obtain ⟨-, hfault⟩ := Feed.next_eq_error_iff.1 hnext
    rw [hclean] at hfault
    cases hfault
  | case3 runs h hs first others hnext =>
    rename_i ih
    have htaken := hwaiting.perm (takeFirst_perm c h hs).symm
    obtain ⟨hend, -⟩ := Feed.next_eq_ok_none_iff.1 hnext
    obtain ⟨hfault, htakes⟩ := ih (htaken.take_last hend) hclean
    rw [popAll_of_end hnext]
    refine ⟨hfault, .cons ?_ ?_ htakes⟩
    · rw [htaken.head first List.mem_cons_self, List.head?_cons]
    · exact fun i r hr => takeFirst_least c h hs _ (hwaiting.mem_of_head? hr)
  | case4 runs h hs first others r behind hnext =>
    rename_i ih
    have htaken := hwaiting.perm (takeFirst_perm c h hs).symm
    have hclean' : ∀ i, (rest (runs.set first.run behind) i).fault = none := by
      intro i
      by_cases hi : first.run = i
      · have hfirst := hclean first.run
        rw [Feed.next_eq_ok_some_iff.1 hnext] at hfirst
        rw [← hi, rest_set_self hnext]
        exact hfirst
      · rw [rest_set_of_ne hi]
        exact hclean i
    obtain ⟨hfault, htakes⟩ := ih (htaken.take_next hnext) hclean'
    rw [popAll_of_next hnext]
    refine ⟨hfault, .cons ?_ ?_ htakes⟩
    · rw [htaken.head first List.mem_cons_self, List.head?_cons]
    · exact fun i r hr => takeFirst_least c h hs _ (hwaiting.mem_of_head? hr)

namespace Takes

variable {left : Nat → List Bytes} {picks : List Head}

/-- Each run is taken from its front to its end. -/
theorem filter_run (htakes : Takes c left picks) (i : Nat) :
    (picks.filter fun h => h.run = i).map Head.record = left i := by
  induction htakes with
  | nil hleft => rw [hleft]; rfl
  | @cons left h picks hhead _ _ ih =>
    by_cases hi : h.run = i
    · subst hi
      rw [List.filter_cons_of_pos (by simp), List.map_cons, ih, takeFrom, if_pos rfl]
      exact List.cons_head?_tail hhead
    · rw [List.filter_cons_of_neg (by simpa using hi), ih, takeFrom, if_neg (Ne.symm hi)]

/-- What is left after some heads is what they leave of each run. -/
theorem of_append {before after : List Head} (htakes : Takes c left (before ++ after)) :
    Takes c (fun i => (left i).drop (before.countP fun h => h.run = i)) after := by
  induction before generalizing left with
  | nil => simpa using htakes
  | cons h before ih =>
    cases htakes with
    | cons _ _ hrest =>
      have hafter := ih hrest
      have hsame : (fun i => (takeFrom left h.run i).drop (before.countP fun h => h.run = i)) =
          fun i => (left i).drop ((h :: before).countP fun h => h.run = i) := by
        funext i
        by_cases hi : i = h.run
        · subst hi
          rw [takeFrom, if_pos rfl, List.countP_cons_of_pos (by simp), List.drop_tail]
        · rw [takeFrom, if_neg hi, List.countP_cons_of_neg (by simpa using Ne.symm hi)]
      exact hsame ▸ hafter

end Takes

/-! ## Runs that do not fail -/

/-- The first record of a run that does not fail, and what is left behind it. -/
def opened : List Bytes → Option (Bytes × Feed)
  | [] => none
  | r :: rs => some (r, .ofList rs)

theorem fill_ofList (runs : List (List Bytes)) :
    fill (runs.map .ofList) = .ok (headsOf (runs.map opened), behind (runs.map opened)) := by
  have hread : (runs.map Feed.ofList).mapM Feed.next = .ok (runs.map opened) := by
    rw [mapM_eq_ok_iff, List.forall₂_map_left_iff, List.forall₂_map_right_iff, List.forall₂_same]
    intro run _
    cases run <;> rfl
  rw [fill, hread]
  rfl

theorem fault_rest_opened (runs : List (List Bytes)) (i : Nat) :
    (rest (behind (runs.map opened)) i).fault = none := by
  cases hrun : runs[i]? with
  | none => simp [rest, behind, hrun, Feed.ofList]
  | some run =>
    have hread : (runs.map opened)[i]? = some (opened run) := by simp [hrun]
    rw [rest_behind hread]
    cases run <;> rfl

/-- The filled heap holds the head of each run that is not empty. -/
theorem waiting_opened (runs : List (List Bytes)) :
    Waiting (headsOf (runs.map opened)) (behind (runs.map opened)) fun i => runs.getD i [] where
  single := (headsOf_ordered _).imp Nat.ne_of_lt
  head h hh := by
    obtain ⟨left, hread⟩ := mem_headsOf.1 hh
    rw [rest_behind hread]
    rw [List.getElem?_map] at hread
    obtain ⟨run, hrun, hopened⟩ := Option.map_eq_some_iff.1 hread
    cases run with
    | nil => cases hopened
    | cons r rs =>
      cases hopened
      simp [List.getD_eq_getElem?_getD, hrun, Feed.ofList]
  exhausted i hi := by
    cases hrun : runs[i]? with
    | none => simp [List.getD_eq_getElem?_getD, hrun]
    | some run =>
      cases run with
      | nil => simp [List.getD_eq_getElem?_getD, hrun]
      | cons r rs =>
        have hhead : (⟨r, i⟩ : Head) ∈ headsOf (runs.map opened) :=
          mem_headsOf.2 ⟨.ofList rs, by rw [List.getElem?_map, hrun]; rfl⟩
        exact absurd (List.mem_map_of_mem hhead) hi

/-- A merge of runs that do not fail takes them apart. -/
theorem exists_takes (c : Comparer) (runs : List (List Bytes)) :
    ∃ picks : List Head, merge c (runs.map .ofList) = .ofList (picks.map Head.record) ∧
      Takes c (fun i => runs.getD i []) picks := by
  obtain ⟨hfault, htakes⟩ := popAll_takes (c := c) (waiting_opened runs) (fault_rest_opened runs)
  refine ⟨_, ?_, htakes⟩
  rw [← heapMerge_eq_merge, heapMerge, fill_ofList]
  simp only [hfault]
  rfl

/-- **A merge of feeds that do not fail does not fail**, whatever the order of their records. -/
theorem fault_merge {feeds : List Feed} (h : ∀ feed ∈ feeds, feed.fault = none) :
    (merge c feeds).fault = none := by
  have hfeeds : (feeds.map Feed.records).map Feed.ofList = feeds := by
    rw [List.map_map]
    refine (List.map_congr_left fun feed hfeed => ?_).trans (List.map_id feeds)
    show (⟨feed.records, none⟩ : Feed) = feed
    rw [← h feed hfeed]
  obtain ⟨picks, hmerge, -⟩ := exists_takes c (feeds.map Feed.records)
  rw [hfeeds] at hmerge
  rw [hmerge]
  rfl

/-- What is left of run `i` when some heads have been taken. -/
def remaining (runs : List (List Bytes)) (taken : List Head) (i : Nat) : List Bytes :=
  (runs.getD i []).drop (taken.countP fun h => h.run = i)

/-- **A merge interleaves its runs**, in whatever order their records stand. It takes every record
of every run once, those of one run in their order, and each time the record is the least of the
heads of what is left, and among ties that of the earliest run. -/
theorem merge_interleaves (c : Comparer) (runs : List (List Bytes)) :
    ∃ picks : List Head, merge c (runs.map .ofList) = .ofList (picks.map Head.record) ∧
      (picks.map Head.record).Perm runs.flatten ∧ (∀ h ∈ picks, h.run < runs.length) ∧
      (∀ i run, runs[i]? = some run →
        (picks.filter fun h => h.run = i).map Head.record = run) ∧
      ∀ before h after, picks = before ++ h :: after →
        (remaining runs before h.run).head? = some h.record ∧
          ∀ i r, (remaining runs before i).head? = some r →
            c.compare h.record r = .lt ∨ c.compare h.record r = .eq ∧ h.run ≤ i := by
  obtain ⟨picks, hmerge, htakes⟩ := exists_takes c runs
  refine ⟨picks, hmerge, ?_, ?_, ?_, ?_⟩
  · have hnone : (merge c (runs.map .ofList)).fault = none := by
      rw [hmerge]
      rfl
    have hperm := (merge_perm hnone).2
    rw [hmerge] at hperm
    rwa [Feed.gather_map_ofList] at hperm
  · intro h hh
    refine Nat.lt_of_not_le fun hout => ?_
    have hnone := htakes.filter_run h.run
    rw [List.getD_eq_getElem?_getD, List.getElem?_eq_none hout, Option.getD_none,
      List.map_eq_nil_iff, List.filter_eq_nil_iff] at hnone
    exact hnone h hh (by simp)
  · intro i run hrun
    rw [htakes.filter_run i, List.getD_eq_getElem?_getD, hrun]
    rfl
  · intro before h after hpicks
    rw [hpicks] at htakes
    cases htakes.of_append with
    | cons hhead hfirst _ =>
      exact ⟨hhead, fun i r hr => Head.compare_ne_gt_iff.1 (hfirst i r hr)⟩

/-- The run `b`, `a` is not in order: its `a` has to wait for its `b`. -/
example :
    merge ⟨[⟨⟨0, 1, .ch, .ascii⟩, .ascending⟩], .native⟩
        [.ofList [[0x62], [0x61]], .ofList [[0x61], [0x63]]] =
      .ofList [[0x61], [0x62], [0x61], [0x63]] := by
  cbv

end Merge

end CardSort
