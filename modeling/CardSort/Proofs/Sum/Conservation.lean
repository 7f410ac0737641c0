import CardSort.Job.Sink
import CardSort.Proofs.Field.Store

/-!
# Sums lose nothing

Folding records with equal keys moves what their summed fields hold from one record to another:
no amount is lost or made up, also where a total does not fit and records stay apart.

* `Field.amount` and `Field.total` — what a field holds in a record, and in many.
* `SumRule.groups` — the records that have gone into one: those pushed between two that `push`
  emits.
* `SumRule.Absorbs` — **the invariant**: what the pending record has become.
* `SumRule.addInto_spec` and `SumRule.push_spec` — one addition, and one step.
* `SumRule.foldFrom_absorbs` — a whole run.
* `SumRule.fold_conserves` — **sums conserve records and amounts**, and fault nowhere.
-/

set_option autoImplicit false

namespace CardSort

namespace Field

variable {f : Field} {record : Bytes} {n : Int}

/-- The integer in a numeric field of a record; zero if there is none. -/
def amount (f : Field) (record : Bytes) : Int :=
  match f.decimal record with
  | .ok d => d.truncate
  | .error _ => 0

/-- The exact total of a numeric field over records. -/
def total (f : Field) (records : List Bytes) : Int := (records.map f.amount).sum

theorem Reads.amount_eq (h : f.Reads record n) : f.amount record = n := by
  obtain ⟨d, hd, hinteger⟩ := h
  rw [amount, hd]
  exact hinteger.truncate

theorem total_singleton (f : Field) (r : Bytes) : f.total [r] = f.amount r := by
  rw [total, List.map_singleton, List.sum_singleton]

theorem total_append (f : Field) (xs ys : List Bytes) :
    f.total (xs ++ ys) = f.total xs + f.total ys := by
  rw [total, List.map_append, List.sum_append, ← total, ← total]

theorem total_cons (f : Field) (r : Bytes) (rs : List Bytes) :
    f.total (r :: rs) = f.amount r + f.total rs := by
  rw [total, List.map_cons, List.sum_cons, ← total]

end Field

namespace SumRule

/-! ## Groups -/

/-- Records pushed from a state on, cut where a record is emitted; `group` holds those pushed
since the last cut. -/
def groupsFrom (rule : SumRule) (comparer : Comparer) (s : SumState) (group : List Bytes) :
    List Bytes → List (List Bytes)
  | [] => [group]
  | r :: rs =>
    match rule.push comparer s r with
    | (.ok (some _), s) => group :: groupsFrom rule comparer s [r] rs
    | (_, s) => groupsFrom rule comparer s (group ++ [r]) rs

/-- The records that go into each emitted one. -/
def groups (rule : SumRule) (comparer : Comparer) : List Bytes → List (List Bytes)
  | [] => []
  | r :: rs => groupsFrom rule comparer (rule.push comparer {} r).2 [r] rs

theorem flatten_groupsFrom (rule : SumRule) (comparer : Comparer) (s : SumState)
    (group records : List Bytes) :
    (rule.groupsFrom comparer s group records).flatten = group ++ records := by
  induction records generalizing s group with
  | nil => simp [groupsFrom]
  | cons r rs ih =>
    rw [groupsFrom]
    split
    · rw [List.flatten_cons, ih]
      rfl
    · rw [ih, List.append_assoc]
      rfl

/-- Every record goes into one group, in order. -/
theorem flatten_groups (rule : SumRule) (comparer : Comparer) (records : List Bytes) :
    (rule.groups comparer records).flatten = records := by
  cases records with
  | nil => rfl
  | cons r rs => exact flatten_groupsFrom rule comparer _ [r] rs

/-- What a record is after the records of its group have gone into it. -/
structure Absorbs (fields : List Field) (group : List Bytes) (out : Bytes) : Prop where
  /-- The first record of the group was the one that the others went into; on its own it is
  still what it was. -/
  opened : ∃ first rest, group = first :: rest ∧ SameOutside fields out first ∧
    (rest = [] → out = first)
  valid : (addFields fields).validate out = .ok ()
  /-- Each field holds what it held in all records of the group. -/
  amounts : ∀ f ∈ fields, f.amount out = f.total group

/-! ## One addition -/

section

variable {fields : List Field} {c : Comparer}

theorem reads_of_validate (hnumeric : ∀ f ∈ fields, f.format.isNumeric = true) {record : Bytes}
    (hvalid : (addFields fields).validate record = .ok ()) :
    ∀ f ∈ fields, f.Reads record (f.amount record) := by
  intro f hf
  obtain ⟨n, hread⟩ := (Field.validate_eq_ok_iff (hnumeric f hf)).1 (forM_eq_ok_iff.1 hvalid f hf)
  rw [hread.amount_eq]
  exact hread

theorem validate_of_reads (hnumeric : ∀ f ∈ fields, f.format.isNumeric = true) {record : Bytes}
    (hreads : ∀ f ∈ fields, ∃ n, f.Reads record n) :
    (addFields fields).validate record = .ok () :=
  forM_eq_ok_iff.2 fun f hf => (Field.validate_eq_ok_iff (hnumeric f hf)).2 (hreads f hf)

/-- An addition changes the bytes of the fields only, also if fields share bytes. -/
theorem sameOutside_of_addInto {pending record total out : Bytes}
    (hnumeric : ∀ f ∈ fields, f.format.isNumeric = true)
    (h : addInto pending record total fields = .ok (some out)) : SameOutside fields out total := by
  induction fields generalizing total with
  | nil =>
    cases h
    exact .refl _ _
  | cons f fields ih =>
    obtain ⟨a, _, h⟩ := bind_eq_ok_iff.1 h
    obtain ⟨b, _, h⟩ := bind_eq_ok_iff.1 h
    cases hadd : a.add? b with
    | none =>
      simp only [hadd] at h
      cases h
    | some sum =>
      simp only [hadd] at h
      cases hstore : (f.store sum).run total with
      | error fault _ =>
        simp only [hstore] at h
        split at h <;> cases h
      | ok _ stored =>
        simp only [hstore] at h
        have hfirst := (Field.store_eq_ok (hnumeric f List.mem_cons_self) hstore).1
        have hrest := ih (fun g hg => hnumeric g (List.mem_cons_of_mem _ hg)) h
        have hrest' : SameOutside (f :: fields) out stored := hrest.mono (List.subset_cons_self _ _)
        exact hrest'.trans (hfirst.mono (List.cons_subset_cons f (List.nil_subset _)))

/-- Either some total does not fit, or every field of the result holds the total of its own. -/
theorem addInto_spec {pending record total : Bytes}
    (hnumeric : ∀ f ∈ fields, f.format.isNumeric = true)
    (hdisjoint : fields.Pairwise Field.Disjoint)
    (hpending : ∀ f ∈ fields, f.Reads pending (f.amount pending))
    (hrecord : ∀ f ∈ fields, f.Reads record (f.amount record))
    (htotal : ∀ f ∈ fields, ∃ n, f.Reads total n) :
    addInto pending record total fields = .ok none ∨
      ∃ out, addInto pending record total fields = .ok (some out) ∧
        ∀ f ∈ fields, f.Reads out (f.amount pending + f.amount record) := by
  induction fields generalizing total with
  | nil =>
    exact .inr ⟨total, rfl, fun f hf => absurd hf List.not_mem_nil⟩
  | cons f fields ih =>
    obtain ⟨hfirst, hrest⟩ := List.pairwise_cons.1 hdisjoint
    obtain ⟨a, ha, hainteger⟩ := hpending f List.mem_cons_self
    obtain ⟨b, hb, hbinteger⟩ := hrecord f List.mem_cons_self
    rw [addInto, ha, ok_bind, hb, ok_bind]
    cases hadd : a.add? b with
    | none => exact .inl rfl
    | some sum =>
      rw [hainteger.add?_eq hbinteger] at hadd
      have hsum := Decimal.isInteger_of_ofInt? hadd
      cases hstore : (f.store sum).run total with
      | error fault _ =>
        obtain ⟨n, hread⟩ := htotal f List.mem_cons_self
        have hoverflow := Field.isOverflow_of_store (hnumeric f List.mem_cons_self) hread hstore
        simp only [hstore, hoverflow, if_true]
        exact .inl rfl
      | ok _ stored =>
        have hf := hnumeric f List.mem_cons_self
        have hstored := (Field.store_eq_ok hf hstore).2
        rw [hsum.truncate] at hstored
        -- the fields that follow are apart from the one just stored
        have hothers : ∀ g ∈ fields, ∃ n, g.Reads stored n := by
          intro g hg
          obtain ⟨n, hread⟩ := htotal g (List.mem_cons_of_mem _ hg)
          exact ⟨n, hread.of_store hf (hfirst g hg) hstore⟩
        simp only [hstore]
        rcases ih (fun g hg => hnumeric g (List.mem_cons_of_mem _ hg)) hrest
          (fun g hg => hpending g (List.mem_cons_of_mem _ hg))
          (fun g hg => hrecord g (List.mem_cons_of_mem _ hg)) hothers with hnone | hout
        · exact .inl hnone
        · obtain ⟨out, hadded, hamounts⟩ := hout
          have hsame := sameOutside_of_addInto
            (fun g hg => hnumeric g (List.mem_cons_of_mem _ hg)) hadded
          refine .inr ⟨out, hadded, ?_⟩
          intro g hg
          rcases List.mem_cons.1 hg with rfl | hg
          · exact hstored.of_sameOutside hsame hfirst
          · exact hamounts g hg

/-! ## One step -/

theorem absorbs_singleton {r : Bytes} (hvalid : (addFields fields).validate r = .ok ()) :
    Absorbs fields [r] r where
  opened := ⟨r, [], rfl, .refl _ _, fun _ => rfl⟩
  valid := hvalid
  amounts := fun f _ => (f.total_singleton r).symm

/-- A record that is added to the pending one joins its group. -/
theorem Absorbs.append {group : List Bytes} {p r out : Bytes}
    (hnumeric : ∀ f ∈ fields, f.format.isNumeric = true) (h : Absorbs fields group p)
    (hsame : SameOutside fields out p)
    (hamounts : ∀ f ∈ fields, f.Reads out (f.amount p + f.amount r)) :
    Absorbs fields (group ++ [r]) out := by
  obtain ⟨first, rest, rfl, hopened, _⟩ := h.opened
  refine ⟨⟨first, rest ++ [r], rfl, hsame.trans hopened, fun hnil => ?_⟩, ?_, fun f hf => ?_⟩
  · exact absurd hnil (by simp)
  · exact validate_of_reads hnumeric fun f hf => ⟨_, hamounts f hf⟩
  · rw [(hamounts f hf).amount_eq, h.amounts f hf, Field.total_append, Field.total_singleton]

/-- A push either adds the record to the open group or emits what the group has become and opens
another. -/
theorem push_spec {s : SumState} {group : List Bytes} {p r : Bytes}
    (hnumeric : ∀ f ∈ fields, f.format.isNumeric = true)
    (hdisjoint : fields.Pairwise Field.Disjoint)
    (hopen : s.pending = some p) (habsorbs : Absorbs fields group p)
    (hvalid : (addFields fields).validate r = .ok ()) :
    (∃ out, (addFields fields).push c s r =
        (.ok none, { s with pending := some out, summed := s.summed + 1 }) ∧
      Absorbs fields (group ++ [r]) out) ∨
    ∃ overflows, (addFields fields).push c s r =
      (.ok (some p), { s with pending := some r, overflows := overflows }) := by
  by_cases hkey : c.compare p r = .eq
  · rw [push_addFields hopen hkey]
    have hp := reads_of_validate hnumeric habsorbs.valid
    have hr := reads_of_validate hnumeric hvalid
    rcases addInto_spec hnumeric hdisjoint hp hr fun f hf => ⟨_, hp f hf⟩ with hnone | hout
    · rw [hnone]
      exact .inr ⟨s.overflows + 1, rfl⟩
    · obtain ⟨out, hadded, hamounts⟩ := hout
      have hsame := sameOutside_of_addInto hnumeric hadded
      rw [hadded]
      exact .inl ⟨out, rfl, habsorbs.append hnumeric hsame hamounts⟩
  · exact .inr ⟨s.overflows, push_of_ne hopen hkey⟩

/-! ## Runs -/

/-- From a pending record on, every record emitted is what its group has become, and a record
that is not emitted is counted. -/
theorem foldFrom_absorbs {s : SumState} {group : List Bytes} {p : Bytes} {records : List Bytes}
    (hnumeric : ∀ f ∈ fields, f.format.isNumeric = true)
    (hdisjoint : fields.Pairwise Field.Disjoint)
    (hopen : s.pending = some p) (habsorbs : Absorbs fields group p)
    (hvalid : ∀ r ∈ records, (addFields fields).validate r = .ok ()) :
    ((addFields fields).foldFrom c none s records).feed.fault = none ∧
      List.Forall₂ (Absorbs fields) ((addFields fields).groupsFrom c s group records)
        ((addFields fields).foldFrom c none s records).feed.records ∧
      ((addFields fields).foldFrom c none s records).feed.records.length +
          ((addFields fields).foldFrom c none s records).summed =
        records.length + 1 + s.summed := by
  induction records generalizing s group p with
  | nil =>
    simp only [foldFrom, groupsFrom, SumState.finish_of_pending hopen]
    refine ⟨rfl, .cons habsorbs .nil, ?_⟩
    show 1 + s.summed = 0 + 1 + s.summed
    omega
  | cons r rs ih =>
    have hr := hvalid r List.mem_cons_self
    have hrs : ∀ x ∈ rs, (addFields fields).validate x = .ok () :=
      fun x hx => hvalid x (List.mem_cons_of_mem _ hx)
    -- either way a group stays open, so the induction goes on from the new state
    rcases push_spec (c := c) hnumeric hdisjoint hopen habsorbs hr with
      ⟨out, hpush, hjoined⟩ | ⟨overflows, hpush⟩
    · obtain ⟨hfault, hgroups, hcount⟩ := ih (s := { s with
        pending := some out, summed := s.summed + 1 }) rfl hjoined hrs
      simp only [foldFrom, groupsFrom, hpush]
      refine ⟨hfault, hgroups, ?_⟩
      rw [hcount, List.length_cons]
      show rs.length + 1 + (s.summed + 1) = rs.length + 1 + 1 + s.summed
      omega
    · obtain ⟨hfault, hgroups, hcount⟩ := ih (s := { s with
        pending := some r, overflows := overflows }) rfl (absorbs_singleton hr) hrs
      simp only [foldFrom, groupsFrom, hpush]
      refine ⟨hfault, .cons habsorbs hgroups, ?_⟩
      simp only [Feed.cons, List.length_cons]
      simp only at hcount
      omega

theorem total_of_absorbs {groups : List (List Bytes)} {out : List Bytes} {f : Field}
    (h : List.Forall₂ (Absorbs fields) groups out) (hf : f ∈ fields) :
    f.total out = f.total groups.flatten := by
  induction h with
  | nil => rfl
  | cons hfirst _ ih =>
    rw [Field.total_cons, List.flatten_cons, Field.total_append, hfirst.amounts f hf, ih]

/-- **Sums conserve records and amounts.** Records that have their summed fields are folded
without a fault. Every record is emitted or counted as summed, every field adds up to the same
total as before, and the records emitted are, in order, what the groups of records have become. -/
theorem fold_conserves (c : Comparer) {records : List Bytes}
    (hnumeric : ∀ f ∈ fields, f.format.isNumeric = true)
    (hdisjoint : fields.Pairwise Field.Disjoint)
    (hvalid : ∀ r ∈ records, (addFields fields).validate r = .ok ()) :
    let folded := (addFields fields).fold c (.ofList records)
    folded.feed.fault = none ∧
      records.length = folded.feed.records.length + folded.summed ∧
      (∀ f ∈ fields, f.total folded.feed.records = f.total records) ∧
      ((addFields fields).groups c records).flatten = records ∧
      List.Forall₂ (Absorbs fields) ((addFields fields).groups c records) folded.feed.records := by
  cases records with
  | nil => exact ⟨rfl, rfl, fun _ _ => rfl, rfl, .nil⟩
  | cons r rs =>
    have hr := hvalid r List.mem_cons_self
    have hrs : ∀ x ∈ rs, (addFields fields).validate x = .ok () :=
      fun x hx => hvalid x (List.mem_cons_of_mem _ hx)
    have hpush : (addFields fields).push c {} r = (.ok none, { pending := some r }) := rfl
    obtain ⟨hfault, hgroups, hcount⟩ := foldFrom_absorbs (c := c) (s := { pending := some r })
      hnumeric hdisjoint rfl (absorbs_singleton hr) hrs
    have hfold : (addFields fields).fold c (.ofList (r :: rs)) =
        (addFields fields).foldFrom c none { pending := some r } rs := by
      rw [fold, Feed.ofList, foldFrom, hpush]
    rw [hfold]
    refine ⟨hfault, hcount.symm, fun f hf => ?_, flatten_groups _ _ _, hgroups⟩
    rw [total_of_absorbs hgroups hf, flatten_groupsFrom]
    rfl

/-- The second field of the first two records adds up to 256, which one byte does not hold: the
30 that the first field has come to by then is given up. -/
theorem fold_conserves_overflow :
    let fields : List Field := [⟨1, 2, .zd, .ascii⟩, ⟨3, 1, .bi, .ascii⟩]
    let c : Comparer := ⟨[⟨⟨0, 1, .ch, .ascii⟩, .ascending⟩], .native⟩
    let records : List Bytes := [[0x61, 0x31, 0x30, 0x01], [0x61, 0x32, 0x30, 0xFF],
      [0x61, 0x30, 0x35, 0x00], [0x62, 0x30, 0x37, 0x02]]
    let folded := (addFields fields).fold c (.ofList records)
    folded.feed.records =
        [[0x61, 0x31, 0x30, 0x01], [0x61, 0x32, 0x35, 0xFF], [0x62, 0x30, 0x37, 0x02]] ∧
      folded.feed.fault = none ∧
      records.length = folded.feed.records.length + folded.summed ∧
      (∀ f ∈ fields, f.total folded.feed.records = f.total records) ∧
      ((addFields fields).groups c records).flatten = records ∧
      List.Forall₂ (Absorbs fields) ((addFields fields).groups c records) folded.feed.records :=
  ⟨by decide +kernel, fold_conserves _ (by decide)
    (List.pairwise_pair.2 (Field.disjoint_of_stop_le (by decide))) (by decide +kernel)⟩

end

end SumRule

end CardSort
