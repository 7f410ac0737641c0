import CardSort.Proofs.Framing

/-!
# Reading and writing undo one another

Records are read as they were written exactly if each of them, written by itself, is one record;
and what was read is written as it was, but for a separator that the last record may lack.

* `Reader.recordsFrom_eq` — a reader that is asked again and again delivers `Framing.records`.
* `Framing.records_write_iff` — **when records are read as they were written**.
* `Framing.EndsOpen` — the last record of a stream has no separator of its own.
* `Framing.write_records` — **what is written of the records that were read**.
-/

set_option autoImplicit false

namespace CardSort

/-- The records from a reader on are those that it delivers when it is asked one by one. -/
theorem Reader.recordsFrom_eq (r : Reader) :
    r.framing.recordsFrom (r.count + 1) r.data =
      match r.next with
      | (.ok none, _) => .ofList []
      | (.ok (some record), r') =>
        (r'.framing.recordsFrom (r'.count + 1) r'.data).cons record
      | (.error f, _) => .failed f := by
  rw [Framing.recordsFrom, Reader.next]
  split <;> simp only [*]

namespace Framing

variable {framing : Framing} {record rest rest' data separator : Bytes} {records : List Bytes}
  {number length : Nat}

/-! ## When records are read as they were written -/

/-- The first occurrence of a part in a list begins at the index. -/
def FirstAt (part xs : Bytes) (index : Nat) : Prop :=
  part <+: xs.drop index ∧ ∀ i < index, ¬ part <+: xs.drop i

instance (part xs : Bytes) (index : Nat) : Decidable (FirstAt part xs index) :=
  inferInstanceAs (Decidable (_ ∧ _))

/-- A record that is written with a separator is one record if its own separator is the first. -/
theorem frames_separated_iff :
    (separated separator).Frames record ↔
      FirstAt separator (record ++ separator) record.length := by
  rw [Frames, Occurrence.splitAtFirst_eq_some_iff]
  constructor
  · rintro ⟨-, hfirst⟩
    refine ⟨by simp, fun i hi hprefix => ?_⟩
    have hle := hfirst ((record ++ separator).take i) (by
      obtain ⟨more, hmore⟩ := hprefix
      exact ⟨more, by rw [List.append_assoc, hmore, List.take_append_drop]⟩)
    rw [List.length_take, List.length_append] at hle
    omega
  · rintro ⟨-, hfirst⟩
    refine ⟨(List.append_nil _).symm, fun b hb => Nat.le_of_not_lt fun hlt => ?_⟩
    obtain ⟨more, hmore⟩ := hb
    refine hfirst b.length hlt ⟨more, ?_⟩
    rw [← hmore, List.append_assoc, List.drop_left]

/-- A record that is read off the front of what was written, as it was, is one record. -/
theorem frames_of_cut_write (hformed : framing.WellFormed)
    (h : framing.cut (framing.writeRecord record ++ rest) = .record record rest') :
    framing.Frames record ∧ rest' = rest := by
  cases framing with
  | fixed length =>
    have hframes : (fixed length).Frames record := frames_of_cut trivial h
    have hcut := cut_write hformed hframes rest
    rw [h] at hcut
    cases hcut
    exact ⟨hframes, rfl⟩
  | separated separator =>
    have hne : separator ≠ [] := hformed
    have hsome : record ++ separator ++ rest ≠ [] := by simp [hne]
    rw [cut, writeRecord, if_neg hne, if_neg hsome] at h
    split at h
    · next hsplit =>
      cases h
      have heq := Occurrence.eq_of_splitAtFirst hsplit
      exact ⟨Occurrence.splitAtFirst_take hsplit, (List.append_cancel_left heq).symm⟩
    · next hsplit =>
      exact absurd ⟨rest, rfl⟩ (Occurrence.not_prefix_of_splitAtFirst hsplit record)

theorem cut_of_recordsFrom (h : framing.recordsFrom number data = .ofList (record :: records)) :
    ∃ rest, framing.cut data = .record record rest ∧
      framing.recordsFrom (number + 1) rest = .ofList records := by
  rw [recordsFrom] at h
  split at h
  · cases h
  · next first rest hcut =>
    simp only [Feed.cons, Feed.ofList, Feed.mk.injEq, List.cons.injEq] at h
    obtain ⟨⟨rfl, hrecords⟩, hfault⟩ := h
    exact ⟨rest, hcut, by rw [Feed.ofList, ← hrecords, ← hfault]⟩
  · cases h
  · cases h

/-- By induction on the records: each of them is read off the front of what is left. -/
theorem frames_of_recordsFrom_write (hformed : framing.WellFormed)
    (h : framing.recordsFrom number (framing.write records) = .ofList records) :
    ∀ r ∈ records, framing.Frames r := by
  induction records generalizing number with
  | nil => simp
  | cons r rs ih =>
    obtain ⟨rest, hcut, hrest⟩ := cut_of_recordsFrom h
    rw [write, List.flatMap_cons, ← write] at hcut
    obtain ⟨hframes, rfl⟩ := frames_of_cut_write hformed hcut
    exact List.forall_mem_cons.2 ⟨hframes, ih hrest⟩

theorem records_write_iff_frames (hformed : framing.WellFormed) :
    framing.records (framing.write records) = .ofList records ↔
      ∀ r ∈ records, framing.Frames r :=
  ⟨frames_of_recordsFrom_write hformed, records_write hformed⟩

/-- **When records are read as they were written**: with a separator, exactly if its first
occurrence in each record, with the separator behind it, is that behind the record; with a fixed
length, exactly if all records have it. -/
theorem records_write_iff (records : List Bytes) :
    (∀ separator, separator ≠ [] →
      ((separated separator).records ((separated separator).write records) = .ofList records ↔
        ∀ r ∈ records, FirstAt separator (r ++ separator) r.length)) ∧
    ∀ length, 1 ≤ length →
      ((fixed length).records ((fixed length).write records) = .ofList records ↔
        ∀ r ∈ records, r.length = length) := by
  constructor
  · intro separator hne
    have hformed : (separated separator).WellFormed := hne
    rw [records_write_iff_frames hformed]
    exact forall₂_congr fun r _ => frames_separated_iff
  · intro length hpos
    have hformed : (fixed length).WellFormed := hpos
    exact records_write_iff_frames hformed

/-- With the separator `aa`, the record `ab` is read as it was written; the record `a` is not, since
`aa` occurs in `aaa` at once. -/
theorem records_write_iff_bordered :
    [97, 97] ≠ ([] : Bytes) ∧
      (separated [97, 97]).records ((separated [97, 97]).write [[97, 98], []]) =
        .ofList [[97, 98], []] ∧
      (separated [97, 97]).records ((separated [97, 97]).write [[97]]) ≠ .ofList [[97]] ∧
      (fixed 2).records ((fixed 2).write [[97, 98]]) = .ofList [[97, 98]] := by
  have hne : [97, 97] ≠ ([] : Bytes) := by decide
  refine ⟨hne, ?_, ?_, ?_⟩
  · exact ((records_write_iff [[97, 98], []]).1 _ hne).2 (by decide)
  · exact fun h => absurd (((records_write_iff [[97]]).1 _ hne).1 h) (by decide)
  · exact ((records_write_iff [[97, 98]]).2 2 (by decide)).2 (by decide)

/-! ## What is written of the records that were read -/

/-- The last record of the stream has no separator of its own: no separator is found behind those
of the records in front of it, and some bytes are. -/
inductive EndsOpen (separator : Bytes) : Bytes → Prop where
  | last {data : Bytes} (hdata : data ≠ [])
      (hsplit : Occurrence.splitAtFirst separator data = none) : EndsOpen separator data
  | later {data record rest : Bytes}
      (hsplit : Occurrence.splitAtFirst separator data = some (record, rest))
      (hrest : EndsOpen separator rest) : EndsOpen separator data

theorem endsOpen_of_none (hsplit : Occurrence.splitAtFirst separator data = none) :
    EndsOpen separator data ↔ data ≠ [] := by
  refine ⟨?_, fun h => .last h hsplit⟩
  rintro (⟨hdata, -⟩ | ⟨hsome, -⟩)
  · exact hdata
  · cases hsplit.symm.trans hsome

theorem endsOpen_of_some
    (hsplit : Occurrence.splitAtFirst separator data = some (record, rest)) :
    EndsOpen separator data ↔ EndsOpen separator rest := by
  refine ⟨?_, .later hsplit⟩
  rintro (⟨-, hnone⟩ | ⟨hsome, hrest⟩)
  · cases hnone.symm.trans hsplit
  · cases hsplit.symm.trans hsome
    exact hrest

/-- What the front of a stream of separated records holds. -/
theorem cut_separated_cases (hne : separator ≠ []) (data : Bytes) :
    (data = [] ∧ (separated separator).cut data = .finished) ∨
      (data ≠ [] ∧ Occurrence.splitAtFirst separator data = none ∧
        (separated separator).cut data = .record data []) ∨
      ∃ record rest, Occurrence.splitAtFirst separator data = some (record, rest) ∧
        (separated separator).cut data = .record record rest := by
  obtain rfl | hdata := eq_or_ne data []
  · have hformed : (separated separator).WellFormed := hne
    exact .inl ⟨rfl, cut_nil hformed⟩
  · refine .inr ?_
    cases hsplit : Occurrence.splitAtFirst separator data with
    | none =>
      refine .inl ⟨hdata, rfl, ?_⟩
      rw [cut, if_neg hne, if_neg hdata, hsplit]
    | some split =>
      refine .inr ⟨split.1, split.2, rfl, ?_⟩
      rw [cut, if_neg hne, if_neg hdata, hsplit]

/-- The separator does not occur in front of its first occurrence. -/
theorem not_infix_of_splitAtFirst (hne : separator ≠ [])
    (hsplit : Occurrence.splitAtFirst separator data = some (record, rest)) :
    ¬ separator <:+: record := by
  rintro ⟨front, back, rfl⟩
  have hlength := List.length_pos_iff.2 hne
  have hle := Occurrence.length_le_of_splitAtFirst hsplit (b := front) (by
    rw [Occurrence.eq_of_splitAtFirst hsplit]
    exact ⟨back ++ separator ++ rest, by simp only [List.append_assoc]⟩)
  simp only [List.length_append] at hle
  omega

theorem not_infix_of_splitAtFirst_none
    (hsplit : Occurrence.splitAtFirst separator data = none) : ¬ separator <:+: data := by
  rintro ⟨front, back, rfl⟩
  exact Occurrence.not_prefix_of_splitAtFirst hsplit front ⟨back, rfl⟩

/-- What reading separated records comes to: it ends without a fault, no record holds the
separator, and the records, written again, are the stream, closed by a separator if it was open. -/
structure Restores (separator data : Bytes) (feed : Feed) : Prop where
  fault : feed.fault = none
  apart : ∀ r ∈ feed.records, ¬ separator <:+: r
  closed : ¬ EndsOpen separator data → (separated separator).write feed.records = data
  opened : EndsOpen separator data →
    (separated separator).write feed.records = data ++ separator

/-- By induction on the stream, record by record. -/
theorem restores_recordsFrom (hne : separator ≠ []) (number : Nat) (data : Bytes) :
    Restores separator data ((separated separator).recordsFrom number data) := by
  induction hn : data.length using Nat.strong_induction_on generalizing number data with
  | _ n ih =>
    obtain ⟨rfl, hcut⟩ | ⟨hdata, hsplit, hcut⟩ | ⟨record, rest, hsplit, hcut⟩ :=
      cut_separated_cases hne data
    · rw [recordsFrom_of_finished hcut]
      have hclosed : ¬ EndsOpen separator [] := by
        rw [endsOpen_of_none (by simpa [Occurrence.splitAtFirst, Occurrence.after?_eq_none_iff])]
        exact fun h => h rfl
      exact ⟨rfl, by simp [Feed.ofList], fun _ => rfl, fun h => absurd h hclosed⟩
    · have hformed : (separated separator).WellFormed := hne
      rw [recordsFrom_of_record hcut, recordsFrom_of_finished (cut_nil hformed)]
      refine ⟨rfl, ?_, fun h => absurd (.last hdata hsplit) h, fun _ => ?_⟩
      · simpa [Feed.cons, Feed.ofList] using not_infix_of_splitAtFirst_none hsplit
      · simp [Feed.cons, Feed.ofList, write, writeRecord]
    · obtain ⟨hfault, hapart, hclosed, hopened⟩ :=
        ih rest.length (hn ▸ length_lt_of_cut hcut) (number + 1) rest rfl
      have hdata := Occurrence.eq_of_splitAtFirst hsplit
      rw [recordsFrom_of_record hcut]
      refine ⟨hfault, ?_, fun h => ?_, fun h => ?_⟩
      · exact List.forall_mem_cons.2 ⟨not_infix_of_splitAtFirst hne hsplit, hapart⟩
      · rw [endsOpen_of_some hsplit] at h
        rw [Feed.cons, write, List.flatMap_cons, ← write, hclosed h, hdata, writeRecord]
      · rw [endsOpen_of_some hsplit] at h
        rw [Feed.cons, write, List.flatMap_cons, ← write, hopened h, hdata, writeRecord]
        simp only [List.append_assoc]

/-- What the front of a stream of records of one length holds. -/
theorem cut_fixed_cases (hpos : 0 < length) (data : Bytes) :
    (data = [] ∧ (fixed length).cut data = .finished) ∨
      (data ≠ [] ∧ data.length < length ∧
        (fixed length).cut data = .partialRecord data.length) ∨
      (length ≤ data.length ∧
        (fixed length).cut data = .record (data.take length) (data.drop length)) := by
  obtain rfl | hdata := eq_or_ne data []
  · have hformed : (fixed length).WellFormed := hpos
    exact .inl ⟨rfl, cut_nil hformed⟩
  · have hsome : ¬(length = 0 ∨ data = []) := by
      rintro (hzero | hnil)
      · omega
      · exact hdata hnil
    by_cases hlt : data.length < length
    · exact .inr (.inl ⟨hdata, hlt, by rw [cut, if_neg hsome, if_pos hlt]⟩)
    · exact .inr (.inr ⟨by omega, by rw [cut, if_neg hsome, if_neg hlt]⟩)

/-- The records of one length are the whole ones, and the fault tells of the bytes behind them. -/
theorem recordsFrom_fixed (hpos : 0 < length) (number : Nat) (data : Bytes) :
    ((fixed length).recordsFrom number data).fault =
        (if data.length % length = 0 then none
         else some (.truncated (number + data.length / length) length (data.length % length))) ∧
      (fixed length).write ((fixed length).recordsFrom number data).records =
        data.take (length * (data.length / length)) := by
  induction hn : data.length using Nat.strong_induction_on generalizing number data with
  | _ n ih =>
    subst hn
    obtain ⟨rfl, hcut⟩ | ⟨hdata, hlt, hcut⟩ | ⟨hle, hcut⟩ := cut_fixed_cases hpos data
    · rw [recordsFrom_of_finished hcut]
      simp [Feed.ofList, write]
    · have hlength : data.length ≠ 0 := by simpa using hdata
      have hrecords : (fixed length).recordsFrom number data =
          .failed (.truncated number length data.length) := by
        rw [recordsFrom]
        split <;> simp_all [truncation]
      rw [hrecords, Nat.mod_eq_of_lt hlt, Nat.div_eq_of_lt hlt, if_neg hlength]
      simp [Feed.failed, write]
    · obtain ⟨hfault, hwrite⟩ := ih _ (length_lt_of_cut hcut) (number + 1) (data.drop length) rfl
      have hdrop : (data.drop length).length = data.length - length := List.length_drop
      have hmod : (data.length - length) % length = data.length % length :=
        (Nat.mod_eq_sub_mod hle).symm
      have hdiv : data.length / length = (data.length - length) / length + 1 := by
        rw [Nat.div_eq_sub_div hpos hle]
      rw [hdrop] at hfault hwrite
      rw [recordsFrom_of_record hcut]
      constructor
      · rw [Feed.cons, hfault, hmod, hdiv, Nat.add_assoc, Nat.add_comm 1]
      · rw [Feed.cons, write, List.flatMap_cons, ← write, hwrite, writeRecord, hdiv,
          Nat.mul_add_one, Nat.add_comm (length * _), List.take_add]

/-- **What is written of the records that were read.** With a separator, every stream is read
without a fault, no record holds the separator, and the records are written as the stream, behind
which one more separator stands exactly if the last record had none of its own. With a fixed
length, a stream is read without a fault exactly if the length divides that of the stream, and then
the records are written as the stream; the fault names the record that is cut short and its
bytes. -/
theorem write_records (data : Bytes) :
    (∀ separator, separator ≠ [] →
      let feed := (separated separator).records data
      feed.fault = none ∧ (∀ r ∈ feed.records, ¬ separator <:+: r) ∧
        ((separated separator).write feed.records = data ∨
          (separated separator).write feed.records = data ++ separator) ∧
        ((separated separator).write feed.records = data ++ separator ↔
          EndsOpen separator data)) ∧
    ∀ length, 1 ≤ length →
      let feed := (fixed length).records data
      (feed.fault ≠ none ↔ ¬ length ∣ data.length) ∧
        (∀ f, feed.fault = some f →
          f = .truncated (data.length / length + 1) length (data.length % length)) ∧
        (feed.fault = none → (fixed length).write feed.records = data) := by
  constructor
  · intro separator hne feed
    obtain ⟨hfault, hapart, hclosed, hopened⟩ := restores_recordsFrom hne 1 data
    by_cases hopen : EndsOpen separator data
    · exact ⟨hfault, hapart, .inr (hopened hopen), iff_of_true (hopened hopen) hopen⟩
    · refine ⟨hfault, hapart, .inl (hclosed hopen), iff_of_false ?_ hopen⟩
      intro hwrite
      exact hne (List.self_eq_append_right.1 ((hclosed hopen).symm.trans hwrite))
  · intro length hpos feed
    obtain ⟨hfault, hwrite⟩ := recordsFrom_fixed hpos 1 data
    rw [Nat.dvd_iff_mod_eq_zero]
    by_cases hmod : data.length % length = 0
    · have hnone : feed.fault = none := hfault.trans (if_pos hmod)
      refine ⟨iff_of_false (fun h => h hnone) (fun h => h hmod), fun f hf => ?_, fun _ => ?_⟩
      · cases hnone.symm.trans hf
      · have hall : length * (data.length / length) = data.length := by
          rw [Nat.mul_div_cancel' (Nat.dvd_of_mod_eq_zero hmod)]
        rw [hall, List.take_length] at hwrite
        exact hwrite
    · have hsome := hfault.trans (if_neg hmod)
      refine ⟨iff_of_true (by simp [feed, records, hsome]) hmod, fun f hf => ?_, fun h => ?_⟩
      · rw [Nat.add_comm]
        exact Option.some.inj (hf.symm.trans hsome)
      · cases hsome.symm.trans h

/-- The stream `aaaba` with the separator `aa`: behind the first separator, `aba` is the last
record, and it has none of its own. As records of two bytes, the third one is cut short. -/
theorem write_records_bordered :
    let data : Bytes := [97, 97, 97, 98, 97]
    [97, 97] ≠ ([] : Bytes) ∧
      (separated [97, 97]).write ((separated [97, 97]).records data).records =
        data ++ [97, 97] ∧
      ((fixed 2).records data).fault = some (.truncated 3 2 1) ∧
      (fixed 5).write ((fixed 5).records data).records = data := by
  intro data
  have hne : [97, 97] ≠ ([] : Bytes) := by decide
  have hsplit : Occurrence.splitAtFirst [97, 97] data = some ([], [97, 98, 97]) := by decide
  have hopen : EndsOpen [97, 97] data := .later hsplit (.last (by decide) (by decide))
  have hfault : ((fixed 2).records data).fault ≠ none :=
    ((write_records data).2 2 (by decide)).1.2 (by decide)
  obtain ⟨f, hf⟩ := Option.ne_none_iff_exists'.1 hfault
  have hwhole : ((fixed 5).records data).fault = none := by
    by_contra h
    exact ((write_records data).2 5 (by decide)).1.1 h (by decide)
  refine ⟨hne, ((write_records data).1 _ hne).2.2.2.2 hopen, ?_,
    ((write_records data).2 5 (by decide)).2.2 hwhole⟩
  have hlength : data.length = 5 := rfl
  rw [hf, ((write_records data).2 2 (by decide)).2.1 f hf, hlength]

end Framing

end CardSort
