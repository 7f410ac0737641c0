import CardSort.Proofs.Order.Spill

/-!
# Runs are unambiguous

Only the length in front of a record says where it ends, and records hold any bytes, also such as
look like lengths. Still a run is cut in one way alone: its bytes give the records, and the records
give its bytes.

* `Run.next` — one call of the reader; `Run.read_eq_next` says that reading calls it up to the end.
* `Run.writeLength_readLength` — four bytes are the length that they spell.
* `Run.next_eq_some_iff` — a record is taken off exactly where its length stands in front of it.
* `Run.read_eq_ofList_iff` — **a run reads as some records exactly if it is how they are written**.
* `Run.write_eq_error_iff` — the first record that four bytes cannot measure stops the writing.
* `Run.reads_back` — **what is written is read back, and only long records are refused**.
-/

set_option autoImplicit false

namespace CardSort.Run

variable {data rest r : Bytes} {records : List Bytes}

/-! ## Lengths -/

/-- Four bytes are the length that they spell. -/
theorem writeLength_readLength {bytes : Bytes} (h : bytes.length = 4) :
    writeLength (readLength bytes) = bytes := by
  have hdigits := Positional.digits_bytes bytes.reverse
  rw [List.length_reverse, h] at hdigits
  rw [writeLength, readLength, hdigits, List.reverse_reverse]

theorem readLength_lt {bytes : Bytes} (h : bytes.length = 4) :
    readLength bytes < lengthLimit := by
  have hlt := Positional.value_bytes_lt bytes.reverse
  rwa [List.length_reverse, h] at hlt

/-! ## One record -/

/-- One call of the reader on what is left of a run: the next record and what is left behind it, or
`none` at the end of the run, which is where no byte of a length is left. -/
def next (data : Bytes) : Except Fault (Option (Bytes × Bytes)) :=
  if data = [] then .ok none
  else if data.length < 4 then .error .io
  else
    let length := readLength (data.take 4)
    let rest := data.drop 4
    if rest.length < length then .error .io
    else .ok (some (rest.take length, rest.drop length))

/-- Reading a run calls the reader until it reports the end. -/
theorem read_eq_next (data : Bytes) :
    read data =
      match next data with
      | .error f => .failed f
      | .ok none => .ofList []
      | .ok (some (r, rest)) => (read rest).cons r := by
  match data with
  | [] => rw [read, next, if_pos rfl]
  | [_] | [_, _] | [_, _, _] => simp [read, next]
  | a :: b :: c :: d :: rest =>
    have hlong : ¬ (a :: b :: c :: d :: rest).length < 4 := by
      simp only [List.length_cons]
      omega
    rw [read, next, if_neg (List.cons_ne_nil _ _), if_neg hlong]
    by_cases hshort : rest.length < readLength [a, b, c, d]
    · simp [hshort]
    · simp [hshort]

/-- **A record is taken off exactly where its length stands in front of it.** -/
theorem next_eq_some_iff :
    next data = .ok (some (r, rest)) ↔
      r.length < lengthLimit ∧ data = writeLength r.length ++ r ++ rest := by
  constructor
  · intro h
    unfold next at h
    split at h
    · cases h
    split at h
    · cases h
    · rename_i hlong
      have htake : (data.take 4).length = 4 := by
        rw [List.length_take]
        omega
      simp only at h
      split at h
      · cases h
      · rename_i hrest
        cases h
        have hlength : ((data.drop 4).take (readLength (data.take 4))).length =
            readLength (data.take 4) := by
          rw [List.length_take]
          omega
        rw [hlength]
        refine ⟨readLength_lt htake, ?_⟩
        rw [writeLength_readLength htake, List.append_assoc, List.take_append_drop,
          List.take_append_drop]
  · rintro ⟨hshort, rfl⟩
    have htake : (writeLength r.length ++ r ++ rest).take 4 = writeLength r.length := by
      rw [List.append_assoc, ← length_writeLength r.length, List.take_left]
    have hdrop : (writeLength r.length ++ r ++ rest).drop 4 = r ++ rest := by
      rw [List.append_assoc, ← length_writeLength r.length, List.drop_left]
    have hlong : 4 ≤ (writeLength r.length ++ r ++ rest).length := by
      simp only [List.length_append, length_writeLength]
      omega
    have hne : writeLength r.length ++ r ++ rest ≠ [] := by
      rw [← List.length_pos_iff]
      omega
    unfold next
    rw [if_neg hne, if_neg (by omega)]
    simp only [htake, hdrop, readLength_writeLength hshort, List.length_append, List.take_left,
      List.drop_left]
    rw [if_neg (by omega)]

/-- The end of a run is reported where nothing is left. -/
theorem next_eq_none_iff : next data = .ok none ↔ data = [] := by
  unfold next
  split
  · simp [*]
  · simp only [*, iff_false]
    split
    · simp
    · split <;> simp

/-! ## Whole runs -/

/-- **A run reads as some records exactly if it is how they are written.** -/
theorem read_eq_ofList_iff : read data = .ofList records ↔ write records = .ok data := by
  refine ⟨fun h => ?_, read_write⟩
  induction records generalizing data with
  | nil =>
    rw [read_eq_next] at h
    split at h
    · cases h
    · rename_i hnext
      rw [next_eq_none_iff.1 hnext]
      rfl
    · cases h
  | cons first more ih =>
    rw [read_eq_next] at h
    split at h
    · cases h
    · cases h
    · rename_i r rest hnext
      obtain ⟨hshort, rfl⟩ := next_eq_some_iff.1 hnext
      have hrecords := congrArg Feed.records h
      have hfault := congrArg Feed.fault h
      obtain ⟨rfl, hmore⟩ := List.cons.inj hrecords
      have hrest : read rest = .ofList more := by
        cases hread : read rest with
        | mk records fault =>
          rw [hread] at hmore hfault
          cases hmore
          cases hfault
          rfl
      rw [write, if_pos hshort, ih hrest]
      rfl

/-- **The first record that four bytes cannot measure stops the writing.** -/
theorem write_eq_error_iff {f : Fault} :
    write records = .error f ↔
      ∃ r, records.find? (lengthLimit ≤ ·.length) = some r ∧
        f = .setting (.recordTooLong r.length) := by
  induction records with
  | nil => simp [write]
  | cons first more ih =>
    rw [write, List.find?_cons]
    split
    · rename_i hshort
      have hfits : decide (lengthLimit ≤ first.length) = false := by
        rw [decide_eq_false_iff_not]
        omega
      rw [hfits, ← ih, bind_eq_error_iff]
      constructor
      · rintro (h | ⟨_, _, h⟩)
        · exact h
        · cases h
      · exact .inl
    · rename_i hlong
      have hexceeds : decide (lengthLimit ≤ first.length) = true := by
        rw [decide_eq_true_eq]
        omega
      rw [hexceeds]
      constructor
      · intro h
        cases h
        exact ⟨first, rfl, rfl⟩
      · rintro ⟨_, h, rfl⟩
        cases h
        rfl

/-- **What is written is read back, and only long records are refused.** Records below `2 ^ 32`
bytes, empty ones and none at all included, are written as a run that reads as these records in
order and then ends. No other bytes read so. Writing fails exactly if one of the records is longer,
and the fault names the first such record. -/
theorem reads_back (records : List Bytes) :
    ((∀ r ∈ records, r.length < 2 ^ (32 : Nat)) →
        ∃ data, write records = .ok data ∧ read data = .ofList records) ∧
      (∀ data, read data = .ofList records ↔ write records = .ok data) ∧
      ((∃ f, write records = .error f) ↔ ∃ r ∈ records, 2 ^ (32 : Nat) ≤ r.length) ∧
      ∀ f, write records = .error f ↔
        ∃ r, records.find? (2 ^ (32 : Nat) ≤ ·.length) = some r ∧
          f = .setting (.recordTooLong r.length) := by
  refine ⟨fun hshort => ?_, fun _ => read_eq_ofList_iff, ?_, fun f => write_eq_error_iff⟩
  · obtain ⟨data, hdata⟩ := exists_write hshort
    exact ⟨data, hdata, read_write hdata⟩
  · constructor
    · rintro ⟨f, hf⟩
      obtain ⟨r, hr, -⟩ := write_eq_error_iff.1 hf
      have hlong := List.find?_some hr
      exact ⟨r, List.mem_of_find?_eq_some hr, of_decide_eq_true hlong⟩
    · rintro ⟨r, hr, hlong⟩
      cases hwrite : write records with
      | error f => exact ⟨f, rfl⟩
      | ok data => exact absurd (short_of_write hwrite r hr) (Nat.not_lt.2 hlong)

/-- An empty record, one that looks like the length of the record behind it, and that record. -/
theorem reads_back_lookalikes :
    let records : List Bytes := [[], [0x01, 0x00, 0x00, 0x00], [0x41]]
    (∀ r ∈ records, r.length < 2 ^ (32 : Nat)) ∧
      ∃ data, write records = .ok data ∧ read data = .ofList records := by
  intro records
  have hshort : ∀ r ∈ records, r.length < 2 ^ (32 : Nat) := by decide
  exact ⟨hshort, (reads_back records).1 hshort⟩

end CardSort.Run
