import CardSort.Framing
import CardSort.Proofs.Occurrence

/-!
# Reading what was written

Records that are written and read again are the same if each of them, written by itself, is read
as one record.

* `Framing.WellFormed` — records have a length, or a separator ends them.
* `Framing.Frames` — the record, written, is one record.
* `Framing.cut_write` — **the first record of what was written** is read as it was.
* `Framing.records_write` — so are all records.
* `Framing.frames_of_mem_records` — **a record that was read can be written**, also the last one
  without a separator, if the separator does not overlap itself.
-/

set_option autoImplicit false

namespace CardSort

namespace Framing

variable {framing : Framing} {record rest data : Bytes} {records : List Bytes}

/-- Records have some length, or some separator. -/
def WellFormed : Framing → Prop
  | fixed length => 0 < length
  | separated separator => separator ≠ []

/-- The record, framed for output, is a record of its own. -/
def Frames : Framing → Bytes → Prop
  | fixed length, record => record.length = length
  | separated separator, record =>
    Occurrence.splitAtFirst separator (record ++ separator) = some (record, [])

/-- A separator does not overlap itself. -/
def Unbordered : Framing → Prop
  | fixed _ => True
  | separated separator => Occurrence.Unbordered separator

instance (framing : Framing) : Decidable framing.Unbordered :=
  match framing with
  | fixed _ => isTrue trivial
  | separated separator => inferInstanceAs (Decidable (Occurrence.Unbordered separator))

/-! ## One record -/

theorem cut_nil (hformed : framing.WellFormed) : framing.cut [] = .finished := by
  cases framing with
  | fixed length => exact if_pos (.inr rfl)
  | separated separator =>
    have hne : separator ≠ [] := hformed
    rw [cut, if_neg hne, if_pos rfl]

/-- **The first record of what was written is read as it was**, whatever follows. -/
theorem cut_write (hformed : framing.WellFormed) (h : framing.Frames record) (rest : Bytes) :
    framing.cut (framing.writeRecord record ++ rest) = .record record rest := by
  cases framing with
  | fixed length =>
    have hpos : 0 < length := hformed
    have hlength : record.length = length := h
    subst hlength
    have hsome : ¬(record.length = 0 ∨ record ++ rest = []) := by
      rintro (hzero | hnil)
      · omega
      · rw [(List.append_eq_nil_iff.1 hnil).1, List.length_nil] at hpos
        exact Nat.lt_irrefl 0 hpos
    have hlong : ¬(record ++ rest).length < record.length := by
      rw [List.length_append]
      omega
    simp only [cut, writeRecord, if_neg hsome, if_neg hlong, List.take_left, List.drop_left]
  | separated separator =>
    have hne : separator ≠ [] := hformed
    have hsome : record ++ separator ++ rest ≠ [] := by simp [hne]
    have hsplit := Occurrence.splitAtFirst_append h rest
    simp only [cut, writeRecord, if_neg hne, if_neg hsome, hsplit, List.nil_append]

/-- A record taken off a stream can be written. -/
theorem frames_of_cut (hunbordered : framing.Unbordered)
    (h : framing.cut data = .record record rest) : framing.Frames record := by
  cases framing with
  | fixed length =>
    simp only [cut] at h
    split at h
    · cases h
    split at h
    · cases h
    cases h
    exact List.length_take_of_le (by omega)
  | separated separator =>
    simp only [cut] at h
    split at h
    · cases h
    split at h
    · cases h
    split at h
    · rename_i hsplit
      cases h
      exact Occurrence.splitAtFirst_take hsplit
    · rename_i hsplit
      cases h
      exact Occurrence.splitAtFirst_append_part hunbordered hsplit

/-! ## All records -/

theorem recordsFrom_of_finished (h : framing.cut data = .finished) (number : Nat) :
    framing.recordsFrom number data = .ofList [] := by
  rw [recordsFrom]
  split <;> simp_all

theorem recordsFrom_of_record (h : framing.cut data = .record record rest) (number : Nat) :
    framing.recordsFrom number data = (framing.recordsFrom (number + 1) rest).cons record := by
  rw [recordsFrom]
  split <;> simp_all

/-- By induction on the records, each with the rest of the stream behind it. -/
theorem recordsFrom_write (hformed : framing.WellFormed)
    (h : ∀ r ∈ records, framing.Frames r) (number : Nat) :
    framing.recordsFrom number (framing.write records) = .ofList records := by
  induction records generalizing number with
  | nil => exact recordsFrom_of_finished (cut_nil hformed) number
  | cons r rs ih =>
    have hcut := cut_write hformed (h r List.mem_cons_self) (framing.write rs)
    rw [write, List.flatMap_cons, ← write, recordsFrom_of_record hcut,
      ih fun x hx => h x (List.mem_cons_of_mem _ hx)]
    rfl

/-- **Records are read as they were written.** -/
theorem records_write (hformed : framing.WellFormed) (h : ∀ r ∈ records, framing.Frames r) :
    framing.records (framing.write records) = .ofList records :=
  recordsFrom_write hformed h 1

theorem frames_of_mem_recordsFrom (hunbordered : framing.Unbordered) {number : Nat}
    (h : record ∈ (framing.recordsFrom number data).records) : framing.Frames record := by
  fun_induction recordsFrom framing number data with
  | case1 number data hcut => cases h
  | case2 number data first rest hcut ih =>
    rcases List.mem_cons.1 h with rfl | h
    · exact frames_of_cut hunbordered hcut
    · exact ih h
  | case3 number data actual hcut => cases h
  | case4 number data hcut => cases h

/-- **A record that was read can be written.** -/
theorem frames_of_mem_records (hunbordered : framing.Unbordered)
    (h : record ∈ (framing.records data).records) : framing.Frames record :=
  frames_of_mem_recordsFrom hunbordered h

end Framing

theorem Text.utf8_ne_nil {text : String} (h : text.isEmpty = false) : Text.utf8 text ≠ [] := by
  intro hnil
  have hsize : text.utf8ByteSize = 0 := by
    show (Text.utf8 text).length = 0
    rw [hnil, List.length_nil]
  simp [String.isEmpty, hsize] at h

/-- A configuration that passes its checks has a length or a separator. -/
theorem Config.wellFormed_of_validate {config : Config} (h : config.validate = .ok ()) :
    config.recordFormat.framing.WellFormed := by
  have hissue : config.issue? = none := by
    cases hissue : config.issue? with
    | none => rfl
    | some issue => simp [validate, hissue] at h
  by_cases hlimit : config.memoryLimit = 0
  · simp [issue?, hlimit] at hissue
  · simp only [issue?, if_neg hlimit] at hissue
    cases hformat : config.recordFormat with
    | fixed length =>
      by_cases hzero : length = 0
      · simp [hformat, hzero] at hissue
      · exact Nat.pos_of_ne_zero hzero
    | separated separator =>
      cases hempty : separator.isEmpty with
      | true => simp [hformat, hempty] at hissue
      | false => exact Text.utf8_ne_nil hempty

end CardSort
