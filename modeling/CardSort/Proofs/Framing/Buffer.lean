import CardSort.Proofs.Framing
import Mathlib.Data.List.Induction

/-!
# Separators found through a buffer

A stream need not be in memory to be cut. A reader takes bytes up to the next one with which the
separator ends, puts them into a buffer, and looks whether the buffer ends with the separator now.
This finds the first separator of the stream, whatever the separator is, also one that overlaps
itself.

* `readUntil` — the bytes up to the next one of a kind.
* `bufferedCut` — **the literal loop** of such a reader.
* `eq_of_prefix_filled` — the buffer holds no separator but at its end.
* `bufferedCut_eq_cut` — **the loop takes the records that `Framing.cut` takes.**
-/

set_option autoImplicit false

namespace CardSort.Framing

variable {last : UInt8} {separator buffer chunk data front rest b : Bytes}

/-- The bytes up to and including the next `last`, and those behind it; all bytes, if there is no
such byte. -/
def readUntil (last : UInt8) : Bytes → Bytes × Bytes
  | [] => ([], [])
  | x :: data =>
    if x = last then ([x], data) else (x :: (readUntil last data).1, (readUntil last data).2)

theorem readUntil_append (last : UInt8) (data : Bytes) :
    (readUntil last data).1 ++ (readUntil last data).2 = data := by
  induction data with
  | nil => rfl
  | cons x data ih =>
    by_cases hx : x = last
    · simp [readUntil, hx]
    · simp [readUntil, hx, ih]

/-- Such a byte stands at the end of what is read, unless there is none. -/
theorem readUntil_cases (last : UInt8) (data : Bytes) :
    ∃ front, last ∉ front ∧ ((readUntil last data).1 = front ∨
      (readUntil last data).1 = front ++ [last]) := by
  induction data with
  | nil => exact ⟨[], by simp, .inl rfl⟩
  | cons x data ih =>
    by_cases hx : x = last
    · exact ⟨[], by simp, .inr (by simp [readUntil, hx])⟩
    · obtain ⟨front, hfront, hread⟩ := ih
      refine ⟨x :: front, by simp [hfront, Ne.symm hx], ?_⟩
      simpa [readUntil, hx] using hread

theorem length_readUntil_lt (hdata : data ≠ []) :
    (readUntil last data).2.length < data.length := by
  have hlength := congrArg List.length (readUntil_append last data)
  obtain ⟨x, data, rfl⟩ := List.exists_cons_of_ne_nil hdata
  have hpos : 0 < (readUntil last (x :: data)).1.length := by
    by_cases hx : x = last <;> simp [readUntil, hx]
  rw [List.length_append] at hlength
  omega

/-- The literal loop: the buffer is filled up to the next byte with which the separator ends, until
it ends with the separator or the stream is at its end. -/
def bufferedCut (separator : Bytes) (last : UInt8) (buffer data : Bytes) : Cut :=
  if data = [] then if buffer = [] then .finished else .record buffer []
  else
    let filled := buffer ++ (readUntil last data).1
    if separator <:+ filled then
      .record (filled.take (filled.length - separator.length)) (readUntil last data).2
    else bufferedCut separator last filled (readUntil last data).2
termination_by data.length
decreasing_by exact length_readUntil_lt ‹_›

/-! ## What the buffer holds -/

/-- Bytes that are none with which the separator ends bring no separator into the buffer: by
induction on these bytes, the latest first. -/
theorem not_prefix_append (hlast : separator.getLast? = some last)
    (hbuffer : ¬ separator <:+: buffer) (hfront : last ∉ front) (b : Bytes) :
    ¬ b ++ separator <+: buffer ++ front := by
  induction front using List.reverseRecOn with
  | nil =>
    rw [List.append_nil]
    rintro ⟨more, hmore⟩
    exact hbuffer ⟨b, more, hmore⟩
  | append_singleton front x ih =>
    rw [List.mem_append, List.mem_singleton, not_or] at hfront
    rw [← List.append_assoc, List.prefix_concat_iff]
    rintro (hall | hprefix)
    · have hend := congrArg List.getLast? hall
      rw [List.getLast?_append, hlast, List.getLast?_concat, Option.some_or] at hend
      exact hfront.2 (Option.some.inj hend)
    · exact ih hfront.1 hprefix

/-- When the buffer is filled, a separator can only be at its end. -/
theorem eq_of_prefix_filled (hlast : separator.getLast? = some last)
    (hbuffer : ¬ separator <:+: buffer)
    (h : b ++ separator <+: buffer ++ (readUntil last data).1) :
    b ++ separator = buffer ++ (readUntil last data).1 := by
  obtain ⟨front, hfront, hread | hread⟩ := readUntil_cases last data
  · rw [hread] at h
    exact absurd h (not_prefix_append hlast hbuffer hfront b)
  · rw [hread, ← List.append_assoc] at h ⊢
    exact (List.prefix_concat_iff.1 h).resolve_right (not_prefix_append hlast hbuffer hfront b)

/-! ## What the loop finds -/

/-- The first separator of the stream is the one at the end of the filled buffer. -/
theorem splitAtFirst_of_filled (hlast : separator.getLast? = some last)
    (hbuffer : ¬ separator <:+: buffer) {record : Bytes}
    (h : buffer ++ (readUntil last data).1 = record ++ separator) :
    Occurrence.splitAtFirst separator (buffer ++ data) =
      some (record, (readUntil last data).2) := by
  have hdata : buffer ++ data = record ++ separator ++ (readUntil last data).2 := by
    rw [← h, List.append_assoc, readUntil_append]
  refine Occurrence.splitAtFirst_eq_some_iff.2 ⟨hdata, fun b hb => Nat.le_of_not_lt fun hlt => ?_⟩
  -- an earlier separator would lie within the filled buffer, in front of its end
  have hinside : b ++ separator <+: buffer ++ (readUntil last data).1 := by
    rw [hdata] at hb
    rw [h]
    refine List.prefix_of_prefix_length_le hb (List.prefix_append _ _) ?_
    simp only [List.length_append]
    omega
  have heq := (eq_of_prefix_filled hlast hbuffer hinside).trans h
  exact Nat.lt_irrefl _ (List.append_cancel_right heq ▸ hlt)

/-- The loop from a buffer without a separator on: by induction on what is left of the stream. -/
theorem bufferedCut_eq_cut_append (hlast : separator.getLast? = some last)
    (hbuffer : ¬ separator <:+: buffer) (data : Bytes) :
    bufferedCut separator last buffer data = (separated separator).cut (buffer ++ data) := by
  have hne : separator ≠ [] := by
    rintro rfl
    cases hlast
  induction hn : data.length using Nat.strong_induction_on generalizing buffer data with
  | _ n ih =>
    rw [bufferedCut]
    split
    · next hdata =>
      have hnone : Occurrence.splitAtFirst separator buffer = none :=
        Occurrence.splitAtFirst_eq_none_iff.2 fun b ⟨more, hmore⟩ => hbuffer ⟨b, more, hmore⟩
      rw [hdata, List.append_nil, cut, if_neg hne, hnone]
    · next hdata =>
      have hsome : buffer ++ data ≠ [] := by simp [hdata]
      dsimp only
      split
      · next hsuffix =>
        obtain ⟨record, hrecord⟩ := hsuffix
        rw [cut, if_neg hne, if_neg hsome, splitAtFirst_of_filled hlast hbuffer hrecord.symm,
          ← hrecord]
        simp
      · next hsuffix =>
        have hfilled : ¬ separator <:+: buffer ++ (readUntil last data).1 := by
          rintro ⟨b, more, hmore⟩
          exact hsuffix ⟨b, eq_of_prefix_filled hlast hbuffer ⟨more, hmore⟩⟩
        rw [ih _ (hn ▸ length_readUntil_lt hdata) hfilled _ rfl, List.append_assoc,
          readUntil_append]

/-- **The loop takes the records that `Framing.cut` takes.** -/
theorem bufferedCut_eq_cut (hlast : separator.getLast? = some last) (data : Bytes) :
    bufferedCut separator last [] data = (separated separator).cut data := by
  have hnone : ¬ separator <:+: [] := by
    rw [List.infix_nil]
    rintro rfl
    cases hlast
  exact bufferedCut_eq_cut_append hlast hnone data

end CardSort.Framing
