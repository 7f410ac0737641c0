import CardSort.Layout
import CardSort.Proofs.Field.Store

/-!
# Where the items of a layout stand

Each item of a layout has a place in the output record. The record is what is seen of these places
if later ones lie over earlier ones, on a ground of blanks.

* `writeAt_eq_overlay` — bytes are written in place as far as the record goes, and appended behind.
* `Place`, `placesFrom` — the places of items that write given bytes.
* `Shows` — **the last place that covers an offset is seen there**, blanks elsewhere.
* `Shows.put` — writing one more place lays it over all others; `Shows.unique` says that a record
  is determined by its places.
* `format_eq_ok_iff_shows` — **what a layout formats is what its places show**.
-/

set_option autoImplicit false

namespace CardSort.Layout

variable {blank : UInt8} {out bytes : Bytes} {start i : Nat}

/-! ## Writing one item -/

/-- Writing in place: the record is filled up with blanks if it is too short, the bytes replace
those of the record as far as it goes, and the others are appended. -/
def overlay (blank : UInt8) (out : Bytes) (start : Nat) (bytes : Bytes) : Bytes :=
  let filled := out ++ List.replicate (start - out.length) blank
  let overlap := min (filled.length - start) bytes.length
  filled.take start ++ bytes.take overlap ++ filled.drop (start + overlap) ++ bytes.drop overlap

/-- **Writing in place is a splice**: of the rest of the record and the rest of the bytes, one is
empty. -/
theorem writeAt_eq_overlay (blank : UInt8) (out : Bytes) (start : Nat) (bytes : Bytes) :
    writeAt blank out start bytes = overlay blank out start bytes := by
  unfold writeAt overlay Bytes.splice
  generalize out ++ List.replicate (start - out.length) blank = filled
  rcases Nat.le_total bytes.length (filled.length - start) with h | h
  · simp [Nat.min_eq_right h]
  · have hdrop : filled.drop (start + bytes.length) = [] := by
      apply List.drop_eq_nil_of_le
      omega
    have hnone : filled.drop (start + (filled.length - start)) = [] := by
      apply List.drop_eq_nil_of_le
      omega
    simp [Nat.min_eq_left h, hdrop, hnone]

/-- The record reaches the offset where bytes are written. -/
theorem start_le_filled (blank : UInt8) (out : Bytes) (start : Nat) :
    start ≤ (out ++ List.replicate (start - out.length) blank).length := by
  rw [List.length_append, List.length_replicate]
  omega

theorem length_writeAt (blank : UInt8) (out : Bytes) (start : Nat) (bytes : Bytes) :
    (writeAt blank out start bytes).length = max out.length (start + bytes.length) := by
  simp only [writeAt, Bytes.splice, List.length_append, List.length_take, List.length_drop,
    List.length_replicate]
  omega

theorem getElem?_writeAt_inside (hi : start ≤ i ∧ i < start + bytes.length) :
    (writeAt blank out start bytes)[i]? = bytes[i - start]? :=
  Bytes.getElem?_splice_inside (start_le_filled blank out start) hi

theorem getElem?_writeAt_outside (hi : ¬ (start ≤ i ∧ i < start + bytes.length))
    (hout : i < out.length) : (writeAt blank out start bytes)[i]? = out[i]? := by
  unfold writeAt
  rw [Bytes.getElem?_splice_outside (start_le_filled blank out start) hi,
    List.getElem?_append_left hout]

/-- Between the end of the record and the bytes there are blanks. -/
theorem getElem?_writeAt_gap (hout : out.length ≤ i) (hstart : i < start) :
    (writeAt blank out start bytes)[i]? = some blank := by
  unfold writeAt
  rw [Bytes.getElem?_splice_outside (start_le_filled blank out start) (by omega),
    List.getElem?_append_right hout, List.getElem?_replicate, if_pos (by omega)]

/-! ## Places -/

/-- Bytes at an offset of the output record. -/
structure Place where
  start : Nat
  bytes : Bytes

namespace Place

/-- The offset behind the bytes. -/
def stop (p : Place) : Nat := p.start + p.bytes.length

/-- Whether one of the bytes stands at the offset. -/
def Covers (p : Place) (i : Nat) : Prop := p.start ≤ i ∧ i < p.stop

end Place

/-- The places of items that write the given bytes: an item starts at its column, or where the one
before it has ended, at `cursor`. -/
def placesFrom (cursor : Nat) : List LayoutItem → List Bytes → List Place
  | item :: items, bytes :: written =>
    let place : Place := ⟨item.start cursor, bytes⟩
    place :: placesFrom place.stop items written
  | _, _ => []

/-- What is seen of places that are laid over each other in order, on a ground of blanks. -/
structure Shows (blank : UInt8) (places : List Place) (out : Bytes) : Prop where
  /-- The record ends where the place ends that reaches farthest, be it empty or not. -/
  length : out.length = (places.map Place.stop).foldl max 0
  /-- The last place that covers an offset is seen there. -/
  covered : ∀ before p after i, places = before ++ p :: after → p.Covers i →
    (∀ q ∈ after, ¬ q.Covers i) → out[i]? = p.bytes[i - p.start]?
  /-- Where there is no place there is a blank. -/
  uncovered : ∀ i < out.length, (∀ p ∈ places, ¬ p.Covers i) → out[i]? = some blank

namespace Shows

variable {places : List Place}

theorem nil (blank : UInt8) : Shows blank [] [] where
  length := rfl
  covered := by simp
  uncovered := by simp

theorem lt_length {before after : List Place} {p : Place} (hshows : Shows blank places out)
    (hplaces : places = before ++ p :: after) (hp : p.Covers i)
    (hafter : ∀ q ∈ after, ¬ q.Covers i) : i < out.length := by
  have hbyte := hshows.covered before p after i hplaces hp hafter
  have hin : i - p.start < p.bytes.length := by
    unfold Place.Covers Place.stop at hp
    omega
  rw [List.getElem?_eq_getElem hin] at hbyte
  exact (List.getElem?_eq_some_iff.1 hbyte).1

/-- **Writing a place lays it over all others**: what it covers it shows, and it uncovers blanks
only behind the end of the record. -/
theorem put (hshows : Shows blank places out) (p : Place) :
    Shows blank (places ++ [p]) (writeAt blank out p.start p.bytes) where
  length := by
    rw [length_writeAt, hshows.length, List.map_append, List.foldl_append]
    rfl
  covered := by
    intro before q after i hsplit hq hafter
    rcases List.eq_nil_or_concat after with rfl | ⟨after, last, rfl⟩
    · -- the place that has been written is the last one
      obtain ⟨rfl, hlast⟩ := List.append_inj' hsplit rfl
      obtain rfl : p = q := List.singleton_inj.1 hlast
      exact getElem?_writeAt_inside hq
    · rw [List.concat_eq_append, ← List.cons_append, ← List.append_assoc] at hsplit
      obtain ⟨hplaces, hlast⟩ := List.append_inj' hsplit rfl
      obtain rfl : p = last := List.singleton_inj.1 hlast
      rw [List.concat_eq_append, List.forall_mem_append] at hafter
      obtain ⟨hafter, hp⟩ := hafter
      have hin := hshows.lt_length hplaces hq hafter
      rw [getElem?_writeAt_outside (hp p (by simp)) hin]
      exact hshows.covered before q after i hplaces hq hafter
  uncovered := by
    intro i hi hnone
    rw [List.forall_mem_append] at hnone
    have hp : ¬ p.Covers i := hnone.2 p (by simp)
    rcases Nat.lt_or_ge i out.length with hin | hbehind
    · rw [getElem?_writeAt_outside hp hin]
      exact hshows.uncovered i hin hnone.1
    · apply getElem?_writeAt_gap hbehind
      rw [length_writeAt] at hi
      unfold Place.Covers Place.stop at hp
      omega

end Shows

/-- An offset is covered by no place, or by one that is the last to cover it. -/
theorem exists_last_covering (places : List Place) (i : Nat) :
    (∀ p ∈ places, ¬ p.Covers i) ∨
      ∃ before p after, places = before ++ p :: after ∧ p.Covers i ∧
        ∀ q ∈ after, ¬ q.Covers i := by
  induction places with
  | nil => simp
  | cons p places ih =>
    rcases ih with hnone | ⟨before, q, after, rfl, hq, hafter⟩
    · by_cases hp : p.Covers i
      · exact .inr ⟨[], p, places, rfl, hp, hnone⟩
      · exact .inl (List.forall_mem_cons.2 ⟨hp, hnone⟩)
    · exact .inr ⟨p :: before, q, after, rfl, hq, hafter⟩

/-- Places show one record only. -/
theorem Shows.unique {places : List Place} {a b : Bytes} (ha : Shows blank places a)
    (hb : Shows blank places b) : a = b := by
  have hlength : a.length = b.length := ha.length.trans hb.length.symm
  apply List.ext_getElem?
  intro i
  rcases exists_last_covering places i with hnone | ⟨before, p, after, hsplit, hp, hafter⟩
  · rcases Nat.lt_or_ge i a.length with hin | hbehind
    · rw [ha.uncovered i hin hnone, hb.uncovered i (hlength ▸ hin) hnone]
    · rw [List.getElem?_eq_none hbehind, List.getElem?_eq_none (hlength ▸ hbehind)]
  · rw [ha.covered before p after i hsplit hp hafter, hb.covered before p after i hsplit hp hafter]

/-! ## The record -/

/-- The items write the given bytes for a record. -/
def Writes (encoding : Encoding) (record : Bytes) (items : List LayoutItem)
    (written : List Bytes) : Prop :=
  List.Forall₂ (fun item bytes => item.content.bytes encoding record = .ok bytes) items written

/-- Writing items lays their places over what has been written, by induction on the items. -/
theorem formatFrom_eq_ok_iff {encoding : Encoding} {record final : Bytes} {places : List Place}
    {cursor : Nat} {items : List LayoutItem} (hshows : Shows encoding.space places out) :
    formatFrom encoding record out cursor items = .ok final ↔
      ∃ written, Writes encoding record items written ∧
        Shows encoding.space (places ++ placesFrom cursor items written) final := by
  induction items generalizing places out cursor with
  | nil =>
    rw [formatFrom]
    constructor
    · rintro ⟨⟩
      exact ⟨[], .nil, by simpa [placesFrom] using hshows⟩
    · rintro ⟨written, hwritten, hfinal⟩
      have hplaces : placesFrom cursor [] written = [] := by simp [placesFrom]
      rw [hplaces, List.append_nil] at hfinal
      rw [hshows.unique hfinal]
  | cons item items ih =>
    rw [formatFrom, bind_eq_ok_iff]
    constructor
    · rintro ⟨bytes, hbytes, hrest⟩
      obtain ⟨written, hwritten, hfinal⟩ := (ih (hshows.put ⟨item.start cursor, bytes⟩)).1 hrest
      rw [List.append_assoc] at hfinal
      exact ⟨bytes :: written, .cons hbytes hwritten, hfinal⟩
    · rintro ⟨_, hwritten, hfinal⟩
      cases hwritten with
      | cons hbytes hwritten =>
        rename_i bytes written
        refine ⟨bytes, hbytes, (ih (hshows.put ⟨item.start cursor, bytes⟩)).2 ?_⟩
        refine ⟨written, hwritten, ?_⟩
        rw [List.append_assoc]
        exact hfinal

/-- **What a layout formats is what its places show**: it formats a record if all its items can be
written, and then every offset has the byte of the last item that covers it, or a blank. -/
theorem format_eq_ok_iff_shows (layout : Layout) (record out : Bytes) :
    layout.format record = .ok out ↔
      ∃ written, Writes layout.encoding record layout.items written ∧
        Shows layout.encoding.space (placesFrom 0 layout.items written) out :=
  formatFrom_eq_ok_iff (.nil layout.encoding.space)

-- a place that lies over the front of another one, and an empty one behind a gap
example :
    format ⟨[⟨some 5, .constant [1, 2]⟩, ⟨some 2, .constant [3, 4, 5, 6]⟩,
      ⟨some 9, .constant []⟩], .ascii⟩ [] = .ok [0x20, 3, 4, 5, 6, 2, 0x20, 0x20] := by
  decide

end CardSort.Layout
