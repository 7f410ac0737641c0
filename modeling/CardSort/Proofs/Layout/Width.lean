import CardSort.Layout.Card
import CardSort.Proofs.Layout.Places
import CardSort.Proofs.Layout.Rendering

/-!
# The width of formatted records

How long a formatted record is depends on the layout only. A copy is as long as its field, and an
edited number as its mask or its fixed width, whatever the number is; so every item ends at the same
offset in all records.

* `Content.width`, `Content.length_of_bytes` — all that an item writes has one width.
* `Layout.stopsFrom`, `Layout.width` — where items end, told from the items alone.
* `Layout.length_of_format` — a formatted record has the width of its layout.
* `Layout.format_same_length` — **records formatted by one layout have one length**.
-/

set_option autoImplicit false

namespace CardSort

/-- The width of an edited number: the fixed one, or that of the mask. -/
def Edit.width (e : Edit) : Nat := e.length.getD e.mask.width

/-- A number is cut or filled up to a fixed width. -/
theorem Edit.length_apply (e : Edit) (value : Decimal) : (e.apply value).length = e.width := by
  unfold Edit.apply Edit.width
  cases e.length with
  | none => exact e.mask.length_apply value
  | some length =>
    simp only [length_padLeft, List.length_drop, Option.getD_some]
    omega

theorem Encoding.length_encode (encoding : Encoding) (cs : List Char) :
    (encoding.encode cs).length = cs.length := by
  simp [encode]

namespace Content

/-- The number of bytes that an item writes. -/
def width : Content → Nat
  | copy f => f.length
  | constant b => b.length
  | edit _ e => e.width

/-- **All that an item writes has one width.** -/
theorem length_of_bytes {content : Content} {encoding : Encoding} {record b : Bytes}
    (h : content.bytes encoding record = .ok b) : b.length = content.width := by
  cases content with
  | copy f => exact Bytes.length_of_slice? (Field.bytes_eq_ok_iff.1 h)
  | constant c =>
    cases h
    rfl
  | edit f e =>
    obtain ⟨value, -, h⟩ := bind_eq_ok_iff.1 h
    cases h
    rw [Encoding.length_encode, Edit.length_apply, width]

end Content

namespace Layout

/-- The offsets at which items end, behind an item that ended at `cursor`. -/
def stopsFrom (cursor : Nat) : List LayoutItem → List Nat
  | [] => []
  | item :: items =>
    let stop := item.start cursor + item.content.width
    stop :: stopsFrom stop items

/-- The length of the records that a layout formats: the greatest offset at which an item ends. -/
def width (layout : Layout) : Nat := (stopsFrom 0 layout.items).foldl max 0

/-- Places end where the items tell, by induction on what has been written. -/
theorem map_stop_placesFrom {encoding : Encoding} {record : Bytes} {items : List LayoutItem}
    {written : List Bytes} (h : Writes encoding record items written) (cursor : Nat) :
    (placesFrom cursor items written).map Place.stop = stopsFrom cursor items := by
  induction h generalizing cursor with
  | nil => rfl
  | @cons item bytes items written hbytes _ ih =>
    have hstop : Place.stop ⟨item.start cursor, bytes⟩ =
        item.start cursor + item.content.width := by
      rw [Place.stop, Content.length_of_bytes hbytes]
    rw [placesFrom, List.map_cons, stopsFrom, ih, hstop]

/-- A formatted record has the width of its layout. -/
theorem length_of_format {layout : Layout} {record out : Bytes}
    (h : layout.format record = .ok out) : out.length = layout.width := by
  obtain ⟨written, hwritten, hshows⟩ := (formatFrom_eq_ok_iff (.nil layout.encoding.space)).1 h
  rw [hshows.length, List.nil_append, map_stop_placesFrom hwritten, width]

variable {layout : Layout} {a b x y : Bytes}

/-- **Records formatted by one layout have one length**, whatever stands in the fields: the width
of the layout, which its items alone determine. -/
theorem format_same_length (ha : layout.format a = .ok x) (hb : layout.format b = .ok y) :
    x.length = y.length ∧ y.length = layout.width :=
  ⟨(length_of_format ha).trans (length_of_format hb).symm, length_of_format hb⟩

/-- A number with two pairs of sign texts, the first byte of its field, and a mark over it all. -/
def signedAmount : Layout :=
  { items := [
      ⟨none, .edit ⟨0, 3, .zd, .ascii⟩
        ⟨⟨"I,IIT".toList, some ⟨[], ['<']⟩, some ⟨[' '], ['D', 'B']⟩⟩, none⟩⟩,
      ⟨some 11, .copy ⟨0, 1, .ch, .ascii⟩⟩,
      ⟨some 1, .constant [0x23]⟩]
    encoding := .ascii }

/-- A positive number of one digit and a negative one of three. -/
theorem signedAmount_same_length :
    let positive := Encoding.ascii.encode "#    7    0".toList
    let negative := Encoding.ascii.encode "# <122DB  1".toList
    ofCard "BUILD=(1,3,ZD,EDIT=('SI,IITS'),SIGNS=('','<',' ','DB'),11:1,1,1:C'#')" .ascii =
        .ok signedAmount ∧
      signedAmount.format (Encoding.ascii.encode "007".toList) = .ok positive ∧
      signedAmount.format (Encoding.ascii.encode "12r".toList) = .ok negative ∧
      positive.length = negative.length ∧ negative.length = signedAmount.width := by
  intro positive negative
  have hpositive : signedAmount.format (Encoding.ascii.encode "007".toList) = .ok positive := by
    decide +kernel
  have hnegative : signedAmount.format (Encoding.ascii.encode "12r".toList) = .ok negative := by
    decide +kernel
  exact ⟨by decide +kernel, hpositive, hnegative, format_same_length hpositive hnegative⟩

end Layout

end CardSort
