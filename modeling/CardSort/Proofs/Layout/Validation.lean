import CardSort.Proofs.Card.Numeric
import CardSort.Proofs.Sum.Conservation

/-!
# A layout that has checked a record can format it

The check of a layout goes through its items as the formatting does, so a record that passes the
check is formatted, and any other record meets the same fault in both. Sums that are added up in
between leave the check as it was, provided that edited fields are summed ones or share no byte with
any.

* `Content.validate_eq_map`, `Layout.validate_eq_map` — a check comes to what the formatting comes
  to, for layouts that edit numeric fields.
* `Layout.validate_predicts_format` — **a layout read from a card formats exactly the records that
  pass its check**, and both report the same fault on the others.
* `Layout.validate_of_format` — what can be formatted passes the check, for all layouts.
* `Layout.SumsApart` — edited fields are summed ones or apart from all.
* `Layout.validate_of_absorbs` — a record into which others have been summed still passes.
-/

set_option autoImplicit false

namespace CardSort

/-! ## Checking and formatting -/

/-- The check of an item comes to what writing it comes to, the bytes apart. -/
theorem Content.validate_eq_map {content : Content} (hedits : content.EditsNumber)
    (encoding : Encoding) (record : Bytes) :
    content.validate record = (content.bytes encoding record).map fun _ => () := by
  cases content with
  | copy f =>
    simp only [validate, bytes]
    cases f.bytes record <;> rfl
  | constant b => rfl
  | edit f e =>
    simp only [validate, bytes, Field.validate, hedits f rfl, if_true]
    cases f.decimal record <;> rfl

/-- What an item writes passes its check, also if it edits text. -/
theorem Content.validate_of_bytes {content : Content} {encoding : Encoding} {record b : Bytes}
    (h : content.bytes encoding record = .ok b) : content.validate record = .ok () := by
  cases content with
  | copy f => exact bind_eq_ok_iff.2 ⟨b, h, rfl⟩
  | constant b => rfl
  | edit f e =>
    obtain ⟨value, hvalue, -⟩ := bind_eq_ok_iff.1 h
    obtain ⟨content, hcontent, -⟩ := bind_eq_ok_iff.1 hvalue
    simp only [validate, Field.validate]
    split
    · exact bind_eq_ok_iff.2 ⟨value, hvalue, rfl⟩
    · exact bind_eq_ok_iff.2 ⟨content, hcontent, rfl⟩

namespace Layout

variable {layout : Layout} {record : Bytes}

theorem exists_formatFrom_iff {encoding : Encoding} {out : Bytes} {cursor : Nat}
    {items : List LayoutItem} :
    (∃ b, formatFrom encoding record out cursor items = .ok b) ↔
      ∀ item ∈ items, ∃ b, item.content.bytes encoding record = .ok b := by
  induction items generalizing out cursor with
  | nil => exact ⟨fun _ => by simp, fun _ => ⟨out, rfl⟩⟩
  | cons item items ih =>
    rw [List.forall_mem_cons, formatFrom]
    cases hbytes : item.content.bytes encoding record with
    | error e =>
      constructor
      · rintro ⟨b, h⟩
        cases h
      · rintro ⟨⟨b, h⟩, -⟩
        cases h
    | ok b =>
      rw [← @ih (writeAt encoding.space out (item.start cursor) b) (item.start cursor + b.length)]
      exact ⟨fun h => ⟨⟨b, rfl⟩, h⟩, fun h => h.2⟩

theorem mem_edited {item : LayoutItem} (hitem : item ∈ layout.items) {f : Field}
    (h : item.content.edited? = some f) : f ∈ layout.edited :=
  List.mem_filterMap.2 ⟨item, hitem, h⟩

/-- The checks of items stop where writing the items stops, whatever has been written so far. -/
theorem forM_validate_eq_map {encoding : Encoding} {items : List LayoutItem}
    (hedits : ∀ item ∈ items, item.content.EditsNumber) (out : Bytes) (cursor : Nat) :
    items.forM (fun item => item.content.validate record) =
      (formatFrom encoding record out cursor items).map fun _ => () := by
  induction items generalizing out cursor with
  | nil => rfl
  | cons item items ih =>
    rw [List.forall_mem_cons] at hedits
    have hfirst := Content.validate_eq_map hedits.1 encoding record
    show (item.content.validate record >>= fun _ =>
      items.forM fun item => item.content.validate record) = _
    rw [hfirst, formatFrom]
    cases item.content.bytes encoding record with
    | error e => rfl
    | ok b => exact ih hedits.2 _ _

/-- **The check of a layout comes to what the formatting comes to**, the output record apart, if
the layout edits numeric fields. -/
theorem validate_eq_map (hnumeric : ∀ f ∈ layout.edited, f.format.isNumeric = true) :
    layout.validate record = (layout.format record).map fun _ => () := by
  refine forM_validate_eq_map (fun item hitem => ?_) [] 0
  intro f hf
  exact hnumeric f (mem_edited hitem hf)

/-- **A layout that has checked a record can format it**, if it edits numeric fields. -/
theorem validate_eq_ok_iff (hnumeric : ∀ f ∈ layout.edited, f.format.isNumeric = true) :
    layout.validate record = .ok () ↔ ∃ out, layout.format record = .ok out := by
  rw [validate_eq_map hnumeric, map_eq_ok_iff]
  simp only [and_true]

/-- **A record that a layout can format passes its check**, also if the layout edits text. -/
theorem validate_of_format {out : Bytes} (h : layout.format record = .ok out) :
    layout.validate record = .ok () := by
  refine forM_eq_ok_iff.2 fun item hitem => ?_
  obtain ⟨b, hb⟩ := exists_formatFrom_iff.1 ⟨out, h⟩ item hitem
  exact Content.validate_of_bytes hb

/-- **The check of a layout predicts the formatting**: a layout read from a card can format exactly
the records that pass its check, and on every other record both end with the same fault. -/
theorem validate_predicts_format {text : String} {encoding : Encoding}
    (h : ofCard text encoding = .ok layout) (record : Bytes) :
    (layout.validate record = .ok () ↔ ∃ out, layout.format record = .ok out) ∧
      ∀ fault, layout.validate record = .error fault ↔ layout.format record = .error fault := by
  have hnumeric := isNumeric_of_ofCard h
  refine ⟨validate_eq_ok_iff hnumeric, fun fault => ?_⟩
  rw [validate_eq_map hnumeric, map_eq_error_iff]

/-- An amount that is no number, in front of a field for which the record is too short: both report
the amount. -/
theorem amountAndName_predicts_format :
    let layout : Layout :=
      ⟨[⟨none, .edit ⟨0, 2, .zd, .ascii⟩ ⟨⟨['T', 'T'], none, none⟩, none⟩⟩,
        ⟨some 9, .copy ⟨4, 3, .ch, .ascii⟩⟩], .ascii⟩
    let fault : Fault := .invalidNumber 0 1 (.codec .zd (.badDigit 15 0x3F))
    ofCard "1,2,ZD,EDIT=(TT),9:5,3" .ascii = .ok layout ∧
      layout.format [0x31, 0x3F] = .error fault ∧ layout.validate [0x31, 0x3F] = .error fault := by
  intro layout fault
  have hcard : ofCard "1,2,ZD,EDIT=(TT),9:5,3" .ascii = .ok layout := by decide +kernel
  have hformat : layout.format [0x31, 0x3F] = .error fault := by decide +kernel
  exact ⟨hcard, hformat, ((validate_predicts_format hcard _).2 fault).2 hformat⟩

end Layout

/-! ## Records that others have been summed into -/

theorem Field.validate_congr {f : Field} {fields : List Field} {a b : Bytes}
    (h : SameOutside fields a b) (hapart : ∀ g ∈ fields, f.Disjoint g) :
    f.validate a = f.validate b := by
  have hbytes : ∀ i, f.Covers i → a[i]? = b[i]? := by
    intro i hi
    apply h.bytes
    intro g hg hcovers
    exact hapart g hg i ⟨hi, hcovers⟩
  unfold validate
  rw [decimal_congr h.length hbytes, bytes_congr h.length hbytes]

/-- Every edited field is a summed one or shares no byte with any of them. -/
def Layout.SumsApart (layout : Layout) (fields : List Field) : Prop :=
  ∀ f ∈ layout.edited, f ∈ fields ∨ ∀ g ∈ fields, f.Disjoint g

/-- What an item found in the first record of a group it finds in what the group has become. -/
theorem Content.validate_of_absorbs {content : Content} {fields : List Field}
    {group : List Bytes} {out : Bytes} (habsorbs : SumRule.Absorbs fields group out)
    (hapart : ∀ f, content.edited? = some f → f ∈ fields ∨ ∀ g ∈ fields, f.Disjoint g)
    (hgroup : ∀ r ∈ group, content.validate r = .ok ()) : content.validate out = .ok () := by
  obtain ⟨first, rest, rfl, hsame, -⟩ := habsorbs.opened
  have hfirst := hgroup first List.mem_cons_self
  cases content with
  | copy f =>
    obtain ⟨b, hb, -⟩ := bind_eq_ok_iff.1 hfirst
    have hstop : f.stop ≤ out.length := by
      rw [hsame.length]
      exact Field.exists_bytes_iff.1 ⟨b, hb⟩
    obtain ⟨b', hb'⟩ := Field.exists_bytes_iff.2 hstop
    exact bind_eq_ok_iff.2 ⟨b', hb', rfl⟩
  | constant b => rfl
  | edit f e =>
    rcases hapart f rfl with hsummed | hdisjoint
    · exact forM_eq_ok_iff.1 habsorbs.valid f hsummed
    · show f.validate out = .ok ()
      rw [Field.validate_congr hsame hdisjoint]
      exact hfirst

/-- A record passes the check of a layout if those that were summed into it did. -/
theorem Layout.validate_of_absorbs {layout : Layout} {fields : List Field} {group : List Bytes}
    {out : Bytes} (habsorbs : SumRule.Absorbs fields group out) (hapart : layout.SumsApart fields)
    (hgroup : ∀ r ∈ group, layout.validate r = .ok ()) : layout.validate out = .ok () := by
  refine forM_eq_ok_iff.2 fun item hitem => ?_
  refine Content.validate_of_absorbs habsorbs ?_ ?_
  · intro f hf
    exact hapart f (mem_edited hitem hf)
  · intro r hr
    exact forM_eq_ok_iff.1 (hgroup r hr) item hitem

end CardSort
