import CardSort.Layout.Card
import CardSort.Proofs.Card.Yields
import CardSort.Proofs.Field.Range
import CardSort.Sum.Card

/-!
# Numbers come from numeric fields

A card may sum and edit numeric fields only. So what was checked by decoding a field once can be
decoded again.

* `Layout.edited` — the fields that a layout edits.
* `SumRule.isNumeric_of_ofCard` — every field of a sum read from a card is numeric.
* `Layout.isNumeric_of_ofCard` — so is every edited field of a layout read from a card.
-/

set_option autoImplicit false

namespace CardSort

open Card

theorem Card.yields_declareField (position length : Nat) (format : FieldFormat)
    (encoding : Encoding) (index : Nat) :
    Yields (declareField position length format encoding index) fun f => f.format = format := by
  unfold declareField
  split
  · rename_i f hof
    refine .pure ?_
    rw [(Field.of_eq_ok hof).1]
  · exact .failAt _ _

/-! ## Sums -/

namespace SumRule

theorem yields_fieldOnCard (encoding : Encoding) (default : Option FieldFormat) :
    Yields (fieldOnCard encoding default) fun f => f.format.isNumeric = true := by
  refine .next fun c => .next fun position => .next fun length => .next fun format => ?_
  split
  · exact .failAt _ _
  · rename_i f
    split
    · exact .failAt _ _
    · rename_i htext
      intro d field d' h
      rw [yields_declareField position length f encoding c.index d field d' h]
      simpa [FieldFormat.isNumeric] using htext

/-- Every field of a sum read from a card is numeric. -/
theorem isNumeric_of_ofCard {text : String} {encoding : Encoding} {fields : List Field}
    (h : SumRule.ofCard text encoding = .ok (.addFields fields)) :
    ∀ f ∈ fields, f.format.isNumeric = true := by
  let P : SumRule → Prop := fun rule =>
    ∀ fields, rule = .addFields fields → ∀ f ∈ fields, f.format.isNumeric = true
  have hnone : P .skipDuplicates := by simp [P]
  have hfields : ∀ default, Yields (fieldsOnCard encoding default) P := by
    intro default
    refine .next fun none => ?_
    split
    · exact .pure hnone
    · refine .bind (Yields.collect _ (yields_fieldOnCard encoding default)) fun fields hf => ?_
      split
      · exact .fail _
      · refine .pure ?_
        rintro _ ⟨⟩
        exact hf
  have hrule : ∀ default, Yields (ruleOnCard encoding default) P := by
    intro default
    refine .next fun none => ?_
    split
    · exact .pure hnone
    · refine .next fun _ => .next fun parenthesized => .bind (hfields default) fun rule hr => ?_
      cases parenthesized with
      | false => exact .pure hr
      | true => exact .next fun _ => .pure hr
  have hcard : ∀ default, Yields (onCard encoding default) P := fun default =>
    .next fun _ => .bind (hrule default) fun rule hr => .next fun _ => .next fun _ => .pure hr
  exact Yields.of_readWithFormat hcard h fields rfl

end SumRule

/-! ## Layouts -/

/-- The field that an item edits, if it does. -/
def Content.edited? : Content → Option Field
  | .edit f _ => some f
  | .copy _ | .constant _ => none

/-- The fields that a layout edits. -/
def Layout.edited (layout : Layout) : List Field :=
  layout.items.filterMap fun item => item.content.edited?

/-- An edited field of the content is numeric. -/
def Content.EditsNumber (content : Content) : Prop :=
  ∀ f, content.edited? = some f → f.format.isNumeric = true

theorem Content.editsNumber_constant (bytes : Bytes) : (Content.constant bytes).EditsNumber := by
  intro f h
  cases h

theorem Content.yields_fieldOnCard (encoding : Encoding) (position length index : Nat) :
    Yields (fieldOnCard encoding position length index) EditsNumber := by
  refine .next fun format => .next fun edit => ?_
  split
  · split
    · exact .failAt _ _
    · refine .next fun field => .pure ?_
      intro f h
      cases h
  · rename_i format
    split
    · exact .failAt _ _
    · rename_i htext
      split
      · exact .failAt _ _
      · refine .next fun mask => .bind (yields_declareField _ _ format _ _) fun field hf => ?_
        refine .pure ?_
        intro f h
        cases h
        rw [hf]
        simpa [FieldFormat.isNumeric] using htext

theorem Content.yields_onCard (encoding : Encoding) (w : String) (index : Nat) :
    Yields (onCard encoding w index) EditsNumber := by
  refine .next fun c => ?_
  dsimp only
  split
  · exact .next fun n => .next fun text => .pure (editsNumber_constant _)
  split
  · refine .next fun n => .next fun c => ?_
    split
    · refine .next fun text => ?_
      split
      · exact .pure (editsNumber_constant _)
      · exact .failAt _ _
    · exact .pure (editsNumber_constant _)
  split
  · exact .next fun n => .pure (editsNumber_constant _)
  split
  · exact .next fun length => yields_fieldOnCard encoding _ length index
  · exact .failAt _ _

/-- Every edited field of a layout read from a card is numeric. -/
theorem Layout.isNumeric_of_ofCard {text : String} {encoding : Encoding} {layout : Layout}
    (h : Layout.ofCard text encoding = .ok layout) :
    ∀ f ∈ layout.edited, f.format.isNumeric = true := by
  have hitem : Yields (LayoutItem.onCard encoding) fun item => item.content.EditsNumber := by
    refine .next fun c => .next fun w => .next fun column => ?_
    exact .bind (Content.yields_onCard encoding _ _) fun content hc => .pure hc
  have hlist : Yields (Layout.onCard encoding) fun layout =>
      ∀ item ∈ layout.items, item.content.EditsNumber := by
    refine .next fun parenthesized => .bind (Yields.collect _ hitem) fun items hitems => ?_
    split
    · exact .fail _
    · cases parenthesized with
      | false => exact .pure hitems
      | true => exact .next fun _ => .pure hitems
  have hcard : Yields (Layout.wholeOnCard encoding) fun layout =>
      ∀ item ∈ layout.items, item.content.EditsNumber :=
    .next fun _ => .bind hlist fun layout hl => .next fun _ => .pure hl
  have hitems := hcard.of_read h
  intro f hf
  obtain ⟨item, hitem, hedited⟩ := List.mem_filterMap.1 hf
  exact hitems item hitem f hedited

end CardSort
