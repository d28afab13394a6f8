import Mathlib.Data.List.Forall2
import XmlRecords.Transcode.Record

/-!
# Another order

The attributes of an element are in no order, and neither are the entries of a map for
attributes.  Content is reordered if the attributes of some of its elements are put into
another order.  Values are alike if they differ in the order of entries, and in the
texts of entries as far as these may differ.
-/

namespace XmlRecords

/-- The same item of content, with the attributes of each element in any order. -/
inductive Content.Reordered : Content → Content → Prop where
  | text (value : String) : Reordered (.text value) (.text value)
  | element {name : QName} {attributes others : List Attribute}
      {content twins : List Content} (perm : attributes.Perm others)
      (each : List.Forall₂ Reordered content twins) :
      Reordered (.element name attributes content) (.element name others twins)

/-- The same element, with its attributes and those of the elements in it in any
order. -/
def Element.Reordered (element twin : Element) : Prop :=
  (Content.ofElement element).Reordered (.ofElement twin)

mutual

theorem Content.depth_eq_of_reordered (item : Content) {twin : Content}
    (reordered : item.Reordered twin) : twin.depth = item.depth := by
  cases reordered with
  | text value => rfl
  | element _ each =>
      rw [depth, depth, Content.depthOfList_eq_of_reordered _ each]

theorem Content.depthOfList_eq_of_reordered (items : List Content)
    {twins : List Content} (reordered : List.Forall₂ Reordered items twins) :
    depthOfList twins = depthOfList items := by
  cases reordered with
  | nil => rfl
  | cons first rest =>
      rw [depthOfList, depthOfList, Content.depth_eq_of_reordered _ first,
        Content.depthOfList_eq_of_reordered _ rest]

end

namespace Content.Reordered

variable {items twins : List Content}

theorem texts_eq (reordered : List.Forall₂ Reordered items twins) :
    twins.filterMap text? = items.filterMap text? := by
  induction reordered with
  | nil => rfl
  | cons first _ ih =>
      cases first with
      | text value => simp [text?, ih]
      | element _ _ => exact ih

theorem children (reordered : List.Forall₂ Reordered items twins) :
    List.Forall₂ Element.Reordered (items.filterMap element?)
      (twins.filterMap element?) := by
  induction reordered with
  | nil => exact .nil
  | cons first _ ih =>
      cases first with
      | text value => exact ih
      | element perm each => exact .cons (.element perm each) ih

end Content.Reordered

namespace Element.Reordered

variable {element twin : Element}

theorem parts (reordered : element.Reordered twin) :
    twin.name = element.name ∧ element.attributes.Perm twin.attributes ∧
      List.Forall₂ Content.Reordered element.content twin.content := by
  cases element
  cases twin
  cases reordered with
  | element perm each => exact ⟨rfl, perm, each⟩

theorem name_eq (reordered : element.Reordered twin) : twin.name = element.name :=
  reordered.parts.1

theorem perm (reordered : element.Reordered twin) :
    element.attributes.Perm twin.attributes :=
  reordered.parts.2.1

theorem text_eq (reordered : element.Reordered twin) : twin.text = element.text := by
  rw [Element.text, Element.text, Content.Reordered.texts_eq reordered.parts.2.2]

theorem children (reordered : element.Reordered twin) :
    List.Forall₂ Element.Reordered element.children twin.children :=
  Content.Reordered.children reordered.parts.2.2

theorem depth_eq (reordered : element.Reordered twin) : twin.depth = element.depth :=
  Content.depth_eq_of_reordered _ reordered

end Element.Reordered

/-- The same value but for maps: one for attributes may have its entries in any order,
and one for children may have other texts, each related to the text that it is for. -/
inductive Value.Alike (texts : String → String → Prop) : Value → Value → Prop where
  | same (value : Value) : Alike texts value value
  | array {items twins : List Value} (each : List.Forall₂ (Alike texts) items twins) :
      Alike texts (.array items) (.array twins)
  | entries {entries twins : List (String × String)} (perm : entries.Perm twins) :
      Alike texts (.map entries) (.map twins)
  | markup {entries twins : List (String × String)}
      (each : List.Forall₂ (fun x y => x.1 = y.1 ∧ texts x.2 y.2) entries twins) :
      Alike texts (.map entries) (.map twins)
  | record {slots twins : Slots}
      (each : List.Forall₂ (Option.Rel (Alike texts)) slots twins) :
      Alike texts (.record slots) (.record twins)

namespace Slots

variable {texts : String → String → Prop} {slots twins : Slots}

/-- Slots are alike if they are so place by place. -/
theorem alike_of_get? (length : slots.length = twins.length)
    (each : ∀ index, index < slots.length →
      Option.Rel (Value.Alike texts) (slots.get? index) (twins.get? index)) :
    List.Forall₂ (Option.Rel (Value.Alike texts)) slots twins := by
  refine List.forall₂_iff_get.2 ⟨length, fun index inside inside' => ?_⟩
  have alike := each index inside
  rwa [get?, get?, List.getElem?_eq_getElem inside, List.getElem?_eq_getElem inside']
    at alike

theorem alike_refl (held : Option Value) : Option.Rel (Value.Alike texts) held held := by
  cases held with
  | none => exact .none
  | some value => exact .some (.same value)

end Slots

namespace Value.Alike

variable {texts : String → String → Prop}

theorem get? {slots twins : Slots} (alike : Alike texts (.record slots) (.record twins))
    (index : Nat) : Option.Rel (Alike texts) (slots.get? index) (twins.get? index) := by
  cases alike with
  | same _ => exact Slots.alike_refl _
  | record each =>
      induction each generalizing index with
      | nil => exact Slots.alike_refl _
      | cons first _ ih =>
          cases index with
          | zero => exact first
          | succ index => exact ih index

/-- Maps with the same texts are alike if they differ in the order of entries alone. -/
theorem perm {entries twins : List (String × String)}
    (alike : Alike Eq (.map entries) (.map twins)) : entries.Perm twins := by
  cases alike with
  | same _ => exact .refl _
  | entries perm => exact perm
  | markup each =>
      have same : List.Forall₂ Eq entries twins :=
        each.imp fun _ _ both => Prod.ext both.1 both.2
      rw [List.forall₂_eq_eq_eq] at same
      exact same ▸ .refl _

end Value.Alike

end XmlRecords
