import XmlRecords.Association
import XmlRecords.Proofs.WrittenTags

/-!
# Namespaces of written elements

An element that is written declares its namespace where it is another one than that of
its parent, and the namespaces of its attributes under labels that are counted.  In the
scope that comes of this, its name and those of its attributes are what they were.
-/

namespace XmlRecords

open Xml (isKept IsFree)

/-- Recognise attributes that stay what they are when they are written: one is in no
reserved namespace, and its value and its namespace hold allowed characters only, and
no white space but blanks. -/
def Attribute.isSteady (a : Attribute) : Bool :=
  a.value.toList.all isKept &&
    a.name.ns.all fun ns => ns != xmlNamespace && ns.toList.all isKept

theorem Attribute.isSteady_iff {a : Attribute} :
    a.isSteady ↔ (∀ c ∈ a.value.toList, isKept c) ∧
      ∀ ns, a.name.ns = some ns → ns ≠ xmlNamespace ∧ ∀ c ∈ ns.toList, isKept c := by
  rw [isSteady, Bool.and_eq_true, List.all_eq_true]
  cases a.name.ns with
  | none => simp
  | some ns => simp

namespace Xml

/-- The label for the namespace of an attribute. -/
def countedLabel (count : Nat) : String := "ns" ++ toString count

/-- The declaration of the namespace of an element where it differs from the one in
scope. -/
def rawScope (space ns : Option String) : List RawAttribute :=
  if ns = space then [] else [⟨⟨"", "xmlns"⟩, ns.getD ""⟩]

/-- Attributes as they are written, each behind the declaration of its namespace. -/
def rawAttributes : Nat → List Attribute → List RawAttribute
  | _, [] => []
  | count, a :: rest =>
      match a.name.ns with
      | none => ⟨⟨"", a.name.name⟩, a.value⟩ :: rawAttributes count rest
      | some ns =>
          ⟨⟨"xmlns", countedLabel count⟩, ns⟩ ::
            ⟨⟨countedLabel count, a.name.name⟩, a.value⟩ :: rawAttributes (count + 1) rest

/-- The bindings that written attributes declare. -/
def attributeScope : Nat → List Attribute → Scope
  | _, [] => []
  | count, a :: rest =>
      match a.name.ns with
      | none => attributeScope count rest
      | some ns => (countedLabel count, ns) :: attributeScope (count + 1) rest

/-- The scope of a written element in the one of its parent. -/
def elementScope (outer : Scope) (space ns : Option String)
    (attributes : List Attribute) : Scope :=
  (if ns = space then [] else [("", ns.getD "")]) ++ attributeScope 0 attributes ++ outer

section Labels

theorem toList_countedLabel (count : Nat) :
    (countedLabel count).toList = 'n' :: 's' :: (toString count).toList := by
  rw [countedLabel, String.toList_append]
  rfl

theorem countedLabel_injective : Function.Injective countedLabel := fun _ _ same =>
  toString_injective (String.append_right_inj "ns" |>.1 same)

theorem isBase_countedLabel (count : Nat) : isBase (countedLabel count) := by
  rw [isBase, toList_countedLabel, Bool.and_eq_true]
  refine ⟨rfl, List.all_eq_true.2 ?_⟩
  rw [List.forall_mem_cons, List.forall_mem_cons]
  refine ⟨rfl, rfl, fun c member => ?_⟩
  have digit := isDigit_of_mem_toString member
  rw [isNameChar, digit, Bool.and_eq_true]
  refine ⟨by simp, bne_iff_ne.2 ?_⟩
  rintro rfl
  cases digit

theorem isBase_xmlns : isBase "xmlns" := by
  decide

theorem countedLabel_ne {count : Nat} {label : String}
    (other : label.toList.head? ≠ some 'n') : countedLabel count ≠ label := by
  rintro rfl
  rw [toList_countedLabel] at other
  exact other rfl

end Labels

section Written

variable {a : Attribute} {attributes : List Attribute}

theorem write_rawScope (space ns : Option String) :
    (quoteWith escapeChar (rawScope space ns)).flatMap writeQuoted =
      writeScope space ns := by
  rw [rawScope, writeScope]
  split
  · rfl
  · simp [quoteWith, writeQuoted, writeBinding, Label.text, escape]

theorem write_rawAttributes (count : Nat) (attributes : List Attribute) :
    (quoteWith escapeChar (rawAttributes count attributes)).flatMap writeQuoted =
      writeAttributes count attributes := by
  rw [quoteWith, List.flatMap_map]
  induction attributes generalizing count with
  | nil => rfl
  | cons a rest ih =>
      have labelled : countedLabel count ≠ "" := countedLabel_ne (by simp)
      cases space : a.name.ns with
      | none =>
          simp only [rawAttributes, writeAttributes, space]
          rw [List.flatMap_cons, ih]
          simp [writeQuoted, writeBinding, Label.text, escape]
      | some ns =>
          simp only [rawAttributes, writeAttributes, space]
          rw [List.flatMap_cons, List.flatMap_cons, ih]
          simp [writeQuoted, writeBinding, Label.text, escape, labelled]
          simp [countedLabel]

theorem isWritable_rawScope {write : Char → List Char} {space ns : Option String}
    (stands : ns ≠ space → ∀ name, ns = some name →
      ∀ c ∈ name.toList, StandsFor (write c) c) :
    ∀ a ∈ rawScope space ns, a.IsWritable write := by
  rw [rawScope]
  split
  · simp
  · next differs =>
      intro a member
      rw [List.mem_singleton.1 member]
      refine ⟨⟨.inl rfl, isBase_xmlns⟩, ?_⟩
      cases ns with
      | none => simp
      | some name => exact stands differs name rfl

theorem isWritable_rawAttributes (sound : ∀ a ∈ attributes, a.Sound)
    (steady : ∀ a ∈ attributes, a.isSteady) (count : Nat) :
    ∀ a ∈ rawAttributes count attributes, a.IsWritable escapeChar := by
  induction attributes generalizing count with
  | nil => simp [rawAttributes]
  | cons a rest ih =>
      rw [List.forall_mem_cons] at sound steady
      have later := ih sound.2 steady.2
      obtain ⟨value, named⟩ := Attribute.isSteady_iff.1 steady.1
      have stands := fun c member => standsFor_escapeChar (value c member)
      cases space : a.name.ns with
      | none =>
          simp only [rawAttributes, space]
          exact List.forall_mem_cons.2
            ⟨⟨⟨.inl rfl, sound.1.base⟩, stands⟩, later count⟩
      | some ns =>
          simp only [rawAttributes, space]
          refine List.forall_mem_cons.2 ⟨⟨⟨.inr isBase_xmlns, isBase_countedLabel count⟩,
            fun c member => standsFor_escapeChar ((named ns space).2 c member)⟩,
              List.forall_mem_cons.2 ⟨⟨⟨.inr ?_, sound.1.base⟩, stands⟩,
                later (count + 1)⟩⟩
          exact isBase_countedLabel count

end Written

section Resolved

variable {attributes : List Attribute} {space ns : Option String} {outer scope : Scope}

/-- The namespaces of attributes are declared under labels that are not in use. -/
theorem declaredScope_rawAttributes (sound : ∀ a ∈ attributes, a.Sound)
    (steady : ∀ a ∈ attributes, a.isSteady) (count : Nat) {done : Scope}
    (fresh : ∀ k, count ≤ k → done.lookup (countedLabel k) = none) :
    declaredScope done (rawAttributes count attributes) =
      .ok (done ++ attributeScope count attributes) := by
  induction attributes generalizing count done with
  | nil => simp [rawAttributes, attributeScope, declaredScope]
  | cons a rest ih =>
      rw [List.forall_mem_cons] at sound steady
      have later := ih sound.2 steady.2
      obtain ⟨value, named⟩ := Attribute.isSteady_iff.1 steady.1
      cases space : a.name.ns with
      | none =>
          have declares : binding? ⟨⟨"", a.name.name⟩, a.value⟩ = .ok none := by
            rw [binding?, if_neg (by simp), if_neg sound.1.noDeclaration]
          simp only [rawAttributes, attributeScope, space]
          rw [declaredScope, declares]
          exact later count fresh
      | some ns =>
          have free : IsFree ns :=
            (sound.1.free ns space).resolve_left (named ns space).1
          have declares : binding? ⟨⟨"xmlns", countedLabel count⟩, ns⟩ =
              .ok (some (countedLabel count, ns)) := by
            rw [binding?, if_pos rfl, if_neg free.noDeclaration,
              if_neg (countedLabel_ne (by simp)), if_neg free.noXml]
          have declares' : binding? ⟨⟨countedLabel count, a.name.name⟩, a.value⟩ =
              .ok none := by
            rw [binding?, if_neg (countedLabel_ne (by simp)), if_neg sound.1.noDeclaration]
          -- The labels still to come have other numbers than the one just declared.
          have fresh' : ∀ k, count + 1 ≤ k →
              (done ++ [(countedLabel count, ns)]).lookup (countedLabel k) = none := by
            intro k above
            have other : (countedLabel k == countedLabel count) = false := by
              rw [beq_eq_false_iff_ne]
              intro same
              have := countedLabel_injective same
              omega
            rw [List.lookup_append, fresh k (by omega), List.lookup_cons, other]
            rfl
          simp only [rawAttributes, attributeScope, space]
          rw [declaredScope, declares]
          dsimp only [bind, Except.bind]
          rw [fresh count (Nat.le_refl _), Option.isSome_none, Bool.and_false,
            if_neg (by simp), declaredScope, declares']
          dsimp only [bind, Except.bind]
          rw [later (count + 1) fresh', List.append_assoc]
          rfl

theorem declaredScope_rawScope (free : ∀ name, ns = some name → IsFree name)
    (raw : List RawAttribute) :
    declaredScope [] (rawScope space ns ++ raw) =
      declaredScope (if ns = space then [] else [("", ns.getD "")]) raw := by
  rw [rawScope]
  split
  · rfl
  · have free' : IsFree (ns.getD "") := by
      cases ns with
      | none => exact ⟨by decide, by decide⟩
      | some name => exact free name rfl
    have declares : binding? ⟨⟨"", "xmlns"⟩, ns.getD ""⟩ = .ok (some ("", ns.getD "")) := by
      rw [binding?, if_neg (by simp), if_pos rfl, if_neg]
      simp [free'.noXml, free'.noDeclaration]
    rw [List.singleton_append, declaredScope, declares]
    rfl

theorem exists_label_of_mem_attributeScope {binding : String × String} {count : Nat}
    (member : binding ∈ attributeScope count attributes) :
    ∃ k, count ≤ k ∧ binding.1 = countedLabel k := by
  induction attributes generalizing count with
  | nil => simp [attributeScope] at member
  | cons a rest ih =>
      cases space : a.name.ns with
      | none =>
          simp only [attributeScope, space] at member
          exact ih member
      | some ns =>
          simp only [attributeScope, space, List.mem_cons] at member
          rcases member with rfl | member
          · exact ⟨count, Nat.le_refl _, rfl⟩
          · obtain ⟨k, above, same⟩ := ih member
            exact ⟨k, by omega, same⟩

theorem nodup_attributeScope (count : Nat) (attributes : List Attribute) :
    ((attributeScope count attributes).map (·.1)).Nodup := by
  induction attributes generalizing count with
  | nil => simp [attributeScope]
  | cons a rest ih =>
      cases space : a.name.ns with
      | none =>
          simp only [attributeScope, space]
          exact ih count
      | some ns =>
          simp only [attributeScope, space, List.map_cons]
          refine List.nodup_cons.2 ⟨fun member => ?_, ih _⟩
          obtain ⟨binding, member, same⟩ := List.mem_map.1 member
          obtain ⟨k, above, label⟩ := exists_label_of_mem_attributeScope member
          have := countedLabel_injective (label.symm.trans same)
          omega

/-- Each label that is written stands for the namespace that it was counted for. -/
theorem lookup_elementScope {binding : String × String}
    (member : binding ∈ attributeScope 0 attributes) :
    (elementScope outer space ns attributes).lookup binding.1 = some binding.2 := by
  obtain ⟨k, _, label⟩ := exists_label_of_mem_attributeScope member
  have own := Association.lookup_eq_some_of_mem (nodup_attributeScope 0 attributes) member
  have front : (if ns = space then [] else [("", ns.getD "")]).lookup binding.1 = none := by
    split
    · rfl
    · have other : (countedLabel k == "") = false :=
        beq_eq_false_iff_ne.2 (countedLabel_ne (by simp))
      rw [label, List.lookup_cons, other]
      rfl
  rw [elementScope, List.lookup_append, List.lookup_append, front, own]
  rfl

/-- The default namespace of a written element is its own. -/
theorem lookup_default_elementScope (inherits : outer.lookup "" = space)
    (keeps : ns = none → space = none) :
    (elementScope outer space ns attributes).lookup "" = ns := by
  have own : (attributeScope 0 attributes).lookup "" = none := by
    refine List.lookup_eq_none_iff.2 fun binding member => ?_
    obtain ⟨k, _, label⟩ := exists_label_of_mem_attributeScope member
    rw [label, bne_iff_ne]
    exact (countedLabel_ne (by simp)).symm
  rw [elementScope, List.lookup_append, List.lookup_append, own]
  split
  · next same =>
      rw [inherits, same]
      rfl
  · next differs =>
      cases ns with
      | none => exact absurd (keeps rfl).symm differs
      | some name => rfl

theorem resolveAttributes_cons {a : Attribute} {raw : RawAttribute}
    {rest : List RawAttribute} {done : List Attribute}
    (resolves : resolveAttribute scope raw.name = .ok a.name) (same : raw.value = a.value)
    (fresh : a.name ∉ done.map (·.name)) :
    resolveAttributes scope done (raw :: rest) =
      resolveAttributes scope (a :: done) rest := by
  have unknown : done.any (·.name == a.name) = false := by
    rw [List.any_eq_false]
    intro other member isSame
    exact fresh (List.mem_map.2 ⟨other, member, eq_of_beq isSame⟩)
  rw [resolveAttributes, resolves]
  dsimp only [bind, Except.bind]
  rw [unknown, same]
  rfl

/-- Attributes that were written are resolved to what they were. -/
theorem resolveAttributes_rawAttributes (sound : ∀ a ∈ attributes, a.Sound) (count : Nat)
    (bound : ∀ binding ∈ attributeScope count attributes,
      scope.lookup binding.1 = some binding.2) {done : List Attribute}
    (distinct : ((done.reverse ++ attributes).map (·.name)).Nodup) :
    resolveAttributes scope done
        ((rawAttributes count attributes).filter (!·.isDeclaration)) =
      .ok (done.reverse ++ attributes) := by
  induction attributes generalizing count done with
  | nil => simp [rawAttributes, resolveAttributes]
  | cons a rest ih =>
      rw [List.forall_mem_cons] at sound
      have again : done.reverse ++ a :: rest = (a :: done).reverse ++ rest := by simp
      have fresh : a.name ∉ done.map (·.name) := by
        intro member
        rw [List.map_append, List.map_cons, List.nodup_append] at distinct
        refine distinct.2.2 a.name ?_ a.name List.mem_cons_self rfl
        rwa [List.map_reverse, List.mem_reverse]
      rw [again] at distinct ⊢
      cases space : a.name.ns with
      | none =>
          have own : RawAttribute.isDeclaration ⟨⟨"", a.name.name⟩, a.value⟩ = false := by
            simp [RawAttribute.isDeclaration, sound.1.noDeclaration]
          have resolves : resolveAttribute scope ⟨"", a.name.name⟩ = .ok a.name := by
            rw [resolveAttribute, if_neg (by simp), if_pos rfl, ← space]
          simp only [attributeScope, space] at bound
          simp only [rawAttributes, space]
          rw [List.filter_cons_of_pos (by simp [own]),
            resolveAttributes_cons resolves rfl fresh, ih sound.2 count bound distinct]
      | some ns =>
          have declares : RawAttribute.isDeclaration ⟨⟨"xmlns", countedLabel count⟩, ns⟩ =
              true := by
            simp [RawAttribute.isDeclaration]
          have own : RawAttribute.isDeclaration
              ⟨⟨countedLabel count, a.name.name⟩, a.value⟩ = false := by
            have other : countedLabel count ≠ "xmlns" := countedLabel_ne (by simp)
            simp [RawAttribute.isDeclaration, sound.1.noDeclaration, other]
          simp only [attributeScope, space, List.forall_mem_cons] at bound
          have resolves : resolveAttribute scope ⟨countedLabel count, a.name.name⟩ =
              .ok a.name := by
            rw [resolveAttribute, if_neg (countedLabel_ne (by simp)),
              if_neg (countedLabel_ne (by simp)), bound.1]
            dsimp only
            rw [← space]
          simp only [rawAttributes, space]
          rw [List.filter_cons_of_neg (by simp [declares]),
            List.filter_cons_of_pos (by simp [own]),
            resolveAttributes_cons resolves rfl fresh, ih sound.2 _ bound.2 distinct]

/-- An element begins as what it was before it was written. -/
theorem openElement_write {p : Progress} {name : QName} (named : name.Sound)
    (own : Attribute.AreSound attributes) (steady : ∀ a ∈ attributes, a.isSteady)
    (inherits : p.scope.lookup "" = space) (keeps : name.ns = none → space = none)
    (waiting : p.waiting = rawScope space name.ns ++ rawAttributes 0 attributes) :
    p.openElement ⟨"", name.name⟩ =
      .ok { p.endRun with
        opened := ⟨⟨"", name.name⟩, name, attributes,
          elementScope p.scope space name.ns attributes, []⟩ :: p.opened
        waiting := [] } := by
  have declared : declaredScope [] p.waiting =
      .ok ((if name.ns = space then [] else [("", name.ns.getD "")]) ++
        attributeScope 0 attributes) := by
    have fresh : ∀ k, 0 ≤ k → (if name.ns = space then []
        else [("", name.ns.getD "")]).lookup (countedLabel k) = none := by
      intro k _
      have other : (countedLabel k == "") = false :=
        beq_eq_false_iff_ne.2 (countedLabel_ne (by simp))
      split
      · rfl
      · rw [List.lookup_cons, other]
        rfl
    rw [waiting, declaredScope_rawScope named.free,
      declaredScope_rawAttributes own.each steady 0 fresh]
  have noScope : (rawScope space name.ns).filter (!·.isDeclaration) = [] := by
    rw [rawScope]
    split
    · rfl
    · simp [RawAttribute.isDeclaration]
  have resolved : p.resolveWaiting =
      .ok (elementScope p.scope space name.ns attributes, attributes) := by
    rw [Progress.resolveWaiting, declared]
    dsimp only [bind, Except.bind]
    rw [waiting, List.filter_append, noScope, List.nil_append, ← elementScope,
      resolveAttributes_rawAttributes own.each 0
        (fun _ member => lookup_elementScope member) (by simpa using own.distinct)]
    rfl
  have isNamed : resolveElement (elementScope p.scope space name.ns attributes)
      ⟨"", name.name⟩ = .ok name := by
    rw [resolveElement, lookup_default_elementScope inherits keeps]
    obtain ⟨base, ns⟩ := name
    cases ns <;> rfl
  rw [Progress.openElement, resolved]
  dsimp only [bind, Except.bind]
  rw [isNamed]
  rfl

end Resolved

end Xml

end XmlRecords
