import Mathlib.Data.List.Nodup
import Mathlib.Data.List.TakeDrop
import XmlRecords.Proofs.Runs
import XmlRecords.Xml.Document

/-!
# What documents can hold

Text holds allowed characters only.  Names of elements and attributes have no label in
them any more, no two attributes of an element have one name, and no element is in a
reserved namespace.  Each step by which a document is put together keeps to this.
-/

namespace XmlRecords

namespace Xml

/-- Recognise names without a label. -/
def isBase (name : String) : Bool :=
  name.toList.head?.any isNameStart && name.toList.all fun c => isNameChar c && c != ':'

/-- The namespace is not reserved. -/
structure IsFree (ns : String) : Prop where
  noDeclaration : ns ≠ declarationNamespace
  noXml : ns ≠ xmlNamespace

end Xml

open Xml (isBase IsFree)

/-- A name that an element can have. -/
structure QName.Sound (name : QName) : Prop where
  base : isBase name.name
  free : ∀ ns, name.ns = some ns → IsFree ns

/-- An attribute that an element can have. -/
structure Attribute.Sound (a : Attribute) : Prop where
  base : isBase a.name.name
  noDeclaration : a.name.name ≠ "xmlns"
  free : ∀ ns, a.name.ns = some ns → ns = xmlNamespace ∨ IsFree ns

/-- Attributes that an element can have at once. -/
structure Attribute.AreSound (attributes : List Attribute) : Prop where
  each : ∀ a ∈ attributes, a.Sound
  distinct : (attributes.map (·.name)).Nodup

/-- An item of content that a document can hold. -/
inductive Content.Sound : Content → Prop where
  | text {value : String} (allowed : ∀ c ∈ value.toList, Xml.isAllowed c) :
      Sound (.text value)
  | element {name : QName} {attributes : List Attribute} {content : List Content}
      (named : name.Sound) (own : Attribute.AreSound attributes)
      (inside : ∀ item ∈ content, Sound item) :
      Sound (.element name attributes content)

namespace Xml

/-- A tree that stands for what a document can hold. -/
inductive Tree.Sound : Tree → Prop where
  | text {value : String} (allowed : ∀ c ∈ value.toList, isAllowed c) :
      Sound (.text value)
  | element {name : QName} {attributes : List Attribute} {scope : Scope}
      {content : List Tree} (named : name.Sound) (own : Attribute.AreSound attributes)
      (inside : ∀ item ∈ content, Sound item) :
      Sound (.element name attributes scope content)

/-- All bindings are to namespaces that are not reserved. -/
def Scope.Sound (scope : Scope) : Prop :=
  ∀ binding ∈ scope, IsFree binding.2

theorem Scope.sound_nil : Scope.Sound [] := by
  simp [Scope.Sound]

structure Open.Sound (top : Open) : Prop where
  named : top.name.Sound
  own : Attribute.AreSound top.attributes
  scope : Scope.Sound top.scope
  inside : ∀ item ∈ top.content, item.Sound

/-- What has been read of a document is what it can hold. -/
structure Progress.Sound (p : Progress) : Prop where
  opened : ∀ top ∈ p.opened, top.Sound
  root : ∀ tree, p.root = some tree → tree.Sound
  waiting : ∀ a ∈ p.waiting, isBase a.name.base

section Names

theorem isBase_ofList {base : List Char} (each : ∀ c ∈ base, isNameChar c)
    (single : base.contains ':' = false)
    (starts : (base.head?.map isNameStart).getD false) : isBase (String.ofList base) := by
  rw [isBase, String.toList_ofList, Bool.and_eq_true]
  constructor
  · cases base with
    | nil => cases starts
    | cons first others => exact starts
  · refine List.all_eq_true.2 fun c member => ?_
    rw [each c member, Bool.true_and, bne_iff_ne]
    rintro rfl
    rw [List.contains_iff_mem.2 member] at single
    cases single

theorem isBase_of_readLabel {text rest : List Char} {label : Label}
    (read : readLabel text = .ok (label, rest)) : isBase label.base := by
  unfold readLabel at read
  extract_lets name rest at read
  have nameChars : ∀ c ∈ name, isNameChar c :=
    List.all_eq_true.1 List.all_takeWhile
  rw [List.span_eq_takeWhile_dropWhile] at read
  split at read
  next _ _ front base parted =>
  have inside : base ⊆ name := by
    cases dropped : name.dropWhile (· != ':') with
    | nil =>
        rw [dropped] at parted
        cases parted
        exact (List.takeWhile_prefix _).subset
    | cons colon back =>
        rw [dropped] at parted
        cases parted
        intro c member
        refine (List.dropWhile_suffix (· != ':')).subset ?_
        rw [dropped]
        exact List.mem_cons_of_mem _ member
  split_ifs at read with several starts
  obtain ⟨rfl, _⟩ := Prod.mk.inj (Except.ok.inj read)
  exact isBase_ofList (fun c member => nameChars c (inside member))
    (Bool.eq_false_iff.2 several) (Bool.and_eq_true_iff.1 starts).2

variable {scope done last : Scope} {a : RawAttribute} {raw : List RawAttribute}

theorem isFree_of_binding? {binding : String × String}
    (declares : binding? a = .ok (some binding)) : IsFree binding.2 := by
  rw [binding?] at declares
  split_ifs at declares with _ noDeclaration _ _ noXml _ reserved
  · cases declares
  · cases declares
    exact ⟨noDeclaration, noXml⟩
  · cases declares
    simp only [Bool.or_eq_true, decide_eq_true_eq, not_or] at reserved
    exact ⟨reserved.2, reserved.1⟩
  · cases declares

theorem scope_of_declaredScope (sound : Scope.Sound done)
    (declared : declaredScope done raw = .ok last) : Scope.Sound last := by
  induction raw generalizing done with
  | nil =>
      cases declared
      exact sound
  | cons a rest ih =>
      rw [declaredScope] at declared
      obtain ⟨binding, declares, declared⟩ := Outcome.bind_eq_ok.1 declared
      cases binding with
      | none => exact ih sound declared
      | some binding =>
          obtain ⟨label, ns⟩ := binding
          dsimp only at declared
          split at declared
          · cases declared
          · refine ih (fun entry member => ?_) declared
            rcases List.mem_append.1 member with member | member
            · exact sound entry member
            · rw [List.mem_singleton.1 member]
              exact isFree_of_binding? declares

theorem sound_of_resolveElement (sound : Scope.Sound scope) {label : Label} {name : QName}
    (base : isBase label.base) (resolved : resolveElement scope label = .ok name) :
    name.Sound := by
  rw [resolveElement] at resolved
  split at resolved
  · next ns found =>
      cases resolved
      refine ⟨base, ?_⟩
      rintro _ ⟨⟩
      obtain ⟨_, _, whole, _⟩ := List.lookup_eq_some_iff.1 found
      exact sound (label.label, ns) (by simp [whole])
  · split at resolved
    · cases resolved
      exact ⟨base, by simp⟩
    · cases resolved

theorem sound_of_resolveAttribute (sound : Scope.Sound scope) {name : QName}
    (base : isBase a.name.base) (own : a.isDeclaration = false)
    (resolved : resolveAttribute scope a.name = .ok name) (value : String) :
    Attribute.Sound ⟨name, value⟩ := by
  have other : a.name.base ≠ "xmlns" := by
    rintro same
    simp [RawAttribute.isDeclaration, same] at own
  rw [resolveAttribute] at resolved
  split at resolved
  · cases resolved
    exact ⟨base, other, fun ns same => .inl (Option.some.inj same).symm⟩
  · split at resolved
    · cases resolved
      exact ⟨base, other, by simp⟩
    · split at resolved
      · next ns found =>
          cases resolved
          refine ⟨base, other, ?_⟩
          rintro _ ⟨⟩
          obtain ⟨_, _, whole, _⟩ := List.lookup_eq_some_iff.1 found
          exact .inr (sound (a.name.label, ns) (by simp [whole]))
      · cases resolved

theorem areSound_of_resolveAttributes (sound : Scope.Sound scope)
    {done attributes : List Attribute} (before : Attribute.AreSound done)
    (each : ∀ a ∈ raw, isBase a.name.base ∧ a.isDeclaration = false)
    (resolved : resolveAttributes scope done raw = .ok attributes) :
    Attribute.AreSound attributes := by
  induction raw generalizing done with
  | nil =>
      cases resolved
      refine ⟨fun a member => before.each a (List.mem_reverse.1 member), ?_⟩
      rw [List.map_reverse, List.nodup_reverse]
      exact before.distinct
  | cons a rest ih =>
      obtain ⟨⟨base, own⟩, others⟩ := List.forall_mem_cons.1 each
      rw [resolveAttributes] at resolved
      obtain ⟨name, named, resolved⟩ := Outcome.bind_eq_ok.1 resolved
      split at resolved
      · cases resolved
      · next fresh =>
          refine ih ⟨List.forall_mem_cons.2
            ⟨sound_of_resolveAttribute sound base own named a.value, before.each⟩, ?_⟩
            others resolved
          refine List.nodup_cons.2 ⟨fun member => fresh ?_, before.distinct⟩
          obtain ⟨b, member, same⟩ := List.mem_map.1 member
          exact List.any_eq_true.2 ⟨b, member, beq_iff_eq.2 same⟩

end Names

namespace Progress.Sound

variable {p next : Progress}

/-- What is kept of open elements, apart from their content, is kept of the whole. -/
theorem top {top : Open} {others : List Open} (sound : p.Sound)
    (opened : p.opened = top :: others) {content : List Tree}
    (inside : ∀ item ∈ content, item.Sound) :
    ∀ open' ∈ { top with content } :: others, open'.Sound := by
  have each := sound.opened
  rw [opened, List.forall_mem_cons] at each
  refine List.forall_mem_cons.2 ⟨?_, each.2⟩
  exact ⟨each.1.named, each.1.own, each.1.scope, inside⟩

theorem inside {top : Open} {others : List Open} (sound : p.Sound)
    (opened : p.opened = top :: others) : ∀ item ∈ top.content, item.Sound :=
  (sound.opened top (opened ▸ List.mem_cons_self)).inside

theorem endRun (sound : p.Sound) : p.endRun.Sound :=
  ⟨sound.opened, sound.root, sound.waiting⟩

theorem count (sound : p.Sound) (references : Nat) :
    Progress.Sound { p with references } :=
  ⟨sound.opened, sound.root, sound.waiting⟩

theorem addText (sound : p.Sound) {text : String}
    (allowed : ∀ c ∈ text.toList, isAllowed c) : (p.addText text).Sound := by
  rw [Progress.addText]
  split
  · exact sound
  · next top others opened =>
      have before := sound.inside opened
      refine ⟨sound.top opened ?_, sound.root, sound.waiting⟩
      split
      · next run rest _ content =>
          rw [content, List.forall_mem_cons] at before
          refine List.forall_mem_cons.2 ⟨.text fun c member => ?_, before.2⟩
          obtain ⟨⟩ := before.1
          next allowed' =>
          rw [String.toList_append, List.mem_append] at member
          exact member.elim (allowed' c) (allowed c)
      · exact List.forall_mem_cons.2 ⟨.text allowed, before⟩

theorem addBuffer (sound : p.Sound) {buffer : List Char}
    (allowed : ∀ c ∈ buffer, isAllowed c) : (p.addBuffer buffer).Sound := by
  rw [Progress.addBuffer]
  split
  · exact sound
  · exact sound.addText (by simpa using allowed)

theorem addElement (sound : p.Sound) {element : Tree} (added : element.Sound) :
    (p.addElement element).Sound := by
  rw [Progress.addElement]
  split
  · refine ⟨sound.opened, ?_, sound.waiting⟩
    rintro tree ⟨⟩
    cases known : p.root with
    | none => exact added
    | some root => exact sound.root root known
  · next top others opened =>
      exact ⟨sound.top opened (List.forall_mem_cons.2 ⟨added, sound.inside opened⟩),
        sound.root, sound.waiting⟩

theorem await (sound : p.Sound) {raw : List RawAttribute}
    (each : ∀ a ∈ raw, isBase a.name.base) : (p.await raw).Sound :=
  ⟨sound.opened, sound.root, fun a member =>
    (List.mem_append.1 member).elim (sound.waiting a) (each a)⟩

theorem scope (sound : p.Sound) : Scope.Sound p.scope := by
  rw [Progress.scope]
  split
  · exact Scope.sound_nil
  · next top others opened =>
      exact (sound.opened top (opened ▸ List.mem_cons_self)).scope

theorem resolveWaiting (sound : p.Sound) {inner : Scope} {attributes : List Attribute}
    (resolved : p.resolveWaiting = .ok (inner, attributes)) :
    Scope.Sound inner ∧ Attribute.AreSound attributes := by
  rw [Progress.resolveWaiting] at resolved
  obtain ⟨declared, declares, resolved⟩ := Outcome.bind_eq_ok.1 resolved
  obtain ⟨own, resolves, same⟩ := Outcome.bind_eq_ok.1 resolved
  cases same
  have both : Scope.Sound (declared ++ p.scope) := by
    intro binding member
    rcases List.mem_append.1 member with member | member
    · exact scope_of_declaredScope Scope.sound_nil declares binding member
    · exact sound.scope binding member
  have nothing : Attribute.AreSound [] := ⟨by simp, List.nodup_nil⟩
  refine ⟨both, areSound_of_resolveAttributes both nothing ?_ resolves⟩
  intro a member
  obtain ⟨member, own⟩ := List.mem_filter.1 member
  exact ⟨sound.waiting a member, by simpa using own⟩

theorem openElement (sound : p.Sound) {label : Label} (base : isBase label.base)
    (opened : p.openElement label = .ok next) : next.Sound := by
  rw [Progress.openElement] at opened
  obtain ⟨⟨scope, attributes⟩, resolved, opened⟩ := Outcome.bind_eq_ok.1 opened
  obtain ⟨name, named, same⟩ := Outcome.bind_eq_ok.1 opened
  cases same
  obtain ⟨inScope, own⟩ := sound.resolveWaiting resolved
  refine ⟨List.forall_mem_cons.2 ⟨?_, sound.opened⟩, sound.root, by simp⟩
  exact ⟨sound_of_resolveElement inScope base named, own, inScope, by simp⟩

theorem closeElement (sound : p.Sound) (closed : p.closeElement = .ok next) :
    next.Sound := by
  rw [Progress.closeElement] at closed
  split at closed
  · cases closed
  · next top others opened =>
      obtain ⟨_, _, same⟩ := Outcome.bind_eq_ok.1 closed
      cases same
      have each := sound.opened
      rw [opened, List.forall_mem_cons] at each
      have rest : Progress.Sound { p with opened := others, waiting := [] } :=
        ⟨each.2, sound.root, by simp⟩
      refine rest.endRun.addElement (.element each.1.named each.1.own ?_)
      exact fun item member => each.1.inside item (List.mem_reverse.1 member)

theorem closeTag (sound : p.Sound) {label : Label} (closed : closeTag p label = .ok next) :
    next.Sound := by
  rw [Xml.closeTag] at closed
  split at closed
  · cases closed
  · split at closed
    · exact sound.closeElement closed
    · cases closed

end Progress.Sound

end Xml

end XmlRecords
