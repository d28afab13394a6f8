import XmlRecords.Proofs.TypeReading

/-!
# Types that are found to be derived from themselves

A type is said to be derived from itself where it is the base of a derivation while
it is being read.  Then references lead from the type to the derivation, but they
need not be those of bases: a type may also contain an element of a type that is
derived from it.  Whether such a type is read in front of the other one depends on
the order in which the declarations are met.
-/

namespace XmlRecords

namespace Reader

variable {all : Declarations} {place : Declared} {r later : Reading}

/-- Between two elements at the top of documents no type is being read. -/
structure Rests (all : Declarations) (r : Reading) : Prop where
  unfinished : r.unfinished = []
  named : ∀ name id, r.named.lookup name = some id → id < r.types.size
  settled : r.Settled all

theorem Rests.leads (rests : Rests all r) (place : Declared) :
    r.Leads all place where
  unfinished := by simp [rests.unfinished]
  named := rests.named
  leads := by simp [rests.unfinished]

theorem Rests.read (rests : Rests all r) {α : Type} {reader : Reader α}
    (sound : Sound all place reader) {a : α}
    (ended : reader.run r = .ok (a, later)) : Rests all later := by
  have leads := rests.leads place
  have continues := (sound r leads).continues a later ended
  exact {
    unfinished := continues.unfinished.trans rests.unfinished
    named := (leads.continue continues).named
    settled := (sound r leads).settles a later rests.settled ended }

/-- The elements at the top are read one after the other. -/
theorem rests_of_mapM_readElementDecl {fuel : Nat}
    {elements : List (QName × Declared)} (rests : Rests all r)
    {roots : List ElementDecl}
    (ended : (elements.mapM fun ((_, declared) : QName × Declared) =>
      readElementDecl all fuel declared true).run r = .ok (roots, later)) :
    Rests all later := by
  induction elements generalizing r roots with
  | nil =>
      cases ended
      exact rests
  | cons first rest ih =>
      obtain ⟨own, declared⟩ := first
      rw [List.mapM_cons] at ended
      obtain ⟨_, between, read, ended⟩ := Run.bind_eq_ok.1 ended
      obtain ⟨_, last, others, ended⟩ := Run.bind_eq_ok.1 ended
      cases ended
      exact ih (rests.read ((allSound all fuel).element declared true) read) others

/-- Whichever elements at the top are read, a type that is found to be derived from
itself is led to by references from itself. -/
theorem loops_of_mapM_readElementDecl {fuel : Nat}
    {elements : List (QName × Declared)} (rests : Rests all r) {path : String}
    {name : QName}
    (ended : (elements.mapM fun ((_, declared) : QName × Declared) =>
      readElementDecl all fuel declared true).run r =
        .error (.load path (.selfDerived name))) : all.Loops path name := by
  induction elements generalizing r with
  | nil => cases ended
  | cons first rest ih =>
      obtain ⟨own, declared⟩ := first
      have sound := (allSound all fuel).element declared true
      rw [List.mapM_cons] at ended
      rcases Run.bind_eq_error.1 ended with ended | ⟨_, later, read, ended⟩
      · exact (sound r (rests.leads declared)).loops path name ended
      · rcases Run.bind_eq_error.1 ended with ended | ⟨_, _, _, ended⟩
        · exact ih (rests.read sound read) ended
        · cases ended

end Reader

namespace Declarations

theorem blameless_addSources (all : Declarations) (sources : List Source) :
    Blameless (addSources all sources) := by
  induction sources generalizing all with
  | nil => exact .ok all
  | cons source rest ih =>
      rw [addSources]
      split
      · exact ih _
      · intro path name same
        cases same

end Declarations

/-- A type is found to be derived from itself only where references of some kind
lead from the type to a derivation with itself as the base.  In a schema that can
be read, no type with a name is reached from itself by way of bases. -/
theorem Components.derivations_of_ofSources (sources : List Source) :
    (∀ path name, ofSources sources = .error (.load path (.selfDerived name)) →
      ∃ all type derivation, Declarations.addSources {} sources = .ok all ∧
        all.complexTypes.lookup name = some type ∧
        Relation.ReflTransGen (Declared.Refers all) type derivation ∧
        derivation.named? "base" = some name ∧ derivation.setting.path = path) ∧
    ∀ components, ofSources sources = .ok components →
      ∃ all, Declarations.addSources {} sources = .ok all ∧
        ∀ type ∈ components.types, ∀ name, type.name = some name →
          ¬ Relation.TransGen all.Derives name name := by
  have start : ∀ all, Reader.Rests all {} := fun all =>
    ⟨rfl, by simp, by simp, by simp⟩
  constructor
  · intro path name failed
    rw [ofSources] at failed
    rcases Outcome.bind_eq_error.1 failed with added | ⟨all, added, failed⟩
    · exact absurd added (Declarations.blameless_addSources {} sources path name)
    rcases Outcome.bind_eq_error.1 failed with failed | ⟨_, _, failed⟩
    · obtain ⟨type, derivation, found, way, named, within⟩ :=
        Reader.loops_of_mapM_readElementDecl (start all) failed
      exact ⟨all, type, derivation, added, found, way, named, within⟩
    · cases failed
  · intro components loaded
    rw [ofSources] at loaded
    obtain ⟨all, added, loaded⟩ := Outcome.bind_eq_ok.1 loaded
    obtain ⟨⟨roots, later⟩, read, same⟩ := Outcome.bind_eq_ok.1 loaded
    cases same
    have rests := Reader.rests_of_mapM_readElementDecl (start all) read
    refine ⟨all, added, fun type member name named => ?_⟩
    obtain ⟨id, found⟩ := rests.settled.names type member name named
    exact Declarations.not_derives_self
      (rests.settled.grounded name id found (by simp [rests.unfinished]))

/-- A part of a schema document whose names are in no namespace. -/
def schemaPart (tag : String) (attributes : List (String × String))
    (content : List Xml.Tree) : Xml.Tree :=
  .element ⟨tag, some schemaNamespace⟩
    (attributes.map fun (name, value) => ⟨.unqualified name, value⟩) [] content

/-- A schema document with declarations. -/
def shapesSource (declarations : List Xml.Tree) : Source :=
  ⟨"shapes.xsd", ⟨⟨"schema", some schemaNamespace⟩, [], [], declarations⟩, none⟩

/-- The element for drawings, which are shapes. -/
def drawingPart : Xml.Tree :=
  schemaPart "element" [("name", "drawing"), ("type", "shape")] []

/-- The element for collections, which are groups. -/
def collectionPart : Xml.Tree :=
  schemaPart "element" [("name", "collection"), ("type", "group")] []

/-- Shapes contain groups. -/
def shapePart : Xml.Tree :=
  schemaPart "complexType" [("name", "shape")]
    [schemaPart "sequence" []
      [schemaPart "element" [("name", "part"), ("type", "group")] []]]

/-- A type that extends the one with a name. -/
def extensionPart (name base : String) : Xml.Tree :=
  schemaPart "complexType" [("name", name)]
    [schemaPart "complexContent" [] [schemaPart "extension" [("base", base)] []]]

/-- Shapes that contain groups, and groups that extend shapes, behind elements. -/
def shapesBehind (elements : List Xml.Tree) : List Source :=
  [shapesSource (elements ++ [shapePart, extensionPart "group" "shape"])]

/-- Shapes that extend shapes cannot be read.  Shapes that contain groups can be, and
are not derived from themselves. -/
theorem derivations_of_shapes :
    (Components.ofSources
        [shapesSource [drawingPart, extensionPart "shape" "shape"]] =
      .error (.load "shapes.xsd" (.selfDerived ⟨"shape", none⟩)) ∧
    ∃ all type derivation,
      Declarations.addSources {}
          [shapesSource [drawingPart, extensionPart "shape" "shape"]] = .ok all ∧
      all.complexTypes.lookup ⟨"shape", none⟩ = some type ∧
      Relation.ReflTransGen (Declared.Refers all) type derivation ∧
      derivation.named? "base" = some ⟨"shape", none⟩) ∧
    ∃ components type all,
      Components.ofSources (shapesBehind [collectionPart, drawingPart]) =
        .ok components ∧
      type ∈ components.types ∧ type.name = some ⟨"shape", none⟩ ∧
      Declarations.addSources {} (shapesBehind [collectionPart, drawingPart]) =
        .ok all ∧
      ¬ Relation.TransGen all.Derives ⟨"shape", none⟩ ⟨"shape", none⟩ := by
  constructor
  · have failed : Components.ofSources
        [shapesSource [drawingPart, extensionPart "shape" "shape"]] =
          .error (.load "shapes.xsd" (.selfDerived ⟨"shape", none⟩)) := by
      rfl
    obtain ⟨all, type, derivation, added, found, way, named, _⟩ :=
      (Components.derivations_of_ofSources _).1 _ _ failed
    exact ⟨failed, all, type, derivation, added, found, way, named⟩
  · obtain ⟨components, loaded, type, member, named⟩ : ∃ components,
        Components.ofSources (shapesBehind [collectionPart, drawingPart]) =
          .ok components ∧
        ∃ type ∈ components.types, type.name = some ⟨"shape", none⟩ :=
      ⟨_, rfl, _, Array.getElem_mem (by decide : 1 < _), rfl⟩
    obtain ⟨all, added, apart⟩ :=
      (Components.derivations_of_ofSources _).2 components loaded
    exact ⟨components, type, all, loaded, member, named, added,
      apart type member _ named⟩

/-- Shapes have no base, yet they are found to be derived from themselves where
they are read in front of the groups that extend them, but not where they are read
behind. -/
theorem shape_depends_on_order :
    Components.ofSources (shapesBehind [drawingPart, collectionPart]) =
      .error (.load "shapes.xsd" (.selfDerived ⟨"shape", none⟩)) ∧
    (∃ components,
      Components.ofSources (shapesBehind [collectionPart, drawingPart]) =
        .ok components) ∧
    ∃ all, Declarations.addSources {}
        (shapesBehind [drawingPart, collectionPart]) = .ok all ∧
      ∀ base, ¬ all.Derives base ⟨"shape", none⟩ := by
  refine ⟨rfl, ⟨_, rfl⟩, _, rfl, ?_⟩
  rintro base ⟨_, part, _, found, member, kind, _⟩
  cases found
  obtain rfl : part = ⟨⟨"sequence", some schemaNamespace⟩, [], [],
      [schemaPart "element" [("name", "part"), ("type", "group")] []]⟩ := by
    simpa [Xml.ScopedElement.components, schemaPart, Xml.Tree.element?] using member
  simp [Xml.ScopedElement.HoldsDerivations] at kind

end XmlRecords
