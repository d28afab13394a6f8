import XmlRecords.Files.Disk
import XmlRecords.Proofs.TranslatedTypes

/-!
# Components are complete

When all elements at the top have been read, no type is unfinished, and every type is
what its definition means for the numbers that were given out.  So types that refer to
each other in a circle are translated as a whole, and what an extension takes over is
all that its base has.
-/

namespace XmlRecords

namespace Components

open Ledger

/-- Components are closed and complete: each type is what its definition in the schema
documents means, with the numbers of all other types. -/
structure Complete (all : Declarations) (ledger : Ledger) (components : Components) :
    Prop where
  types : ledger.reading.types = components.types
  finished : ledger.reading.unfinished = []
  roots : List.Forall₂ (fun entry root => ledger.DeclaresElement all entry.2 true root)
    all.elements components.roots
  count : ledger.definitions.length = components.types.size
  given : ∀ definition ∈ ledger.definitions, definition.Given all
  defined : ∀ (id : Nat) (definition : Definition) (type : ComplexType),
    ledger.definitions[id]? = some definition → components.types[id]? = some type →
      ledger.Defines all definition type
  rootsWithin : ∀ root ∈ components.roots, root.type.Within components.types.size
  typesWithin : ∀ type ∈ components.types, type.Within components.types.size
  apart : ∀ (id other : Nat) (first second : ComplexType) (name : QName),
    components.types[id]? = some first → components.types[other]? = some second →
      first.name = some name → second.name = some name → id = other
  named : ∀ (name : QName) (id other : Nat), ledger.Denotes all name (.complex id) →
    ledger.Denotes all name (.complex other) → id = other
  inside : ∀ (declared : Declared) (first second : ElementDecl) (id other : Nat),
    ledger.DeclaresElement all declared true first → first.type = .complex id →
      ledger.DeclaresElement all declared true second → second.type = .complex other →
        id = other
  bases : ∀ (fuel : Nat) (setting : Setting) (node : Xml.ScopedElement)
    (before after : Reading) (id : Nat),
    (readBase all fuel setting node).run before = .ok (some (.complex id), after) →
      id ∉ after.unfinished

theorem sound_nothing (all : Declarations) : Ledger.Sound all ⟨{}, []⟩ where
  size := rfl
  given := by simp
  named := by simp
  ofElements := by simp
  distinct := List.nodup_nil
  unfinished := by simp
  names := by simp
  closed := by simp [Closed]
  defined := by simp

/-- A type that is being read is refused as a base. -/
theorem not_mem_unfinished_of_readBase {all : Declarations} {fuel : Nat}
    {setting : Setting} {node : Xml.ScopedElement} {before after : Reading} {id : Nat}
    (ran : (readBase all fuel setting node).run before =
      .ok (some (.complex id), after)) : id ∉ after.unfinished := by
  cases fuel with
  | zero =>
      rw [readBase] at ran
      cases ran
  | succ fuel =>
      rw [readBase] at ran
      split at ran
      · cases ran
      · obtain ⟨name, _, _, ran⟩ := Run.bind_eq_ok.1 ran
        split at ran
        · cases ran
        · obtain ⟨type, between, _, ran⟩ := Run.bind_eq_ok.1 ran
          cases type with
          | simple datatype => cases ran
          | complex known =>
              rw [Run.get_bind] at ran
              split at ran
              · cases ran
              · next notInside =>
                  cases ran
                  simpa using notInside

/-- The ledger at the end is sound, and components are complete by it. -/
theorem exists_complete_of_ofSources {sources : List Source} {components : Components}
    (read : ofSources sources = .ok components) :
    ∃ all ledger, Declarations.addSources {} sources = .ok all ∧
      Ledger.Sound all ledger ∧ Complete all ledger components := by
  rw [ofSources] at read
  obtain ⟨all, added, read⟩ := Outcome.bind_eq_ok.1 read
  obtain ⟨⟨roots, r⟩, ran, same⟩ := Outcome.bind_eq_ok.1 read
  cases same
  have distinct : ((GlobalKind.element.table all).map (·.1)).Nodup :=
    Declarations.nodup_keys_of_addSources added List.nodup_nil
  obtain ⟨ledger, rfl, advances, declares⟩ :=
    Reader.gives_elements (Declarations.keyed_of_addSources added) _
      (List.Subset.refl _) distinct (sound_nothing all) ran
  have sound := advances.sound
  have finished : ledger.reading.unfinished = [] := advances.unfinished
  have complete : ∀ id, id ∉ ledger.reading.unfinished := by simp [finished]
  have declared := declares ledger (.refl ledger)
  refine ⟨all, ledger, added, sound, {
    types := rfl
    finished
    roots := declared
    count := sound.size
    given := sound.given
    defined := fun id definition type defined known =>
      sound.defined ledger (.refl ledger) id definition type (complete id) defined known
    rootsWithin := ?_
    typesWithin := ?_
    apart := ?_
    named := fun _ _ _ one two => eq_of_denotes one two
    inside := fun _ _ _ _ _ one is two is' => eq_of_declaresElement one rfl is two is'
    bases := fun _ _ _ _ _ _ ran => not_mem_unfinished_of_readBase ran }⟩
  · intro root member
    obtain ⟨i, inside, rfl⟩ := List.mem_iff_getElem.1 member
    exact within_of_declaresElement sound.numbered
      (List.forall₂_iff_get.1 declared |>.2 i (declared.length_eq ▸ inside) inside)
  · intro type member
    obtain ⟨id, known⟩ := Array.getElem?_of_mem member
    exact sound.closed id type (complete id) known
  · intro id other first second name known known' hasName hasName'
    have lookup : ∀ (id : Nat) (type : ComplexType),
        ledger.reading.types[id]? = some type → type.name = some name →
          ledger.reading.named.lookup name = some id := by
      intro id type known hasName
      have below : id < ledger.definitions.length :=
        sound.size ▸ (Array.getElem?_eq_some_iff.1 known).1
      have defined := List.getElem?_eq_getElem below
      have same := sound.names id _ type defined known
      generalize ledger.definitions[id] = definition at defined same
      obtain ⟨own, declared⟩ := definition
      refine (sound.named name id).2 ⟨declared, ?_⟩
      rw [defined, ← hasName, same]
    exact Option.some.inj
      ((lookup id first known hasName).symm.trans (lookup other second known' hasName'))

end Components

end XmlRecords
