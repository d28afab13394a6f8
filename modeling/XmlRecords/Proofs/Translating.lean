import XmlRecords.Proofs.Translation
import XmlRecords.Proofs.TypeReading

/-!
# Reading translates

What a reader comes to depends on numbers that are given out on the way, and on types
that have been completed.  Both last: what holds of one ledger for these reasons holds
of every ledger that keeps it.  So assertions about readers speak of all ledgers that
keep the one at which the reader ends, and the last ledger of all is among them.
-/

namespace XmlRecords

namespace Ledger

/-- Later ledgers keep numbers that were given out, and types that were complete. -/
structure Keeps (ledger later : Ledger) : Prop where
  named : ∀ name id, ledger.reading.named.lookup name = some id →
    later.reading.named.lookup name = some id
  ofElements : ∀ name id, ledger.reading.ofElements.lookup name = some id →
    later.reading.ofElements.lookup name = some id
  definitions : ∀ (id : Nat) (definition : Definition),
    ledger.definitions[id]? = some definition → later.definitions[id]? = some definition
  types : ∀ (id : Nat) (type : ComplexType), id ∉ ledger.reading.unfinished →
    ledger.reading.types[id]? = some type →
      id ∉ later.reading.unfinished ∧ later.reading.types[id]? = some type

/-- A ledger in which every type is defined, every complete type is what it is defined
to be, and names and elements have the types that are defined under them. -/
structure Sound (all : Declarations) (ledger : Ledger) : Prop where
  size : ledger.definitions.length = ledger.reading.types.size
  given : ∀ definition ∈ ledger.definitions, definition.Given all
  named : ∀ name id, ledger.reading.named.lookup name = some id ↔
    ∃ declared, ledger.definitions[id]? = some ⟨some name, declared⟩
  ofElements : ∀ name id, ledger.reading.ofElements.lookup name = some id →
    ∃ declared inner, all.elements.lookup name = some declared ∧
      declared.node.component? "complexType" = some inner ∧
      ledger.definitions[id]? = some ⟨none, ⟨declared.setting, inner⟩⟩
  distinct : ledger.reading.unfinished.Nodup
  unfinished : ∀ id ∈ ledger.reading.unfinished, id < ledger.reading.types.size
  names : ∀ (id : Nat) (definition : Definition) (type : ComplexType),
    ledger.definitions[id]? = some definition → ledger.reading.types[id]? = some type →
      type.name = definition.name
  closed : ledger.Closed ledger.reading.types.size
  defined : ∀ final, ledger.Keeps final →
    ∀ (id : Nat) (definition : Definition) (type : ComplexType),
    id ∉ ledger.reading.unfinished → ledger.definitions[id]? = some definition →
      ledger.reading.types[id]? = some type → final.Defines all definition type

variable {all : Declarations} {ledger later final : Ledger}

theorem Keeps.refl (ledger : Ledger) : ledger.Keeps ledger :=
  ⟨fun _ _ known => known, fun _ _ known => known, fun _ _ known => known,
    fun _ _ complete known => ⟨complete, known⟩⟩

theorem Keeps.trans (first : ledger.Keeps later) (second : later.Keeps final) :
    ledger.Keeps final where
  named := fun name id known => second.named name id (first.named name id known)
  ofElements := fun name id known =>
    second.ofElements name id (first.ofElements name id known)
  definitions := fun id definition known =>
    second.definitions id definition (first.definitions id definition known)
  types := by
    intro id type complete known
    obtain ⟨complete, known⟩ := first.types id type complete known
    exact second.types id type complete known

/-- From one ledger to another, the same types are unfinished. -/
structure Advances (all : Declarations) (ledger later : Ledger) : Prop where
  sound : later.Sound all
  keeps : ledger.Keeps later
  unfinished : later.reading.unfinished = ledger.reading.unfinished

/-- Something holds of all ledgers that keep this one. -/
def Henceforth (ledger : Ledger) (holds : Ledger → Prop) : Prop :=
  ∀ final, ledger.Keeps final → holds final

theorem Henceforth.keep {holds : Ledger → Prop} (henceforth : ledger.Henceforth holds)
    (keeps : ledger.Keeps later) : later.Henceforth holds :=
  fun final further => henceforth final (keeps.trans further)

end Ledger

namespace Reader

open Ledger

variable {α β : Type} {all : Declarations} {place next : Declared}
  {pre : Ledger → Prop} {post : Ledger → α → Prop} {last : Ledger → β → Prop}

/-- Where something holds henceforth, and references lead to a place, all that the
reader comes to has something hold henceforth. -/
def Yields (all : Declarations) (place : Declared) (pre : Ledger → Prop)
    (post : Ledger → α → Prop) (reader : Reader α) : Prop :=
  all.Reaches place → ∀ ledger : Ledger, ledger.Sound all → ledger.Henceforth pre →
    ∀ a r, reader.run ledger.reading = .ok (a, r) →
      ∃ later : Ledger, later.reading = r ∧ ledger.Advances all later ∧
        later.Henceforth (post · a)

/-- All that the reader comes to has something hold henceforth, without conditions. -/
abbrev Gives (all : Declarations) (place : Declared) (post : Ledger → α → Prop)
    (reader : Reader α) : Prop :=
  Yields all place (fun _ => True) post reader

namespace Yields

theorem pure {a : α} (holds : ∀ final, pre final → post final a) :
    Yields all place pre post (Pure.pure a : Reader α) := by
  intro _ ledger sound given b r ended
  obtain ⟨rfl, rfl⟩ := Run.pure_eq_ok.1 ended
  exact ⟨ledger, rfl, ⟨sound, .refl ledger, rfl⟩,
    fun final keeps => holds final (given final keeps)⟩

/-- What held before a reader holds after it too. -/
theorem frame {reader : Reader α} {further : Ledger → α → Prop}
    (gives : Gives all place post reader)
    (back : ∀ final a, pre final → post final a → further final a) :
    Yields all place pre further reader := by
  intro reaches ledger sound given a r ended
  obtain ⟨later, same, advances, holds⟩ :=
    gives reaches ledger sound (fun _ _ => trivial) a r ended
  exact ⟨later, same, advances, fun final keeps =>
    back final a (given.keep advances.keeps final keeps) (holds final keeps)⟩

/-- What held before a step and what the step gives hold from there on. -/
theorem step {reader : Reader α} {rest : α → Reader β}
    (first : Yields all place pre post reader)
    (second : ∀ a, Yields all place (fun final => pre final ∧ post final a) last (rest a)) :
    Yields all place pre last (reader >>= rest) := by
  intro reaches ledger sound given b r ended
  obtain ⟨a, between, here, there⟩ := Run.bind_eq_ok.1 ended
  obtain ⟨later, rfl, advances, holds⟩ := first reaches ledger sound given a between here
  obtain ⟨latest, rfl, further, gives⟩ := second a reaches later advances.sound
    (fun final keeps => ⟨given.keep advances.keeps final keeps, holds final keeps⟩)
    b r there
  exact ⟨latest, rfl, ⟨further.sound, advances.keeps.trans further.keeps,
    further.unfinished.trans advances.unfinished⟩, gives⟩

theorem bind {reader : Reader α} {rest : α → Reader β}
    (first : Gives all place post reader)
    (second : ∀ a, Yields all place (fun final => pre final ∧ post final a) last (rest a)) :
    Yields all place pre last (reader >>= rest) :=
  .step (.frame first fun _ _ _ gives => gives) second

theorem andThen {reader : Reader α} {rest : α → Reader β}
    (first : Gives all place post reader)
    (second : ∀ a, Yields all place (post · a) last (rest a)) :
    Gives all place last (reader >>= rest) :=
  .step first fun a reaches ledger sound given =>
    second a reaches ledger sound fun final keeps => (given final keeps).2

theorem lift_bind {outcome : Except Error α} {rest : α → Reader β}
    (each : ∀ a, outcome = .ok a → Yields all place pre last (rest a)) :
    Yields all place pre last (liftM outcome >>= rest) := by
  cases outcome with
  | ok a => exact each a rfl
  | error e =>
      intro _ _ _ _ _ _ ended
      cases ended

theorem lift {outcome : Except Error α}
    (each : ∀ a, outcome = .ok a → ∀ final, pre final → post final a) :
    Yields all place pre post (liftM outcome : Reader α) := by
  have whole : (liftM outcome : Reader α) = liftM outcome >>= Pure.pure :=
    (bind_pure _).symm
  rw [whole]
  exact lift_bind fun a gave => .pure (each a gave)

theorem fail (setting : Setting) (fault : LoadFault) :
    Yields all place pre post (liftM (setting.fail fault : Except Error α) : Reader α) :=
  .lift fun _ impossible => by cases impossible

theorem refers {reader : Reader α} (yields : Yields all next pre post reader)
    (refers : place.Refers all next) : Yields all place pre post reader :=
  fun reaches => yields (reaches.refers refers)

/-- Each part of a type is read in turn. -/
theorem steps {step : ComplexType → Xml.ScopedElement → Reader ComplexType}
    {means : Ledger → Xml.ScopedElement → ComplexType → ComplexType → Prop}
    {parts : List Xml.ScopedElement}
    (each : ∀ part ∈ parts, ∀ type,
      Gives all place (fun final => means final part type) (step type part))
    (type : ComplexType) :
    Gives all place (fun final => Steps (means final) parts type)
      (parts.foldlM step type) := by
  induction parts generalizing type with
  | nil => exact .pure fun _ _ => .nil
  | cons part rest ih =>
      rw [List.foldlM_cons]
      refine .andThen (each part List.mem_cons_self type) fun between => ?_
      exact (ih (fun part member => each part (List.mem_cons_of_mem _ member))
        between).frame fun _ _ first further => .cons first further

theorem mapM {setting : Setting} {step : Xml.ScopedElement → Reader Particle}
    {parts : List Xml.ScopedElement}
    (each : ∀ part ∈ parts,
      Gives all place (fun final => final.IsParticle all ⟨setting, part⟩) (step part)) :
    Gives all place (fun final => final.AreParticles all setting parts)
      (parts.mapM step) := by
  induction parts with
  | nil => exact .pure fun _ _ => .nil
  | cons part rest ih =>
      rw [List.mapM_cons]
      refine .andThen (each part List.mem_cons_self) fun particle => ?_
      refine .bind (ih fun part member => each part (List.mem_cons_of_mem _ member))
        fun others => ?_
      exact .pure fun _ both => .cons both.1 both.2

end Yields

end Reader

namespace Ledger

variable {all : Declarations} {ledger between : Ledger} {definition : Definition}
  {type : ComplexType} {id : Nat}

theorem Sound.lt_size (sound : ledger.Sound all)
    (known : ledger.definitions[id]? = some definition) :
    id < ledger.reading.types.size :=
  sound.size ▸ (List.getElem?_eq_some_iff.1 known).1

theorem Sound.numbered (sound : ledger.Sound all) :
    ledger.Numbered ledger.reading.types.size where
  named := by
    intro name id known
    obtain ⟨declared, defined⟩ := (sound.named name id).1 known
    exact sound.lt_size defined
  defined := Nat.le_of_eq sound.size

/-- What is noted for an element at the top is the number of the type inside it. -/
theorem Sound.defined_of_ofElements (sound : ledger.Sound all) {declared : Declared}
    {name : QName} {inner : Xml.ScopedElement}
    (found : all.elements.lookup name = some declared)
    (inside : declared.node.component? "complexType" = some inner)
    (known : ledger.reading.ofElements.lookup name = some id) :
    ledger.definitions[id]? = some ⟨none, ⟨declared.setting, inner⟩⟩ := by
  obtain ⟨other, inner', found', inside', defined⟩ := sound.ofElements name id known
  cases found.symm.trans found'
  cases inside.symm.trans inside'
  exact defined

theorem Sound.exists_type_of_denotes (sound : ledger.Sound all) {name : QName}
    (denotes : ledger.Denotes all name (.complex id)) :
    ∃ type, ledger.reading.types[id]? = some type := by
  cases denotes with
  | complex _ _ known =>
      exact ⟨_, Array.getElem?_eq_getElem (sound.numbered.named name id known)⟩

/-- A type with a definition gets the number behind all others. -/
def begin (ledger : Ledger) (definition : Definition)
    (named ofElements : List (QName × Nat)) : Ledger where
  reading :=
    { Reader.begin ledger.reading { name := definition.name } with named, ofElements }
  definitions := ledger.definitions ++ [definition]

section Begin

variable {named ofElements : List (QName × Nat)}

theorem getElem?_begin_types (ledger : Ledger) (definition : Definition)
    (named ofElements : List (QName × Nat)) (id : Nat) :
    (ledger.begin definition named ofElements).reading.types[id]? =
      if id = ledger.reading.types.size then some { name := definition.name }
      else ledger.reading.types[id]? :=
  Array.getElem?_push

theorem Sound.getElem?_begin_definitions (sound : ledger.Sound all) (id : Nat) :
    (ledger.begin definition named ofElements).definitions[id]? =
      if id = ledger.reading.types.size then some definition
      else ledger.definitions[id]? := by
  rw [begin, ← sound.size]
  grind

theorem Sound.size_begin (_ : ledger.Sound all) :
    (ledger.begin definition named ofElements).reading.types.size =
      ledger.reading.types.size + 1 :=
  Array.size_push _

theorem Sound.keeps_begin (sound : ledger.Sound all)
    (keepsNames : ∀ name id, ledger.reading.named.lookup name = some id →
      named.lookup name = some id)
    (keepsElements : ∀ name id, ledger.reading.ofElements.lookup name = some id →
      ofElements.lookup name = some id) :
    ledger.Keeps (ledger.begin definition named ofElements) where
  named := keepsNames
  ofElements := keepsElements
  definitions := by
    intro id other known
    have below := sound.lt_size known
    rw [sound.getElem?_begin_definitions, if_neg (by omega), known]
  types := by
    intro id type complete known
    have below := (Array.getElem?_eq_some_iff.1 known).1
    constructor
    · exact fun member => (List.mem_cons.1 member).elim (by omega) complete
    · rw [getElem?_begin_types, if_neg (by omega), known]

/-- A complete type is not the one that was begun. -/
theorem ne_size_of_complete_begin
    (complete : id ∉ (ledger.begin definition named ofElements).reading.unfinished) :
    id ≠ ledger.reading.types.size ∧ id ∉ ledger.reading.unfinished :=
  not_or.1 fun member => complete (List.mem_cons.2 member)

/-- Types have the names that they are defined under, the one that was begun too. -/
theorem Sound.lookup_begin_named_iff (sound : ledger.Sound all)
    (names : ∀ name id, named.lookup name = some id ↔
      ledger.reading.named.lookup name = some id ∨
        definition.name = some name ∧ id = ledger.reading.types.size)
    (name : QName) (id : Nat) :
    named.lookup name = some id ↔ ∃ declared,
      (ledger.begin definition named ofElements).definitions[id]? =
        some ⟨some name, declared⟩ := by
  rw [sound.getElem?_begin_definitions, names]
  split
  · next here =>
      subst here
      have unknown : ledger.reading.named.lookup name ≠
          some ledger.reading.types.size := fun known =>
        Nat.lt_irrefl _ (sound.numbered.named name _ known)
      obtain ⟨own, declared⟩ := definition
      simp [unknown]
  · next there => simp [there, sound.named]

/-- Only the type that was begun is not defined yet. -/
theorem Sound.begin (sound : ledger.Sound all) (given : definition.Given all)
    (names : ∀ name id, named.lookup name = some id ↔
      ledger.reading.named.lookup name = some id ∨
        definition.name = some name ∧ id = ledger.reading.types.size)
    (keepsElements : ∀ name id, ledger.reading.ofElements.lookup name = some id →
      ofElements.lookup name = some id)
    (elements : ∀ name id, ofElements.lookup name = some id →
      ledger.reading.ofElements.lookup name = some id ∨
        id = ledger.reading.types.size ∧ ∃ declared inner,
          all.elements.lookup name = some declared ∧
          declared.node.component? "complexType" = some inner ∧
          definition = ⟨none, ⟨declared.setting, inner⟩⟩) :
    (ledger.begin definition named ofElements).Sound all where
  size := by
    rw [sound.size_begin, Ledger.begin, List.length_append, sound.size]
    rfl
  given := by
    intro other member
    rcases List.mem_append.1 member with member | member
    · exact sound.given other member
    · rwa [List.mem_singleton.1 member]
  named := sound.lookup_begin_named_iff names
  ofElements := by
    intro name id known
    rcases elements name id known with known | ⟨rfl, declared, inner, found, inside, rfl⟩
    · obtain ⟨declared, inner, found, inside, defined⟩ := sound.ofElements name id known
      have below := sound.lt_size defined
      refine ⟨declared, inner, found, inside, ?_⟩
      rw [sound.getElem?_begin_definitions, if_neg (Nat.ne_of_lt below), defined]
    · refine ⟨declared, inner, found, inside, ?_⟩
      rw [sound.getElem?_begin_definitions, if_pos rfl]
  distinct := List.nodup_cons.2
    ⟨fun member => Nat.lt_irrefl _ (sound.unfinished _ member), sound.distinct⟩
  unfinished := by
    rw [sound.size_begin]
    intro id member
    rcases List.mem_cons.1 member with rfl | member
    · exact Nat.lt_succ_self _
    · exact Nat.lt_succ_of_lt (sound.unfinished id member)
  names := by
    intro id other type defined known
    rw [sound.getElem?_begin_definitions] at defined
    rw [getElem?_begin_types] at known
    split at known
    · next here =>
        rw [if_pos here] at defined
        cases defined
        cases known
        rfl
    · next there =>
        rw [if_neg there] at defined
        exact sound.names id other type defined known
  closed := by
    rw [sound.size_begin]
    intro id type complete known
    obtain ⟨other, before⟩ := ne_size_of_complete_begin complete
    rw [getElem?_begin_types, if_neg other] at known
    exact (sound.closed id type before known).mono (Nat.le_succ _)
  defined := by
    intro final further id earlier type complete defined known
    have keeps : ledger.Keeps (ledger.begin definition named ofElements) :=
      sound.keeps_begin (fun name id known => (names name id).2 (.inl known)) keepsElements
    obtain ⟨other, before⟩ := ne_size_of_complete_begin complete
    rw [sound.getElem?_begin_definitions, if_neg other] at defined
    rw [getElem?_begin_types, if_neg other] at known
    exact sound.defined final (keeps.trans further) id earlier type before defined known

end Begin

/-- The type with a number is complete. -/
def complete (ledger : Ledger) (id : Nat) (type : ComplexType) : Ledger :=
  { ledger with
    reading :=
      { ledger.reading with
        types := ledger.reading.types.setIfInBounds id type
        unfinished := ledger.reading.unfinished.erase id } }

theorem getElem?_complete_of_ne {other : Nat} (differs : other ≠ id) :
    (ledger.complete id type).reading.types[other]? = ledger.reading.types[other]? :=
  Array.getElem?_setIfInBounds_ne differs.symm

theorem keeps_complete (isUnfinished : id ∈ ledger.reading.unfinished) :
    ledger.Keeps (ledger.complete id type) where
  named := fun _ _ known => known
  ofElements := fun _ _ known => known
  definitions := fun _ _ known => known
  types := by
    intro other found complete known
    have differs : other ≠ id := by
      rintro rfl
      exact complete isUnfinished
    rw [getElem?_complete_of_ne differs]
    exact ⟨fun member => complete (List.mem_of_mem_erase member), known⟩

/-- A type that is what its definition says can be completed. -/
theorem Sound.complete (sound : ledger.Sound all)
    (isUnfinished : id ∈ ledger.reading.unfinished)
    (isDefined : ledger.definitions[id]? = some definition)
    (defines : ledger.Henceforth (·.Defines all definition type)) :
    (ledger.complete id type).Sound all := by
  have keeps : ledger.Keeps (ledger.complete id type) := keeps_complete isUnfinished
  have own : (ledger.complete id type).reading.types[id]? = some type := by
    exact Array.getElem?_setIfInBounds_self_of_lt (sound.unfinished id isUnfinished)
  have size : (ledger.complete id type).reading.types.size = ledger.reading.types.size :=
    Array.size_setIfInBounds
  obtain ⟨named, within⟩ :=
    refines_of_defines sound.numbered sound.closed (defines ledger (.refl ledger))
  have earlier : ∀ other, other ∉ (ledger.complete id type).reading.unfinished →
      other = id ∨ other ∉ ledger.reading.unfinished := by
    intro other complete
    by_cases same : other = id
    · exact .inl same
    · exact .inr fun member => complete ((List.mem_erase_of_ne same).2 member)
  refine ⟨?_, sound.given, sound.named, sound.ofElements, sound.distinct.erase id, ?_, ?_,
    ?_, ?_⟩
  · rw [size]
    exact sound.size
  · rw [size]
    exact fun other member => sound.unfinished other (List.mem_of_mem_erase member)
  · intro other definition' found defined known
    by_cases same : other = id
    · subst same
      cases own.symm.trans known
      cases isDefined.symm.trans defined
      exact named
    · rw [getElem?_complete_of_ne same] at known
      exact sound.names other definition' found defined known
  · rw [size]
    intro other found complete known
    by_cases same : other = id
    · subst same
      cases own.symm.trans known
      exact within
    · rw [getElem?_complete_of_ne same] at known
      exact sound.closed other found ((earlier other complete).resolve_left same) known
  · intro final further other definition' found complete defined known
    by_cases same : other = id
    · subst same
      cases own.symm.trans known
      cases isDefined.symm.trans defined
      exact defines final (keeps.trans further)
    · rw [getElem?_complete_of_ne same] at known
      exact sound.defined final (keeps.trans further) other definition' found
        ((earlier other complete).resolve_left same) defined known

end Ledger

end XmlRecords
