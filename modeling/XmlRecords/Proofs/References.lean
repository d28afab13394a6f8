import Mathlib.Logic.Relation
import XmlRecords.Components.Reading
import XmlRecords.Proofs.Runs

/-!
# References between declarations

A declaration refers to its parts and to what it names: to the types of elements
and attributes, to the bases of types, and to elements, attributes and groups.
Reading goes from a declaration to those that it refers to, and types that are
being read are those on the way.  A computation that keeps this leaves the types
that are being read as they are, and finds a type derived from itself only where
references lead from the type to such a derivation.
-/

namespace XmlRecords

open Relation (ReflTransGen)

namespace Declared

/-- The name that the value of an attribute stands for. -/
def named? (declared : Declared) (key : String) : Option QName :=
  (declared.node.attribute? key).bind fun value =>
    (declared.setting.resolve declared.node value).toOption

/-- A declaration refers to another one: to a part of itself, to a type, or to
what it names by reference. -/
inductive Refers (all : Declarations) : Declared → Declared → Prop where
  | part {setting : Setting} {node part : Xml.ScopedElement}
      (member : part ∈ node.components) :
      Refers all ⟨setting, node⟩ ⟨setting, part⟩
  | type {declared target : Declared} {key : String} {name : QName}
      (key_eq : key = "type" ∨ key = "base")
      (named : declared.named? key = some name)
      (found : all.complexTypes.lookup name = some target) :
      Refers all declared target
  | reference {declared target : Declared} {name : QName}
      {table : List (QName × Declared)}
      (known : table ∈ [all.elements, all.groups, all.attributeGroups,
        all.attributes])
      (named : declared.named? "ref" = some name)
      (found : table.lookup name = some target) : Refers all declared target

theorem named?_eq_some {declared : Declared} {key value : String} {name : QName}
    (given : declared.node.attribute? key = some value)
    (resolved : declared.setting.resolve declared.node value = .ok name) :
    declared.named? key = some name := by
  rw [named?, given, Option.bind_some, resolved]
  rfl

/-- If there is a complex type with the name, the declaration refers to it. -/
def RefersByName (all : Declarations) (declared : Declared) (name : QName) :
    Prop :=
  ∀ target, all.complexTypes.lookup name = some target →
    Refers all declared target

theorem refersByName {all : Declarations} {declared : Declared}
    {key value : String} {name : QName} (key_eq : key = "type" ∨ key = "base")
    (given : declared.node.attribute? key = some value)
    (resolved : declared.setting.resolve declared.node value = .ok name) :
    RefersByName all declared name :=
  fun _ found => .type key_eq (named?_eq_some given resolved) found

end Declared

theorem Setting.lookup_eq_ok {setting : Setting}
    {table : List (QName × Declared)} {kind : ComponentKind} {name : QName}
    {declared : Declared} :
    setting.lookup table kind name = .ok declared ↔
      table.lookup name = some declared := by
  rw [Setting.lookup]
  cases table.lookup name with
  | some found => simp
  | none => simp [Setting.fail]

/-- References lead from the complex type with a name to a derivation from that
type, in the document at a path. -/
def Declarations.Loops (all : Declarations) (path : String) (name : QName) :
    Prop :=
  ∃ type derivation, all.complexTypes.lookup name = some type ∧
    ReflTransGen (Declared.Refers all) type derivation ∧
    derivation.named? "base" = some name ∧ derivation.setting.path = path

/-- The part of a type holds derivations. -/
def Xml.ScopedElement.HoldsDerivations (part : Xml.ScopedElement) : Prop :=
  part.name.name = "complexContent" ∨ part.name.name = "simpleContent"

/-- The complex type with a name has a derivation from a base that is not built
in. -/
def Declarations.Derives (all : Declarations) (base name : QName) : Prop :=
  ∃ type part derivation, all.complexTypes.lookup name = some type ∧
    part ∈ type.node.components ∧ part.HoldsDerivations ∧
    derivation ∈ part.components ∧
    Declared.named? ⟨type.setting, derivation⟩ "base" = some base ∧
    base.ns ≠ some schemaNamespace

/-- Bases lead from the base of the derivation to an end. -/
def Declarations.Grounds (all : Declarations) (derivation : Declared) : Prop :=
  ∀ base, derivation.named? "base" = some base →
    base.ns ≠ some schemaNamespace → Acc all.Derives base

/-- If the part of a type holds derivations, bases lead to an end from all of
them. -/
def Declarations.GroundsPart (all : Declarations) (setting : Setting)
    (part : Xml.ScopedElement) : Prop :=
  part.HoldsDerivations →
    ∀ derivation ∈ part.components, all.Grounds ⟨setting, derivation⟩

/-- A type from which bases lead to an end is not reached from itself. -/
theorem Declarations.not_derives_self {all : Declarations} {name : QName}
    (grounded : Acc all.Derives name) :
    ¬ Relation.TransGen all.Derives name name := by
  replace grounded := grounded.transGen
  induction grounded with
  | intro name _ ih => exact fun around => ih name around around

/-- The outcome is not that a type is derived from itself. -/
def Blameless {α : Type} (outcome : Except Error α) : Prop :=
  ∀ path name, outcome ≠ .error (.load path (.selfDerived name))

namespace Blameless

variable {α β : Type}

theorem ok (a : α) : Blameless (.ok a) := by
  rintro path name ⟨⟩

theorem fail {setting : Setting} {fault : LoadFault}
    (other : ∀ name, fault ≠ .selfDerived name) :
    Blameless (setting.fail fault : Except Error α) := by
  intro path name same
  cases same
  exact other name rfl

theorem bind {x : Except Error α} {next : α → Except Error β}
    (first : Blameless x) (rest : ∀ a, Blameless (next a)) :
    Blameless (x >>= next) := by
  cases x with
  | error e =>
      intro path name same
      cases same
      exact first path name rfl
  | ok a => exact rest a

theorem map {x : Except Error α} (first : Blameless x) (f : α → β) :
    Blameless (f <$> x) := by
  cases x with
  | error e =>
      intro path name same
      cases same
      exact first path name rfl
  | ok a => exact ok (f a)

theorem resolve (setting : Setting) (node : Xml.ScopedElement) (value : String) :
    Blameless (setting.resolve node value) := by
  rw [Setting.resolve]
  split
  · dsimp only
    split
    · exact ok _
    · exact fail (by simp)
  · exact ok _

theorem lookup (setting : Setting) (table : List (QName × Declared))
    (kind : ComponentKind) (name : QName) :
    Blameless (setting.lookup table kind name) := by
  rw [Setting.lookup]
  split
  · exact ok _
  · exact fail (by simp)

theorem readOccurs (setting : Setting) (node : Xml.ScopedElement) :
    Blameless (readOccurs setting node) := by
  rw [XmlRecords.readOccurs]
  dsimp only
  repeat' split
  all_goals
    refine bind (by first | exact ok _ | exact fail (by simp)) fun _ => ?_
    exact bind (by first | exact ok _ | exact fail (by simp)) fun _ => ok _

theorem firstDatatype {step : Xml.ScopedElement → Except Error (Option Datatype)}
    (each : ∀ part, Blameless (step part)) (parts : List Xml.ScopedElement) :
    Blameless (firstDatatype step parts) := by
  induction parts with
  | nil => exact ok _
  | cons part rest ih =>
      rw [XmlRecords.firstDatatype]
      refine bind (each part) fun found => ?_
      split
      · exact ok _
      · exact ih

theorem readSimpleType (all : Declarations) (fuel : Nat) (declared : Declared) :
    Blameless (readSimpleType all fuel declared) := by
  induction fuel generalizing declared with
  | zero =>
      rw [XmlRecords.readSimpleType]
      exact fail (by simp)
  | succ fuel ih =>
      obtain ⟨setting, node⟩ := declared
      rw [XmlRecords.readSimpleType]
      refine firstDatatype (fun part => ?_) node.components
      split
      · split
        · refine bind (resolve _ _ _) fun name => ?_
          split
          · exact ok _
          · exact bind (lookup _ _ _ _) fun declared =>
              bind (ih declared) fun datatype => ok _
        · exact map (ih _) _
        · exact ok _
      · exact ok _
      · exact ok _
      · exact ok _

end Blameless

/-- References lead from each type that is being read under a name to the
declaration at hand.  Numbers are below that of the next type. -/
structure Reading.Leads (all : Declarations) (place : Declared) (r : Reading) :
    Prop where
  unfinished : ∀ id ∈ r.unfinished, id < r.types.size
  named : ∀ name id, r.named.lookup name = some id → id < r.types.size
  leads : ∀ name id, r.named.lookup name = some id → id ∈ r.unfinished →
    ∃ type, all.complexTypes.lookup name = some type ∧
      ReflTransGen (Declared.Refers all) type place

/-- Later the same types are being read, and no name stands for another type.
Names that are new stand for types that are new. -/
structure Reading.Continues (r later : Reading) : Prop where
  unfinished : later.unfinished = r.unfinished
  grows : r.types.size ≤ later.types.size
  keeps : ∀ name id, r.named.lookup name = some id →
    later.named.lookup name = some id
  adds : ∀ name id, later.named.lookup name = some id →
    r.named.lookup name = some id ∨ r.types.size ≤ id ∧ id < later.types.size

/-- Bases lead to an end from all types with names but those that are being read,
and the names of types are known. -/
structure Reading.Settled (all : Declarations) (r : Reading) : Prop where
  grounded : ∀ name id, r.named.lookup name = some id → id ∉ r.unfinished →
    Acc all.Derives name
  names : ∀ type ∈ r.types, ∀ name, type.name = some name →
    ∃ id, r.named.lookup name = some id

/-- What a name stands for once it has been read: for the complex type that has
been read under the name, or for a simple type if there is none. -/
inductive Reading.StandsFor (all : Declarations) (r : Reading) (name : QName) :
    TypeRef → Prop where
  | simple {datatype : Datatype}
      (plain : name.ns = some schemaNamespace ∨
        all.complexTypes.lookup name = none) :
      StandsFor all r name (.simple datatype)
  | complex {id : Nat} (known : r.named.lookup name = some id) :
      StandsFor all r name (.complex id)

namespace Reading

variable {all : Declarations} {place next : Declared} {r later last : Reading}

theorem Continues.refl (r : Reading) : r.Continues r :=
  ⟨rfl, Nat.le_refl _, fun _ _ found => found, fun _ _ found => .inl found⟩

theorem Continues.trans (first : r.Continues later)
    (second : later.Continues last) : r.Continues last where
  unfinished := second.unfinished.trans first.unfinished
  grows := Nat.le_trans first.grows second.grows
  keeps := fun name id found => second.keeps name id (first.keeps name id found)
  adds := by
    intro name id found
    have below := second.grows
    have above := first.grows
    rcases second.adds name id found with found | ⟨new, inside⟩
    · rcases first.adds name id found with found | ⟨new, inside⟩
      · exact .inl found
      · exact .inr ⟨new, by omega⟩
    · exact .inr ⟨by omega, inside⟩

theorem Leads.continue (leads : r.Leads all place) (continues : r.Continues later) :
    later.Leads all place where
  unfinished := by
    rw [continues.unfinished]
    exact fun id member =>
      Nat.lt_of_lt_of_le (leads.unfinished id member) continues.grows
  named := by
    intro name id found
    rcases continues.adds name id found with found | ⟨_, inside⟩
    · exact Nat.lt_of_lt_of_le (leads.named name id found) continues.grows
    · exact inside
  leads := by
    intro name id found member
    rw [continues.unfinished] at member
    rcases continues.adds name id found with found | ⟨new, _⟩
    · exact leads.leads name id found member
    · have inside := leads.unfinished id member
      omega

theorem Leads.refers (leads : r.Leads all place)
    (refers : place.Refers all next) : r.Leads all next where
  unfinished := leads.unfinished
  named := leads.named
  leads := by
    intro name id found member
    obtain ⟨type, declared, way⟩ := leads.leads name id found member
    exact ⟨type, declared, way.tail refers⟩

end Reading

namespace Reader

/-- What comes of reading from a state on: the types that are being read are kept,
bases lead to an end from those that were read, and none is found derived from
itself unless references lead from it to such a derivation. -/
structure SoundAt {α : Type} (all : Declarations) (r : Reading)
    (outcome : Except Error (α × Reading)) : Prop where
  continues : ∀ a later, outcome = .ok (a, later) → r.Continues later
  settles : ∀ a later, r.Settled all → outcome = .ok (a, later) →
    later.Settled all
  loops : ∀ path name, outcome = .error (.load path (.selfDerived name)) →
    all.Loops path name

namespace SoundAt

variable {α β : Type} {all : Declarations} {r : Reading}

theorem ok (a : α) (r : Reading) : SoundAt all r (.ok (a, r)) where
  continues := by
    rintro _ _ ⟨⟩
    exact .refl r
  settles := by
    rintro _ _ settled ⟨⟩
    exact settled
  loops := by
    rintro _ _ ⟨⟩

theorem error {e : Error}
    (loops : ∀ path name, e = .load path (.selfDerived name) →
      all.Loops path name) :
    SoundAt all r (.error e : Except Error (α × Reading)) where
  continues := by
    rintro _ _ ⟨⟩
  settles := by
    rintro _ _ _ ⟨⟩
  loops := by
    rintro path name ⟨⟩
    exact loops path name rfl

theorem bind {reader : Reader α} {rest : α → Reader β}
    (first : SoundAt all r (reader.run r))
    (second : ∀ a later, reader.run r = .ok (a, later) →
      SoundAt all later ((rest a).run later)) :
    SoundAt all r ((reader >>= rest).run r) where
  continues := by
    intro b last ended
    obtain ⟨a, later, here, there⟩ := Run.bind_eq_ok.1 ended
    exact (first.continues a later here).trans
      ((second a later here).continues b last there)
  settles := by
    intro b last settled ended
    obtain ⟨a, later, here, there⟩ := Run.bind_eq_ok.1 ended
    exact (second a later here).settles b last
      (first.settles a later settled here) there
  loops := by
    intro path name ended
    rcases Run.bind_eq_error.1 ended with here | ⟨a, later, here, there⟩
    · exact first.loops path name here
    · exact (second a later here).loops path name there

end SoundAt

/-- From a declaration on, whatever comes of the reader is sound. -/
def Sound {α : Type} (all : Declarations) (place : Declared) (reader : Reader α) :
    Prop :=
  ∀ r, r.Leads all place → SoundAt all r (reader.run r)

namespace Sound

variable {α β : Type} {all : Declarations} {place next : Declared}

theorem pure (a : α) : Sound all place (Pure.pure a : Reader α) :=
  fun r _ => .ok a r

theorem bind {reader : Reader α} {rest : α → Reader β}
    (first : Sound all place reader) (second : ∀ a, Sound all place (rest a)) :
    Sound all place (reader >>= rest) := by
  intro r leads
  refine .bind (first r leads) fun a later here => second a later ?_
  exact leads.continue ((first r leads).continues a later here)

/-- What is found in front of a reader is known to it. -/
theorem lift_bind {outcome : Except Error α} {rest : α → Reader β}
    (blameless : Blameless outcome)
    (each : ∀ a, outcome = .ok a → Sound all place (rest a)) :
    Sound all place (liftM outcome >>= rest) := by
  cases outcome with
  | ok a => exact each a rfl
  | error e =>
      refine fun r _ => .error fun path name same => ?_
      exact absurd (congrArg _ same) (blameless path name)

theorem lift {outcome : Except Error α} (blameless : Blameless outcome) :
    Sound all place (liftM outcome : Reader α) := by
  have done : Sound all place
      (liftM outcome >>= fun a => Pure.pure a : Reader α) :=
    lift_bind blameless fun a _ => pure a
  rwa [bind_pure] at done

theorem get_bind {rest : Reading → Reader β}
    (each : ∀ r, Sound all place (rest r)) :
    Sound all place (get >>= rest) :=
  fun r => each r r

/-- What is sound from a declaration on is sound from those on that refer to
it. -/
theorem refers {reader : Reader α} (sound : Sound all next reader)
    (refers : place.Refers all next) : Sound all place reader :=
  fun r leads => sound r (leads.refers refers)

theorem foldlM {step : β → α → Reader β} {items : List α}
    (each : ∀ item ∈ items, ∀ b, Sound all place (step b item)) (start : β) :
    Sound all place (items.foldlM step start) := by
  induction items generalizing start with
  | nil => exact pure start
  | cons item rest ih =>
      rw [List.foldlM_cons]
      refine bind (each item List.mem_cons_self start) fun b => ?_
      exact ih (fun item member => each item (List.mem_cons_of_mem _ member)) b

theorem mapM {step : α → Reader β} {items : List α}
    (each : ∀ item ∈ items, Sound all place (step item)) :
    Sound all place (items.mapM step) := by
  induction items with
  | nil => exact pure []
  | cons item rest ih =>
      rw [List.mapM_cons]
      refine bind (each item List.mem_cons_self) fun b => ?_
      exact bind (ih fun item member => each item (List.mem_cons_of_mem _ member))
        fun others => pure (b :: others)

end Sound

/-- Where the reader ends, the statement holds. -/
def Ensures {α : Type} (all : Declarations) (place : Declared) (p : Prop)
    (reader : Reader α) : Prop :=
  ∀ r a later, r.Leads all place → r.Settled all →
    reader.run r = .ok (a, later) → p

namespace Ensures

variable {α β : Type} {all : Declarations} {place next : Declared} {p : Prop}

theorem bind {reader : Reader α} (ensures : Ensures all place p reader)
    (rest : α → Reader β) : Ensures all place p (reader >>= rest) := by
  intro r b last leads settled ended
  obtain ⟨a, later, here, _⟩ := Run.bind_eq_ok.1 ended
  exact ensures r a later leads settled here

theorem lift_bind {outcome : Except Error α} {rest : α → Reader β}
    (each : ∀ a, outcome = .ok a → Ensures all place p (rest a)) :
    Ensures all place p (liftM outcome >>= rest) := by
  cases outcome with
  | ok a => exact each a rfl
  | error e =>
      intro r b later _ _ ended
      cases ended

theorem refers {reader : Reader α} (ensures : Ensures all next p reader)
    (refers : place.Refers all next) : Ensures all place p reader :=
  fun r a later leads => ensures r a later (leads.refers refers)

theorem mono {q : Prop} {reader : Reader α} (ensures : Ensures all place p reader)
    (implies : p → q) : Ensures all place q reader :=
  fun r a later leads settled ended =>
    implies (ensures r a later leads settled ended)

theorem foldlM (each : α → Prop) {step : β → α → Reader β} {items : List α}
    (holds : ∀ item ∈ items, ∀ b, Sound all place (step b item) ∧
      Ensures all place (each item) (step b item)) (start : β) :
    Sound all place (items.foldlM step start) ∧
      Ensures all place (∀ item ∈ items, each item) (items.foldlM step start) := by
  refine ⟨.foldlM (fun item member b => (holds item member b).1) start, ?_⟩
  induction items generalizing start with
  | nil => exact fun _ _ _ _ _ _ item member => absurd member List.not_mem_nil
  | cons item rest ih =>
      intro r b last leads settled ended
      rw [List.foldlM_cons] at ended
      obtain ⟨a, later, here, there⟩ := Run.bind_eq_ok.1 ended
      obtain ⟨sound, first⟩ := holds item List.mem_cons_self start
      have others := ih
        (fun item member => holds item (List.mem_cons_of_mem _ member)) a
      rw [List.forall_mem_cons]
      exact ⟨first r a later leads settled here, others later b last
        (leads.continue ((sound r leads).continues a later here))
        ((sound r leads).settles a later settled here) there⟩

end Ensures

/-- All that the reader comes to has the property. -/
def Returns {α : Type} (p : α → Prop) (reader : Reader α) : Prop :=
  ∀ r a later, reader.run r = .ok (a, later) → p a

namespace Returns

variable {α β : Type} {p : α → Prop}

theorem pure {a : α} (holds : p a) : Returns p (Pure.pure a : Reader α) := by
  intro r b later ended
  obtain ⟨rfl, rfl⟩ := Run.pure_eq_ok.1 ended
  exact holds

theorem bind (reader : Reader β) {rest : β → Reader α}
    (each : ∀ b, Returns p (rest b)) : Returns p (reader >>= rest) := by
  intro r a last ended
  obtain ⟨b, later, _, there⟩ := Run.bind_eq_ok.1 ended
  exact each b later a last there

theorem fail (setting : Setting) (fault : LoadFault) :
    Returns p (liftM (setting.fail fault : Except Error α) : Reader α) := by
  intro r a later ended
  cases ended

theorem foldlM {step : α → β → Reader α} {items : List β}
    (each : ∀ a b, p a → Returns p (step a b)) {start : α} (holds : p start) :
    Returns p (items.foldlM step start) := by
  induction items generalizing start with
  | nil => exact pure holds
  | cons item rest ih =>
      intro r a last ended
      rw [List.foldlM_cons] at ended
      obtain ⟨b, later, here, there⟩ := Run.bind_eq_ok.1 ended
      exact ih (each start item holds r b later here) later a last there

end Returns

end Reader

end XmlRecords
