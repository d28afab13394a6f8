import Mathlib.Data.List.Forall2
import XmlRecords.Association
import XmlRecords.Proofs.Translating

/-!
# Types are translations of their definitions

All readers of schema documents call each other, with a bounded number of steps, which
is what the induction is on.  Each comes to what the declaration in front of it means.
A type that is met again while it is being read is known by its number; as a base it
is refused then, so what a derivation takes over is complete.
-/

namespace XmlRecords

namespace Declarations

/-- Elements at the top are known by their own names. -/
def Keyed (all : Declarations) : Prop :=
  ∀ name declared, all.elements.lookup name = some declared →
    declared.node.attribute? "name" = some name.name ∧
      declared.setting.target = name.ns

/-- An element at the top is listed under its name and the target namespace. -/
theorem Keyed.lookup_elementName {all : Declarations} {declared : Declared}
    {name : String} (keyed : all.Keyed)
    (listed : ∃ key, all.elements.lookup key = some declared)
    (named : declared.node.attribute? "name" = some name) :
    all.elements.lookup (declared.elementName true name) = some declared := by
  obtain ⟨⟨ns, own⟩, found⟩ := listed
  obtain ⟨ownName, target⟩ := keyed _ declared found
  cases ownName.symm.trans named
  cases target
  exact found

theorem keyed_of_addSources {sources : List Source} {all : Declarations}
    (added : addSources {} sources = .ok all) : all.Keyed := by
  intro name declared found
  have listed : all.elements.lookup name =
      (sources.flatMap GlobalKind.element.entries).lookup name :=
    lookup_addSources added .element name
  rw [found] at listed
  obtain ⟨_, _, whole, _⟩ := List.lookup_eq_some_iff.1 listed.symm
  have member : (name, declared) ∈ sources.flatMap GlobalKind.element.entries := by
    rw [whole]
    simp
  obtain ⟨source, _, member⟩ := List.mem_flatMap.1 member
  obtain ⟨node, _, isEntry⟩ := List.mem_filterMap.1 member
  rw [GlobalKind.entry?] at isEntry
  split at isEntry
  · obtain ⟨own, named, same⟩ := Option.map_eq_some_iff.1 isEntry
    cases same
    exact ⟨named, rfl⟩
  · cases isEntry

end Declarations

namespace Reader

open Ledger

/-- A type that is begun is complete when the reader ends. -/
def Completes (all : Declarations) (id : Nat) (name : Option QName)
    (declared : Declared) (reader : Reader Unit) : Prop :=
  all.Reaches declared → ∀ ledger : Ledger, ledger.Sound all →
    id ∈ ledger.reading.unfinished → ledger.definitions[id]? = some ⟨name, declared⟩ →
      ∀ r, reader.run ledger.reading = .ok ((), r) →
        ∃ later : Ledger, later.reading = r ∧ later.Sound all ∧ ledger.Keeps later ∧
          later.reading.unfinished = ledger.reading.unfinished.erase id

/-- Within a number of steps, all readers come to what declarations mean. -/
structure AllGive (all : Declarations) (fuel : Nat) : Prop where
  typeRef : ∀ place setting name, Declared.RefersByName all place name →
    Gives all place (fun final ref => final.Denotes all name ref)
      (readTypeRef all fuel setting name)
  complexType : ∀ id name declared,
    Completes all id name declared (readComplexType all fuel id name declared)
  part : ∀ setting part type, Gives all ⟨setting, part⟩
    (fun final => final.AddsPart all ⟨setting, part⟩ type)
    (readPart all fuel setting part type)
  base : ∀ setting node, Gives all ⟨setting, node⟩
    (fun final => final.HasBase all ⟨setting, node⟩) (readBase all fuel setting node)
  complexContent : ∀ setting node type, Gives all ⟨setting, node⟩
    (fun final => Steps (fun derivation => final.AddsDerivation all ⟨setting, derivation⟩)
      node.components type)
    (readComplexContent all fuel setting node type)
  simpleContent : ∀ setting node type, Gives all ⟨setting, node⟩
    (fun final => Steps
      (fun derivation => final.AddsSimpleDerivation all ⟨setting, derivation⟩)
      node.components type)
    (readSimpleContent all fuel setting node type)
  element : ∀ declared isTop,
    (isTop = true → ∃ name, all.elements.lookup name = some declared) →
      Gives all declared (fun final => final.DeclaresElement all declared isTop)
        (readElementDecl all fuel declared isTop)
  particle : ∀ setting node, Gives all ⟨setting, node⟩
    (fun final => final.IsParticle all ⟨setting, node⟩)
    (readParticle all fuel setting node)
  particles : ∀ group, Gives all group
    (fun final => final.AreParticles all group.setting group.node.components)
    (readParticles all fuel group)
  attributeUse : ∀ setting node, Gives all ⟨setting, node⟩
    (fun final => final.UsesAttribute all ⟨setting, node⟩)
    (readAttributeUse all fuel setting node)
  attributeGroup : ∀ setting node type, Gives all ⟨setting, node⟩
    (fun final later => ∃ name group,
      Declared.named? ⟨setting, node⟩ "ref" = some name ∧
      all.attributeGroups.lookup name = some group ∧
      final.AddsParts all group.setting
        (group.node.components.filter fun part => isAttributePart part.name.name) type
        later)
    (readAttributeGroup all fuel setting node type)

variable {all : Declarations} {fuel : Nat} {place declared : Declared}
  {setting : Setting} {node : Xml.ScopedElement}

theorem addsParts_of_steps {ledger : Ledger} {parts : List Xml.ScopedElement}
    {type later : ComplexType}
    (steps : Steps (fun part => ledger.AddsPart all ⟨setting, part⟩) parts type later) :
    ledger.AddsParts all setting parts type later := by
  induction steps with
  | nil => exact .nil
  | cons first _ ih => exact .cons first ih

/-- Parts of a declaration are added one after the other. -/
theorem gives_parts (below : AllGive all fuel) (setting : Setting)
    (parts : List Xml.ScopedElement) (subset : parts ⊆ node.components)
    (type : ComplexType) :
    Gives all ⟨setting, node⟩ (fun final => final.AddsParts all setting parts type)
      (parts.foldlM (fun type part => readPart all fuel setting part type) type) := by
  refine .frame (.steps (fun part member type =>
    (below.part setting part type).refers (.part (subset member))) type) ?_
  exact fun _ _ _ steps => addsParts_of_steps steps

/-- A type with a definition is read into its place, and handed back. -/
theorem exists_later_of_begin (below : AllGive all fuel) {ledger : Ledger}
    (sound : ledger.Sound all) {definition : Definition}
    {named ofElements : List (QName × Nat)}
    (begun : (ledger.begin definition named ofElements).Sound all)
    (keeps : ledger.Keeps (ledger.begin definition named ofElements))
    (reaches : all.Reaches definition.declared) {α : Type} {result a : α} {r : Reading}
    (ended : (readComplexType all fuel ledger.reading.types.size definition.name
        definition.declared >>= fun _ => pure result).run
      (ledger.begin definition named ofElements).reading = .ok (a, r)) :
    a = result ∧ ∃ later : Ledger, later.reading = r ∧ ledger.Advances all later ∧
      (ledger.begin definition named ofElements).Keeps later := by
  obtain ⟨⟨⟩, between, read, ended⟩ := Run.bind_eq_ok.1 ended
  cases ended
  have defined : (ledger.begin definition named ofElements).definitions[
      ledger.reading.types.size]? = some ⟨definition.name, definition.declared⟩ := by
    rw [sound.getElem?_begin_definitions, if_pos rfl]
  obtain ⟨later, rfl, soundLater, further, unfinished⟩ :=
    below.complexType _ definition.name definition.declared reaches _ begun
      List.mem_cons_self defined _ read
  refine ⟨rfl, later, rfl, ⟨soundLater, keeps.trans further, ?_⟩, further⟩
  rw [unfinished]
  exact List.erase_cons_head _ _

theorem gives_readTypeRef (below : AllGive all fuel) (place : Declared)
    (setting : Setting) (name : QName) (refers : place.RefersByName all name) :
    Gives all place (fun final ref => final.Denotes all name ref)
      (readTypeRef all (fuel + 1) setting name) := by
  by_cases builtin : name.ns = some schemaNamespace
  · rw [readTypeRef, if_pos builtin]
    split
    · next any =>
        refine .pure fun _ _ => .anything ?_
        rw [← any, ← builtin]
    · next other => exact .pure fun _ _ => .builtin builtin other
  cases found : all.complexTypes.lookup name with
  | none =>
      rw [readTypeRef, if_neg builtin, found]
      dsimp only
      split
      · next declared simple =>
          exact .lift_bind fun datatype read =>
            .pure fun _ _ => .simple builtin found simple read
      · exact .fail setting _
  | some declared =>
      intro reaches ledger sound _ ref r ended
      rw [run_readTypeRef builtin found] at ended
      split at ended
      · next id known =>
          cases ended
          exact ⟨ledger, rfl, ⟨sound, .refl ledger, rfl⟩, fun final keeps =>
            .complex builtin found (keeps.named name id known)⟩
      · next unknown =>
          have reached := reaches.refers (refers declared found)
          have names : ∀ other id,
              ((name, ledger.reading.types.size) :: ledger.reading.named).lookup other =
                some id ↔ ledger.reading.named.lookup other = some id ∨
                  some name = some other ∧ id = ledger.reading.types.size := by
            intro other id
            constructor
            · intro known
              rcases Association.lookup_cons_cases known with ⟨rfl, rfl⟩ | known
              · exact .inr ⟨rfl, rfl⟩
              · exact .inl known
            · rintro (known | ⟨same, rfl⟩)
              · exact Association.lookup_cons_of_fresh unknown known
              · cases same
                exact List.lookup_cons_self
          have begun := sound.begin (.named reached found) names
            (fun _ _ known => known) (fun _ _ known => .inl known)
          have keeps : ledger.Keeps (ledger.begin ⟨some name, declared⟩ _ _) :=
            sound.keeps_begin (fun other id known => (names other id).2 (.inl known))
              (fun _ _ known => known)
          obtain ⟨rfl, later, rfl, advances, further⟩ :=
            exists_later_of_begin below sound begun keeps reached ended
          refine ⟨later, rfl, advances, fun final latest => ?_⟩
          exact .complex builtin found
            (latest.named name _ (further.named name _ List.lookup_cons_self))

theorem gives_readPart (below : AllGive all fuel) (setting : Setting)
    (part : Xml.ScopedElement) (type : ComplexType) :
    Gives all ⟨setting, part⟩ (fun final => final.AddsPart all ⟨setting, part⟩ type)
      (readPart all (fuel + 1) setting part type) := by
  have particle : part.name.name ∈ ["sequence", "choice", "all", "group"] →
      Gives all ⟨setting, part⟩ (fun final => final.AddsPart all ⟨setting, part⟩ type)
        (do return type.addContent (← readParticle all fuel setting part)) :=
    fun tag => .andThen (below.particle setting part) fun _ =>
      .pure fun _ means => .particle tag means
  rw [readPart]
  split
  · next tag => exact particle (by simp [tag])
  · next tag => exact particle (by simp [tag])
  · next tag => exact particle (by simp [tag])
  · next tag => exact particle (by simp [tag])
  · next tag =>
      refine .andThen (below.attributeUse setting part) fun use => ?_
      cases use with
      | some a => exact .pure fun _ means => .attribute tag means
      | none => exact .pure fun _ means => .prohibited tag means
  · next tag =>
      refine .frame (below.attributeGroup setting part type) ?_
      rintro final later _ ⟨name, group, referred, found, parts⟩
      exact .attributeGroup tag referred found parts
  · next tag => exact .pure fun _ _ => .anyAttribute tag
  · exact .pure fun _ _ => .other (by simp_all)

theorem gives_readBase (below : AllGive all fuel) (setting : Setting)
    (node : Xml.ScopedElement) :
    Gives all ⟨setting, node⟩ (fun final => final.HasBase all ⟨setting, node⟩)
      (readBase all (fuel + 1) setting node) := by
  rw [readBase]
  split
  · next noBase => exact .pure fun _ _ => .none noBase
  next base given =>
  refine .lift_bind fun name resolved => ?_
  have named : Declared.named? ⟨setting, node⟩ "base" = some name :=
    Declared.named?_eq_some given resolved
  split
  · next most => exact .pure fun _ _ => .anything (most ▸ named)
  next other =>
  refine .andThen (below.typeRef ⟨setting, node⟩ setting name
    (Declared.refersByName (.inr rfl) given resolved)) fun ref => ?_
  cases ref with
  | simple datatype =>
      exact .pure fun _ denotes => .some named other denotes (by simp)
  | complex id =>
      intro _ ledger sound holds base r ended
      rw [Run.get_bind] at ended
      split at ended
      · cases ended
      · next complete =>
          cases ended
          refine ⟨ledger, rfl, ⟨sound, .refl ledger, rfl⟩, fun final keeps => ?_⟩
          refine .some named other (holds final keeps) ?_
          rintro _ ⟨⟩
          obtain ⟨type, known⟩ := sound.exists_type_of_denotes
            (holds ledger (.refl ledger))
          exact (keeps.types id type (by simpa using complete) known).1

/-- The type with the number of a base is the same from here on. -/
theorem yields_typeAt {id : Nat} :
    Yields all place (fun final => final.HasBase all declared (some (.complex id)))
      (fun final base => final.reading.types[id]? = some base) (typeAt id) := by
  intro _ ledger sound holds base r ended
  cases ended
  refine ⟨ledger, rfl, ⟨sound, .refl ledger, rfl⟩, fun final keeps => ?_⟩
  have hasBase := holds ledger (.refl ledger)
  obtain ⟨type, known⟩ : ∃ type, ledger.reading.types[id]? = some type := by
    cases hasBase with
    | some _ _ denotes _ => exact sound.exists_type_of_denotes denotes
  rw [known]
  exact (keeps.types id type (not_unfinished_of_hasBase hasBase) known).2

theorem gives_readComplexContent (below : AllGive all fuel) (setting : Setting)
    (node : Xml.ScopedElement) (type : ComplexType) :
    Gives all ⟨setting, node⟩
      (fun final => Steps
        (fun derivation => final.AddsDerivation all ⟨setting, derivation⟩)
        node.components type)
      (readComplexContent all (fuel + 1) setting node type) := by
  rw [readComplexContent]
  refine .steps (fun derivation member type => ?_) type
  have toPart : Declared.Refers all ⟨setting, node⟩ ⟨setting, derivation⟩ :=
    .part member
  refine .refers (.andThen (below.base setting derivation) fun base => ?_) toPart
  have parts := gives_parts below setting derivation.components (List.Subset.refl _)
  dsimp only
  split
  · next kind =>
      refine .pure fun _ hasBase => .ignored ?_ hasBase
      simpa using kind
  · next kind =>
      split
      · next extension =>
          refine .step yields_typeAt fun base => ?_
          refine .frame (parts _) fun final later both parts => ?_
          exact .extension extension both.1 both.2 parts
      · next plain =>
          refine .frame (parts type) fun final later hasBase parts => ?_
          refine .plain ?_ hasBase parts
          by_cases restriction : derivation.name.name = "restriction"
          · exact .inl restriction
          · have extension : derivation.name.name = "extension" := by
              simpa [restriction] using kind
            exact .inr ⟨extension, fun id same => plain id extension same⟩

theorem gives_readSimpleContent (below : AllGive all fuel) (setting : Setting)
    (node : Xml.ScopedElement) (type : ComplexType) :
    Gives all ⟨setting, node⟩
      (fun final => Steps
        (fun derivation => final.AddsSimpleDerivation all ⟨setting, derivation⟩)
        node.components type)
      (readSimpleContent all (fuel + 1) setting node type) := by
  rw [readSimpleContent]
  refine .steps (fun derivation member type => ?_) type
  have toPart : Declared.Refers all ⟨setting, node⟩ ⟨setting, derivation⟩ :=
    .part member
  have attributes : ∀ type, Gives all ⟨setting, derivation⟩
      (fun final => final.AddsParts all setting
        (derivation.components.filter fun part => isAttributePart part.name.name) type)
      ((derivation.components.filter fun part =>
        isAttributePart part.name.name).foldlM (fun type part =>
          readPart all fuel setting part type) type) :=
    gives_parts below setting _ (fun _ member => (List.mem_filter.1 member).1)
  refine .refers (.andThen (below.base setting derivation) fun base => ?_) toPart
  split
  · exact .frame (attributes _) fun _ _ hasBase parts => .simple hasBase parts
  · refine .step yields_typeAt fun base => ?_
    exact .frame (attributes _) fun _ _ both parts =>
      .complex both.1 both.2 parts
  · exact .frame (attributes _) fun _ _ hasBase parts => .none hasBase parts

theorem gives_readAttributeGroup (below : AllGive all fuel) (setting : Setting)
    (node : Xml.ScopedElement) (type : ComplexType) :
    Gives all ⟨setting, node⟩
      (fun final later => ∃ name group,
        Declared.named? ⟨setting, node⟩ "ref" = some name ∧
        all.attributeGroups.lookup name = some group ∧
        final.AddsParts all group.setting
          (group.node.components.filter fun part => isAttributePart part.name.name) type
          later)
      (readAttributeGroup all (fuel + 1) setting node type) := by
  rw [readAttributeGroup]
  split
  · exact .fail setting _
  next reference given =>
  refine .lift_bind fun name resolved => .lift_bind fun group looked => ?_
  have referred : Declared.named? ⟨setting, node⟩ "ref" = some name :=
    Declared.named?_eq_some given resolved
  have found := Setting.lookup_eq_ok.1 looked
  have toGroup : Declared.Refers all ⟨setting, node⟩ group :=
    .reference (by simp) referred found
  refine .frame (.refers (gives_parts below group.setting _
    (fun _ member => (List.mem_filter.1 member).1) type) toGroup) ?_
  exact fun final later _ parts => ⟨name, group, referred, found, parts⟩

theorem gives_readParticles (below : AllGive all fuel) (group : Declared) :
    Gives all group
      (fun final => final.AreParticles all group.setting group.node.components)
      (readParticles all (fuel + 1) group) := by
  obtain ⟨setting, node⟩ := group
  rw [readParticles]
  refine .mapM fun part member => ?_
  exact (below.particle setting part).refers (.part member)

theorem gives_readParticle (below : AllGive all fuel) (setting : Setting)
    (node : Xml.ScopedElement) :
    Gives all ⟨setting, node⟩ (fun final => final.IsParticle all ⟨setting, node⟩)
      (readParticle all (fuel + 1) setting node) := by
  rw [readParticle]
  refine .lift_bind fun occurs often => ?_
  split
  · next tag =>
      exact .andThen (below.element ⟨setting, node⟩ false (by simp)) fun _ =>
        .pure fun _ declares => .element tag often declares
  · next tag =>
      split
      · exact .fail setting _
      next reference given =>
      refine .lift_bind fun name resolved => .lift_bind fun group looked => ?_
      have referred : Declared.named? ⟨setting, node⟩ "ref" = some name :=
        Declared.named?_eq_some given resolved
      have found := Setting.lookup_eq_ok.1 looked
      have toGroup : Declared.Refers all ⟨setting, node⟩ group :=
        .reference (by simp) referred found
      split
      · exact .fail group.setting _
      next body isBody =>
      have toBody : Declared.Refers all group ⟨group.setting, body⟩ :=
        .part (List.mem_of_find?_eq_some isBody)
      exact .andThen (((below.particles ⟨group.setting, body⟩).refers toBody).refers toGroup)
        fun _ => .pure fun _ parts => .group tag often referred found isBody parts
  · next tag => exact .pure fun _ _ => .wildcard tag often
  · next noElement noGroup noWildcard =>
      split
      · next isCompositor =>
          exact .andThen (below.particles ⟨setting, node⟩) fun _ =>
            .pure fun _ parts => .compositor isCompositor often parts
      · next noCompositor =>
          refine .pure fun _ _ => .unsupported ?_ (by simpa using noCompositor) often
          simpa using ⟨noElement, noGroup, noWildcard⟩

/-- The type of an attribute is that of its declaration, which may be one that is
referred to. -/
theorem gives_readAttributeUse (below : AllGive all fuel) (setting : Setting)
    (node : Xml.ScopedElement) :
    Gives all ⟨setting, node⟩ (fun final => final.UsesAttribute all ⟨setting, node⟩)
      (readAttributeUse all (fuel + 1) setting node) := by
  rw [readAttributeUse]
  extract_lets typed
  split
  · next use => exact .pure fun _ _ => .prohibited use
  next use =>
  have yields : ∀ declared name,
      DeclaresAttribute all ⟨setting, node⟩ declared name →
      Gives all declared (fun final => final.UsesAttribute all ⟨setting, node⟩)
        (typed (declared, name)) := by
    intro declared name declares
    dsimp only [typed]
    split
    · next _ _ value given =>
        refine .lift_bind fun type resolved => ?_
        have named := Declared.named?_eq_some given resolved
        refine .andThen (below.typeRef declared _ type
          (Declared.refersByName (.inl rfl) given resolved)) fun ref => ?_
        split
        · exact .pure fun _ denotes => .used use declares (.typed named denotes)
        · exact .lift_bind fun _ impossible => by cases impossible
    · next untyped inside =>
        exact .lift_bind fun datatype read =>
          .pure fun _ _ => .used use declares (.simple untyped inside read)
    · next untyped noSimple =>
        exact .pure fun _ _ => .used use declares (.text untyped noSimple)
  split
  · next reference given =>
      refine .lift_bind fun name resolved => .lift_bind fun declared looked => ?_
      have referred : Declared.named? ⟨setting, node⟩ "ref" = some name :=
        Declared.named?_eq_some given resolved
      have found := Setting.lookup_eq_ok.1 looked
      exact (yields declared name (.reference referred found)).refers
        (.reference (by simp) referred found)
  · next own named => exact yields ⟨setting, node⟩ _ (.own own named)
  · exact .lift_bind fun _ impossible => by cases impossible

/-- The type inside a declaration that has not been read is begun and read. -/
theorem exists_later_of_inside (below : AllGive all fuel) {ledger : Ledger}
    (sound : ledger.Sound all) (reaches : all.Reaches declared)
    {inner : Xml.ScopedElement}
    (inside : declared.node.component? "complexType" = some inner)
    {ofElements : List (QName × Nat)}
    (keepsElements : ∀ name id, ledger.reading.ofElements.lookup name = some id →
      ofElements.lookup name = some id)
    (elements : ∀ name id, ofElements.lookup name = some id →
      ledger.reading.ofElements.lookup name = some id ∨
        id = ledger.reading.types.size ∧ all.elements.lookup name = some declared)
    {element result : ElementDecl} {r : Reading}
    (ended : (readComplexType all fuel ledger.reading.types.size none
        ⟨declared.setting, inner⟩ >>= fun _ => pure result).run
      (ledger.begin ⟨none, ⟨declared.setting, inner⟩⟩ ledger.reading.named
        ofElements).reading = .ok (element, r)) :
    element = result ∧ ∃ later : Ledger, later.reading = r ∧ ledger.Advances all later ∧
      later.definitions[ledger.reading.types.size]? =
        some ⟨none, ⟨declared.setting, inner⟩⟩ ∧
      ∀ name id, ofElements.lookup name = some id →
        later.reading.ofElements.lookup name = some id := by
  have begun := sound.begin (.inside reaches inside)
    (fun name id => show ledger.reading.named.lookup name = some id ↔ _ by simp)
    keepsElements fun name id known => (elements name id known).imp_right
      fun ⟨new, found⟩ => ⟨new, declared, inner, found, inside, rfl⟩
  have keeps : ledger.Keeps
      (ledger.begin ⟨none, ⟨declared.setting, inner⟩⟩ ledger.reading.named ofElements) :=
    sound.keeps_begin (fun _ _ known => known) keepsElements
  obtain ⟨rfl, later, rfl, advances, further⟩ := exists_later_of_begin below sound begun
    keeps (reaches.refers (.part (List.mem_of_find?_eq_some inside))) ended
  refine ⟨rfl, later, rfl, advances, further.definitions _ _ ?_, further.ofElements⟩
  rw [sound.getElem?_begin_definitions, if_pos rfl]

theorem gives_readElementDecl (below : AllGive all fuel) (keyed : all.Keyed)
    (declared : Declared) (isTop : Bool)
    (listed : isTop = true → ∃ name, all.elements.lookup name = some declared) :
    Gives all declared (fun final => final.DeclaresElement all declared isTop)
      (readElementDecl all (fuel + 1) declared isTop) := by
  obtain ⟨setting, node⟩ := declared
  rw [readElementDecl]
  dsimp only
  split
  · next _ _ reference given =>
      refine .lift_bind fun name resolved => .lift_bind fun target looked => ?_
      have referred : Declared.named? ⟨setting, node⟩ "ref" = some name :=
        Declared.named?_eq_some given resolved
      have found := Setting.lookup_eq_ok.1 looked
      refine .frame (.refers (below.element target true fun _ => ⟨name, found⟩)
        (.reference (by simp) referred found)) ?_
      exact fun _ _ _ declares => .reference referred found declares
  · exact .fail setting _
  · next name own named =>
      split
      · next _ _ _ value given =>
          refine .lift_bind fun type resolved => ?_
          have typed : Declared.named? ⟨setting, node⟩ "type" = some type :=
            Declared.named?_eq_some given resolved
          refine .andThen (below.typeRef _ setting type
            (Declared.refersByName (.inl rfl) given resolved)) fun ref => ?_
          exact .pure fun _ denotes => .typed own named typed denotes
      · next _ _ _ inner untyped inside =>
          intro reaches ledger sound _ element r ended
          rw [Run.get_bind] at ended
          cases isTop with
          | false =>
              obtain ⟨rfl, later, rfl, advances, defined, _⟩ :=
                exists_later_of_inside below sound reaches inside (fun _ _ known => known)
                  (fun _ _ known => .inl known) ended
              refine ⟨later, rfl, advances, fun final keeps => ?_⟩
              exact .complex own named untyped inside (keeps.definitions _ _ defined)
                (by simp)
          | true =>
              have found := keyed.lookup_elementName (listed rfl) named
              rw [if_pos rfl] at ended
              split at ended
              · next id known =>
                  cases ended
                  refine ⟨ledger, rfl, ⟨sound, .refl ledger, rfl⟩, fun final keeps => ?_⟩
                  exact .complex own named untyped inside
                    (keeps.definitions _ _ (sound.defined_of_ofElements found inside known))
                    fun _ => keeps.ofElements _ id known
              · next unknown =>
                  obtain ⟨rfl, later, rfl, advances, defined, shared⟩ :=
                    exists_later_of_inside below sound reaches inside
                      (fun _ _ known => Association.lookup_cons_of_fresh unknown known)
                      (fun _ _ known => (Association.lookup_cons_cases known).elim
                        (fun ⟨same, new⟩ => .inr ⟨new, same ▸ found⟩) .inl)
                      ended
                  refine ⟨later, rfl, advances, fun final keeps => ?_⟩
                  exact .complex own named untyped inside (keeps.definitions _ _ defined)
                    fun _ => keeps.ofElements _ _ (shared _ _ List.lookup_cons_self)
      · next _ _ _ inner untyped noComplex inside =>
          exact .lift_bind fun datatype read =>
            .pure fun _ _ => .simple own named untyped noComplex inside read
      · next untyped noComplex noSimple =>
          exact .pure fun _ _ => .text own named untyped noComplex noSimple

/-- A type that is begun is completed by what its definition means. -/
theorem Yields.completes {reader : Reader ComplexType} {name : Option QName}
    (gives : Gives all declared (fun final => final.Defines all ⟨name, declared⟩) reader)
    (id : Nat) : Completes all id name declared (reader >>= complete id) := by
  intro reaches ledger sound isUnfinished isDefined r ended
  obtain ⟨type, between, read, ended⟩ := Run.bind_eq_ok.1 ended
  cases ended
  obtain ⟨later, rfl, advances, defines⟩ :=
    gives reaches ledger sound (fun _ _ => trivial) type between read
  have still : id ∈ later.reading.unfinished := advances.unfinished ▸ isUnfinished
  have defined := advances.keeps.definitions id _ isDefined
  refine ⟨later.complete id type, rfl, advances.sound.complete still defined defines,
    advances.keeps.trans (keeps_complete still), ?_⟩
  rw [← advances.unfinished]
  rfl

theorem completes_readComplexType (below : AllGive all fuel) (id : Nat)
    (name : Option QName) (declared : Declared) :
    Completes all id name declared (readComplexType all (fuel + 1) id name declared) := by
  obtain ⟨setting, node⟩ := declared
  rw [readComplexType]
  refine Yields.completes (.steps (fun part member type => ?_) _) id
  have toPart : Declared.Refers all ⟨setting, node⟩ ⟨setting, part⟩ := .part member
  split
  · next tag =>
      exact .frame (.refers (below.complexContent setting part type) toPart)
        fun _ _ _ each => .complex tag each
  · next tag =>
      exact .frame (.refers (below.simpleContent setting part type) toPart)
        fun _ _ _ each => .simple tag each
  · next noComplex noSimple =>
      exact .frame (.refers (below.part setting part type) toPart)
        fun _ _ _ adds => .part (fun kind => kind.elim noComplex noSimple) adds

theorem allGive_zero (all : Declarations) : AllGive all 0 := by
  refine ⟨?_, ?_, ?_, ?_, ?_, ?_, ?_, ?_, ?_, ?_, ?_⟩
  · intro place setting name _
    rw [readTypeRef]
    exact .fail setting _
  · intro id name declared _ ledger _ _ _ r ended
    rw [readComplexType] at ended
    cases ended
  · intro setting part type
    rw [readPart]
    exact .fail setting _
  · intro setting node
    rw [readBase]
    exact .fail setting _
  · intro setting node type
    rw [readComplexContent]
    exact .fail setting _
  · intro setting node type
    rw [readSimpleContent]
    exact .fail setting _
  · intro declared isTop _
    rw [readElementDecl]
    exact .fail declared.setting _
  · intro setting node
    rw [readParticle]
    exact .fail setting _
  · intro group
    rw [readParticles]
    exact .fail group.setting _
  · intro setting node
    rw [readAttributeUse]
    exact .fail setting _
  · intro setting node type
    rw [readAttributeGroup]
    exact .fail setting _

/-- All readers come to what declarations mean, whatever the number of steps. -/
theorem allGive (keyed : all.Keyed) (fuel : Nat) : AllGive all fuel := by
  induction fuel with
  | zero => exact allGive_zero all
  | succ fuel below =>
      exact {
        typeRef := gives_readTypeRef below
        complexType := completes_readComplexType below
        part := gives_readPart below
        base := gives_readBase below
        complexContent := gives_readComplexContent below
        simpleContent := gives_readSimpleContent below
        element := gives_readElementDecl below keyed
        particle := gives_readParticle below
        particles := gives_readParticles below
        attributeUse := gives_readAttributeUse below
        attributeGroup := gives_readAttributeGroup below }

/-- Elements at the top are read one after the other. -/
theorem gives_elements (keyed : all.Keyed) (fuel : Nat)
    {elements : List (QName × Declared)} (listed : elements ⊆ all.elements)
    (distinct : (all.elements.map (·.1)).Nodup) {ledger : Ledger}
    (sound : ledger.Sound all) {roots : List ElementDecl} {r : Reading}
    (ended : (elements.mapM fun ((_, declared) : QName × Declared) =>
      readElementDecl all fuel declared true).run ledger.reading = .ok (roots, r)) :
    ∃ later : Ledger, later.reading = r ∧ ledger.Advances all later ∧
      later.Henceforth fun final => List.Forall₂
        (fun entry root => final.DeclaresElement all entry.2 true root) elements
        roots := by
  induction elements generalizing ledger roots with
  | nil =>
      cases ended
      exact ⟨ledger, rfl, ⟨sound, .refl ledger, rfl⟩, fun _ _ => .nil⟩
  | cons first rest ih =>
      obtain ⟨own, declared⟩ := first
      rw [List.cons_subset] at listed
      rw [List.mapM_cons] at ended
      obtain ⟨root, _, read, ended⟩ := Run.bind_eq_ok.1 ended
      obtain ⟨others, _, further, ended⟩ := Run.bind_eq_ok.1 ended
      cases ended
      have found := Association.lookup_eq_some_of_mem distinct listed.1
      obtain ⟨between, rfl, advances, declares⟩ :=
        (allGive keyed fuel).element declared true (fun _ => ⟨own, found⟩)
          ⟨_, listed.1, .refl⟩ ledger sound (fun _ _ => trivial) root _ read
      obtain ⟨later, rfl, advances', each⟩ := ih listed.2 advances.sound further
      refine ⟨later, rfl, ⟨advances'.sound, advances.keeps.trans advances'.keeps,
        advances'.unfinished.trans advances.unfinished⟩, fun final keeps => ?_⟩
      exact .cons (declares final (advances'.keeps.trans keeps)) (each final keeps)

end Reader

end XmlRecords
