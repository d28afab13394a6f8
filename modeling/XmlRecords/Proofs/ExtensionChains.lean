import XmlRecords.Proofs.Inheritance
import XmlRecords.Proofs.PlannedGraph

/-!
# Chains of extensions

Each type of a chain extends the one in front of it.  An extension puts its content
behind that of its base, in one more sequence around both, which becomes fields of the
same record.  So the fields of the last type begin with those of the first, under the
same names, and go on with what each link of the chain adds.
-/

namespace XmlRecords

namespace Ledger

/-- The second type extends the first one in complex content. -/
def Extends (all : Declarations) (ledger : Ledger) (base id : Nat) : Prop :=
  ∃ definition derivation, ledger.definitions[id]? = some definition ∧
    definition.DerivesBy derivation ∧ derivation.isComplex = true ∧
    derivation.node.name.name = "extension" ∧
    ledger.HasBase all ⟨definition.declared.setting, derivation.node⟩
      (some (.complex base))

/-- The particles of its own that a derived type has, and what it says of
attributes. -/
structure Link where
  particles : List Particle
  items : List AttributeItem

/-- These are the parts of its own that the type has. -/
def Owns (all : Declarations) (ledger : Ledger) (id : Nat) (link : Link) : Prop :=
  ∃ definition derivation, ledger.definitions[id]? = some definition ∧
    definition.DerivesBy derivation ∧
    ledger.AreParticles all definition.declared.setting
      (derivation.parts.filter isContentPart) link.particles ∧
    ledger.ListsItems all definition.declared.setting derivation.parts link.items

end Ledger

theorem Particle.planAll_append (optional : Bool) (first second : List Particle) :
    Particle.planAll optional (first ++ second) =
      Particle.planAll optional first ++ Particle.planAll optional second := by
  induction first with
  | nil => rw [Particle.planAll, List.nil_append, List.nil_append]
  | cons particle rest ih =>
      rw [List.cons_append, Particle.planAll, Particle.planAll, ih, List.append_assoc]

/-- The fields of what all links add to content, one link after the other. -/
def ownPlans (links : List Ledger.Link) : List FieldPlan :=
  links.flatMap fun link => Particle.planAll false link.particles

/-- The attributes that links declare, one link after the other. -/
def ownUses (links : List Ledger.Link) : List AttributeUse :=
  links.flatMap fun link => usesOf link.items

/-- The last type of a chain has what the first one has, and all that links add. -/
structure ComplexType.Extended (first : ComplexType) (links : List Ledger.Link)
    (last : ComplexType) : Prop where
  text : last.simpleContent = first.simpleContent
  content : contentPlan last.content = contentPlan first.content ++ ownPlans links
  attributes : Redeclares first.attributes (ownUses links) last.attributes
  others : last.anyAttribute =
    (first.anyAttribute || links.any fun link => link.items.contains .anything)

theorem ComplexType.extended_adding (first : ComplexType) (links : List Ledger.Link)
    (name : Option QName) :
    first.Extended links { first.adding (links.flatMap (·.particles))
      (links.flatMap (·.items)) with name } where
  text := rfl
  content := by
    rw [adding, contentPlan_foldl_appendContent, ownPlans]
    congr 1
    induction links with
    | nil => rw [List.flatMap_nil, List.flatMap_nil, Particle.planAll]
    | cons link rest ih =>
        rw [List.flatMap_cons, List.flatMap_cons, Particle.planAll_append, ih]
  attributes := by
    rw [adding, ownUses, show (links.flatMap fun link => usesOf link.items) =
      usesOf (links.flatMap (·.items)) by simp [usesOf, List.filterMap_flatMap]]
    exact redeclares_redeclare _ _
  others := by simp [adding, List.any_eq, List.mem_flatMap]

namespace Components

open Ledger

variable {all : Declarations} {ledger : Ledger} {components : Components}

namespace Complete

/-- An extension is its base with the parts of its own. -/
theorem exists_link (complete : Complete all ledger components) {base id : Nat}
    (extends' : ledger.Extends all base id) :
    ∃ link name, ledger.Owns all id link ∧ components.typeAt id =
      { (components.typeAt base).adding link.particles link.items with name } := by
  obtain ⟨definition, derivation, defined, derives, complex, kind, hasBase⟩ := extends'
  obtain ⟨base', start, hasBase', begins, adds⟩ :=
    exists_begins_of_defines derives (complete.defines defined).2
  cases eq_complex_of_hasBase hasBase hasBase'
  obtain ⟨particles, items, are, lists, same⟩ := exists_adding_of_addsParts adds
  refine ⟨⟨particles, items⟩, definition.name,
    ⟨definition, derivation, defined, derives, are, lists⟩, ?_⟩
  cases begins with
  | bare _ no =>
      have bare := no.resolve_right fun none => none base rfl
      simp [Derivation.isBare, kind] at bare
  | extension _ _ =>
      rw [same, complete.typeAt_eq]
      rfl
  | simple simple => cases complex.symm.trans simple

/-- The last type of a chain is the first one with all that its links add. -/
theorem exists_links (complete : Complete all ledger components) {first : Nat}
    {ids : List Nat} (chain : (first :: ids).IsChain (ledger.Extends all)) :
    ∃ links name, List.Forall₂ (ledger.Owns all) ids links ∧
      components.typeAt ((first :: ids).getLast (List.cons_ne_nil _ _)) =
        { (components.typeAt first).adding (links.flatMap (·.particles))
            (links.flatMap (·.items)) with name } := by
  induction ids generalizing first with
  | nil =>
      exact ⟨[], (components.typeAt first).name, .nil,
        by simp [ComplexType.adding_nil]⟩
  | cons id rest ih =>
      rw [List.isChain_cons_cons] at chain
      obtain ⟨link, name, owns, same⟩ := complete.exists_link chain.1
      obtain ⟨links, last, ownsAll, sameAll⟩ := ih chain.2
      refine ⟨link :: links, last, .cons owns ownsAll, ?_⟩
      rw [List.getLast_cons (List.cons_ne_nil _ _), sameAll, same, List.flatMap_cons,
        List.flatMap_cons, ← ComplexType.adding_adding]
      rfl

/-- Types with different numbers have different names. -/
theorem namesDistinct (complete : Complete all ledger components) :
    components.NamesDistinct := by
  rw [NamesDistinct, List.Nodup, List.pairwise_filterMap, List.pairwise_iff_getElem]
  intro id other inside below before name named name' named' same
  subst same
  have apart := complete.apart id other _ _ name (Array.getElem?_eq_getElem (by simpa using inside))
    (Array.getElem?_eq_getElem (by simpa using below)) (by simpa using named)
    (by simpa using named')
  omega

end Complete

end Components

/-- Recognise the origins of fields for content. -/
def Origin.isOfContent : Origin → Bool
  | .element _ | .group | .elementWildcard => true
  | .attribute _ | .attributeWildcard | .text => false

section Plans

variable {plans more : List FieldPlan}

theorem Particle.isOfContent_of_mem_plan {particle : Particle} {optional : Bool}
    {plan : FieldPlan} (planned : plan ∈ particle.plan optional) :
    plan.origin.isOfContent = true := by
  rcases (particle.isFor_of_mem_plan planned).origin_cases with
    origin | origin | ⟨name, origin⟩ <;> rw [origin] <;> rfl

namespace ComplexType

/-- The fields for the text of a type. -/
def textPlan (type : ComplexType) : List FieldPlan :=
  type.simpleContent.toList.map .ofText

/-- The fields for the attributes of a type. -/
def attributePlan (type : ComplexType) : List FieldPlan :=
  type.attributes.map .ofAttribute ++
    if type.anyAttribute then [.ofWildcard .attributeWildcard] else []

theorem plan_eq (type : ComplexType) :
    type.plan = type.textPlan ++ contentPlan type.content ++ type.attributePlan := by
  rw [plan, textPlan, contentPlan, attributePlan, List.append_assoc]

theorem filter_textPlan (type : ComplexType) :
    type.textPlan.filter (·.origin.isOfContent) = [] := by
  rw [List.filter_eq_nil_iff]
  intro plan planned
  obtain ⟨datatype, _, rfl⟩ := List.mem_map.1 planned
  exact Bool.false_ne_true

theorem filter_attributePlan (type : ComplexType) :
    type.attributePlan.filter (·.origin.isOfContent) = [] := by
  rw [List.filter_eq_nil_iff]
  intro plan planned
  rcases List.mem_append.1 planned with planned | planned
  · obtain ⟨a, _, rfl⟩ := List.mem_map.1 planned
    exact Bool.false_ne_true
  · split at planned
    · obtain rfl := List.mem_singleton.1 planned
      exact Bool.false_ne_true
    · cases planned

theorem filter_plan (type : ComplexType) :
    type.plan.filter (·.origin.isOfContent) = contentPlan type.content := by
  have content : (contentPlan type.content).filter (·.origin.isOfContent) =
      contentPlan type.content := by
    rw [List.filter_eq_self]
    intro plan planned
    cases same : type.content with
    | none => simp [contentPlan, same] at planned
    | some particle =>
        rw [contentPlan, same] at planned
        exact Particle.isOfContent_of_mem_plan planned
  rw [plan_eq, List.filter_append, List.filter_append, content, filter_textPlan,
    filter_attributePlan, List.append_nil, List.nil_append]

end ComplexType

/-- What is left of a plan for its content is planned for the content alone. -/
theorem filter_mergePlans (plans more : List FieldPlan) :
    (mergePlans plans more).filter (·.origin.isOfContent) =
      mergePlans (plans.filter (·.origin.isOfContent))
        (more.filter (·.origin.isOfContent)) := by
  induction more generalizing plans with
  | nil => rfl
  | cons plan rest ih =>
      rw [mergePlans, List.foldl_cons, ← mergePlans, ih]
      cases content : plan.origin.isOfContent with
      | false =>
          rw [List.filter_cons_of_neg (by simp [content]), addPlan]
          split
          · rfl
          · simp [content]
      | true =>
          rw [List.filter_cons_of_pos (by simp [content]), mergePlans, mergePlans,
            List.foldl_cons, addPlan, addPlan, List.any_filter]
          have same : (plans.any fun other => other.origin.isOfContent &&
              other.origin == plan.origin) = plans.any (·.origin == plan.origin) := by
            congr 1
            funext other
            by_cases here : other.origin = plan.origin <;> simp [here, content]
          rw [same]
          split
          · rfl
          · simp [content]

/-- Plans that were merged stay in front. -/
theorem exists_mergePlans_eq_append (plans more : List FieldPlan) :
    ∃ rest ⊆ more, mergePlans plans more = plans ++ rest := by
  induction more generalizing plans with
  | nil => exact ⟨[], List.Subset.refl _, (List.append_nil plans).symm⟩
  | cons plan others ih =>
      obtain ⟨rest, within, same⟩ := ih (addPlan plans plan)
      rw [mergePlans, List.foldl_cons, ← mergePlans, same, addPlan]
      split
      · exact ⟨rest, List.subset_cons_of_subset _ within, rfl⟩
      · exact ⟨plan :: rest, List.cons_subset_cons _ within, by simp⟩

end Plans

theorem exists_append_of_forall₂ {α β : Type} {related : α → β → Prop}
    {front rest : List α} {ys : List β}
    (together : List.Forall₂ related (front ++ rest) ys) :
    ∃ kept others, ys = kept ++ others ∧ List.Forall₂ related front kept ∧
      List.Forall₂ related rest others := by
  induction front generalizing ys with
  | nil => exact ⟨[], ys, rfl, .nil, together⟩
  | cons x front ih =>
      cases together with
      | cons first further =>
          obtain ⟨kept, others, rfl, here, there⟩ := ih further
          exact ⟨_ :: kept, others, rfl, .cons first here, there⟩

namespace Namer

theorem exists_claimAll_append (namer : Namer) (first second : List String) :
    ∃ rest, (namer.claimAll (first ++ second)).1 = (namer.claimAll first).1 ++ rest := by
  induction first generalizing namer with
  | nil => exact ⟨_, rfl⟩
  | cons raw others ih =>
      obtain ⟨rest, same⟩ := ih (namer.claim raw).2
      refine ⟨rest, ?_⟩
      rw [List.cons_append, claimAll_cons, same, claimAll_cons, List.cons_append]

end Namer

namespace Graph

variable {components : Components} {graph graph' : Graph} {same : Nat → Nat → Prop}
  {roles roles' : Nat → Role} {id id' : Nat} {record record' : Record}

/-- The fields have one name and one origin, and what they hold was planned alike. -/
structure SharesShape (graph : Graph) (roles : Nat → Role) (graph' : Graph)
    (roles' : Nat → Role) (field field' : Field) : Prop where
  name : field'.name = field.name
  origin : field'.origin = field.origin
  shape : ∃ kind, graph.Realizes (· = ·) roles kind field.node ∧
    graph'.Realizes (· = ·) roles' kind field'.node

theorem sharesShape_of_keeps {plans : List FieldPlan} {fields fields' : List Field}
    (kept : List.Forall₂ (graph.Keeps (· = ·) roles) plans fields)
    (kept' : List.Forall₂ (graph'.Keeps (· = ·) roles') plans fields')
    (names : fields'.map (·.name) = fields.map (·.name)) :
    List.Forall₂ (graph.SharesShape roles graph' roles') fields fields' := by
  induction kept generalizing fields' with
  | nil =>
      cases kept'
      exact .nil
  | @cons plan field plans fields first _ ih =>
      cases kept' with
      | cons first' rest' =>
          rw [List.map_cons, List.map_cons, List.cons.injEq] at names
          exact .cons ⟨names.1, first'.1.trans first.1.symm, plan.kind, first.2, first'.2⟩
            (ih rest' names.2)

theorem forall₂_filter_isOfContent {plans : List FieldPlan} {fields : List Field}
    (kept : List.Forall₂ (graph.Keeps same roles) plans fields) :
    List.Forall₂ (graph.Keeps same roles) (plans.filter (·.origin.isOfContent))
      (fields.filter (·.origin.isOfContent)) := by
  refine List.rel_filter (fun plan field kept => ?_) kept
  show plan.origin.isOfContent = true ↔ field.origin.isOfContent = true
  rw [kept.1]

/-- The fields for content are planned by the content alone. -/
theorem Follows.content (follows : graph.Follows components same roles id record)
    {type : Nat} (role : roles id = .type type) :
    List.Forall₂ (graph.Keeps same roles)
      (mergePlans [] (contentPlan (components.typeAt type).content))
      (record.fields.filter (·.origin.isOfContent)) := by
  have kept := forall₂_filter_isOfContent follows.fields
  rwa [role, Components.plan, filter_mergePlans, Components.rolePlan,
    ComplexType.filter_plan] at kept

/-- The fields begin with those for the first plans, under names that do not depend on
the other plans. -/
theorem Follows.exists_front {front rest : List FieldPlan}
    (follows : graph.Follows components same roles id record)
    (planned : components.plan (roles id) = front ++ rest) :
    ∃ kept others, record.fields = kept ++ others ∧
      List.Forall₂ (graph.Keeps same roles) front kept ∧
      List.Forall₂ (graph.Keeps same roles) rest others ∧
      kept.map (·.name) = (({} : Namer).claimAll (front.map (·.raw))).1 := by
  have fields := follows.fields
  have names := follows.names
  rw [planned] at fields names
  obtain ⟨kept, others, split, here, there⟩ := exists_append_of_forall₂ fields
  obtain ⟨more, first⟩ :=
    Namer.exists_claimAll_append {} (front.map (·.raw)) (rest.map (·.raw))
  rw [List.map_append, first, split, List.map_append] at names
  have length : (kept.map (·.name)).length =
      (({} : Namer).claimAll (front.map (·.raw))).1.length := by
    rw [List.length_map, Namer.length_claimAll, List.length_map, here.length_eq]
  exact ⟨kept, others, split, here, there, (List.append_inj names length).1⟩

/-- Of two types with the same text, where the content of the second begins with that of
the first, the fields for the content of the first come back in the second. -/
theorem exists_sharesShape {components : Components} {roots roots' : List ElementDecl}
    {root root' first last : Nat} {more : List FieldPlan}
    (text : (components.typeAt last).simpleContent =
      (components.typeAt first).simpleContent)
    (content : contentPlan (components.typeAt last).content =
      contentPlan (components.typeAt first).content ++ more)
    (depicts : graph.Depicts components (· = ·) roots roles root)
    (depicts' : graph'.Depicts components (· = ·) roots' roles' root')
    (found : graph.record? id = some record) (role : roles id = .type first)
    (found' : graph'.record? id' = some record') (role' : roles' id' = .type last) :
    ∃ kept others,
      record'.fields.filter (·.origin.isOfContent) = kept ++ others ∧
      List.Forall₂ (graph.SharesShape roles graph' roles')
        (record.fields.filter (·.origin.isOfContent)) kept := by
  have follows := depicts.follows id record found
  have follows' := depicts'.follows id' record' found'
  let front := mergePlans [] ((components.typeAt first).textPlan ++
    contentPlan (components.typeAt first).content)
  obtain ⟨rest, within, merged⟩ :=
    exists_mergePlans_eq_append front (components.typeAt first).attributePlan
  obtain ⟨rest', _, merged'⟩ :=
    exists_mergePlans_eq_append front (more ++ (components.typeAt last).attributePlan)
  have planned : components.plan (roles id) = front ++ rest := by
    rw [role, Components.plan, Components.rolePlan, ComplexType.plan_eq,
      mergePlans_append, ← merged]
  have planned' : components.plan (roles' id') = front ++ rest' := by
    rw [role', Components.plan, Components.rolePlan, ComplexType.plan_eq, content,
      ComplexType.textPlan, text, ← ComplexType.textPlan, ← List.append_assoc,
      List.append_assoc, mergePlans_append, ← merged']
  obtain ⟨kept, others, split, here, there, names⟩ := follows.exists_front planned
  obtain ⟨kept', others', split', here', _, names'⟩ := follows'.exists_front planned'
  have alike := sharesShape_of_keeps here here' (names'.trans names.symm)
  -- What comes behind the content of the first type is for attributes.
  have none : others.filter (·.origin.isOfContent) = [] := by
    have lists : List.Forall₂ (graph.Keeps (· = ·) roles)
        (rest.filter (·.origin.isOfContent)) (others.filter (·.origin.isOfContent)) :=
      forall₂_filter_isOfContent there
    have nothing : rest.filter (·.origin.isOfContent) = [] := by
      rw [List.filter_eq_nil_iff]
      intro plan planned
      exact List.filter_eq_nil_iff.1 (components.typeAt first).filter_attributePlan plan
        (within planned)
    rwa [nothing, List.forall₂_nil_left_iff] at lists
  refine ⟨kept'.filter (·.origin.isOfContent), others'.filter (·.origin.isOfContent), ?_, ?_⟩
  · rw [split', List.filter_append]
  · rw [split, List.filter_append, none, List.append_nil]
    refine List.rel_filter (fun field field' shares => ?_) alike
    show field.origin.isOfContent = true ↔ field'.origin.isOfContent = true
    rw [shares.origin]

end Graph

namespace Components

open Ledger

/-- Chains of extensions are flattened in their order.  The last type of a chain has the
text of the first one, the content of the first one and that of each link in turn, and
the attributes of the first one after those of each link were declared, new or again.
In every graph of the components the fields for the content of the last type are just
those, where further wildcards are left out; and the fields for the content of the first
type, in this graph or another one, come first among them, under the same names and for
the same that they were planned for. -/
theorem extended_of_ofSources {sources : List Source} {components : Components}
    (read : ofSources sources = .ok components) :
    ∃ all ledger, Declarations.addSources {} sources = .ok all ∧
      ledger.Sound all ∧ Complete all ledger components ∧
      (∀ wanted graph, Graph.ofComponents components wanted = .ok graph →
        ∃ roots roles root, Lowering.chosenRoots components wanted = .ok roots ∧
          graph.Depicts components (· = ·) roots roles root) ∧
      ∀ (first : Nat) (ids : List Nat), (first :: ids).IsChain (ledger.Extends all) →
        ∃ (last : Nat) (links : List Link), (first :: ids).getLast? = some last ∧
          List.Forall₂ (ledger.Owns all) ids links ∧
          (components.typeAt first).Extended links (components.typeAt last) ∧
          ∀ (graph' : Graph) roots' roles' root' id' record',
            graph'.Depicts components (· = ·) roots' roles' root' →
            graph'.record? id' = some record' → roles' id' = .type last →
            List.Forall₂ (graph'.Keeps (· = ·) roles')
              (mergePlans [] (contentPlan (components.typeAt first).content ++
                ownPlans links)) (record'.fields.filter (·.origin.isOfContent)) ∧
            ∀ (graph : Graph) roots roles root id record,
              graph.Depicts components (· = ·) roots roles root →
              graph.record? id = some record → roles id = .type first →
              ∃ kept others,
                record'.fields.filter (·.origin.isOfContent) = kept ++ others ∧
                List.Forall₂ (graph.SharesShape roles graph' roles')
                  (record.fields.filter (·.origin.isOfContent)) kept := by
  obtain ⟨all, ledger, added, sound, complete⟩ := exists_complete_of_ofSources read
  refine ⟨all, ledger, added, sound, complete, fun wanted graph built =>
    Graph.exists_roles_of_ofComponents complete.namesDistinct built, ?_⟩
  intro first ids chain
  obtain ⟨links, name, owns, same⟩ := complete.exists_links chain
  have extended := ComplexType.extended_adding (components.typeAt first) links name
  rw [← same] at extended
  refine ⟨_, links, List.getLast?_eq_some_getLast (List.cons_ne_nil _ _), owns, extended,
    ?_⟩
  intro graph' roots' roles' root' id' record' depicts' found' role'
  constructor
  · have planned := (depicts'.follows id' record' found').content role'
    rwa [extended.content] at planned
  · intro graph roots roles root id record depicts found role
    exact Graph.exists_sharesShape extended.text extended.content depicts depicts' found
      role found' role'

end Components

theorem Components.exists_type_of_names {components : Components}
    {names : List (Option QName)} (same : components.types.toList.map (·.name) = names)
    (id : Nat) {name : Option QName} (listed : names[id]? = some name) :
    ∃ type, components.types[id]? = some type ∧ type.name = name := by
  rw [← same, List.getElem?_map, Array.getElem?_toList] at listed
  exact Option.map_eq_some_iff.1 listed

/-- The declaration of an element with text. -/
def textPart (name : String) : Xml.Tree :=
  schemaPart "element" [("name", name)] []

/-- Sections have a note and whatever else, chapters may have both once more, and parts
have an index behind all this. -/
def partSource : Source :=
  shapesSource [schemaPart "element" [("name", "part"), ("type", "part")] [],
    derivedPart "part" "complexContent" "extension" "chapter"
      [schemaPart "all" [] [textPart "index"], attributePart "id" [("use", "required")]],
    derivedPart "chapter" "complexContent" "extension" "section"
      [schemaPart "sequence" [("minOccurs", "0")] [textPart "note", schemaPart "any" [] []],
        attributePart "lang" []],
    schemaPart "complexType" [("name", "section")]
      [schemaPart "sequence" [] [textPart "note", schemaPart "any" [] []],
        attributePart "id" []]]

/-- Parts are sections with all that chapters and parts add. -/
theorem extended_part :
    ∃ components all ledger links, Components.ofSources [partSource] = .ok components ∧
      Components.Complete all ledger components ∧
      List.Forall₂ (ledger.Owns all) [1, 0] links ∧
      (components.typeAt 2).Extended links (components.typeAt 0) ∧
      (contentPlan (components.typeAt 0).content).map (·.raw) =
        ["note", "others", "note", "others", "index"] := by
  have checked : (Components.ofSources [partSource]).toOption.any (fun components =>
      components.types.toList.map (·.name) ==
          [some ⟨"part", none⟩, some ⟨"chapter", none⟩, some ⟨"section", none⟩] &&
        (contentPlan (components.typeAt 0).content).map (·.raw) ==
          ["note", "others", "note", "others", "index"]) = true := by
    decide +kernel
  cases read : Components.ofSources [partSource] with
  | error fault =>
      rw [read] at checked
      cases checked
  | ok components =>
      rw [read, Option.any_eq_true] at checked
      obtain ⟨_, ⟨⟩, checked⟩ := checked
      rw [Bool.and_eq_true, beq_iff_eq, beq_iff_eq] at checked
      obtain ⟨all, ledger, added, sound, complete, _, chains⟩ :=
        Components.extended_of_ofSources read
      obtain ⟨_, part, isPart⟩ := Components.exists_type_of_names checked.1 0 rfl
      obtain ⟨_, chapter, isChapter⟩ := Components.exists_type_of_names checked.1 1 rfl
      obtain ⟨_, section', isSection⟩ := Components.exists_type_of_names checked.1 2 rfl
      have chain : (2 :: [1, 0]).IsChain (ledger.Extends all) := by
        cases added
        rw [List.isChain_cons_cons, List.isChain_cons_cons]
        refine ⟨?_, ?_, .singleton 0⟩
        · obtain ⟨declared, defined, found⟩ :=
            complete.exists_definition sound chapter isChapter
          cases found
          exact ⟨_, _, defined,
            derivesBy_derivedPart _ _ "chapter" "section" _ (.inl rfl) (.inl rfl), rfl,
            rfl, complete.hasBase sound rfl (by decide) section' isSection⟩
        · obtain ⟨declared, defined, found⟩ :=
            complete.exists_definition sound part isPart
          cases found
          exact ⟨_, _, defined,
            derivesBy_derivedPart _ _ "part" "chapter" _ (.inl rfl) (.inl rfl), rfl, rfl,
            complete.hasBase sound rfl (by decide) chapter isChapter⟩
      obtain ⟨last, links, isLast, owns, extended, _⟩ := chains 2 [1, 0] chain
      cases isLast
      exact ⟨components, all, ledger, links, rfl, complete, owns, extended, checked.2⟩

end XmlRecords
