import XmlRecords.Proofs.Scopes

/-!
# Drafts of records

Every step of lowering keeps that the records follow their roles and that the
tables lead to the records that they were made for.  A record whose fields are
still being made is open; its fields so far are the planned ones, and those for
an open type lead to the record of that.  A record that is completed gets these
fields and follows its role from then on.
-/

namespace XmlRecords

open Lowering

namespace Namer

theorem claimAll_concat (namer : Namer) (raws : List String) (raw : String) :
    namer.claimAll (raws ++ [raw]) =
      ((namer.claimAll raws).1 ++ [((namer.claimAll raws).2.claim raw).1],
        ((namer.claimAll raws).2.claim raw).2) := by
  induction raws generalizing namer with
  | nil => simp [claimAll]
  | cons first rest ih => simp [claimAll, ih]

end Namer

namespace Lowering

variable {components : Components} {same : Nat → Nat → Prop}
  {graph later : Graph} {roles roles' : Nat → Role} {scope : List (Nat × Nat)}
  {start : Nat}

/-- The fields of a record so far are the planned ones and heed the open types,
and all records from a number on are behind them. -/
structure Drafted (graph : Graph) (same : Nat → Nat → Prop) (roles : Nat → Role)
    (scope : List (Nat × Nat)) (start : Nat) (all : Fields)
    (plans : List FieldPlan) : Prop where
  claimed : ({} : Namer).claimAll (plans.map (·.raw)) =
    (all.fields.map (·.name), all.namer)
  fields : List.Forall₂ (graph.Keeps same roles) plans all.fields
  heeds : ∀ type target, scope.lookup type = some target →
    List.Forall₂ (fun plan field =>
        graph.Heeds type target plan.kind field.node) plans all.fields
  covered : graph.Covered start (all.fields.map (·.node))

namespace Drafted

variable {all : Fields} {plans : List FieldPlan}

theorem nothing (graph : Graph) (same : Nat → Nat → Prop) (roles : Nat → Role)
    (scope : List (Nat × Nat)) (outside : graph.nodes.size ≤ start) :
    Drafted graph same roles scope start {} [] :=
  ⟨rfl, .nil, fun _ _ _ => .nil, .of_size_le graph _ outside⟩

/-- A draft can wait until its record is begun. -/
theorem mono {newStart : Nat}
    (drafted : Drafted graph same roles scope start all plans)
    (growth : graph.Continues roles later roles')
    (outside : later.nodes.size ≤ newStart) :
    Drafted later same roles' scope newStart all plans where
  claimed := drafted.claimed
  fields := drafted.fields.imp fun _ _ => growth.keeps
  heeds := fun type target known =>
    (drafted.heeds type target known).imp fun _ _ => .mono growth.grows
  covered := .of_size_le later _ outside

/-- A planned field is pushed as soon as there is a node for it. -/
theorem push {opened : List Nat}
    (drafted : Drafted graph same roles scope start all plans)
    (growth : graph.Continues roles later roles')
    (settled : graph.Settled opened later) (inside : start ≤ graph.nodes.size)
    (before : ∀ id ∈ opened, id < start) (plan : FieldPlan)
    (texts : plan.isWildcard → plan.kind = .texts) {node : Nat}
    (suits : later.Suits same roles' scope graph.nodes.size plan.kind node) :
    Drafted later same roles' scope start (all.push plan.raw plan.origin node)
      (addPlan plans plan) := by
  have fields := drafted.fields.imp fun _ _ => growth.keeps
  have heeds : ∀ type target, scope.lookup type = some target →
      List.Forall₂ (fun plan field =>
        later.Heeds type target plan.kind field.node) plans all.fields :=
    fun type target known =>
      (drafted.heeds type target known).imp fun _ _ => .mono growth.grows
  have covered := drafted.covered.extend growth.grows settled inside before
    suits.covered
  rw [Fields.push, addPlan, Graph.any_origin_eq drafted.fields,
    FieldPlan.isWildcard]
  split
  · next merged =>
      have isWildcard : plan.isWildcard := (Bool.and_eq_true_iff.1 merged).1
      have realizes := suits.realizes
      rw [texts isWildcard] at realizes
      obtain ⟨values, found, _⟩ := realizes
      exact ⟨drafted.claimed, fields, heeds, covered.drop found rfl (by simp)⟩
  · constructor
    · rw [List.map_append, List.map_singleton, Namer.claimAll_concat,
        drafted.claimed]
      simp
    · exact List.rel_append fields (.cons ⟨rfl, suits.realizes⟩ .nil)
    · intro type target known
      exact List.rel_append (heeds type target known)
        (.cons (suits.heeds type target known) .nil)
    · rwa [List.map_append]

end Drafted

/-- What lowering keeps besides: the tables lead to records for what they are
asked for, and to each that is for a type with a name, and every record follows
its role, except those whose fields are still being made. -/
structure Builder.Planned (components : Components) (same : Nat → Nat → Prop)
    (b : Builder) (roles : Nat → Role) (opened : List Nat) : Prop where
  interned : b.graph.Interned b.primitives
  named : ∀ name id, b.named.lookup name = some id →
    ∃ r type, b.graph.record? id = some r ∧ roles id = .type type ∧
      (components.typeAt type).name = some name
  anonymous : ∀ type id, b.anonymous.lookup type = some id →
    ∃ r, b.graph.record? id = some r ∧ roles id = .type type ∧
      (components.typeAt type).name = none
  listed : ∀ id r type name, b.graph.record? id = some r →
    roles id = .type type → (components.typeAt type).name = some name →
      r.name = some name ∧ b.named.lookup name = some id
  sources : ∀ id r, b.graph.record? id = some r → r.source = (roles id).source
  follows : ∀ id r, b.graph.record? id = some r → id ∉ opened →
    b.graph.Follows components same roles id r
  nested : b.Scoped components roles opened

namespace Builder.Planned

variable {b c : Builder} {opened : List Nat} {id : Nat}

theorem empty (components : Components) (same : Nat → Nat → Prop)
    (roles : Nat → Role) :
    ({} : Builder).Planned components same roles [] where
  interned := .empty
  named := by simp
  anonymous := by simp
  listed := by simp [Graph.record?, Graph.node?]
  sources := by simp [Graph.record?, Graph.node?]
  follows := by simp [Graph.record?, Graph.node?]
  nested := .empty components roles

/-- The tables are kept while the graph grows, and may get new entries. -/
theorem tables (planned : b.Planned components same roles opened)
    (growth : b.graph.Continues roles c.graph roles')
    (named : ∀ name id, c.named.lookup name = some id →
      b.named.lookup name = some id ∨
        ∃ r type, c.graph.record? id = some r ∧ roles' id = .type type ∧
          (components.typeAt type).name = some name)
    (anonymous : ∀ type id, c.anonymous.lookup type = some id →
      b.anonymous.lookup type = some id ∨
        ∃ r, c.graph.record? id = some r ∧ roles' id = .type type ∧
          (components.typeAt type).name = none) :
    (∀ name id, c.named.lookup name = some id →
      ∃ r type, c.graph.record? id = some r ∧ roles' id = .type type ∧
        (components.typeAt type).name = some name) ∧
    ∀ type id, c.anonymous.lookup type = some id →
      ∃ r, c.graph.record? id = some r ∧ roles' id = .type type ∧
        (components.typeAt type).name = none := by
  constructor
  · intro name id known
    rcases named name id known with known | new
    · obtain ⟨r, type, found, role, isNamed⟩ := planned.named name id known
      obtain ⟨r', found', _⟩ := growth.grows.record found
      have kept := growth.role (Graph.record?_eq_some_iff.1 found)
      exact ⟨r', type, found', kept.trans role, isNamed⟩
    · exact new
  · intro type id known
    rcases anonymous type id known with known | new
    · obtain ⟨r, found, role, unnamed⟩ := planned.anonymous type id known
      obtain ⟨r', found', _⟩ := growth.grows.record found
      have kept := growth.role (Graph.record?_eq_some_iff.1 found)
      exact ⟨r', found', kept.trans role, unnamed⟩
    · exact new

/-- A node is added that is no record. -/
theorem add (node : Node) (planned : b.Planned components same roles opened)
    (plain : node.record? = none) (graph : c.graph = (b.graph.add node).2)
    (interned : c.graph.Interned c.primitives) (named : c.named = b.named)
    (anonymous : c.anonymous = b.anonymous) :
    c.Planned components same roles opened ∧
      b.graph.Continues roles c.graph roles := by
  have growth : b.graph.Continues roles c.graph roles :=
    graph ▸ .of_extends (.add b.graph node) roles
  have old : ∀ id r, c.graph.record? id = some r →
      b.graph.record? id = some r := by
    intro id r found
    rwa [graph, Graph.record?_add plain] at found
  obtain ⟨byName, byNumber⟩ := planned.tables growth
    (fun _ _ known => .inl (named ▸ known))
    (fun _ _ known => .inl (anonymous ▸ known))
  refine ⟨⟨interned, byName, byNumber, ?_, ?_, ?_, ?_⟩, growth⟩
  · rw [named]
    exact fun id r type name found =>
      planned.listed id r type name (old id r found)
  · exact fun id r found => planned.sources id r (old id r found)
  · intro id r found closed
    have inside :=
      Graph.lt_size_of_node? (Graph.record?_eq_some_iff.1 (old id r found))
    exact growth.follows inside (planned.follows id r (old id r found) closed)
  · refine planned.nested.mono growth (graph ▸ .add _ _ _) ?_
      (fun _ isOpen => .inl isOpen)
      (fun id r closed found => ⟨closed, old id r found⟩)
      (fun _ _ known => .inl (anonymous ▸ known))
    have stacked := planned.nested.stacked
    rw [List.pairwise_cons] at stacked ⊢
    rw [graph, Graph.size_add]
    exact ⟨fun id isOpen => Nat.lt_succ_of_lt (stacked.1 id isOpen), stacked.2⟩

/-- A record is begun for a role, and the tables may lead to it from now on. -/
theorem begin (name : Option QName) (role : Role)
    (planned : b.Planned components same roles opened)
    (graph : c.graph = (b.graph.add (.record (.empty name role.source))).2)
    (primitives : c.primitives = b.primitives)
    (named : ∀ other id, c.named.lookup other = some id →
      b.named.lookup other = some id ∨
        id = b.graph.nodes.size ∧ ∃ type, role = .type type ∧
          (components.typeAt type).name = some other)
    (anonymous : ∀ type id, c.anonymous.lookup type = some id →
      b.anonymous.lookup type = some id ∨
        id = b.graph.nodes.size ∧ role = .type type ∧
          (components.typeAt type).name = none)
    (keeps : ∀ other id, b.named.lookup other = some id →
      c.named.lookup other = some id)
    (listed : ∀ type other, role = .type type →
      (components.typeAt type).name = some other →
        name = some other ∧ c.named.lookup other = some b.graph.nodes.size) :
    ∃ later, c.Planned components same later (b.graph.nodes.size :: opened) ∧
      b.graph.Continues roles c.graph later ∧
        b.graph.Settled opened c.graph ∧
          c.graph.record? b.graph.nodes.size = some (.empty name role.source) ∧
            later b.graph.nodes.size = role := by
  -- The role of the new record is the only one that changes.
  let later := Function.update roles b.graph.nodes.size role
  have here : later b.graph.nodes.size = role := Function.update_self ..
  have growth : b.graph.Continues roles c.graph later :=
    graph ▸ .add b.graph roles _ role
  have found : c.graph.record? b.graph.nodes.size =
      some (.empty name role.source) := by
    rw [graph]
    exact Graph.record?_eq_some_iff.2 (Graph.node?_add_size b.graph _)
  have cases : ∀ id r, c.graph.record? id = some r →
      (id = b.graph.nodes.size ∧ r = .empty name role.source) ∨
        b.graph.record? id = some r :=
    fun id r found => Graph.record?_add_record_cases (graph ▸ found)
  have interned : c.graph.Interned c.primitives := by
    rw [graph, primitives]
    exact planned.interned.add_other (by simp)
  obtain ⟨byName, byNumber⟩ := planned.tables growth
    (fun other id known => (named other id known).imp_right
      fun ⟨new, type, isType, isNamed⟩ =>
        ⟨_, type, new ▸ found, new ▸ here.trans isType, isNamed⟩)
    (fun type id known => (anonymous type id known).imp_right
      fun ⟨new, isType, unnamed⟩ =>
        ⟨_, new ▸ found, new ▸ here.trans isType, unnamed⟩)
  have nested : c.Scoped components later (b.graph.nodes.size :: opened) :=
    planned.nested.begin role graph fun type id known =>
      (anonymous type id known).imp_right And.left
  refine ⟨later, ⟨interned, byName, byNumber, ?_, ?_, ?_, nested⟩, growth,
    graph ▸ .add b.graph opened _, found, here⟩
  · intro id r type other found isType isNamed
    rcases cases id r found with ⟨rfl, rfl⟩ | present
    · exact listed type other (here.symm.trans isType) isNamed
    · rw [growth.role (Graph.record?_eq_some_iff.1 present)] at isType
      obtain ⟨titled, known⟩ :=
        planned.listed id r type other present isType isNamed
      exact ⟨titled, keeps other id known⟩
  · intro id r found
    rcases cases id r found with ⟨rfl, rfl⟩ | present
    · rw [here]
      rfl
    · rw [growth.role (Graph.record?_eq_some_iff.1 present)]
      exact planned.sources id r present
  · intro id r found closed
    rw [List.mem_cons, not_or] at closed
    have present := (cases id r found).resolve_left fun new => closed.1 new.1
    have inside := Graph.lt_size_of_node? (Graph.record?_eq_some_iff.1 present)
    exact growth.follows inside (planned.follows id r present closed.2)

/-- The record that was begun last gets the fields that belong to its role, and is
complete. -/
theorem finish {owner : Nat} {all : Fields} {begun : Record}
    (planned : b.Planned components same roles (owner :: opened))
    (found : b.graph.record? owner = some begun)
    (drafted : Drafted b.graph same roles b.anonymous (owner + 1) all
      (components.plan (roles owner)))
    (own : ∀ type, roles owner = .type type →
      (components.typeAt type).name = none →
        b.anonymous.lookup type = some owner) :
    ({ b with graph := b.graph.setFields owner all.fields } : Builder).Planned
        components same roles opened ∧
      b.graph.Continues roles (b.graph.setFields owner all.fields) roles := by
  have growth : b.graph.Continues roles (b.graph.setFields owner all.fields)
      roles := .of_extends (.setFields b.graph owner all.fields) roles
  obtain ⟨byName, byNumber⟩ := planned.tables
    (c := { b with graph := b.graph.setFields owner all.fields }) growth
    (fun _ _ => .inl) (fun _ _ => .inl)
  refine ⟨⟨planned.interned.setFields owner all.fields, byName, byNumber, ?_, ?_,
    ?_, planned.nested.finish found ?_ drafted.heeds drafted.covered own⟩,
    growth⟩
  · intro id r type name found
    rcases Graph.record?_setFields_cases found with
      ⟨_, old, present, rfl⟩ | ⟨_, present⟩
    · exact planned.listed id old type name present
    · exact planned.listed id r type name present
  · intro id r found
    rcases Graph.record?_setFields_cases found with
      ⟨_, old, present, rfl⟩ | ⟨_, present⟩
    · exact planned.sources id old present
    · exact planned.sources id r present
  · intro id r found closed
    rcases Graph.record?_setFields_cases found with
      ⟨rfl, old, present, rfl⟩ | ⟨elsewhere, present⟩
    · refine ⟨planned.sources id old present, ?_,
        drafted.fields.imp fun _ _ => growth.keeps⟩
      exact (congrArg Prod.fst drafted.claimed).symm
    · have inside :=
        Graph.lt_size_of_node? (Graph.record?_eq_some_iff.1 present)
      exact growth.follows inside
        (planned.follows id r present (by simp [elsewhere, closed]))
  · intro id r found closed
    have kept : List.Forall₂ (b.graph.Keeps same roles)
        (components.plan (roles id)) r.fields := by
      rcases Graph.record?_setFields_cases found with
        ⟨rfl, old, _, rfl⟩ | ⟨elsewhere, present⟩
      · exact drafted.fields
      · exact (planned.follows id r present (by simp [elsewhere, closed])).fields
    exact Graph.forall_lt_size_of_keeps kept

/-- A type without a name is open no longer. -/
theorem narrow {fewer : List (Nat × Nat)}
    (planned : b.Planned components same roles opened)
    (subset : ∀ type id, fewer.lookup type = some id →
      b.anonymous.lookup type = some id) :
    ({ b with anonymous := fewer } : Builder).Planned components same roles
      opened :=
  { planned with
    anonymous := fun type id known =>
      planned.anonymous type id (subset type id known)
    nested := planned.nested.mono (.refl _ _) (.refl _ _) planned.nested.stacked
      (fun _ => .inl) (fun _ _ closed found => ⟨closed, found⟩)
      (fun type id known => .inl (subset type id known)) }

end Builder.Planned

end Lowering

end XmlRecords
