import XmlRecords.Proofs.Growth

/-!
# Records in fields of others

While a graph grows, records are begun and get their fields later, and those that
are complete stay as they are.  Of the records that are made from some moment on,
each is in a field of one that was begun before it, or it is below one of the
nodes that are still to be put into fields.
-/

namespace XmlRecords

namespace Graph

variable {graph later : Graph} {opened : List Nat} {id target start owner : Nat}

theorem Extends.exists_record_of_lt (growth : graph.Extends later)
    (inside : id < graph.nodes.size) {r : Record}
    (found : later.record? id = some r) : ∃ r', graph.record? id = some r' := by
  obtain ⟨node, present⟩ := exists_node?_of_lt inside
  obtain ⟨node', found', same⟩ := growth id node present
  cases (record?_eq_some_iff.1 found).symm.trans found'
  cases node with
  | record r' => exact ⟨r', record?_eq_some_iff.2 present⟩
  | _ => simp [Node.outline] at same

theorem record?_add {node : Node} (plain : node.record? = none) (id : Nat) :
    (graph.add node).2.record? id = graph.record? id := by
  rw [record?, record?, node?_add]
  split
  · next new =>
      have outside : graph.node? id = none := by
        rw [node?, new]
        exact Array.getElem?_eq_none (Nat.le_refl _)
      rw [outside]
      exact plain
  · rfl

/-- A record that is there once a record has been added is this one or was there
already. -/
theorem record?_add_record_cases {added r : Record}
    (found : (graph.add (.record added)).2.record? id = some r) :
    (id = graph.nodes.size ∧ r = added) ∨ graph.record? id = some r := by
  rw [record?_eq_some_iff, node?_add] at found
  split at found
  · next new =>
      cases found
      exact .inl ⟨new, rfl⟩
  · exact .inr (record?_eq_some_iff.2 found)

theorem record?_setFields_cases {fields : List Field} {r : Record}
    (found : (graph.setFields owner fields).record? id = some r) :
    (id = owner ∧ ∃ old, graph.record? id = some old ∧
      r = old.withFields fields) ∨
    (id ≠ owner ∧ graph.record? id = some r) := by
  rw [record?_eq_some_iff, node?_setFields] at found
  split at found
  · next here =>
      subst here
      obtain ⟨node, present, filled⟩ := Option.map_eq_some_iff.1 found
      cases node with
      | record old =>
          cases filled
          exact .inl ⟨rfl, old, record?_eq_some_iff.2 present, rfl⟩
      | _ => cases filled
  · next elsewhere => exact .inr ⟨elsewhere, record?_eq_some_iff.2 found⟩

theorem record?_setFields_of_ne {fields : List Field} (apart : id ≠ owner) :
    (graph.setFields owner fields).record? id = graph.record? id := by
  rw [record?, record?, node?_setFields, if_neg apart]

theorem record?_setFields_self {fields : List Field} {r : Record}
    (found : graph.record? owner = some r) :
    (graph.setFields owner fields).record? owner =
      some (r.withFields fields) := by
  rw [record?_eq_some_iff, node?_setFields, if_pos rfl,
    record?_eq_some_iff.1 found]
  rfl

/-- Complete records stay as they are. -/
def Settled (graph : Graph) (opened : List Nat) (later : Graph) : Prop :=
  ∀ id r, id ∉ opened → graph.record? id = some r → later.record? id = some r

namespace Settled

theorem refl (graph : Graph) (opened : List Nat) : graph.Settled opened graph :=
  fun _ _ _ found => found

theorem trans {last : Graph} (one : graph.Settled opened later)
    (two : later.Settled opened last) : graph.Settled opened last :=
  fun id r closed found => two id r closed (one id r closed found)

theorem add (graph : Graph) (opened : List Nat) (node : Node) :
    graph.Settled opened (graph.add node).2 := by
  intro id r _ found
  rw [record?_eq_some_iff] at found ⊢
  rw [node?_add_of_lt node (lt_size_of_node? found), found]

theorem setFields (fields : List Field) :
    graph.Settled (owner :: opened) (graph.setFields owner fields) := by
  intro id r closed found
  have apart : id ≠ owner := fun here => closed (here ▸ List.mem_cons_self)
  rw [record?_setFields_of_ne apart, found]

/-- What happens to a record that is begun and completed does not concern those
that there were. -/
theorem around {last : Graph} (one : graph.Settled opened later)
    (two : later.Settled (graph.nodes.size :: opened) last) :
    graph.Settled opened last := by
  intro id r closed found
  have inside := lt_size_of_node? (record?_eq_some_iff.1 found)
  refine two id r ?_ (one id r closed found)
  simp [closed, Nat.ne_of_lt inside]

end Settled

/-- A node stands for a target, around which it may be a wrapper. -/
def StandsFor (graph : Graph) (id target : Nat) : Prop :=
  target = id ∨ graph.node? id = some (.optional target) ∨
    graph.node? id = some (.array target)

namespace StandsFor

theorem mono (growth : graph.Extends later)
    (stands : graph.StandsFor id target) : later.StandsFor id target := by
  rcases stands with same | found | found
  · exact .inl same
  · exact .inr (.inl (growth.wrapper found rfl))
  · exact .inr (.inr (growth.wrapper found rfl))

theorem eq_of_isWrapper_eq_false {node : Node}
    (found : graph.node? id = some node) (plain : node.isWrapper = false)
    (stands : graph.StandsFor id target) : target = id := by
  rcases stands with same | wrapped | wrapped
  · exact same
  · cases found.symm.trans wrapped
    cases plain
  · cases found.symm.trans wrapped
    cases plain

end StandsFor

/-- A record has a field whose node stands for a target. -/
def HasField (graph : Graph) (owner target : Nat) : Prop :=
  ∃ r, graph.record? owner = some r ∧
    ∃ field ∈ r.fields, graph.StandsFor field.node target

theorem HasField.mono (growth : graph.Extends later)
    (settled : graph.Settled opened later) (closed : owner ∉ opened)
    (has : graph.HasField owner target) : later.HasField owner target := by
  obtain ⟨r, found, field, member, stands⟩ := has
  exact ⟨r, settled owner r closed found, field, member, stands.mono growth⟩

/-- Every record from a number on is in a field of another of them in front of it,
or one of some nodes stands for it. -/
def Covered (graph : Graph) (start : Nat) (nodes : List Nat) : Prop :=
  ∀ id r, start ≤ id → graph.record? id = some r →
    (∃ node ∈ nodes, graph.StandsFor node id) ∨
      ∃ owner, start ≤ owner ∧ owner < id ∧ graph.HasField owner id

namespace Covered

variable {nodes more : List Nat} {node inner : Nat}

theorem of_size_le (graph : Graph) (nodes : List Nat)
    (outside : graph.nodes.size ≤ start) : graph.Covered start nodes := by
  intro id r behind found
  have inside := lt_size_of_node? (record?_eq_some_iff.1 found)
  omega

theorem mono (covered : graph.Covered start nodes) (subset : nodes ⊆ more) :
    graph.Covered start more := by
  intro id r behind found
  refine (covered id r behind found).imp_left ?_
  rintro ⟨node, member, stands⟩
  exact ⟨node, subset member, stands⟩

/-- A node that stands for no record covers none. -/
theorem drop (covered : graph.Covered start (nodes ++ [node]))
    {other : Node} (found : graph.node? node = some other)
    (noRecord : other.record? = none)
    (bare : ∀ target, other ≠ .optional target ∧ other ≠ .array target) :
    graph.Covered start nodes := by
  intro id r behind isRecord
  refine (covered id r behind isRecord).imp_left ?_
  rintro ⟨node', member, stands⟩
  rcases List.mem_append.1 member with member | member
  · exact ⟨node', member, stands⟩
  · cases List.mem_singleton.1 member
    rcases stands with rfl | wrapped | wrapped
    · cases found.symm.trans (record?_eq_some_iff.1 isRecord)
      cases noRecord
    · cases found.symm.trans wrapped
      exact absurd rfl (bare id).1
    · cases found.symm.trans wrapped
      exact absurd rfl (bare id).2

theorem add {other : Node} (plain : other.record? = none)
    (covered : graph.Covered start nodes) :
    (graph.add other).2.Covered start nodes := by
  have growth := Extends.add graph other
  intro id r behind found
  rw [record?_add plain] at found
  refine (covered id r behind found).imp ?_ ?_
  · rintro ⟨node, member, stands⟩
    exact ⟨node, member, stands.mono growth⟩
  · rintro ⟨owner, after, before, has⟩
    exact ⟨owner, after, before,
      has.mono growth (.add graph [] other) List.not_mem_nil⟩

/-- A wrapper stands for what the node in it stands for. -/
theorem wrap (covered : graph.Covered start [inner]) {node wrapper : Node}
    (found : graph.node? inner = some node) (plain : node.isWrapper = false)
    (wraps : wrapper = .optional inner ∨ wrapper = .array inner) :
    (graph.add wrapper).2.Covered start [graph.nodes.size] := by
  have noRecord : wrapper.record? = none := by
    rcases wraps with rfl | rfl <;> rfl
  intro id r behind isRecord
  refine (covered.add noRecord id r behind isRecord).imp_left ?_
  rintro ⟨node', member, stands⟩
  cases List.mem_singleton.1 member
  have present := (node?_add_of_lt wrapper (lt_size_of_node? found)).trans found
  cases stands.eq_of_isWrapper_eq_false present plain
  refine ⟨_, List.mem_singleton.2 rfl, .inr ?_⟩
  rw [node?_add_size]
  exact wraps.imp (congrArg some) (congrArg some)

/-- What is made behind the records from a number on is covered besides. -/
theorem extend (covered : graph.Covered start nodes)
    (growth : graph.Extends later) (settled : graph.Settled opened later)
    (inside : start ≤ graph.nodes.size) (before : ∀ id ∈ opened, id < start)
    (rest : later.Covered graph.nodes.size more) :
    later.Covered start (nodes ++ more) := by
  intro id r behind found
  by_cases old : id < graph.nodes.size
  · obtain ⟨r', present⟩ := growth.exists_record_of_lt old found
    refine (covered id r' behind present).imp ?_ ?_
    · rintro ⟨node, member, stands⟩
      exact ⟨node, List.mem_append_left _ member, stands.mono growth⟩
    · rintro ⟨owner, after, inFront, has⟩
      refine ⟨owner, after, inFront, has.mono growth settled fun isOpen => ?_⟩
      have := before owner isOpen
      omega
  · refine (rest id r (by omega) found).imp ?_ ?_
    · rintro ⟨node, member, stands⟩
      exact ⟨node, List.mem_append_right _ member, stands⟩
    · rintro ⟨owner, after, inFront, has⟩
      exact ⟨owner, by omega, inFront, has⟩

/-- A record that gets its fields covers what their nodes stand for. -/
theorem finish {fields : List Field} {r : Record}
    (covered : graph.Covered (owner + 1) (fields.map (·.node)))
    (found : graph.record? owner = some r) :
    ∀ id r', owner < id →
      (graph.setFields owner fields).record? id = some r' →
        ∃ other, owner ≤ other ∧ other < id ∧
          (graph.setFields owner fields).HasField other id := by
  have growth := Extends.setFields graph owner fields
  intro id r' behind isRecord
  rw [record?_setFields_of_ne (by omega)] at isRecord
  rcases covered id r' behind isRecord with
    ⟨node, member, stands⟩ | ⟨other, after, inFront, has⟩
  · obtain ⟨field, listed, rfl⟩ := List.mem_map.1 member
    exact ⟨owner, Nat.le_refl _, behind, _, record?_setFields_self found, field,
      listed, stands.mono growth⟩
  · have settled : graph.Settled [owner] (graph.setFields owner fields) :=
      .setFields fields
    have apart : other ∉ [owner] := by
      rw [List.mem_singleton]
      omega
    exact ⟨other, by omega, inFront, has.mono growth settled apart⟩

theorem complete {fields : List Field} {r : Record}
    (covered : graph.Covered (owner + 1) (fields.map (·.node)))
    (found : graph.record? owner = some r) :
    (graph.setFields owner fields).Covered owner [owner] := by
  intro id r' behind isRecord
  by_cases here : id = owner
  · exact .inl ⟨owner, List.mem_singleton.2 rfl, .inl here⟩
  · exact .inr (covered.finish found id r' (by omega) isRecord)

end Covered

end Graph

end XmlRecords
