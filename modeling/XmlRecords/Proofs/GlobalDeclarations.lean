import XmlRecords.Components.Declarations

/-!
# Declarations at the top of documents

There is a table for each kind of declaration.  What a table has under a name is the
first declaration of that kind and name in the documents, in their order.  So it
depends on the namespaces of documents alone whether a name is found at all.
-/

namespace XmlRecords

/-- The kinds of declarations at the top of documents. -/
inductive GlobalKind where
  | element
  | complexType
  | simpleType
  | group
  | attributeGroup
  | attribute
  deriving DecidableEq, Repr

namespace GlobalKind

/-- The name of the elements that are declarations of a kind. -/
def tag : GlobalKind → String
  | .element => "element"
  | .complexType => "complexType"
  | .simpleType => "simpleType"
  | .group => "group"
  | .attributeGroup => "attributeGroup"
  | .attribute => "attribute"

/-- The table of a kind. -/
def table : GlobalKind → Declarations → List (QName × Declared)
  | .element => (·.elements)
  | .complexType => (·.complexTypes)
  | .simpleType => (·.simpleTypes)
  | .group => (·.groups)
  | .attributeGroup => (·.attributeGroups)
  | .attribute => (·.attributes)

/-- The name of a declaration of the kind, in a setting. -/
def entry? (kind : GlobalKind) (setting : Setting) (node : Xml.ScopedElement) :
    Option (QName × Declared) :=
  if node.name.name = kind.tag then
    (node.attribute? "name").map fun name =>
      (⟨name, setting.target⟩, ⟨setting, node⟩)
  else none

/-- The declarations of a kind in a document. -/
def entries (kind : GlobalKind) (source : Source) : List (QName × Declared) :=
  source.root.components.filterMap (kind.entry? (Setting.ofSource source))

end GlobalKind

/-- There is a declaration of the kind with the name at the top of the document. -/
def Source.Declares (source : Source) (kind : GlobalKind) (name : String) : Prop :=
  ∃ node ∈ source.root.components, node.name.name = kind.tag ∧
    node.attribute? "name" = some name

namespace Declarations

variable {kind : GlobalKind} {all last : Declarations} {setting : Setting}
  {node : Xml.ScopedElement} {name : QName} {declared : Declared}
  {sources : List Source}

/-- A declaration is added to the table of its kind. -/
theorem table_add (kind : GlobalKind) (setting : Setting) (all : Declarations)
    (node : Xml.ScopedElement) :
    kind.table (add setting all node) =
      (kind.entry? setting node).elim (kind.table all)
        fun entry => declare (kind.table all) entry.1 entry.2 := by
  rw [add]
  cases named : node.attribute? "name" with
  | none => simp [GlobalKind.entry?, named]
  | some name =>
      dsimp only
      split <;> cases kind <;>
        simp_all [GlobalKind.entry?, GlobalKind.tag, GlobalKind.table]

/-- What comes first under a name stays. -/
theorem lookup_declare (table : List (QName × Declared)) (entry : QName × Declared)
    (name : QName) :
    (declare table entry.1 entry.2).lookup name = (table ++ [entry]).lookup name := by
  obtain ⟨own, declared⟩ := entry
  rw [declare]
  split
  · next known =>
      rw [List.lookup_append]
      by_cases same : name = own
      · obtain ⟨first, found⟩ := Option.isSome_iff_exists.1 known
        rw [same, found]
        rfl
      · simp [List.lookup_cons, beq_false_of_ne same]
  · rfl

theorem lookup_foldl_add (kind : GlobalKind) (setting : Setting)
    (nodes : List Xml.ScopedElement) (all : Declarations) (name : QName) :
    (kind.table (nodes.foldl (add setting) all)).lookup name =
      (kind.table all ++ nodes.filterMap (kind.entry? setting)).lookup name := by
  induction nodes generalizing all with
  | nil => simp
  | cons node rest ih =>
      rw [List.foldl_cons, ih, table_add]
      cases added : kind.entry? setting node with
      | none => rw [Option.elim_none, List.filterMap_cons_none added]
      | some entry =>
          rw [Option.elim_some, List.filterMap_cons_some added, List.lookup_append,
            lookup_declare, ← List.lookup_append, List.append_assoc,
            List.singleton_append]

/-- What a table has under a name is the first declaration in the documents. -/
theorem lookup_addSources (added : addSources all sources = .ok last)
    (kind : GlobalKind) (name : QName) :
    (kind.table last).lookup name =
      (kind.table all ++ sources.flatMap kind.entries).lookup name := by
  induction sources generalizing all with
  | nil =>
      cases added
      simp
  | cons source rest ih =>
      rw [addSources] at added
      split at added
      · rw [ih added, List.lookup_append, lookup_foldl_add, ← List.lookup_append,
          List.append_assoc, List.flatMap_cons]
        rfl
      · cases added

theorem nodup_keys_declare {table : List (QName × Declared)}
    (distinct : (table.map (·.1)).Nodup) (entry : QName × Declared) :
    ((declare table entry.1 entry.2).map (·.1)).Nodup := by
  rw [declare]
  split
  · exact distinct
  · next unknown =>
      rw [List.map_append, List.map_singleton, List.nodup_append]
      refine ⟨distinct, by simp, ?_⟩
      intro name member other single same
      obtain ⟨known, inside, own⟩ := List.mem_map.1 member
      refine unknown (List.lookup_isSome_iff.2 ⟨known, inside, beq_iff_eq.2 ?_⟩)
      rw [own, same, List.mem_singleton.1 single]

/-- No name comes twice in a table. -/
theorem nodup_keys_of_addSources (added : addSources all sources = .ok last)
    {kind : GlobalKind} (distinct : ((kind.table all).map (·.1)).Nodup) :
    ((kind.table last).map (·.1)).Nodup := by
  have each : ∀ setting nodes all, ((kind.table all).map (·.1)).Nodup →
      ((kind.table (List.foldl (add setting) all nodes)).map (·.1)).Nodup := by
    intro setting nodes
    induction nodes with
    | nil => exact fun _ distinct => distinct
    | cons node rest ih =>
        intro all distinct
        refine ih _ ?_
        rw [table_add]
        cases kind.entry? setting node with
        | none => exact distinct
        | some entry => exact nodup_keys_declare distinct entry
  induction sources generalizing all with
  | nil =>
      cases added
      exact distinct
  | cons source rest ih =>
      rw [addSources] at added
      split at added
      · exact ih added (each _ _ _ distinct)
      · cases added

/-- A name is found exactly if a document with its namespace declares it. -/
theorem isSome_lookup_iff (added : addSources {} sources = .ok all)
    (kind : GlobalKind) (name : QName) :
    ((kind.table all).lookup name).isSome ↔
      ∃ source ∈ sources, source.targetNamespace = name.ns ∧
        source.Declares kind name.name := by
  have nothing : kind.table {} = [] := by cases kind <;> rfl
  rw [lookup_addSources added, nothing, List.nil_append, List.lookup_isSome_iff]
  constructor
  · rintro ⟨entry, member, same⟩
    obtain ⟨source, inside, member⟩ := List.mem_flatMap.1 member
    obtain ⟨node, child, isEntry⟩ := List.mem_filterMap.1 member
    rw [GlobalKind.entry?] at isEntry
    split at isEntry
    · next tagged =>
        obtain ⟨own, named, rfl⟩ := Option.map_eq_some_iff.1 isEntry
        obtain rfl := eq_of_beq same
        exact ⟨source, inside, rfl, node, child, tagged, named⟩
    · cases isEntry
  · rintro ⟨source, inside, sameSpace, node, child, tagged, named⟩
    refine ⟨(name, ⟨Setting.ofSource source, node⟩), ?_, beq_self_eq_true name⟩
    refine List.mem_flatMap.2 ⟨source, inside, List.mem_filterMap.2 ⟨node, child, ?_⟩⟩
    rw [GlobalKind.entry?, if_pos tagged, named, Option.map_some]
    have target : (Setting.ofSource source).target = name.ns := sameSpace
    rw [target]

end Declarations

end XmlRecords
