import XmlRecords.Proofs.Collection
import XmlRecords.Proofs.GlobalDeclarations

/-!
# Documents that are included

Documents are collected in the order in which they are mentioned, each file once.  A
file that is mentioned more than once is collected for the first mention, and the
others are passed over, also where they hand on another namespace.  So what a document
without a namespace declares is known in one namespace only, and not in that of
each document by which it is included.
-/

namespace XmlRecords.Source

variable {base : Option String} {path file : String} {disk after : Disk}
  {sources : List Source}

/-- The first of some mentions of a file. -/
def firstMention (disk : Disk) (file : String)
    (mentions : List (String × Option String)) : Option (String × Option String) :=
  mentions.find? fun mention => disk.canonical mention.1 == disk.canonical file

/-- Each file that was mentioned has been read for its first mention. -/
structure Follows (disk : Disk) (mentions : List (String × Option String))
    (sources : List Source) : Prop where
  read : ∀ source ∈ sources, source.IsRead disk
  first : ∀ source ∈ sources,
    firstMention disk source.path mentions = some (source.path, source.inherited)
  complete : ∀ mention ∈ mentions, ∃ source ∈ sources,
    disk.canonical source.path = disk.canonical mention.1

/-- The first mention of a file stays the first when more documents are read. -/
theorem firstMention_append {found : String × Option String} {more : List Source}
    (first : firstMention disk file (mentionsOf base path sources) = some found) :
    firstMention disk file (mentionsOf base path (sources ++ more)) = some found := by
  rw [mentionsOf, List.flatMap_append, ← List.cons_append, firstMention,
    List.find?_append, ← mentionsOf, ← firstMention, first]
  rfl

/-- A document is next in turn for the first mention of its file. -/
theorem firstMention_of_turn {source : Source} (read : source.IsRead disk)
    (turn : nextMention disk base path sources = some (source.path, source.inherited)) :
    firstMention disk source.path (mentionsOf base path sources) =
      some (source.path, source.inherited) := by
  obtain ⟨_, found, _⟩ := exists_place_of_isRead read
  obtain ⟨new, front, back, whole, before⟩ := List.find?_eq_some_iff_append.1 turn
  refine List.find?_eq_some_iff_append.2 ⟨by simp, front, back, whole, ?_⟩
  intro mention member
  have met : IsMet disk sources mention.1 := by simpa using before mention member
  obtain ⟨other, inside, same⟩ := met
  rw [Bool.not_eq_true', beq_eq_false_iff_ne]
  intro sameFile
  have located := (Disk.canonical_eq_iff found).1 sameFile.symm
  have unmet : ¬ IsMet disk sources source.path := by simpa using new
  exact unmet ⟨other, inside, same.trans located.symm⟩

theorem Gathered.firstMention_eq (gathered : Gathered disk base path sources) :
    ∀ source ∈ sources, firstMention disk source.path (mentionsOf base path sources) =
      some (source.path, source.inherited) := by
  induction gathered with
  | nil => simp
  | concat _ turn read ih =>
      refine List.forall_mem_append.2 ⟨?_, ?_⟩
      · exact fun source member => firstMention_append (ih source member)
      · rw [List.forall_mem_singleton]
        exact firstMention_append (firstMention_of_turn read turn)

theorem follows_of_collect
    (collected : (collect Disk.host path base).run disk = (.ok sources, after)) :
    Follows disk (mentionsOf base path sources) sources := by
  obtain ⟨outcome, ran, collects⟩ := run_collect disk path base
  obtain ⟨rfl, rfl⟩ := Prod.mk.inj (ran.symm.trans collected)
  cases collects with
  | all gathered finished =>
      refine ⟨gathered.isRead, gathered.firstMention_eq, fun mention member => ?_⟩
      obtain ⟨source, inside, same⟩ :=
        isMet_of_nextMention_eq_none finished mention member
      obtain ⟨_, found, _⟩ := exists_place_of_isRead (gathered.isRead source inside)
      exact ⟨source, inside, (Disk.canonical_eq_iff found).2 same⟩

/-- A document includes the file at a path, which it names locally. -/
def Includes (base : Option String) (source : Source) (file : String) : Prop :=
  ∃ child ∈ source.root.components, child.name.name = "include" ∧
    ∃ location ∈ child.attribute? "schemaLocation",
      isRemote location = false ∧ file = Path.join (source.directory base) location

instance (base : Option String) (source : Source) (file : String) :
    Decidable (source.Includes base file) :=
  inferInstanceAs (Decidable (∃ _ ∈ _, _ ∧ ∃ _ ∈ _, _))

theorem mem_mentions_of_includes {includer : Source}
    (includes : includer.Includes base file) :
    (file, includer.targetNamespace) ∈ includer.mentions base := by
  obtain ⟨child, member, isInclude, location, located, isLocal, rfl⟩ := includes
  refine List.mem_filterMap.2 ⟨child, member, ?_⟩
  simp [isInclude, Option.mem_def.1 located, isLocal]

/-- In a document, there is a declaration for what stands for a name. -/
def Finds (all : Declarations) (source : Source) (kind : GlobalKind) (name : QName) :
    Prop :=
  ∀ what, ∃ declared,
    (Setting.ofSource source).lookup (kind.table all) what name = .ok declared

theorem finds_iff {all : Declarations} (added : Declarations.addSources {} sources = .ok all)
    {source : Source} {kind : GlobalKind} {name : QName} :
    source.Finds all kind name ↔
      ∃ other ∈ sources, other.targetNamespace = name.ns ∧
        other.Declares kind name.name := by
  rw [← Declarations.isSome_lookup_iff added, Finds]
  cases found : (kind.table all).lookup name with
  | none =>
      simp only [Setting.lookup, found, Setting.fail, reduceCtorEq, exists_false,
        Option.isSome_none, Bool.false_eq_true]
      exact ⟨fun never => never .type, False.elim⟩
  | some declared => simp [Setting.lookup, found]

/-- A document that is included is collected for the first mention of its file.  If it
has no namespace of its own and that mention hands on the namespace of the document by
which it is included, all of its declarations are found there.  Otherwise a name is
found only where another document in that namespace declares it. -/
theorem finds_iff_of_includes {all : Declarations} {includer : Source}
    (collected : (collect Disk.host path base).run disk = (.ok sources, after))
    (added : Declarations.addSources {} sources = .ok all)
    (loaded : includer ∈ sources) (includes : includer.Includes base file) :
    ∃ included ∈ sources, included.IsRead disk ∧
      disk.canonical included.path = disk.canonical file ∧
      firstMention disk file (mentionsOf base path sources) =
        some (included.path, included.inherited) ∧
      (∀ kind name, includer.Finds all kind ⟨name, includer.targetNamespace⟩ ↔
        ∃ other ∈ sources, other.targetNamespace = includer.targetNamespace ∧
          other.Declares kind name) ∧
      (included.root.attribute? "targetNamespace" = none →
        included.inherited = includer.targetNamespace →
          ∀ kind name, included.Declares kind name →
            includer.Finds all kind ⟨name, includer.targetNamespace⟩) := by
  have follows := follows_of_collect collected
  have mentioned : (file, includer.targetNamespace) ∈ mentionsOf base path sources :=
    List.mem_cons_of_mem _
      (List.mem_flatMap.2 ⟨includer, loaded, mem_mentions_of_includes includes⟩)
  obtain ⟨included, member, sameFile⟩ := follows.complete _ mentioned
  refine ⟨included, member, follows.read included member, sameFile, ?_, ?_, ?_⟩
  · have first := follows.first included member
    rwa [firstMention, sameFile] at first
  · exact fun kind name => finds_iff added
  · intro unnamed inherits kind name declares
    refine (finds_iff added).2 ⟨included, member, ?_, declares⟩
    rw [targetNamespace, unnamed, Option.none_or, inherits]

/-- A schema document with further attributes and with its content. -/
def schemaText (attributes content : String) : List UInt8 :=
  Utf8.encode ("<schema xmlns=\"" ++ schemaNamespace ++ "\"" ++ attributes ++ ">" ++
    content ++ "</schema>")

/-- A group without a namespace that is included by documents in two namespaces. -/
def sharedGroup : Disk :=
  .ofFiles [
    ("m", schemaText " targetNamespace=\"m\""
      "<import schemaLocation=\"o\"/><include schemaLocation=\"c\"/>"),
    ("o", schemaText " targetNamespace=\"o\"" "<include schemaLocation=\"c\"/>"),
    ("c", schemaText "" "<group name=\"g\"/>")]

instance (source : Source) (kind : GlobalKind) (name : String) :
    Decidable (source.Declares kind name) :=
  inferInstanceAs (Decidable (∃ _ ∈ _, _ ∧ _))

/-- The group is collected for the namespace in which it is mentioned first. -/
theorem collected_sharedGroup :
    ∃ (sources : List Source) (after : Disk) (all : Declarations),
      (collect Disk.host "m" none).run sharedGroup = (.ok sources, after) ∧
      Declarations.addSources {} sources = .ok all ∧
      (∃ first ∈ sources, first.targetNamespace = some "m" ∧
        first.Includes none "c") ∧
      (∃ second ∈ sources, second.targetNamespace = some "o" ∧
        second.Includes none "c") ∧
      (∀ shared ∈ sources,
        sharedGroup.canonical shared.path = sharedGroup.canonical "c" →
          shared.root.attribute? "targetNamespace" = none ∧
          shared.inherited = some "m" ∧ shared.Declares .group "g") ∧
      ¬ ∃ other ∈ sources, other.targetNamespace = some "o" ∧
        other.Declares .group "g" := by
  have checked : (((collect Disk.host "m" none).run sharedGroup).1.toOption.bind
      fun sources => (Declarations.addSources {} sources).toOption.map fun _ =>
        decide ((∃ first ∈ sources, first.targetNamespace = some "m" ∧
            first.Includes none "c") ∧
          (∃ second ∈ sources, second.targetNamespace = some "o" ∧
            second.Includes none "c") ∧
          (∀ shared ∈ sources,
            sharedGroup.canonical shared.path = sharedGroup.canonical "c" →
              shared.root.attribute? "targetNamespace" = none ∧
              shared.inherited = some "m" ∧ shared.Declares .group "g") ∧
          ¬ ∃ other ∈ sources, other.targetNamespace = some "o" ∧
            other.Declares .group "g")) = some true := by
    decide +kernel
  generalize (collect Disk.host "m" none).run sharedGroup = outcome at checked
  obtain ⟨_ | sources, after⟩ := outcome
  · cases checked
  obtain ⟨all, added, holds⟩ := Option.map_eq_some_iff.1 checked
  refine ⟨sources, after, all, rfl, ?_, of_decide_eq_true holds⟩
  generalize Declarations.addSources {} sources = outcome at added
  cases outcome with
  | error fault => cases added
  | ok all => rw [Option.some.inj added]

/-- What is included is found in the namespace in which it is mentioned first. -/
theorem finds_group_where_mentioned_first :
    ∃ sources after all includer,
      (collect Disk.host "m" none).run sharedGroup = (.ok sources, after) ∧
      Declarations.addSources {} sources = .ok all ∧ includer ∈ sources ∧
      includer.Includes none "c" ∧ includer.Finds all .group ⟨"g", some "m"⟩ := by
  obtain ⟨sources, after, all, collected, added, ⟨first, loaded, space, includes⟩, _,
    each, _⟩ := collected_sharedGroup
  obtain ⟨included, member, _, same, _, _, finds⟩ :=
    finds_iff_of_includes collected added loaded includes
  obtain ⟨unnamed, inherits, declares⟩ := each included member same
  rw [space] at finds
  exact ⟨sources, after, all, first, collected, added, loaded, includes,
    finds unnamed inherits .group "g" declares⟩

/-- In the other namespace it is not found, although it is included there too. -/
theorem not_finds_group_elsewhere :
    ∃ sources after all includer included,
      (collect Disk.host "m" none).run sharedGroup = (.ok sources, after) ∧
      Declarations.addSources {} sources = .ok all ∧
      includer ∈ sources ∧ includer.targetNamespace = some "o" ∧
      includer.Includes none "c" ∧
      included ∈ sources ∧
      sharedGroup.canonical included.path = sharedGroup.canonical "c" ∧
      included.root.attribute? "targetNamespace" = none ∧
      included.Declares .group "g" ∧
      ¬ includer.Finds all .group ⟨"g", some "o"⟩ := by
  obtain ⟨sources, after, all, collected, added, _, ⟨second, loaded, space, includes⟩,
    each, undeclared⟩ := collected_sharedGroup
  obtain ⟨included, member, same⟩ := (follows_of_collect collected).complete _
    (List.mem_cons_of_mem _
      (List.mem_flatMap.2 ⟨second, loaded, mem_mentions_of_includes includes⟩))
  obtain ⟨unnamed, _, declares⟩ := each included member same
  exact ⟨sources, after, all, second, included, collected, added, loaded, space, includes,
    member, same, unnamed, declares, fun finds => undeclared ((finds_iff added).1 finds)⟩

end XmlRecords.Source
