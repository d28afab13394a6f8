import Mathlib.Data.List.Nodup
import XmlRecords.Proofs.Collection

/-!
# Breadth-first order

The documents that are collected are those that mentions lead to from the entry
document, whatever cycles the mentions run in and by whatever paths one file is
mentioned.  A document that takes fewer mentions to get to never comes behind one that
takes more.
-/

namespace XmlRecords.Source

variable {base : Option String} {path file other : String} {disk : Disk}
  {sources : List Source} {source first second : Source} {place : List String} {n : Nat}

/-- A document mentions the document at a path, which is not a remote one. -/
def Mentions (base : Option String) (source : Source) (file : String) : Prop :=
  ∃ child ∈ source.root.components,
    (child.name.name = "include" ∨ child.name.name = "import" ∨
      child.name.name = "redefine") ∧
    ∃ location ∈ child.attribute? "schemaLocation",
      isRemote location = false ∧ file = Path.join (source.directory base) location

theorem exists_mem_mentions_iff :
    (∃ space, (file, space) ∈ source.mentions base) ↔ source.Mentions base file := by
  constructor
  · rintro ⟨space, member⟩
    obtain ⟨child, component, mentioned⟩ := List.mem_filterMap.1 member
    obtain ⟨kind, mentioned⟩ := Option.ite_none_right_eq_some.1 mentioned
    cases located : child.attribute? "schemaLocation" with
    | none => simp [located] at mentioned
    | some location =>
        rw [located] at mentioned
        obtain ⟨isLocal, mentioned⟩ := Option.ite_none_left_eq_some.1 mentioned
        exact ⟨child, component, by simpa [or_assoc] using kind, location, located,
          by simpa using isLocal, (Prod.mk.inj (Option.some.inj mentioned)).1.symm⟩
  · rintro ⟨child, component, kind, location, located, isLocal, rfl⟩
    refine ⟨if child.name.name = "import" then none else source.targetNamespace,
      List.mem_filterMap.2 ⟨child, component, ?_⟩⟩
    rw [if_pos (by simpa [or_assoc] using kind)]
    simp [Option.mem_def.1 located, isLocal]

/-- A number of mentions, each in the document that the one before leads to, lead from
the entry document to a path. -/
inductive Reaches (disk : Disk) (base : Option String) (path : String) :
    Nat → String → Prop where
  | entry : Reaches disk base path 0 path
  | mention {n : Nat} {source : Source} {file : String}
      (reaches : Reaches disk base path n source.path) (read : source.IsRead disk)
      (mentions : source.Mentions base file) : Reaches disk base path (n + 1) file

/-- At most so many mentions lead to the file at a path. -/
def Within (disk : Disk) (base : Option String) (path : String) (n : Nat)
    (file : String) : Prop :=
  ∃ k ≤ n, ∃ other, Reaches disk base path k other ∧
    disk.locate other = disk.locate file

theorem Within.mono {more : Nat} (within : Within disk base path n file)
    (further : n ≤ more) : Within disk base path more file := by
  obtain ⟨k, bound, reached⟩ := within
  exact ⟨k, bound.trans further, reached⟩

section OtherPaths

theorem ofText_eq_ok {text : String} {space : Option String} :
    ofText path text space = .ok source ↔
      ∃ tree, Xml.readTree false text = .ok tree ∧
        tree.element? = some source.root ∧
        source.path = path ∧ source.inherited = space := by
  rw [ofText]
  cases Xml.readTree false text with
  | error defect => simp
  | ok tree =>
      obtain ⟨itsPath, root, inherited⟩ := source
      cases element : tree.element? with
      | none => simp [element]
      | some found =>
          simp only [Except.ok.injEq, mk.injEq, exists_eq_left', element,
            Option.some.injEq]
          tauto

theorem read_eq_of_locate_eq (same : disk.locate file = disk.locate other) :
    disk.read file = disk.read other := by
  rw [Disk.read, Disk.read, same]

/-- A file holds the same document by whatever path it is read. -/
theorem root_eq_of_isRead (read : first.IsRead disk) (too : second.IsRead disk)
    (same : disk.locate first.path = disk.locate second.path) :
    first.root = second.root := by
  obtain ⟨bytes, text, held, decoded, parsed⟩ := read
  obtain ⟨bytes', text', held', decoded', parsed'⟩ := too
  rw [← read_eq_of_locate_eq same, held] at held'
  cases held'
  rw [decoded] at decoded'
  cases decoded'
  obtain ⟨tree, readTree, element, _⟩ := ofText_eq_ok.1 parsed
  obtain ⟨tree', readTree', element', _⟩ := ofText_eq_ok.1 parsed'
  rw [readTree] at readTree'
  cases readTree'
  exact Option.some.inj (element.symm.trans element')

/-- A document can be read by another path to its file. -/
theorem IsRead.withPath (read : source.IsRead disk)
    (same : disk.locate other = disk.locate source.path) :
    IsRead disk { source with path := other } := by
  obtain ⟨bytes, text, held, decoded, parsed⟩ := read
  obtain ⟨tree, readTree, element, _⟩ := ofText_eq_ok.1 parsed
  exact ⟨bytes, text, (read_eq_of_locate_eq same).trans held, decoded,
    ofText_eq_ok.2 ⟨tree, readTree, element, rfl, rfl⟩⟩

/-- By whatever path a document is read, it mentions the same files. -/
theorem Mentions.of_root_eq (mentions : second.Mentions base file)
    (roots : first.root = second.root) (found : disk.locate first.path = .ok (.file place))
    (same : disk.locate first.path = disk.locate second.path) :
    ∃ other, first.Mentions base other ∧ ∀ there,
      disk.locate other = .ok (.file there) ↔ disk.locate file = .ok (.file there) := by
  obtain ⟨child, component, kind, location, located, isLocal, rfl⟩ := mentions
  refine ⟨_, ⟨child, roots ▸ component, kind, location, located, isLocal, rfl⟩, ?_⟩
  intro there
  rw [directory, directory]
  cases base with
  | some base => rfl
  | none =>
      have too := same ▸ found
      exact ⟨Disk.locate_join_of_locate_eq found too,
        Disk.locate_join_of_locate_eq too found⟩

end OtherPaths

namespace Gathered

/-- The entry document comes first. -/
theorem head (gathered : Gathered disk base path sources)
    (begins : sources.head? = some source) :
    source.path = path ∧ source.inherited = none := by
  induction gathered with
  | nil => cases begins
  | @concat sources last _ turn _ ih =>
      cases sources with
      | nil =>
          obtain rfl : last = source := by simpa using begins
          have entry := List.mem_of_find?_eq_some turn
          simpa [mentionsOf] using entry
      | cons head rest => exact ih begins

theorem isMet_entry (gathered : Gathered disk base path sources) (begun : sources ≠ []) :
    IsMet disk sources path := by
  cases sources with
  | nil => exact absurd rfl begun
  | cons head rest => exact ⟨head, by simp, by rw [(gathered.head rfl).1]⟩

/-- Behind the entry document, the document in turn is mentioned in one of those read,
and all that is mentioned in front of it has been met. -/
theorem exists_parent (gathered : Gathered disk base path sources) (begun : sources ≠ [])
    {mention : String × Option String}
    (turn : nextMention disk base path sources = some mention) :
    ∃ front parent back, sources = front ++ parent :: back ∧
      parent.Mentions base mention.1 ∧
      ∀ earlier ∈ front, ∀ file, earlier.Mentions base file →
        IsMet disk sources file := by
  rw [nextMention, mentionsOf,
    List.find?_cons_of_neg (by simpa using gathered.isMet_entry begun),
    List.find?_flatMap, List.findSome?_eq_some_iff] at turn
  obtain ⟨front, parent, back, whole, found, before⟩ := turn
  refine ⟨front, parent, back, whole, ?_, ?_⟩
  · exact exists_mem_mentions_iff.1 ⟨mention.2, List.mem_of_find?_eq_some found⟩
  · intro earlier member file mentions
    obtain ⟨space, mentioned⟩ := exists_mem_mentions_iff.2 mentions
    simpa using List.find?_eq_none.1 (before earlier member) _ mentioned

/-- Mentions lead to each document from the entry document. -/
theorem exists_reaches (gathered : Gathered disk base path sources) :
    ∀ source ∈ sources, ∃ n, Reaches disk base path n source.path := by
  induction gathered with
  | nil => simp
  | @concat sources source gathered turn read ih =>
      refine List.forall_mem_append.2 ⟨ih, List.forall_mem_singleton.2 ?_⟩
      by_cases begun : sources = []
      · subst begun
        have entry := (gathered.concat turn read).head rfl
        exact ⟨0, by rw [entry.1]; exact .entry⟩
      · obtain ⟨front, parent, back, rfl, mentions, _⟩ := gathered.exists_parent begun turn
        have inside : parent ∈ front ++ parent :: back := by simp
        obtain ⟨n, reaches⟩ := ih parent inside
        exact ⟨n + 1, reaches.mention (gathered.isRead parent inside) mentions⟩

/-- What one mention more leads to from where a document is. -/
theorem within_succ {parent : Source} (read : parent.IsRead disk)
    (near : Within disk base path n parent.path) (mentions : parent.Mentions base file)
    (found : disk.locate file = .ok (.file place)) :
    Within disk base path (n + 1) file := by
  obtain ⟨k, bound, other, reaches, same⟩ := near
  obtain ⟨there, foundParent, _⟩ := exists_place_of_isRead read
  let twin : Source := { parent with path := other }
  have foundTwin : disk.locate twin.path = .ok (.file there) := same.trans foundParent
  have roots : twin.root = parent.root := rfl
  obtain ⟨twinFile, mentionsToo, sameFiles⟩ := mentions.of_root_eq roots foundTwin same
  refine ⟨k + 1, Nat.succ_le_succ bound, twinFile,
    reaches.mention (read.withPath same) mentionsToo, ?_⟩
  rw [found, (sameFiles place).2 found]

/-- A file that has not been read is no nearer than the documents that were. -/
def Nearest (disk : Disk) (base : Option String) (path : String)
    (sources : List Source) : Prop :=
  ∀ n file place, Reaches disk base path n file → ¬ IsMet disk sources file →
    disk.locate file = .ok (.file place) →
    ∀ source ∈ sources, Within disk base path n source.path

/-- The documents stand in the order of their distance. -/
def Ordered (disk : Disk) (base : Option String) (path : String)
    (sources : List Source) : Prop :=
  sources.Pairwise fun earlier later =>
    ∀ n, Within disk base path n later.path → Within disk base path n earlier.path

theorem not_isMet_of_turn
    (turn : nextMention disk base path sources = some (source.path, source.inherited)) :
    ¬ IsMet disk sources source.path := by
  simpa using List.find?_some turn

/-- The document in which the next one is mentioned first is no further away than any
document that mentions a file which has not been met. -/
theorem within_parent (ordered : Ordered disk base path sources)
    {front back : List Source} {parent mentioner : Source}
    (whole : sources = front ++ parent :: back)
    (before : ∀ earlier ∈ front, ∀ file, earlier.Mentions base file →
      IsMet disk sources file)
    (member : mentioner ∈ sources) (near : Within disk base path n mentioner.path)
    (mentions : mentioner.Mentions base file) (new : ¬ IsMet disk sources file) :
    Within disk base path n parent.path := by
  subst whole
  rcases List.mem_append.1 member with inFront | behind
  · exact absurd (before mentioner inFront file mentions) new
  · rcases List.mem_cons.1 behind with rfl | behind
    · exact near
    · have fromParent := (List.pairwise_append.1 ordered).2.1
      exact (List.pairwise_cons.1 fromParent).1 mentioner behind n near

/-- A file that is still new when the document in turn has been read is no nearer than
that document: the way to the file leads through the first document that has
not been read, or from the last that has. -/
theorem nearest_concat (gathered : Gathered disk base path sources)
    (ordered : Ordered disk base path sources) (nearest : Nearest disk base path sources)
    (turn : nextMention disk base path sources = some (source.path, source.inherited))
    (read : source.IsRead disk) : Nearest disk base path (sources ++ [source]) := by
  intro n file place reaches new found
  have older : ∀ {file}, ¬ IsMet disk (sources ++ [source]) file →
      ¬ IsMet disk sources file := by
    rintro file new ⟨other, member, same⟩
    exact new ⟨other, List.mem_append_left _ member, same⟩
  refine List.forall_mem_append.2
    ⟨nearest n file place reaches (older new) found, List.forall_mem_singleton.2 ?_⟩
  induction reaches generalizing place with
  | entry => exact absurd ((gathered.concat turn read).isMet_entry (by simp)) new
  | @mention n other file reaches readOther mentions ih =>
      obtain ⟨there, foundOther, _⟩ := exists_place_of_isRead readOther
      by_cases met : IsMet disk (sources ++ [source]) other.path
      · obtain ⟨known, member, same⟩ := met
        have near : Within disk base path n known.path :=
          ⟨n, Nat.le_refl n, other.path, reaches, same.symm⟩
        rcases List.mem_append.1 member with member | member
        · obtain ⟨front, parent, back, whole, mentionsSource, before⟩ :=
            gathered.exists_parent (List.ne_nil_of_mem member) turn
          have readKnown := gathered.isRead known member
          obtain ⟨twin, mentionsTwin, sameFiles⟩ := mentions.of_root_eq
            (root_eq_of_isRead readKnown readOther same) (same ▸ foundOther) same
          have newTwin : ¬ IsMet disk sources twin := by
            rintro ⟨met, inside, sameTwin⟩
            rw [(sameFiles place).2 found, ← found] at sameTwin
            exact older new ⟨met, inside, sameTwin⟩
          have nearParent :=
            within_parent ordered whole before member near mentionsTwin newTwin
          obtain ⟨_, foundSource, _⟩ := exists_place_of_isRead read
          exact within_succ (gathered.isRead parent (by simp [whole])) nearParent
            mentionsSource foundSource
        · rw [← List.mem_singleton.1 member]
          exact near.mono (Nat.le_succ n)
      · exact (ih there met foundOther).mono (Nat.le_succ n)

theorem ordered_concat (ordered : Ordered disk base path sources)
    (nearest : Nearest disk base path sources)
    (turn : nextMention disk base path sources = some (source.path, source.inherited))
    (read : source.IsRead disk) : Ordered disk base path (sources ++ [source]) := by
  refine List.pairwise_append.2 ⟨ordered, List.pairwise_singleton _ _, ?_⟩
  rintro earlier member later last n ⟨k, bound, other, reaches, same⟩
  rw [List.mem_singleton.1 last] at same
  obtain ⟨place, found, _⟩ := exists_place_of_isRead read
  have new : ¬ IsMet disk sources other := by
    rintro ⟨met, inside, too⟩
    exact not_isMet_of_turn turn ⟨met, inside, too.trans same⟩
  exact (nearest k other place reaches new (same.trans found) earlier member).mono bound

theorem ordered_and_nearest (gathered : Gathered disk base path sources) :
    Ordered disk base path sources ∧ Nearest disk base path sources := by
  induction gathered with
  | nil => exact ⟨List.Pairwise.nil, by simp [Nearest]⟩
  | concat gathered turn read ih =>
      exact ⟨ordered_concat ih.1 ih.2 turn read,
        nearest_concat gathered ih.1 ih.2 turn read⟩

/-- Where no mention is left, each file that mentions lead to has been read. -/
theorem isMet_of_reaches (gathered : Gathered disk base path sources)
    (finished : nextMention disk base path sources = none)
    (reaches : Reaches disk base path n file) : IsMet disk sources file := by
  induction reaches with
  | entry =>
      exact isMet_of_nextMention_eq_none finished (path, none) (List.mem_cons_self ..)
  | @mention n other file _ readOther mentions ih =>
      obtain ⟨known, member, same⟩ := ih
      have readKnown := gathered.isRead known member
      obtain ⟨_, found, _⟩ := exists_place_of_isRead readKnown
      obtain ⟨twin, mentionsTwin, sameFiles⟩ := mentions.of_root_eq
        (root_eq_of_isRead readKnown readOther same) found same
      obtain ⟨space, mentioned⟩ := exists_mem_mentions_iff.2 mentionsTwin
      obtain ⟨met, inside, sameTwin⟩ := isMet_of_nextMention_eq_none finished
        (twin, space) (List.mem_cons_of_mem _ (List.mem_flatMap.2 ⟨known, member, mentioned⟩))
      obtain ⟨place, foundMet, _⟩ := exists_place_of_isRead (gathered.isRead met inside)
      refine ⟨met, inside, ?_⟩
      rw [foundMet] at sameTwin
      rw [foundMet, (sameFiles place).1 sameTwin.symm]

end Gathered

/-- Documents in breadth-first order from the entry document on.  They are read in turn,
each for the first mention of its file, no file is read twice, and none is further
away than the next. -/
structure BreadthFirst (disk : Disk) (base : Option String) (path : String)
    (sources : List Source) : Prop where
  gathered : Gathered disk base path sources
  entry : ∀ first, sources.head? = some first → first.path = path
  reached : ∀ source ∈ sources, ∃ n, Reaches disk base path n source.path
  once : (sources.map (disk.locate ·.path)).Nodup
  few : sources.length ≤ disk.files.length
  ordered : sources.Pairwise fun earlier later =>
    ∀ n, Within disk base path n later.path → Within disk base path n earlier.path

theorem Gathered.breadthFirst (gathered : Gathered disk base path sources) :
    BreadthFirst disk base path sources where
  gathered := gathered
  entry := fun _ begins => (gathered.head begins).1
  reached := gathered.exists_reaches
  once := gathered.nodup
  few := gathered.length_le
  ordered := gathered.ordered_and_nearest.1

/-- From every disk and entry, collecting comes to an end.  It has then read documents in
breadth-first order: either each file that mentions lead to exactly once, or all in
front of the first that cannot be read, for the reason that it reports. -/
theorem breadthFirst_of_collect (disk : Disk) (path : String) (base : Option String) :
    ∃ outcome sources, (collect Disk.host path base).run disk = (outcome, disk) ∧
      BreadthFirst disk base path sources ∧
      ((outcome = .ok sources ∧ ∀ n file, Reaches disk base path n file →
        ∃! source, source ∈ sources ∧ disk.locate source.path = disk.locate file) ∨
      ∃ mention fault, nextMention disk base path sources = some mention ∧
        IsUnread disk mention.1 fault ∧ outcome = .error (.load mention.1 fault)) := by
  obtain ⟨outcome, ran, collects⟩ := run_collect disk path base
  cases collects with
  | @all sources gathered finished =>
      refine ⟨_, sources, ran, gathered.breadthFirst, .inl ⟨rfl, ?_⟩⟩
      intro n file reaches
      obtain ⟨source, member, same⟩ := gathered.isMet_of_reaches finished reaches
      refine ⟨source, ⟨member, same⟩, ?_⟩
      rintro other ⟨inside, too⟩
      exact List.inj_on_of_nodup_map gathered.nodup inside member (too.trans same.symm)
  | @stopped sources mention fault gathered turn unread =>
      exact ⟨_, sources, ran, gathered.breadthFirst,
        .inr ⟨mention, fault, turn, unread, rfl⟩⟩

end XmlRecords.Source
