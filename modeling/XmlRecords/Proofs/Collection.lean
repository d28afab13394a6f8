import Mathlib.Data.List.Perm.Subperm
import XmlRecords.Components.Source
import XmlRecords.Proofs.CanonicalPaths

/-!
# Collecting documents

Collecting reads one document after another.  Next in turn is always the first mention,
in the documents read so far, of a file that is none of theirs.  The files of a disk
are finitely many and none is read twice, so a turn comes at which nothing is left to
be read, or at which the document in turn cannot be read.
-/

namespace XmlRecords.Source

variable {base : Option String} {path file : String} {disk : Disk}
  {seen : List String} {done sources : List Source} {source : Source}
  {queue : List (String × Option String)} {space : Option String} {fuel : Nat}

/-- A document as it is read from a disk. -/
def IsRead (disk : Disk) (source : Source) : Prop :=
  ∃ bytes text, disk.read source.path = .ok bytes ∧ Utf8.decode? bytes = some text ∧
    ofText source.path text source.inherited = .ok source

/-- Why no document is read at a path. -/
inductive IsUnread (disk : Disk) (path : String) : LoadFault → Prop where
  | unreadable {fault : FileFault} (read : disk.read path = .error fault) :
      IsUnread disk path (.unreadable fault)
  | notUtf8 {bytes : List UInt8} (read : disk.read path = .ok bytes)
      (decoded : Utf8.decode? bytes = none) :
      IsUnread disk path (.unreadable .notUtf8)
  | malformed {bytes : List UInt8} {text : String} {space : Option String}
      {defect : MarkupDefect} (read : disk.read path = .ok bytes)
      (decoded : Utf8.decode? bytes = some text)
      (refused : ofText path text space = .error (.load path (.malformed defect))) :
      IsUnread disk path (.malformed defect)

theorem path_of_ofText {text : String} {source : Source}
    (read : ofText path text space = .ok source) :
    source.path = path ∧ source.inherited = space := by
  rw [ofText] at read
  split at read
  · cases read
  · split at read
    · cases read
      exact ⟨rfl, rfl⟩
    · cases read

theorem malformed_of_ofText {text : String} {error : Error}
    (refused : ofText path text space = .error error) :
    ∃ defect, error = .load path (.malformed defect) := by
  rw [ofText] at refused
  split at refused
  · cases refused
    exact ⟨_, rfl⟩
  · split at refused
    · cases refused
    · cases refused
      exact ⟨_, rfl⟩

theorem run_bind_of_run {α β : Type} {look : StateM Disk α} {a : α} {later : Disk}
    (ran : look.run disk = (a, later)) (next : α → StateM Disk β) :
    (look >>= next).run disk = (next a).run later := by
  rw [StateT.run_bind, ran]
  rfl

/-- A document is read or there is a reason why not, and the disk is left as it is. -/
theorem run_ofFile (disk : Disk) (path : String) (space : Option String) :
    (∃ source, (ofFile Disk.host path space).run disk = (.ok source, disk) ∧
      source.IsRead disk ∧ source.path = path ∧ source.inherited = space) ∨
    ∃ fault, (ofFile Disk.host path space).run disk =
      (.error (.load path fault), disk) ∧ IsUnread disk path fault := by
  have asked : (Disk.host.read path).run disk = (disk.read path, disk) := rfl
  rw [ofFile, Host.readText, bind_assoc, run_bind_of_run asked]
  cases read : disk.read path with
  | error fault => exact .inr ⟨_, rfl, .unreadable read⟩
  | ok bytes =>
      dsimp only
      cases decoded : Utf8.decode? bytes with
      | none => exact .inr ⟨_, rfl, .notUtf8 read decoded⟩
      | some text =>
          cases parsed : ofText path text space with
          | error error =>
              obtain ⟨defect, rfl⟩ := malformed_of_ofText parsed
              refine .inr ⟨_, ?_, .malformed read decoded parsed⟩
              exact congrArg (·, disk) parsed
          | ok source =>
              obtain ⟨rfl, rfl⟩ := path_of_ofText parsed
              refine .inl ⟨source, ?_, ⟨bytes, text, read, decoded, parsed⟩, rfl, rfl⟩
              exact congrArg (·, disk) parsed

/-- The first new mention is found behind mentions of files that have been met. -/
theorem run_nextNew (disk : Disk) (seen : List String)
    (queue : List (String × Option String)) :
    ((nextNew Disk.host seen queue).run disk = (none, disk) ∧
      ∀ mention ∈ queue, disk.canonical mention.1 ∈ seen) ∨
    ∃ front mention back, queue = front ++ mention :: back ∧
      (∀ mention ∈ front, disk.canonical mention.1 ∈ seen) ∧
      disk.canonical mention.1 ∉ seen ∧
      (nextNew Disk.host seen queue).run disk =
        (some (disk.canonical mention.1, mention, back), disk) := by
  induction queue with
  | nil => exact .inl ⟨rfl, by simp⟩
  | cons mention queue ih =>
      have asked : (Disk.host.canonical mention.1).run disk =
        (disk.canonical mention.1, disk) := rfl
      rw [nextNew, run_bind_of_run asked]
      by_cases met : disk.canonical mention.1 ∈ seen
      · rw [if_pos (by simpa using met)]
        rcases ih with ⟨ran, all⟩ | ⟨front, next, back, rfl, before, new, ran⟩
        · exact .inl ⟨ran, List.forall_mem_cons.2 ⟨met, all⟩⟩
        · exact .inr ⟨mention :: front, next, back, rfl,
            List.forall_mem_cons.2 ⟨met, before⟩, new, ran⟩
      · rw [if_neg (by simpa using met)]
        exact .inr ⟨[], mention, queue, rfl, by simp, met, rfl⟩

/-- All mentions of documents, from the one that begins on, in the order in which
they are met. -/
def mentionsOf (base : Option String) (path : String) (sources : List Source) :
    List (String × Option String) :=
  (path, none) :: sources.flatMap (mentions base)

/-- A path leads to a file that is one of those read. -/
def IsMet (disk : Disk) (sources : List Source) (file : String) : Prop :=
  ∃ source ∈ sources, disk.locate source.path = disk.locate file

instance (disk : Disk) (sources : List Source) (file : String) :
    Decidable (IsMet disk sources file) :=
  inferInstanceAs (Decidable (∃ _ ∈ _, _))

/-- The mention that is next in turn: the first one of a file that has not been
read. -/
def nextMention (disk : Disk) (base : Option String) (path : String)
    (sources : List Source) : Option (String × Option String) :=
  (mentionsOf base path sources).find? fun mention => ¬ IsMet disk sources mention.1

/-- Where no mention is left, each file that was mentioned has been read. -/
theorem isMet_of_nextMention_eq_none
    (finished : nextMention disk base path sources = none) :
    ∀ mention ∈ mentionsOf base path sources, IsMet disk sources mention.1 := by
  intro mention member
  simpa using List.find?_eq_none.1 finished mention member

/-- Documents that were read one after another, each for the mention next in turn. -/
inductive Gathered (disk : Disk) (base : Option String) (path : String) :
    List Source → Prop where
  | nil : Gathered disk base path []
  | concat {sources : List Source} {source : Source}
      (gathered : Gathered disk base path sources)
      (turn : nextMention disk base path sources = some (source.path, source.inherited))
      (read : source.IsRead disk) : Gathered disk base path (sources ++ [source])

/-- What collecting comes to: all documents, if no mention is left, or else the reason
why the document next in turn is not read. -/
inductive Collects (disk : Disk) (base : Option String) (path : String) :
    Except Error (List Source) → Prop where
  | all {sources : List Source} (gathered : Gathered disk base path sources)
      (finished : nextMention disk base path sources = none) :
      Collects disk base path (.ok sources)
  | stopped {sources : List Source} {mention : String × Option String}
      {fault : LoadFault} (gathered : Gathered disk base path sources)
      (turn : nextMention disk base path sources = some mention)
      (unread : IsUnread disk mention.1 fault) :
      Collects disk base path (.error (.load mention.1 fault))

theorem exists_place_of_isRead (read : source.IsRead disk) :
    ∃ place, disk.locate source.path = .ok (.file place) ∧
      place ∈ disk.files.map (·.1) := by
  obtain ⟨bytes, _, held, _⟩ := read
  obtain ⟨place, found, held⟩ := Disk.exists_place_of_read held
  obtain ⟨_, _, whole, _⟩ := List.lookup_eq_some_iff.1 held
  exact ⟨place, found, by simp [whole]⟩

namespace Gathered

theorem isRead (gathered : Gathered disk base path sources) :
    ∀ source ∈ sources, source.IsRead disk := by
  induction gathered with
  | nil => simp
  | concat _ _ read ih => exact List.forall_mem_append.2 ⟨ih, by simpa using read⟩

/-- No file is read twice. -/
theorem nodup (gathered : Gathered disk base path sources) :
    (sources.map (disk.locate ·.path)).Nodup := by
  induction gathered with
  | nil => simp
  | @concat sources source _ turn _ ih =>
      have new : ¬ IsMet disk sources source.path := by
        simpa using List.find?_some turn
      rw [List.map_append, List.map_singleton, List.nodup_append]
      refine ⟨ih, by simp, ?_⟩
      rintro _ member _ last rfl
      obtain ⟨other, inside, same⟩ := List.mem_map.1 member
      exact new ⟨other, inside, same.trans (by simpa using last)⟩

/-- There are no more documents than files. -/
theorem length_le (gathered : Gathered disk base path sources) :
    sources.length ≤ disk.files.length := by
  have inside : sources.map (disk.locate ·.path) ⊆
      disk.files.map fun file => .ok (.file file.1) := by
    intro located member
    obtain ⟨source, loaded, rfl⟩ := List.mem_map.1 member
    obtain ⟨_, found, isFile⟩ := exists_place_of_isRead (gathered.isRead _ loaded)
    obtain ⟨file, onDisk, rfl⟩ := List.mem_map.1 isFile
    exact List.mem_map.2 ⟨file, onDisk, found.symm⟩
  simpa using (gathered.nodup.subperm inside).length_le

end Gathered

/-- Where collecting stands: the documents read so far, the files met, and the mentions
that are left behind those that were passed. -/
structure Progress (disk : Disk) (base : Option String) (path : String)
    (seen : List String) (done : List Source) (queue : List (String × Option String)) :
    Prop where
  gathered : Gathered disk base path done.reverse
  met : ∀ key, key ∈ seen ↔ ∃ source ∈ done, disk.canonical source.path = key
  order : ∃ past, mentionsOf base path done.reverse = past ++ queue ∧
    ∀ mention ∈ past, IsMet disk done.reverse mention.1

namespace Progress

theorem isMet_iff (progress : Progress disk base path seen done queue) :
    disk.canonical file ∈ seen ↔ IsMet disk done.reverse file := by
  rw [progress.met, IsMet]
  refine exists_congr fun source => ?_
  rw [List.mem_reverse]
  refine and_congr_right fun member => ?_
  obtain ⟨_, found, _⟩ := exists_place_of_isRead
    (progress.gathered.isRead source (List.mem_reverse.2 member))
  exact Disk.canonical_eq_iff found

/-- Where all mentions left are of files that were met, none is next. -/
theorem nextMention_eq_none (progress : Progress disk base path seen done queue)
    (all : ∀ mention ∈ queue, disk.canonical mention.1 ∈ seen) :
    nextMention disk base path done.reverse = none := by
  obtain ⟨past, order, before⟩ := progress.order
  rw [nextMention, order, List.find?_eq_none]
  intro mention member
  rcases List.mem_append.1 member with member | member
  · simpa using before mention member
  · simpa using progress.isMet_iff.1 (all mention member)

variable {front back : List (String × Option String)} {mention : String × Option String}

/-- The first mention left of a new file is next. -/
theorem nextMention_eq_some
    (progress : Progress disk base path seen done (front ++ mention :: back))
    (before : ∀ mention ∈ front, disk.canonical mention.1 ∈ seen)
    (new : disk.canonical mention.1 ∉ seen) :
    nextMention disk base path done.reverse = some mention := by
  obtain ⟨past, order, passed⟩ := progress.order
  rw [nextMention, order, List.find?_eq_some_iff_append]
  refine ⟨?_, past ++ front, back, by simp, ?_⟩
  · simpa using mt progress.isMet_iff.2 new
  · intro other member
    rcases List.mem_append.1 member with member | member
    · simpa using passed other member
    · simpa using progress.isMet_iff.1 (before other member)

/-- Reading the document that is next leads on. -/
theorem read
    (progress : Progress disk base path seen done
      (front ++ (source.path, source.inherited) :: back))
    (before : ∀ mention ∈ front, disk.canonical mention.1 ∈ seen)
    (new : disk.canonical source.path ∉ seen) (read : source.IsRead disk) :
    Progress disk base path (disk.canonical source.path :: seen) (source :: done)
      (back ++ source.mentions base) where
  gathered := by
    rw [List.reverse_cons]
    exact progress.gathered.concat (progress.nextMention_eq_some before new) read
  met := by
    intro key
    rw [List.mem_cons, progress.met]
    simp [eq_comm]
  order := by
    obtain ⟨past, order, passed⟩ := progress.order
    refine ⟨past ++ front ++ [(source.path, source.inherited)], ?_, ?_⟩
    · rw [mentionsOf] at order ⊢
      rw [List.reverse_cons, List.flatMap_append, ← List.cons_append, order]
      simp
    · have grow : ∀ {file}, IsMet disk done.reverse file →
          IsMet disk (source :: done).reverse file := by
        rintro file ⟨other, member, same⟩
        exact ⟨other, by simpa using .inl (List.mem_reverse.1 member), same⟩
      intro mention member
      rcases List.mem_append.1 member with member | member
      · rcases List.mem_append.1 member with member | member
        · exact grow (passed mention member)
        · exact grow (progress.isMet_iff.1 (before mention member))
      · rw [List.mem_singleton.1 member]
        exact ⟨source, by simp, rfl⟩

/-- From wherever collecting stands it comes to an end, if there is a step for each
file that is left and one more. -/
theorem run_collectFrom (progress : Progress disk base path seen done queue)
    (enough : disk.files.length < fuel + done.length) :
    ∃ outcome, (collectFrom Disk.host base fuel seen done queue).run disk =
      (outcome, disk) ∧ Collects disk base path outcome := by
  induction fuel generalizing seen done queue with
  | zero =>
      have bound := progress.gathered.length_le
      simp only [List.length_reverse] at bound
      omega
  | succ fuel ih =>
      rw [collectFrom]
      rcases run_nextNew disk seen queue with
        ⟨ran, all⟩ | ⟨front, mention, back, rfl, before, new, ran⟩
      · rw [run_bind_of_run ran]
        exact ⟨_, rfl, .all progress.gathered (progress.nextMention_eq_none all)⟩
      · rw [run_bind_of_run ran]
        obtain ⟨mentioned, space⟩ := mention
        dsimp only
        rcases run_ofFile disk mentioned space with
          ⟨source, ran, isRead, rfl, rfl⟩ | ⟨fault, ran, unread⟩
        · rw [run_bind_of_run ran]
          refine ih (progress.read before new isRead) ?_
          rw [List.length_cons]
          omega
        · rw [run_bind_of_run ran]
          exact ⟨_, rfl, .stopped progress.gathered
            (progress.nextMention_eq_some before new) unread⟩

end Progress

/-- Collecting comes to an end and leaves the disk as it is. -/
theorem run_collect (disk : Disk) (path : String) (base : Option String) :
    ∃ outcome, (collect Disk.host path base).run disk = (outcome, disk) ∧
      Collects disk base path outcome := by
  have asked : Disk.host.mostFiles.run disk = (disk.files.length, disk) := rfl
  rw [collect, run_bind_of_run asked]
  have start : Progress disk base path [] [] [(path, none)] :=
    ⟨.nil, by simp, [], rfl, by simp⟩
  exact start.run_collectFrom (Nat.lt_succ_self _)

end XmlRecords.Source
