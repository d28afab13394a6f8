import XmlRecords.Command.Run
import XmlRecords.Proofs.DiskFiles
import XmlRecords.Proofs.PatternExpansion

/-!
# Outputs of their own

Inputs that are transcoded to a directory each get a file there, which is named by
replacing endings twice: that of the input, to get its stem, and that of the stem.
Where a stem has an ending of its own, inputs with different stems can have one
file, and what is written last is left in it.  Where no stem has one, every input
gets the file with its stem, in whatever order the inputs are met.
-/

namespace XmlRecords

namespace Command

open Disk (Writes writes_makeDirectoriesWithin)

variable {conversion : Conversion} {streaming : Bool} {directory path : String}
  {disk later last : Disk}

/-- The stem of an input: its file name without its ending. -/
def inputStem (path : String) : String :=
  ((Path.fileName? path).map Path.stem).getD path

/-- Nothing is replaced where the stem of an input gets an ending. -/
def KeepsStem (path : String) : Prop :=
  Path.withEnding "json" (inputStem path) = inputStem path ++ ".json"

instance (path : String) : Decidable (KeepsStem path) :=
  inferInstanceAs (Decidable (_ = _))

theorem append_json_ne (name : String) : name ≠ name ++ ".json" := by
  intro same
  have := congrArg (fun text => text.toList.length) same
  simp at this

theorem append_json_inj {first second : String}
    (same : first ++ ".json" = second ++ ".json") : first = second := by
  have chars := congrArg String.toList same
  rw [String.toList_append, String.toList_append] at chars
  exact String.toList_injective (List.append_cancel_right chars)

theorem fileName?_of_keepsStem (keeps : KeepsStem path) :
    (Path.fileName? path).isSome ∧ (Path.fileName? (inputStem path)).isSome := by
  have second : (Path.fileName? (inputStem path)).isSome := by
    cases unnamed : Path.fileName? (inputStem path) with
    | some name => rfl
    | none =>
        rw [KeepsStem, Path.withEnding, unnamed] at keeps
        exact absurd keeps (append_json_ne _)
  refine ⟨?_, second⟩
  cases unnamed : Path.fileName? path with
  | some name => rfl
  | none =>
      rw [inputStem, unnamed] at second
      simp [unnamed] at second

/-- A stem that keeps what it ends in is a name by itself. -/
theorem isName_inputStem (keeps : KeepsStem path) : Path.IsName (inputStem path) := by
  obtain ⟨named, again⟩ := fileName?_of_keepsStem keeps
  obtain ⟨name, named⟩ := Option.isSome_iff_exists.1 named
  have same : inputStem path = Path.stem name := by
    rw [inputStem, named]
    rfl
  refine ⟨?_, ?_, ?_⟩
  · intro empty
    rw [empty] at again
    exact absurd again (by decide)
  · rw [same]
    exact fun member => (Path.single_of_fileName? named) (Path.mem_of_mem_stem member)
  · rintro (point | points)
    · rw [point] at again
      exact absurd again (by decide)
    · rw [points] at again
      exact absurd again (by decide)

theorem isName_append_json {name : String} (isName : Path.IsName name) :
    Path.IsName (name ++ ".json") := by
  have long : (name ++ ".json").toList.length ≥ 5 := by simp
  refine ⟨?_, ?_, ?_⟩
  · intro empty
    rw [empty] at long
    simp at long
  · have := isName.single
    simp [String.toList_append, this]
  · rintro (point | points)
    · rw [point] at long
      simp at long
    · rw [points] at long
      simp at long

/-- The file for an input that keeps its stem has that stem, in the directory. -/
theorem outputFor_eq (keeps : KeepsStem path) (directory : String) :
    outputFor directory path = Path.join directory (inputStem path ++ ".json") ∧
      (Path.parts (outputFor directory path)).getLast? =
        some (inputStem path ++ ".json") := by
  have isName := isName_inputStem keeps
  obtain ⟨front, isFront, joined⟩ := Path.exists_front directory
  have relative := Path.isAbsolute_of_not_mem isName.single
  have isName' := isName_append_json isName
  have own : Path.stem (inputStem path) = inputStem path := by
    have atFront : Path.IsFront [] := Text.stops_nil
    have alone := Path.withEnding_append atFront isName "json"
    rw [List.nil_append, String.ofList_toList, keeps, String.append_assoc] at alone
    have ended : inputStem path ++ ".json" = Path.stem (inputStem path) ++ ".json" := by
      simpa using alone
    exact (append_json_inj ended).symm
  have output : outputFor directory path =
      String.ofList (front ++ (inputStem path ++ ".json").toList) := by
    calc outputFor directory path
        = Path.withEnding "json" (Path.join directory (inputStem path)) := rfl
      _ = String.ofList front ++ inputStem path ++ "." ++ "json" := by
          rw [joined _ relative, Path.withEnding_append isFront isName, own]
      _ = String.ofList (front ++ (inputStem path ++ ".json").toList) := by
          rw [String.ofList_append, String.ofList_toList, String.append_assoc,
            String.append_assoc]
          rfl
  refine ⟨?_, ?_⟩
  · rw [output, joined _ (Path.isAbsolute_of_not_mem isName'.single)]
  · rw [output, Path.getLast?_parts_append isFront isName']

/-- Nothing can be transcoded from a file without any content. -/
theorem inputLines_of_nothing (conversion : Conversion) (streaming : Bool)
    (path : String) : (inputLines conversion streaming path (.ok [])).2 ≠ none := by
  cases streaming with
  | false =>
      have failed : wholeLines conversion path (.ok []) =
          .error (.markup (.inFile path (.malformed .noElement))) := rfl
      simp [inputLines, failed]
  | true =>
      have failed : streamLines conversion (transcoding path) [] =
          ("", some (.ofError (transcoding path) (.markup .noRootElement))) := rfl
      simp [inputLines, failed]

theorem orFail_eq_ok {α : Type} {failure : FileFault → Failure}
    {outcome : Except FileFault α} {a : α} :
    (orFail (m := StateM Disk) failure outcome).run.run disk = (.ok a, later) ↔
      outcome = .ok a ∧ later = disk := by
  cases outcome with
  | ok b =>
      rw [orFail, Attempt.pure_eq_ok]
      simp [eq_comm]
  | error fault =>
      constructor
      · intro ended
        cases ended
      · rintro ⟨impossible, _⟩
        cases impossible

/-- An operation that changes the disk, and that the program gives up on. -/
theorem changing_bind_eq_ok {operation : Disk → Except FileFault Disk}
    {failure : FileFault → Failure} {next : Unit → ExceptT Failure (StateM Disk) Unit}
    (ended : ((liftM (Disk.changing operation) : ExceptT Failure (StateM Disk) _) >>=
      fun result => orFail failure result >>= next).run.run disk = (.ok (), later)) :
    ∃ between, operation disk = .ok between ∧
      (next ()).run.run between = (.ok (), later) := by
  rw [Attempt.lift_bind_eq_ok, Attempt.bind_eq_ok] at ended
  obtain ⟨_, between, gave, ended⟩ := ended
  obtain ⟨worked, rfl⟩ := orFail_eq_ok.1 gave
  cases outcome : operation disk with
  | ok made =>
      have ran : (Disk.changing operation).run disk = (.ok (), made) := by
        simp only [Disk.changing, StateT.run_bind, StateT.run_get, pure_bind, outcome]
        rfl
      rw [ran] at ended
      exact ⟨made, rfl, ended⟩
  | error fault =>
      have ran : (Disk.changing operation).run disk = (.error fault, disk) := by
        simp only [Disk.changing, StateT.run_bind, StateT.run_get, pure_bind, outcome]
        rfl
      rw [ran] at worked
      cases worked

theorem changing_eq_ok {operation : Disk → Except FileFault Disk}
    {failure : FileFault → Failure}
    (ended : ((liftM (Disk.changing operation) : ExceptT Failure (StateM Disk) _) >>=
      orFail failure).run.run disk = (.ok (), later)) :
    operation disk = .ok later := by
  have ended : ((liftM (Disk.changing operation) : ExceptT Failure (StateM Disk) _) >>=
      fun result => orFail failure result >>= pure).run.run disk = (.ok (), later) := by
    simpa only [bind_pure] using ended
  obtain ⟨between, worked, ended⟩ := changing_bind_eq_ok ended
  obtain ⟨_, rfl⟩ := Attempt.pure_eq_ok.1 ended
  exact worked

/-- The place that has been opened holds nothing, and no other file has changed. -/
theorem exists_place_of_openOutput
    (opened : (openOutput Disk.host (some path)).run.run disk = (.ok (), later)) :
    ∃ place, Writes {place} disk later ∧ later.locate path = .ok (.file place) ∧
      later.files.lookup place = some [] := by
  have made : ∃ between, Writes ∅ disk between ∧
      between.create path = .ok later := by
    rw [openOutput] at opened
    dsimp only at opened
    split at opened
    · obtain ⟨between, parents, opened⟩ := changing_bind_eq_ok opened
      exact ⟨between, writes_makeDirectoriesWithin parents, changing_eq_ok opened⟩
    · exact ⟨disk, .refl ∅ disk, changing_eq_ok opened⟩
  obtain ⟨between, writes, created⟩ := made
  obtain ⟨place, writes', located, held⟩ := Disk.exists_place_of_create created
  exact ⟨place, (writes.mono (Set.empty_subset _)).trans writes', located, held⟩

theorem writeUpTo_eq_ok {result : String × Option Failure}
    (wrote : (writeUpTo Disk.host (some path) result).run.run disk = (.ok (), later)) :
    result.2 = none ∧ later = disk.append path result.1 := by
  obtain ⟨text, failure⟩ := result
  rw [writeUpTo, Attempt.lift_bind_eq_ok] at wrote
  cases failure with
  | none =>
      obtain ⟨_, after⟩ := Attempt.pure_eq_ok.1 wrote
      exact ⟨rfl, after⟩
  | some failure => cases wrote

/-- What an input yields is all that its file holds, and no other file changes. -/
theorem exists_place_of_runOne
    (ran : (runOne Disk.host conversion streaming directory path).run.run disk =
      (.ok (), later)) :
    ∃ place opened text, Writes {place} disk opened ∧
      opened.locate (outputFor directory path) = .ok (.file place) ∧
      opened.files.lookup place = some [] ∧
      inputLines conversion streaming path (opened.read path) = (text, none) ∧
      Writes {place} opened later ∧
      later.locate (outputFor directory path) = .ok (.file place) ∧
      later.files.lookup place = some (Utf8.encode text) := by
  rw [runOne] at ran
  obtain ⟨_, opened, hasOpened, ran⟩ := Attempt.bind_eq_ok.1 ran
  obtain ⟨place, writes, located, held⟩ := exists_place_of_openOutput hasOpened
  have wrote : (writeUpTo Disk.host (some (outputFor directory path))
      (inputLines conversion streaming path (opened.read path))).run.run opened =
      (.ok (), later) := ran
  generalize yields : inputLines conversion streaming path (opened.read path) = result
    at wrote
  obtain ⟨text, failure⟩ := result
  obtain ⟨succeeded, appended⟩ := writeUpTo_eq_ok wrote
  obtain ⟨writes', held'⟩ := Disk.append_eq located held
  rw [← appended] at writes' held'
  exact ⟨place, opened, text, writes, located, held, succeeded ▸ yields, writes',
    writes'.toGrows.locate located, held'⟩

/-- The places of files that are named by one of some stems. -/
def outputsOf (stems : List String) : Set (List String) :=
  {place | ∃ stem ∈ stems, place.getLast? = some (stem ++ ".json")}

theorem outputsOf_mono {stems more : List String} (inside : stems ⊆ more) :
    outputsOf stems ⊆ outputsOf more :=
  fun _ ⟨stem, member, named⟩ => ⟨stem, inside member, named⟩

theorem stem_append_json {name : String} (filled : name ≠ "") :
    Path.stem (name ++ ".json") = name := by
  have chars : (name ++ ".json").toList.reverse.dropWhile (· != '.') =
      '.' :: name.toList.reverse := by
    simp [String.toList_append]
  rw [Path.stem, chars]
  cases back : name.toList.reverse with
  | nil => exact absurd (Path.eq_ofList_reverse back) filled
  | cons c rest => exact (Path.eq_ofList_reverse back).symm

/-- An input that can be read is none of the outputs of inputs with other stems. -/
theorem not_mem_outputsOf {place : List String} {stems : List String}
    (found : disk.locate path = .ok (.file place)) (filled : "" ∉ stems)
    (other : inputStem path ∉ stems) : place ∉ outputsOf stems := by
  rintro ⟨stem, member, named⟩
  obtain ⟨name, last, last', filledName, notPoints, _⟩ := Disk.getLast?_of_locate found
  obtain ⟨fileName, _⟩ := Path.fileName?_of_getLast?_parts last filledName notPoints
  obtain rfl : name = stem ++ ".json" := Option.some.inj (last'.symm.trans named)
  have same : inputStem path = stem := by
    rw [inputStem, fileName]
    exact stem_append_json fun empty => filled (empty ▸ member)
  exact other (same ▸ member)

/-- Only an input that can be read yields anything without a failure. -/
theorem exists_bytes_of_inputLines {outcome : Except FileFault (List UInt8)}
    {text : String}
    (yields : inputLines conversion streaming path outcome = (text, none)) :
    ∃ bytes, outcome = .ok bytes := by
  cases outcome with
  | ok bytes => exact ⟨bytes, rfl⟩
  | error fault => cases streaming <;> cases fault <;> cases yields

/-- Each input has been transcoded to its output, and holds what it held. -/
structure Transcoded (conversion : Conversion) (streaming : Bool) (directory : String)
    (before after : Disk) (path : String) (bytes : List UInt8) (text : String) :
    Prop where
  yields : inputLines conversion streaming path (.ok bytes) = (text, none)
  source : after.read path = .ok bytes
  unchanged : ∀ old, before.read path = .ok old → old = bytes
  output : after.read (Path.join directory (inputStem path ++ ".json")) =
    .ok (Utf8.encode text)

/-- An input that keeps its stem writes nothing but its output. -/
theorem runOne_of_keepsStem (keeps : KeepsStem path)
    (ran : (runOne Disk.host conversion streaming directory path).run.run disk =
      (.ok (), later)) :
    Writes (outputsOf [inputStem path]) disk later ∧
      ∃ bytes text, Transcoded conversion streaming directory disk later path bytes
        text := by
  obtain ⟨place, opened, text, opening, _, empty, yields, writing, located, holds⟩ :=
    exists_place_of_runOne ran
  obtain ⟨output, ends⟩ := outputFor_eq keeps directory
  have named : place.getLast? = some (inputStem path ++ ".json") := by
    obtain ⟨name, last, last', _⟩ := Disk.getLast?_of_locate located
    rw [last', ← last, ends]
  have inside : {place} ⊆ outputsOf [inputStem path] := by
    rintro _ rfl
    exact ⟨_, List.mem_singleton_self _, named⟩
  obtain ⟨bytes, read⟩ := exists_bytes_of_inputLines yields
  obtain ⟨source, found, held⟩ := Disk.exists_place_of_read read
  have apart : source ∉ ({place} : Set (List String)) := by
    -- An input that is its own output would have been empty when it was read.
    rintro rfl
    rw [Disk.read_eq_ok found empty] at yields
    exact inputLines_of_nothing _ _ _ (congrArg Prod.snd yields)
  rw [read] at yields
  refine ⟨(opening.mono inside).trans (writing.mono inside), bytes, text, yields, ?_, ?_,
    ?_⟩
  · rw [writing.read_eq found apart, read]
  · intro old readOld
    obtain ⟨source', found', _⟩ := Disk.exists_place_of_read readOld
    obtain rfl : source' = source := by
      simpa using (opening.toGrows.locate found').symm.trans found
    rw [← opening.read_eq found' apart, read] at readOld
    exact (Except.ok.inj readOld).symm
  · rw [← output]
    exact Disk.read_eq_ok located holds

theorem runEach_cons_eq_ok {rest : List String}
    (ran : (runEach Disk.host conversion streaming directory (path :: rest)).run disk =
      (.ok (), last)) :
    ∃ between,
      (runOne Disk.host conversion streaming directory path).run.run disk =
        (.ok (), between) ∧
      (runEach Disk.host conversion streaming directory rest).run between =
        (.ok (), last) := by
  rw [runEach, StateT.run_bind] at ran
  rcases first : (runOne Disk.host conversion streaming directory path).run.run disk
    with ⟨failed | done, between⟩
  · rw [first] at ran
    cases ran
  · rw [first] at ran
    exact ⟨between, rfl, ran⟩

/-- An output stays as it is while inputs with other stems are transcoded, and so does
an input. -/
theorem Transcoded.of_writes_after {stems : List String} {before : Disk} {bytes : List UInt8}
    {text : String} (keeps : KeepsStem path) (filled : "" ∉ stems)
    (other : inputStem path ∉ stems)
    (done : Transcoded conversion streaming directory before disk path bytes text)
    (writes : Writes (outputsOf stems) disk later) :
    Transcoded conversion streaming directory before later path bytes text where
  yields := done.yields
  source := by
    obtain ⟨source, found, _⟩ := Disk.exists_place_of_read done.source
    rw [writes.read_eq found (not_mem_outputsOf found filled other), done.source]
  unchanged := done.unchanged
  output := by
    obtain ⟨place, located, _⟩ := Disk.exists_place_of_read done.output
    have named : place.getLast? = some (inputStem path ++ ".json") := by
      obtain ⟨name, last, last', _⟩ := Disk.getLast?_of_locate located
      rw [last', ← last, ← (outputFor_eq keeps directory).1,
        (outputFor_eq keeps directory).2]
    have free : place ∉ outputsOf stems := by
      rintro ⟨stem, member, named'⟩
      have same := append_json_inj (Option.some.inj (named.symm.trans named'))
      exact other (same ▸ member)
    rw [writes.read_eq located free, done.output]

/-- What was read late can have been read early. -/
theorem Transcoded.of_writes_before {stems : List String} {before : Disk} {bytes : List UInt8}
    {text : String} (filled : "" ∉ stems) (other : inputStem path ∉ stems)
    (done : Transcoded conversion streaming directory disk later path bytes text)
    (writes : Writes (outputsOf stems) before disk) :
    Transcoded conversion streaming directory before later path bytes text where
  yields := done.yields
  source := done.source
  unchanged := by
    intro old read
    obtain ⟨source, found, _⟩ := Disk.exists_place_of_read read
    refine done.unchanged old ?_
    rw [writes.read_eq found (not_mem_outputsOf found filled other), read]
  output := done.output

/-- Inputs that keep their stems, which all differ, write their outputs only, and each
output holds what its input yields. -/
theorem runEach_of_keepsStem {order : List String}
    (keeps : ∀ path ∈ order, KeepsStem path) (apart : (order.map inputStem).Nodup)
    (ran : (runEach Disk.host conversion streaming directory order).run disk =
      (.ok (), last)) :
    Writes (outputsOf (order.map inputStem)) disk last ∧
      ∀ path ∈ order, ∃ bytes text,
        Transcoded conversion streaming directory disk last path bytes text := by
  induction order generalizing disk with
  | nil =>
      cases ran
      exact ⟨.refl _ _, fun _ member => absurd member List.not_mem_nil⟩
  | cons first rest ih =>
      obtain ⟨between, ranFirst, ranRest⟩ := runEach_cons_eq_ok ran
      rw [List.map_cons, List.nodup_cons] at apart
      have filled : "" ∉ (first :: rest).map inputStem := by
        intro member
        obtain ⟨path, member, empty⟩ := List.mem_map.1 member
        exact (isName_inputStem (keeps path member)).filled empty
      have filledFirst : "" ∉ [inputStem first] := fun member =>
        filled (List.mem_singleton.1 member ▸ List.mem_cons_self)
      have filledRest : "" ∉ rest.map inputStem := fun member =>
        filled (List.mem_cons_of_mem _ member)
      rw [List.forall_mem_cons] at keeps
      obtain ⟨writes, bytes, text, done⟩ := runOne_of_keepsStem keeps.1 ranFirst
      obtain ⟨writes', doneRest⟩ := ih keeps.2 apart.2 ranRest
      have inFirst : outputsOf [inputStem first] ⊆
          outputsOf ((first :: rest).map inputStem) :=
        outputsOf_mono (by simp)
      have inRest : outputsOf (rest.map inputStem) ⊆
          outputsOf ((first :: rest).map inputStem) :=
        outputsOf_mono (by simp)
      refine ⟨(writes.mono inFirst).trans (writes'.mono inRest), fun path member => ?_⟩
      rcases List.mem_cons.1 member with rfl | member
      · exact ⟨bytes, text, done.of_writes_after keeps.1 filledRest apart.1 writes'⟩
      · obtain ⟨bytes, text, done⟩ := doneRest path member
        refine ⟨bytes, text, done.of_writes_before filledFirst ?_ writes⟩
        rw [List.mem_singleton]
        intro same
        exact apart.1 (same ▸ List.mem_map_of_mem member)

/-- Inputs that go to a directory are found before it is made, and taken up after. -/
theorem exists_paths_of_runFiles {request : TranscodeRequest}
    (toDirectory : request.destination = .directory directory)
    (ran : (runFiles Disk.host conversion request).run.run disk = (.ok (), last)) :
    ∃ paths ready,
      (request.inputs.mapM (inputPaths Disk.host)).run.run disk = (.ok paths, disk) ∧
      disk.makeDirectories directory = .ok ready ∧
      (runEach Disk.host conversion request.streaming directory paths.flatten).run
        ready = (.ok (), last) := by
  rw [runFiles] at ran
  obtain ⟨paths, found, expanded, went⟩ := Attempt.bind_eq_ok.1 ran
  obtain rfl : found = disk := by
    have same := Attempt.looks_mapM looks_inputPaths request.inputs disk
    rwa [expanded] at same
  dsimp only at went
  rw [toDirectory] at went
  obtain ⟨ready, made, went⟩ := changing_bind_eq_ok went
  exact ⟨paths, ready, expanded, made, went⟩

theorem orError_bind_eq_ok {α : Type} {doing : String} {outcome : Except Error α}
    {next : α → ExceptT Failure (StateM Disk) Unit}
    (ran : (orError doing outcome >>= next).run.run disk = (.ok (), later)) :
    ∃ a, outcome = .ok a ∧ (next a).run.run disk = (.ok (), later) := by
  cases outcome with
  | ok a => exact ⟨a, rfl, ran⟩
  | error fault => cases ran

/-- The outputs of a run to a directory: when the stems of the inputs are pairwise
different and have no endings of their own, the file with the stem of an input holds all
that the input yields and nothing else, in whatever order the inputs are taken up. -/
theorem exists_output_of_runTranscode {request : TranscodeRequest}
    (toDirectory : request.destination = .directory directory)
    (files : "-" ∉ request.inputs)
    (ran : (runTranscode Disk.host request).run.run disk = (.ok (), later)) :
    ∃ graph paths ready,
      readSchema request.schema (disk.read request.schema) = .ok graph ∧
      (request.inputs.mapM (inputPaths Disk.host)).run.run disk = (.ok paths, disk) ∧
      disk.makeDirectories directory = .ok ready ∧
      (runEach Disk.host ⟨graph, request.settings, request.depth⟩ request.streaming
        directory paths.flatten).run ready = (.ok (), later) ∧
      ((∀ path ∈ paths.flatten, KeepsStem path) →
        (paths.flatten.map inputStem).Nodup →
        ∀ order last, order.Perm paths.flatten →
          (runEach Disk.host ⟨graph, request.settings, request.depth⟩ request.streaming
            directory order).run ready = (.ok (), last) →
          ∀ path ∈ paths.flatten, ∃ bytes text,
            Transcoded ⟨graph, request.settings, request.depth⟩ request.streaming
              directory disk last path bytes text) := by
  rw [runTranscode] at ran
  obtain ⟨graph, schema, ran⟩ := orError_bind_eq_ok ran
  have ranFiles : (runFiles Disk.host ⟨graph, request.settings, request.depth⟩
      request).run.run disk = (.ok (), later) := by
    have noStandard : request.inputs.contains "-" = false := by simpa using files
    dsimp only at ran
    rw [noStandard] at ran
    exact ran
  obtain ⟨paths, ready, expanded, made, each⟩ :=
    exists_paths_of_runFiles toDirectory ranFiles
  refine ⟨graph, paths, ready, schema, expanded, made, each, ?_⟩
  intro keeps apart order last perm ranOrder path member
  obtain ⟨_, done⟩ := runEach_of_keepsStem
    (fun path member => keeps path (perm.mem_iff.1 member))
    ((perm.map inputStem).nodup_iff.2 apart) ranOrder
  obtain ⟨bytes, text, done⟩ := done path (perm.mem_iff.2 member)
  exact ⟨bytes, text, done.of_writes_before List.not_mem_nil List.not_mem_nil
    ((writes_makeDirectoriesWithin made).mono (Set.empty_subset (outputsOf [])))⟩

/-- A schema for texts, and two documents. -/
def twoDocuments (first second : String) : Disk :=
  .ofFiles [("s.json", Utf8.encode "\"string\""), (first, Utf8.encode "<a>1</a>"),
    (second, Utf8.encode "<a>2</a>")]

/-- Transcode the two documents to one directory. -/
def twoInputs (first second : String) : TranscodeRequest where
  schema := "s.json"
  inputs := [first, second]
  destination := .directory "out"
  streaming := false
  depth := .root
  settings := {}

/-- How the run for the two documents ends, and the disk that it leaves. -/
def runForTwo (first second : String) : Except Failure Unit × Disk :=
  (runTranscode Disk.host (twoInputs first second)).run.run (twoDocuments first second)

/-- Stems with endings of their own can differ in these endings alone, and then one
output is lost. -/
theorem output_lost :
    inputStem "a.b.xml" ≠ inputStem "a.c.xml" ∧
      (runForTwo "a.b.xml" "a.c.xml").1.toOption = some () ∧
      ((runForTwo "a.b.xml" "a.c.xml").2.read "out/a.b.json").toOption = none ∧
      ((runForTwo "a.b.xml" "a.c.xml").2.read "out/a.c.json").toOption = none ∧
      ((runForTwo "a.b.xml" "a.c.xml").2.read "out/a.json").toOption =
        some (Utf8.encode "\"2\"\n") := by
  decide +kernel

/-- With single endings, there is an output for each document. -/
theorem transcoded_of_single_endings :
    ∃ conversion bytes text, Transcoded conversion false "out"
      (twoDocuments "a.xml" "b.xml") (runForTwo "a.xml" "b.xml").2 "b.xml" bytes
      text := by
  have ended : (runForTwo "a.xml" "b.xml").1.toOption = some () := by decide +kernel
  have expanded : ((["a.xml", "b.xml"].mapM (inputPaths Disk.host)).run.run
      (twoDocuments "a.xml" "b.xml")).1.toOption = some [["a.xml"], ["b.xml"]] := by
    decide +kernel
  have ran : (runTranscode Disk.host (twoInputs "a.xml" "b.xml")).run.run
      (twoDocuments "a.xml" "b.xml") = (.ok (), (runForTwo "a.xml" "b.xml").2) := by
    rw [← runForTwo]
    generalize runForTwo "a.xml" "b.xml" = outcome at ended
    obtain ⟨_ | _, last⟩ := outcome
    · cases ended
    · rfl
  obtain ⟨graph, paths, ready, _, found, _, each, done⟩ :=
    exists_output_of_runTranscode rfl (by decide) ran
  obtain rfl : [["a.xml"], ["b.xml"]] = paths :=
    Option.some.inj (expanded.symm.trans
      (congrArg (fun outcome => outcome.1.toOption) found))
  exact ⟨_, done (by decide) (by decide) _ _ (.refl _) each "b.xml" (by decide)⟩

end Command

end XmlRecords
