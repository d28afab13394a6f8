import Mathlib.Data.Set.Basic
import XmlRecords.Files.Disk
import XmlRecords.Proofs.PathNames
import XmlRecords.Proofs.Runs

/-!
# Files on a disk

While a disk grows, paths go on leading to what they led to.  Making directories
changes no file.  A file that is made empty or added to is one file, and the
others hold what they held.
-/

namespace XmlRecords.Disk

variable {disk later last : Disk} {place parts current : List String}
  {path : String} {written : Set (List String)}

/-- What is a file or a directory stays one, and no file takes the place of a
directory. -/
structure Grows (disk later : Disk) : Prop where
  files : ∀ parts, disk.isFile parts → later.isFile parts
  directories : ∀ parts, disk.isDirectory parts → later.isDirectory parts
  apart : ∀ parts, disk.isDirectory parts → later.isFile parts → disk.isFile parts

/-- The disk grows, and all files but those that are written hold what they held. -/
structure Writes (written : Set (List String)) (disk later : Disk) : Prop
    extends Grows disk later where
  contents : ∀ parts ∉ written,
    later.files.lookup parts = disk.files.lookup parts

theorem Grows.refl (disk : Disk) : Grows disk disk :=
  ⟨fun _ isFile => isFile, fun _ isDirectory => isDirectory, fun _ _ isFile => isFile⟩

theorem Grows.trans (first : Grows disk later) (second : Grows later last) :
    Grows disk last where
  files := fun parts isFile => second.files parts (first.files parts isFile)
  directories := fun parts isDirectory =>
    second.directories parts (first.directories parts isDirectory)
  apart := fun parts isDirectory isFile => first.apart parts isDirectory
    (second.apart parts (first.directories parts isDirectory) isFile)

theorem Writes.refl (written : Set (List String)) (disk : Disk) :
    Writes written disk disk :=
  ⟨.refl disk, fun _ _ => rfl⟩

theorem Writes.trans (first : Writes written disk later)
    (second : Writes written later last) : Writes written disk last :=
  ⟨first.toGrows.trans second.toGrows, fun parts other =>
    (second.contents parts other).trans (first.contents parts other)⟩

theorem Writes.mono {more : Set (List String)} (writes : Writes written disk later)
    (further : written ⊆ more) : Writes more disk later :=
  ⟨writes.toGrows, fun parts other =>
    writes.contents parts fun member => other (further member)⟩

/-- The parts of a path lead from a directory to a place, one after the other. -/
inductive Leads (disk : Disk) : List String → List String → Place → Prop where
  | done {current : List String} : Leads disk current [] (.directory current)
  | stay {current rest : List String} {part : String} {target : Place}
      (point : part = "" ∨ part = ".") (further : Leads disk current rest target) :
      Leads disk current (part :: rest) target
  | top {current rest : List String} {target : Place}
      (above : current.all (· == ".."))
      (further : Leads disk (current ++ [".."]) rest target) :
      Leads disk current (".." :: rest) target
  | up {current rest : List String} {target : Place}
      (below : ¬ current.all (· == ".."))
      (further : Leads disk current.dropLast rest target) :
      Leads disk current (".." :: rest) target
  | file {current : List String} {part : String} (filled : part ≠ "")
      (named : ¬ Path.IsPoints part) (isFile : disk.isFile (current ++ [part])) :
      Leads disk current [part] (.file (current ++ [part]))
  | down {current rest : List String} {part : String} {target : Place}
      (filled : part ≠ "") (named : ¬ Path.IsPoints part)
      (noFile : ¬ disk.isFile (current ++ [part]))
      (isDirectory : disk.isDirectory (current ++ [part]))
      (further : Leads disk (current ++ [part]) rest target) :
      Leads disk current (part :: rest) target

theorem leads_of_follow {target : Place}
    (found : disk.follow current parts = .ok target) :
    disk.Leads current parts target := by
  induction parts generalizing current with
  | nil =>
      cases found
      exact .done
  | cons part rest ih =>
      rw [follow] at found
      split at found
      · next point => exact .stay (by simpa using point) (ih found)
      · next filled =>
          split at found
          · next up =>
              subst up
              split at found
              · next above => exact .top above (ih found)
              · next below => exact .up below (ih found)
          · next down =>
              simp only [Bool.or_eq_true, decide_eq_true_eq, not_or] at filled
              have named : ¬ Path.IsPoints part := not_or.2 ⟨filled.2, down⟩
              dsimp only at found
              split at found
              · next isFile =>
                  split at found
                  · next none =>
                      obtain rfl := List.isEmpty_iff.1 none
                      cases found
                      exact .file filled.1 named isFile
                  · cases found
              · next noFile =>
                  split at found
                  · next isDirectory =>
                      exact .down filled.1 named noFile isDirectory (ih found)
                  · cases found

theorem Leads.follow {target : Place} (leads : disk.Leads current parts target) :
    disk.follow current parts = .ok target := by
  induction leads with
  | done => rfl
  | stay point _ ih => simpa [Disk.follow, point] using ih
  | top above _ ih => simpa [Disk.follow, above] using ih
  | up below _ ih => simpa [Disk.follow, below] using ih
  | file filled named isFile =>
      simp [Disk.follow, filled, (not_or.1 named).1, (not_or.1 named).2, isFile]
  | down filled named noFile isDirectory _ ih =>
      simpa [Disk.follow, filled, (not_or.1 named).1, (not_or.1 named).2, noFile,
        isDirectory] using ih

/-- A path that leads somewhere is relative. -/
theorem locate_eq_ok {target : Place} :
    disk.locate path = .ok target ↔
      path ≠ "" ∧ Path.isAbsolute path = false ∧
        disk.Leads [] (Path.parts path) target := by
  rw [locate]
  split
  · next outside =>
      simp only [Bool.or_eq_true, String.isEmpty_iff] at outside
      simp only [reduceCtorEq, false_iff, not_and]
      rintro filled relative
      rw [relative] at outside
      simp [filled] at outside
  · next inside =>
      simp only [Bool.or_eq_true, String.isEmpty_iff, not_or,
        Bool.not_eq_true] at inside
      exact ⟨fun found => ⟨inside.1, inside.2, leads_of_follow found⟩,
        fun ⟨_, _, leads⟩ => leads.follow⟩

/-- Where a path led to something, it leads to the same later. -/
theorem Leads.grow (grows : Grows disk later) {target : Place}
    (leads : disk.Leads current parts target) : later.Leads current parts target := by
  induction leads with
  | done => exact .done
  | stay point _ ih => exact .stay point ih
  | top above _ ih => exact .top above ih
  | up below _ ih => exact .up below ih
  | file filled named isFile => exact .file filled named (grows.files _ isFile)
  | down filled named noFile isDirectory _ ih =>
      exact .down filled named
        (fun isFile => noFile (grows.apart _ isDirectory isFile))
        (grows.directories _ isDirectory) ih

theorem Grows.locate (grows : Grows disk later) {target : Place}
    (found : disk.locate path = .ok target) : later.locate path = .ok target := by
  obtain ⟨filled, relative, leads⟩ := locate_eq_ok.1 found
  exact locate_eq_ok.2 ⟨filled, relative, leads.grow grows⟩

/-- A path can be followed first to a directory and then from there. -/
theorem Leads.append {inside rest : List String} {middle target : Place}
    (first : disk.Leads current parts middle) (through : middle = .directory inside)
    (second : disk.Leads inside rest target) :
    disk.Leads current (parts ++ rest) target := by
  induction first with
  | done =>
      cases through
      exact second
  | stay point _ ih => exact .stay point (ih through)
  | top above _ ih => exact .top above (ih through)
  | up below _ ih => exact .up below (ih through)
  | file => cases through
  | down filled named noFile isDirectory _ ih =>
      exact .down filled named noFile isDirectory (ih through)

/-- A file is at the end of the path that leads to it, under the last part of the
path. -/
theorem Leads.getLast? {target : Place} (leads : disk.Leads current parts target)
    (toFile : target = .file place) :
    ∃ name, parts.getLast? = some name ∧ place.getLast? = some name ∧
      name ≠ "" ∧ ¬ Path.IsPoints name ∧ disk.isFile place := by
  have further : ∀ {part : String} {rest : List String},
      (∃ name, rest.getLast? = some name ∧ place.getLast? = some name ∧
        name ≠ "" ∧ ¬ Path.IsPoints name ∧ disk.isFile place) →
      ∃ name, (part :: rest).getLast? = some name ∧ place.getLast? = some name ∧
        name ≠ "" ∧ ¬ Path.IsPoints name ∧ disk.isFile place := by
    rintro part rest ⟨name, last, others⟩
    exact ⟨name, by rw [List.getLast?_cons, last]; rfl, others⟩
  induction leads with
  | done => cases toFile
  | stay _ _ ih | top _ _ ih | up _ _ ih | down _ _ _ _ _ ih =>
      exact further (ih toFile)
  | @file _ part filled named isFile =>
      cases toFile
      exact ⟨part, rfl, by simp, filled, named, isFile⟩

theorem getLast?_of_locate (found : disk.locate path = .ok (.file place)) :
    ∃ name, (Path.parts path).getLast? = some name ∧ place.getLast? = some name ∧
      name ≠ "" ∧ ¬ Path.IsPoints name ∧ disk.isFile place :=
  (locate_eq_ok.1 found).2.2.getLast? rfl

theorem lookup_map_of_ne (files : List (List String × List UInt8))
    (bytes : List UInt8) (other : parts ≠ place) :
    (files.map fun (path, old) =>
        if path = place then (path, bytes) else (path, old)).lookup parts =
      files.lookup parts := by
  induction files with
  | nil => rfl
  | cons file rest ih =>
      obtain ⟨path, old⟩ := file
      rw [List.map_cons, List.lookup_cons]
      by_cases same : path = place
      · subst same
        have differs : (parts == path) = false := by simpa using other
        simp only [if_true, List.lookup_cons, differs]
        exact ih
      · simp only [if_neg same, List.lookup_cons]
        rw [ih]

theorem lookup_map_self (files : List (List String × List UInt8))
    (bytes : List UInt8) (known : (files.lookup place).isSome) :
    (files.map fun (path, old) =>
        if path = place then (path, bytes) else (path, old)).lookup place =
      some bytes := by
  induction files with
  | nil => cases known
  | cons file rest ih =>
      obtain ⟨path, old⟩ := file
      rw [List.map_cons]
      by_cases same : path = place
      · simp [same]
      · have differs : (place == path) = false := by
          simpa using fun equal => same equal.symm
        rw [List.lookup_cons, differs] at known
        simp only [if_neg same, List.lookup_cons, differs]
        exact ih known

theorem lookup_setFile (disk : Disk) (place : List String) (bytes : List UInt8) :
    (disk.setFile place bytes).files.lookup place = some bytes := by
  rw [setFile]
  split
  · next known => exact lookup_map_self disk.files bytes known
  · next unknown =>
      rw [isFile, Bool.not_eq_true, Option.isSome_eq_false_iff,
        Option.isNone_iff_eq_none] at unknown
      simp [List.lookup_append, unknown]

theorem lookup_setFile_of_ne (disk : Disk) (bytes : List UInt8)
    (other : parts ≠ place) :
    (disk.setFile place bytes).files.lookup parts = disk.files.lookup parts := by
  rw [setFile]
  split
  · exact lookup_map_of_ne disk.files bytes other
  · have differs : (parts == place) = false := by simpa using other
    simp [List.lookup_append, List.lookup_cons, differs]

/-- A file is written anew, or where there is no directory. -/
theorem writes_setFile (bytes : List UInt8)
    (free : disk.isFile place ∨ ¬ disk.isDirectory place) :
    Writes {place} disk (disk.setFile place bytes) := by
  have isFile_of_ne : ∀ parts, parts ≠ place →
      (disk.setFile place bytes).isFile parts = disk.isFile parts := by
    intro parts other
    rw [isFile, isFile, lookup_setFile_of_ne disk bytes other]
  have directories : (disk.setFile place bytes).directories = disk.directories := by
    rw [setFile]
    split <;> rfl
  refine ⟨⟨?_, ?_, ?_⟩, fun parts other => lookup_setFile_of_ne disk bytes other⟩
  · intro parts known
    by_cases same : parts = place
    · rw [same, isFile, lookup_setFile]
      rfl
    · rwa [isFile_of_ne parts same]
  · intro parts known
    rwa [isDirectory, directories]
  · intro parts known isFile
    by_cases same : parts = place
    · subst same
      exact free.resolve_right fun open' => open' known
    · rwa [isFile_of_ne parts same] at isFile

/-- Making a directory changes no file. -/
theorem writes_makeDirectory (made : disk.makeDirectory path = .ok later) :
    Writes ∅ disk later := by
  rw [makeDirectory] at made
  obtain ⟨⟨parts, name⟩, _, made⟩ := Outcome.bind_eq_ok.1 made
  dsimp only at made
  split at made
  · cases made
  · next new =>
      cases made
      simp only [Bool.or_eq_true, decide_eq_true_eq, not_or, Bool.not_eq_true] at new
      refine ⟨⟨fun _ isFile => isFile, ?_, fun _ _ isFile => isFile⟩,
        fun _ _ => rfl⟩
      intro other known
      simp only [isDirectory, Bool.or_eq_true, List.contains_eq_mem,
        decide_eq_true_eq, List.mem_append] at known ⊢
      exact known.imp id .inl

/-- Neither does making a directory with those it lies in. -/
theorem writes_makeDirectoriesWithin {fuel : Nat}
    (made : makeDirectoriesWithin fuel disk path = .ok later) :
    Writes ∅ disk later := by
  induction fuel generalizing disk path later with
  | zero => cases made
  | succ fuel ih =>
      rw [makeDirectoriesWithin] at made
      split at made
      · cases made
        exact .refl ∅ disk
      · split at made
        · next here =>
            cases made
            exact writes_makeDirectory here
        · dsimp only at made
          split at made
          · cases made
          · obtain ⟨between, outer, made⟩ := Outcome.bind_eq_ok.1 made
            exact (ih outer).trans (writes_makeDirectory made)
        · split at made
          · cases made
            exact .refl ∅ disk
          · cases made

/-- A path to a new file leads through a directory to the last part of the path. -/
theorem locateNew_eq_ok {inside : List String} {name : String}
    (located : disk.locateNew path = .ok (inside, name)) (filled : path ≠ "")
    (closed : Path.endsInSlash path = false) :
    Path.isAbsolute path = false ∧ name ≠ "" ∧ ∃ front,
      Path.parts path = front ++ [name] ∧
        disk.Leads [] front (.directory inside) := by
  rw [locateNew] at located
  split at located
  · cases located
  next relative =>
  refine ⟨by simpa using relative, ?_⟩
  split at located
  · cases located
  next name' front dropped =>
  obtain ⟨target, followed, located⟩ := Outcome.bind_eq_ok.1 located
  split at located
  · cases located
  cases located
  have named : ¬ name.isEmpty = true := by
    have stops := Text.stops_dropWhile (·.isEmpty) (Path.parts path).reverse
    rw [dropped] at stops
    simpa using Text.stops_cons.1 stops
  have last := Path.getLast?_parts_ne_empty filled closed
  rw [← List.head?_reverse] at last
  have whole : (Path.parts path).reverse = name :: front := by
    cases reversed : (Path.parts path).reverse with
    | nil =>
        rw [reversed] at dropped
        cases dropped
    | cons part rest =>
        rw [reversed] at dropped last
        have filled : ¬ part.isEmpty = true := by simpa using last
        rwa [List.dropWhile_cons_of_neg filled] at dropped
  refine ⟨by simpa using named, front.reverse, ?_, leads_of_follow followed⟩
  rw [← List.reverse_reverse (Path.parts path), whole, List.reverse_cons]

/-- A file that was made empty is what its path leads to. -/
theorem exists_place_of_create (created : disk.create path = .ok later) :
    ∃ place, Writes {place} disk later ∧ later.locate path = .ok (.file place) ∧
      later.files.lookup place = some [] := by
  rw [create] at created
  split at created
  · next place found =>
      cases created
      obtain ⟨_, _, _, _, _, isFile⟩ := getLast?_of_locate found
      have writes : Writes {place} disk _ := writes_setFile [] (.inl isFile)
      exact ⟨place, writes, writes.toGrows.locate found, lookup_setFile _ _ _⟩
  · cases created
  · next missing =>
      split at created
      · cases created
      next filled =>
      obtain ⟨⟨inside, name⟩, located, created⟩ := Outcome.bind_eq_ok.1 created
      dsimp only at created
      split at created
      · cases created
      next closed =>
      cases created
      rw [String.isEmpty_iff] at filled
      rw [Bool.not_eq_true] at closed
      obtain ⟨relative, filledName, front, whole, leads⟩ :=
        locateNew_eq_ok located filled closed
      -- Nothing was there, so the last part leads nowhere yet.
      have nothing : ∀ target, ¬ disk.Leads inside [name] target := by
        intro target found
        have := locate_eq_ok.2 ⟨filled, relative, whole ▸ leads.append rfl found⟩
        rw [missing] at this
        cases this
      have named : ¬ Path.IsPoints name := by
        rintro (rfl | rfl)
        · exact nothing _ (.stay (.inr rfl) .done)
        · by_cases above : inside.all (· == "..")
          · exact nothing _ (.top above .done)
          · exact nothing _ (.up above .done)
      have noFile : ¬ disk.isFile (inside ++ [name]) := fun isFile =>
        nothing _ (.file filledName named isFile)
      have noDirectory : ¬ disk.isDirectory (inside ++ [name]) := fun isDirectory =>
        nothing _ (.down filledName named noFile isDirectory .done)
      have writes : Writes {inside ++ [name]} disk _ :=
        writes_setFile [] (.inr noDirectory)
      have held := lookup_setFile disk (inside ++ [name]) []
      have isFile : (disk.setFile (inside ++ [name]) []).isFile (inside ++ [name]) := by
        rw [Disk.isFile, held]
        rfl
      refine ⟨inside ++ [name], writes, ?_, held⟩
      refine locate_eq_ok.2 ⟨filled, relative, ?_⟩
      rw [whole]
      exact (leads.grow writes.toGrows).append rfl (.file filledName named isFile)
  · cases created

/-- Text is added to the file that a path leads to. -/
theorem append_eq {text : String} {bytes : List UInt8}
    (found : disk.locate path = .ok (.file place))
    (held : disk.files.lookup place = some bytes) :
    Writes {place} disk (disk.append path text) ∧
      (disk.append path text).files.lookup place =
        some (bytes ++ Utf8.encode text) := by
  obtain ⟨_, _, _, _, _, isFile⟩ := getLast?_of_locate found
  rw [append, found]
  simp only [held, Option.getD_some]
  exact ⟨writes_setFile _ (.inl isFile), lookup_setFile _ _ _⟩

/-- The bytes of a file are those that it holds. -/
theorem read_eq_ok {bytes : List UInt8} (found : disk.locate path = .ok (.file place))
    (held : disk.files.lookup place = some bytes) : disk.read path = .ok bytes := by
  rw [read, found]
  simp [bind, Except.bind, held, pure, Except.pure]

/-- Whatever can be read is held by a file. -/
theorem exists_place_of_read {bytes : List UInt8} (read : disk.read path = .ok bytes) :
    ∃ place, disk.locate path = .ok (.file place) ∧
      disk.files.lookup place = some bytes := by
  rw [Disk.read] at read
  obtain ⟨target, found, read⟩ := Outcome.bind_eq_ok.1 read
  cases target with
  | directory parts => cases read
  | file place =>
      obtain ⟨_, _, _, _, _, isFile⟩ := getLast?_of_locate found
      obtain ⟨held, isHeld⟩ := Option.isSome_iff_exists.1 isFile
      cases read
      exact ⟨place, found, by rw [isHeld]; rfl⟩

/-- A file that is not written can be read as before. -/
theorem Writes.read_eq (writes : Writes written disk later)
    (found : disk.locate path = .ok (.file place)) (apart : place ∉ written) :
    later.read path = disk.read path := by
  obtain ⟨_, _, _, _, _, isFile⟩ := getLast?_of_locate found
  obtain ⟨held, isHeld⟩ := Option.isSome_iff_exists.1 isFile
  rw [read_eq_ok found isHeld, read_eq_ok (writes.toGrows.locate found)
    ((writes.contents place apart).trans isHeld)]

end XmlRecords.Disk
