import XmlRecords.Files.Host
import XmlRecords.Files.Path

/-!
# Disks

A disk is a tree of files below a working directory, as a value: a list of files
and a list of directories, each known by the parts of its path.  Paths are
followed part by part, so a part that leads through a file or through nothing is
a fault even where a later part would lead back.  The directories above the
working directory exist, but nothing is known to lie in them.
-/

namespace XmlRecords

/-- A tree of files, with what has been printed and what can be read from the
standard input. -/
structure Disk where
  files : List (List String × List UInt8) := []
  directories : List (List String) := []
  printed : String := ""
  input : List UInt8 := []

namespace Disk

/-- A place on a disk. -/
inductive Place where
  | file (parts : List String)
  | directory (parts : List String)
  deriving DecidableEq, Repr

/-- Recognise a file. -/
def isFile (disk : Disk) (parts : List String) : Bool :=
  (disk.files.lookup parts).isSome

/-- Recognise a directory. -/
def isDirectory (disk : Disk) (parts : List String) : Bool :=
  parts.isEmpty || disk.directories.contains parts

/-- Follow the parts of a path from a directory. -/
def follow (disk : Disk) : List String → List String → Except FileFault Place
  | current, [] => .ok (.directory current)
  | current, part :: rest =>
      if part = "" || part = "." then disk.follow current rest
      else if part = ".." then
        if current.all (· == "..") then disk.follow (current ++ [".."]) rest
        else disk.follow current.dropLast rest
      else
        let next := current ++ [part]
        if disk.isFile next then
          if rest.isEmpty then .ok (.file next) else .error .notDirectory
        else if disk.isDirectory next then disk.follow next rest
        else .error .notFound

/-- The place that a path leads to. -/
def locate (disk : Disk) (path : String) : Except FileFault Place :=
  if path.isEmpty || Path.isAbsolute path then .error .notFound
  else disk.follow [] (Path.parts path)

/-- One spelling of all paths to a place, which leads to that place itself. -/
def canonical (disk : Disk) (path : String) : String :=
  match disk.locate path with
  | .ok (.file parts) => "/".intercalate parts
  | .ok (.directory parts) => "/".intercalate (parts ++ ["."])
  | .error _ => path

/-- What a path leads to, if it leads to anything. -/
def kind? (disk : Disk) (path : String) : Option EntryKind :=
  match disk.locate path with
  | .ok (.file _) => some .file
  | .ok (.directory _) => some .directory
  | .error _ => none

/-- The bytes of a file. -/
def read (disk : Disk) (path : String) : Except FileFault (List UInt8) := do
  match ← disk.locate path with
  | .directory _ => throw .isDirectory
  | .file parts => return (disk.files.lookup parts).getD []

/-- The names of what lies directly in a directory. -/
def namesIn (disk : Disk) (parts : List String) : List String :=
  let below := disk.files.map (·.1) ++ disk.directories
  let names := below.filterMap fun path =>
    if path.dropLast = parts then path.getLast? else none
  (names.mergeSort fun a b => decide (a ≤ b)).eraseReps

/-- The names in a directory. -/
def list (disk : Disk) (path : String) : Except FileFault (List String) := do
  match ← disk.locate path with
  | .file _ => throw .notDirectory
  | .directory parts => return disk.namesIn parts

/-- Write a file, in its place if there is one. -/
def setFile (disk : Disk) (parts : List String) (bytes : List UInt8) : Disk :=
  if disk.isFile parts then
    { disk with
      files := disk.files.map fun (path, old) =>
        if path = parts then (path, bytes) else (path, old) }
  else { disk with files := disk.files ++ [(parts, bytes)] }

/-- The directory that a path to a new entry leads through, and the name of that
entry. -/
def locateNew (disk : Disk) (path : String) :
    Except FileFault (List String × String) := do
  if Path.isAbsolute path then throw .notFound
  else
    match (Path.parts path).reverse.dropWhile (·.isEmpty) with
    | [] => throw .notFound
    | name :: front =>
        match ← disk.follow [] front.reverse with
        | .file _ => throw .notDirectory
        | .directory parts => return (parts, name)

/-- Make one directory. -/
def makeDirectory (disk : Disk) (path : String) : Except FileFault Disk := do
  let (parts, name) ← disk.locateNew path
  let place := parts ++ [name]
  if name = "." || name = ".." || disk.isFile place || disk.isDirectory place then
    throw .alreadyExists
  else return { disk with directories := disk.directories ++ [place] }

/-- Make a directory after a bounded number of directories it lies in. -/
def makeDirectoriesWithin : Nat → Disk → String → Except FileFault Disk
  | 0, _, _ => .error .notFound
  | fuel + 1, disk, path =>
      if path.isEmpty then .ok disk
      else
        match disk.makeDirectory path with
        | .ok disk => .ok disk
        | .error .notFound => do
            let parent := (Path.parent? path).getD ""
            if parent.isEmpty then throw .notFound
            else
              let disk ← makeDirectoriesWithin fuel disk parent
              disk.makeDirectory path
        | .error fault =>
            if disk.kind? path = some .directory then .ok disk
            else .error fault

/-- Make a directory and the directories it lies in, as far as they are
missing. -/
def makeDirectories (disk : Disk) (path : String) : Except FileFault Disk :=
  makeDirectoriesWithin (path.length + 1) disk path

/-- Make a file empty. -/
def create (disk : Disk) (path : String) : Except FileFault Disk := do
  match disk.locate path with
  | .ok (.file parts) => return disk.setFile parts []
  | .ok (.directory _) => throw .isDirectory
  | .error .notFound =>
      if path.isEmpty then throw .notFound
      else
        let (parts, name) ← disk.locateNew path
        if Path.endsInSlash path then throw .isDirectory
        else return disk.setFile (parts ++ [name]) []
  | .error fault => throw fault

/-- Add text to a file. -/
def append (disk : Disk) (path text : String) : Disk :=
  match disk.locate path with
  | .ok (.file parts) =>
      disk.setFile parts
        ((disk.files.lookup parts).getD [] ++ Utf8.encode text)
  | _ => disk

/-- Let an operation change the disk unless it fails. -/
def changing (operation : Disk → Except FileFault Disk) :
    StateM Disk (Except FileFault Unit) := do
  match operation (← get) with
  | .ok disk => set disk; return .ok ()
  | .error fault => return .error fault

/-- A disk as a host. -/
def host : Host (StateM Disk) where
  canonical path := return (← get).canonical path
  mostFiles := return (← get).files.length
  kind? path := return (← get).kind? path
  read path := return (← get).read path
  list path := return (← get).list path
  makeDirectories path := changing (·.makeDirectories path)
  create path := changing (·.create path)
  append path text := modify (·.append path text)
  print text := modify fun disk => { disk with printed := disk.printed ++ text }
  readInput := return (← get).input

/-- The files below the working directory, by paths in ascending order. -/
def contents (disk : Disk) : List (String × List UInt8) :=
  let below := disk.files.filter fun (parts, _) => parts.head? != some ".."
  (below.map fun (parts, bytes) => ("/".intercalate parts, bytes)).mergeSort
    fun a b => decide (a.1 ≤ b.1)

/-- A disk with files at paths, and with all directories that they lie in. -/
def ofFiles (files : List (String × List UInt8)) : Disk :=
  files.foldl (fun disk (path, bytes) =>
    let parts := (Path.parts path).filter fun part => part != "" && part != "."
    let fronts := (List.range parts.length).map parts.take
    { disk with
      files := disk.files ++ [(parts, bytes)]
      directories := disk.directories ++
        fronts.filter fun front =>
          !front.isEmpty && !disk.directories.contains front }) {}

end Disk

end XmlRecords
