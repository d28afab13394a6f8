import XmlRecords.Files.Host
import XmlRecords.Files.Path
import XmlRecords.Files.Pattern

/-!
# Expanding patterns for paths

The paths that a pattern stands for are found by walking the directories of a
host, names in ascending order, and a directory in front of what lies in it.  A
part of plain characters is followed without looking at the other names.
-/

namespace XmlRecords

/-- A directory that cannot be listed. -/
structure ListingFault where
  path : String
  fault : FileFault
  deriving DecidableEq, Repr

/-- The wording of a listing fault. -/
def ListingFault.message (fault : ListingFault) : String :=
  "attempting to read " ++ ticked fault.path ++ " resulted in an error: " ++
    fault.fault.message

namespace PathPattern

/-- Recognise the paths that name the working directory by points alone. -/
def isHere (path : String) : Bool :=
  !path.isEmpty && !path.startsWith "/" &&
    (Path.parts path).all fun part => part == "" || part == "."

/-- The path of an entry of a directory. -/
def entry (directory name : String) : String :=
  if isHere directory then name else Path.join directory name

/-- The names for a directory itself and the one it lies in that a pattern
stands for.  They are no entries, so only a pattern that begins with a point can
mean them. -/
def pointNames (part : Pattern) : List String :=
  if part.head? = some (.exactly '.') then
    ["..", "."].filter fun name => part.accepts name.toList
  else []

variable {m : Type → Type} [Monad m]

/-- Decide whether a path leads to a directory. -/
def isDirectory (host : Host m) (path : String) : ExceptT ListingFault m Bool :=
  return (← host.kind? path) = some .directory

/-- Decide whether a part of plain characters can be followed from a
directory. -/
def canFollow (host : Host m) (directory name : String) :
    ExceptT ListingFault m Bool :=
  if name = "." || name = ".." then isDirectory host directory
  else return (← host.kind? (entry directory name)).isSome

/-- The names in a directory. -/
def names (host : Host m) (directory : String) :
    ExceptT ListingFault m (List String) := do
  match ← host.list directory with
  | .ok names => return names
  | .error fault => throw ⟨directory, fault⟩

/-- Go on at a path that the parts so far stand for. -/
def settle (host : Host m) (onlyDirectories : Bool)
    (under : List Pattern → String → ExceptT ListingFault m (List String))
    (rest : List Pattern) (path : String) :
    ExceptT ListingFault m (List String) := do
  if !rest.isEmpty then under rest path
  else if onlyDirectories && !(← isDirectory host path) then return []
  else return [path]

/-- Go on at an entry of a directory, if its part stands for the name. -/
def choose (host : Host m) (onlyDirectories : Bool)
    (under : List Pattern → String → ExceptT ListingFault m (List String))
    (part : Pattern) (rest : List Pattern) (directory name : String) :
    ExceptT ListingFault m (List String) :=
  if part.accepts name.toList then
    settle host onlyDirectories under rest (entry directory name)
  else return []

/-- Go on at an entry of a directory with a part for any directories. -/
def descend (host : Host m) (onlyDirectories : Bool)
    (under : List Pattern → String → ExceptT ListingFault m (List String))
    (part : Pattern) (rest : List Pattern) (directory name : String) :
    ExceptT ListingFault m (List String) := do
  let path := entry directory name
  let rest := rest.dropWhile Pattern.isDeep
  let below ←
    if ← isDirectory host path then
      Option.some <$> under (part :: rest) path
    else pure none
  match rest with
  | [] =>
      match below with
      | some paths => return path :: paths
      | none => return []
  | next :: rest =>
      return (← choose host onlyDirectories under next rest directory name) ++
        below.getD []

/-- The paths under a directory that parts of a pattern stand for.  Each step
goes down by a directory or on by a part. -/
def expandUnder (host : Host m) (onlyDirectories : Bool) :
    Nat → List Pattern → String → ExceptT ListingFault m (List String)
  | 0, _, _ => return []
  | _ + 1, [], _ => return []
  | fuel + 1, part :: rest, directory => do
      let under := expandUnder host onlyDirectories fuel
      match part.literal? with
      | some name =>
          if ← canFollow host directory name then
            settle host onlyDirectories under rest (entry directory name)
          else return []
      | none =>
          if !(← isDirectory host directory) then return []
          let points ← (pointNames part).mapM fun name =>
            settle host onlyDirectories under rest (Path.join directory name)
          let visit := if part.isDeep then descend else choose
          let entries ← (← names host directory).mapM fun name =>
            visit host onlyDirectories under part rest directory name
          return points.flatten ++ entries.flatten

/-- More characters than a path may have. -/
def maxPathLength : Nat := 4096

/-- The paths that a pattern stands for. -/
def expand (host : Host m) (pattern : PathPattern) :
    ExceptT ListingFault m (List String) :=
  expandUnder host pattern.onlyDirectories
    (maxPathLength + pattern.parts.length) pattern.parts
    (if pattern.absolute then "/" else ".")

end PathPattern

end XmlRecords
