/-!
# Paths

Paths are texts of parts between slashes.  A slash at the end and parts that
consist of one point say nothing, unless such a part is the first.
-/

namespace XmlRecords.Path

/-- Recognise the paths that begin at the root of all directories. -/
def isAbsolute (path : String) : Bool := path.toList.head? == some '/'

/-- Recognise the paths with a slash at their end. -/
def endsInSlash (path : String) : Bool := path.toList.getLast? == some '/'

/-- Put a path behind a directory.  An absolute path stands alone. -/
def join (directory path : String) : String :=
  if isAbsolute path || directory.isEmpty then path
  else if endsInSlash directory then directory ++ path
  else directory ++ "/" ++ path

/-- Drop from a reversed path what says nothing at its end. -/
def trimReversed : List Char → List Char
  | ['/'] => ['/']
  | '/' :: front => trimReversed front
  | ['.', '/'] => ['/']
  | '.' :: '/' :: front => trimReversed front
  | path => path

/-- The reversed path in front of the last part of a trimmed reversed path. -/
def frontReversed (path : List Char) : List Char :=
  trimReversed (path.dropWhile (· != '/'))

/-- The directory that a path lies in, unless it has no parts. -/
def parent? (path : String) : Option String :=
  match trimReversed path.toList.reverse with
  | [] | ['/'] => none
  | trimmed => some (String.ofList (frontReversed trimmed).reverse)

/-- The last part of a path, unless that part stands for a directory by way of
points. -/
def fileName? (path : String) : Option String :=
  match (trimReversed path.toList.reverse).takeWhile (· != '/') with
  | [] | ['.'] | ['.', '.'] => none
  | name => some (String.ofList name.reverse)

/-- A file name without its ending.  A point at its front begins no ending. -/
def stem (name : String) : String :=
  match name.toList.reverse.dropWhile (· != '.') with
  | _ :: c :: front => String.ofList (c :: front).reverse
  | _ => name

/-- Replace the ending of the file name of a path, if it has one. -/
def withEnding (ending path : String) : String :=
  match fileName? path with
  | none => path
  | some name =>
      let front := (trimReversed path.toList.reverse).dropWhile (· != '/')
      String.ofList front.reverse ++ stem name ++ "." ++ ending

/-- Split a path at its slashes. -/
def parts (path : String) : List String :=
  (path.toList.splitOn '/').map String.ofList

end XmlRecords.Path
