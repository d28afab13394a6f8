import XmlRecords.Command.Run

/-!
# The program

The host that the program runs on, and its entry point.
-/

namespace XmlRecords.Program

/-- The fault that the system reports.  Its code comes with either sign. -/
def faultOf : IO.Error → FileFault
  | .noFileOrDirectory _ _ _ => .notFound
  | .alreadyExists _ _ _ => .alreadyExists
  | .inappropriateType file code details =>
      if code = 20 || code = -20 then .notDirectory
      else if code = 21 || code = -21 then .isDirectory
      else .other (toString (IO.Error.inappropriateType file code details))
  | error => .other (toString error)

/-- Turn what the system reports into a fault. -/
def attempt {α : Type} (action : IO α) : IO (Except FileFault α) := do
  match ← action.toBaseIO with
  | .ok value => return .ok value
  | .error error => return .error (faultOf error)

/-- Read a stream to its end. -/
partial def readToEnd (stream : IO.FS.Stream) (bytes : ByteArray) :
    IO ByteArray := do
  let block ← stream.read 65536
  if block.isEmpty then return bytes else readToEnd stream (bytes ++ block)

/-- What a path leads to, as far as the system tells. -/
def kind? (path : String) : IO (Option EntryKind) := do
  match ← attempt (IO.FS.realPath path) with
  | .error _ => return none
  | .ok place =>
      return some (if ← place.isDir then .directory else .file)

/-- The names in a directory in ascending order. -/
def list (path : String) : IO (List String) := do
  let entries ← (← IO.FS.realPath path).readDir
  return (entries.toList.map (·.fileName)).mergeSort fun a b => decide (a ≤ b)

/-- Add text to a file. -/
def append (path text : String) : IO Unit :=
  IO.FS.withFile path .append fun handle => handle.putStr text

/-- As many files as can be told apart by numbers of 64 bits, as systems number
them. -/
def mostFiles : Nat := 0x10000000000000000

/-- The system as a host. -/
def host : Host IO where
  canonical path := do
    match ← attempt (IO.FS.realPath path) with
    | .ok file => return file.toString
    | .error _ => return path
  mostFiles := return mostFiles
  kind? := kind?
  read path := attempt do return (← IO.FS.readBinFile path).toList
  list path := attempt (list path)
  makeDirectories path := attempt (IO.FS.createDirAll path)
  create path := attempt (IO.FS.writeBinFile path .empty)
  append := append
  print text := do (← IO.getStdout).putStr text
  readInput := do return (← readToEnd (← IO.getStdin) .empty).toList

/-- Run the program and report how it ends. -/
def runProgram (arguments : List String) : IO UInt32 := do
  let ending ← Command.run host arguments
  match ending with
  | .done => pure ()
  | .failed failure =>
      IO.eprintln (failure.label ++ ": " ++ failure.message)
  | .misused fault => IO.eprintln ("error: " ++ fault.message)
  return ending.exitCode.toUInt32

end XmlRecords.Program

/-- The entry point of the program. -/
def main (arguments : List String) : IO UInt32 :=
  XmlRecords.Program.runProgram arguments
