import XmlRecords.Error
import XmlRecords.Text.Utf8

/-!
# Hosts

What the program asks of the system it runs on, as a record of operations in any
monad.  One host is the system itself; another is a value, on which everything
can be computed.
-/

namespace XmlRecords

/-- What a path leads to. -/
inductive EntryKind where
  | file
  | directory
  deriving DecidableEq, Repr

/-- The operations of a host. -/
structure Host (m : Type → Type) where
  /-- One spelling for all paths to a file; a path to nothing stays as it is. -/
  canonical : String → m String
  /-- A number that the files which can be read do not exceed. -/
  mostFiles : m Nat
  /-- What a path leads to, if it leads to anything. -/
  kind? : String → m (Option EntryKind)
  /-- The bytes of a file. -/
  read : String → m (Except FileFault (List UInt8))
  /-- The names in a directory in ascending order. -/
  list : String → m (Except FileFault (List String))
  /-- Make a directory and the directories it lies in, as far as they are
  missing. -/
  makeDirectories : String → m (Except FileFault Unit)
  /-- Make a file empty, and make it if it is missing. -/
  create : String → m (Except FileFault Unit)
  /-- Add text to a file that has been created. -/
  append : String → String → m Unit
  /-- Add text to the standard output. -/
  print : String → m Unit
  /-- All bytes of the standard input. -/
  readInput : m (List UInt8)

/-- Read a file as text. -/
def Host.readText {m : Type → Type} [Monad m] (host : Host m) (path : String) :
    m (Except FileFault String) := do
  match ← host.read path with
  | .error fault => return .error fault
  | .ok bytes =>
      match Utf8.decode? bytes with
      | some text => return .ok text
      | none => return .error .notUtf8

end XmlRecords
