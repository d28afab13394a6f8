import XmlRecords.Command.Failure
import XmlRecords.Command.Request
import XmlRecords.Components.Reading
import XmlRecords.Files.Host
import XmlRecords.Graph.Lowering
import XmlRecords.SchemaText.Reader
import XmlRecords.SchemaText.Writer
import XmlRecords.Transcode.Lines

/-!
# Carrying out requests

A request is carried out on a host.  What an input yields in front of a failure
is written all the same, and the place that it is written to is opened first.
-/

namespace XmlRecords

/-- How a run of the program ends. -/
inductive Ending where
  | done
  | failed (failure : Failure)
  | misused (fault : UsageFault)
  deriving DecidableEq, Repr

/-- The exit code of an ending. -/
def Ending.exitCode : Ending → Nat
  | .done => 0
  | .failed _ => 1
  | .misused _ => 2

namespace Command

/-- What the program answers when it is asked for its version. -/
def versionText : String := "xsd-osi 0.1.0\n"

/-- What the program answers when it is asked for help. -/
def helpText : String :=
  "Usage: xsd-osi schema --xsd <XSD> [--base-dir <DIR>] [--root <ROOT>] " ++
    "[--out <OUT>]\n" ++
    "       xsd-osi transcode --schema <SCHEMA> --input <INPUT>... " ++
    "[--out <OUT> | --out-dir <DIR>] [--stream] [--split] " ++
    "[--timezone <ZONE>] [--max-depth <LEVELS>]\n"

variable {m : Type → Type} [Monad m]

/-- Give up on a fault of the host. -/
def orFail {α : Type} (failure : FileFault → Failure) :
    Except FileFault α → ExceptT Failure m α
  | .ok value => return value
  | .error fault => throw (failure fault)

/-- Give up on an error. -/
def orError {α : Type} (doing : String) :
    Except Error α → ExceptT Failure m α
  | .ok value => return value
  | .error error => throw (.ofError doing error)

/-- Open the place that output goes to: a new file, with the directories that it
lies in, or the standard output. -/
def openOutput (host : Host m) : Option String → ExceptT Failure m Unit
  | none => return ()
  | some path => do
      let parent := (Path.parent? path).getD ""
      if !parent.isEmpty then
        orFail (fun fault => ⟨[], .file fault⟩)
          (← host.makeDirectories parent)
      orFail (fun fault => ⟨["failed to create " ++ path], .file fault⟩)
        (← host.create path)

/-- Write to the place that has been opened. -/
def write (host : Host m) (output : Option String) (text : String) : m Unit :=
  match output with
  | none => host.print text
  | some path => host.append path text

/-- Write lines, and give up if there is a failure behind them. -/
def writeUpTo (host : Host m) (output : Option String)
    (result : String × Option Failure) : ExceptT Failure m Unit := do
  write (m := m) host output result.1
  match result.2 with
  | none => return ()
  | some failure => throw failure

/-- Derive a record schema and write it. -/
def runSchema (host : Host m) (request : SchemaRequest) :
    ExceptT Failure m Unit := do
  let components ←
    orError ("failed to load " ++ request.document)
      (← Components.load (m := m) host request.document request.base)
  let graph ←
    orError ("failed to derive a schema from " ++ request.document)
      (Graph.ofComponents components request.root)
  let text ← orError "" graph.toText
  openOutput host request.output
  write (m := m) host request.output (text ++ "\n")

/-- Read a record schema.  A text that is not well formed is reported with its
path, one that has no meaning without. -/
def readSchema (path : String) (bytes : Except FileFault (List UInt8)) :
    Except Error Graph :=
  match bytes with
  | .error fault => .error (.file fault)
  | .ok bytes => Graph.ofText (Utf8.decodeUntilGap bytes) |>.mapError fun
      | .format .notJson => .format (.inFile path .notJson)
      | .format .noSchemaShape => .format (.inFile path .noSchemaShape)
      | error => error

/-- What was being done when an input could not be transcoded. -/
def transcoding (path : String) : String := "failed to transcode " ++ path

/-- The lines of an input that is read as a whole. -/
def wholeLines (conversion : Conversion) (path : String)
    (bytes : Except FileFault (List UInt8)) : Except Error String :=
  match bytes with
  | .error fault => .error (.file fault)
  | .ok bytes =>
      match Utf8.decode? bytes with
      | none => .error (.file .notUtf8)
      | some text => do
          let element ←
            (Xml.readElement conversion.settings.maxDepth text).mapError fun
              | .markup fault => .markup (.inFile path fault)
              | error => error
          return conversion.lines (← conversion.ofElement element)

/-- The lines of bytes that are read as a stream, and the failure behind
them. -/
def streamLines (conversion : Conversion) (doing : String)
    (bytes : List UInt8) : String × Option Failure :=
  let (emitted, error) := conversion.ofBytes bytes
  (conversion.lines emitted, error.map (.ofError doing))

/-- The lines of an input, and the failure behind them.  A directory can be
opened as a stream, but not read. -/
def inputLines (conversion : Conversion) (streaming : Bool) (path : String)
    (bytes : Except FileFault (List UInt8)) : String × Option Failure :=
  let doing := transcoding path
  if streaming then
    match bytes with
    | .ok bytes => streamLines conversion doing bytes
    | .error .isDirectory =>
        ("", some (.ofError doing
          (.markup (.malformed (.unreadable .isDirectory)))))
    | .error fault => ("", some ⟨[doing], .file fault⟩)
  else
    match wholeLines conversion path bytes with
    | .ok lines => (lines, none)
    | .error error => ("", some (.ofError doing error))

/-- The paths that an input stands for. -/
def inputPaths (host : Host m) (input : String) :
    ExceptT Failure m (List String) :=
  if !PathPattern.isMeant input then return [input]
  else do
    match PathPattern.read input with
    | .error fault =>
        throw ⟨["invalid glob pattern: " ++ input], .pattern fault⟩
    | .ok pattern =>
        match ← (pattern.expand host).run with
        | .error fault => throw ⟨[], .listing fault⟩
        | .ok [] => throw ⟨[], .noMatch input⟩
        | .ok paths => return paths

/-- The lines of inputs one after another up to the first that fails, and that
failure. -/
def allLines (host : Host m) (conversion : Conversion) (streaming : Bool) :
    List String → m (String × Option Failure)
  | [] => return ("", none)
  | path :: rest => do
      match inputLines conversion streaming path (← host.read path) with
      | (lines, some failure) => return (lines, some failure)
      | (lines, none) =>
          let (later, failure) ← allLines host conversion streaming rest
          return (lines ++ later, failure)

/-- The file in a directory for what an input yields. -/
def outputFor (directory path : String) : String :=
  let stem := ((Path.fileName? path).map Path.stem).getD path
  Path.withEnding "json" (Path.join directory stem)

/-- Transcode an input to a file of its own. -/
def runOne (host : Host m) (conversion : Conversion) (streaming : Bool)
    (directory path : String) : ExceptT Failure m Unit := do
  let output := some (outputFor directory path)
  openOutput host output
  writeUpTo host output
    (inputLines conversion streaming path (← host.read path))

/-- Transcode inputs to files of their own.  No input waits for another one, so
all are transcoded, and the first failure is the one that is reported. -/
def runEach (host : Host m) (conversion : Conversion) (streaming : Bool)
    (directory : String) : List String → m (Except Failure Unit)
  | [] => return .ok ()
  | path :: rest => do
      let first ← (runOne host conversion streaming directory path).run
      let later ← runEach host conversion streaming directory rest
      match first with
      | .error failure => return .error failure
      | .ok () => return later

/-- Transcode the standard input. -/
def runStandardInput (host : Host m) (conversion : Conversion)
    (request : TranscodeRequest) : ExceptT Failure m Unit := do
  if request.inputs.length ≠ 1 then throw ⟨[], .inputNotAlone⟩
  let output ←
    match request.destination with
    | .standard => pure none
    | .file path => pure (some path)
    | .directory _ => throw ⟨[], .noFileInputs⟩
  openOutput host output
  writeUpTo host output
    (streamLines conversion "failed to transcode stdin" (← host.readInput))

/-- Transcode files. -/
def runFiles (host : Host m) (conversion : Conversion)
    (request : TranscodeRequest) : ExceptT Failure m Unit := do
  let paths := (← request.inputs.mapM (inputPaths host)).flatten
  let together (output : Option String) : ExceptT Failure m Unit := do
    openOutput host output
    writeUpTo host output
      (← allLines (m := m) host conversion request.streaming paths)
  match request.destination with
  | .standard => together none
  | .file path => together (some path)
  | .directory path =>
      orFail (fun fault => ⟨["failed to create " ++ path], .file fault⟩)
        (← host.makeDirectories path)
      ExceptT.mk (runEach host conversion request.streaming path paths)

/-- Transcode documents against a record schema. -/
def runTranscode (host : Host m) (request : TranscodeRequest) :
    ExceptT Failure m Unit := do
  let graph ←
    orError ("failed to read schema " ++ request.schema)
      (readSchema request.schema (← host.read request.schema))
  let conversion : Conversion := ⟨graph, request.settings, request.depth⟩
  if request.inputs.contains "-" then runStandardInput host conversion request
  else runFiles host conversion request

/-- Carry out a request. -/
def carryOut (host : Host m) : Request → ExceptT Failure m Unit
  | .help => host.print helpText
  | .version => host.print versionText
  | .schema request => runSchema host request
  | .transcode request => runTranscode host request

/-- Run the program with arguments. -/
def run (host : Host m) (arguments : List String) : m Ending := do
  match Request.read arguments with
  | .error fault => return .misused fault
  | .ok request =>
      match ← (carryOut host request).run with
      | .ok () => return .done
      | .error failure => return .failed failure

end Command

end XmlRecords
