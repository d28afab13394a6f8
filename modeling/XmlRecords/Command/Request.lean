import XmlRecords.Command.Options
import XmlRecords.Number.Integer
import XmlRecords.Transcode.Stream

/-!
# Requests

What the program is asked to do: derive a record schema from a schema document,
or transcode documents against a record schema.
-/

namespace XmlRecords

/-- Where output goes: the standard output, one file, or a file for each input
in a directory. -/
inductive Destination where
  | standard
  | file (path : String)
  | directory (path : String)
  deriving DecidableEq, Repr

/-- Derive a record schema. -/
structure SchemaRequest where
  document : String
  base : Option String
  root : Option String
  output : Option String

/-- Transcode documents. -/
structure TranscodeRequest where
  schema : String
  inputs : List String
  destination : Destination
  streaming : Bool
  depth : EmitDepth
  settings : Settings

/-- A request. -/
inductive Request where
  | help
  | version
  | schema (request : SchemaRequest)
  | transcode (request : TranscodeRequest)

namespace Request

/-- Read a number that a machine word of 64 bits can count. -/
def readCount? (text : String) : Option Nat :=
  ((Bounds.unsigned 64).read 10 text.toList).toOption.map Int.toNat

/-- An option that paths follow. -/
def pathForm (name : String) (letter : Option Char) : OptionForm :=
  ⟨name, letter, .one, fun path => !path.isEmpty, false⟩

/-- The options that every command has. -/
def commonForms : List OptionForm :=
  [{ name := "verbose", letter := some 'v' },
    { name := "trace" },
    { name := "help", letter := some 'h', stops := true }]

/-- The options in front of the command. -/
def frontForms : List OptionForm :=
  commonForms ++
    [{ name := "version", letter := some 'V', stops := true }]

/-- The options for deriving a schema. -/
def schemaForms : List OptionForm :=
  commonForms ++
    [pathForm "xsd" none,
      pathForm "base-dir" none,
      { name := "root", arity := .one },
      pathForm "out" (some 'o')]

/-- The options for transcoding. -/
def transcodeForms : List OptionForm :=
  commonForms ++
    [pathForm "schema" none,
      { name := "input", letter := some 'i', arity := .several },
      pathForm "out" (some 'o'),
      pathForm "out-dir" none,
      { name := "stream" },
      { name := "split" },
      { name := "timezone", arity := .one,
        accepts := fun text => (Zone.read text).toOption.isSome },
      { name := "max-depth", arity := .one,
        accepts := fun text => (readCount? text).isSome }]

/-- Read the arguments of a command, all of which have to belong to options. -/
def readAll (forms : List OptionForm) (arguments : List String) :
    Except UsageFault (Occurrences) := do
  match ← readOptions forms arguments with
  | (given, []) => return given
  | (_, argument :: _) => throw (.unexpectedArgument argument)

/-- The request for deriving a schema. -/
def ofSchemaOptions (given : Occurrences) : Except UsageFault Request := do
  return .schema
    { document := ← given.required "xsd"
      base := given.value? "base-dir"
      root := given.value? "root"
      output := given.value? "out" }

/-- The destination that options name. -/
def destination (given : Occurrences) : Except UsageFault Destination :=
  match given.value? "out", given.value? "out-dir" with
  | none, none => .ok .standard
  | some path, none => .ok (.file path)
  | none, some path => .ok (.directory path)
  | some _, some _ => .error (.conflict "out" "out-dir")

/-- The settings that options name. -/
def settings (given : Occurrences) : Settings :=
  let initial : Settings := {}
  { zone := ((given.value? "timezone").bind fun text =>
      (Zone.read text).toOption).getD initial.zone
    maxDepth := ((given.value? "max-depth").bind readCount?).getD
      initial.maxDepth }

/-- The request for transcoding. -/
def ofTranscodeOptions (given : Occurrences) :
    Except UsageFault Request := do
  let schema ← given.required "schema"
  let _ ← given.required "input"
  return .transcode
    { schema
      inputs := given.valuesOf "input"
      destination := ← destination given
      streaming := given.has "stream"
      depth :=
        if given.has "split" then .children else .root
      settings := settings given }

/-- Read the arguments of a command. -/
def readCommand (forms : List OptionForm)
    (request : Occurrences → Except UsageFault Request)
    (arguments : List String) : Except UsageFault Request := do
  let given ← readAll forms arguments
  if given.has "help" then return .help else request given

/-- Read a question for help with a command. -/
def readHelp : List String → Except UsageFault Request
  | [] | ["help"] | ["schema"] | ["transcode"] => .ok .help
  | ["schema", name] | ["transcode", name] | ["help", name] | name :: _ =>
      .error (.unknownCommand name)

/-- Read a request. -/
def read (arguments : List String) : Except UsageFault Request := do
  let (given, rest) ← readOptions frontForms arguments
  if given.has "help" then return .help
  else if given.has "version" then return .version
  else
    match rest with
    | [] => throw .missingCommand
    | "schema" :: rest => readCommand schemaForms ofSchemaOptions rest
    | "transcode" :: rest => readCommand transcodeForms ofTranscodeOptions rest
    | "help" :: rest => readHelp rest
    | name :: _ => throw (.unknownCommand name)

end Request

end XmlRecords
