/-!
# Options

An option is named in full behind two hyphens, or by its letter behind one, and
then letters can be joined.  Its values follow as arguments of their own, or the
only one follows in the same argument: behind an equals sign, or right behind a
letter.  An argument that begins with a hyphen is never the value of an option
in front of it, unless it is the hyphen alone.
-/

namespace XmlRecords

/-- How many values follow an option. -/
inductive Arity where
  | none
  | one
  | several
  deriving DecidableEq, Repr

/-- An option: its name, its letter, how many values follow it and which ones it
accepts.  No argument is read behind an option that stops. -/
structure OptionForm where
  name : String
  letter : Option Char := none
  arity : Arity := .none
  accepts : String → Bool := fun _ => true
  stops : Bool := false

/-- An option that has been given, with its values. -/
structure Occurrence where
  name : String
  values : List String
  deriving DecidableEq, Repr

/-- Why arguments cannot be understood. -/
inductive UsageFault where
  | unknownOption (name : String)
  | unexpectedArgument (text : String)
  | missingValue (option : String)
  | unexpectedValue (option : String)
  | badValue (option value : String)
  | repeatedOption (option : String)
  | missingOption (option : String)
  | conflict (first second : String)
  | unknownCommand (name : String)
  | missingCommand
  deriving DecidableEq, Repr

/-- The wording of a usage fault. -/
def UsageFault.message : UsageFault → String
  | .unknownOption name => "unexpected option '" ++ name ++ "'"
  | .unexpectedArgument text => "unexpected argument '" ++ text ++ "'"
  | .missingValue option => "a value is required for '--" ++ option ++ "'"
  | .unexpectedValue option => "no value is expected for '--" ++ option ++ "'"
  | .badValue option value =>
      "invalid value '" ++ value ++ "' for '--" ++ option ++ "'"
  | .repeatedOption option =>
      "'--" ++ option ++ "' cannot be used more than once"
  | .missingOption option => "'--" ++ option ++ "' is required"
  | .conflict first second =>
      "'--" ++ first ++ "' cannot be used with '--" ++ second ++ "'"
  | .unknownCommand name => "unknown command '" ++ name ++ "'"
  | .missingCommand => "a command is required"

/-- Options on the way through the arguments: those given so far with the latest
first, the one whose values are being read with its latest value first, and
whether one of them has stopped the reading. -/
structure OptionScan where
  given : List Occurrence := []
  opened : Option (OptionForm × List String) := none
  stopped : Bool := false

namespace OptionScan

/-- Take note of an option with its values. -/
def give (scan : OptionScan) (form : OptionForm) (values : List String) :
    Except UsageFault OptionScan :=
  if form.arity != .none && values.isEmpty then
    .error (.missingValue form.name)
  else
    match values.find? fun value => !form.accepts value with
    | some value => .error (.badValue form.name value)
    | none =>
        if form.arity != .several &&
            scan.given.any (fun earlier => earlier.name == form.name) then
          .error (.repeatedOption form.name)
        else
          .ok ⟨⟨form.name, values⟩ :: scan.given, none, form.stops⟩

/-- End the values of the option whose values are being read. -/
def close (scan : OptionScan) : Except UsageFault OptionScan :=
  match scan.opened with
  | none => .ok scan
  | some (form, latest) => scan.give form latest.reverse

/-- Take note of an option whose values are still to come, if it has any. -/
def openForm (scan : OptionScan) (form : OptionForm) :
    Except UsageFault OptionScan :=
  if form.arity = .none then scan.give form []
  else .ok { scan with opened := some (form, []) }

/-- Read a value for the option whose values are being read. -/
def addValue (scan : OptionScan) (form : OptionForm) (latest : List String)
    (value : String) : Except UsageFault OptionScan :=
  if form.arity = .several then
    .ok { scan with opened := some (form, value :: latest) }
  else scan.give form [value]

/-- Read an option that is named in full. -/
def readName (forms : List OptionForm) (scan : OptionScan) (text : List Char) :
    Except UsageFault OptionScan :=
  let name := String.ofList (text.takeWhile (· != '='))
  match forms.find? (·.name == name), text.dropWhile (· != '=') with
  | none, _ => .error (.unknownOption ("--" ++ name))
  | some form, [] => scan.openForm form
  | some form, _ :: value =>
      if form.arity = .none then .error (.unexpectedValue name)
      else scan.give form [String.ofList value]

/-- Read options that are named by their letters. -/
def readLetters (forms : List OptionForm) (scan : OptionScan) :
    List Char → Except UsageFault OptionScan
  | [] => .ok scan
  | letter :: rest =>
      match forms.find? (·.letter == some letter) with
      | none => .error (.unknownOption ("-" ++ String.singleton letter))
      | some form =>
          if form.arity = .none then do
            let scan ← scan.give form []
            if scan.stopped then return scan
            else readLetters forms scan rest
          else
            match rest with
            | [] => scan.openForm form
            | '=' :: value => scan.give form [String.ofList value]
            | value => scan.give form [String.ofList value]

/-- Read arguments up to the first that belongs to no option.  The result holds
that argument and all behind it. -/
def readArguments (forms : List OptionForm) :
    OptionScan → List String → Except UsageFault (OptionScan × List String)
  | scan, [] => do return (← scan.close, [])
  | scan, argument :: rest =>
      match argument.toList with
      | ['-', '-'] => do
          match rest with
          | [] => return (← scan.close, [])
          | next :: _ => throw (.unexpectedArgument next)
      | '-' :: '-' :: text => do
          let scan ← readName forms (← scan.close) text
          if scan.stopped then return (scan, [])
          else readArguments forms scan rest
      | '-' :: letter :: letters => do
          let scan ← readLetters forms (← scan.close) (letter :: letters)
          if scan.stopped then return (scan, [])
          else readArguments forms scan rest
      | _ =>
          match scan.opened with
          | none => .ok (scan, argument :: rest)
          | some (form, latest) => do
              readArguments forms (← scan.addValue form latest argument) rest

end OptionScan

/-- The options that have been given, in order. -/
abbrev Occurrences := List Occurrence

/-- The options in front of the first argument that belongs to none, and the
arguments from that one on. -/
def readOptions (forms : List OptionForm) (arguments : List String) :
    Except UsageFault (Occurrences × List String) := do
  let (scan, rest) ← OptionScan.readArguments forms {} arguments
  return (scan.given.reverse, rest)

namespace Occurrences

/-- Decide whether an option has been given. -/
def has (given : Occurrences) (name : String) : Bool :=
  given.any (·.name == name)

/-- All values of an option. -/
def valuesOf (given : Occurrences) (name : String) : List String :=
  (given.filter (·.name == name)).flatMap Occurrence.values

/-- The first value of an option. -/
def value? (given : Occurrences) (name : String) : Option String :=
  (given.valuesOf name).head?

/-- The first value of an option that has to be given. -/
def required (given : Occurrences) (name : String) :
    Except UsageFault String :=
  match given.value? name with
  | some value => .ok value
  | none => .error (.missingOption name)

end Occurrences

end XmlRecords
