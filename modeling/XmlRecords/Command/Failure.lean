import XmlRecords.Error
import XmlRecords.Files.Expansion

/-!
# Failures

Why a request could not be carried out: a cause, and what was being done, the
outermost first.
-/

namespace XmlRecords

/-- The cause of a failure. -/
inductive FailureCause where
  | error (cause : Error)
  | file (fault : FileFault)
  | pattern (fault : PatternFault)
  | listing (fault : ListingFault)
  | noMatch (text : String)
  | inputNotAlone
  | noFileInputs
  deriving DecidableEq, Repr

/-- The wording of a cause. -/
def FailureCause.message : FailureCause → String
  | .error cause => cause.message
  | .file fault => fault.message
  | .pattern fault => fault.message
  | .listing fault => fault.message
  | .noMatch text => "glob pattern matched no files: " ++ text
  | .inputNotAlone => "stdin ('-') cannot be combined with other inputs"
  | .noFileInputs => "--out-dir needs file inputs"

/-- A failure. -/
structure Failure where
  doing : List String := []
  cause : FailureCause
  deriving DecidableEq, Repr

namespace Failure

/-- The kind of the error that is the cause, or just that there is one. -/
def label (failure : Failure) : String :=
  match failure.cause with
  | .error cause => cause.label
  | _ => "Error"

/-- The wording of a failure. -/
def message (failure : Failure) : String :=
  ": ".intercalate (failure.doing ++ [failure.cause.message])

/-- A failure with an error as its cause. -/
def ofError (doing : String) (error : Error) : Failure :=
  ⟨[doing], .error error⟩

end Failure

end XmlRecords
