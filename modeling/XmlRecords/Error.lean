import XmlRecords.Encoding.Base64
import XmlRecords.Encoding.Hex
import XmlRecords.Name
import XmlRecords.Number.DecimalLiteral
import XmlRecords.Number.Integer
import XmlRecords.Time.Calendar

/-!
# Errors

Everything that can go wrong, as causes: each kind of failure has a type of its
own, and the wording of a cause is a function of it.  `Error` joins the kinds,
and `Error.label` names the kind of an error in one word.
-/

namespace XmlRecords

/-- Put a text between the marks that set names apart in messages. -/
def ticked (text : String) : String := "`" ++ text ++ "`"

/-- Why no record schema can be made or used. -/
inductive SchemaFault where
  | noElements
  | unsupportedTerm (tag : String)
  | noRoot
  deriving DecidableEq, Repr

/-- The wording of a schema fault. -/
def SchemaFault.message : SchemaFault → String
  | .noElements => "schema declares no root element"
  | .unsupportedTerm tag => "unsupported particle term " ++ ticked tag
  | .noRoot => "schema graph has no root"

/-- Why a part of a document has no field, or a name no meaning. -/
inductive FieldFault where
  | noRootNamed (name : String)
  | unknownRoot (name : QName)
  | unknownElement (name : QName) (record : String)
  | repeatedElement (name : QName) (record : String)
  | unknownAttribute (name : QName) (record : String)
  | attributeNotPrimitive (value : String)
  | noChildFields (name : QName)
  | nothingToSplit
  | notARecord (node : Nat)
  | noSuchField (record field : String)
  deriving DecidableEq, Repr

/-- The wording of a field fault. -/
def FieldFault.message : FieldFault → String
  | .noRootNamed name => "no root element named " ++ ticked name
  | .unknownRoot name =>
      "no root element " ++ ticked name.text ++ " in the schema"
  | .unknownElement name record =>
      "element " ++ ticked name.text ++ " matches no field of record " ++
        ticked record
  | .repeatedElement name record =>
      "element " ++ ticked name.text ++ " occurs more than once in record " ++
        ticked record
  | .unknownAttribute name record =>
      "attribute " ++ ticked name.text ++ " matches no field of record " ++
        ticked record
  | .attributeNotPrimitive value =>
      "attribute value " ++ ticked value ++ " needs a primitive field"
  | .noChildFields name =>
      "root element " ++ ticked name.text ++ " has no child fields"
  | .nothingToSplit => "no document element to split"
  | .notARecord node => "node " ++ toString node ++ " is not a record"
  | .noSuchField record field =>
      "record " ++ record ++ " has no field " ++ ticked field

/-- What a literal was read as. -/
inductive LiteralKind where
  | int
  | long
  | float
  | double
  | bytes
  | dateTime
  | timezone
  deriving DecidableEq, Repr

/-- The name of a kind of literal. -/
def LiteralKind.name : LiteralKind → String
  | .int => "int"
  | .long => "long"
  | .float => "float"
  | .double => "double"
  | .bytes => "bytes"
  | .dateTime => "dateTime"
  | .timezone => "timezone"

/-- Why a literal cannot be read. -/
inductive LiteralFault where
  | integer (fault : IntegerFault)
  | decimal (fault : DecimalFault)
  | hex (fault : Hex.Fault)
  | base64 (fault : Base64.Fault)
  | dateTime (fault : LocalTime.Fault)
  | offset (text : String)
  | skippedTime
  | zone (name : String)
  deriving DecidableEq, Repr

/-- The wording of a literal fault. -/
def LiteralFault.message : LiteralFault → String
  | .integer fault => fault.message
  | .decimal fault => fault.message
  | .hex fault => fault.message
  | .base64 fault => fault.message
  | .dateTime fault => fault.message
  | .offset text => "invalid offset " ++ ticked text
  | .skippedTime => "local time does not exist in the zone"
  | .zone name => "'" ++ name ++ "' is not a valid timezone"

/-- Why a file cannot be read or written. -/
inductive FileFault where
  | notFound
  | isDirectory
  | notDirectory
  | alreadyExists
  | notUtf8
  | other (text : String)
  deriving DecidableEq, Repr

/-- The wording of a file fault. -/
def FileFault.message : FileFault → String
  | .notFound => "No such file or directory (os error 2)"
  | .isDirectory => "Is a directory (os error 21)"
  | .notDirectory => "Not a directory (os error 20)"
  | .alreadyExists => "File exists (os error 17)"
  | .notUtf8 => "stream did not contain valid UTF-8"
  | .other text => text

/-- How a document breaks the rules of markup. -/
inductive MarkupDefect where
  | unexpectedEnd
  | unexpectedMarkup
  | forbiddenCharacter
  | badName
  | badAttribute
  | badComment
  | badText
  | badReference
  | undeclaredEntity (name : String)
  | entityLoop
  | doctypeRefused
  | mismatchedTag
  | unclosedElement
  | noElement
  | undeclaredNamespace (label : String)
  | reservedNamespace
  | repeatedAttribute
  | notUtf8
  | unreadable (fault : FileFault)
  deriving DecidableEq, Repr

/-- The wording of a markup defect. -/
def MarkupDefect.message : MarkupDefect → String
  | .unexpectedEnd => "unexpected end of input"
  | .unexpectedMarkup => "unexpected markup"
  | .forbiddenCharacter => "character not allowed in a document"
  | .badName => "malformed name"
  | .badAttribute => "malformed attribute"
  | .badComment => "malformed comment"
  | .badText => "text may not hold the end mark of a character section"
  | .badReference => "malformed reference"
  | .undeclaredEntity name => "undeclared entity '" ++ name ++ "'"
  | .entityLoop => "entities nest too deeply"
  | .doctypeRefused => "a document type declaration is not allowed"
  | .mismatchedTag => "end tag does not match the open element"
  | .unclosedElement => "unclosed element"
  | .noElement => "document has no element"
  | .undeclaredNamespace label => "undeclared namespace '" ++ label ++ "'"
  | .reservedNamespace => "reserved namespace"
  | .repeatedAttribute => "attribute given twice"
  | .notUtf8 => "invalid UTF-8"
  | .unreadable fault => "I/O error: " ++ fault.message

/-- Why a document cannot be read. -/
inductive MarkupFault where
  | tooDeep (limit : Nat)
  | afterDocument
  | outsideDocument
  | unopened
  | noRootElement
  | unknownEntity (offset : Nat) (name : String)
  | malformed (defect : MarkupDefect)
  | inFile (path : String) (fault : MarkupFault)
  deriving DecidableEq, Repr

/-- The wording of a markup fault. -/
def MarkupFault.message : MarkupFault → String
  | .tooDeep limit => "element nesting exceeds " ++ toString limit ++ " levels"
  | .afterDocument => "content after the document element"
  | .outsideDocument => "text outside the document element"
  | .unopened => "closing tag without an open element"
  | .noRootElement => "document has no root element"
  | .unknownEntity offset name =>
      "at byte " ++ toString offset ++ ": unknown entity " ++
        ticked ("&" ++ name ++ ";")
  | .malformed defect => defect.message
  | .inFile path fault => path ++ ": " ++ fault.message

/-- The kinds of components that a schema refers to by name. -/
inductive ComponentKind where
  | element
  | type
  | simpleType
  | group
  | attribute
  | attributeGroup
  deriving DecidableEq, Repr

/-- The name of a kind of component. -/
def ComponentKind.name : ComponentKind → String
  | .element => "element"
  | .type => "type"
  | .simpleType => "simple type"
  | .group => "group"
  | .attribute => "attribute"
  | .attributeGroup => "attribute group"

/-- Why a schema document cannot be loaded. -/
inductive LoadFault where
  | unreadable (fault : FileFault)
  | malformed (defect : MarkupDefect)
  | wrongRoot (name : String)
  | undeclaredLabel (label value : String)
  | unknown (kind : ComponentKind) (name : QName)
  | unnamedElement
  | unnamedAttribute
  | groupWithoutReference
  | attributeGroupWithoutReference
  | emptyGroup (name : QName)
  | complexAttribute (name type : QName)
  | selfDerived (name : QName)
  | selfContained
  | tooManyFiles
  | badMinOccurs (value : String)
  | badMaxOccurs (value : String)
  deriving DecidableEq, Repr

/-- The wording of a load fault. -/
def LoadFault.message : LoadFault → String
  | .unreadable fault => fault.message
  | .malformed defect => defect.message
  | .wrongRoot name =>
      "root element is " ++ ticked name ++ ", expected xs:schema"
  | .undeclaredLabel label value =>
      "undeclared namespace prefix " ++ ticked label ++ " in " ++ ticked value
  | .unknown kind name => "unknown " ++ kind.name ++ " " ++ ticked name.text
  | .unnamedElement => "element without name or ref"
  | .unnamedAttribute => "attribute without name or ref"
  | .groupWithoutReference => "local group without ref"
  | .attributeGroupWithoutReference => "local attributeGroup without ref"
  | .emptyGroup name => "group " ++ ticked name.text ++ " has no model group"
  | .complexAttribute name type =>
      "attribute " ++ ticked name.text ++ " has complex type " ++
        ticked type.text
  | .selfDerived name =>
      "type " ++ ticked name.text ++ " is derived from itself"
  | .selfContained => "a definition contains itself without end"
  | .tooManyFiles => "more files are mentioned than there are"
  | .badMinOccurs value => "bad minOccurs " ++ ticked value
  | .badMaxOccurs value => "bad maxOccurs " ++ ticked value

/-- Why a text is not a record schema. -/
inductive FormatFault where
  | notJson
  | noSchemaShape
  | unknownType (name : String)
  | badUnion
  | unsupportedLogicalType (name : String)
  | unsupportedEncoding (name : String)
  | definedTwice (record : String)
  | unknownRecordSource (record source : String)
  | unknownFieldSource (field record source : String)
  | inFile (path : String) (fault : FormatFault)
  deriving DecidableEq, Repr

/-- The wording of a format fault. -/
def FormatFault.message : FormatFault → String
  | .notJson => "at JSON path . → malformed JSON"
  | .noSchemaShape =>
      "at JSON path . → data did not match any variant of untagged enum TypeJson"
  | .unknownType name => "unknown type name " ++ ticked name
  | .badUnion => "unions must be [\"null\", T]"
  | .unsupportedLogicalType name => "unsupported logicalType " ++ ticked name
  | .unsupportedEncoding name => "unsupported xmlEncoding " ++ ticked name
  | .definedTwice record => "record " ++ ticked record ++ " is defined twice"
  | .unknownRecordSource record source =>
      "record " ++ ticked record ++ " has unknown source " ++ ticked source
  | .unknownFieldSource field record source =>
      "field " ++ ticked field ++ " of " ++ ticked record ++
        " has unknown source " ++ ticked source
  | .inFile path fault => path ++ ": " ++ fault.message

/-- An error of any kind. -/
inductive Error where
  | schema (fault : SchemaFault)
  | field (fault : FieldFault)
  | literal (kind : LiteralKind) (text : String) (fault : LiteralFault)
  | load (path : String) (fault : LoadFault)
  | markup (fault : MarkupFault)
  | unterminated (opened : Nat)
  | format (fault : FormatFault)
  | file (fault : FileFault)
  deriving DecidableEq, Repr

namespace Error

/-- The word that names the kind of an error. -/
def label : Error → String
  | .schema _ => "SchemaConstructionError"
  | .field _ => "FieldResolutionError"
  | .literal _ _ _ => "ValueParseError"
  | .load _ _ => "XsdLoadError"
  | .markup _ => "XmlParseError"
  | .unterminated _ => "UnterminatedDocumentError"
  | .format _ => "SchemaFormatError"
  | .file _ => "IoError"

/-- The wording of an error. -/
def message : Error → String
  | .schema fault => fault.message
  | .field fault => fault.message
  | .literal kind text fault =>
      "cannot parse " ++ ticked text ++ " as " ++ kind.name ++ ": " ++
        fault.message
  | .load path fault => path ++ ": " ++ fault.message
  | .markup fault => fault.message
  | .unterminated opened =>
      "document ended with " ++ toString opened ++ " unclosed element(s)"
  | .format fault => fault.message
  | .file fault => fault.message

end Error

end XmlRecords
