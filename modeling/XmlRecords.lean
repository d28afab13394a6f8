import XmlRecords.Association
import XmlRecords.Command.Failure
import XmlRecords.Command.Options
import XmlRecords.Command.Request
import XmlRecords.Command.Run
import XmlRecords.Components.Basic
import XmlRecords.Components.Declarations
import XmlRecords.Components.Reading
import XmlRecords.Components.Source
import XmlRecords.Encoding.Base64
import XmlRecords.Encoding.Hex
import XmlRecords.Error
import XmlRecords.Files.Disk
import XmlRecords.Files.Expansion
import XmlRecords.Files.Host
import XmlRecords.Files.Path
import XmlRecords.Files.Pattern
import XmlRecords.Graph.Basic
import XmlRecords.Graph.FieldName
import XmlRecords.Graph.Lowering
import XmlRecords.Graph.Provenance
import XmlRecords.Json.Basic
import XmlRecords.Json.Parser
import XmlRecords.Json.Printer
import XmlRecords.Main
import XmlRecords.Name
import XmlRecords.Number.Binary
import XmlRecords.Number.DecimalLiteral
import XmlRecords.Number.Integer
import XmlRecords.Number.Shortest
import XmlRecords.Proofs.Acceptance
import XmlRecords.Proofs.AddedParts
import XmlRecords.Proofs.Agreement
import XmlRecords.Proofs.AlikeValues
import XmlRecords.Proofs.Arrivals
import XmlRecords.Proofs.Beside
import XmlRecords.Proofs.BreadthFirst
import XmlRecords.Proofs.CanonicalPaths
import XmlRecords.Proofs.CapturedContent
import XmlRecords.Proofs.CharacterReferences
import XmlRecords.Proofs.ClaimedNames
import XmlRecords.Proofs.Collecting
import XmlRecords.Proofs.Collection
import XmlRecords.Proofs.CompleteComponents
import XmlRecords.Proofs.Completeness
import XmlRecords.Proofs.Congruence
import XmlRecords.Proofs.ContentFaults
import XmlRecords.Proofs.ContentLanguage
import XmlRecords.Proofs.ContentSteps
import XmlRecords.Proofs.Copying
import XmlRecords.Proofs.Coverage
import XmlRecords.Proofs.DateTimes
import XmlRecords.Proofs.DayCount
import XmlRecords.Proofs.DeclaredOnce
import XmlRecords.Proofs.DeclaredRoutes
import XmlRecords.Proofs.Denotation
import XmlRecords.Proofs.DiskFiles
import XmlRecords.Proofs.Distribution
import XmlRecords.Proofs.Divisions
import XmlRecords.Proofs.DocumentParts
import XmlRecords.Proofs.Drafting
import XmlRecords.Proofs.ExtensionChains
import XmlRecords.Proofs.FaithfulJson
import XmlRecords.Proofs.FirstMatches
import XmlRecords.Proofs.FreePlaces
import XmlRecords.Proofs.Gathering
import XmlRecords.Proofs.GlobalDeclarations
import XmlRecords.Proofs.GroupRounds
import XmlRecords.Proofs.Growth
import XmlRecords.Proofs.HexBytes
import XmlRecords.Proofs.Inclusion
import XmlRecords.Proofs.Inheritance
import XmlRecords.Proofs.InnerMarkupRoundTrip
import XmlRecords.Proofs.Iterations
import XmlRecords.Proofs.JsonGrammar
import XmlRecords.Proofs.JsonRoundTrip
import XmlRecords.Proofs.JsonTokens
import XmlRecords.Proofs.Levels
import XmlRecords.Proofs.LocalTimes
import XmlRecords.Proofs.LostContent
import XmlRecords.Proofs.Lowered
import XmlRecords.Proofs.LoweredGraph
import XmlRecords.Proofs.Lowering
import XmlRecords.Proofs.LoweringEnds
import XmlRecords.Proofs.LoweringRuns
import XmlRecords.Proofs.Matching
import XmlRecords.Proofs.MetaAttributes
import XmlRecords.Proofs.Names
import XmlRecords.Proofs.OneDocument
import XmlRecords.Proofs.OrderOfAttributes
import XmlRecords.Proofs.Origins
import XmlRecords.Proofs.PathNames
import XmlRecords.Proofs.PatternExpansion
import XmlRecords.Proofs.Pipeline
import XmlRecords.Proofs.Placing
import XmlRecords.Proofs.Plan
import XmlRecords.Proofs.PlannedGraph
import XmlRecords.Proofs.Planning
import XmlRecords.Proofs.ReadGraphs
import XmlRecords.Proofs.ReadableJson
import XmlRecords.Proofs.ReadableText
import XmlRecords.Proofs.Reading
import XmlRecords.Proofs.RecordContents
import XmlRecords.Proofs.Redeclaration
import XmlRecords.Proofs.ReferencePlaces
import XmlRecords.Proofs.References
import XmlRecords.Proofs.ReferencesInText
import XmlRecords.Proofs.Refusals
import XmlRecords.Proofs.Reordering
import XmlRecords.Proofs.RequiredElements
import XmlRecords.Proofs.RereadNames
import XmlRecords.Proofs.Roles
import XmlRecords.Proofs.RoundTrip
import XmlRecords.Proofs.Runs
import XmlRecords.Proofs.SchemaForms
import XmlRecords.Proofs.SchemaLanguage
import XmlRecords.Proofs.SchemaTextRoundTrip
import XmlRecords.Proofs.Scopes
import XmlRecords.Proofs.Searches
import XmlRecords.Proofs.Segmentation
import XmlRecords.Proofs.SelfDerivation
import XmlRecords.Proofs.SeparateOutputs
import XmlRecords.Proofs.SoundReading
import XmlRecords.Proofs.Spans
import XmlRecords.Proofs.SpelledTypes
import XmlRecords.Proofs.SplitDocument
import XmlRecords.Proofs.StreamPhases
import XmlRecords.Proofs.StreamSteps
import XmlRecords.Proofs.StreamedDocument
import XmlRecords.Proofs.SuitedSlots
import XmlRecords.Proofs.Supply
import XmlRecords.Proofs.Termination
import XmlRecords.Proofs.TokenSteps
import XmlRecords.Proofs.TranslatedTypes
import XmlRecords.Proofs.Translating
import XmlRecords.Proofs.Translation
import XmlRecords.Proofs.TreeAndEvents
import XmlRecords.Proofs.TrimmedContent
import XmlRecords.Proofs.TwinDocuments
import XmlRecords.Proofs.TwinStreams
import XmlRecords.Proofs.TwinValues
import XmlRecords.Proofs.Twins
import XmlRecords.Proofs.TypeIdentity
import XmlRecords.Proofs.TypeReading
import XmlRecords.Proofs.ValidDocument
import XmlRecords.Proofs.Visits
import XmlRecords.Proofs.Walk
import XmlRecords.Proofs.WellFormed
import XmlRecords.Proofs.WholeNumbers
import XmlRecords.Proofs.Widening
import XmlRecords.Proofs.Wildcards
import XmlRecords.Proofs.Wrappers
import XmlRecords.Proofs.Writing
import XmlRecords.Proofs.WrittenContent
import XmlRecords.Proofs.WrittenScopes
import XmlRecords.Proofs.WrittenTags
import XmlRecords.Proofs.ZoneOffsets
import XmlRecords.SchemaText.Basic
import XmlRecords.SchemaText.Reader
import XmlRecords.SchemaText.Writer
import XmlRecords.Text.Blank
import XmlRecords.Text.Digit
import XmlRecords.Text.Utf8
import XmlRecords.Time.Calendar
import XmlRecords.Time.History
import XmlRecords.Time.Offset
import XmlRecords.Time.Timestamp
import XmlRecords.Time.Zone
import XmlRecords.Time.ZoneTable
import XmlRecords.Transcode.Document
import XmlRecords.Transcode.Lines
import XmlRecords.Transcode.Record
import XmlRecords.Transcode.Route
import XmlRecords.Transcode.Stream
import XmlRecords.Value.Basic
import XmlRecords.Value.Json
import XmlRecords.Value.Literal
import XmlRecords.Xml.Characters
import XmlRecords.Xml.Content
import XmlRecords.Xml.Doctype
import XmlRecords.Xml.Document
import XmlRecords.Xml.Element
import XmlRecords.Xml.Event
import XmlRecords.Xml.InnerMarkup
import XmlRecords.Xml.Namespace
import XmlRecords.Xml.Progress
import XmlRecords.Xml.Scan
import XmlRecords.Xml.Token
import XmlRecords.Xml.Tree
