import GraphClient.Json.Reader
import GraphClient.Json.Writer
import GraphClient.Main
import GraphClient.Operation
import GraphClient.Projection.Memo
import GraphClient.Proofs.Document.Grammar
import GraphClient.Proofs.Document.Parts
import GraphClient.Proofs.Document.Members
import GraphClient.Proofs.Document.Bodies
import GraphClient.Proofs.Document.Accepts
import GraphClient.Proofs.Token.Lexemes
import GraphClient.Proofs.Introspection.Meaning
import GraphClient.Proofs.Token.Faultless
import GraphClient.Proofs.Token.Spells
import GraphClient.Proofs.Introspection.Spelling
import GraphClient.Proofs.Introspection.Blocks
import GraphClient.Proofs.Introspection.Declared
import GraphClient.Proofs.Introspection.Order
import GraphClient.Proofs.Introspection.RoundTrip
import GraphClient.Proofs.Introspection.Deprecation
import GraphClient.Proofs.Token.Offset
import GraphClient.Proofs.Document.Mirror
import GraphClient.Proofs.Document.Locality
import GraphClient.Proofs.Document.LocalDefinitions
import GraphClient.Proofs.Document.Closing
import GraphClient.Proofs.Document.Followed
import GraphClient.Proofs.Token.Charges
import GraphClient.Proofs.Document.Payment
import GraphClient.Proofs.Document.Progress
import GraphClient.Proofs.Command.AllOrNothing
import GraphClient.Proofs.Command.Strict
import GraphClient.Proofs.Projection.Visits
import GraphClient.Proofs.Projection.Check
import GraphClient.Proofs.Naming
import GraphClient.Proofs.Document.Names
import GraphClient.Proofs.Projection.Exhaustive
import GraphClient.Proofs.Schema.Descriptions
import GraphClient.Proofs.Introspection.Confinement
import GraphClient.Proofs.Introspection.Canonical
import GraphClient.Proofs.Schema.WellFormed
import GraphClient.Proofs.Text.Quoted
import GraphClient.Proofs.Emission.Comments
import GraphClient.Proofs.Emission.Expressions
import GraphClient.Proofs.Emission.FullTypes
import GraphClient.Proofs.Emission.Lines
import GraphClient.Proofs.Emission.Uncommented
import GraphClient.Proofs.Emission.Bindings
import GraphClient.Proofs.Projection.Memo
import GraphClient.Proofs.Double.Shortest
import GraphClient.Proofs.Token.Numerals
import GraphClient.Proofs.Double.Layout
import GraphClient.Proofs.Operation.Grammar
import GraphClient.Proofs.Operation.Unambiguous
import GraphClient.Proofs.Operation.Writes
import GraphClient.Proofs.Operation.ReadBack
import GraphClient.Proofs.Emission.Order
import GraphClient.Proofs.Token.Cut
import GraphClient.Proofs.Token.Blanking
import GraphClient.Proofs.Token.Rounds
import GraphClient.Proofs.Document.Annotations
import GraphClient.Proofs.Document.Recovery
import GraphClient.Proofs.Document.Unclosed
import GraphClient.Proofs.Document.Garbage
import GraphClient.Proofs.Document.KeywordValues
import GraphClient.Proofs.Schema.Recording
import GraphClient.Proofs.Introspection.BlockDescriptions
import GraphClient.Proofs.Token.Intact
import GraphClient.Proofs.Token.Excerpts
import GraphClient.Proofs.Document.Results
import GraphClient.Proofs.Document.Defaults
import GraphClient.Proofs.Document.TypeReferences
import GraphClient.Proofs.Emission.Operations
import GraphClient.Proofs.Document.Unions
import GraphClient.Proofs.Introspection.Partial
import GraphClient.Proofs.Descriptor.Narrowing
import GraphClient.Proofs.Descriptor.Nullability
import GraphClient.Proofs.Descriptor.Texts
import GraphClient.Proofs.Descriptor.Describe
import GraphClient.Proofs.Projection.Graph
import GraphClient.Proofs.Projection.Mismatches
import GraphClient.Proofs.Double.Interval
import GraphClient.Proofs.Double.Nearest
import GraphClient.Proofs.Double.ReadBack
import GraphClient.Proofs.Operation.Values
import GraphClient.Proofs.Emission.Selection
import GraphClient.Proofs.Command.OptionGrammar
import GraphClient.Proofs.Command.Options
import GraphClient.Proofs.Command.Authorization
import GraphClient.Proofs.Document.UnclosedInterfaces
import GraphClient.Proofs.Descriptor.Describe
import GraphClient.Proofs.Projection.Graph
import GraphClient.Proofs.Projection.Mismatches
