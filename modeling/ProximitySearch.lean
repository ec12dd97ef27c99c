import ProximitySearch.Decimal.Reader
import ProximitySearch.Encoding.Config
import ProximitySearch.Encoding.Data
import ProximitySearch.Encoding.Proximity
import ProximitySearch.Encoding.Query
import ProximitySearch.Engine
import ProximitySearch.Proofs.AggregationModes
import ProximitySearch.Proofs.AssembledTrees
import ProximitySearch.Proofs.BareText
import ProximitySearch.Proofs.DecodableHits
import ProximitySearch.Proofs.Disguises
import ProximitySearch.Proofs.Evaluation
import ProximitySearch.Proofs.Expressions
import ProximitySearch.Proofs.FailedLookup
import ProximitySearch.Proofs.FailingSources
import ProximitySearch.Proofs.Frequencies
import ProximitySearch.Proofs.InterruptedScans
import ProximitySearch.Proofs.Layout
import ProximitySearch.Proofs.Lookup
import ProximitySearch.Proofs.LookupCaching
import ProximitySearch.Proofs.LookupsMade
import ProximitySearch.Proofs.Negation
import ProximitySearch.Proofs.NormalTree
import ProximitySearch.Proofs.NumberText
import ProximitySearch.Proofs.OverreadingSources
import ProximitySearch.Proofs.ParsedExpressions
import ProximitySearch.Proofs.ParsedTrees
import ProximitySearch.Proofs.Parsing
import ProximitySearch.Proofs.QueryFields
import ProximitySearch.Proofs.QueryOrder
import ProximitySearch.Proofs.QueryUnion
import ProximitySearch.Proofs.QuotedStrings
import ProximitySearch.Proofs.RenderedQueries
import ProximitySearch.Proofs.Rendering
import ProximitySearch.Proofs.Reseeks
import ProximitySearch.Proofs.Snapshots
import ProximitySearch.Proofs.Spelling
import ProximitySearch.Proofs.Stack
import ProximitySearch.Proofs.FunctionCalls
