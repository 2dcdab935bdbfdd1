import ResourceQuery.Main
import ResourceQuery.Path.Memo
import ResourceQuery.Proofs.Filter.Meaning
import ResourceQuery.Proofs.Projection.Rules
import ResourceQuery.Proofs.Schema.Coherence
import ResourceQuery.Proofs.Session.Projected
import ResourceQuery.Session.Read
import ResourceQuery.Store
import ResourceQuery.Proofs.Session.Honoured
import ResourceQuery.Proofs.Numeral.Digits
import ResourceQuery.Proofs.Numeral.Decimal
import ResourceQuery.Proofs.Calendar.Instant
import ResourceQuery.Proofs.Numeral.Binary
import ResourceQuery.Proofs.Numeral.BinaryText
import ResourceQuery.Proofs.ValueType.Text
import ResourceQuery.Proofs.Query.FilterParameter
import ResourceQuery.Proofs.Compile.Qualifiers
import ResourceQuery.Proofs.Compile.FilterParameters
import ResourceQuery.Proofs.Filter.Truth
import ResourceQuery.Proofs.Filter.Encoding
import ResourceQuery.Proofs.Compile.Conditions
import ResourceQuery.Proofs.Compile.Filter
import ResourceQuery.Proofs.Specification.Encoding
import ResourceQuery.Proofs.Schema.WellFormed
import ResourceQuery.Proofs.Session.Identities
import ResourceQuery.Proofs.Session.RoundTrip
import ResourceQuery.Proofs.Specification.Recovery
import ResourceQuery.Proofs.Filter.Calls
import ResourceQuery.Proofs.Specification.Validity
import ResourceQuery.Proofs.Schema.Derivation
import ResourceQuery.Proofs.Schema.Rearrangement
import ResourceQuery.Proofs.Path.Composition
import ResourceQuery.Proofs.Specification.Acceptance
import ResourceQuery.Proofs.Specification.Faults
import ResourceQuery.Proofs.Specification.Inquiry
import ResourceQuery.Proofs.Specification.Foreign
import ResourceQuery.Proofs.Query.Grammar
import ResourceQuery.Proofs.Session.Submitted
import ResourceQuery.Proofs.Specification.Locking
import ResourceQuery.Proofs.Filter.Decided
import ResourceQuery.Proofs.Specification.MainFilter
import ResourceQuery.Proofs.Specification.ReadBack
import ResourceQuery.Proofs.Projection.Replay
import ResourceQuery.Proofs.SortOrder
import ResourceQuery.Proofs.ValueType.Timeless
import ResourceQuery.Proofs.Session.Dates
import ResourceQuery.Proofs.Session.Dynamic
import ResourceQuery.Proofs.QueryString
import ResourceQuery.Proofs.PrefixScan
import ResourceQuery.Proofs.ValueType.Expression
import ResourceQuery.Proofs.Session.Stream
import ResourceQuery.Proofs.Session.Distinct
import ResourceQuery.Proofs.Schema.Sources
import ResourceQuery.Proofs.Schema.Inheritance
import ResourceQuery.Proofs.Path.Selection
import ResourceQuery.Proofs.Projection.Scopes
import ResourceQuery.Proofs.Projection.Crossings
import ResourceQuery.Proofs.Session.Balance
import ResourceQuery.Proofs.Session.Entries
import ResourceQuery.Proofs.Roles
import ResourceQuery.Proofs.Specification.Positions
import ResourceQuery.Proofs.Specification.Joining
import ResourceQuery.Proofs.DocumentText
