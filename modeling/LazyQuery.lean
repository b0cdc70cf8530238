import LazyQuery.Engine.Config.File
import LazyQuery.Query
import LazyQuery.Sequence.Stage
import LazyQuery.Proofs.Engine.Segments
import LazyQuery.Proofs.Item.Order
import LazyQuery.Proofs.Sequence.Pull
import LazyQuery.Proofs.Sorting.Stable
import LazyQuery.Proofs.Sorting.Keys
import LazyQuery.Proofs.Sorting.Fusion
import LazyQuery.Proofs.Sequence.Delivery
import LazyQuery.Proofs.Sequence.Consumption
import LazyQuery.Proofs.Operator.Failure
import LazyQuery.Proofs.Sequence.SinglePass
import LazyQuery.Proofs.Engine.SinglePass
import LazyQuery.Proofs.Item.Identity
import LazyQuery.Proofs.Sequence.Sifting
import LazyQuery.Proofs.Operator.Sets
import LazyQuery.Proofs.Engine.Building
import LazyQuery.Proofs.Operator.Chain
import LazyQuery.Proofs.Engine.ItemByItem
import LazyQuery.Proofs.Sequence.Asking
import LazyQuery.Proofs.Engine.Conservation
import LazyQuery.Proofs.Engine.Logging
import LazyQuery.Proofs.Engine.Configuration
import LazyQuery.Proofs.Engine.Shape
import LazyQuery.Proofs.Item.Json
import LazyQuery.Proofs.Fields
import LazyQuery.Proofs.Sorting.Comparison
import LazyQuery.Proofs.Sorting.Arrangement
import LazyQuery.Proofs.Sorting.Duality
import LazyQuery.Proofs.Log.Line
import LazyQuery.Proofs.Item.Structural
import LazyQuery.Proofs.Item.References
import LazyQuery.Proofs.Sequence.Feeding
import LazyQuery.Proofs.Operator.Joins
import LazyQuery.Proofs.Operator.Grouping
import LazyQuery.Proofs.Operator.ShortCircuit
import LazyQuery.Proofs.Operator.Demand
import LazyQuery.Proofs.Operator.Elements
import LazyQuery.Proofs.Operator.Predicates
import LazyQuery.Proofs.Sorting.Extremes
import LazyQuery.Proofs.Operator.Numeric
import LazyQuery.Proofs.Item.IdentityKey
import LazyQuery.Proofs.Item.Agreement
import LazyQuery.Proofs.Operator.Distinct
import LazyQuery.Proofs.Operator.Aggregation
import LazyQuery.Proofs.Operator.Reversal
import LazyQuery.Proofs.Operator.Prefixes
import LazyQuery.Proofs.Sequence.Rows
import LazyQuery.Proofs.Operator.Rows
import LazyQuery.Proofs.Number.Rounding
import LazyQuery.Proofs.Decimal.Shortest
import LazyQuery.Proofs.Decimal.Layout
import LazyQuery.Proofs.Number.Text
import LazyQuery.Proofs.Number.Integer
import LazyQuery.Proofs.Item.Casting
import LazyQuery.Proofs.Operator.Casting
import LazyQuery.Proofs.Operator.SequenceEquality
import LazyQuery.Proofs.Operator.Positions
import LazyQuery.Proofs.Operator.Fallback
import LazyQuery.Proofs.Number.Nearest
import LazyQuery.Proofs.Sequence.Range
import LazyQuery.Proofs.Number.Carried
import LazyQuery.Proofs.Operator.Counts
