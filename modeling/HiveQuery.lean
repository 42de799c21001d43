import HiveQuery.Proofs.NegativePages
import HiveQuery.Proofs.AggregatedPages
import HiveQuery.Proofs.Parameters
import HiveQuery.Proofs.CompiledText
import HiveQuery.Proofs.CompiledAliases
import HiveQuery.Proofs.AliasNumbering
import HiveQuery.Proofs.EqualityLaws
import HiveQuery.Proofs.ScopedEvaluation
import HiveQuery.Proofs.Rebinding
import HiveQuery.Proofs.FoldedTrees
import HiveQuery.Proofs.RenamedCopies
import HiveQuery.Proofs.RelatedRows
import HiveQuery.Proofs.DistinctRows
import HiveQuery.Proofs.Comments
import HiveQuery.Proofs.AggregateOrder
import HiveQuery.Proofs.LiftedRows
import HiveQuery.Proofs.ReplacedColumns
