import HiveQuery.Config
import HiveQuery.Evaluate
import HiveQuery.Lower.Apply
import HiveQuery.Lower.Isolate
import HiveQuery.Lower.Lookup
import HiveQuery.Lower.Paging
import HiveQuery.Navigation
import HiveQuery.Scope
import HiveQuery.Sql.Text

/-!
# Compilation of queries

Members are resolved first, since this joins lookups by applies; applies become joins, repeated lookups
are dropped, cross joins are isolated, and skipped rows are lowered last.
-/

namespace HiveQuery
set_option autoImplicit false

/-- A lowered query with its parameters. -/
structure CompiledQuery where
  tree : Tree
  parameters : List Parameter

inductive CompileError where
  | lowering (e : LoweringError)
  | scope (e : ScopeError)

/-- Are cross joins isolated? Without a switch it hangs on the dialect. -/
def Config.isolates (c : Config) (dialect : Dialect) : Bool :=
  c.isolateCrossJoins.getD (!dialect.allowsMixedCrossJoins)

/-- All lowerings, one after the other. -/
def lower (dialect : Dialect) (m : EntityMap) (c : Config) (t : Tree) : Lowering Tree := do
  let (bound, lookups) ← t.bindMembers m
  let joined := if c.lowerApplyJoins then bound.lowerApplies else bound
  let single := if c.removeRedundantJoins then joined.dropRepeatedLookups lookups else joined
  let isolated ← if c.isolates dialect then single.isolateCrossJoins else pure single
  isolated.lowerPaging dialect

/-- A query as its dialect can express it, with the list of its parameters. -/
def compile (dialect : Dialect) (m : EntityMap) (c : Config) (t : Tree) :
    ExceptT CompileError (StateM Alias) CompiledQuery := do
  let lowered ← ExceptT.adapt CompileError.lowering (lower dialect m c t)
  if c.verifyAliasScopes then
    match lowered.checkScopes with
    | .ok _ => pure ()
    | .error e => throw (.scope e)
  return ⟨lowered, lowered.parameters⟩

namespace CompiledQuery

/-- The statement of a compiled query. -/
def sql (q : CompiledQuery) (dialect : Dialect) : Except SqlError String :=
  q.tree.toSql dialect

/-- The parameters that have no argument. -/
def unbound (q : CompiledQuery) (arguments : Arguments) : List String :=
  (q.parameters.map Parameter.name).filter fun name => (arguments.lookup name).isNone

/-- The rows of a query all of whose parameters have an argument. -/
def run (q : CompiledQuery) (env : Environment) : Except ExecutionError Relation :=
  match q.unbound env.arguments with
  | [] => q.tree.run env
  | names => .error (.unboundParameters names)

end CompiledQuery

end HiveQuery
