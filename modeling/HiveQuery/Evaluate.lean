import HiveQuery.Relation.Group
import HiveQuery.Relation.Order
import HiveQuery.Tree.Select
import HiveQuery.Tree.Walk

/-!
# Running a query

The meaning of a tree over stored tables: predicates are three-valued, an unmatched row of an outer join
is extended by nulls, groups stand in the order of their first rows, sorting is stable with nulls first,
and a row of an enclosing select is seen by the selects inside of it.
-/

namespace HiveQuery
set_option autoImplicit false

/-- Why a query has no result. -/
inductive ExecutionError where
  | notExecutable (kind : String)
  | projectionWithoutSelect
  | subqueryWithoutSelect
  | unknownTable (name : String)
  | notSource (kind : String)
  | notScalar (kind : String)
  | rowCount (v : Value)
  | tooManyRows (count : Nat)
  | unboundParameter (name : String)
  | unboundParameters (names : List String)
  | unboundColumn (label : Alias) (name : String)
  | missingArgument (kind : AggregateKind)
  | aggregateOutsideGroup
  | rowNumberOutsideColumn
  | value (e : ValueError)

namespace ExecutionError

/-- Is the query sound, and only running it is out of reach? -/
def isUnsupported : ExecutionError → Bool
  | .rowNumberOutsideColumn => true
  | _ => false

def reason : ExecutionError → String
  | .notExecutable kind => "cannot execute " ++ kind
  | .projectionWithoutSelect => "projection does not wrap a select"
  | .subqueryWithoutSelect => "subquery does not wrap a select"
  | .unknownTable name => "unknown table '" ++ name ++ "'"
  | .notSource kind => kind ++ " is not a row source"
  | .notScalar kind => kind ++ " cannot be evaluated as a scalar"
  | .rowCount v => "row count must be an integer, got " ++ v.text
  | .tooManyRows count => "cannot hold " ++ toString count ++ " rows"
  | .unboundParameter name => "no value bound for parameter '" ++ name ++ "'"
  | .unboundParameters names => "unbound parameter(s): " ++ ", ".intercalate names
  | .unboundColumn label name => "column " ++ label.text ++ "." ++ name ++ " is not bound"
  | .missingArgument kind => kind.sqlName ++ " needs an argument"
  | .aggregateOutsideGroup => "aggregate outside of a grouped select"
  | .rowNumberOutsideColumn => "ROW_NUMBER() is only evaluated as a select column"
  | .value e => e.message

def message (e : ExecutionError) : String :=
  (if e.isUnsupported then "unsupported feature: " else "execution error: ") ++ e.reason

end ExecutionError

/-- The stored tables, and the arguments for the parameters of a query. -/
structure Environment where
  dataset : Dataset
  arguments : Arguments

abbrev Run := Except ExecutionError

/-! ## Operators on rows -/

def Run.ofValue {α : Type} : Except ValueError α → Run α
  | .ok a => .ok a
  | .error e => .error (.value e)

/-- The rows to keep. The filter has to have a value for all rows. -/
def filterRows (keep : Row → Run Bool) : List Row → Run (List Row)
  | [] => .ok []
  | row :: rows => do
    let kept ← keep row
    let rest ← filterRows keep rows
    return if kept then row :: rest else rest

/-- Rows that are held at once, as many as a 64-bit number can count. -/
def heldRows (rows : List Row) : Run (List Row) :=
  if (rows.length : Int) ≤ greatestInt64 then .ok rows else .error (.tooManyRows rows.length)

/-- Each left row with the rows of the right side that pass the condition. -/
def joinRows (kind : JoinKind) (left : List Row) (right : Row → Run (List Row)) (missing : Row)
    (condition : Row → Run Bool) : Run (List Row) := do
  let joined ← left.mapM fun l => do
    let candidates ← right l
    let kept ← filterRows condition (candidates.map (l ++ ·))
    return if kept.isEmpty && kind.keepsUnmatched then [l ++ missing] else kept
  return joined.flatten

/-- The rows that are left after skipping and taking. -/
def page {α : Type} (skip take : Option Nat) (rows : List α) : List α :=
  let rest := rows.drop (skip.getD 0)
  match take with
  | some n => rest.take n
  | none => rest

/-- A number of rows; a negative one counts as zero. -/
def rowCount (v : Value) : Run Nat :=
  match v.toInt64? with
  | some n => .ok n.toInt.toNat
  | none => .error (.rowCount v)

/-- Does a value occur in a list of values? Unknown if it may only be one of the nulls. -/
def occursIn (needle : Value) (candidates : List Value) : Value :=
  if candidates.any fun c => needle.compare? c == some .eq then .boolean true
  else if candidates.any Value.isNull then .null
  else .boolean false

/-- Values and sort keys of the rows of a select, in the order in which they are delivered. -/
def arrange (distinct reverse : Bool) (directions : List Direction)
    (produced : List (List Value × List Value)) : List (List Value × List Value) :=
  let unique := if distinct then distinctRows produced else produced
  let sorted := if directions.isEmpty then unique else sortByKeys directions unique
  if reverse then sorted.reverse else sorted

/-! ## Rows of a select -/

/-- The aliases that the clauses of a select see from its source. -/
def Select.sourceAliases (s : Select Tree) : List Alias :=
  (s.source.map Tree.sources).getD []

/-- Does a row of a select stand for a group of rows? -/
def Select.isGrouped (s : Select Tree) : Bool :=
  !s.group.isEmpty || s.hasAggregates

/-- What a row of a select is computed from: the current row and the rows around, the group that it
stands for, and the numbers of its numbered columns. -/
structure Context where
  frames : Frames
  group : Option (List Row)
  numbers : List (Option Nat)

/-- The groups of rows with the same keys, or one group of all rows. -/
def groupRows (single : Bool) (keys : List (List Value)) (rows : List Row) : List (List Row) :=
  if single then [rows] else groupByKey (keys.zip rows)

/-- A group is computed in its first row, or in a row of nulls if it is empty. -/
def groupContexts (frames : Frames) (sources : List Alias) (groups : List (List Row)) :
    List Context :=
  groups.map fun members => ⟨members.headD (nullRow sources) :: frames, some members, []⟩

/-- Each row is computed by itself, with its numbers. -/
def rowContexts (frames : Frames) (rows : List Row) (numbers : List (List Nat)) : List Context :=
  rows.zipIdx.map fun p => ⟨p.1 :: frames, none, numbers.map fun n => n[p.2]?⟩

/-! ## Evaluation -/

mutual

/-- The value of a scalar in the current row, or over the group that the row stands for. -/
def Tree.scalar (env : Environment) (frames : Frames) (group : Option (List Row)) :
    Tree → Run Value
  | .constant v => .ok v
  | .undefined _ => .ok (.double Double.undefined)
  | .parameter p =>
    match env.arguments.lookup p.name with
    | some v => .ok v
    | none => .error (.unboundParameter p.name)
  | .binary op l r => do
    let l ← l.scalar env frames group
    let r ← r.scalar env frames group
    Run.ofValue (Value.applyBinary op l r)
  | .unary op t => do
    let v ← t.scalar env frames group
    Run.ofValue (Value.applyUnary op v)
  | .between t l u => do
    let v ← t.scalar env frames group
    let l ← l.scalar env frames group
    let u ← u.scalar env frames group
    let above ← Run.ofValue (Value.applyBinary .greaterThanOrEqual v l)
    let under ← Run.ofValue (Value.applyBinary .lessThanOrEqual v u)
    Run.ofValue (Value.applyBinary .and above under)
  | .isNull t => do
    let v ← t.scalar env frames group
    return .boolean v.isNull
  | .outerJoined _ t => t.scalar env frames group
  | .column c =>
    match frames.lookup? c with
    | some v => .ok v
    | none => .error (.unboundColumn c.label c.name)
  | .select s _ => do
    let r ← s.run env frames
    return (r.rows.map fun row => row.headD .null).headD .null
  | .scalarSubquery q _ => do
    let vs ← q.firstValues env frames
    return vs.headD .null
  | .existsSubquery q => do
    let vs ← q.firstValues env frames
    return .boolean !vs.isEmpty
  | .inSubquery t q => do
    let needle ← t.scalar env frames group
    if needle.isNull then
      return .null
    else
      let vs ← q.firstValues env frames
      return occursIn needle vs
  | .aggregate kind t distinct _ =>
    match group with
    | none => .error .aggregateOutsideGroup
    | some rows =>
      match t with
      | none => if kind = .count then .ok (countValue rows.length) else .error (.missingArgument kind)
      | some t => do
        let vs ← rows.mapM fun row => t.scalar env (row :: frames.tail) none
        Run.ofValue (aggregateValues kind distinct vs)
  | .rowNumber _ => .error .rowNumberOutsideColumn
  | .member _ _ => .error (.notScalar "Member")
  | .record _ => .error (.notScalar "Record")
  | .entity _ _ => .error (.notScalar "Entity")
  | .table _ _ => .error (.notScalar "Table")
  | .join _ _ => .error (.notScalar "Join")
  | .projection _ _ _ => .error (.notScalar "Projection")

/-- The rows of a source. -/
def Tree.rows (env : Environment) (frames : Frames) : Tree → Run (List Row)
  | .table a name =>
    match env.dataset.lookup name with
    | some table => .ok (table.rows.map (sourceRow a table.columns))
    | none => .error (.unknownTable name)
  | .select s _ => do
    let r ← s.run env frames
    return r.bindRows s.label
  | .join ⟨kind, l, r, c⟩ _ => do
    let left ← l.rows env frames
    if kind.isApply then
      joinRows kind left (fun row => r.rows env (row :: frames)) (nullRow r.sources)
        (fun row => satisfies env (row :: frames) c)
    else
      let right ← r.rows env frames
      joinRows kind left (fun _ => .ok right) (nullRow r.sources)
        (fun row => satisfies env (row :: frames) c)
  | t => .error (.notSource t.kind)

/-- The first column of a subquery. -/
def Tree.firstValues (env : Environment) (frames : Frames) : Tree → Run (List Value)
  | .select s _ => do
    let r ← s.run env frames
    return r.rows.map fun row => row.headD .null
  | _ => .error .subqueryWithoutSelect

/-- The relation of a select. Skipped and taken rows are counted outside of its own rows. -/
def Select.run (env : Environment) (frames : Frames) : Select Tree → Run Relation
  | ⟨label, columns, source, filter, order, group, distinct, skip, take, reverse, cluster⟩ => do
    let all ← optionRows env frames source
    let kept ← filterRows (fun row => satisfies env (row :: frames) filter) all
    let rows ← heldRows kept
    let whole : Select Tree :=
      ⟨label, columns, source, filter, order, group, distinct, skip, take, reverse, cluster⟩
    let contexts ←
      if whole.isGrouped then do
        let keys ← rows.mapM fun row => scalars env (row :: frames) none group
        pure (groupContexts frames whole.sourceAliases (groupRows group.isEmpty keys rows))
      else do
        let numbers ← rowNumbers env frames rows columns
        pure (rowContexts frames rows numbers)
    let produced ← contexts.mapM fun c => do
      let values ← columnValues env c.frames c.group c.numbers columns
      let keys ← keyValues env c.frames c.group order
      return (values, keys)
    let delivered := arrange distinct reverse (order.map SortKey.direction) produced
    let skipped ← optionalCount env frames skip
    let taken ← optionalCount env frames take
    return ⟨columns.map Column.name, (page skipped taken delivered).map Prod.fst⟩

/-- The rows of a source, or a single empty row. -/
def optionRows (env : Environment) (frames : Frames) : Option Tree → Run (List Row)
  | none => .ok [[]]
  | some t => t.rows env frames

/-- Is a condition true in the current row? An absent one is. -/
def satisfies (env : Environment) (frames : Frames) : Option Tree → Run Bool
  | none => .ok true
  | some t => do
    let v ← t.scalar env frames none
    return v.truth == some true

/-- The number of rows to skip or to take. -/
def optionalCount (env : Environment) (frames : Frames) : Option Tree → Run (Option Nat)
  | none => .ok none
  | some t => do
    let v ← t.scalar env frames none
    let n ← rowCount v
    return some n

def scalars (env : Environment) (frames : Frames) (group : Option (List Row)) :
    List Tree → Run (List Value)
  | [] => .ok []
  | t :: ts => do
    let v ← t.scalar env frames group
    let vs ← scalars env frames group ts
    return v :: vs

/-- The values of the sort keys. -/
def keyValues (env : Environment) (frames : Frames) (group : Option (List Row)) :
    List (SortKey Tree) → Run (List Value)
  | [] => .ok []
  | ⟨_, t⟩ :: ks => do
    let v ← t.scalar env frames group
    let vs ← keyValues env frames group ks
    return v :: vs

/-- The values of the columns. A numbered column takes its number. -/
def columnValues (env : Environment) (frames : Frames) (group : Option (List Row)) :
    List (Option Nat) → List (Column Tree) → Run (List Value)
  | _, [] => .ok []
  | numbers, ⟨_, t, _⟩ :: cs => do
    let v ←
      match numbers.head?.join with
      | some n => pure (countValue n)
      | none => t.scalar env frames group
    let vs ← columnValues env frames group numbers.tail cs
    return v :: vs

/-- For each column the numbers of the rows, if the column numbers them. -/
def rowNumbers (env : Environment) (frames : Frames) (rows : List Row) :
    List (Column Tree) → Run (List (List Nat))
  | [] => .ok []
  | ⟨_, .rowNumber order, _⟩ :: cs => do
    let keys ← rows.mapM fun row => keyValues env (row :: frames) none order
    let rest ← rowNumbers env frames rows cs
    return ranks (order.map SortKey.direction) keys :: rest
  | _ :: cs => do
    let rest ← rowNumbers env frames rows cs
    return [] :: rest

end

/-- The relation of a query. -/
def Tree.run (env : Environment) : Tree → Run Relation
  | .select s _ => s.run env []
  | .projection (.select s _) _ _ => s.run env []
  | .projection _ _ _ => .error .projectionWithoutSelect
  | t => .error (.notExecutable t.kind)

end HiveQuery
