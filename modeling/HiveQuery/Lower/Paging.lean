import HiveQuery.Lower.Ordering
import HiveQuery.Tree.Fold
import HiveQuery.Tree.Rename

/-!
# Lowering of skipped rows

No dialect can skip rows. They are lowered from the innermost select outwards, in one of two ways. Either
an inner layer numbers the rows in their order, and the numbers are filtered. Or the first rows are taken,
of these the last ones by taking them in inverted order, and the order is inverted once more. A window
that reaches past the last row then begins earlier than it should; without a number of rows to take, the
rows are counted and it is exact.
-/

namespace HiveQuery
set_option autoImplicit false

/-- Does a constant stand for no rows? -/
def Tree.isZero : Tree → Bool
  | .constant v => v.toInt64? == some 0
  | _ => false

/-- The sum of two limits, one literal if both are. -/
def foldedSum (a b : Tree) : Lowering Tree :=
  evaluating (Tree.binary .add a b).fold

namespace Select

/-- A layer above a select, in whose terms the order of the select is expressed. The inner layer is
given to `finish` once it has columns for all sort keys. -/
def layer (s : Select Tree) (finish : Select Tree → Select Tree) :
    Lowering (Select Tree × List (SortKey Tree)) := do
  let label ← fresh
  let (inner, lifted) ← { s with label := label }.liftOrder
  return (s.above (finish inner), lifted)

/-! ## Numbered rows -/

/-- The row numbers of a page. -/
def windowFilter (number skip : Tree) : Option Tree → Lowering Tree
  | some take => do
    let first ← foldedSum skip (.int 1)
    let last ← foldedSum skip take
    return .between number first last
  | none => pure (.binary .greaterThan number skip)

/-- The select that gets the row numbers and the keys that they follow: the select itself, or a layer
above it where one more column would change its rows. -/
def numberedBase (s : Select Tree) : Lowering (Select Tree × List (SortKey Tree)) :=
  if !s.distinct && s.group.isEmpty then
    pure ({ s with order := [] }, s.order)
  else
    s.layer fun inner => { inner with order := [] }

/-- A layer that keeps a page of the rows, by a column for their numbers. -/
def keepWindow (base : Select Tree) (order : List (SortKey Tree)) (skip : Tree)
    (take : Option Tree) : Lowering (Select Tree) := do
  let name := freeName base.headers "_rownum"
  let numbered := base.addColumn ⟨name, .rowNumber order, ScalarType.int32.columnType⟩
  let label ← fresh
  let number : Tree := .column ⟨.int32, ScalarType.int32.columnType, label, name⟩
  let window ← windowFilter number skip take
  return { (numbered.wrap label).removeColumn name with
    filter := some window
    order := [⟨.ascending, number⟩] }

/-- Replaces skipping by a filter on row numbers. -/
def numberRows (s : Select Tree) (skip : Tree) (take : Option Tree) : Lowering (Select Tree) := do
  let (s, order) ← s.requireOrder
  let (base, order) ← { s with order := order, skip := none, take := none }.numberedBase
  base.keepWindow order skip take

/-! ## Nested orders -/

/-- How many rows are left after skipping: a count over a copy of the select. -/
def remainingRows (s : Select Tree) (skip : Tree) : StateM Alias Tree := do
  let copy ← (Tree.select { s with order := [] } none).duplicate
  let label ← fresh
  let count : Select Tree :=
    { label := label
      columns := [⟨"c", .aggregate .count none false .int64, ScalarType.int64.columnType⟩]
      source := some copy }
  return .binary .subtract (.scalarSubquery (.select count none) .int64) skip

/-- Replaces skipping by taking rows in the order and in the inverted order. -/
def nestOrders (s : Select Tree) (skip : Tree) (take : Option Tree) : Lowering (Select Tree) := do
  let (s, order) ← s.requireOrder
  let base := { s with skip := none, order := order }
  let (first, window) ←
    match take with
    | some take => do
      let limit ← foldedSum skip take
      pure ({ base with take := some limit }, take)
    | none => do
      let first := { base with take := none }
      let window ← first.remainingRows skip
      pure (first, window)
  let (middle, lifted) ← first.layer id
  let middle := { middle with order := lifted.map SortKey.inverted, take := some window }
  let (outer, lifted) ← middle.layer id
  return { outer with order := lifted.map SortKey.inverted }

/-! ## Whole trees -/

/-- Lowers the skipped rows of one select. Skipping no rows is simply dropped. -/
def lowerSkip (lower : Select Tree → Tree → Option Tree → Lowering (Select Tree))
    (s : Select Tree) (skip : Tree) : Lowering (Select Tree) := do
  let skip ← evaluating skip.fold
  if skip.isZero then
    return { s with skip := none }
  else
    let take ← s.take.mapM fun take => evaluating take.fold
    lower s skip take

end Select

/-- A select without skipped rows; any other node stays. -/
def Tree.lowerSkipAt (lower : Select Tree → Tree → Option Tree → Lowering (Select Tree)) :
    Tree → Lowering Tree
  | .select s id =>
    match s.skip with
    | none => pure (.select s id)
    | some skip => do
      let s ← s.lowerSkip lower skip
      return .select s none
  | u => pure u

/-- Every skip of a tree lowered by `lower`, inner ones first. -/
def Tree.lowerSkips (lower : Select Tree → Tree → Option Tree → Lowering (Select Tree))
    (t : Tree) : Lowering Tree :=
  t.bottomUp (Tree.lowerSkipAt lower)

def Tree.lowerByRowNumber (t : Tree) : Lowering Tree :=
  t.lowerSkips Select.numberRows

def Tree.lowerByNesting (t : Tree) : Lowering Tree :=
  t.lowerSkips Select.nestOrders

/-- Lowers the skipped rows of a tree in the way that suits the dialect. -/
def Tree.lowerPaging (dialect : Dialect) (t : Tree) : Lowering Tree :=
  if dialect.allowsRowNumber then t.lowerByRowNumber else t.lowerByNesting

end HiveQuery
