import HiveQuery.Tree.Select
import HiveQuery.Tree.Visit
import HiveQuery.Tree.Walk

/-!
# Applies as joins

An apply whose right side depends on its left side in no more than its filter is a join with the filter
as its condition. What the filter reads from inside the right side has to be a column of the right side.
-/

namespace HiveQuery
set_option autoImplicit false

/-- The column of a select that passes on a reference to one of its sources, added if there is none.
The state is the list of columns. -/
def projectColumn (inner : List Alias) (label : Alias) (c : ColumnRef) :
    StateM (List (Column Tree)) ColumnRef := do
  if inner.contains c.label then
    let columns ← get
    match columns.find? fun d => d.value.equal (.column c) with
    | some d => return ⟨c.type, c.columnType, label, d.name⟩
    | none =>
      let name := freeName (columns.map Column.name) c.name
      set (columns ++ [⟨name, .column c, c.columnType⟩])
      return ⟨c.type, c.columnType, label, name⟩
  else
    return c

def Tree.projectAt (inner : List Alias) (label : Alias) : Tree → StateM (List (Column Tree)) Tree
  | .column c => do
    let c ← projectColumn inner label c
    return .column c
  | u => pure u

/-- A filter in terms of the columns of its select, which may become more. -/
def projectFilter (inner : List Alias) (label : Alias) (t : Tree) :
    StateM (List (Column Tree)) Tree :=
  t.bottomUp (Tree.projectAt inner label)

/-- The kind and condition of the join that an apply becomes. An outer join needs a condition. -/
def appliedJoin (kind : JoinKind) (condition : Option Tree) : JoinKind × Option Tree :=
  match kind, condition with
  | .crossApply, none => (.cross, none)
  | .crossApply, some c => (.inner, some c)
  | _, none => (.leftOuter, some (.constant (.boolean true)))
  | _, some c => (.leftOuter, some c)

/-- Do the rows of a select depend on its filter in no other way than by being kept or dropped? -/
def Select.isPlain (s : Select Tree) : Bool :=
  s.skip.isNone && s.take.isNone && !s.distinct && s.group.isEmpty && !s.hasAggregates

/-- The join that an apply becomes, unless its right side depends on the left one beyond its filter. -/
def Join.lowerApply? (j : Join Tree) : Option (Join Tree) :=
  if !j.kind.isApply || j.condition.isSome then
    none
  else
    match j.right with
    | .table _ _ =>
      let (kind, condition) := appliedJoin j.kind none
      some ⟨kind, j.left, j.right, condition⟩
    | .select s _ =>
      let unfiltered := { s with filter := none }
      if !s.isPlain || (Tree.select unfiltered none).referenced.any (j.left.sources.contains ·) then
        none
      else
        let inner := (s.source.map Tree.sources).getD []
        let (filter, columns) :=
          match s.filter with
          | some t =>
            let (t, columns) := (projectFilter inner s.label t).run s.columns
            (some t, columns)
          | none => (none, s.columns)
        let (kind, condition) := appliedJoin j.kind filter
        some ⟨kind, j.left, .select { unfiltered with columns := columns } none, condition⟩
    | _ => none

def Tree.lowerApplyAt : Tree → Tree
  | .join j id =>
    match j.lowerApply? with
    | some j => .join j none
    | none => .join j id
  | u => u

/-- A tree in which applies are joins, wherever they can be. -/
def Tree.lowerApplies (t : Tree) : Tree :=
  Id.run (t.bottomUp fun u => pure u.lowerApplyAt)

end HiveQuery
