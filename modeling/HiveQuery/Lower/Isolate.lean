import HiveQuery.Tree.Select
import HiveQuery.Tree.Visit
import HiveQuery.Tree.Walk

/-!
# Isolation of cross joins

A cross join and a join with a condition must not stand next to each other in one join tree. The inner
one of the two is put into a select, which passes on every column that the enclosing query reads from
it; those columns are then read from the select.
-/

namespace HiveQuery
set_option autoImplicit false

/-- Names for a list of columns in order, each one changed if a name before took it. -/
def freeNames (bases : List String) : List String :=
  bases.foldl (fun taken base => taken ++ [freeName taken base]) []

/-- What is known while a tree is visited. -/
structure Isolation where
  next : Alias
  columns : List ColumnRef
  /-- Which column is read in place of another one, the latest pair first. -/
  replaced : List (ColumnRef × ColumnRef)
  /-- The kind of the join around, if there is one in the same join tree. -/
  parent : Option JoinKind

/-- Follows replacements to their end. Every step leads to a later select, so their number bounds the
steps. -/
def followReplaced (replaced : List (ColumnRef × ColumnRef)) : Nat → ColumnRef → ColumnRef
  | 0, c => c
  | n + 1, c =>
    match replaced.lookup c with
    | some d => followReplaced replaced n d
    | none => c

/-- The columns of some sources, source by source. -/
def columnsOf (sources : List Alias) (columns : List ColumnRef) : List ColumnRef :=
  sources.flatMap fun a => columns.filter fun c => c.label == a

/-- Puts a join tree into a select that passes on the columns read from it. -/
def isolateJoin (t : Tree) : StateM Isolation Tree := do
  let st ← get
  let picked := columnsOf t.sources st.columns
  let named := picked.zip (freeNames (picked.map ColumnRef.name))
  let outer := named.map fun p => ({ p.1 with label := st.next, name := p.2 } : ColumnRef)
  set { st with
    next := st.next + 1
    columns := st.columns ++ outer
    replaced := (picked.zip outer).reverse ++ st.replaced }
  return .select {
    label := st.next
    columns := named.map fun p => ⟨p.2, .column p.1, p.1.columnType⟩
    source := some t } none

/-- Does a cross join meet a join with a condition? -/
def mixes (kind : JoinKind) : Option JoinKind → Bool
  | some parent => (kind == .cross) != (parent == .cross)
  | none => false

/-- The columns that a select and the queries nested in it refer to, its own ones first. -/
def Tree.readColumns (t : Tree) : List ColumnRef :=
  firstOccurrences (t.ownColumns ++ t.allColumns)

/-- A select starts a new join tree with columns of its own. A join is put into a select once its sides
were visited; clauses that are visited later read its columns from that select. -/
def isolation : Visitor (StateM Isolation) where
  around t rebuilt :=
    match t with
    | .select _ _ => do
      let saved ← get
      set { saved with columns := t.readColumns, parent := none }
      let u ← rebuilt
      modify fun st => { st with columns := saved.columns, parent := saved.parent }
      return u
    | .join j _ => do
      let saved ← get
      set { saved with parent := some j.kind }
      let u ← rebuilt
      modify fun st => { st with parent := saved.parent }
      if mixes j.kind saved.parent then isolateJoin u else return u
    | .column c => do
      let st ← get
      return .column (followReplaced st.replaced (st.replaced.length + 1) c)
    | _ => rebuilt
  afterSource _ := pure ()

/-- A tree without mixed neighbours. -/
def Tree.isolateCrossJoins (t : Tree) : StateM Alias Tree := fun next =>
  let (u, st) := (t.visit isolation).run ⟨next, [], [], none⟩
  (u, st.next)

end HiveQuery
