import HiveQuery.Entity
import HiveQuery.Entity.Member
import HiveQuery.Supply
import HiveQuery.Tree.Select

/-!
# Queries over entities

Queries for the rows of an entity, and for the rows that a relationship leads to from one of them.
-/

namespace HiveQuery
set_option autoImplicit false

/-- A query and the shape that its rows take. -/
structure Projection where
  query : Select Tree
  shape : Tree

namespace Projection

def toTree (p : Projection) : Tree :=
  .projection (.select p.query none) p.shape none

/-- The constant of the column that tells whether an outer join found a row. -/
def testMark : Value :=
  .int 1

/-- Does a column tell whether an outer join found a row? -/
def isTest (c : Column Tree) : Bool :=
  match c.value with
  | .constant v => v == testMark
  | _ => false

/-- Adds a column that is null only where an outer join found no row, and marks the shape with it. A
column that is such a test already is used again. -/
def withTest (p : Projection) : Projection :=
  let type := ScalarType.int64
  let (query, name) :=
    match p.query.columns.find? isTest with
    | some c => (p.query, c.name)
    | none =>
      let name := freeName p.query.headers "Test"
      (p.query.addColumn ⟨name, .constant testMark, type.columnType⟩, name)
  ⟨query, .outerJoined (.column ⟨type, type.columnType, query.label, name⟩) p.shape⟩

end Projection

/-- The column of a member in the table. -/
def MappedColumn.ref (c : MappedColumn) (table : Alias) : ColumnRef :=
  ⟨c.type, c.type.columnType, table, c.column⟩

/-- The column of a member in a query for the entity. -/
def MappedColumn.memberRef (c : MappedColumn) (query : Alias) : ColumnRef :=
  ⟨c.type, c.type.columnType, query, c.member⟩

/-- The rows of an entity that pass a filter, one column for each member. -/
def Entity.query (e : Entity) (table query : Alias) (filter : Option Tree) : Projection :=
  { query :=
      { label := query
        columns := e.columns.map fun c => ⟨c.member, .column (c.ref table), c.type.columnType⟩
        source := some (.table table e.table)
        filter := filter }
    shape := .entity e.name (.record (e.columns.map fun c => (c.member, .column (c.memberRef query)))) }

/-- The key member of the row at `root` equals the key column of the target. -/
def keyCondition (root : Tree) (entity : String) (target : Entity) (table : Alias)
    (key : String × String) : Except LoweringError Tree :=
  match root.memberOrAccess key.1 with
  | .member _ _ => .error (.unmappedMember entity key.1)
  | own =>
    match target.column? key.2 with
    | some c => .ok (.binary .equal own (.column (c.ref table)))
    | none => .error (.unmappedMember target.name key.2)

def keyConditions (root : Tree) (entity : String) (target : Entity) (table : Alias)
    (keys : List (String × String)) : Except LoweringError (List Tree) :=
  keys.mapM (keyCondition root entity target table)

/-- All of the conditions hold; there is none if there are no conditions. -/
def allOf : List Tree → Option Tree
  | [] => none
  | t :: ts => some (ts.foldl (fun all t => .binary .and all t) t)

namespace EntityMap

def known (m : EntityMap) (name : String) : Except LoweringError Entity :=
  match m.entity? name with
  | some e => .ok e
  | none => .error (.unknownEntity name)

/-- All rows of an entity. -/
def tableQuery (m : EntityMap) (entity : String) : Lowering Projection := do
  let e ← m.known entity
  let table ← fresh
  let query ← fresh
  return e.query table query none

/-- The rows that a relationship leads to from the row at `root`. -/
def related (m : EntityMap) (root : Tree) (entity : String) (r : Relationship) :
    Lowering Projection := do
  let target ← m.known r.target
  let table ← fresh
  let conditions ← keyConditions root entity target table r.keys
  let query ← fresh
  return target.query table query (allOf conditions)

/-- What a member of an entity stands for: the rows of its relationship, or the field of `root`. -/
def memberQuery (m : EntityMap) (root : Tree) (entity member : String) : Lowering Tree := do
  let e ← m.known entity
  match e.relationship? member with
  | some r =>
    let p ← m.related root entity r
    return p.toTree
  | none => return root.memberOrAccess member

end EntityMap

end HiveQuery
