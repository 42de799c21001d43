import HiveQuery.Value

/-!
# Query trees

One type holds all of a query: scalar expressions, row sources, selects and the shapes that rows are
turned into. Every row source carries an alias, and a column names the alias it reads from. Aliases are
natural numbers; where they have 32 bits, this is about trees and supplies that do not use these up.
-/

namespace HiveQuery
set_option autoImplicit false

/-- The name of a row source inside of a tree. -/
abbrev Alias := Nat

def Alias.text (a : Alias) : String :=
  "A" ++ toString a

/-- A column of the source with the alias `label`. -/
structure ColumnRef where
  type : ScalarType
  columnType : ColumnType
  label : Alias
  name : String
deriving DecidableEq, Repr, Inhabited

structure Parameter where
  name : String
  type : ScalarType
deriving DecidableEq, Repr, Inhabited

/-! ## Clauses -/

/-- A named value that a select gives. -/
structure Column (α : Type) where
  name : String
  value : α
  type : ColumnType

structure SortKey (α : Type) where
  direction : Direction
  value : α

def SortKey.inverted {α : Type} (k : SortKey α) : SortKey α :=
  { k with direction := k.direction.inverted }

/-- The clauses of a select, over the type of what stands in them. -/
structure Select (α : Type) where
  label : Alias
  columns : List (Column α) := []
  source : Option α := none
  filter : Option α := none
  order : List (SortKey α) := []
  group : List α := []
  distinct : Bool := false
  skip : Option α := none
  take : Option α := none
  reverse : Bool := false
  cluster : List α := []

/-- Two sources, and the condition under which their rows go together. -/
structure Join (α : Type) where
  kind : JoinKind
  left : α
  right : α
  condition : Option α := none

/-! ## Trees -/

/-- Copies of one thing have the same identity. -/
abbrev Identity := Nat

/-- Scalars, row sources, selects and shapes. -/
inductive Tree where
  | constant (v : Value)
  /-- An undefined number with an identity. As constants, undefined numbers all differ; copies of one
  number do not. -/
  | undefined (id : Identity)
  | parameter (p : Parameter)
  | binary (op : BinaryOp) (left right : Tree)
  | unary (op : UnaryOp) (operand : Tree)
  | between (item lower upper : Tree)
  | isNull (operand : Tree)
  /-- A member of a shape that is still to be resolved. -/
  | member (source : Tree) (name : String)
  | record (fields : List (String × Tree))
  | entity (name : String) (shape : Tree)
  /-- A shape that is missing where `test` is null. -/
  | outerJoined (test shape : Tree)
  | table (label : Alias) (name : String)
  | column (c : ColumnRef)
  /-- A select. A copy keeps the identity, and a select that is built anew has none. -/
  | select (s : Select Tree) (id : Option Identity)
  | join (j : Join Tree) (id : Option Identity)
  | scalarSubquery (query : Tree) (type : ScalarType)
  | existsSubquery (query : Tree)
  | inSubquery (item query : Tree)
  | aggregate (kind : AggregateKind) (argument : Option Tree) (distinct : Bool) (type : ScalarType)
  | rowNumber (order : List (SortKey Tree))
  /-- A query together with the shape that each of its rows is turned into. -/
  | projection (query shape : Tree) (id : Option Identity)

instance : Inhabited Tree := ⟨.constant .null⟩

namespace Tree

/-- The word for a tree in messages. -/
def kind : Tree → String
  | .constant _ => "Constant"
  | .undefined _ => "Constant"
  | .parameter _ => "NamedValue"
  | .binary _ _ _ => "Binary"
  | .unary _ _ => "Unary"
  | .between _ _ _ => "Between"
  | .isNull _ => "IsNull"
  | .member _ _ => "Member"
  | .record _ => "Record"
  | .entity _ _ => "Entity"
  | .outerJoined _ _ => "OuterJoined"
  | .table _ _ => "Table"
  | .column _ => "Column"
  | .select _ _ => "Select"
  | .join _ _ => "Join"
  | .scalarSubquery _ _ => "Subquery"
  | .existsSubquery _ => "Subquery"
  | .inSubquery _ _ => "Subquery"
  | .aggregate _ _ _ _ => "Aggregate"
  | .rowNumber _ => "RowNumber"
  | .projection _ _ _ => "Projection"

def int (i : Int64) : Tree := .constant (.int i)

def select? : Tree → Option (Select Tree)
  | .select s _ => some s
  | _ => none

def join? : Tree → Option (Join Tree)
  | .join j _ => some j
  | _ => none

def column? : Tree → Option ColumnRef
  | .column c => some c
  | _ => none

def parameter? : Tree → Option Parameter
  | .parameter p => some p
  | _ => none

/-- The value of a constant. An undefined number is one. -/
def constant? : Tree → Option Value
  | .constant v => some v
  | .undefined _ => some (.double Double.undefined)
  | _ => none

def isSelect : Tree → Bool
  | .select _ _ => true
  | _ => false

def isSubquery : Tree → Bool
  | .scalarSubquery _ _ | .existsSubquery _ | .inSubquery _ _ => true
  | _ => false

def isAggregate : Tree → Bool
  | .aggregate _ _ _ _ => true
  | _ => false

/-- The alias that a table or a select brings into scope. -/
def label? : Tree → Option Alias
  | .table a _ => some a
  | .select s _ => some s.label
  | _ => none

/-- The aliases of a source, those of all sides of a join. -/
def sources : Tree → List Alias
  | .table a _ => [a]
  | .select s _ => [s.label]
  | .join ⟨_, left, right, _⟩ _ => left.sources ++ right.sources
  | _ => []

/-- The type of a scalar; sources and shapes have none. -/
def scalarType? : Tree → Option ScalarType
  | .constant v => v.scalarType?
  | .undefined _ => some .double
  | .parameter p => some p.type
  | .binary op left right =>
    if op.isComparison || op.isLogical then some .boolean
    else if op = .divide then some .double
    else left.scalarType?.or right.scalarType?
  | .unary .not _ => some .boolean
  | .unary .negate operand => operand.scalarType?
  | .between _ _ _ => some .boolean
  | .isNull _ => some .boolean
  | .outerJoined _ shape => shape.scalarType?
  | .column c => some c.type
  | .scalarSubquery _ type => some type
  | .existsSubquery _ => some .boolean
  | .inSubquery _ _ => some .boolean
  | .aggregate _ _ _ type => some type
  | .rowNumber _ => some .int32
  | .member _ _ | .record _ | .entity _ _ | .table _ _ => none
  | .select _ _ | .join _ _ | .projection _ _ _ => none

end Tree

end HiveQuery
