/-!
# Types, operators and kinds

The closed vocabularies of a query: scalar types and the column types that store them, dialects, join
kinds, sort directions, aggregates and operators, each with the words it is written with.
-/

namespace HiveQuery
set_option autoImplicit false

/-! ## Types -/

inductive ScalarType where
  | boolean
  | int32
  | int64
  | double
  | decimal
  | string
  | timestamp
deriving DecidableEq, Repr, Inhabited

def ScalarType.isNumeric : ScalarType → Bool
  | .int32 | .int64 | .double | .decimal => true
  | .boolean | .string | .timestamp => false

/-- How a scalar is stored. -/
structure ColumnType where
  name : String
  scalar : ScalarType
deriving DecidableEq, Repr, Inhabited

def ScalarType.columnType (t : ScalarType) : ColumnType :=
  let name :=
    match t with
    | .boolean => "BOOLEAN"
    | .int32 => "INT"
    | .int64 => "BIGINT"
    | .double => "DOUBLE"
    | .decimal => "DECIMAL"
    | .string => "STRING"
    | .timestamp => "TIMESTAMP"
  ⟨name, t⟩

inductive Dialect where
  | hive
  | hiveWindowing
deriving DecidableEq, Repr, Inhabited

/-- Can a dialect number rows? -/
def Dialect.allowsRowNumber : Dialect → Bool
  | .hive => false
  | .hiveWindowing => true

/-- May cross joins and joins with a condition stand in one join tree? In no dialect of Hive. -/
def Dialect.allowsMixedCrossJoins : Dialect → Bool
  | .hive => false
  | .hiveWindowing => false

/-! ## Joins and orderings -/

/-- An apply evaluates its right side once for each row of its left side. -/
inductive JoinKind where
  | inner
  | cross
  | leftOuter
  | crossApply
  | outerApply
deriving DecidableEq, Repr, Inhabited

def JoinKind.isApply : JoinKind → Bool
  | .crossApply | .outerApply => true
  | .inner | .cross | .leftOuter => false

/-- Does a left row without a match stay, extended by nulls? -/
def JoinKind.keepsUnmatched : JoinKind → Bool
  | .leftOuter | .outerApply => true
  | .inner | .cross | .crossApply => false

inductive Direction where
  | ascending
  | descending
deriving DecidableEq, Repr, Inhabited

def Direction.inverted : Direction → Direction
  | .ascending => .descending
  | .descending => .ascending

@[simp] theorem Direction.inverted_inverted (d : Direction) : d.inverted.inverted = d := by
  cases d <;> rfl

/-! ## Operators -/

inductive AggregateKind where
  | count
  | sum
  | min
  | max
  | average
deriving DecidableEq, Repr, Inhabited

def AggregateKind.sqlName : AggregateKind → String
  | .count => "COUNT"
  | .sum => "SUM"
  | .min => "MIN"
  | .max => "MAX"
  | .average => "AVG"

inductive BinaryOp where
  | add
  | subtract
  | multiply
  | divide
  | modulo
  | equal
  | notEqual
  | lessThan
  | lessThanOrEqual
  | greaterThan
  | greaterThanOrEqual
  | and
  | or
deriving DecidableEq, Repr, Inhabited

namespace BinaryOp

def isComparison : BinaryOp → Bool
  | .equal | .notEqual | .lessThan | .lessThanOrEqual | .greaterThan | .greaterThanOrEqual => true
  | _ => false

def isLogical : BinaryOp → Bool
  | .and | .or => true
  | _ => false

def sqlOperator : BinaryOp → String
  | .add => "+"
  | .subtract => "-"
  | .multiply => "*"
  | .divide => "/"
  | .modulo => "%"
  | .equal => "="
  | .notEqual => "<>"
  | .lessThan => "<"
  | .lessThanOrEqual => "<="
  | .greaterThan => ">"
  | .greaterThanOrEqual => ">="
  | .and => "AND"
  | .or => "OR"

def name : BinaryOp → String
  | .add => "Add"
  | .subtract => "Subtract"
  | .multiply => "Multiply"
  | .divide => "Divide"
  | .modulo => "Modulo"
  | .equal => "Equal"
  | .notEqual => "NotEqual"
  | .lessThan => "LessThan"
  | .lessThanOrEqual => "LessThanOrEqual"
  | .greaterThan => "GreaterThan"
  | .greaterThanOrEqual => "GreaterThanOrEqual"
  | .and => "And"
  | .or => "Or"

end BinaryOp

inductive UnaryOp where
  | not
  | negate
deriving DecidableEq, Repr, Inhabited

def UnaryOp.name : UnaryOp → String
  | .not => "Not"
  | .negate => "Negate"

end HiveQuery
