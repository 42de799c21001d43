import HiveQuery.Value.Order

/-!
# Operators on values

Arithmetic reports overflow instead of wrapping, a division is a division of doubles, and a division by
zero is null. Any operand that is null makes a comparison or an arithmetic result null; the logical
operators are three-valued.
-/

namespace HiveQuery
set_option autoImplicit false

/-- Why an operator does not apply. -/
inductive ValueError where
  | mismatch (op : BinaryOp) (left right : Value)
  | unaryMismatch (op : UnaryOp) (operand : Value)
  | overflow (op : BinaryOp)

def ValueError.message : ValueError → String
  | .mismatch op left right => s!"cannot apply {op.name} to {left.text} and {right.text}"
  | .unaryMismatch op operand => s!"cannot apply {op.name} to {operand.text}"
  | .overflow op => s!"integer overflow in {op.name}"

namespace Value

/-! ## Logic -/

def ofTruth : Option Bool → Value
  | some b => .boolean b
  | none => .null

def conjunction : Option Bool → Option Bool → Option Bool
  | some false, _ => some false
  | _, some false => some false
  | some true, some true => some true
  | _, _ => none

def disjunction : Option Bool → Option Bool → Option Bool
  | some true, _ => some true
  | _, some true => some true
  | some false, some false => some false
  | _, _ => none

/-- Does a comparison hold between values in that order? -/
def holds (op : BinaryOp) (ord : Ordering) : Bool :=
  match op with
  | .equal => ord == .eq
  | .notEqual => ord != .eq
  | .lessThan => ord == .lt
  | .lessThanOrEqual => ord != .gt
  | .greaterThan => ord == .gt
  | _ => ord != .lt

def applyComparison (op : BinaryOp) (left right : Value) : Except ValueError Value :=
  if left.isNull || right.isNull then
    .ok .null
  else
    match left.compare? right with
    | some ord => .ok (.boolean (holds op ord))
    | none => .error (.mismatch op left right)

/-! ## Arithmetic -/

/-- The exact result of an operator on integers; `none` where it is undefined. -/
def integerResult (op : BinaryOp) (a b : Int) : Option Int :=
  match op with
  | .add => some (a + b)
  | .subtract => some (a - b)
  | .multiply => some (a * b)
  | .modulo => if b = 0 then none else some (a.tmod b)
  | _ => none

/-- The remainder of the least integer by minus one counts as an overflow, like its quotient. -/
def integerArithmetic (op : BinaryOp) (a b : Int64) : Except ValueError Value :=
  match integerResult op a.toInt b.toInt with
  | none => .ok .null
  | some r =>
    if op = .modulo ∧ a.toInt = leastInt64 ∧ b.toInt = -1 then
      .error (.overflow op)
    else
      match int64? r with
      | some i => .ok (.int i)
      | none => .error (.overflow op)

def doubleArithmetic (op : BinaryOp) (a b : Float) : Value :=
  match op with
  | .add => .double (a + b)
  | .subtract => .double (a - b)
  | .multiply => .double (a * b)
  | .modulo => if b == 0 then .null else .double (Double.remainder a b)
  | _ => .null

def decimalArithmetic (op : BinaryOp) (a b : Decimal) : Except ValueError Value :=
  let checked : Option Decimal → Except ValueError Value
    | some d => .ok (.decimal d)
    | none => .error (.overflow op)
  match op with
  | .add => checked (a.add? b)
  | .subtract => checked (a.sub? b)
  | .multiply => checked (a.mul? b)
  | .modulo => if b.isZero then .ok .null else checked (a.rem b)
  | _ => .ok .null

/-- A division by zero is null. -/
def quotient (a b : Float) : Value :=
  if b == 0 then .null else .double (a / b)

/-- Integers stay integers, a double makes the result a double, and other pairs are decimals. -/
def numericArithmetic (op : BinaryOp) (a b : Numeric) : Except ValueError Value :=
  if op = .divide then
    .ok (quotient a.toDouble b.toDouble)
  else
    match a, b with
    | .int a, .int b => integerArithmetic op a b
    | .decimal a, .decimal b => decimalArithmetic op a b
    | .int a, .decimal b => decimalArithmetic op (Decimal.ofInt64 a) b
    | .decimal a, .int b => decimalArithmetic op a (Decimal.ofInt64 b)
    | a, b => .ok (doubleArithmetic op a.toDouble b.toDouble)

def applyArithmetic (op : BinaryOp) (left right : Value) : Except ValueError Value :=
  if left.isNull || right.isNull then
    .ok .null
  else
    match left.numeric?, right.numeric? with
    | some a, some b => numericArithmetic op a b
    | _, _ => .error (.mismatch op left right)

/-! ## Operators -/

def applyBinary (op : BinaryOp) (left right : Value) : Except ValueError Value :=
  match op with
  | .and => .ok (ofTruth (conjunction left.truth right.truth))
  | .or => .ok (ofTruth (disjunction left.truth right.truth))
  | op => if op.isComparison then applyComparison op left right else applyArithmetic op left right

def applyUnary : UnaryOp → Value → Except ValueError Value
  | _, .null => .ok .null
  | .not, .boolean b => .ok (.boolean !b)
  | .negate, .int i =>
    match int64? (-i.toInt) with
    | some j => .ok (.int j)
    | none => .error (.overflow .subtract)
  | .negate, .double x => .ok (.double (-x))
  | .negate, .decimal d => .ok (.decimal d.neg)
  | op, v => .error (.unaryMismatch op v)

end Value

end HiveQuery
