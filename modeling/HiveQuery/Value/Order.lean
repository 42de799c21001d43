import HiveQuery.Value

/-!
# Comparing values

Comparison as operators see it, the order of sorting, and the equality of grouping.
-/

namespace HiveQuery.Value
set_option autoImplicit false

/-- Numbers compare exactly among integers and decimals, and as doubles once a double is involved. -/
def compareNumeric? : Numeric → Numeric → Option Ordering
  | .int a, .int b => some (compare a.toInt b.toInt)
  | .decimal a, .decimal b => some (a.compare b)
  | .int a, .decimal b => some ((Decimal.ofInt64 a).compare b)
  | .decimal a, .int b => some (a.compare (Decimal.ofInt64 b))
  | a, b => Double.compare? a.toDouble b.toDouble

/-- Comparison as operators see it, undefined on nulls and between different families. -/
def compare? : Value → Value → Option Ordering
  | .boolean a, .boolean b => some (compare a b)
  | .string a, .string b => some (compare a b)
  | .timestamp a, .timestamp b => some (a.compare b)
  | a, b => do compareNumeric? (← a.numeric?) (← b.numeric?)

/-- Nulls come first; values that do not compare are level. -/
def sortCompare (a b : Value) : Ordering :=
  match a.isNull, b.isNull with
  | true, true => .eq
  | true, false => .lt
  | false, true => .gt
  | false, false => (a.compare? b).getD .eq

/-- Nulls belong together; other values belong together when they compare equal. -/
def sameGroup : Value → Value → Bool
  | .null, .null => true
  | a, b => a.compare? b == some .eq

/-- Do all values of two rows belong together? -/
def sameRow (a b : List Value) : Bool :=
  a.length == b.length && (a.zip b).all fun p => p.1.sameGroup p.2

end HiveQuery.Value
