import HiveQuery.Number.Decimal
import HiveQuery.Timestamp
import HiveQuery.Vocabulary

/-!
# Values

The scalar values of a query, as constants and at run time, with their text and the views under which
operators see them.
-/

namespace HiveQuery
set_option autoImplicit false

/-- The scalar values of a query. -/
inductive Value where
  | null
  | boolean (b : Bool)
  | int (i : Int64)
  | double (x : Float)
  | decimal (d : Decimal)
  | string (s : String)
  | timestamp (t : Timestamp)
deriving Inhabited

/-- A number: integers are promoted to decimals and both to doubles. -/
inductive Numeric where
  | int (i : Int64)
  | decimal (d : Decimal)
  | double (x : Float)

def leastInt64 : Int :=
  -9223372036854775808

def greatestInt64 : Int :=
  9223372036854775807

def int64? (i : Int) : Option Int64 :=
  if leastInt64 ≤ i ∧ i ≤ greatestInt64 then some (Int64.ofInt i) else none

def clampInt64 (i : Int) : Int64 :=
  Int64.ofInt (max leastInt64 (min greatestInt64 i))

def Numeric.toDouble : Numeric → Float
  | .int i => Double.ofInt i.toInt
  | .decimal d => d.toDouble
  | .double x => x

namespace Value

def isNull : Value → Bool
  | .null => true
  | _ => false

/-- A value as messages show it. -/
def text : Value → String
  | .null => "NULL"
  | .boolean b => if b then "true" else "false"
  | .int i => toString i.toInt
  | .double x => Double.plain x
  | .decimal d => d.text
  | .string s => "'" ++ s ++ "'"
  | .timestamp t => t.text

def scalarType? : Value → Option ScalarType
  | .null => none
  | .boolean _ => some .boolean
  | .int _ => some .int64
  | .double _ => some .double
  | .decimal _ => some .decimal
  | .string _ => some .string
  | .timestamp _ => some .timestamp

/-- Three-valued truth, unknown for everything but a boolean. -/
def truth : Value → Option Bool
  | .boolean b => some b
  | _ => none

/-- The number behind a value. -/
def numeric? : Value → Option Numeric
  | .int i => some (.int i)
  | .decimal d => some (.decimal d)
  | .double x => some (.double x)
  | _ => none

/-- The integer that a value stands for. A decimal out of range has none; a double out of range gives
the nearest one. -/
def toInt64? : Value → Option Int64
  | .int i => some i
  | .decimal d => d.whole?.bind int64?
  | .double x => (Double.whole? x).map clampInt64
  | _ => none

/-- The same kind of value with the same content: decimals as numbers, doubles as doubles compare. -/
def beq : Value → Value → Bool
  | .null, .null => true
  | .boolean a, .boolean b => a == b
  | .int a, .int b => a == b
  | .double a, .double b => a == b
  | .decimal a, .decimal b => a.compare b == .eq
  | .string a, .string b => a == b
  | .timestamp a, .timestamp b => a == b
  | _, _ => false

instance : BEq Value := ⟨beq⟩

end Value

end HiveQuery
