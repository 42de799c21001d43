import HiveQuery.Number.Double
import HiveQuery.Number.LongRemainder

/-!
# Decimals

A decimal is a sign, a mantissa of at most 96 bits and a scale of at most 28 fraction digits. The scale
is kept: `1.50` and `1.5` are different decimals with the same number. The operations give, digit by digit,
what arithmetic on a mantissa of three words of 32 bits gives, also where it is not exact: small products
vanish, long divisors can lose a word, and a double is put together from whole part and fraction.
-/

namespace HiveQuery
set_option autoImplicit false

def maxMantissa : Nat := 79228162514264337593543950335

def maxScale : Nat := 28

/-- The number `± mantissa / 10 ^ scale`. A zero may carry a sign. -/
structure Decimal where
  negative : Bool
  mantissa : Nat
  scale : Nat
  mantissa_le : mantissa ≤ maxMantissa
  scale_le : scale ≤ maxScale
deriving DecidableEq

namespace Decimal

def zero : Decimal := ⟨false, 0, 0, by decide, by decide⟩

instance : Inhabited Decimal := ⟨zero⟩

def isZero (d : Decimal) : Bool := d.mantissa == 0

def signed (d : Decimal) : Int :=
  if d.negative then -(d.mantissa : Int) else (d.mantissa : Int)

def neg (d : Decimal) : Decimal := { d with negative := !d.negative }

/-- A quotient rounded to an integer, halves to even. -/
def roundHalfEven (num den : Nat) : Nat :=
  let q := num / den
  let r := num % den
  if 2 * r < den then q
  else if den < 2 * r then q + 1
  else if q % 2 = 0 then q
  else q + 1

/-- The number `± num / 10 ^ scale` at the largest scale that holds it, at most `scale` and 28. Digits
that are lost are rounded once, halves to even, and the sign stays when they all are. A number that does
not fit even without fraction digits is `none`. -/
def fitSigned (negative : Bool) (num scale : Nat) : Option Decimal :=
  (List.range (min scale maxScale + 1)).reverse.findSome? fun t =>
    let m := roundHalfEven num (Number.tenTo (scale - t))
    if h : m ≤ maxMantissa ∧ t ≤ maxScale then some ⟨negative, m, t, h.1, h.2⟩ else none

def unsignZero (d : Decimal) : Decimal := { d with negative := d.negative && !d.isZero }

/-- The number `± num / 10 ^ scale` as `fitSigned` has it, with zero positive. -/
def fit (negative : Bool) (num scale : Nat) : Option Decimal :=
  (fitSigned negative num scale).map unsignZero

/-- The mantissas of two decimals at the larger scale. -/
def aligned (a b : Decimal) : Int × Int :=
  let s := max a.scale b.scale
  (a.signed * (Number.tenTo (s - a.scale) : Nat), b.signed * (Number.tenTo (s - b.scale) : Nat))

/-- The order of the numbers. -/
def compare (a b : Decimal) : Ordering :=
  let (x, y) := aligned a b
  Ord.compare x y

/-! ## Arithmetic -/

/-- The sum at the larger scale. A zero operand leaves the other one as it is. -/
def add? (a b : Decimal) : Option Decimal :=
  if a.isZero then some b
  else if b.isZero then some a
  else
    let (x, y) := aligned a b
    fit (x + y < 0) (x + y).natAbs (max a.scale b.scale)

def sub? (a b : Decimal) : Option Decimal :=
  if b.isZero then some (if a.isZero then b else a) else add? a b.neg

/-- The largest sum of scales at which a product of two short mantissas is still rounded. -/
def maxShortProductScale : Nat := 47

/-- Does one word hold the mantissa? -/
def isShort (d : Decimal) : Bool := decide (d.mantissa < Number.twoTo 32)

/-- The product at the sum of the scales; a zero operand gives zero without fraction digits. A product
of short mantissas is such a zero too where the scale is far too large, and is positive where it rounds
to zero; a longer product keeps its sign. -/
def mul? (a b : Decimal) : Option Decimal :=
  let negative := a.negative != b.negative
  let m := a.mantissa * b.mantissa
  let s := a.scale + b.scale
  if a.isZero || b.isZero then some zero
  else if a.isShort && b.isShort then
    if maxShortProductScale < s then some zero else fit negative m s
  else fitSigned negative m s

/-- The remainder with the sign of `a`, at the larger scale when something was divided off. -/
def rem (a b : Decimal) : Option Decimal :=
  let (x, y) := aligned a b
  if a.isZero || x.natAbs = y.natAbs then some zero
  else if x.natAbs < y.natAbs then some a
  else fit a.negative (Number.longRemainder x.natAbs y.natAbs) (max a.scale b.scale)

/-! ## Other number types -/

def ofInt64 (i : Int64) : Decimal :=
  ⟨decide (i.toInt < 0), i.toInt.natAbs, 0,
    by
      have h1 := i.le_toInt
      have h2 := i.toInt_lt
      simp only [maxMantissa]
      omega,
    by decide⟩

def whole? (d : Decimal) : Option Int :=
  if d.mantissa % Number.tenTo d.scale = 0 then
    let q : Int := ((d.mantissa / Number.tenTo d.scale : Nat) : Int)
    some (if d.negative then -q else q)
  else
    none

/-- `10 ^ n` as a double, by repeated squaring of `base`. -/
def powerOfTen (n : Nat) (acc base : Float) : Float :=
  if _h : n = 0 then
    acc
  else
    let acc := if n % 2 = 1 then acc * base else acc
    powerOfTen (n / 2) acc (base * base)
termination_by n
decreasing_by omega

/-- The double of a decimal: whole part and fraction are converted apart, and their sum is rounded at
the scale of the decimal. A zero keeps its sign if it has fraction digits. -/
def toDouble (d : Decimal) : Float :=
  let p := Number.tenTo d.scale
  let i := d.mantissa / p
  let f := d.mantissa % p
  let r :=
    if f = 0 then
      Double.ofNat i
    else
      let v := Double.ofNat i + Double.ofNat f / Double.ofNat p
      let r := powerOfTen d.scale 1 10
      (v * r).round / r
  if d.negative && !(d.isZero && d.scale = 0) then -r else r

/-! ## Text -/

/-- Positional digits, as many after the point as the scale says. -/
def text (d : Decimal) : String :=
  (if d.negative then "-" else "") ++
    (if d.scale = 0 then toString d.mantissa
     else Double.positional false ⟨d.mantissa, -(d.scale : Int)⟩)

def digitsValue? (cs : List Char) : Option Nat :=
  cs.foldlM
    (fun n c => if c.isDigit then some (10 * n + (c.toNat - '0'.toNat)) else none)
    0

/-- Reads an optional sign, digits, and optionally a point and more digits. A zero is positive. -/
def ofText? (s : String) : Option Decimal := do
  let negative := s.startsWith "-"
  let body := if negative then s.toList.drop 1 else s.toList
  let ahead := body.takeWhile (· != '.')
  let behind := (body.dropWhile (· != '.')).drop 1
  let m ← digitsValue? (ahead ++ behind)
  if h : m ≤ maxMantissa ∧ behind.length ≤ maxScale then
    return ⟨negative && m != 0, m, behind.length, h.1, h.2⟩
  else
    none

end Decimal

end HiveQuery
