import HiveQuery.Number.Shortest

/-!
# Doubles

The text of a double in its two layouts, the remainder of a division, and the passage to integers, all
read off the bits.
-/

namespace HiveQuery.Double
set_option autoImplicit false
open HiveQuery.Number

def isNegative (x : Float) : Bool :=
  x.toBits >>> 63 == 1

def isFinite (x : Float) : Bool :=
  (x.toBits >>> 52) &&& 0x7FF != 0x7FF

def magnitude (x : Float) : Binary :=
  Binary.ofBits (x.toBits &&& 0x7FFFFFFFFFFFFFFF)

def withSign (negative : Bool) (x : Float) : Float :=
  if negative then Float.ofBits (x.toBits ||| 0x8000000000000000) else x

/-! ## Text -/

def zeros (n : Nat) : String :=
  String.ofList (List.replicate n '0')

/-- Positional layout of `digits * 10 ^ exponent`. With `point` a whole number ends in `.0`. -/
def positional (point : Bool) (d : Scientific) : String :=
  let digits := toString d.digits
  if 0 ≤ d.exponent then
    digits ++ (if d.digits = 0 then "" else zeros d.exponent.toNat) ++ (if point then ".0" else "")
  else
    let places := (-d.exponent).toNat
    let padded := zeros (places + 1 - digits.length) ++ digits
    let cut := padded.length - places
    String.ofList (padded.toList.take cut) ++ "." ++ String.ofList (padded.toList.drop cut)

/-- One digit before the point, and an exponent. -/
def exponential (d : Scientific) : String :=
  let digits := toString d.digits
  let lead := String.ofList (digits.toList.take 1)
  let rest := String.ofList (digits.toList.drop 1)
  let power := d.exponent + ((digits.length : Int) - 1)
  lead ++ (if rest.isEmpty then "" else "." ++ rest) ++ "e" ++ toString power

/-- The sign and the special values around a layout of finite magnitudes. -/
def render (layout : Scientific → String) (x : Float) : String :=
  if x.isNaN then
    "NaN"
  else
    (if isNegative x then "-" else "") ++
      (if isFinite x then layout (magnitude x).shortest else "inf")

/-- Positional digits only, as values are shown in messages. -/
def plain (x : Float) : String :=
  render (positional false) x

def leadingPower (d : Scientific) : Int :=
  d.exponent + (((toString d.digits).length : Int) - 1)

/-- Positional digits with a fraction from `1e-4` to below `1e16` and for zero, else an exponent. -/
def literal (x : Float) : String :=
  render
    (fun d =>
      if d.digits = 0 || (-4 ≤ leadingPower d && leadingPower d < 16) then
        positional true d
      else
        exponential d)
    x

/-! ## Remainder and integers -/

/-- The number that is none. -/
def undefined : Float :=
  Float.ofBits 0x7FF8000000000000

/-- The exact remainder, with the sign of the dividend. -/
def remainder (a b : Float) : Float :=
  if a.isNaN || b.isNaN || !isFinite a || b == 0 then
    undefined
  else if !isFinite b then
    a
  else
    let x := magnitude a
    let y := magnitude b
    let e := min x.exponent y.exponent
    let num := x.significand * twoTo (x.exponent - e).toNat
    let den := y.significand * twoTo (y.exponent - e).toNat
    withSign (isNegative a) (doubleOfParts (num % den) e)

/-- The integer a double stands for, unless it has a fraction or is not finite. -/
def whole? (x : Float) : Option Int :=
  if isFinite x then
    let b := magnitude x
    let num := b.significand * twoTo b.exponent.toNat
    let den := twoTo (-b.exponent).toNat
    if num % den = 0 then
      some (if isNegative x then -((num / den : Nat) : Int) else ((num / den : Nat) : Int))
    else
      none
  else
    none

def ofNat (n : Nat) : Float :=
  Float.ofScientific n false 0

def ofInt (i : Int) : Float :=
  if i < 0 then -(ofNat i.natAbs) else ofNat i.natAbs

def compare? (a b : Float) : Option Ordering :=
  if a < b then some .lt
  else if a == b then some .eq
  else if b < a then some .gt
  else none

end HiveQuery.Double
