import HiveQuery.Number.Power

/-!
# Shortest decimal digits of a double

A finite double is `significand * 2 ^ exponent`. The reals that round to it form an interval, from
halfway to the neighbour below to halfway to the neighbour above, and its text is the decimal with the
fewest digits in that interval.
-/

namespace HiveQuery.Number
set_option autoImplicit false

/-- A finite non-negative double, `significand * 2 ^ exponent`. -/
structure Binary where
  significand : Nat
  exponent : Int
  /-- The gap to the double below is half the gap to the double above. -/
  narrow : Bool
deriving Repr, DecidableEq

/-- The decimal `digits * 10 ^ exponent`. -/
structure Scientific where
  digits : Nat
  exponent : Int
deriving Repr, DecidableEq

/-! ## Bits -/

/-- The bit of a significand that the bits of a double leave out, `2 ^ 52`. -/
def hiddenBit : Nat :=
  0x10000000000000

def Binary.ofBits (bits : UInt64) : Binary :=
  let biased := ((bits >>> 52) &&& 0x7FF).toNat
  let fraction := (bits &&& 0xFFFFFFFFFFFFF).toNat
  if biased = 0 then
    ⟨fraction, -1074, false⟩
  else
    ⟨hiddenBit + fraction, (biased : Int) - 1075, fraction == 0 && 1 < biased⟩

/-- The double `significand * 2 ^ exponent`, for a number that a double holds exactly. -/
def doubleOfParts (significand : Nat) (exponent : Int) : Float :=
  if significand = 0 then
    Float.ofBits 0
  else
    let shift := min (52 - (Nat.log2 significand : Int)) (exponent + 1074)
    let m := significand * twoTo shift.toNat / twoTo (-shift).toNat
    let e := exponent - shift
    if m < hiddenBit then
      Float.ofBits m.toUInt64
    else
      Float.ofBits (((e + 1075).toNat * hiddenBit + (m - hiddenBit)).toUInt64)

/-! ## The interval of a double -/

/-- The order of `a * 10 ^ i` and `n * 2 ^ j`. -/
def compareScaled (a : Nat) (i : Int) (n : Nat) (j : Int) : Ordering :=
  compare (a * tenTo i.toNat * twoTo (-j).toNat) (n * twoTo j.toNat * tenTo (-i).toNat)

/-- The decimal lies among the reals that round to the double. The ends belong to the interval exactly
when the significand is even. -/
def Binary.readsBack (x : Binary) (d : Scientific) : Bool :=
  let low := if x.narrow then 4 * x.significand - 1 else 4 * x.significand - 2
  let high := 4 * x.significand + 2
  let closed := x.significand % 2 == 0
  let toLow := compareScaled d.digits d.exponent low (x.exponent - 2)
  let toHigh := compareScaled d.digits d.exponent high (x.exponent - 2)
  (toLow == .gt || (closed && toLow == .eq)) && (toHigh == .lt || (closed && toHigh == .eq))

/-! ## Selecting digits -/

/-- The least power of ten above a double. -/
def Binary.scale (x : Binary) : Int :=
  let guess := ((Nat.log2 x.significand : Int) + x.exponent) * 30103 / 100000 - 1
  let above (k : Int) : Bool := compareScaled 1 k x.significand x.exponent == .gt
  ((List.range 5).map fun (i : Nat) => guess + (i : Int)).find? above |>.getD (guess + 5)

/-- The neighbour of the double on the grid `10 ^ exponent` that reads back, if there is one. -/
def Binary.onGrid (x : Binary) (exponent : Int) : Option Scientific :=
  let num := x.significand * twoTo x.exponent.toNat * tenTo (-exponent).toNat
  let den := twoTo (-x.exponent).toNat * tenTo exponent.toNat
  let below : Scientific := ⟨num / den, exponent⟩
  let above : Scientific := ⟨num / den + 1, exponent⟩
  match x.readsBack below, x.readsBack above with
  | true, true => if 2 * num < (2 * below.digits + 1) * den then some below else some above
  | true, false => some below
  | false, true => some above
  | false, false => none

def Scientific.strip (d : Scientific) : Scientific :=
  if h : d.digits ≠ 0 ∧ d.digits % 10 = 0 then
    Scientific.strip ⟨d.digits / 10, d.exponent + 1⟩
  else
    d
termination_by d.digits
decreasing_by exact Nat.div_lt_self (Nat.pos_of_ne_zero h.1) (by decide)

/-- All digits of a double. -/
def Binary.exact (x : Binary) : Scientific :=
  ⟨x.significand * twoTo x.exponent.toNat * fiveTo (-x.exponent).toNat, min x.exponent 0⟩

/-- The fewest digits that read back. Seventeen digits are always enough. -/
def Binary.shortest (x : Binary) : Scientific :=
  if x.significand = 0 then
    ⟨0, 0⟩
  else
    let k := x.scale
    let found := (List.range 17).findSome? fun (n : Nat) => x.onGrid (k - 1 - (n : Int))
    (found.getD x.exact).strip

end HiveQuery.Number
