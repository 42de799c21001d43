/-!
# Timestamps

A date of the Gregorian calendar with a time of day and without a time zone. A nanosecond field of `10 ^ 9` or
more marks a leap second, which is shown as second 60. Timestamps are ordered field by field, so a leap second
comes after the second it prolongs. Fields are taken as valid: dates are compared and shown, never computed.
-/

namespace HiveQuery
set_option autoImplicit false

structure Timestamp where
  year : Int
  month : Nat
  day : Nat
  hour : Nat
  minute : Nat
  second : Nat
  nanosecond : Nat
deriving DecidableEq, Repr, Inhabited

namespace Timestamp

def compare (a b : Timestamp) : Ordering :=
  (Ord.compare a.year b.year).then <|
  (Ord.compare a.month b.month).then <|
  (Ord.compare a.day b.day).then <|
  (Ord.compare a.hour b.hour).then <|
  (Ord.compare a.minute b.minute).then <|
  (Ord.compare a.second b.second).then <|
  Ord.compare a.nanosecond b.nanosecond

def padded (width n : Nat) : String :=
  let digits := toString n
  String.ofList (List.replicate (width - digits.length) '0') ++ digits

/-- Four digits, with a sign when four unsigned digits do not hold the year. -/
def yearText (year : Int) : String :=
  if 0 ≤ year && year ≤ 9999 then padded 4 year.toNat
  else (if year < 0 then "-" else "+") ++ padded 4 year.natAbs

/-- Date and time without the fraction of a second. -/
def text (t : Timestamp) : String :=
  let second := t.second + t.nanosecond / 1000000000
  yearText t.year ++ "-" ++ padded 2 t.month ++ "-" ++ padded 2 t.day ++ " " ++
    padded 2 t.hour ++ ":" ++ padded 2 t.minute ++ ":" ++ padded 2 second

/-- The fraction of a second with three, six or nine digits, the fewest that are exact. -/
def fractionText (t : Timestamp) : String :=
  let n := t.nanosecond % 1000000000
  if n = 0 then ""
  else if n % 1000000 = 0 then "." ++ padded 3 (n / 1000000)
  else if n % 1000 = 0 then "." ++ padded 6 (n / 1000)
  else "." ++ padded 9 n

def fullText (t : Timestamp) : String :=
  t.text ++ t.fractionText

end Timestamp

end HiveQuery
