import HiveQuery.Relation
import HiveQuery.Value.Arithmetic

/-!
# Grouping rows

Groups of rows, distinct rows, and aggregates over a group.
-/

namespace HiveQuery
set_option autoImplicit false

/-! ## Groups -/

/-- Adds a row to the first group with its key, or opens a group. -/
def insertGroup {α : Type} (key : List Value) (a : α) :
    List (List Value × List α) → List (List Value × List α)
  | [] => [(key, [a])]
  | g :: gs =>
    if Value.sameRow g.1 key then (g.1, g.2 ++ [a]) :: gs else g :: insertGroup key a gs

/-- Rows with the same key, in groups that stand in the order of their first rows. -/
def groupByKey {α : Type} (keyed : List (List Value × α)) : List (List α) :=
  (keyed.foldl (fun groups p => insertGroup p.1 p.2 groups) []).map Prod.snd

/-- The first of each set of rows that are the same. -/
def distinctRows {α : Type} (rows : List (List Value × α)) : List (List Value × α) :=
  rows.foldl
    (fun kept row => if kept.any fun k => Value.sameRow k.1 row.1 then kept else kept ++ [row])
    []

/-! ## Aggregates -/

def distinctValues (values : List Value) : List Value :=
  values.foldl (fun kept v => if kept.any fun k => k.sameGroup v then kept else kept ++ [v]) []

def sumValues : List Value → Except ValueError Value
  | [] => .ok .null
  | v :: vs => vs.foldlM (fun total w => Value.applyBinary .add total w) v

/-- The value that precedes all others in the wanted sense; null without values. -/
def extremum (wanted : Ordering) : List Value → Value
  | [] => .null
  | v :: vs => vs.foldl (fun best w => if w.compare? best == some wanted then w else best) v

/-- A number of rows as a value. -/
def countValue (n : Nat) : Value := .int (Int64.ofNat n)

/-- A value for all values of a group, nulls left out. -/
def aggregateValues (kind : AggregateKind) (distinct : Bool) (values : List Value) :
    Except ValueError Value := do
  let present := values.filter fun v => !v.isNull
  let counted := if distinct then distinctValues present else present
  match kind with
  | .count => return countValue counted.length
  | .sum => sumValues counted
  | .min => return extremum .lt counted
  | .max => return extremum .gt counted
  | .average =>
    let total ← sumValues counted
    Value.applyBinary .divide total (countValue counted.length)

end HiveQuery
