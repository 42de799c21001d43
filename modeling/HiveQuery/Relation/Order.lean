import HiveQuery.Relation
import HiveQuery.Value.Order

/-!
# Ordering rows

A list that is sorted by a total preorder and keeps the order of equal elements is unique, whatever
algorithm finds it. The order of sort keys is none where undefined numbers or values of different types
occur: there `stableSort` gives one of the outcomes that sorting may have, that of inserting row after row,
and what is proved about its result without asking for a total preorder is about this outcome.
-/

namespace HiveQuery
set_option autoImplicit false

/-! ## Sorting -/

/-- Inserts into a list that is kept in reverse. -/
def insertFromEnd {α : Type} (before : α → α → Bool) (a : α) : List α → List α
  | [] => [a]
  | b :: bs => if before a b then b :: insertFromEnd before a bs else a :: b :: bs

/-- Sorts a list; elements of which neither precedes the other keep their order. -/
def stableSort {α : Type} (before : α → α → Bool) (l : List α) : List α :=
  (l.foldl (fun sorted a => insertFromEnd before a sorted) []).reverse

/-! ## Keys -/

def Direction.compare : Direction → Value → Value → Ordering
  | .ascending, a, b => a.sortCompare b
  | .descending, a, b => b.sortCompare a

/-- The order of two rows by their sort keys. -/
def compareKeys : List Direction → List Value → List Value → Ordering
  | d :: ds, x :: xs, y :: ys => (d.compare x y).then (compareKeys ds xs ys)
  | _, _, _ => .eq

def precedes (directions : List Direction) (a b : List Value) : Bool :=
  compareKeys directions a b == .lt

def sortByKeys {α : Type} (directions : List Direction) (rows : List (α × List Value)) :
    List (α × List Value) :=
  stableSort (fun a b => precedes directions a.2 b.2) rows

/-- The place of each row, counted from one, when rows are sorted by their keys. -/
def ranks (directions : List Direction) (keys : List (List Value)) : List Nat :=
  let sorted := sortByKeys directions ((List.range keys.length).zip keys)
  (List.range keys.length).map fun i => sorted.findIdx (fun p => p.1 == i) + 1

end HiveQuery
