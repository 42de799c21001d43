import HiveQuery.Tree.Identity

/-!
# Repeated lookups

A lookup is a source that gives at most one row for each row it is joined to. A join with a lookup that
was joined before in the same way adds nothing: it is dropped, and columns of the dropped side are read
from the side that stays. Cross joins are kept. Conditions are compared by their form, with the two lookups
taken for each other. In a tree each join has a condition of its own: two joins that share one node as their
condition, which would count as equal whatever it reads, are not represented.
-/

namespace HiveQuery
set_option autoImplicit false

/-- The alias of a lookup in a join tree that is joined like the right side of `j`: the join itself
first, then its left side, then its right side. -/
def Tree.similarLookup? (lookups : List Alias) (j : Join Tree) : Tree → Option Alias
  | .join ⟨kind, l, r, c⟩ _ =>
    let here : Option Alias := do
      let existing ← r.label?
      let candidate ← j.right.label?
      if kind == j.kind && lookups.contains existing && r.equal j.right &&
          equalOption (.ofPairs [(existing, candidate)]) c j.condition then
        some existing
      else
        none
    here.or ((l.similarLookup? lookups j).or (r.similarLookup? lookups j))
  | _ => none

/-- A join after its sides were visited: its left side alone if it repeats a lookup. The state tells
which alias is read in place of a dropped one. -/
def dropRepeatedLookup (lookups : List Alias) (j : Join Tree) (id : Option Identity) :
    StateM (List (Alias × Alias)) Tree := do
  let repeated : Option (Alias × Alias) :=
    match j.right.label? with
    | some label =>
      if j.kind != .cross && lookups.contains label then
        (j.left.similarLookup? lookups j).map fun existing => (label, existing)
      else
        none
    | none => none
  match repeated with
  | some pair =>
    modify (pair :: ·)
    return j.left
  | none => return .join j id

/-- A node after its children were visited. Columns of a dropped side are read from the side that
stays. -/
def Tree.dropRepeatedAt (lookups : List Alias) : Tree → StateM (List (Alias × Alias)) Tree
  | .join j id => dropRepeatedLookup lookups j id
  | .column c => do
    let dropped ← get
    return .column { c with label := (dropped.lookup c.label).getD c.label }
  | u => do
    let dropped ← get
    return u.renewIf fun c => dropped.lookup c.label == some c.label

/-- A tree without repeated lookups. -/
def Tree.dropRepeatedLookups (lookups : List Alias) (t : Tree) : Tree :=
  ((t.bottomUp (Tree.dropRepeatedAt lookups)).run []).1

end HiveQuery
