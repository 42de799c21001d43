import HiveQuery.Tree.Visit
import HiveQuery.Tree.Walk

/-!
# Identities

An undefined number differs from every number, itself included, so a tree that holds one differs from
its own copy. Identities tell copies from other trees: a copy has the identities of what it was copied
from, and what is built anew has none.
-/

namespace HiveQuery
set_option autoImplicit false

namespace Tree

def identity? : Tree → Option Identity
  | .undefined id => some id
  | .select _ id | .join _ id | .projection _ _ id => id
  | _ => none

def identities (t : Tree) : List Identity :=
  t.subtrees.filterMap identity?

/-- An identity that does not occur in a tree. -/
def freshIdentity (t : Tree) : Identity :=
  t.identities.foldl max 0 + 1

/-- Is a constant an undefined number? -/
def isUndefined : Tree → Bool
  | .constant (.double x) => x.isNaN
  | .undefined _ => true
  | _ => false

/-- Is there an undefined number with an identity in a tree? -/
def holdsIdentified (t : Tree) : Bool :=
  t.subtrees.any fun
    | .undefined _ => true
    | _ => false

/-- Gives the next identity to a node that can have one and has none. -/
def identifyNode (t : Tree) : StateM Identity Tree := do
  let id ← get
  let identified : Option Tree :=
    match t with
    | .constant (.double x) => if x.isNaN then some (.undefined id) else none
    | .select s none => some (.select s (some id))
    | .join j none => some (.join j (some id))
    | .projection q u none => some (.projection q u (some id))
    | _ => none
  match identified with
  | some u =>
    set (id + 1)
    return u
  | none => return t

/-- Gives identities from `next` on to all undefined numbers and queries without one. -/
def identify (next : Identity) (t : Tree) : Tree :=
  ((t.bottomUp identifyNode).run next).1

/-- A tree with identities, if undefined numbers make them necessary. -/
def withIdentities (t : Tree) : Tree :=
  if t.subtrees.any isUndefined then t.identify t.freshIdentity else t

/-- A query without its identity. -/
def anonymous : Tree → Tree
  | .select s _ => .select s none
  | .join j _ => .join j none
  | .projection q t _ => .projection q t none
  | t => t

/-- Takes the identity off a query that refers to columns which were built anew. -/
def renewIf (anew : ColumnRef → Bool) (t : Tree) : Tree :=
  if t.identity?.isSome && t.allColumns.any anew then t.anonymous else t

end Tree

end HiveQuery
