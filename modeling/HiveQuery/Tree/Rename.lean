import HiveQuery.Supply
import HiveQuery.Tree.Identity

/-!
# Renaming aliases

Other aliases for a tree, or for a copy that stands beside it.
-/

namespace HiveQuery
set_option autoImplicit false

/-- Points the columns of some aliases at another alias. A column that is pointed at its own alias is
built anew all the same. -/
def Tree.redirect (old : List Alias) (new : Alias) (t : Tree) : Tree :=
  Id.run <| t.bottomUp fun
    | .column c => pure (.column (if old.contains c.label then { c with label := new } else c))
    | u => pure (u.renewIf fun c => old.contains c.label)

def Tree.renameNode (f : Alias → Alias) : Tree → Tree
  | .table a name => .table (f a) name
  | .select s _ => .select { s with label := f s.label } none
  | .column c => .column { c with label := f c.label }
  | t => t.anonymous

/-- Other aliases, both where they are declared and where they are referred to. -/
def Tree.rename (f : Alias → Alias) (t : Tree) : Tree :=
  Id.run <| t.bottomUp fun u => pure (u.renameNode f)

/-- The replacement that a list of pairs stands for; later pairs count first, and an alias without a pair
stays. -/
def replacement (pairs : List (Alias × Alias)) (a : Alias) : Alias :=
  (pairs.reverse.lookup a).getD a

/-- A copy that can stand beside the tree, with fresh aliases for all it declares. -/
def Tree.duplicate (t : Tree) : StateM Alias Tree := do
  let pairs ← t.declared.mapM fun a => do
    let b ← fresh
    return (a, b)
  return t.rename (replacement pairs)

end HiveQuery
