import HiveQuery.Tree.Visit
import HiveQuery.Value.Arithmetic

/-!
# Constant folding

An operator whose operands are constants is replaced by its value, from the leaves up. An operator that
does not apply to its constants is an error.
-/

namespace HiveQuery
set_option autoImplicit false

/-- Folds an operator whose operands are constants. -/
def Tree.foldNode : Tree → Except ValueError Tree
  | .binary op l r =>
    match l.constant?, r.constant? with
    | some a, some b => do
      let v ← Value.applyBinary op a b
      return .constant v
    | _, _ => .ok (.binary op l r)
  | .unary op t =>
    match t.constant? with
    | some a => do
      let v ← Value.applyUnary op a
      return .constant v
    | none => .ok (.unary op t)
  | .isNull t =>
    match t.constant? with
    | some a => .ok (.constant (.boolean a.isNull))
    | none => .ok (.isNull t)
  | t => .ok t

def Tree.fold (t : Tree) : Except ValueError Tree :=
  t.bottomUp Tree.foldNode

end HiveQuery
