import HiveQuery.Supply
import HiveQuery.Tree.Identity
import HiveQuery.Tree.Select

/-!
# Orderings across layers

The order of a select as a layer above sees it. A sort key that no column computes gets a column of its
own, unless repeated rows are dropped, where one more column would change the rows.
-/

namespace HiveQuery
set_option autoImplicit false

/-- What a column for a sort key is called, up to a number. -/
def sortColumnBase : Tree → String
  | .column c => c.name
  | _ => "_order"

namespace Select

/-- A select with a column for a sort key, added if there is none, together with the key and the
column. An added column is a copy of the key, and where that can be told all of the key has
identities. -/
def sortColumn (s : Select Tree) (key : Tree) :
    Except LoweringError (Select Tree × Tree × Column Tree) :=
  match s.columns.find? fun c => c.value.equal key with
  | some c => .ok (s, key, c)
  | none =>
    if s.distinct then
      .error (.distinctOrdering s.label)
    else
      let name := freeName s.headers (sortColumnBase key)
      let key := if key.holdsIdentified then key.identify (Tree.select s none).freshIdentity else key
      let c : Column Tree := ⟨name, key, (key.scalarType?.getD .string).columnType⟩
      .ok (s.addColumn c, key, c)

/-- A select with a column for a sort key, and the key as the select and as a layer above sees it. -/
def liftKey (s : Select Tree) (k : SortKey Tree) :
    Except LoweringError (Select Tree × SortKey Tree × SortKey Tree) := do
  let (s, key, c) ← s.sortColumn k.value
  let named := (s.column? c.name).getD c
  return (s, ⟨k.direction, key⟩, ⟨k.direction, .column (s.refTo named)⟩)

def liftKeys (s : Select Tree) : List (SortKey Tree) →
    Except LoweringError (Select Tree × List (SortKey Tree) × List (SortKey Tree))
  | [] => .ok (s, [], [])
  | k :: ks => do
    let (s, k, lifted) ← s.liftKey k
    let (s, ks, lifteds) ← s.liftKeys ks
    return (s, k :: ks, lifted :: lifteds)

/-- A select with columns for all of its sort keys, and the keys as a layer above sees them. -/
def liftOrder (s : Select Tree) : Except LoweringError (Select Tree × List (SortKey Tree)) := do
  let (s, order, lifted) ← s.liftKeys s.order
  return ({ s with order := order }, lifted)

end Select

mutual

/-- The order that a select delivers its rows in: its own one, or the one of the select it reads from.
Grouping forgets the order below. -/
def Select.requireOrder : Select Tree → Except LoweringError (Select Tree × List (SortKey Tree))
  | ⟨label, columns, source, filter, order, group, distinct, skip, take, reverse, cluster⟩ =>
    if !order.isEmpty then
      .ok (⟨label, columns, source, filter, order, group, distinct, skip, take, reverse, cluster⟩,
        order)
    else if !group.isEmpty then
      .error .missingOrder
    else do
      let (source, lifted) ← optionOrder source
      return (⟨label, columns, source, filter, order, group, distinct, skip, take, reverse, cluster⟩,
        lifted)
termination_by structural s => s

/-- The order of a source, lifted for the select that reads from it. Only selects have one. -/
def Tree.liftedOrder : Tree → Except LoweringError (Tree × List (SortKey Tree))
  | .select s _ => do
    let (s, order) ← s.requireOrder
    let (s, lifted) ← { s with order := order }.liftOrder
    return (.select s none, lifted)
  | _ => .error .missingOrder
termination_by structural t => t

/-- The order of the source of a select, if it has one. -/
def optionOrder : Option Tree → Except LoweringError (Option Tree × List (SortKey Tree))
  | none => .error .missingOrder
  | some t => do
    let (t, lifted) ← t.liftedOrder
    return (some t, lifted)
termination_by structural o => o

end

end HiveQuery
