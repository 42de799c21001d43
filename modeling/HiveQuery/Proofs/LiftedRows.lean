import HiveQuery.Proofs.Rerouting

/-!
# Lifted orders in any rows

A query may run inside rows that bind the aliases which it declares itself. Such bindings are out of its sight unless
it looks them up.
-/

namespace HiveQuery
open List

variable {group : Option (List Row)} {v : Value} {c : ColumnRef}
set_option autoImplicit false

/-! ## Columns that are looked up -/

variable {env : Environment} {k : Mode} {μ : Reads} {t u : Tree} {hidden : List Alias}

namespace Select

variable {s s' : Select Tree} {frames : Frames} {rows : KeyedRows}
  {extra : List (Column Tree)} {lifted : List (SortKey Tree)}

end Select

end HiveQuery
