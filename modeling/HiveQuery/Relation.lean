import HiveQuery.Tree

/-!
# Rows and relations

The tables that queries read, the relations that they give, and the rows in between.
-/

namespace HiveQuery
set_option autoImplicit false

/-- The result of a query. -/
structure Relation where
  headers : List String
  rows : List (List Value)

/-- A stored table. -/
structure Table where
  columns : List String
  rows : List (List Value)

abbrev Dataset := List (String × Table)

abbrev Arguments := List (String × Value)

/-! ## Rows -/

/-- What one source contributes to a row. Without values it is the null extension of an unmatched outer
join. -/
structure Binding where
  label : Alias
  columns : List String
  values : Option (List Value)

/-- A row while a query runs: what each of its sources contributes. -/
abbrev Row := List Binding

/-- The current row and the rows of the enclosing selects, innermost first. -/
abbrev Frames := List Row

/-- A column's value, null for a row joined to nothing. -/
def Binding.value? (b : Binding) (name : String) : Option Value :=
  match b.values with
  | none => some .null
  | some values => (b.columns.findIdx? (· == name)).bind fun i => values[i]?

/-- The value of a column in the innermost row that has its alias. Further out it is not looked for,
even if that row lacks the column. -/
def Frames.lookup? (frames : Frames) (c : ColumnRef) : Option Value :=
  match frames with
  | [] => none
  | row :: outer =>
    match row.find? fun b => b.label == c.label with
    | some b => b.value? c.name
    | none => Frames.lookup? outer c

/-- A row of one source. -/
def sourceRow (label : Alias) (columns : List String) (values : List Value) : Row :=
  [⟨label, columns, some values⟩]

/-- The nulls that take the place of some sources. -/
def nullRow (sources : List Alias) : Row :=
  sources.map fun a => ⟨a, [], none⟩

def Relation.bindRows (r : Relation) (label : Alias) : List Row :=
  r.rows.map (sourceRow label r.headers)

end HiveQuery
