import HiveQuery.Tree

/-!
# Layers of selects

Operations on one select: names that are still free, references to its columns as seen from above, and
putting a select under a layer that passes its columns through. The number in a free name is at most the
number of names that are taken: where it has 31 bits, this is about selects with fewer columns.
-/

namespace HiveQuery
set_option autoImplicit false

/-- The first of `base`, `base1`, `base2`, … that is not taken. One more number than there are taken
names leaves one that is free. -/
def freeName (taken : List String) (base : String) : String :=
  if taken.contains base then
    let numbered := (List.range (taken.length + 1)).map fun n => base ++ toString (n + 1)
    (numbered.find? fun name => !taken.contains name).getD base
  else
    base

namespace Select

def headers {α : Type} (s : Select α) : List String :=
  s.columns.map Column.name

def column? {α : Type} (s : Select α) (name : String) : Option (Column α) :=
  s.columns.find? fun c => c.name == name

def hasPaging {α : Type} (s : Select α) : Bool :=
  s.skip.isSome || s.take.isSome

def addColumn {α : Type} (s : Select α) (c : Column α) : Select α :=
  { s with columns := s.columns ++ [c] }

def removeColumn {α : Type} (s : Select α) (name : String) : Select α :=
  { s with columns := s.columns.filter fun c => c.name != name }

/-- A column of a select as its consumers see it. -/
def refTo (s : Select Tree) (c : Column Tree) : ColumnRef :=
  ⟨c.value.scalarType?.getD c.type.scalar, c.type, s.label, c.name⟩

def columnRef? (s : Select Tree) (name : String) : Option ColumnRef :=
  (s.column? name).map s.refTo

/-- A column that passes on a column of a layer below, under the layer's alias. -/
def passOn (label : Alias) (c : Column Tree) : Column Tree :=
  let ref : ColumnRef :=
    match c.value with
    | .column r => ⟨r.type, r.columnType, label, c.name⟩
    | value =>
      let type := value.scalarType?.getD c.type.scalar
      ⟨type, type.columnType, label, c.name⟩
  ⟨c.name, .column ref, ref.columnType⟩

/-- A layer with the alias of the select that passes its columns on from an inner layer. -/
def above (s inner : Select Tree) : Select Tree :=
  { label := s.label
    columns := s.columns.map (passOn inner.label)
    source := some (.select inner none) }

/-- The same rows under one more layer. -/
def wrap (s : Select Tree) (label : Alias) : Select Tree :=
  s.above { s with label := label }

end Select

end HiveQuery
