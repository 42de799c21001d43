import HiveQuery.Tree

/-!
# Alias scopes

A column may refer to an alias that is in scope where it stands: one declared by the source of an
enclosing select, by the left side of an enclosing apply, or by a side of the join whose condition it
stands in. The shape of a projection sees the query it belongs to.
-/

namespace HiveQuery
set_option autoImplicit false

/-- A column that refers to an alias out of scope. -/
structure ScopeError where
  name : String
  label : Alias
deriving DecidableEq, Repr

def ScopeError.message (e : ScopeError) : String :=
  "invalid query tree: column '" ++ e.name ++ "' references alias " ++ e.label.text ++
    " which is not in scope"

mutual

/-- Checks the columns of a tree in a scope, in reading order. -/
def Tree.checkScopesIn (scope : List Alias) : Tree → Except ScopeError Unit
  | .constant _ => .ok ()
  | .undefined _ => .ok ()
  | .parameter _ => .ok ()
  | .binary _ l r => do
    l.checkScopesIn scope
    r.checkScopesIn scope
  | .unary _ t => t.checkScopesIn scope
  | .between t l u => do
    t.checkScopesIn scope
    l.checkScopesIn scope
    u.checkScopesIn scope
  | .isNull t => t.checkScopesIn scope
  | .member t _ => t.checkScopesIn scope
  | .record fields => checkFields scope fields
  | .entity _ t => t.checkScopesIn scope
  | .outerJoined test t => do
    test.checkScopesIn scope
    t.checkScopesIn scope
  | .table _ _ => .ok ()
  | .column c => if scope.contains c.label then .ok () else .error ⟨c.name, c.label⟩
  | .select s _ => s.checkScopesIn scope
  | .join ⟨kind, l, r, c⟩ _ => do
    l.checkScopesIn scope
    r.checkScopesIn (if kind.isApply then l.sources ++ scope else scope)
    checkOption (l.sources ++ r.sources ++ scope) c
  | .scalarSubquery q _ => q.checkScopesIn scope
  | .existsSubquery q => q.checkScopesIn scope
  | .inSubquery t q => do
    t.checkScopesIn scope
    q.checkScopesIn scope
  | .aggregate _ t _ _ => checkOption scope t
  | .rowNumber order => checkKeys scope order
  | .projection q t _ => do
    q.checkScopesIn scope
    t.checkScopesIn (q.label?.toList ++ scope)

/-- All clauses of a select but its source see the aliases of the source. -/
def Select.checkScopesIn (scope : List Alias) : Select Tree → Except ScopeError Unit
  | ⟨_, columns, source, filter, order, group, _, skip, take, _, cluster⟩ => do
    checkOption scope source
    let inner := (source.map Tree.sources).getD [] ++ scope
    checkOption inner filter
    checkKeys inner order
    checkList inner group
    checkList inner cluster
    checkOption inner skip
    checkOption inner take
    checkColumns inner columns

def checkOption (scope : List Alias) : Option Tree → Except ScopeError Unit
  | none => .ok ()
  | some t => t.checkScopesIn scope

def checkList (scope : List Alias) : List Tree → Except ScopeError Unit
  | [] => .ok ()
  | t :: ts => do
    t.checkScopesIn scope
    checkList scope ts

def checkKeys (scope : List Alias) : List (SortKey Tree) → Except ScopeError Unit
  | [] => .ok ()
  | ⟨_, t⟩ :: ks => do
    t.checkScopesIn scope
    checkKeys scope ks

def checkColumns (scope : List Alias) : List (Column Tree) → Except ScopeError Unit
  | [] => .ok ()
  | ⟨_, t, _⟩ :: cs => do
    t.checkScopesIn scope
    checkColumns scope cs

def checkFields (scope : List Alias) : List (String × Tree) → Except ScopeError Unit
  | [] => .ok ()
  | (_, t) :: fs => do
    t.checkScopesIn scope
    checkFields scope fs

end

/-- The first column, in reading order, that refers to an alias out of scope. -/
def Tree.checkScopes (t : Tree) : Except ScopeError Unit :=
  t.checkScopesIn []

end HiveQuery
