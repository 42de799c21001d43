import HiveQuery.Tree

/-!
# Walking a tree

The subtrees of a tree in the order in which its clauses are read, and what is gathered from them.
-/

namespace HiveQuery
set_option autoImplicit false

/-- A tree and what is inside of it, unless the walk stops there. -/
def Tree.enter (stop : Tree → Bool) (t : Tree) (inside : List Tree) : List Tree :=
  t :: if stop t then [] else inside

mutual

/-- What a walk meets below a tree. -/
def Tree.inside (stop : Tree → Bool) : Tree → List Tree
  | .constant _ => []
  | .undefined _ => []
  | .parameter _ => []
  | .binary _ l r => Tree.enter stop l (l.inside stop) ++ Tree.enter stop r (r.inside stop)
  | .unary _ t => Tree.enter stop t (t.inside stop)
  | .between t l u =>
    Tree.enter stop t (t.inside stop) ++ Tree.enter stop l (l.inside stop) ++
      Tree.enter stop u (u.inside stop)
  | .isNull t => Tree.enter stop t (t.inside stop)
  | .member t _ => Tree.enter stop t (t.inside stop)
  | .record fields => walkFields stop fields
  | .entity _ t => Tree.enter stop t (t.inside stop)
  | .outerJoined test t => Tree.enter stop test (test.inside stop) ++ Tree.enter stop t (t.inside stop)
  | .table _ _ => []
  | .column _ => []
  | .select s _ => s.inside stop
  | .join ⟨_, l, r, c⟩ _ =>
    Tree.enter stop l (l.inside stop) ++ Tree.enter stop r (r.inside stop) ++ walkOption stop c
  | .scalarSubquery q _ => Tree.enter stop q (q.inside stop)
  | .existsSubquery q => Tree.enter stop q (q.inside stop)
  | .inSubquery t q => Tree.enter stop t (t.inside stop) ++ Tree.enter stop q (q.inside stop)
  | .aggregate _ t _ _ => walkOption stop t
  | .rowNumber order => walkKeys stop order
  | .projection q t _ => Tree.enter stop q (q.inside stop) ++ Tree.enter stop t (t.inside stop)

/-- What a walk meets in the clauses of a select: the source first, the columns last. -/
def Select.inside (stop : Tree → Bool) : Select Tree → List Tree
  | ⟨_, columns, source, filter, order, group, _, skip, take, _, cluster⟩ =>
    walkOption stop source ++ walkOption stop filter ++ walkKeys stop order ++
      walkList stop group ++ walkList stop cluster ++ walkOption stop skip ++
      walkOption stop take ++ walkColumns stop columns

def walkOption (stop : Tree → Bool) : Option Tree → List Tree
  | none => []
  | some t => Tree.enter stop t (t.inside stop)

def walkList (stop : Tree → Bool) : List Tree → List Tree
  | [] => []
  | t :: ts => Tree.enter stop t (t.inside stop) ++ walkList stop ts

def walkKeys (stop : Tree → Bool) : List (SortKey Tree) → List Tree
  | [] => []
  | ⟨_, t⟩ :: ks => Tree.enter stop t (t.inside stop) ++ walkKeys stop ks

def walkColumns (stop : Tree → Bool) : List (Column Tree) → List Tree
  | [] => []
  | ⟨_, t, _⟩ :: cs => Tree.enter stop t (t.inside stop) ++ walkColumns stop cs

def walkFields (stop : Tree → Bool) : List (String × Tree) → List Tree
  | [] => []
  | (_, t) :: fs => Tree.enter stop t (t.inside stop) ++ walkFields stop fs

end

/-- A tree and all that is below it, except below the trees where the walk stops. -/
def Tree.walk (stop : Tree → Bool) (t : Tree) : List Tree :=
  Tree.enter stop t (t.inside stop)

/-- The walk that stops nowhere. -/
def Tree.subtrees (t : Tree) : List Tree :=
  t.walk fun _ => false

/-! ## Gathering -/

/-- Each element once, in the order of first occurrences. -/
def firstOccurrences {α : Type} [BEq α] (l : List α) : List α :=
  l.foldl (fun seen a => if seen.contains a then seen else seen ++ [a]) []

/-- The columns that a tree refers to. -/
def Tree.allColumns (t : Tree) : List ColumnRef :=
  firstOccurrences (t.subtrees.filterMap Tree.column?)

/-- Goes on into the first select of a walk that stops at selects. -/
def openFirstSelect : List Tree → List Tree
  | [] => []
  | .select s id :: rest => .select s id :: (s.inside Tree.isSelect ++ rest)
  | t :: rest => t :: openFirstSelect rest

/-- The columns that the first select of a tree refers to outside of other selects. -/
def Tree.ownColumns (t : Tree) : List ColumnRef :=
  firstOccurrences ((openFirstSelect (t.walk Tree.isSelect)).filterMap Tree.column?)

def Tree.referenced (t : Tree) : List Alias :=
  t.allColumns.map ColumnRef.label

/-- The aliases of the tables and selects of a tree, a repeated one as often as it occurs. -/
def Tree.declared (t : Tree) : List Alias :=
  t.subtrees.filterMap Tree.label?

/-- The parameters of a tree, the first one of each name. -/
def Tree.parameters (t : Tree) : List Parameter :=
  (t.subtrees.filterMap Tree.parameter?).foldl
    (fun seen p => if seen.any fun q => q.name == p.name then seen else seen ++ [p])
    []

/-- Is an aggregate computed in a scalar itself, outside of its subqueries? -/
def Tree.hasAggregate (t : Tree) : Bool :=
  (t.walk fun u => u.isSelect || u.isSubquery).any Tree.isAggregate

/-- Is an aggregate computed in the select itself? -/
def Select.hasAggregates (s : Select Tree) : Bool :=
  s.filter.any Tree.hasAggregate ||
    s.order.any (fun k => k.value.hasAggregate) ||
    s.columns.any fun c => c.value.hasAggregate

end HiveQuery
