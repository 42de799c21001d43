import HiveQuery.Tree.Equal

/-!
# Rebuilding a tree

One recursion rebuilds a tree from its visited children, in the order in which clauses are read. What
happens at a node is the visitor's choice.
-/

namespace HiveQuery
set_option autoImplicit false

/-- What to do around a node, and between the source of a select and its other clauses. -/
structure Visitor (m : Type → Type) where
  /-- The result for a node, given the action that rebuilds it from its visited children. -/
  around : Tree → m Tree → m Tree
  /-- Runs after the source of a select was visited and before its other clauses are. -/
  afterSource : Option Tree → m Unit

mutual

/-- Rebuilds a tree. A query keeps its identity if all below it stays as it was. -/
def Tree.visit {m : Type → Type} [Monad m] (v : Visitor m) : Tree → m Tree
  | .constant x => v.around (.constant x) (pure (.constant x))
  | .undefined id => v.around (.undefined id) (pure (.undefined id))
  | .parameter p => v.around (.parameter p) (pure (.parameter p))
  | .binary op l r =>
    v.around (.binary op l r) do
      let l ← l.visit v
      let r ← r.visit v
      return .binary op l r
  | .unary op t =>
    v.around (.unary op t) do
      let t ← t.visit v
      return .unary op t
  | .between t l u =>
    v.around (.between t l u) do
      let t ← t.visit v
      let l ← l.visit v
      let u ← u.visit v
      return .between t l u
  | .isNull t =>
    v.around (.isNull t) do
      let t ← t.visit v
      return .isNull t
  | .member t name =>
    v.around (.member t name) do
      let t ← t.visit v
      return .member t name
  | .record fields =>
    v.around (.record fields) do
      let fields ← visitFields v fields
      return .record fields
  | .entity name t =>
    v.around (.entity name t) do
      let t ← t.visit v
      return .entity name t
  | .outerJoined test t =>
    v.around (.outerJoined test t) do
      let test ← test.visit v
      let t ← t.visit v
      return .outerJoined test t
  | .table a name => v.around (.table a name) (pure (.table a name))
  | .column c => v.around (.column c) (pure (.column c))
  | .select s id =>
    v.around (.select s id) do
      let s' ← s.visit v
      return .select s' (id.filter fun _ => s'.beq s)
  | .join ⟨kind, l, r, c⟩ id =>
    v.around (.join ⟨kind, l, r, c⟩ id) do
      let l' ← l.visit v
      let r' ← r.visit v
      let c' ← visitOption v c
      return .join ⟨kind, l', r', c'⟩ (id.filter fun _ => l'.beq l && r'.beq r && beqOption c' c)
  | .scalarSubquery q type =>
    v.around (.scalarSubquery q type) do
      let q ← q.visit v
      return .scalarSubquery q type
  | .existsSubquery q =>
    v.around (.existsSubquery q) do
      let q ← q.visit v
      return .existsSubquery q
  | .inSubquery t q =>
    v.around (.inSubquery t q) do
      let t ← t.visit v
      let q ← q.visit v
      return .inSubquery t q
  | .aggregate kind t distinct type =>
    v.around (.aggregate kind t distinct type) do
      let t ← visitOption v t
      return .aggregate kind t distinct type
  | .rowNumber order =>
    v.around (.rowNumber order) do
      let order ← visitKeys v order
      return .rowNumber order
  | .projection q t id =>
    v.around (.projection q t id) do
      let q' ← q.visit v
      let t' ← t.visit v
      return .projection q' t' (id.filter fun _ => q'.beq q && t'.beq t)

/-- Visits the clauses of a select: the source first, the columns last. -/
def Select.visit {m : Type → Type} [Monad m] (v : Visitor m) : Select Tree → m (Select Tree)
  | ⟨label, columns, source, filter, order, group, distinct, skip, take, reverse, cluster⟩ => do
    let source ← visitOption v source
    v.afterSource source
    let filter ← visitOption v filter
    let order ← visitKeys v order
    let group ← visitList v group
    let cluster ← visitList v cluster
    let skip ← visitOption v skip
    let take ← visitOption v take
    let columns ← visitColumns v columns
    return ⟨label, columns, source, filter, order, group, distinct, skip, take, reverse, cluster⟩

/-- Visits a clause that may be missing. -/
def visitOption {m : Type → Type} [Monad m] (v : Visitor m) : Option Tree → m (Option Tree)
  | none => pure none
  | some t => do
    let t ← t.visit v
    return some t

def visitList {m : Type → Type} [Monad m] (v : Visitor m) : List Tree → m (List Tree)
  | [] => pure []
  | t :: ts => do
    let t ← t.visit v
    let ts ← visitList v ts
    return t :: ts

def visitKeys {m : Type → Type} [Monad m] (v : Visitor m) :
    List (SortKey Tree) → m (List (SortKey Tree))
  | [] => pure []
  | ⟨direction, t⟩ :: ks => do
    let t ← t.visit v
    let ks ← visitKeys v ks
    return ⟨direction, t⟩ :: ks

def visitColumns {m : Type → Type} [Monad m] (v : Visitor m) :
    List (Column Tree) → m (List (Column Tree))
  | [] => pure []
  | ⟨name, t, type⟩ :: cs => do
    let t ← t.visit v
    let cs ← visitColumns v cs
    return ⟨name, t, type⟩ :: cs

def visitFields {m : Type → Type} [Monad m] (v : Visitor m) :
    List (String × Tree) → m (List (String × Tree))
  | [] => pure []
  | (name, t) :: fs => do
    let t ← t.visit v
    let fs ← visitFields v fs
    return (name, t) :: fs

end

/-- Rebuilds the children first, then replaces the node. -/
def Tree.bottomUp {m : Type → Type} [Monad m] (replace : Tree → m Tree) (t : Tree) : m Tree :=
  t.visit ⟨fun _ rebuilt => rebuilt >>= replace, fun _ => pure ()⟩

end HiveQuery
