import HiveQuery.Entity.Query
import HiveQuery.Tree.Visit

/-!
# Navigation along relationships

A member of an entity that is a relationship stands for rows of another entity. Where there is at most
one such row, it is looked up from the source of the enclosing select by an outer apply, and the member
stands for its shape. Otherwise, and outside of any source, the member becomes a query of its own.
-/

namespace HiveQuery
set_option autoImplicit false

/-- What is known while a tree is visited. -/
structure Navigation where
  next : Alias
  /-- The aliases of the selects that were looked up, in the order of their first use. -/
  lookups : List Alias
  /-- The sources of the enclosing selects, the innermost one first. -/
  sources : List (Option Tree)
  changed : Bool

abbrev Navigating := ExceptT LoweringError (StateM Navigation)

namespace Navigation

/-- A lowering step, with the alias counter of the navigation. -/
def lowering {α : Type} (x : Lowering α) : Navigating α := do
  let nav ← get
  let (result, next) := StateT.run (ExceptT.run x) nav.next
  set { nav with next := next }
  match result with
  | .ok a => return a
  | .error e => throw e

/-- Something in the tree was replaced. -/
def touch : Navigating Unit :=
  modify fun nav => { nav with changed := true }

/-- Joins a lookup to the innermost source, if there is one. -/
def joinLookup (nav : Navigation) (q : Select Tree) : Option Navigation :=
  match nav.sources with
  | some source :: outer =>
    some { nav with
      lookups := if nav.lookups.contains q.label then nav.lookups else nav.lookups ++ [q.label]
      sources := some (.join ⟨.outerApply, source, .select q none, none⟩ none) :: outer }
  | _ => none

/-- What a relationship becomes: the shape of a lookup, or a query. -/
def follow (m : EntityMap) (root : Tree) (entity : String) (r : Relationship) : Navigating Tree := do
  let p ← lowering (m.related root entity r)
  touch
  let tested := p.withTest
  let nav ← get
  match (if r.singleton then nav.joinLookup tested.query else none) with
  | some nav =>
    set nav
    return tested.shape
  | none => return p.toTree

def isAccess (name : String) : Tree → Bool
  | .member _ member => member == name
  | _ => false

/-- What access to a plain member becomes. It stays if the field is again access to a member of this
name and nothing in the source was replaced. -/
def access (source : Tree) (name : String) : Navigating Tree := do
  let nav ← get
  match source.member? name with
  | some field =>
    if isAccess name field && !nav.changed then
      return .member source name
    else
      touch
      return field
  | none => return .member source name

/-- What access to a member becomes. -/
def resolve (m : EntityMap) (source : Tree) (name : String) : Navigating Tree :=
  match source with
  | .entity entity _ =>
    match m.relationship? entity name with
    | some r => follow m source entity r
    | none => access source name
  | _ => access source name

/-- Leaves a select: its source is the innermost one, with all lookups that were joined to it. -/
def leave (t : Tree) : Navigating Tree := do
  let nav ← get
  set { nav with sources := nav.sources.tail }
  match t with
  | .select s id =>
    let source := nav.sources.head?.join
    return .select { s with source := source } (id.filter fun _ => beqOption source s.source)
  | u => return u

/-- The source of a select is visited before the select is entered, so a lookup that starts inside of it
is joined further out. -/
def visitor (m : EntityMap) : Visitor Navigating where
  around t rebuilt :=
    match t with
    | .select _ _ => rebuilt >>= leave
    | .member _ _ => do
      let changed := (← get).changed
      modify fun nav => { nav with changed := false }
      let u ← rebuilt
      let v ← match u with
        | .member source name => resolve m source name
        | u => pure u
      modify fun nav => { nav with changed := changed || nav.changed }
      return v
    | _ => rebuilt
  afterSource source := modify fun nav => { nav with sources := source :: nav.sources }

end Navigation

/-- Resolves the members of a tree. Also returns the aliases of the lookups, each of which gives at most
one row for a row of the source that it is joined to. -/
def Tree.bindMembers (m : EntityMap) (t : Tree) : Lowering (Tree × List Alias) :=
  ExceptT.mk fun next =>
    let visited := (t.visit (Navigation.visitor m)).run
    let (result, nav) := StateT.run visited ⟨next, [], [], false⟩
    (result.map fun u => (u, nav.lookups), nav.next)

end HiveQuery
