import HiveQuery.Proofs.NavigationSteps
import HiveQuery.Proofs.RelabeledPages

/-!
# Members under other aliases

Entities say nothing about aliases, so that members of a relabeled tree lead along the same relationships.
-/

namespace HiveQuery
open List Select

variable {f : Alias → Alias} {first : Alias}

/-! ## Entities -/

theorem Tree.member?_relabel (name : String) (t : Tree) :
    (t.relabel f).member? name = (t.member? name).map (relabel f) := by
  induction t with
  | step t ih =>
    cases t with
    | entity e t => exact ih t mem_cons_self
    | record fields =>
      rw [relabel_record]
      exact lookup_map Function.injective_id (relabel f) fields name
    | outerJoined test t =>
      have ht := ih t (.tail _ (.head _))
      have htest (u : Tree) : underTest (test.relabel f) (u.relabel f) = (underTest test u).relabel f := by
        cases u <;> rfl
      simp only [relabel, member?, ht, Option.map_map, Function.comp_def, htest]
    | _ => rfl

def Projection.relabel (f : Alias → Alias) (p : Projection) : Projection :=
  ⟨p.query.relabel f, p.shape.relabel f⟩

theorem Entity.query_relabel (e : Entity) (table query : Alias) (filter : Option Tree) :
    e.query (f table) (f query) (filter.map (Tree.relabel f)) = (e.query table query filter).relabel f := by
  rw [Projection.relabel, Entity.query, Entity.query, relabel_eq]
  simp only [Tree.relabel, relabelFields_eq, map_map, Option.map_some]
  rfl

theorem keyCondition_relabel (root : Tree) (entity : String) (target : Entity) (table : Alias)
    (key : String × String) : EndAlike (LoweringError.Relabels f) (Tree.Relabels f)
      (keyCondition root entity target table key)
      (keyCondition (root.relabel f) entity target (f table) key) := by
  have hown : (root.relabel f).memberOrAccess key.1 = (root.memberOrAccess key.1).relabel f := by
    rw [Tree.memberOrAccess, Tree.memberOrAccess, Tree.member?_relabel]
    cases root.member? key.1 <;> rfl
  rw [keyCondition, keyCondition, hown]
  cases root.memberOrAccess key.1 with
  | member => exact .error rfl
  | _ =>
    cases target.column? key.2 with
    | none => exact .error rfl
    | some c => exact .ok rfl

theorem keyConditions_relabel (root : Tree) (entity : String) (target : Entity) (table : Alias)
    (keys : List (String × String)) :
    EndAlike (LoweringError.Relabels f) (fun ts us => ts.map (Tree.relabel f) = us)
      (keyConditions root entity target table keys)
      (keyConditions (root.relabel f) entity target (f table) keys) := by
  unfold keyConditions
  induction keys with
  | nil => exact .ok rfl
  | cons key keys ih =>
    rw [mapM_cons, mapM_cons]
    exact (Coupling.fallible _).bind (keyCondition_relabel root entity target table key) fun _ _ h =>
      (Coupling.fallible _).bind ih fun _ _ h' => .ok (congrArg₂ cons h h')

theorem allOf_relabel (ts : List Tree) :
    allOf (ts.map (Tree.relabel f)) = (allOf ts).map (Tree.relabel f) := by
  cases ts with
  | nil => rfl
  | cons t ts =>
    simp only [map_cons, allOf, Option.map_some, foldl_map]
    congr 1
    induction ts generalizing t with
    | nil => rfl
    | cons u ts ih => exact ih (.binary .and t u)

/-- A relationship leads to the relabeled rows. -/
theorem EntityMap.related_relabel (hf : Renumbers f first) (m : EntityMap) (root : Tree) (entity : String)
    (r : Relationship) :
    (renumbered f first).rel (fun p q => p.relabel f = q) (m.related root entity r)
      (m.related (root.relabel f) entity r) := by
  refine .bind (R := Eq) (renumbered_except ?_) ?_
  · unfold known
    cases m.entity? r.target with
    | none => exact .error rfl
    | some e => exact .ok rfl
  rintro target _ rfl
  refine .bind (renumbered_state hf.fresh) ?_
  rintro table _ rfl
  refine .bind (renumbered_except (keyConditions_relabel root entity target table r.keys)) ?_
  rintro conditions _ rfl
  refine .bind (renumbered_state hf.fresh) ?_
  rintro query _ rfl
  rw [allOf_relabel, Entity.query_relabel]
  exact .pure rfl

theorem Projection.isTest_relabel (c : Column Tree) : isTest (c.relabel f) = isTest c := by
  obtain ⟨name, t, type⟩ := c
  cases t <;> rfl

theorem Projection.withTest_relabel (p : Projection) : (p.relabel f).withTest = p.withTest.relabel f := by
  have hfind : (p.query.relabel f).columns.find? isTest =
      (p.query.columns.find? isTest).map (Column.relabel f) := by
    rw [columns_relabel, find?_map]
    congr 2
    funext c
    exact isTest_relabel c
  have hadd (name : String) (type : ColumnType) :
      (p.query.relabel f).addColumn ⟨name, .constant testMark, type⟩ =
        (p.query.addColumn ⟨name, .constant testMark, type⟩).relabel f := by
    rw [← addColumn_relabel]
    rfl
  simp only [withTest, relabel, hfind, headers_relabel, hadd]
  cases p.query.columns.find? isTest with
  | none => simp only [Option.map_none, label_relabel, Tree.relabel, ColumnRef.rename]
  | some c => simp only [Option.map_some, label_relabel, Tree.relabel, ColumnRef.rename, Column.relabel]

/-! ## Navigation -/

namespace Navigation

def relabel (f : Alias → Alias) (nav : Navigation) : Navigation where
  next := f nav.next
  lookups := nav.lookups.map f
  sources := nav.sources.map (Option.map (Tree.relabel f))
  changed := nav.changed

def InStep (f : Alias → Alias) (first : Alias) (nav nav' : Navigation) : Prop :=
  first ≤ nav.next ∧ nav.relabel f = nav'

end Navigation

def renavigated (f : Alias → Alias) (first : Alias) : Coupling Navigating :=
  .failing (LoweringError.Relabels f) (Navigation.InStep f first)

namespace Navigation

theorem lowering_relabel {α β : Type} {R : α → β → Prop} {x : Lowering α} {y : Lowering β}
    (h : (renumbered f first).rel R x y) : (renavigated f first).rel R (lowering x) (lowering y) := by
  rintro nav _ ⟨hnav, rfl⟩
  obtain ⟨hresult, hnext, hnext'⟩ := h nav.next (f nav.next) ⟨hnav, rfl⟩
  rw [lowering_run, lowering_run]
  exact ⟨hresult, hnext, congrArg (fun n => { nav.relabel f with next := n }) hnext'⟩

theorem joinLookup_relabel (hf : Function.Injective f) (nav : Navigation) (q : Select Tree) :
    (nav.relabel f).joinLookup (q.relabel f) = (nav.joinLookup q).map (relabel f) := by
  obtain ⟨next, lookups, sources, changed⟩ := nav
  rcases sources with _ | ⟨_ | source, outer⟩
  · rfl
  · rfl
  · have hcontains : (lookups.map f).contains (f q.label) = lookups.contains q.label :=
      contains_map hf lookups q.label
    simp only [relabel, joinLookup, map_cons, Option.map_some, label_relabel, hcontains]
    congr 2
    split
    · rfl
    · rw [map_append, map_singleton]

theorem joinLookup_next {nav nav' : Navigation} {q : Select Tree} (h : nav.joinLookup q = some nav') :
    nav'.next = nav.next := by
  unfold joinLookup at h
  split at h
  · exact Option.some.inj h ▸ rfl
  · cases h

theorem touch_relabel : (renavigated f first).rel (fun _ _ => True) touch touch := by
  refine Coupling.failing_modify ?_
  rintro nav _ ⟨hnav, rfl⟩
  exact ⟨hnav, rfl⟩

theorem follow_relabel (hf : Renumbers f first) (m : EntityMap) (root : Tree) (entity : String)
    (r : Relationship) :
    (renavigated f first).rel (Tree.Relabels f) (follow m root entity r)
      (follow m (root.relabel f) entity r) := by
  refine .bind (lowering_relabel (m.related_relabel hf root entity r)) ?_
  rintro p _ rfl
  refine .bind touch_relabel fun _ _ _ => ?_
  refine .bind Coupling.failing_get ?_
  rintro nav _ ⟨hnav, rfl⟩
  have htested : (p.relabel f).withTest = p.withTest.relabel f := p.withTest_relabel
  have hjoin : (if r.singleton then (nav.relabel f).joinLookup (p.relabel f).withTest.query else none) =
      (if r.singleton then nav.joinLookup p.withTest.query else none).map (relabel f) := by
    rw [htested, Projection.relabel, joinLookup_relabel hf.injective]
    split <;> rfl
  rw [hjoin, htested]
  cases hnav' : if r.singleton then nav.joinLookup p.withTest.query else none with
  | none => exact .pure rfl
  | some nav' =>
    have hnext : nav'.next = nav.next := by
      split at hnav'
      · exact joinLookup_next hnav'
      · cases hnav'
    exact .bind (Coupling.failing_set ⟨hnext ▸ hnav, rfl⟩) fun _ _ _ =>
      .pure rfl

theorem isAccess_relabel (name : String) (t : Tree) : isAccess name (t.relabel f) = isAccess name t := by
  cases t <;> rfl

theorem access_relabel (source : Tree) (name : String) :
    (renavigated f first).rel (Tree.Relabels f) (access source name) (access (source.relabel f) name) := by
  refine .bind Coupling.failing_get ?_
  rintro nav _ ⟨hnav, rfl⟩
  rw [Tree.member?_relabel]
  cases source.member? name with
  | none => exact .pure rfl
  | some field =>
    have hchanged : (nav.relabel f).changed = nav.changed := rfl
    simp only [Option.map_some, isAccess_relabel, hchanged]
    split
    · exact .pure rfl
    · exact .bind touch_relabel fun _ _ _ => .pure rfl

theorem resolve_relabel (hf : Renumbers f first) (m : EntityMap) (source : Tree) (name : String) :
    (renavigated f first).rel (Tree.Relabels f) (resolve m source name)
      (resolve m (source.relabel f) name) := by
  cases source with
  | entity entity t =>
    simp only [Tree.relabel, resolve]
    cases m.relationship? entity name with
    | none => exact access_relabel (.entity entity t) name
    | some r => exact follow_relabel hf m (.entity entity t) entity r
  | join j i =>
    rw [Tree.relabel_join]
    exact Tree.relabel_join j i ▸ access_relabel (.join j i) name
  | _ => exact access_relabel _ name

theorem leave_relabel (hf : Function.Injective f) (t : Tree) :
    (renavigated f first).rel (Tree.Relabels f) (leave t) (leave (t.relabel f)) := by
  refine .bind Coupling.failing_get ?_
  rintro nav _ ⟨hnav, rfl⟩
  refine .bind (Coupling.failing_set ⟨hnav, ?_⟩) fun _ _ _ => ?_
  · simp only [relabel, map_tail]
  cases t with
  | select s i =>
    have hhead : (nav.relabel f).sources.head?.join = nav.sources.head?.join.map (Tree.relabel f) := by
      rw [relabel, head?_map]
      cases nav.sources.head? <;> rfl
    refine .pure ?_
    simp only [Tree.Relabels, Tree.relabel, hhead, relabel_eq, beqOption_relabel hf]
  | _ => exact .pure rfl

theorem visitor_coupled (hf : Renumbers f first) (m : EntityMap) :
    (visitor m).Coupled (renavigated f first) f (visitor m) := by
  refine ⟨fun t x y hxy => ?_, fun o => ?_⟩
  · cases t with
    | select s i => exact .bind hxy fun u _ hu => hu ▸ leave_relabel hf.injective u
    | member t name =>
      refine .bind Coupling.failing_get ?_
      rintro nav _ ⟨hnav, rfl⟩
      refine .bind (Coupling.failing_modify ?_) fun _ _ _ => ?_
      · rintro nav _ ⟨hnav, rfl⟩
        exact ⟨hnav, rfl⟩
      refine .bind hxy ?_
      rintro u _ rfl
      have hfinish (v : Tree) : (renavigated f first).rel (Tree.Relabels f)
          (do
            modify fun nav' => { nav' with changed := nav.changed || nav'.changed }
            return v)
          (do
            modify fun nav' => { nav' with changed := (nav.relabel f).changed || nav'.changed }
            return v.relabel f) := by
        refine .bind (Coupling.failing_modify ?_) fun _ _ _ => .pure rfl
        rintro nav' _ ⟨hnav', rfl⟩
        exact ⟨hnav', rfl⟩
      cases u with
      | member source member =>
        exact .bind (resolve_relabel hf m source member) fun v _ hv => hv ▸ hfinish v
      | _ => exact hfinish _
    | _ => exact hxy
  · refine Coupling.failing_modify ?_
    rintro nav _ ⟨hnav, rfl⟩
    exact ⟨hnav, rfl⟩

end Navigation

/-- The members of a relabeled tree are bound to relabeled lookups. -/
theorem Tree.bindMembers_relabel (hf : Renumbers f first) (m : EntityMap) (t : Tree) :
    (renumbered f first).rel (fun p q => (p.1.relabel f, p.2.map f) = q) (t.bindMembers m)
      ((t.relabel f).bindMembers m) := by
  rintro next _ ⟨hnext, rfl⟩
  have hvisit : (renavigated f first).rel (Relabels f) (t.visit (Navigation.visitor m))
      ((t.relabel f).visit (Navigation.visitor m)) :=
    visit_relabel hf.injective (Navigation.visitor_coupled hf m) t
  have hrun (t : Tree) (next : Alias) : (t.bindMembers m).run.run next =
      (fun p : Except LoweringError Tree × Navigation => (p.1.map fun u => (u, p.2.lookups), p.2.next))
        ((t.visit (Navigation.visitor m)).run.run ⟨next, [], [], false⟩) := rfl
  have hvisited := hvisit ⟨next, [], [], false⟩ ⟨f next, [], [], false⟩ ⟨hnext, rfl⟩
  rw [hrun, hrun]
  revert hvisited
  generalize (t.visit (Navigation.visitor m)).run.run ⟨next, [], [], false⟩ = p,
    ((t.relabel f).visit (Navigation.visitor m)).run.run ⟨f next, [], [], false⟩ = q
  obtain ⟨r, nav⟩ := p
  obtain ⟨r', nav'⟩ := q
  rintro ⟨hresult, hnav, hrelabel⟩
  have hrelabel : nav.relabel f = nav' := hrelabel
  subst hrelabel
  refine ⟨?_, hnav, rfl⟩
  cases hresult with
  | ok h => exact .ok (congrArg (·, _) h)
  | error h => exact .error h

end HiveQuery
