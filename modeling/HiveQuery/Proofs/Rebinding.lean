import HiveQuery.Proofs.BoundAccesses

/-!
# Bound trees

What binding leaves is a normal form: a visit keeps every access that is left, and what has an identity equals
itself. So binding the members of a bound tree gives the same tree.
-/

namespace HiveQuery
open List Navigation

variable {m : EntityMap} {t u root : Tree} {name : String} {nav : Navigation}

/-- An access that was kept is kept. -/
theorem Tree.BoundFrom.resolve_run (h : t.BoundFrom m (.member root name)) (unchanged : nav.changed = false) :
    (resolve m root name).run.run nav = (.ok (.member root name), nav) := by
  have haccess : (access root name).run.run nav = (.ok (.member root name), nav) := by
    rw [access, run_bind get_run]
    cases hfield : root.member? name with
    | none => rfl
    | some field =>
      dsimp only
      rw [h.accesses root name rfl field hfield, unchanged]
      rfl
  cases root with
  | entity e shape =>
    rw [resolve, (h.members _ name rfl).1 e shape rfl]
    exact haccess
  | _ => exact haccess

theorem Select.visit_bound {s : Select Tree} {i : Option Identity}
    (identity : i.isSome = true → (Tree.select s i).Definite) (renewed : s.renewed = s)
    (clauses : ∀ a ∈ s.clauses, ∀ nav, course.gives (a.visit (visitor m)) nav a.renewed nav) :
    course.gives ((Tree.select s i).visit (visitor m)) nav (.select s i) nav := by
  have hvisit : course.gives (s.visit (visitor m)) nav s.renewed
      { nav with sources := s.renewed.source :: nav.sources } :=
    visit_rebuilt (fun a ha => clauses a (mem_clauses.2 (.inl ha)) _) (afterSource_run _)
      fun a ha => clauses a (mem_clauses.2 (.inr ha)) _
  rw [renewed] at hvisit
  rw [Tree.visit, around_select]
  refine course.bind (course.bind hvisit (course.pure _ _)) ?_
  -- the select is left with the source that it was entered with
  show (Except.ok (Tree.select s ((i.filter fun _ => s.beq s).filter fun _ => beqOption s.source s.source)),
    nav) = (.ok (.select s i), nav)
  cases i with
  | none => rfl
  | some id =>
    have hself : s.beq s = true := by simpa [Tree.beq] using (identity rfl).beq_self
    simp [hself, beqOption_iff.2 (beq_iff.1 hself).2.1.source]

/-- A visit leaves a bound tree as it is. -/
theorem Tree.visit_bound (bound : u.Every (t.BoundFrom m)) (nav : Navigation) :
    course.gives (u.visit (visitor m)) nav u nav := by
  have hrenewed : ∀ {a : Tree}, a.Every (t.BoundFrom m) → a.renewed = a := fun h =>
    Recognizable.renewed_eq_self fun v hv hid => Definite.beq_self ((h v hv).identity hid)
  induction u generalizing nav with
  | step u ih =>
    obtain ⟨hnode, hchildren⟩ := every_iff.1 bound
    have ih : ∀ a ∈ u.children, ∀ nav, course.gives (a.visit (visitor m)) nav a.renewed nav := by
      intro a ha nav
      rw [hrenewed (hchildren a ha)]
      exact ih a ha (hchildren a ha) nav
    -- a node that is neither an access nor a select is rebuilt
    have hother : u.select? = none → (∀ rebuilt, (visitor m).around u rebuilt = rebuilt) →
        course.gives (u.visit (visitor m)) nav u nav := by
      intro select around
      obtain ⟨rebuilt, hvisit, hrebuilt⟩ := visit_rebuilt (visitor m) renewed u
      have hgives := hrebuilt course nav (fun a ha => ih a ha nav) (by simp [select])
      rwa [← renewed_node, hrenewed bound, ← around rebuilt, ← hvisit] at hgives
    cases u with
    | member root name =>
      have hroot := ih root mem_cons_self { nav with changed := false }
      rw [hrenewed (hchildren root mem_cons_self)] at hroot
      have hrun := visit_member_run nav hroot (hnode.resolve_run rfl)
      rwa [Bool.or_false] at hrun
    | select s i =>
      have hselect := hrenewed bound
      rw [renewed_select] at hselect
      exact Select.visit_bound hnode.identity (select.inj hselect).1 ih
    | _ => exact hother rfl fun _ => rfl

/-- Binding the members of a bound tree gives the tree itself. It looks nothing up and draws no alias,
whatever the entities are and from whatever alias on it draws. -/
theorem Tree.bindMembers_settled {lookups : List Alias} {next next' : Alias}
    (bound : (t.bindMembers m).Gives next (u, lookups) next') (again : Alias) :
    (u.bindMembers m).Gives again (u, []) again := by
  obtain ⟨nav, hvisit, -, -⟩ := bindMembers_gives.1 bound
  obtain ⟨-, hbound, -⟩ := bindsFrom (fun _ hw => hw) _ _ _ hvisit nofun
  exact bindMembers_gives.2 ⟨_, visit_bound hbound ⟨again, [], [], false⟩, rfl, rfl⟩

def people : EntityMap :=
  [{ name := "Person", table := "people", columns := [⟨"id", "id", .int64⟩, ⟨"of", "parent_id", .int64⟩]
     relationships := [⟨"parent", "Person", [("of", "id")], true⟩] }]

def grandparents : Tree :=
  let parentId : Tree := .column ⟨.int64, ScalarType.int64.columnType, 0, "parent_id"⟩
  let parent : Tree := .member (.entity "Person" (.record [("of", parentId)])) "parent"
  .select
    { label := 1, columns := [⟨"id", .member (.member parent "parent") "id", ScalarType.int64.columnType⟩]
      source := some (.table 0 "people") }
    (some 7)

/-- The parents are looked up, and access to their parents stays. -/
theorem bindMembers_settled_grandparents :
    ∃ u lookups next', (grandparents.bindMembers people).Gives 2 (u, lookups) next' ∧
      (lookups == [3] && u.subtrees.any Tree.isMember) = true ∧
      (u.bindMembers people).Gives next' (u, []) next' := by
  have hleft : ((grandparents.bindMembers people).run.run 2).1.toOption.any
      (fun p => p.2 == [3] && p.1.subtrees.any Tree.isMember) = true := by decide +kernel
  obtain ⟨⟨u, lookups⟩, next', bound, hleft⟩ := Lowering.exists_gives_of hleft
  exact ⟨u, lookups, next', bound, hleft, Tree.bindMembers_settled bound next'⟩

end HiveQuery
