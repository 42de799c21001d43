import HiveQuery.Proofs.Refinement

/-!
# Scopes without clashes

A tree is hygienic if the sources of each select and each join differ from one another and from all that is around,
so that an alias means one source wherever it is seen.
-/

namespace HiveQuery

variable {t u : Tree}
open List Select

/-! ## What is seen -/

def Select.clauseScopes (scope : List Alias) (s : Select Tree) : List (List Alias × Tree) :=
  s.source.toList.map (scope, ·) ++ s.inner.map (s.sourceAliases ++ scope, ·) ++
    s.cluster.map (s.sourceAliases ++ scope, ·) ++ s.bounds.map (scope, ·)

/-- The children of a tree with the aliases that they see. -/
def Tree.childScopes (scope : List Alias) : Tree → List (List Alias × Tree)
  | .select s _ => s.clauseScopes scope
  | .join ⟨kind, l, r, c⟩ _ =>
    (scope, l) :: (if kind.isApply then l.sources ++ scope else scope, r) ::
      c.toList.map (l.sources ++ r.sources ++ scope, ·)
  | t => t.children.map (scope, ·)

/-- The aliases that a tree brings into the scope of some of its children. -/
def Tree.brings : Tree → List Alias
  | .select s _ => s.sourceAliases
  | .join ⟨_, l, r, _⟩ _ => l.sources ++ r.sources
  | _ => []

/-- Wherever aliases come into a scope they differ from each other and from what is in scope. -/
inductive Tree.Hygienic : List Alias → Tree → Prop
  | node {scope : List Alias} {t : Tree} (nodup : t.brings.Nodup)
      (apart : ∀ a ∈ t.brings, a ∉ scope)
      (children : ∀ p ∈ t.childScopes scope, Tree.Hygienic p.1 p.2) : Tree.Hygienic scope t

namespace Tree.Hygienic

variable {scope : List Alias} {t : Tree}

theorem nodup (h : t.Hygienic scope) : t.brings.Nodup := by
  cases h with
  | node nodup => exact nodup

theorem apart (h : t.Hygienic scope) : ∀ a ∈ t.brings, a ∉ scope := by
  cases h with
  | node _ apart => exact apart

theorem child (h : t.Hygienic scope) {X : List Alias} (hu : (X, u) ∈ t.childScopes scope) : u.Hygienic X := by
  cases h with
  | node _ _ children => exact children _ hu

variable {s : Select Tree} {i : Option Identity} {u : Tree}

theorem scalar (h : t.Hygienic scope) (hs : t.isSelect = false) (hj : t.isJoin = false)
    (hu : u ∈ t.children) : u.Hygienic scope := by
  refine h.child ?_
  cases t with
  | select => simp [isSelect] at hs
  | join => simp [isJoin] at hj
  | _ => exact mem_map_of_mem hu

theorem source (h : (select s i).Hygienic scope) (hu : s.source = some u) : u.Hygienic scope :=
  h.child (by simp [childScopes, clauseScopes, hu])

theorem inner (h : (select s i).Hygienic scope) (hu : u ∈ s.inner) :
    u.Hygienic (s.sourceAliases ++ scope) :=
  h.child (by simp [childScopes, clauseScopes, hu])

theorem bounds (h : (select s i).Hygienic scope) (hu : u ∈ s.bounds) : u.Hygienic scope :=
  h.child (by simp [childScopes, clauseScopes, hu])

variable {kind : JoinKind} {l r : Tree} {c : Option Tree}

section

variable (h : (Tree.join ⟨kind, l, r, c⟩ i).Hygienic scope)
include h

theorem left : l.Hygienic scope :=
  h.child (by simp [childScopes])

theorem right :
    r.Hygienic (if kind.isApply then l.sources ++ scope else scope) :=
  h.child (by simp [childScopes])

theorem condition (hu : c = some u) :
    u.Hygienic (l.sources ++ r.sources ++ scope) :=
  h.child (by simp [childScopes, hu])

end

end Tree.Hygienic

/-! ## Aliases that are declared once -/

theorem Select.mem_sourceAliases {s : Select Tree} {a : Alias} :
    a ∈ s.sourceAliases ↔ ∃ t, s.source = some t ∧ a ∈ t.sources := by
  unfold sourceAliases
  cases s.source <;> simp

theorem Tree.sources_sublist (t : Tree) : t.sources.Sublist t.declared := by
  induction t with
  | step t ih =>
    cases t with
    | table a name => exact List.Sublist.refl _
    | select s id =>
      rw [declared_eq]
      exact sublist_append_left _ _
    | join j id =>
      obtain ⟨kind, l, r, c⟩ := j
      have hl := ih l (by simp)
      have hr := ih r (by simp)
      rw [declared_eq]
      simp only [label?, children, Option.toList_none, nil_append, flatMap_cons, ← append_assoc]
      exact (hl.append hr).trans (sublist_append_left _ _)
    | _ => exact nil_sublist _

theorem Tree.declared_of_child (h : u ∈ t.children) : u.declared.Sublist t.declared := by
  rw [declared_eq t, flatMap_def]
  refine (sublist_flatten_of_mem ?_).trans (sublist_append_right _ _)
  exact mem_map_of_mem h

theorem Select.clauses_perm (s : Select Tree) :
    s.clauses.Perm (s.source.toList ++ (s.inner ++ s.cluster ++ s.bounds)) := by
  unfold clauses inner bounds
  simp only [append_assoc]
  refine .append_left _ (.append_left _ (.append_left _ (.append_left _ ?_)))
  have h : (s.cluster ++ (s.skip.toList ++ s.take.toList) ++ s.columns.map Column.value).Perm
      (s.columns.map Column.value ++ (s.cluster ++ (s.skip.toList ++ s.take.toList))) :=
    perm_append_comm
  simpa only [append_assoc] using h

theorem Select.mem_clauses_of_inner (s : Select Tree) (h : u ∈ s.inner) : u ∈ s.clauses :=
  s.clauses_perm.mem_iff.2 (by simp [h])

theorem Select.mem_clauses_of_bounds (s : Select Tree) (h : u ∈ s.bounds) : u ∈ s.clauses :=
  s.clauses_perm.mem_iff.2 (by simp [h])

theorem Tree.brings_sublist (t : Tree) : t.brings.Sublist t.declared := by
  cases t with
  | select s id =>
    rw [brings, sourceAliases]
    cases hs : s.source with
    | none => exact nil_sublist _
    | some u =>
      refine u.sources_sublist.trans (declared_of_child ?_)
      simp [clauses, hs]
  | join j id => exact sources_sublist (.join j id)
  | _ => exact nil_sublist _

theorem Tree.childScopes_spec {scope X : List Alias} (nodup : t.declared.Nodup)
    (h : (X, u) ∈ t.childScopes scope) : u ∈ t.children ∧ ∀ a ∈ X, a ∈ scope ∨ a ∉ u.declared := by
  have hnodup := nodup.sublist t.children_declared_sublist
  cases t with
  | select s id =>
    have hperm := s.clauses_perm
    have hsplit := (hperm.flatMap_right declared).nodup_iff.1 hnodup
    rw [flatMap_append, nodup_append] at hsplit
    have hrest : ∀ v ∈ s.inner ++ s.cluster ++ s.bounds, v ∈ s.clauses ∧
        ∀ a ∈ s.sourceAliases, a ∉ v.declared := by
      intro v hv
      refine ⟨hperm.mem_iff.2 (mem_append_right _ hv), fun a ha hav => ?_⟩
      rw [sourceAliases] at ha
      cases hs : s.source with
      | none => simp [hs] at ha
      | some w =>
        rw [hs] at ha
        refine hsplit.2.2 a ?_ a (mem_flatMap.2 ⟨v, hv, hav⟩) rfl
        exact mem_flatMap.2 ⟨w, by simp [hs], w.sources_sublist.subset ha⟩
    simp only [childScopes, clauseScopes, mem_append, mem_map, Prod.mk.injEq] at h
    rcases h with ((⟨v, hv, rfl, rfl⟩ | ⟨v, hv, rfl, rfl⟩) | ⟨v, hv, rfl, rfl⟩) | ⟨v, hv, rfl, rfl⟩
    · exact ⟨hperm.mem_iff.2 (mem_append_left _ hv), fun a ha => .inl ha⟩
    · have h := hrest v (by simp [hv])
      exact ⟨h.1, fun a ha => (mem_append.1 ha).symm.imp_right (h.2 a)⟩
    · have h := hrest v (by simp [hv])
      exact ⟨h.1, fun a ha => (mem_append.1 ha).symm.imp_right (h.2 a)⟩
    · exact ⟨(hrest v (by simp [hv])).1, fun a ha => .inl ha⟩
  | join j id =>
    obtain ⟨kind, l, r, c⟩ := j
    simp only [children, flatMap_cons, nodup_append] at hnodup
    obtain ⟨-, ⟨-, -, hright⟩, hleft⟩ := hnodup
    simp only [childScopes, mem_cons, Prod.mk.injEq, mem_map, Option.mem_toList] at h
    rcases h with ⟨rfl, rfl⟩ | ⟨rfl, rfl⟩ | ⟨v, hv, rfl, rfl⟩
    · exact ⟨by simp, fun a ha => .inl ha⟩
    · refine ⟨by simp, fun a ha => ?_⟩
      split at ha
      · refine (mem_append.1 ha).symm.imp_right fun hl hu => ?_
        exact hleft a (l.sources_sublist.subset hl) a (mem_append_left _ hu) rfl
      · exact .inl ha
    · have hc : ∀ a ∈ v.declared, a ∈ c.toList.flatMap declared := fun a ha =>
        mem_flatMap.2 ⟨v, by simpa using hv, ha⟩
      refine ⟨by simp [hv], fun a ha => ?_⟩
      refine (mem_append.1 ha).symm.imp_right fun hlr hu => ?_
      rcases mem_append.1 hlr with hl | hr
      · exact hleft a (l.sources_sublist.subset hl) a (mem_append_right _ (hc a hu)) rfl
      · exact hright a (r.sources_sublist.subset hr) a (hc a hu) rfl
  | _ =>
    simp only [childScopes, mem_map, Prod.mk.injEq] at h
    obtain ⟨v, hv, rfl, rfl⟩ := h
    exact ⟨hv, fun a ha => .inl ha⟩

theorem Tree.mem_of_childScopes {scope X : List Alias} (h : (X, u) ∈ t.childScopes scope) :
    ∀ a ∈ X, a ∈ t.brings ∨ a ∈ scope := by
  cases t with
  | select s i =>
    simp only [childScopes, clauseScopes, mem_append, mem_map, Prod.mk.injEq] at h
    rcases h with ((⟨_, _, rfl, _⟩ | ⟨_, _, rfl, _⟩) | ⟨_, _, rfl, _⟩) | ⟨_, _, rfl, _⟩
    · exact fun a ha => .inr ha
    · exact fun a ha => mem_append.1 ha
    · exact fun a ha => mem_append.1 ha
    · exact fun a ha => .inr ha
  | join j i =>
    obtain ⟨kind, l, r, c⟩ := j
    simp only [childScopes, mem_cons, Prod.mk.injEq, mem_map, Option.mem_toList] at h
    rcases h with ⟨rfl, _⟩ | ⟨rfl, _⟩ | ⟨_, _, rfl, _⟩
    · exact fun a ha => .inr ha
    · intro a ha
      split at ha
      · exact (mem_append.1 ha).imp_left (mem_append_left _)
      · exact .inr ha
    · exact fun a ha => mem_append.1 ha
  | _ =>
    simp only [childScopes, mem_map, Prod.mk.injEq] at h
    obtain ⟨_, _, rfl, _⟩ := h
    exact fun a ha => .inr ha

/-- A tree that declares each alias once is hygienic. -/
theorem Tree.hygienic_of_nodup {scope : List Alias} (nodup : t.declared.Nodup)
    (apart : ∀ a ∈ t.declared, a ∉ scope) : t.Hygienic scope := by
  induction t generalizing scope with
  | step t ih =>
    refine .node (nodup.sublist t.brings_sublist)
      (fun a ha => apart a (t.brings_sublist.subset ha)) fun p hp => ?_
    obtain ⟨hchild, hscope⟩ := childScopes_spec nodup hp
    have hsub := declared_of_child hchild
    refine ih p.2 hchild (nodup.sublist hsub) fun a ha hX => ?_
    rcases hscope a hX with h | h
    · exact apart a (hsub.subset ha) h
    · exact h ha

end HiveQuery
