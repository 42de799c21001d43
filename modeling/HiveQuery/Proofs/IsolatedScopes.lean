import HiveQuery.Proofs.IsolatedTrees
import HiveQuery.Proofs.Needs

/-!
# What isolated trees need

A visited tree needs what the columns that the tree needs lead to. Where a child sees sources of its tree, their
columns lead to columns of the visited sources.
-/

namespace HiveQuery
open List HiveQuery.Tree

variable {first : Alias} {st m st' : Isolation} {t u a b : Tree} {d : ColumnRef}

def Tree.JoinRead (t : Tree) (st : Isolation) : Prop :=
  t.isJoin = true → ∀ c, .column c ∈ t.subtrees → c ∈ st.columns

/-- A visited tree needs what the needed columns lead to. -/
def Tree.Relocates (first : Alias) (t : Tree) : Prop :=
  ∀ st u st', t.IsolatesTo st u st' → st.Untouched first t.declared → t.JoinRead st →
    ∀ d, u.Needs d → ∃ c, t.Needs c ∧ Leads st.replaced c d

theorem Tree.JoinRead.of_not_join (h : t.isJoin = false) : t.JoinRead st := fun hjoin => by
  rw [h] at hjoin
  cases hjoin

theorem Tree.IsolatesTo.exposes (h : t.IsolatesTo st u st') (placed : t.JoinsInSources)
    (hst : st.Untouched first t.declared) (hcolumns : t.ReadsIn st.columns) :
    ∃ ν, t.Exposes st.columns u ν st' := by
  have hisolates : t.Isolates ⟨[], []⟩ ⟨false, false, false, true, false⟩ first :=
    isolates_refines rfl rfl placed
  obtain ⟨ν, hν, -⟩ := (hisolates _ _ _ _ h hst (.nothing first st t)).source hcolumns
  exact ⟨ν, hν⟩

/-- What a child needs beyond the sources it sees is needed by its tree. The child is visited after the state in
which the columns of these sources lead to sources that the visited child sees. -/
theorem Tree.Relocates.of_child {bound bound' own own' : List Alias} {pairs : List (ColumnRef × ColumnRef)}
    (ih : a.Relocates first) (ha : (bound, a) ∈ t.bindings) (settled : t.Settled first) (hst : st.Sound first)
    (hpairs : st.replaced = pairs) (hm : st.Extends own m)
    (visited : a.VisitedFrom first m own' b) (hown : ∀ x ∈ own ++ own', x ∈ t.declared)
    (hread : ∀ m', m.Extends own' m' → a.JoinRead m')
    (hbound : ∀ c, .column c ∈ a.subtrees → c.label ∈ bound →
      (c.label ∉ own' ∧ c.label < m.next) ∧ ∃ e, Leads m.replaced c e ∧ e.label ∈ bound')
    (hd : d.label ∉ bound') (h : b.Needs d) : ∃ c, t.Needs c ∧ Leads pairs c d := by
  subst hpairs
  obtain ⟨m', _, hm', hunread, hvisit⟩ := visited
  obtain ⟨c, hc, hcd⟩ := ih _ _ _ hvisit hunread (hread m' hm') d h
  have hfree : c.label ∉ bound := fun hmem => by
    obtain ⟨⟨hapart, hlt⟩, e, hce, he⟩ := hbound c hc.mem_subtrees hmem
    have hce := hm'.leads (hm.sound hst) (fun x hx => settled.below x (hown x (mem_append_right _ hx)))
      hapart hlt hce
    exact hd (hcd.unique hce ▸ he)
  have hneeds : t.Needs c := .child ha hfree hc
  have hbefore := hst.leads c
  have hafter := (hm.trans hm').leads hst (fun x hx => settled.below x (hown x hx))
    (fun hmem => settled.tidy c hneeds (hown _ hmem))
    ((settled.needed c hneeds).trans_le hst.start) hbefore
  exact ⟨c, hneeds, hcd.unique hafter ▸ hbefore⟩

/-! ## Joins -/

theorem JoinStep.relocates (h : JoinStep t st u st') (ih : ∀ v ∈ t.children, v.Relocates first)
    (placed : t.JoinsInSources) (hst : st.Untouched first t.declared) (settled : t.Settled first)
    (hcolumns : t.ReadsIn st.columns) (hd : u.Needs d) :
    ∃ c, t.Needs c ∧ Leads st.replaced c d := by
  cases h with
  | @mk kind l r l' r' c c' i j _ m form children =>
  have hl : l ∈ (join ⟨kind, l, r, c⟩ i).children := mem_cons_self
  have hr : r ∈ (join ⟨kind, l, r, c⟩ i).children := .tail _ (.head _)
  have hdeclared := declared_join kind l r c i
  have hst₀ : Isolation.Untouched first { st with parent := some kind }
      (l.declared ++ (r.declared ++ c.toList.flatMap declared)) := hdeclared ▸ hst.of_eq rfl rfl
  obtain ⟨m₁, m₂, visits⟩ := JoinVisits.of_threaded children (fun v _ => v.keeps first) hst₀
  have hleft := visits.keepsLeft
  have hcolumns₁ : r.ReadsIn m₁.columns := fun x hx => hleft.state.columns x (hcolumns.child hr x hx)
  obtain ⟨ν, hexposes⟩ := visits.left.exposes (placed.child hl) visits.untouchedLeft (hcolumns.child hl)
  obtain ⟨ν', hexposes'⟩ := visits.right.exposes (placed.child hr) visits.untouchedRight hcolumns₁
  obtain ⟨p, hp, hfree, hd⟩ := hd.cases_node rfl
  simp only [bindings, mem_cons, mem_map] at hp
  rcases hp with rfl | rfl | ⟨b, hb, rfl⟩
  · obtain ⟨x, hx, hxd⟩ := ih l hl _ _ _ visits.left visits.untouchedLeft (fun _ => hcolumns.child hl) d hd
    exact ⟨x, .child mem_cons_self not_mem_nil hx, hxd⟩
  · refine (ih r hr).of_child (.tail _ (.head _)) settled hst₀.sound rfl hleft.extends_declared
      ⟨m₁, _, .refl m₁, visits.untouchedRight, visits.right⟩ (fun x hx => ?_) (fun m' hm' _ x hx => ?_)
      (fun x hx hmem => ?_) hfree hd
    · rw [append_nil] at hx
      exact (declared_of_child hl).subset hx
    · exact hm'.columns x (hcolumns₁ x hx)
    · cases hkind : kind.isApply with
      | false =>
        rw [hkind] at hmem
        cases hmem
      | true =>
        rw [hkind] at hmem
        obtain ⟨e, hxe, he, -⟩ := hexposes x (hcolumns.child hr x hx) hmem
        have hlt := visits.untouchedLeft.lt_next _ (l.sources_sublist.subset hmem)
        exact ⟨⟨not_mem_nil, hlt.trans_le hleft.state.next⟩, e, hxe, he⟩
  · obtain ⟨a, ha, visited⟩ := forall₂_mem_right (visits.condition.visited visits.untouchedCondition) hb
    have hchild : a ∈ (join ⟨kind, l, r, c⟩ i).children := .tail _ (.tail _ ha)
    refine (ih a hchild).of_child (.tail _ (.tail _ (mem_map_of_mem ha))) settled
      hst₀.sound rfl visits.extendsSides visited (fun x hx => hdeclared ▸ append_assoc _ _ _ ▸ hx)
      (fun _ _ => .of_not_join (placed.operand ha)) (fun x hx hmem => ?_) hfree hd
    obtain ⟨e, hxe, he, -⟩ := visits.exposes kind i j hexposes hexposes' (.refl _) (by simp) x
      (hcolumns.child hchild x hx) hmem
    exact ⟨⟨visits.apart_condition _ hmem, visits.lt_next _ hmem⟩, e, hxe, he⟩

theorem Isolation.needs_of_wrapper (h : (select (m.wrapper u) none).Needs d) : u.Needs d := by
  rcases Select.needs_iff.1 h with ⟨v, hv, hd⟩ | ⟨hfree, v, hv, hd⟩
  · cases hv
    exact hd
  · -- a column that is passed on comes from the join
    have hmem : v ∈ (m.wrapper u).columns.map Column.value := by
      simpa [Select.others, Select.clauses, wrapper] using hv
    obtain ⟨x, hx, rfl⟩ := mem_map.1 hmem
    obtain ⟨p, hp, rfl⟩ := mem_map.1 hx
    rw [needs_column.1 hd] at hfree
    exact absurd (mem_of_named hp).2 hfree

/-! ## Whole trees -/

theorem Select.relocates {s s' : Select Tree} {i j : Option Identity}
    (same : s.SameHead s')
    (clauses : Threaded IsolatesTo s.clauses
      { st with columns := (select s i).readColumns, parent := none } s'.clauses m)
    (ih : ∀ t ∈ s.clauses, t.Relocates first) (placed : (select s i).JoinsInSources)
    (hst : st.Untouched first (select s i).declared) (settled : (select s i).Settled first)
    (hd : (select s' j).Needs d) : ∃ c, (select s i).Needs c ∧ Leads st.replaced c d := by
  have hclauses := s.declared_eq i
  have hdeclares : ∀ x ∈ s.source.toList.flatMap declared ++ s.others.flatMap declared,
      x ∈ (select s i).declared := fun x hx => by
    rw [hclauses]
    exact .tail _ hx
  have hst₀ : Isolation.Untouched first { st with columns := (select s i).readColumns, parent := none }
      (s.source.toList.flatMap declared ++ s.others.flatMap declared) :=
    (hst.sublist (hclauses ▸ sublist_cons_self _ _)).of_eq rfl rfl
  have hread : (select s i).ReadsIn (select s i).readColumns := fun _ => mem_readColumns
  have hsource : ∀ a ∈ s.source, a ∈ s.clauses := fun a ha => mem_clauses.2 (.inl ha)
  obtain ⟨m₁, source, others⟩ := clauses.source same
  have hst₁ := hst₀.sublist (sublist_append_left _ _)
  have hstate := (source.isolated (fun v _ => v.keeps first) hst₁).1
  have hapart := (nodup_append.1 hst₀.nodup).2.2
  obtain ⟨p, hp, hfree, hd⟩ := hd.cases_node rfl
  rcases mem_append.1 hp with hp | hp
  · obtain ⟨b, hb, rfl⟩ := mem_map.1 hp
    obtain ⟨a, ha, visited⟩ := forall₂_mem_right (source.visited hst₁) hb
    have ha' := hsource a (Option.mem_toList.1 ha)
    exact (ih a ha').of_child (mem_append_left _ (mem_map_of_mem ha)) settled hst₀.sound rfl (.refl _) visited
      (fun x hx => hdeclares x (mem_append_left _ hx)) (fun m hm _ x hx => hm.columns x (hread.child ha' x hx))
      (fun _ _ hmem => absurd hmem not_mem_nil) hfree hd
  · obtain ⟨b, hb, rfl⟩ := mem_map.1 hp
    obtain ⟨a, ha, visited⟩ := forall₂_mem_right (others.visited (hst₀.after hstate)) hb
    have ha' : a ∈ s.clauses := mem_clauses.2 (.inr ha)
    refine (ih a ha').of_child (mem_append_right _ (mem_map_of_mem ha)) settled hst₀.sound rfl hstate visited
      hdeclares (fun _ _ => .of_not_join (placed.operand (mem_others.1 ha))) (fun x hx hmem => ?_) hfree hd
    obtain ⟨w, hw, hxw⟩ := mem_sourceAliases.1 hmem
    have hmem' : x.label ∈ s.source.toList.flatMap declared :=
      mem_flatMap.2 ⟨w, Option.mem_toList.2 hw, w.sources_sublist.subset hxw⟩
    refine ⟨⟨fun hmem => hapart _ hmem' _ hmem rfl, (hst₁.lt_next _ hmem').trans_le hstate.next⟩, ?_⟩
    have hisolates : ∀ v ∈ s.source, v.Isolates ⟨[], []⟩ ⟨false, false, false, true, false⟩ first := fun v hv =>
      isolates_refines rfl rfl (placed.child (hsource v hv))
    obtain ⟨ν, -, -, hlinks⟩ := source_refines same.source rfl source hisolates hst₁
      (fun v _ => .nothing first _ v) fun v hv => hread.child (hsource v hv)
    obtain ⟨e, hxe, he, -⟩ := hlinks x (hread.child ha' x hx) hmem
    exact ⟨e, hxe, he⟩

theorem Tree.relocates_of_bindings (hcolumn : u.column? = none)
    (ht : t.bindings = t.children.map ([], ·)) (hu : u.bindings = u.children.map ([], ·))
    (children : Threaded IsolatesTo t.children st u.children st')
    (ih : ∀ a ∈ t.children, a.Relocates first) (hchildren : ∀ a ∈ t.children, a.isJoin = false)
    (hst : st.Untouched first t.declared) (settled : t.Settled first) (hd : u.Needs d) :
    ∃ c, t.Needs c ∧ Leads st.replaced c d := by
  have hsub := t.children_declared_sublist
  obtain ⟨p, hp, hfree, hd⟩ := hd.cases_node hcolumn
  rw [hu] at hp
  obtain ⟨b, hb, rfl⟩ := mem_map.1 hp
  obtain ⟨a, ha, visited⟩ := forall₂_mem_right (children.visited (hst.sublist hsub)) hb
  exact (ih a ha).of_child (ht ▸ mem_map_of_mem ha) settled hst.sound rfl (.refl _) visited hsub.subset
    (fun _ _ => .of_not_join (hchildren a ha)) (fun _ _ hmem => absurd hmem not_mem_nil) hfree hd

theorem Tree.IsolatesTo.label?_eq (h : t.IsolatesTo st u st') (join : t.isJoin = false) :
    u.label? = t.label? := by
  cases h.step with
  | column => rfl
  | select label _ _ => exact congrArg some label
  | join step | wrap _ step =>
    cases step
    cases join
  | node _ _ _ same _ => exact same.label?

theorem Tree.projection_relocates {q shape q' shape' : Tree} {i j : Option Identity}
    (hq : q.IsolatesTo st q' m) (hshape : shape.IsolatesTo m shape' st')
    (ih : ∀ a ∈ (projection q shape i).children, a.Relocates first)
    (placed : (projection q shape i).JoinsInSources)
    (hst : st.Untouched first (projection q shape i).declared)
    (settled : (projection q shape i).Settled first) (hd : (projection q' shape' j).Needs d) :
    ∃ c, (projection q shape i).Needs c ∧ Leads st.replaced c d := by
  have hdeclared := declared_projection q shape i
  have hmem : q ∈ (projection q shape i).children := mem_cons_self
  have hmem' : shape ∈ (projection q shape i).children := .tail _ (.head _)
  rw [hdeclared] at hst
  have hstq := hst.sublist (sublist_append_left _ _)
  have hisolated := keeps first q _ _ _ hq hstq
  obtain ⟨p, hp, hfree, hd⟩ := hd.cases_node rfl
  simp only [bindings, mem_cons, not_mem_nil, or_false] at hp
  rcases hp with rfl | rfl
  · obtain ⟨c, hc, hcd⟩ := ih q hmem _ _ _ hq hstq (.of_not_join (placed.operand hmem)) d hd
    exact ⟨c, .child mem_cons_self not_mem_nil hc, hcd⟩
  · refine (ih shape hmem').of_child (.tail _ (.head _)) settled hst.sound rfl
      hisolated.extends_declared ⟨m, _, .refl m, hst.after hisolated.extends_declared, hshape⟩ (fun x hx => ?_)
      (fun _ _ => .of_not_join (placed.operand hmem')) (fun x hx hlabel => ?_) hfree hd
    · rw [append_nil] at hx
      rw [hdeclared]
      exact mem_append_left _ hx
    · have hsources : q'.sources = [x.label] :=
        sources_of_label ((hq.label?_eq (placed.operand hmem)).trans (Option.mem_toList.1 hlabel))
      have hlt := hisolated.sources_lt hstq x.label (hsources ▸ mem_singleton_self _)
      refine ⟨⟨not_mem_nil, hlt⟩, x, .stop (lookup_eq_none_of_label fun p hp hpx => hisolated.live p hp ?_), ?_⟩
      · rw [hsources, hpx]
        exact mem_singleton_self _
      · rwa [hq.label?_eq (placed.operand hmem)]

theorem Tree.SameNode.relocates (same : t.SameHead u) (select : t.isSelect = false)
    (join : t.isJoin = false) (column : t.column? = none)
    (children : Threaded IsolatesTo t.children st u.children st')
    (ih : ∀ a ∈ t.children, a.Relocates first) (placed : t.JoinsInSources)
    (hst : st.Untouched first t.declared) (settled : t.Settled first) (hd : u.Needs d) :
    ∃ c, t.Needs c ∧ Leads st.replaced c d := by
  have hcolumn := same.column?.trans column
  cases same with
  | select => cases select
  | join => cases join
  | column => cases column
  | projection i j =>
    cases children with
    | cons hq rest =>
      cases rest with
      | cons hshape rest =>
        cases rest
        exact projection_relocates hq hshape ih placed hst settled hd
  | _ => exact relocates_of_bindings hcolumn rfl rfl children ih (fun a ha => placed.operand ha) hst settled hd

/-- A visited tree whose joins stand in sources needs what its columns lead to. -/
theorem Tree.relocates (settled : t.Settled first) (placed : t.JoinsInSources) : t.Relocates first := by
  induction t with
  | step t ih =>
    have ih : ∀ a ∈ t.children, a.Relocates first := fun a ha =>
      ih a ha (settled.child ha) (placed.child ha)
    intro st u st' h hst hread d hd
    cases h.step with
    | column c =>
      refine ⟨c, .column, ?_⟩
      rw [needs_column.1 hd]
      exact hst.sound.leads c
    | select _ same clauses => exact Select.relocates same clauses ih placed hst settled hd
    | join step =>
      have hjoin : t.isJoin = true := by cases step; rfl
      exact step.relocates ih placed hst settled (hread hjoin) hd
    | wrap _ step =>
      have hjoin : t.isJoin = true := by cases step; rfl
      exact step.relocates ih placed hst settled (hread hjoin) (Isolation.needs_of_wrapper hd)
    | node select join column same children =>
      exact same.relocates select join column children ih placed hst settled hd

/-- Isolation needs nothing that was not needed before. -/
theorem Tree.isolateCrossJoins_needs {next next' : Alias} (settled : t.Settled next)
    (placed : t.JoinsInSources) (join : t.isJoin = false)
    (h : t.isolateCrossJoins.run next = (u, next')) {c : ColumnRef} (hc : u.Needs c) : t.Needs c := by
  obtain ⟨st, hvisit, -⟩ := isolatesTo_of_run h
  obtain ⟨d, hd, hdc⟩ := relocates settled placed _ _ _ hvisit
    (Isolation.untouched_start settled.nodup settled.below) (.of_not_join join) c hc
  cases hdc with
  | stop => exact hd
  | step hlookup _ => cases hlookup

end HiveQuery
