import HiveQuery.Proofs.AppliedTrees
import HiveQuery.Proofs.IsolatedTrees

/-!
# What the lowerings leave in order

Each lowering asks for something about the trees it is applied to. The lowerings before it keep that.
-/

namespace HiveQuery
open List HiveQuery.Tree Select

variable {t u a b : Tree} {Q : ColumnRef → ColumnRef → Prop} {P : Tree → Prop} {R : Tree → Tree → Prop}

/-! ## Clauses of one kind -/

/-- Two clauses of one kind. -/
structure Tree.Alike (t u : Tree) : Prop where
  isJoin : u.isJoin = t.isJoin
  isRowNumber : u.isRowNumber = t.isRowNumber
  hasAggregate : u.hasAggregate = t.hasAggregate
  isExact : t.IsExact → u.IsExact
  constant : ∀ v, t = .constant v → u = .constant v

/-- Rows can be skipped exactly in a select with clauses of the same kinds. -/
theorem Select.Pageable.of_alike {S : Tree → Tree → Prop} {s s' : Select Tree} (h : s.Pageable)
    (same : s.SameClauses S Alike s') : s'.Pageable where
  headers := by
    have hheaders : s'.headers = s.headers := map_eq_of_forall₂ same.columns fun _ _ h => h.1
    exact hheaders ▸ h.headers
  reverse := same.reverse.trans h.reverse
  keys key hkey := by
    obtain ⟨key₀, hkey₀, -, hvalue⟩ := forall₂_mem_right same.order hkey
    exact hvalue.isExact (h.keys key₀ hkey₀)
  skip u hu := by
    obtain ⟨t, ht, halike⟩ := option_rel_exists same.skip hu
    obtain ⟨i, rfl, hi⟩ := h.skip t ht
    exact ⟨i, halike.constant _ rfl, hi⟩
  take u hu := by
    obtain ⟨t, ht, halike⟩ := option_rel_exists same.take hu
    obtain ⟨m, rfl⟩ := h.take t ht
    exact ⟨m, halike.constant _ rfl⟩
  aggregates hskip hgroup := by
    have hgroup' : s.group = [] := by
      rw [← length_eq_zero_iff, same.group.length_eq, hgroup, length_nil]
    rw [same.isGrouped fun _ _ h => h.hasAggregate]
    exact h.aggregates (option_isSome_eq same.skip ▸ hskip) hgroup'

theorem Tree.Alike.trans {v : Tree} (h : t.Alike u) (h' : u.Alike v) : t.Alike v where
  isJoin := h'.isJoin.trans h.isJoin
  isRowNumber := h'.isRowNumber.trans h.isRowNumber
  hasAggregate := h'.hasAggregate.trans h.hasAggregate
  isExact ht := h'.isExact (h.isExact ht)
  constant v hv := h'.constant v (h.constant v hv)

namespace Tree.SameNode

section

variable (h : t.SameNode R u)
include h

theorem isInexact : u.isInexact = t.isInexact := by
  cases h <;> rfl

theorem isRowNumber : u.isRowNumber = t.isRowNumber := by
  cases h <;> rfl

theorem constant_eq {v : Value} (hv : t = .constant v) : u = .constant v := by
  subst hv
  cases h
  rfl

theorem exists_select {s' : Select Tree} (hs' : u.select? = some s') :
    ∃ s, t.select? = some s ∧ s.SameClauses R R s' := by
  cases h with
  | select _ _ _ same =>
    cases hs'
    exact ⟨_, rfl, same⟩
  | _ => cases hs'

theorem every (node : P t → P u) (child : ∀ a b, R a b → a.Every P → b.Every P)
    (ht : t.Every P) : u.Every P := by
  obtain ⟨hnode, hchildren⟩ := every_iff.1 ht
  refine every_iff.2 ⟨node hnode, fun b hb => ?_⟩
  obtain ⟨a, ha, hab⟩ := forall₂_mem_right h.children hb
  exact child a b hab (hchildren a ha)

end

theorem alike (h : t.SameNode Alike u) : t.Alike u where
  isJoin := h.isJoin
  isRowNumber := h.isRowNumber
  hasAggregate := h.hasAggregate fun _ _ h => h.hasAggregate
  isExact := h.every (h.isInexact.trans ·) fun _ _ h => h.isExact
  constant _ := h.constant_eq

theorem exists_operand (h : t.SameNode R u) (hb : b ∈ u.operands) : ∃ a ∈ t.operands, R a b := by
  have hchildren := h.children
  cases h with
  | select i j _ same =>
    obtain ⟨a, ha, hab⟩ := forall₂_mem_right same.others (mem_others.2 hb)
    exact ⟨a, mem_others.1 ha, hab⟩
  | join kind i j _ _ hc => exact forall₂_mem_right (optionRel_iff.1 hc) hb
  | _ => exact forall₂_mem_right hchildren hb

end Tree.SameNode

theorem Tree.operands_eq_children (select : t.isSelect = false) (join : t.isJoin = false) :
    t.operands = t.children := by
  cases t with
  | select => cases select
  | join => cases join
  | _ => rfl

theorem Tree.mem_children_of_operands (h : a ∈ t.operands) : a ∈ t.children := by
  cases t with
  | select s i => exact s.clauses_perm.mem_iff.2 (mem_append_right _ h)
  | join j i => exact .tail _ (.tail _ h)
  | _ => exact h

theorem Tree.SameNode.inSources (h : t.SameNode R u) (isJoin : ∀ a b, R a b → b.isJoin = a.isJoin)
    (ht : ∀ a ∈ t.operands, a.isJoin = false) : ∀ b ∈ u.operands, b.isJoin = false := by
  intro b hb
  obtain ⟨a, ha, hab⟩ := h.exists_operand hb
  exact (isJoin a b hab).trans (ht a ha)

theorem Tree.SameNode.pageable (h : t.SameNode Alike u) (ht : ∀ s, t.select? = some s → s.Pageable) :
    ∀ s', u.select? = some s' → s'.Pageable := by
  intro s' hs'
  obtain ⟨s, hs, same⟩ := h.exists_select hs'
  exact (ht s hs).of_alike same

/-! ## Other columns -/

namespace Tree.Rerouted

section

variable (h : t.Rerouted Q u)
include h

theorem mem_subtrees :
    b ∈ u.subtrees → (∃ d, b = .column d) ∨ ∃ a ∈ t.subtrees, a.SameNode (Rerouted Q) b := by
  refine h.rel (fun _ hb => .inl ⟨_, mem_subtrees_column.1 hb⟩) fun {v _} _ same below hb => ?_
  rcases Tree.mem_subtrees.1 hb with rfl | ⟨u', hu', hb⟩
  · exact .inr ⟨v, Tree.mem_subtrees.2 (.inl rfl), same⟩
  · obtain ⟨t', ht', h⟩ := forall₂_mem_right below.children hu'
    refine (h hb).imp_right ?_
    rintro ⟨a, ha, hab⟩
    exact ⟨a, Tree.mem_subtrees.2 (.inr ⟨t', ht', ha⟩), hab⟩

theorem every (column : ∀ d, P (.column d))
    (node : ∀ a b, a.SameNode (Rerouted Q) b → P a → P b) (ht : t.Every P) : u.Every P := by
  intro b hb
  rcases h.mem_subtrees hb with ⟨d, rfl⟩ | ⟨a, ha, hab⟩
  · exact column d
  · exact node a b hab (ht a ha)

theorem alike : t.Alike u :=
  h.rel (fun _ => ⟨rfl, rfl, rfl, fun _ => every_iff.2 ⟨rfl, nofun⟩, nofun⟩) fun _ _ same => same.alike

theorem joinsInSources (ht : t.JoinsInSources) : u.JoinsInSources :=
  h.every (fun _ _ ha => nomatch ha) (fun _ _ same => same.inSources fun _ _ h => h.alike.isJoin) ht

theorem pageable (ht : t.Pageable) : u.Pageable :=
  h.every (fun _ _ hs => nomatch hs) (fun _ _ same => (same.imp fun _ _ _ h => h.alike).pageable) ht

theorem appliesUnnumbered (ht : t.AppliesUnnumbered) : u.AppliesUnnumbered := by
  refine h.every (fun _ _ hj => nomatch hj) (fun a b same ha j' hj' apply s' hs' d' hd' => ?_) ht
  cases same with
  | join kind _ _ _ hr _ =>
    cases hj'
    cases hr with
    | column => cases hs'
    | node _ same children =>
      obtain ⟨s, hs, same⟩ := (same.of_children children).exists_select hs'
      obtain ⟨d, hd, -, hvalue⟩ := forall₂_mem_right same.columns hd'
      exact hvalue.alike.isRowNumber.trans (ha _ rfl apply s hs d hd)
  | _ => cases hj'

end

end Tree.Rerouted

/-! ## Applies as joins -/

theorem mem_appliedJoin {kind : JoinKind} {c : Option Tree}
    (h : a ∈ (appliedJoin kind c).2.toList) : a ∈ c.toList ∨ a = .constant (.boolean true) := by
  unfold appliedJoin at h
  split at h <;> simp_all

theorem FilterPulled.exists_filter {s : Select Tree} {c : Option Tree} {columns : List (Column Tree)}
    (h : FilterPulled s c columns) (hb : b ∈ c.toList) :
    ∃ f, s.filter = Option.some f ∧ f.Rerouted (Projects s.sourceAliases s.label columns) b := by
  have hrel := h.rerouted
  revert hrel
  generalize s.filter = o
  intro hrel
  cases hrel with
  | none => cases hb
  | some hf =>
    cases mem_singleton.1 hb
    exact ⟨_, rfl, hf⟩

theorem LowersApply.every (h : LowersApply t u) (root : P u) (column : ∀ c, P (.column c))
    (always : P (.constant (.boolean true)))
    (rerouted : ∀ Q a b, a.SameNode (Rerouted Q) b → P a → P b)
    (unfiltered : ∀ {s c columns} i, s.isPlain = true → FilterPulled s c columns → P (.select s i) →
      P (.select { s with filter := none, columns := columns } none))
    (ht : t.Every P) : u.Every P := by
  have hcolumn (c : ColumnRef) : (Tree.column c).Every P := every_iff.2 ⟨column c, fun _ h => nomatch h⟩
  have halways : (Tree.constant (.boolean true)).Every P := every_iff.2 ⟨always, fun _ h => nomatch h⟩
  have hchild := (every_iff.1 ht).2
  cases h with
  | kept => exact ht
  | table l x name i =>
    refine every_iff.2 ⟨root, fun b hb => ?_⟩
    rcases mem_cons.1 hb with rfl | hb
    · exact hchild _ (by simp)
    rcases mem_cons.1 hb with rfl | hb
    · exact hchild _ (by simp)
    rcases mem_appliedJoin hb with hb | rfl
    · cases hb
    · exact halways
  | @select kind l s c columns i j _ plain _ pulled =>
    have hselect := every_iff.1 (hchild (.select s j) (by simp))
    refine every_iff.2 ⟨root, fun b hb => ?_⟩
    rcases mem_cons.1 hb with rfl | hb
    · exact hchild _ (by simp)
    rcases mem_cons.1 hb with rfl | hb
    · refine every_iff.2 ⟨unfiltered j plain pulled hselect.1, fun b hb => ?_⟩
      obtain ⟨extra, hcolumns, hextra⟩ := pulled.grow.split
      rcases mem_clauses_unfiltered.1 hb with (hb | hb) | hb
      · rw [hcolumns, map_append, mem_append] at hb
        rcases hb with hb | hb
        · exact hselect.2 b (mem_clauses_unfiltered.2 (.inl (.inl hb)))
        · obtain ⟨d, hd, rfl⟩ := mem_map.1 hb
          obtain ⟨c, hc, -⟩ := hextra d hd
          exact hc ▸ hcolumn c
      · exact hselect.2 b (mem_clauses_unfiltered.2 (.inl (.inr hb)))
      · cases hb
    rcases mem_appliedJoin hb with hb | rfl
    · obtain ⟨f, hf, hfb⟩ := pulled.exists_filter hb
      have hf : f ∈ s.filter.toList := by simp [hf]
      exact hfb.every column (rerouted _) (hselect.2 f (mem_clauses_unfiltered.2 (.inr hf)))
    · exact halways

theorem LowersApply.isExact (h : LowersApply t u) (ht : t.IsExact) : u.IsExact := by
  refine h.every ?_ (fun _ => rfl) rfl (fun _ _ _ same ha => same.isInexact.trans ha) (fun _ _ _ _ => rfl) ht
  cases h with
  | kept => exact (every_iff.1 ht).1
  | _ => rfl

theorem LowersApply.alike (h : LowersApply t u) : t.Alike u where
  isJoin := by cases h <;> rfl
  isRowNumber := by cases h <;> rfl
  hasAggregate := h.hasAggregate
  isExact := h.isExact
  constant v hv := by
    cases h with
    | kept => exact hv
    | _ => cases hv

/-- Where the subtrees of a tree without applies come from. -/
theorem Tree.lowerApplies_every (node : ∀ a b, a.SameNode Alike b → P a → P b)
    (apply : ∀ {a b}, LowersApply a b → a.Every P → b.Every P) (ht : t.Every P) :
    t.lowerApplies.Every P := by
  refine (lowerApplies_rel (R := fun a b => a.Alike b ∧ (a.Every P → b.Every P)) ?_ t).2 ht
  intro a v b same hv
  have halike : a.SameNode Alike v := same.imp fun _ _ _ h => h.1
  exact ⟨halike.alike.trans hv.alike, fun ha => apply hv (same.every (node a v halike) (fun _ _ h => h.2) ha)⟩

theorem LowersApply.joinsInSources (h : LowersApply t u) (ht : t.JoinsInSources) : u.JoinsInSources := by
  have hroot : ∀ b ∈ u.operands, b.isJoin = false := by
    intro b hb
    cases h with
    | kept => exact ht.operand hb
    | table =>
      rcases mem_appliedJoin hb with hb | rfl
      · cases hb
      · rfl
    | @select _ _ s c _ _ j _ _ _ pulled =>
      rcases mem_appliedJoin hb with hb | rfl
      · obtain ⟨f, hf, hfb⟩ := pulled.exists_filter hb
        have hselect : (Tree.select s j).JoinsInSources := ht.child (by simp)
        exact hfb.alike.isJoin.trans (hselect.operand (by simp [operands, Select.inner, hf]))
      · rfl
  refine h.every hroot (by rintro _ _ ⟨⟩) (by rintro _ ⟨⟩)
    (fun _ _ _ same => same.inSources fun _ _ h => h.alike.isJoin) ?_ ht
  intro s c columns i _ pulled hs b hb
  obtain ⟨extra, rfl, hextra⟩ := pulled.grow.split
  have hb : b ∈ extra.map Column.value ∨ b ∈ (Tree.select s i).operands := by
    simp only [operands, Select.inner, bounds, map_append, mem_append] at hb ⊢
    grind
  rcases hb with hb | hb
  · obtain ⟨d, hd, rfl⟩ := mem_map.1 hb
    obtain ⟨c, hc, -⟩ := hextra d hd
    rw [hc]
    rfl
  · exact hs b hb

theorem LowersApply.pageable (h : LowersApply t u) (ht : t.Pageable) : u.Pageable := by
  have hroot : ∀ s, u.select? = some s → s.Pageable := by
    cases h with
    | kept => exact (every_iff.1 ht).1
    | _ => exact fun _ h => nomatch h
  refine h.every hroot (by rintro _ _ ⟨⟩) (by rintro _ ⟨⟩)
    (fun _ _ _ same => (same.imp fun _ _ _ h => h.alike).pageable) ?_ ht
  rintro s c columns i plain pulled hs _ ⟨⟩
  have hs := hs s rfl
  exact
    { headers := pulled.grow.nodup hs.headers
      reverse := hs.reverse
      keys := hs.keys
      skip := hs.skip
      take := hs.take
      aggregates := fun hskip => by simp_all [isPlain] }

theorem Tree.lowerApplies_pageable (ht : t.Pageable) : t.lowerApplies.Pageable :=
  lowerApplies_every (fun _ _ same => same.pageable) (fun h => h.pageable) ht

/-! ## Isolated joins -/

variable {st st' : Isolation} {parent : Option JoinKind}

def Tree.IsolatedAs (t u : Tree) : Prop :=
  ∃ st st', t.IsolatesTo st u st'

def Tree.IsolatesUnder (parent : Option JoinKind) (t u : Tree) : Prop :=
  ∃ st st', t.IsolatesTo st u st' ∧ st.parent = parent

def Tree.around (parent : Option JoinKind) : Tree → Option JoinKind
  | .select _ _ => none
  | .join j _ => some j.kind
  | _ => parent

theorem Tree.around_of_join {j : Join Tree} (h : t.join? = some j) (parent : Option JoinKind) :
    t.around parent = some j.kind := by
  cases t with
  | join => cases h; rfl
  | _ => cases h

theorem Threaded.isolatesUnder {ts us : List Tree} (h : Threaded IsolatesTo ts st us st')
    (ih : ∀ a ∈ ts, ∀ st b st', a.IsolatesTo st b st' → st'.parent = st.parent) :
    st'.parent = st.parent ∧ Forall₂ (IsolatesUnder st.parent) ts us := by
  induction h with
  | nil => exact ⟨rfl, .nil⟩
  | cons head _ rest =>
    rw [forall_mem_cons] at ih
    have hparent := ih.1 _ _ _ head
    obtain ⟨hrest, hall⟩ := rest ih.2
    rw [hparent] at hrest hall
    exact ⟨hrest, .cons ⟨_, _, head, rfl⟩ hall⟩

theorem Tree.IsolatesTo.parent_eq (h : t.IsolatesTo st u st') : st'.parent = st.parent := by
  induction t generalizing u st st' with
  | step t ih =>
    cases h.step with
    | column | select => rfl
    | join step | wrap _ step => cases step; rfl
    | node _ _ _ _ children => exact (children.isolatesUnder fun a ha _ _ _ => ih a ha).1

theorem Threaded.under {ts us : List Tree} (h : Threaded IsolatesTo ts st us st') :
    Forall₂ (IsolatesUnder st.parent) ts us :=
  (h.isolatesUnder fun _ _ _ _ _ => Tree.IsolatesTo.parent_eq).2

theorem JoinStep.under (h : JoinStep t st u st') :
    ∃ j, t.join? = some j ∧ t.SameNode (IsolatesUnder (t.around parent)) u := by
  cases h with
  | @mk kind l r l' r' c c' i j st m form children =>
    have hchildren := children.under
    simp only [forall₂_cons] at hchildren
    exact ⟨_, rfl, .join kind i j hchildren.1 hchildren.2.1 (optionRel_iff.2 hchildren.2.2)⟩

/-- What isolation makes of a node: another column, the same node, or a select around the same join. -/
inductive Tree.IsolatedNode (parent : Option JoinKind) (t : Tree) : Tree → Prop
  | column {c : ColumnRef} (d : ColumnRef) (eq : t = .column c) : IsolatedNode parent t (.column d)
  | node {u : Tree} (unmixed : ∀ j ∈ t.join?, mixes j.kind parent = false)
      (same : t.SameNode (Tree.IsolatesUnder (t.around parent)) u) : IsolatedNode parent t u
  | wrap {u : Tree} {j : Join Tree} (m : Isolation) (join : t.join? = some j)
      (mixed : mixes j.kind parent = true) (same : t.SameNode (Tree.IsolatesUnder (t.around parent)) u) :
      IsolatedNode parent t (.select (m.wrapper u) none)

theorem Tree.IsolatesUnder.node (h : t.IsolatesUnder parent u) : t.IsolatedNode parent u := by
  obtain ⟨st, st', h, rfl⟩ := h
  cases h.step with
  | column c => exact .column _ rfl
  | select label same clauses => exact .node nofun (.select _ _ label (same.of_clauses clauses.under))
  | join step unmixed =>
    obtain ⟨j, -, same⟩ := step.under
    exact .node unmixed same
  | wrap mixed step =>
    obtain ⟨j, -, same⟩ := step.under
    obtain ⟨j, hj, hmixed⟩ := mixed
    exact .wrap _ hj hmixed same
  | node select join _ same children =>
    have hsame := same.of_children children.under
    cases t with
    | select => cases select
    | join => cases join
    | _ => exact .node nofun hsame

theorem Tree.IsolatesUnder.isolated (h : t.IsolatesUnder parent u) : t.IsolatedAs u := by
  obtain ⟨st, st', h, -⟩ := h
  exact ⟨st, st', h⟩

theorem Isolation.wrapper_columns (st : Isolation) :
    ∀ a ∈ (st.wrapper u).columns.map Column.value, ∃ c, a = .column c := by
  intro a ha
  obtain ⟨d, hd, rfl⟩ := mem_map.1 ha
  obtain ⟨p, -, rfl⟩ := mem_map.1 hd
  exact ⟨p.1, rfl⟩

theorem Isolation.mem_wrapper (h : a ∈ (st.wrapper u).clauses) : a = u ∨ ∃ c, a = .column c :=
  (mem_cons.1 h).imp_right (st.wrapper_columns a)

theorem Isolation.wrapper_pageable (st : Isolation) (u : Tree) : (st.wrapper u).Pageable where
  headers := st.headers_wrapper_nodup u
  reverse := rfl
  keys _ h := nomatch h
  skip _ h := nomatch h
  take _ h := nomatch h
  aggregates h := nomatch h

namespace Tree.IsolatedAs

section

variable (h : t.IsolatedAs u)
include h

theorem node : ∃ parent, t.IsolatedNode parent u := by
  obtain ⟨st, st', h⟩ := h
  exact ⟨st.parent, Tree.IsolatesUnder.node ⟨st, st', h, rfl⟩⟩

/-- Where the subtrees of a visited tree come from. -/
theorem mem_subtrees (hb : b ∈ u.subtrees) :
    (∃ d, b = .column d) ∨ (∃ st v, b = .select (Isolation.wrapper st v) none) ∨
      ∃ a ∈ t.subtrees, ∃ parent, a.SameNode (IsolatesUnder (a.around parent)) b := by
  induction t generalizing u with
  | step t ih =>
    obtain ⟨parent, h⟩ := h.node
    have hnode {v : Tree} (same : t.SameNode (IsolatesUnder (t.around parent)) v) (hb : b ∈ v.subtrees) :
        (∃ d, b = .column d) ∨ (∃ st v, b = .select (Isolation.wrapper st v) none) ∨
          ∃ a ∈ t.subtrees, ∃ parent, a.SameNode (IsolatesUnder (a.around parent)) b := by
      rcases mem_subtrees.1 hb with rfl | ⟨v', hv', hb⟩
      · exact .inr (.inr ⟨t, mem_subtrees.2 (.inl rfl), parent, same⟩)
      · obtain ⟨t', ht', h⟩ := forall₂_mem_right same.children hv'
        refine (ih t' ht' h.isolated hb).imp_right (.imp_right ?_)
        rintro ⟨a, ha, hab⟩
        exact ⟨a, mem_subtrees.2 (.inr ⟨t', ht', ha⟩), hab⟩
    cases h with
    | column d => exact .inl ⟨d, mem_subtrees_column.1 hb⟩
    | node _ same => exact hnode same hb
    | wrap m _ _ same =>
      rcases mem_subtrees.1 hb with rfl | ⟨v, hv, hb⟩
      · exact .inr (.inl ⟨_, _, rfl⟩)
      · rcases Isolation.mem_wrapper hv with hv | ⟨c, rfl⟩
        · exact hnode same (hv ▸ hb)
        · exact .inl ⟨c, mem_subtrees_column.1 hb⟩

theorem isExact (ht : t.IsExact) : u.IsExact := by
  intro b hb
  rcases h.mem_subtrees hb with ⟨d, rfl⟩ | ⟨st, v, rfl⟩ | ⟨a, ha, _, same⟩
  · rfl
  · rfl
  · exact same.isInexact.trans (ht a ha)

theorem cases_node (join : t.isJoin = false) :
    (∃ c d, t = .column c ∧ u = .column d) ∨ t.SameNode IsolatedAs u := by
  obtain ⟨parent, h⟩ := h.node
  cases h with
  | column d eq => exact .inl ⟨_, d, eq, rfl⟩
  | node _ same => exact .inr (same.imp fun _ _ _ h => h.isolated)
  | wrap m hj =>
    cases t with
    | join => cases join
    | _ => cases hj

theorem hasAggregate (join : t.isJoin = false) (placed : t.JoinsInSources) :
    u.hasAggregate = t.hasAggregate := by
  induction t generalizing u with
  | step t ih =>
    rcases h.cases_node join with ⟨c, d, rfl, rfl⟩ | same
    · rfl
    · cases hselect : t.isSelect with
      | true =>
        cases same with
        | select => rfl
        | _ => cases hselect
      | false =>
        have same := same.imp fun a b ha hab =>
          ih a ha hab (placed.operand (operands_eq_children hselect join ▸ ha)) (placed.child ha)
        exact same.hasAggregate fun _ _ h => h

theorem alike (join : t.isJoin = false) (placed : t.JoinsInSources) : t.Alike u := by
  refine ⟨?_, ?_, h.hasAggregate join placed, h.isExact, ?_⟩
  · rcases h.cases_node join with ⟨c, d, rfl, rfl⟩ | same
    · rfl
    · exact same.isJoin
  · rcases h.cases_node join with ⟨c, d, rfl, rfl⟩ | same
    · rfl
    · exact same.isRowNumber
  · intro v hv
    rcases h.cases_node join with ⟨c, d, rfl, rfl⟩ | same
    · cases hv
    · exact same.constant_eq hv

theorem pageable (placed : t.JoinsInSources) (ht : t.Pageable) : u.Pageable := by
  intro b hb
  rcases h.mem_subtrees hb with ⟨d, rfl⟩ | ⟨st, v, rfl⟩ | ⟨a, ha, _, same⟩
  · exact fun _ h => nomatch h
  · rintro _ ⟨⟩
    exact st.wrapper_pageable v
  · intro s' hs'
    have placed : a.JoinsInSources := Tree.Every.subtree placed ha
    cases same with
    | @select s _ i j label same =>
      cases hs'
      refine (ht _ ha s rfl).of_alike (Select.SameClauses.of_others ?_ same.source
        (forall₂_imp_mem same.others fun x y hx hxy => ?_))
      · exact same.imp (fun _ _ _ _ => trivial) fun _ _ _ _ => trivial
      · have hx := mem_others.1 hx
        exact hxy.isolated.alike (placed.operand hx) (placed.child (mem_children_of_operands hx))
    | _ => cases hs'

end

end Tree.IsolatedAs

end HiveQuery
