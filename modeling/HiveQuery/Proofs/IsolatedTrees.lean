import HiveQuery.Proofs.Isolation
import HiveQuery.Proofs.RowNumberTrees

/-!
# Isolated cross joins

A join in a select has the rows of the join, and the select passes on what is read from it. What a column leads to
has the value of the column, wherever both are in scope.
-/

namespace HiveQuery
open List HiveQuery.Tree
variable {env : Environment} {k : Mode} {first : Alias} {μ : Reads} {st m st' : Isolation} {s : Select Tree}
  {a t u : Tree}

/-! ## Where joins stand -/

def Tree.operands : Tree → List Tree
  | .select s _ => s.inner ++ s.cluster ++ s.bounds
  | .join j _ => j.condition.toList
  | t => t.children

/-- Joins stand nowhere but in sources. -/
def Tree.JoinsInSources (t : Tree) : Prop :=
  t.Every fun u => ∀ a ∈ u.operands, a.isJoin = false

instance (t : Tree) : Decidable t.JoinsInSources :=
  inferInstanceAs (Decidable (t.Every _))

theorem Tree.JoinsInSources.operand (h : t.JoinsInSources) (ha : a ∈ t.operands) : a.isJoin = false :=
  (every_iff.1 h).1 a ha

theorem Tree.mem_readColumns {c : ColumnRef} (h : .column c ∈ t.subtrees) : c ∈ t.readColumns := by
  rw [readColumns, mem_firstOccurrences]
  exact mem_append_right _ (mem_allColumns.2 h)

/-! ## Scopes that follow replacements -/

/-- Every column of a tree has the value of the column it leads to. -/
structure Reads.Follows (first : Alias) (μ : Reads) (st : Isolation) (t : Tree) : Prop where
  left : ∀ a ∈ μ.left, a ∉ t.declared ∧ a < first
  right : ∀ a ∈ μ.right, a ∉ t.declared ∧ a < st.next
  links : ∀ c, .column c ∈ t.subtrees → c.label ∈ μ.left →
    ∃ d, Leads st.replaced c d ∧ d.label ∈ μ.right ∧ μ.rel c d

/-- The columns that are read from a source can be read from another one. -/
def Tree.Exposes (columns : List ColumnRef) (t u : Tree) (ν : ColumnMatch) (st : Isolation) : Prop :=
  ∀ c ∈ columns, c.label ∈ t.sources →
    ∃ d, Leads st.replaced c d ∧ d.label ∈ u.sources ∧ ν c d ∧ d ∈ st.columns

namespace Reads.Follows

variable {t a : Tree} {own new new' : List Alias} {ν : ColumnMatch}

theorem nothing (first : Alias) (st : Isolation) (t : Tree) : (same []).Follows first st t where
  left := by simp [same]
  right := by simp [same]
  links := by simp [same]

theorem of_eq (h : μ.Follows first st t) (hnext : st'.next = st.next)
    (hreplaced : st'.replaced = st.replaced) : μ.Follows first st' t where
  left := h.left
  right := by
    rw [hnext]
    exact h.right
  links := by
    rw [hreplaced]
    exact h.links

section

variable (h : μ.Follows first st t) (hst : st.Untouched first t.declared) (ha : a ∈ t.children)
  (hm : st.Extends own m) (hown : ∀ x ∈ own, x ∈ t.declared)
include h hst ha hm hown

theorem child : μ.Follows first m a where
  left x hx :=
    ⟨fun hmem => (h.left x hx).1 ((declared_of_child ha).subset hmem),
      (h.left x hx).2⟩
  right x hx :=
    ⟨fun hmem => (h.right x hx).1 ((declared_of_child ha).subset hmem),
      (h.right x hx).2.trans_le hm.next⟩
  links c hc hlabel := by
    obtain ⟨d, hd, hright, hrel⟩ := h.links c (mem_subtrees.2 (.inr ⟨a, ha, hc⟩)) hlabel
    have hleft := h.left _ hlabel
    refine ⟨d, hm.leads hst.sound (fun x hx => hst.below x (hown x hx)) (fun hmem => ?_) ?_ hd, hright, hrel⟩
    · exact hleft.1 (hown _ hmem)
    · exact hleft.2.trans_le hst.sound.start

theorem within
    (hnew : ∀ x ∈ new, x ∈ t.declared ∧ x ∉ a.declared) (hnew' : Supplied st.next m.next new new')
    (links : ∀ c, .column c ∈ a.subtrees → c.label ∈ new →
      ∃ d, Leads m.replaced c d ∧ d.label ∈ new' ∧ ν c d) :
    (μ.within new new' ν).Follows first m a where
  left x hx := by
    rcases mem_append.1 hx with hx | hx
    · exact ⟨(hnew x hx).2, hst.below x (hnew x hx).1⟩
    · exact (h.child hst ha hm hown).left x hx
  right x hx := by
    rcases mem_append.1 hx with hx | hx
    · rcases hnew'.mem x hx with hx | ⟨hle, hlt⟩
      · exact ⟨(hnew x hx).2, (hst.lt_next x (hnew x hx).1).trans_le hm.next⟩
      · refine ⟨fun hmem => hle.not_gt (hst.lt_next x ?_), hlt⟩
        exact (declared_of_child ha).subset hmem
    · exact (h.child hst ha hm hown).right x hx
  links c hc hlabel := by
    by_cases hmem : c.label ∈ new
    · obtain ⟨d, hd, hright, hν⟩ := links c hc hmem
      exact ⟨d, hd, mem_append_left _ hright, .inl ⟨hmem, hright, hν⟩⟩
    · have hlabel := (mem_append.1 hlabel).resolve_left hmem
      obtain ⟨d, hd, hright, hrel⟩ := (h.child hst ha hm hown).links c hc hlabel
      refine ⟨d, hd, mem_append_right _ hright, .inr ⟨hmem, fun hd' => ?_, hrel⟩⟩
      -- what is around is neither declared in the tree nor new
      rcases hnew'.mem _ hd' with hd' | ⟨hle, _⟩
      · exact (h.right _ hright).1 (hnew _ hd').1
      · exact hle.not_gt (h.right _ hright).2

end

end Reads.Follows

namespace Tree.Exposes

variable {columns : List ColumnRef} {t u : Tree} {ν : ColumnMatch} {own : List Alias}

theorem after (h : t.Exposes columns u ν m) (hm : m.Sound first) (hst : m.Extends own st')
    (hown : ∀ a ∈ own, a < first) (hsources : ∀ a ∈ t.sources, a ∉ own ∧ a < m.next) :
    t.Exposes columns u ν st' := by
  intro c hc hlabel
  obtain ⟨d, hd, hu, hν, hcolumns⟩ := h c hc hlabel
  refine ⟨d, hst.leads hm hown ?_ ?_ hd, hu, hν, hst.columns d hcolumns⟩
  · exact (hsources _ hlabel).1
  · exact (hsources _ hlabel).2

theorem of_live (h : t.Isolated st u st') (hsources : u.sources = t.sources) :
    t.Exposes st.columns u sameName st' := by
  intro c hc hlabel
  rw [← hsources] at hlabel
  refine ⟨c, .stop (lookup_eq_none_of_label fun p hp hp' => ?_), hlabel, rfl, h.state.columns c hc⟩
  exact h.live p hp (hp' ▸ hlabel)

end Tree.Exposes

/-! ## One step -/

def Tree.VisitedFrom (first : Alias) (st : Isolation) (own : List Alias) (a b : Tree) : Prop :=
  ∃ m m', st.Extends own m ∧ m.Untouched first a.declared ∧ a.IsolatesTo m b m'

theorem Threaded.visited {ts us : List Tree} (h : Threaded IsolatesTo ts st us st')
    (hst : st.Untouched first (ts.flatMap declared)) :
    Forall₂ (VisitedFrom first st (ts.flatMap declared)) ts us := by
  induction h with
  | nil => exact .nil
  | @cons t st m st' u ts us head _ rest =>
    rw [flatMap_cons] at hst ⊢
    have ht := hst.sublist (sublist_append_left t.declared _)
    have hhead := (keeps first t _ _ _ head ht).extends_declared
    refine .cons ⟨st, m, (Isolation.Extends.refl st).mono (by simp), ht, head⟩ ?_
    refine (rest (hst.after hhead)).imp fun a b hab => ?_
    obtain ⟨m₁, m₂, hm, ha, hvisit⟩ := hab
    exact ⟨m₁, m₂, hhead.trans hm, ha, hvisit⟩

abbrev Tree.ReadsIn (t : Tree) (columns : List ColumnRef) : Prop :=
  ∀ c, .column c ∈ t.subtrees → c ∈ columns

theorem Tree.ReadsIn.child {columns : List ColumnRef} (h : t.ReadsIn columns) (ha : a ∈ t.children) :
    a.ReadsIn columns := fun c hc =>
  h c (mem_subtrees.2 (.inr ⟨a, ha, hc⟩))

/-- What holds of a visited tree: it refines the tree as a scalar and as a source, where a join that is
the side of another one may have become a select. -/
structure Tree.IsolationRefines (env : Environment) (k : Mode) (μ : Reads) (t : Tree) (st : Isolation)
    (u : Tree) (st' : Isolation) : Prop where
  scalar : t.isJoin = false → Refines env k (.scalar μ t u)
  source : (∀ c, .column c ∈ t.subtrees → c ∈ st.columns) →
    ∃ ν, t.Exposes st.columns u ν st' ∧ Refines env k (.side μ ν t u) ∧
      (st.parent = none → ∀ top, Refines env k (.source top μ ν t u))

def Tree.Isolates (env : Environment) (k : Mode) (first : Alias) (t : Tree) : Prop :=
  ∀ st u st' μ, t.IsolatesTo st u st' → st.Untouched first t.declared → μ.Follows first st t →
    t.IsolationRefines env k μ st u st'

theorem Tree.Isolates.hasAggregate {b : Tree} (h : a.Isolates env k first) (ha : a.isJoin = false)
    {own : List Alias} (hab : a.VisitedFrom first st own b) : b.hasAggregate = a.hasAggregate := by
  obtain ⟨m, m', _, hm, hvisit⟩ := hab
  exact ((h _ _ _ _ hvisit hm (.nothing first m a)).scalar ha).sameAggregates

theorem Isolation.leads_wrapper {c d : ColumnRef} (hm : m.Sound first)
    (hlive : ∀ p ∈ m.replaced, p.1.label ∉ u.sources) (hlt : ∀ a ∈ u.sources, a < m.next)
    (hd : Leads m.replaced c d) (hlabel : d.label ∈ u.sources) (hcolumns : d ∈ m.columns) :
    ∃ e, Leads (m.wrapping u).replaced c e ∧ e.label = m.next ∧ e ∈ (m.wrapping u).columns ∧
      ∀ ν : ColumnMatch, ν c d → (m.wrapper u).passes ν c e := by
  have hsound := (wrapping_extends hlt).sound hm
  have hkeys : ∀ p ∈ ((m.named u).map fun p => (p.1, m.outer p)).reverse, p.1.label ∈ u.sources := by
    intro p hp
    obtain ⟨q, hq, rfl⟩ := mem_map.1 (mem_reverse.1 hp)
    exact (mem_of_named hq).2
  obtain ⟨p, hp, rfl⟩ := exists_named hcolumns hlabel
  obtain ⟨e, he⟩ : ∃ e, (((m.named u).map fun p => (p.1, m.outer p)).reverse).lookup p.1 = some e := by
    rw [← Option.isSome_iff_exists, lookup_isSome_iff]
    exact ⟨_, mem_reverse.2 (mem_map_of_mem hp), beq_self_eq_true _⟩
  obtain ⟨q, hq, hqe⟩ := mem_map.1 (mem_reverse.1 (mem_of_lookup he))
  obtain ⟨hpq, rfl⟩ := Prod.mk.inj hqe
  refine ⟨m.outer q, hd.extend hlive hkeys he (lookup_eq_none_of_label fun x hx hxlabel => ?_), rfl,
    mem_append_right _ (mem_map_of_mem hq), fun ν hν => ?_⟩
  · have hx := hsound.pairs x hx
    rw [hxlabel] at hx
    exact (hx.1.trans_le (Nat.lt_succ_iff.1 hx.2.2)).false
  · exact ⟨_, q.1, Select.column?_of_mem (headers_wrapper_nodup m u) (mem_map_of_mem hq), rfl, hpq ▸ hlabel, hpq ▸ hν⟩

theorem Tree.Exposes.join {columns : List ColumnRef} {kind : JoinKind} {l r l' r' : Tree}
    {c c' : Option Tree} {i j : Option Identity} {ν ν' : ColumnMatch}
    (hl : l.Exposes columns l' ν m) (hr : r.Exposes columns r' ν' m)
    (apart : ∀ a ∈ r.sources, a ∉ l.sources) (apart' : ∀ a ∈ r'.sources, a ∉ l'.sources) :
    (join ⟨kind, l, r, c⟩ i).Exposes columns (.join ⟨kind, l', r', c'⟩ j)
      (joinMatch l.sources l'.sources ν ν') m := by
  intro c hc hlabel
  rcases mem_append.1 hlabel with hlabel | hlabel
  · obtain ⟨d, hd, hu, hν, hcolumns⟩ := hl c hc hlabel
    exact ⟨d, hd, mem_append_left _ hu, .inl ⟨hlabel, hu, hν⟩, hcolumns⟩
  · obtain ⟨d, hd, hu, hν, hcolumns⟩ := hr c hc hlabel
    exact ⟨d, hd, mem_append_right _ hu, .inr ⟨apart _ hlabel, apart' _ hu, hν⟩, hcolumns⟩

theorem JoinVisits.exposes {l r l' r' : Tree} {c c' : Option Tree} {ν ν' : ColumnMatch}
    {m₁ m₂ m₃ : Isolation} {own : List Alias} (h : JoinVisits first st l r c l' r' c' m₁ m₂ st')
    (kind : JoinKind) (i j : Option Identity) (hl : l.Exposes st.columns l' ν m₁)
    (hr : r.Exposes m₁.columns r' ν' m₂) (hm : m₂.Extends own m₃)
    (hown : ∀ x ∈ own, x ∈ c.toList.flatMap declared) :
    (join ⟨kind, l, r, c⟩ i).Exposes st.columns (.join ⟨kind, l', r', c'⟩ j)
      (joinMatch l.sources l'.sources ν ν') m₃ := by
  have hsides : (join ⟨kind, l, r, c⟩ i).Exposes st.columns (.join ⟨kind, l', r', c'⟩ j)
      (joinMatch l.sources l'.sources ν ν') m₂ := by
    refine .join (hl.after h.untouchedRest.sound h.keepsRight.extends_declared h.untouchedRight.below
      fun a ha => ⟨h.apart a ha, ?_⟩) (fun c hc => hr c (h.keepsLeft.state.columns c hc))
      (fun a ha ha' => ?_) fun a ha ha' => ?_
    · exact (h.untouchedLeft.lt_next a (l.sources_sublist.subset ha)).trans_le h.keepsLeft.state.next
    · exact h.apart a ha' (r.sources_sublist.subset ha)
    · exact (nodup_append.1 h.sources.nodup).2.2 a ha' a ha rfl
  exact hsides.after h.untouchedCondition.sound hm (fun x hx => h.untouchedCondition.below x (hown x hx))
    fun a ha => ⟨fun hmem => h.apart_condition a ha (hown a hmem), h.lt_next a ha⟩

theorem Tree.Exposes.wrap {columns : List ColumnRef} {ν : ColumnMatch} (h : t.Exposes columns u ν m)
    (hisolated : t.Isolated st u m) (hst : st.Untouched first t.declared) :
    t.Exposes columns (.select (m.wrapper u) none) ((m.wrapper u).passes ν) (m.wrapping u) := by
  intro c hc hlabel
  obtain ⟨d, hd, hu, hν, hd'⟩ := h c hc hlabel
  obtain ⟨e, he, helabel, hecolumns, hpasses⟩ := Isolation.leads_wrapper
    (hisolated.state.sound hst.sound) hisolated.live (hisolated.sources_lt hst) hd hu hd'
  exact ⟨e, he, mem_singleton.2 helabel, hpasses ν hν, hecolumns⟩

theorem Isolation.wrapper_isBare (m : Isolation) (u : Tree) : (m.wrapper u).IsBare where
  filter := rfl
  order := rfl
  group := by
    have hcolumns : ((m.wrapper u).columns.any fun c => c.value.hasAggregate) = false := by
      rw [any_eq_false]
      intro d hd
      obtain ⟨p, _, rfl⟩ := mem_map.1 hd
      exact Bool.false_ne_true
    rw [Select.isGrouped, Select.hasAggregates, hcolumns]
    rfl
  distinct := rfl
  skip := rfl
  take := rfl
  reverse := rfl
  columns := by
    intro d hd
    obtain ⟨p, _, rfl⟩ := mem_map.1 hd
    rfl

theorem JoinStep.refines (h : JoinStep t st u st') (ih : ∀ v ∈ t.children, v.Isolates env k first)
    (placed : t.JoinsInSources) (hst : st.Untouched first t.declared) (hμ : μ.Follows first st t)
    (hcolumns : t.ReadsIn st.columns) :
    ∃ ν, t.Exposes st.columns u ν st' ∧ ∀ top, Refines env k (.source top μ ν t u) := by
  cases h with
  | @mk kind l r l' r' c c' i j _ m form children =>
    have hl : l ∈ (join ⟨kind, l, r, c⟩ i).children := mem_cons_self
    have hr : r ∈ (join ⟨kind, l, r, c⟩ i).children := .tail _ (.head _)
    have hdeclared := declared_join kind l r c i
    -- the state in which the left side is visited
    have hst₀ : Isolation.Untouched first { st with parent := some kind }
        (join ⟨kind, l, r, c⟩ i).declared := hst.of_eq rfl rfl
    have hμ₀ : μ.Follows first { st with parent := some kind } (.join ⟨kind, l, r, c⟩ i) := hμ.of_eq rfl rfl
    obtain ⟨m₁, m₂, visits⟩ := JoinVisits.of_threaded children (fun v _ => v.keeps first) (hdeclared ▸ hst₀)
    have hleft := visits.keepsLeft
    -- the left side
    obtain ⟨ν, hexposes, hside, -⟩ := (ih l hl _ _ _ μ visits.left visits.untouchedLeft
      (hμ₀.child hst₀ hl (.refl _) (by simp))).source (hcolumns.child hl)
    -- the right side, which sees the left one if the join is an apply
    have hμr : Reads.Follows first (if kind.isApply then μ.within l.sources l'.sources ν else μ) m₁ r := by
      have hown : ∀ x ∈ l.declared, x ∈ (join ⟨kind, l, r, c⟩ i).declared := fun x hx =>
        (declared_of_child hl).subset hx
      split
      · refine hμ₀.within hst₀ hr hleft.extends_declared hown (fun x hx => ?_) hleft.sources
          fun x hx hlabel => ?_
        · exact ⟨hown x (l.sources_sublist.subset hx), visits.apart x hx⟩
        · obtain ⟨d, hd, hu, hν, -⟩ := hexposes x (hcolumns.child hr x hx) hlabel
          exact ⟨d, hd, hu, hν⟩
      · exact hμ₀.child hst₀ hr hleft.extends_declared hown
    obtain ⟨ν', hexposes', hside', -⟩ := (ih r hr _ _ _ _ visits.right visits.untouchedRight hμr).source
      fun x hx => hleft.state.columns x (hcolumns.child hr x hx)
    -- both of them
    have hexposes₂ := visits.exposes kind i j hexposes hexposes' (.refl _) nofun
    have hexposes₃ := visits.exposes kind i j hexposes hexposes' visits.keepsCondition fun _ h => h
    refine ⟨_, hexposes₃, fun top => ?_⟩
    refine .joined kind i j hside hside' form fun t u ht hu => ?_
    subst ht hu
    have ht : t ∈ (join ⟨kind, l, r, some t⟩ i).children := by simp
    cases visits.condition with
    | cons hvisit _ =>
    refine (ih t ht _ _ _ _ hvisit (visits.untouchedCondition.sublist (by simp)) ?_).scalar
      (placed.operand (by simp [operands]))
    refine hμ₀.within hst₀ ht visits.extendsSides (fun x hx => ?_) (fun x hx => ?_) visits.sources
      fun x hx hlabel => ?_
    · rw [hdeclared, ← append_assoc]
      exact mem_append_left _ hx
    · exact ⟨(join ⟨kind, l, r, some t⟩ i).sources_sublist.subset hx,
        by simpa using visits.apart_condition x hx⟩
    · obtain ⟨d, hd, hu, hν, -⟩ := hexposes₂ x (hcolumns.child ht x hx) hlabel
      exact ⟨d, hd, hu, hν⟩

/-! ## Whole trees -/

theorem Select.mem_others : a ∈ s.others ↔ a ∈ s.inner ++ s.cluster ++ s.bounds :=
  ({ s with source := none } : Select Tree).clauses_perm.mem_iff

theorem Select.source_refines {s' : Select Tree} (same : Option.Rel (fun _ _ => True) s.source s'.source)
    (parent : st.parent = none)
    (h : Threaded IsolatesTo s.source.toList st s'.source.toList m)
    (ih : ∀ t, s.source = some t → t.Isolates env k first)
    (hst : st.Untouched first (s.source.toList.flatMap declared))
    (hμ : ∀ t, s.source = some t → μ.Follows first st t)
    (hcolumns : ∀ t, s.source = some t → t.ReadsIn st.columns) :
    ∃ ν, (∀ t u, s.source = some t → s'.source = some u → Refines env k (.source true μ ν t u)) ∧
      Supplied st.next m.next s.sourceAliases s'.sourceAliases ∧
      ∀ c ∈ st.columns, c.label ∈ s.sourceAliases →
        ∃ d, Leads m.replaced c d ∧ d.label ∈ s'.sourceAliases ∧ ν c d := by
  unfold sourceAliases
  generalize s.source = o, s'.source = o' at *
  cases same with
  | none => exact ⟨sameName, by simp, .refl _ _ nodup_nil, by simp⟩
  | @some t u =>
    cases h with
    | cons head rest =>
      cases rest
      have hst : st.Untouched first t.declared := by simpa using hst
      have hisolated := keeps first t _ _ _ head hst
      obtain ⟨ν, hexposes, -, hsource⟩ := (ih t rfl _ _ _ μ head hst (hμ t rfl)).source (hcolumns t rfl)
      refine ⟨ν, ?_, hisolated.sources, fun c hc hlabel => ?_⟩
      · rintro _ _ ⟨rfl⟩ ⟨rfl⟩
        exact hsource parent true
      · obtain ⟨d, hd, hu, hν, -⟩ := hexposes c hc hlabel
        exact ⟨d, hd, hu, hν⟩

theorem Select.isolated_refines {s' : Select Tree} {i : Option Identity}
    (same : s.SameHead s')
    (clauses : Threaded IsolatesTo s.clauses
      { st with columns := (select s i).readColumns, parent := none } s'.clauses m)
    (ih : ∀ t ∈ s.clauses, t.Isolates env k first) (placed : (select s i).JoinsInSources)
    (hst : st.Untouched first (select s i).declared) (hμ : μ.Follows first st (.select s i)) (top : Bool) :
    Refines env k (.select top μ s s') := by
  -- the state in which the source is visited
  have hst₀ : Isolation.Untouched first { st with columns := (select s i).readColumns, parent := none }
      (select s i).declared := hst.of_eq rfl rfl
  have hμ₀ : μ.Follows first { st with columns := (select s i).readColumns, parent := none }
      (.select s i) := hμ.of_eq rfl rfl
  have hst₀' := hst₀.sublist (s.declared_eq i ▸ sublist_cons_self _ _)
  have hread : (select s i).ReadsIn (select s i).readColumns := fun _ => mem_readColumns
  have hsource : ∀ t, s.source = some t → t ∈ s.clauses := fun t ht => mem_clauses.2 (.inl ht)
  obtain ⟨m₁, source, others⟩ := clauses.source same
  have hstate := (source.isolated (fun v _ => v.keeps first) (hst₀'.sublist (sublist_append_left _ _))).1
  obtain ⟨ν, hrefines, hsupplied, hlinks⟩ := source_refines same.source rfl source
    (fun t ht => ih t (hsource t ht)) (hst₀'.sublist (sublist_append_left _ _))
    (fun t ht => hμ₀.child hst₀ (hsource t ht) (.refl _) (by simp))
    fun t ht => hread.child (hsource t ht)
  have hst₁ := hst₀'.after hstate
  have hothers : ∀ a ∈ s.others, a ∈ s.clauses ∧ a.isJoin = false := fun a ha =>
    ⟨mem_clauses.2 (.inr ha), placed.operand (mem_others.1 ha)⟩
  have hvisited := others.visited hst₁
  refine .select_of_same (same.of_others (option_rel_imp same.source fun _ _ _ h => h)
    (forall₂_imp_mem hvisited fun a b ha hab => And.intro ha hab)) ?_
    (fun t u ht hu _ => hrefines t u ht hu) ?_ ?_ top
  · exact fun a b hab => (ih a (hothers a hab.1).1).hasAggregate (hothers a hab.1).2 hab.2
  · rintro a - b - ⟨ha, ma, mb, hma, hunread, hvisit⟩
    have hsources : ∀ x ∈ s.sourceAliases, x ∈ s.source.toList.flatMap declared := by
      intro x hx
      obtain ⟨t, ht, hxt⟩ := mem_sourceAliases.1 hx
      exact mem_flatMap.2 ⟨t, by simp [ht], t.sources_sublist.subset hxt⟩
    have hapart : ∀ x ∈ s.sourceAliases, x ∉ s.others.flatMap declared := fun x hx hx' =>
      (nodup_append.1 hst₀'.nodup).2.2 x (hsources x hx) x hx' rfl
    refine (ih a (hothers a ha).1 _ _ _ _ hvisit hunread ?_).scalar (hothers a ha).2
    refine hμ₀.within hst₀ (hothers a ha).1 (hstate.trans hma) (fun x hx => ?_) (fun x hx => ?_)
      (hsupplied.mono hma.next) fun c hc hlabel => ?_
    · rw [s.declared_eq]
      exact .tail _ hx
    · refine ⟨?_, fun hx' => hapart x hx (mem_flatMap.2 ⟨a, ha, hx'⟩)⟩
      rw [s.declared_eq]
      exact .tail _ (mem_append_left _ (hsources x hx))
    · obtain ⟨d, hd, hu, hν⟩ := hlinks c (hread.child (hothers a ha).1 c hc) hlabel
      refine ⟨d, hma.leads hst₁.sound hst₁.below (hapart _ hlabel) ?_ hd, hu, hν⟩
      have hlt := hst₀'.lt_next _ (mem_append_left _ (hsources _ hlabel))
      exact hlt.trans_le hstate.next
  · rintro a - b - ⟨ha, ma, mb, hma, hunread, hvisit⟩
    refine (ih a (hothers a ha).1 _ _ _ _ hvisit hunread ?_).scalar (hothers a ha).2
    refine hμ₀.child hst₀ (hothers a ha).1 (hstate.trans hma) fun x hx => ?_
    rw [s.declared_eq]
    exact .tail _ hx

/-- A visited tree refines the tree. -/
theorem Tree.isolates_refines (wraps : k.wraps = true) (partly : k.total = false) (placed : t.JoinsInSources) :
    t.Isolates env k first := by
  induction t with
  | step t ih =>
    have ih : ∀ a ∈ t.children, a.Isolates env k first := fun a ha => ih a ha (placed.child ha)
    intro st u st' μ h hst hμ
    have hisolated := keeps first t _ _ _ h hst
    cases h.step with
    | column c =>
      refine ⟨fun _ => .column fun hlabel => ?_, fun _ => ⟨sameName, .of_live hisolated rfl,
        .plain (.notSource _ _ rfl rfl), fun _ top => .notSource _ _ rfl rfl⟩⟩
      obtain ⟨d, hd, hright, hrel⟩ := hμ.links c (mem_subtrees.2 (.inl rfl)) hlabel
      rw [(hst.sound.leads c).unique hd]
      exact ⟨hright, hrel⟩
    | @select s s' i j _ m label same clauses =>
      have hselect := Select.isolated_refines same clauses ih placed hst hμ
      refine ⟨fun _ => .query i j (hselect true), fun _ => ⟨sameName, ?_, ?_, ?_⟩⟩
      · exact .of_live hisolated (congrArg (fun a => [a]) label)
      · exact .plain (.source_of_select i j (hselect false))
      · exact fun _ top => .source_of_select i j (hselect top)
    | join step =>
      refine ⟨fun hjoin => ?_, fun hcolumns => ?_⟩
      · cases step
        cases hjoin
      · obtain ⟨ν, hexposes, hsource⟩ := step.refines ih placed hst hμ hcolumns
        exact ⟨ν, hexposes, .plain (hsource false), fun _ => hsource⟩
    | @wrap _ v _ m mixed step =>
      obtain ⟨_, -, hmixes⟩ := mixed
      have hjoin : t.isJoin = true := by cases step; rfl
      refine ⟨fun h => ?_, fun hcolumns => ?_⟩
      · rw [hjoin] at h
        cases h
      · obtain ⟨ν, hexposes, hsource⟩ := step.refines ih placed hst hμ hcolumns
        have hv := step.isolated (fun a _ => a.keeps first) hst
        refine ⟨_, hexposes.wrap hv hst, ?_, fun hnone => by rw [hnone] at hmixes; cases hmixes⟩
        exact .wrapped none wraps partly hjoin (hsource false) rfl (Isolation.wrapper_isBare m v)
    | node select join column same children =>
      have hchildren := t.children_declared_sublist
      have hvisited := children.visited (hst.sublist hchildren)
      have hsource : ∀ top, Refines env k (.source top μ sameName t u) := by
        intro top
        cases same with
        | table a name => exact .table top μ a a name
        | select => cases select
        | join => cases join
        | _ => exact .notSource top μ rfl rfl
      have hsources : u.sources = t.sources := by
        rw [sources_eq_label? join, sources_eq_label? (same.isJoin.trans join), same.label?]
      have hoperands : t.operands = t.children := by
        cases t with
        | select => cases select
        | join => cases join
        | _ => rfl
      refine ⟨fun _ => ?_, fun _ => ⟨sameName, .of_live hisolated hsources, .plain (hsource false),
        fun _ => hsource⟩⟩
      refine .scalar_of_sameNode (same.of_children (forall₂_imp_mem hvisited
        fun a b ha hab => And.intro ha hab)) select column ?_ ?_
      · exact fun a b hab => (ih a hab.1).hasAggregate (placed.operand (hoperands ▸ hab.1)) hab.2
      · rintro - a ha b ⟨-, ma, mb, hma, hunread, hvisit⟩
        refine (ih a ha _ _ _ _ hvisit hunread ?_).scalar (placed.operand (hoperands ▸ ha))
        exact hμ.child hst ha hma fun x hx => hchildren.subset hx

theorem Tree.isolatesTo_of_run {next next' : Alias} (h : t.isolateCrossJoins.run next = (u, next')) :
    ∃ st, t.IsolatesTo ⟨next, [], [], none⟩ u st ∧ st.next = next' := by
  obtain ⟨rfl, rfl⟩ := Prod.mk.inj h
  exact ⟨_, rfl, rfl⟩

theorem Isolation.untouched_start {aliases : List Alias} (nodup : aliases.Nodup)
    (below : ∀ a ∈ aliases, a < first) : Untouched first ⟨first, [], [], none⟩ aliases where
  sound := ⟨le_rfl, by simp⟩
  nodup := nodup
  below := below
  unread := by simp

theorem Tree.isolateCrossJoins_refines (wraps : k.wraps = true) (partly : k.total = false)
    {next next' : Alias} (nodup : t.declared.Nodup) (below : ∀ a ∈ t.declared, a < next)
    (placed : t.JoinsInSources) (h : t.isolateCrossJoins.run next = (u, next')) (hs : t.query? = some s) :
    ∃ s', u.query? = some s' ∧ ∃ top, Refines env k (.select top (.same []) s s') := by
  obtain ⟨st, hvisit, -⟩ := isolatesTo_of_run h
  have hst := Isolation.untouched_start nodup below
  have hselect : ∀ {s : Select Tree} {i : Option Identity} {m m' : Isolation} {v : Tree},
      (select s i).JoinsInSources → (select s i).IsolatesTo m v m' →
      m.Untouched next (select s i).declared →
      ∃ s' j, v = .select s' j ∧ ∃ top, Refines env k (.select top (.same []) s s') := by
    intro s i m m' v placed hvisit hm
    have hisolates : (select s i).Isolates env k next := isolates_refines wraps partly placed
    have hscalar := (hisolates _ _ _ _ hvisit hm (.nothing next m _)).scalar rfl
    obtain ⟨top, s', j, rfl, hrefines⟩ := hscalar.exists_query
    exact ⟨s', j, rfl, top, hrefines⟩
  rcases query_cases hs with ⟨i, rfl⟩ | ⟨j, shape, i, rfl⟩
  · obtain ⟨s', j, rfl, hrefines⟩ := hselect placed hvisit hst
    exact ⟨s', rfl, hrefines⟩
  · have hq : select s j ∈ (projection (.select s j) shape i).children := mem_cons_self
    cases hvisit.step with
    | join step | wrap _ step => cases step
    | node _ _ _ same children =>
    cases same with
    | projection =>
    cases children with
    | cons head _ =>
    obtain ⟨s', j', rfl, hrefines⟩ := hselect (placed.child hq) head (hst.sublist (declared_of_child hq))
    exact ⟨s', rfl, hrefines⟩

/-- Isolating the cross joins of a query keeps its headers and its rows, in their order, wherever the
joins stand and of whichever kinds they are. -/
theorem Tree.isolateCrossJoins_run {t t' : Tree} {next next' : Alias} {r r' : Relation}
    (nodup : t.declared.Nodup) (below : ∀ a ∈ t.declared, a < next) (placed : t.JoinsInSources)
    (isolated : t.isolateCrossJoins.run next = (t', next')) (run : t.run env = .ok r)
    (run' : t'.run env = .ok r') : r' = r := by
  obtain ⟨s, hs, hrun⟩ := exists_query run
  let k : Mode := ⟨false, false, false, true, false⟩
  obtain ⟨s', hs', top, hrefines⟩ : ∃ s', t'.query? = some s' ∧
      ∃ top, Refines env k (.select top (.same []) s s') :=
    isolateCrossJoins_refines rfl rfl nodup below placed isolated hs
  rw [run_of_query hs'] at run'
  exact ((hrefines.run_agree (.of_not_asked rfl rfl) r hrun).2 r' run').symm

def sampleStores : Environment where
  dataset :=
    [("stores", ⟨["city"], [[.string "Oslo"], [.string "Rome"]]⟩),
      ("items", ⟨["item"], [[.string "pen"], [.string "ink"]]⟩),
      ("sales", ⟨["place", "item"], [[.string "Rome", .string "pen"]]⟩)]
  arguments := []

/-- Every item in every store, and the place if it was sold there. The cross join of stores and items
stands below an outer join. -/
def soldItems : Tree :=
  .select
    { label := 3
      columns := [stringColumn 0 "city", stringColumn 1 "item", stringColumn 2 "place"]
      source := some (.join
        { kind := .leftOuter
          left := .join ⟨.cross, .table 0 "stores", .table 1 "items", none⟩ none
          right := .table 2 "sales"
          condition := some (.binary .and
            (.binary .equal (stringColumn 0 "city").value (stringColumn 2 "place").value)
            (.binary .equal (stringColumn 1 "item").value (stringColumn 2 "item").value)) } none) }
    none

theorem isolateCrossJoins_run_soldItems :
    soldItems.declared.Nodup ∧ (∀ a ∈ soldItems.declared, a < 4) ∧ soldItems.JoinsInSources ∧
      ∃ t' r', soldItems.isolateCrossJoins.run 4 = (t', 5) ∧ t'.run sampleStores = .ok r' ∧
        r' = ⟨["city", "item", "place"],
          [[.string "Oslo", .string "pen", .null], [.string "Oslo", .string "ink", .null],
            [.string "Rome", .string "pen", .string "Rome"], [.string "Rome", .string "ink", .null]]⟩ := by
  have nodup : soldItems.declared.Nodup := by decide
  have below : ∀ a ∈ soldItems.declared, a < 4 := by decide
  have placed : soldItems.JoinsInSources := by decide
  obtain ⟨r', run'⟩ : ∃ r', (soldItems.isolateCrossJoins.run 4).1.run sampleStores = .ok r' := ⟨_, rfl⟩
  exact ⟨nodup, below, placed, _, r', rfl, run', isolateCrossJoins_run nodup below placed rfl rfl run'⟩

end HiveQuery
