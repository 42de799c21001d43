import HiveQuery.Proofs.Composition
import HiveQuery.Proofs.Meaning
import HiveQuery.Proofs.PulledFilters
import HiveQuery.Proofs.RowNumberTrees
import HiveQuery.Scope

/-!
# Trees without applies

An apply evaluates its right side for each row on its left, with the filter in front of the order. The join it
becomes evaluates the right side once, and tests the filter on what is delivered. Both give the same rows if
sorting orders the keys of a select whose filter is pulled out, also on the rows which the filter drops.
-/

namespace HiveQuery
open List HiveQuery.Tree
variable {env : Environment} {k : Mode} {μ : Reads} {t u : Tree} {d : ColumnRef}
  {columns : List (Column Tree)} {c : Option Tree} {s : Select Tree}

/-! ## What lowering keeps -/

theorem FilterPulled.grow (h : FilterPulled s c columns) : ColumnsGrow s.sourceAliases s.columns columns := by
  cases h with
  | none => exact .refl _ _
  | some _ run => exact (projectFilter_run run).1

theorem FilterPulled.rerouted (h : FilterPulled s c columns) :
    Option.Rel (Rerouted (Projects s.sourceAliases s.label columns)) s.filter c := by
  cases h with
  | none filter => rw [filter]; exact .none
  | some filter run => rw [filter]; exact .some (projectFilter_run run).2

theorem LowersApply.sources (h : LowersApply t u) : u.sources = t.sources := by
  cases h <;> rfl

theorem Tree.lowerApplies_sources (t : Tree) : t.lowerApplies.sources = t.sources :=
  lowerApplies_rel (fun same hv => hv.sources.trans (same.sources fun _ _ h => h)) t

theorem Tree.SameNode.declared {R : Tree → Tree → Prop} (h : t.SameNode R u)
    (hR : ∀ a b, R a b → b.declared.Perm a.declared) : u.declared.Perm t.declared := by
  rw [declared_eq, declared_eq, h.label?]
  exact .append_left _ (flatMap_rel (r := List.Perm) .nil .append (h.children.imp hR))

theorem flatMap_declared_of_columns {inner : List Alias}
    (h : ∀ col ∈ columns, ∃ c : ColumnRef, col.value = .column c ∧ c.label ∈ inner) :
    (columns.map Column.value).flatMap declared = [] := by
  rw [flatMap_eq_nil_iff]
  intro v hv
  obtain ⟨col, hcol, rfl⟩ := mem_map.1 hv
  obtain ⟨c, hc, -⟩ := h col hcol
  rw [hc]
  rfl

theorem appliedJoin_declared (kind : JoinKind) (c : Option Tree) :
    (appliedJoin kind c).2.toList.flatMap declared = c.toList.flatMap declared := by
  cases kind <;> cases c <;> rfl

theorem LowersApply.declared (h : LowersApply t u) : u.declared.Perm t.declared := by
  cases h with
  | kept => exact .refl _
  | @table kind =>
    rw [declared_eq, declared_eq]
    simp only [children, flatMap_cons, appliedJoin_declared]
    exact .refl _
  | @select kind l s c columns i j apply plain unread pulled =>
    obtain ⟨extra, rfl, hextra⟩ := pulled.grow.split
    have hfilter : c.toList.flatMap declared = s.filter.toList.flatMap declared := by
      rw [flatMap_def, flatMap_def,
        map_eq_of_forall₂ (optionRel_iff.1 pulled.rerouted) fun _ _ h => h.declared]
    rw [declared_eq, declared_eq]
    simp only [children, flatMap_cons, appliedJoin_declared, hfilter]
    rw [declared_eq (.select _ none), declared_eq (.select s j)]
    simp only [children, Select.clauses, flatMap_append, map_append,
      flatMap_declared_of_columns hextra, label?, Option.toList_none, Option.toList_some,
      flatMap_nil, append_nil, nil_append, append_assoc, cons_append]
    refine .append_left _ (.cons _ (.append_left _ ?_))
    simp only [← append_assoc]
    exact perm_append_comm.trans (by simp only [append_assoc]; exact .refl _)

/-- Lowering applies keeps what a tree declares, up to the order. -/
theorem Tree.lowerApplies_declared (t : Tree) : t.lowerApplies.declared.Perm t.declared :=
  lowerApplies_rel (R := fun t u => u.declared.Perm t.declared)
    (fun same hv => hv.declared.trans (same.declared fun _ _ h => h)) t

theorem Tree.lowerApplies_mem_declared {a : Alias} : a ∈ t.lowerApplies.declared ↔ a ∈ t.declared :=
  t.lowerApplies_declared.mem_iff

theorem FilterPulled.mem_columns (h : FilterPulled s c columns) (hlabel : d.label ≠ s.label)
    (hinner : d.label ∉ s.sourceAliases) :
    ((∃ a ∈ c.toList, .column d ∈ a.subtrees) ↔ ∃ a ∈ s.filter.toList, .column d ∈ a.subtrees) ∧
      ((∃ a ∈ columns.map Column.value, .column d ∈ a.subtrees) ↔
        ∃ a ∈ s.columns.map Column.value, .column d ∈ a.subtrees) := by
  constructor
  · have hfilter := h.rerouted
    revert hfilter
    generalize s.filter = o
    rintro (hrerouted | _)
    · simp only [Option.toList_some, mem_singleton, exists_eq_left]
      constructor
      · intro hd
        obtain ⟨e, he, hed⟩ := hrerouted.exists_left hd
        rcases hed with ⟨-, rfl⟩ | ⟨-, heq, -⟩
        · exact he
        · exact absurd heq hlabel
      · intro hd
        obtain ⟨e, he, hde⟩ := hrerouted.exists_right hd
        rcases hde with ⟨-, rfl⟩ | ⟨hmem, -⟩
        · exact he
        · exact absurd hmem hinner
    · simp
  · obtain ⟨extra, rfl, hextra⟩ := h.grow.split
    simp only [map_append, mem_append, or_and_right, exists_or]
    refine or_iff_left ?_
    rintro ⟨a, ha, hd⟩
    obtain ⟨col, hcol, rfl⟩ := mem_map.1 ha
    obtain ⟨e, he, hmem⟩ := hextra col hcol
    rw [he, mem_subtrees] at hd
    rcases hd with heq | ⟨_, hb, _⟩
    · cases heq
      exact hinner hmem
    · cases hb

theorem Tree.mem_subtrees_join {kind : JoinKind} {l r : Tree} {i : Option Identity} :
    .column d ∈ (join ⟨kind, l, r, c⟩ i).subtrees ↔
      .column d ∈ l.subtrees ∨ .column d ∈ r.subtrees ∨ ∃ a ∈ c.toList, .column d ∈ a.subtrees := by
  rw [mem_subtrees]
  simp only [reduceCtorEq, false_or, children, mem_cons, or_and_right, exists_or, exists_eq_left]

theorem Select.mem_clauses_unfiltered {a : Tree} :
    a ∈ s.clauses ↔ (a ∈ s.columns.map Column.value ∨
      a ∈ ({ s with filter := none, columns := [] } : Select Tree).clauses) ∨ a ∈ s.filter.toList := by
  simp only [clauses, mem_append, Option.toList_none, map_nil, not_mem_nil, or_false]
  tauto

theorem Tree.mem_subtrees_select {i : Option Identity} :
    .column d ∈ (select s i).subtrees ↔
      ((∃ a ∈ s.columns.map Column.value, .column d ∈ a.subtrees) ∨
        ∃ a ∈ ({ s with filter := none, columns := [] } : Select Tree).clauses,
          .column d ∈ a.subtrees) ∨
      ∃ a ∈ s.filter.toList, .column d ∈ a.subtrees := by
  rw [mem_subtrees]
  simp only [reduceCtorEq, false_or, children, Select.mem_clauses_unfiltered (s := s), or_and_right,
    exists_or]

theorem appliedJoin_columns (kind : JoinKind) (c : Option Tree) (d : ColumnRef) :
    (∃ a ∈ (appliedJoin kind c).2.toList, .column d ∈ a.subtrees) ↔
      ∃ a ∈ c.toList, .column d ∈ a.subtrees := by
  have htrue : .column d ∉ (constant (.boolean true)).subtrees := by
    rw [subtrees_eq]
    simp
  cases kind <;> cases c <;> simp [appliedJoin, htrue]

theorem LowersApply.mem_columns (h : LowersApply t u) (hd : d.label ∉ t.declared) :
    .column d ∈ u.subtrees ↔ .column d ∈ t.subtrees := by
  cases h with
  | kept => exact Iff.rfl
  | table => rw [mem_subtrees_join, mem_subtrees_join, appliedJoin_columns]
  | @select kind l s c columns i j apply plain unread pulled =>
    have hs : Tree.select s j ∈ (Tree.join ⟨kind, l, .select s j, none⟩ i).children := by
      simp
    have hd' : d.label ∉ (Tree.select s j).declared := fun h =>
      hd ((declared_of_child hs).subset h)
    have hlabel : d.label ≠ s.label := by
      intro heq
      rw [declared_eq] at hd'
      exact hd' (heq ▸ mem_cons_self)
    have hinner : d.label ∉ s.sourceAliases := fun h =>
      hd' ((Tree.select s j).brings_sublist.subset h)
    obtain ⟨hcondition, hcolumns⟩ := pulled.mem_columns hlabel hinner
    rw [mem_subtrees_join, mem_subtrees_join, appliedJoin_columns, hcondition,
      mem_subtrees_select, mem_subtrees_select, hcolumns]
    simp only [Option.toList_none, not_mem_nil, false_and, exists_false, or_false]

theorem Tree.lowerApplies_columns (hd : d.label ∉ t.declared) :
    .column d ∈ t.lowerApplies.subtrees ↔ .column d ∈ t.subtrees := by
  induction t with
  | step t ih =>
    obtain ⟨v, same, hv⟩ := t.lowerApplies_node
    have hdeclared : v.declared.Perm t.declared := same.declared fun a b hab => hab ▸ a.lowerApplies_declared
    rw [hv.mem_columns (fun h => hd (hdeclared.mem_iff.1 h)), mem_subtrees, mem_subtrees]
    refine or_congr ?_ ?_
    · cases same <;> simp
    · constructor
      · rintro ⟨b, hb, hcolumn⟩
        obtain ⟨a, ha, rfl⟩ := forall₂_mem_right same.children hb
        refine ⟨a, ha, (ih a ha fun h => hd ?_).1 hcolumn⟩
        exact (declared_of_child ha).subset h
      · rintro ⟨a, ha, hcolumn⟩
        obtain ⟨b, hb, rfl⟩ := forall₂_mem_left same.children ha
        refine ⟨_, hb, (ih a ha fun h => hd ?_).2 hcolumn⟩
        exact (declared_of_child ha).subset h

theorem Tree.eq_table_of_lowerApplies {a : Alias} {name : String}
    (h : t.lowerApplies = .table a name) : t = .table a name := by
  obtain ⟨v, same, hv⟩ := t.lowerApplies_node
  rw [h] at hv
  cases hv
  cases same
  rfl

theorem Tree.exists_select_of_lowerApplies {s' : Select Tree} {j : Option Identity}
    (h : t.lowerApplies = .select s' j) :
    ∃ s i, t = .select s i ∧ s'.label = s.label ∧
      s.SameClauses (fun a b => b = a.lowerApplies) (fun a b => b = a.lowerApplies) s' := by
  obtain ⟨v, same, hv⟩ := t.lowerApplies_node
  rw [h] at hv
  cases hv
  cases same with
  | select i _ hlabel same => exact ⟨_, i, rfl, hlabel, same⟩

theorem appliedJoin_hasAggregate (kind : JoinKind) (c : Option Tree) :
    (appliedJoin kind c).2.toList.any hasAggregate = c.toList.any hasAggregate := by
  cases kind <;> cases c <;> rfl

theorem LowersApply.hasAggregate (h : LowersApply t u) : u.hasAggregate = t.hasAggregate := by
  cases h with
  | kept => rfl
  | table =>
    rw [hasAggregate_eq, hasAggregate_eq (.join _ _)]
    simp only [children, any_cons, appliedJoin_hasAggregate]
    rfl
  | @select kind l s c columns i j apply plain unread pulled =>
    have hcondition : c.toList.any hasAggregate = false := by
      have h := (Select.isPlain_iff.1 plain).2.2.2.2
      simp only [Select.hasAggregates, Bool.or_eq_false_iff] at h
      rw [any_eq_of_forall₂ (optionRel_iff.1 pulled.rerouted) fun _ _ h => h.hasAggregate]
      cases hfilter : s.filter <;> simp_all
    rw [hasAggregate_eq, hasAggregate_eq (.join _ _)]
    simp only [children, any_cons, appliedJoin_hasAggregate, hcondition]
    rfl

theorem Tree.lowerApplies_hasAggregate (t : Tree) : t.lowerApplies.hasAggregate = t.hasAggregate :=
  lowerApplies_rel (fun same hv => hv.hasAggregate.trans (same.hasAggregate fun _ _ h => h)) t

/-! ## Scopes -/

/-- A tree reads the same columns on both sides, and none of its own aliases is in scope around it. -/
structure Reads.Sees (μ : Reads) (t : Tree) : Prop where
  apart : ∀ a ∈ μ.left, a ∉ t.declared
  links : ∀ c, .column c ∈ t.subtrees → μ.Links c c

theorem Reads.Sees.child {μ : Reads} {a : Tree} (h : μ.Sees t) (ha : a ∈ t.children) : μ.Sees a :=
  ⟨fun x hx hx' => h.apart x hx ((declared_of_child ha).subset hx'),
    fun c hc => h.links c (mem_subtrees.2 (.inr ⟨a, ha, hc⟩))⟩

theorem Reads.Sees.within {μ : Reads} {a : Tree} {new : List Alias} {ν : ColumnMatch} (h : μ.Sees t)
    (ha : a ∈ t.children) (hnew : ∀ x ∈ new, x ∈ t.declared ∧ x ∉ a.declared) (hν : ν.Keeps new) :
    (μ.within new new ν).Sees a := by
  refine ⟨fun x hx hx' => ?_, fun c hc hleft => ?_⟩
  · rcases mem_append.1 hx with hx | hx
    · exact (hnew x hx).2 hx'
    · exact (h.child ha).apart x hx hx'
  · by_cases hc' : c.label ∈ new
    · exact ⟨mem_append_left _ hc', .inl ⟨hc', hc', hν c c hc' rfl rfl⟩⟩
    · obtain ⟨hright, hrel⟩ := (h.child ha).links c hc ((mem_append.1 hleft).resolve_left hc')
      exact ⟨mem_append_right _ hright, .inr ⟨hc', hc', hrel⟩⟩

theorem Reads.sees_rule : ScopedRule fun μ t => t.declared.Nodup ∧ μ.Sees t :=
  .of_nodup fun h ha hnew hν => h.within ha hnew hν

def Reads.exactly (scope : List Alias) : Reads :=
  ⟨scope, scope, fun c d => d = c⟩

theorem Reads.composes_exactly (μ : Reads) : (exactly μ.left).Composes μ μ where
  left := rfl
  middle _ ha := ha
  right := rfl
  rel := by
    rintro c _ e rfl h
    exact h

theorem Reads.Sees.beyond {hidden : List Alias} (apart : ∀ a ∈ hidden ++ μ.left, a ∉ t.declared)
    (links : ∀ c, .column c ∈ t.subtrees → c.label ∉ hidden ∧ μ.Links c c) :
    (μ.beyond hidden).Sees t := by
  refine ⟨apart, fun c hc hleft => ?_⟩
  obtain ⟨hhidden, hlinks⟩ := links c hc
  obtain ⟨hright, hrel⟩ := hlinks ((mem_append.1 hleft).resolve_left hhidden)
  exact ⟨hright, hhidden, hrel⟩

/-! ## Applies -/

def Tree.NamesDistinct (t : Tree) : Prop :=
  t.Every fun u => ∀ s, u.select? = some s → s.headers.Nodup

/-- No select on the right of an apply numbers its rows. -/
def Tree.AppliesUnnumbered (t : Tree) : Prop :=
  t.Every fun u => ∀ j, u.join? = some j → j.kind.isApply = true →
    ∀ s, j.right.select? = some s → ∀ d ∈ s.columns, d.value.isRowNumber = false

/-- No select whose filter becomes the condition of a join numbers its rows. -/
def Tree.PullsUnnumbered (t : Tree) : Prop :=
  t.Every fun u => ∀ j, u.join? = some j → j.lowerApply?.isSome = true →
    ∀ s, j.right.select? = some s → s.filter.isSome = true → ∀ d ∈ s.columns, d.value.isRowNumber = false

theorem Tree.AppliesUnnumbered.pulls (h : t.AppliesUnnumbered) : t.PullsUnnumbered := by
  intro u hu j hj hlowered s hs _
  refine h u hu j hj ?_ s hs
  cases happly : j.kind.isApply with
  | true => rfl
  | false =>
    rw [Join.lowerApply?, happly, Bool.not_false, Bool.true_or, if_pos rfl] at hlowered
    cases hlowered

instance (t : Tree) : Decidable t.NamesDistinct :=
  inferInstanceAs (Decidable (t.Every _))

instance (t : Tree) : Decidable t.AppliesUnnumbered :=
  inferInstanceAs (Decidable (t.Every _))

instance (t : Tree) : Decidable t.PullsUnnumbered :=
  inferInstanceAs (Decidable (t.Every _))

theorem Select.declared_unfiltered (s : Select Tree) (i j : Option Identity) :
    (Tree.select { s with filter := none } i).declared.Sublist (Tree.select s j).declared := by
  rw [Tree.declared_eq, Tree.declared_eq]
  simp only [Tree.children, Select.clauses, flatMap_append, append_assoc, Tree.label?]
  refine .append (.refl _) (.append (.refl _) ?_)
  exact sublist_append_right _ _

theorem Select.clauses_unfiltered {a : Tree} (ha : a ∈ ({ s with filter := none } : Select Tree).clauses) :
    a ∈ s.clauses :=
  mem_clauses_unfiltered.2 (.inl ((mem_clauses_unfiltered.1 ha).resolve_right (by simp)))

/-- The right side of an apply whose filter is pulled out, together with what it was before. -/
structure Select.Applied (j : Option Identity) (l : Tree) (s s' : Select Tree) (c : Option Tree)
    (columns : List (Column Tree)) : Prop where
  nodup : (Tree.select s j).declared.Nodup
  apart : ∀ a ∈ l.sources, a ∉ (Tree.select s j).declared
  label : s'.label = s.label
  same : s.SameClauses (fun a b => b = a.lowerApplies) (fun a b => b = a.lowerApplies) s'
  plain : s'.isPlain = true
  unread : ∀ a ∈ l.sources, a ∉ (Tree.select { s' with filter := none } none).referenced
  pulled : FilterPulled s' c columns

namespace Select.Applied

variable {l : Tree} {s s' : Select Tree} {c : Option Tree} {columns : List (Column Tree)}
  {i j : Option Identity} {kind : JoinKind} (h : s.Applied j l s' c columns)
include h

theorem sourceAliases : s'.sourceAliases = s.sourceAliases :=
  h.same.sourceAliases fun a _ hab => hab ▸ a.lowerApplies_sources

theorem unfiltered :
    SameClauses (fun a b => b = a.lowerApplies) (fun a b => b = a.lowerApplies)
      { s with filter := none } { s' with filter := none } :=
  { h.same with filter := .none }

theorem unread_of_mem (hd : .column d ∈ (select { s with filter := none } i).subtrees) :
    d.label ∉ l.sources := by
  intro hl
  rcases mem_subtrees.1 hd with heq | ⟨a, ha, hd⟩
  · cases heq
  obtain ⟨b, hb, rfl⟩ := forall₂_mem_left h.unfiltered.clauses ha
  have hs : a ∈ (select s j).children := clauses_unfiltered ha
  have ha' : d.label ∉ a.declared := fun h' =>
    h.apart _ hl ((declared_of_child hs).subset h')
  refine h.unread _ hl (mem_map.2 ⟨d, mem_allColumns.2 ?_, rfl⟩)
  exact mem_subtrees.2 (.inr ⟨_, hb, (lowerApplies_columns ha').2 hd⟩)

theorem plain_left : s.isPlain = true := by
  rw [← h.same.isPlain fun a b hab => hab ▸ a.lowerApplies_hasAggregate]
  exact h.plain

theorem unread_left : ∀ a ∈ (select { s with filter := none } none).referenced, a ∉ l.sources := by
  intro a ha
  obtain ⟨d, hd, rfl⟩ := mem_map.1 ha
  exact h.unread_of_mem (mem_allColumns.1 hd)

theorem pullsFrom (filter : s.filter.isSome = true) : s.pullsFrom l.sources = true := by
  simpa [Select.pullsFrom, filter, h.plain_left] using h.unread_left

theorem sees (hμ : μ.Sees (.select s j)) (i : Option Identity) :
    (μ.beyond l.sources).Sees (.select { s with filter := none } i) := by
  refine .beyond (fun a ha hdeclared => ?_) fun d hd => ⟨h.unread_of_mem hd, ?_⟩
  · have hdeclared := (declared_unfiltered s i j).subset hdeclared
    rcases mem_append.1 ha with ha | ha
    · exact h.apart a ha hdeclared
    · exact hμ.apart a ha hdeclared
  · rw [mem_subtrees_select] at hd
    exact hμ.links d (mem_subtrees_select.2 (.inl (hd.resolve_right (by simp))))

theorem rerouted {f : Tree} (hf : s.filter = some f) (hu : c = some u) :
    f.lowerApplies.Rerouted (Projects s.sourceAliases s.label columns) u := by
  have hpulled := h.pulled.rerouted
  rw [h.sourceAliases, h.label] at hpulled
  obtain ⟨f', hf', hrerouted⟩ := option_rel_exists hpulled hu
  exact option_rel_of_some h.same.filter hf hf' ▸ hrerouted

theorem nodup_columns (names : s.headers.Nodup) : (columns.map Column.name).Nodup := by
  refine h.pulled.grow.nodup ?_
  have hnames : s'.columns.map Column.name = s.headers := map_eq_of_forall₂ h.same.columns fun _ _ h => h.1
  rwa [hnames]

theorem links (names : s.headers.Nodup) {ν ν₀ : ColumnMatch}
    (hν : ν.Keeps l.sources) (hν₀ : ν₀.Keeps s.sourceAliases) (hlabel : s.label ∉ l.sources) {e : ColumnRef}
    (hde : Projects s.sourceAliases s.label columns d e)
    (houter : d.label ∈ μ.left → d.label ≠ s.label ∧ μ.Links d d) :
    (μ.pulled l.sources l.lowerApplies.sources ν s { s' with filter := none, columns := columns }
      ν₀).Links d e := by
  intro hd
  rw [l.lowerApplies_sources]
  rcases hde with ⟨hinner, rfl⟩ | ⟨hinner, hlabel', col, hcol, hname, hequal⟩
  · by_cases hl : e.label ∈ l.sources
    · exact ⟨mem_append_left _ (mem_append_left _ hl), .inr (.inl ⟨hinner, hl, hl, hν e e hl rfl rfl⟩)⟩
    · have hleft := (mem_append.1 ((mem_append.1 hd).resolve_left hinner)).resolve_left hl
      obtain ⟨hne, hlinks⟩ := houter hleft
      obtain ⟨hright, hrel⟩ := hlinks hleft
      exact ⟨mem_append_right _ hright,
        .inr (.inr ⟨hinner, hl, hl, fun heq => hne (heq.trans h.label), hrel⟩)⟩
  · obtain ⟨x, hx, hxlabel, hxname⟩ := exists_of_equal_column hequal
    have hnodup : ({ s' with filter := none, columns := columns } : Select Tree).headers.Nodup :=
      h.nodup_columns names
    have hcolumn := column?_of_mem hnodup hcol
    rw [hname] at hcolumn
    refine ⟨?_, .inl ⟨hinner, hlabel' ▸ hlabel, hlabel'.trans h.label.symm, col, x, hcolumn, hx, ?_, ?_⟩⟩
    · refine mem_append_left _ (mem_append_right _ (mem_singleton.2 ?_))
      exact hlabel'.trans h.label.symm
    · have hsources : ({ s' with filter := none, columns := columns } : Select Tree).sourceAliases =
          s.sourceAliases := h.sourceAliases
      rw [hsources, hxlabel]
      exact hinner
    · exact hν₀ d x hinner hxlabel hxname

theorem condition (partly : k.total = false) (pages : k.pages = false) (names : s.headers.Nodup)
    (ih : ∀ a ∈ s.clauses, ∀ {μ : Reads}, μ.Sees a → Replaces env k μ a a.lowerApplies)
    (hμ : μ.Sees (.select s j)) {ν ν₀ : ColumnMatch} (hν : ν.Keeps l.sources)
    (hν₀ : ν₀.Keeps s.sourceAliases) {f : Tree} (hf : s.filter = some f) (hu : c = some u) :
    Refines env k (.scalar (μ.pulled l.sources l.lowerApplies.sources ν s
      { s' with filter := none, columns := columns } ν₀) f u) := by
  have hmem : f ∈ (Tree.select s j).children := by simp [Select.clauses, hf]
  have hdeclared := (declared_of_child hmem).subset
  have hlabel : s.label ∈ (Tree.select s j).declared := by
    rw [Tree.declared_eq]
    exact mem_cons_self
  have hlabel' : s.label ∉ f.declared := by
    have hnodup := h.nodup
    rw [Tree.declared_eq] at hnodup
    exact fun ha => (nodup_cons.1 hnodup).1 (mem_flatMap.2 ⟨f, hmem, ha⟩)
  -- what is declared in the filter is not in scope around it
  have hinner : ∀ a ∈ s.sourceAliases, a ∉ f.declared := fun a ha =>
    (apart_of_inner h.nodup (by simp [Select.inner, hf]) a ha).2
  have hscope : ∀ a ∈ s.sourceAliases ++ (l.sources ++ μ.left), a ∉ f.declared := by
    intro a ha hf
    rcases mem_append.1 ha with ha | ha
    · exact hinner a ha hf
    rcases mem_append.1 ha with ha | ha
    · exact h.apart a ha (hdeclared hf)
    · exact hμ.apart a ha (hdeclared hf)
  have hfirst := (ih f hmem (μ := .exactly _) ⟨hscope, fun _ _ hc => ⟨hc, rfl⟩⟩).scalar
  have hsecond : Refines env ⟨false, false, false, false, false⟩ (.scalar (μ.pulled l.sources
      l.lowerApplies.sources ν s { s' with filter := none, columns := columns } ν₀)
        f.lowerApplies u) := by
    refine ((h.rerouted hf hu).replaces ?_ ⟨fun d e hd hde => ?_, ?_, ?_⟩).scalar
    · exact f.lowerApplies_declared.nodup_iff.2 (h.nodup.sublist (declared_of_child hmem))
    · refine h.links names hν hν₀ (fun ha => h.apart _ ha hlabel) hde fun hd' => ⟨fun heq => ?_, ?_⟩
      · exact hμ.apart _ hd' (heq ▸ hlabel)
      · refine hμ.links d (mem_subtrees.2 (.inr ⟨f, hmem, ?_⟩))
        exact (lowerApplies_columns fun ha => hμ.apart _ hd' (hdeclared ha)).1 hd
    · rintro d e - (⟨-, rfl⟩ | ⟨hmem, -⟩) hd
      · rfl
      · exact absurd (lowerApplies_mem_declared.1 hd) (hinner _ hmem)
    · rintro d e - (⟨-, rfl⟩ | ⟨-, heq, -⟩) hd
      · rfl
      · rw [heq] at hd
        exact absurd (lowerApplies_mem_declared.1 hd) hlabel'
  exact hsecond.after ⟨pages, rfl, partly, rfl, id, id, by simp, by simp, by simp⟩
    (Reads.composes_exactly _) hfirst

section

variable (applies : k.applies = true) (partly : k.total = false) (pages : k.pages = false)
  (apply : kind.isApply = true)
include applies partly pages apply

theorem refines (filter : s.filter.isSome = true)
    (names : s.headers.Nodup) (unnumbered : ∀ d ∈ s.columns, d.value.isRowNumber = false)
    (hl : Replaces env k μ l l.lowerApplies)
    (ih : ∀ a ∈ s.clauses, ∀ {μ : Reads}, μ.Sees a → Replaces env k μ a a.lowerApplies)
    (hμ : μ.Sees (.select s j)) :
    ∃ ν : ColumnMatch, ν.Keeps (l.sources ++ [s.label]) ∧ ∀ top, Refines env k
      (.source top μ ν (.join ⟨kind, l, .select s j, none⟩ i)
        (.join ⟨(appliedJoin kind c).1, l.lowerApplies,
          .select { s' with filter := none, columns := columns } none, (appliedJoin kind c).2⟩ none)) := by
  obtain ⟨ν, hν, hleft⟩ := hl.source
  obtain ⟨extra, hsplit, hextra⟩ := h.pulled.grow.split
  have hunfiltered := h.sees hμ none
  have hnodup := h.nodup.sublist (declared_unfiltered s none j)
  obtain ⟨ν₀, hν₀, hsource⟩ := Reads.sees_rule.selectSource h.unfiltered.source
    (fun a ha b hab {_} hμ => hab ▸ ih a (clauses_unfiltered ha) hμ.2) ⟨hnodup, hunfiltered⟩
  -- columns and sort keys see the source of the select, and nothing of the left side
  have hinner : ∀ a ∈ ({ s with filter := none } : Select Tree).inner,
      Refines env k (.scalar ((μ.beyond l.sources).within s.sourceAliases s'.sourceAliases ν₀) a
        a.lowerApplies) := by
    intro a ha
    have hmem := mem_clauses_of_inner _ ha
    rw [h.sourceAliases]
    refine (ih a (clauses_unfiltered hmem) ?_).scalar
    exact hunfiltered.within hmem (apart_of_inner hnodup ha) hν₀
  have hvalue : ∀ p ∈ s.columns.zip s'.columns, Refines env k
      (.scalar ((μ.beyond l.sources).within s.sourceAliases s'.sourceAliases ν₀) p.1.value
        p.2.value) := by
    intro p hp
    rw [((forall₂_iff_zip.1 h.same.columns).2 hp).2]
    exact hinner _ (mem_append_right _ (mem_map_of_mem (of_mem_zip hp).1))
  refine ⟨joinMatch l.sources l.lowerApplies.sources ν sameName, ?_, fun top => ?_⟩
  · rw [l.lowerApplies_sources]
    exact hν.join (.of_sameName _)
  refine .applied kind s'.columns extra i none j none applies partly apply (.plain (hleft false))
    (h.pullsFrom filter) ?_ rfl h.same.reverse hsplit (map_eq_of_forall₂ h.same.columns fun _ _ h => h.1) unnumbered ?_
    (option_isSome_eq h.same.source) hsource hvalue (map_eq_of_forall₂ h.same.order fun _ _ h => h.1)
    ?_ ?_ fun f u hf hu => h.condition partly pages names ih hμ hν hν₀ hf hu
  · obtain ⟨hskip, htake, hdistinct, hgroup, haggregates⟩ := isPlain_iff.1 h.plain
    refine isPlain_iff.2 ⟨hskip, htake, hdistinct, hgroup, ?_⟩
    have hextra' : extra.any (fun d => d.value.hasAggregate) = false := by
      rw [any_eq_false]
      intro d hd
      obtain ⟨x, hx, -⟩ := hextra d hd
      rw [hx]
      exact Bool.false_ne_true
    simp only [hasAggregates, Bool.or_eq_false_iff] at haggregates ⊢
    rw [hsplit, any_append, haggregates.2, hextra']
    exact ⟨⟨rfl, haggregates.1.2⟩, rfl⟩
  · intro d hd
    rw [hsplit] at hd
    rcases mem_append.1 hd with hd | hd
    · obtain ⟨d₀, hd₀, hzip⟩ := exists_zip_of_mem h.same.columns.length_eq.symm hd
      rw [(hvalue _ hzip).isRowNumber]
      exact unnumbered d₀ hd₀
    · obtain ⟨x, hx, -⟩ := hextra d hd
      rw [hx]
      rfl
  · intro p hp
    rw [((forall₂_iff_zip.1 h.same.order).2 hp).2]
    exact hinner _ (mem_inner_of_mem_order (s := { s with filter := none }) (of_mem_zip hp).1)
  · rw [option_isSome_eq h.pulled.rerouted, option_isSome_eq h.same.filter]

theorem refines_unfiltered (filter : s.filter = none)
    (hl : Replaces env k μ l l.lowerApplies) {j' : Option Identity}
    (hr : ∀ {μ : Reads}, μ.Sees (.select s j) → Replaces env k μ (.select s j) (.select s' j'))
    (hμ : μ.Sees (.select s j)) :
    ∃ ν : ColumnMatch, ν.Keeps (l.sources ++ [s.label]) ∧ ∀ top, Refines env k
      (.source top μ ν (.join ⟨kind, l, .select s j, none⟩ i)
        (.join ⟨(appliedJoin kind c).1, l.lowerApplies,
          .select { s' with filter := none, columns := columns } none, (appliedJoin kind c).2⟩ none)) := by
  have hsees : (μ.beyond l.sources).Sees (.select s j) := by
    have hunfiltered := h.sees hμ j
    rwa [← filter] at hunfiltered
  obtain ⟨ν, hν, hleft⟩ := hl.source
  obtain ⟨ν', hν', hright⟩ := (hr hsees).source
  obtain ⟨rfl, _, _, ⟨⟩, hselect⟩ := (hright false).source_to_select (.inl pages)
  have hfilter : s'.filter = none := eq_none_of_isSome_eq (option_isSome_eq h.same.filter) filter
  cases h.pulled with
  | some filter' => cases hfilter.symm.trans filter'
  | none =>
    refine ⟨joinMatch l.sources l.lowerApplies.sources ν sameName, ?_, fun top => ?_⟩
    · rw [l.lowerApplies_sources]
      exact hν.join hν'
    have hside : Refines env k (.side (μ.beyond l.sources) sameName (.select s j)
        (.select (s'.widen []) none)) := .plain (.widened [] j none hselect nofun nofun nofun nofun)
    have heq : ({ s' with filter := none, columns := s'.columns } : Select Tree) = s' := by rw [← hfilter]
    rw [Refines.widen_nil] at hside
    rw [heq]
    exact .uncorrelated kind i none applies partly apply (.plain (hleft false)) hside

end

end Select.Applied

/-! ## Whole trees -/

section

variable (applies : k.applies = true) (partly : k.total = false) (pages : k.pages = false)
include applies partly pages

/-- A tree without applies refines the tree. -/
theorem Tree.lowerApplies_replaces (nodup : t.declared.Nodup) (names : t.NamesDistinct)
    (unnumbered : t.PullsUnnumbered) (hμ : μ.Sees t) : Replaces env k μ t t.lowerApplies := by
  induction t using grandchildren_induction generalizing μ with
  | step t ihs =>
    have ih : ∀ a ∈ t.children, ∀ {μ : Reads}, μ.Sees a → Replaces env k μ a a.lowerApplies :=
      fun a ha _ hμ => (ihs a ha).1 (nodup.sublist (declared_of_child ha))
        (names.child ha) (unnumbered.child ha) hμ
    have haggregate := t.lowerApplies_hasAggregate
    obtain ⟨v, same, hv⟩ := t.lowerApplies_node
    by_cases hcolumn : t.column? = none
    · generalize t.lowerApplies = u at hv haggregate
      cases hv with
      | kept =>
        refine Reads.sees_rule.replaces ?_ ?_ same hcolumn (fun a ha b hab {_} hμ => hab ▸ ih a ha hμ.2) ⟨nodup, hμ⟩
        · exact fun a b hab => hab ▸ a.lowerApplies_sources
        · exact fun a b hab => hab ▸ a.lowerApplies_hasAggregate
      | table l a name i apply =>
        cases same with
        | @join _ l₀ _ _ _ _ _ i₀ _ hl hr hc =>
          obtain rfl := eq_table_of_lowerApplies hr.symm
          cases hc
          obtain ⟨ν, hν, hleft⟩ := (ih l₀ mem_cons_self (hμ.child mem_cons_self)).source
          rw [hl] at haggregate ⊢
          refine ⟨.inert μ rfl rfl haggregate, joinMatch l₀.sources l₀.lowerApplies.sources ν sameName, ?_,
            fun top => .uncorrelated _ i₀ none applies partly apply (.plain (hleft false))
              (.plain (.table false _ a a name))⟩
          rw [l₀.lowerApplies_sources]
          exact hν.join (.of_sameName _)
      | @select kind _ s _ _ i j apply plain unread pulled =>
        cases same with
        | @join _ l₀ _ _ _ _ _ i₀ _ hl hr hc =>
          obtain ⟨s₀, j₀, rfl, hlabel, hsame⟩ := exists_select_of_lowerApplies hr.symm
          cases hc
          have hmem : ∀ {kind}, select s₀ j₀ ∈
              (join ⟨kind, l₀, .select s₀ j₀, none⟩ i₀).children := by
            simp
          obtain ⟨hnodup', hnames', hunnumbered'⟩ :=
            And.intro (nodup.sublist (declared_of_child hmem))
              (And.intro (names.child hmem) (unnumbered.child hmem))
          rw [hl] at unread haggregate ⊢
          rw [l₀.lowerApplies_sources] at unread
          have happlied : s₀.Applied j₀ l₀ _ _ _ := ⟨hnodup', fun a ha => (apart_of_right nodup a ha).2, hlabel,
            hsame, plain, unread, pulled⟩
          have hμ' := hμ.child hmem
          have hleft := ih l₀ mem_cons_self (hμ.child mem_cons_self)
          refine ⟨.inert μ rfl rfl haggregate, ?_⟩
          cases hfilter : s₀.filter with
          | none =>
            have hright : ∀ {μ : Reads}, μ.Sees (.select s₀ j₀) →
                Replaces env k μ (.select s₀ j₀) (.select s j) := by
              rw [hr]
              exact ih _ hmem
            exact happlied.refines_unfiltered applies partly pages apply hfilter hleft hright hμ'
          | some f =>
            have hfilter : s₀.filter.isSome = true := by rw [hfilter]; rfl
            have hlowered : (Join.lowerApply? ⟨kind, l₀, .select s₀ j₀, none⟩).isSome = true := by
              simpa [Join.lowerApply?, apply, happlied.plain_left] using happlied.unread_left
            have hunnumbered := (every_iff.1 unnumbered).1 _ rfl hlowered s₀ rfl hfilter
            refine happlied.refines applies partly pages apply hfilter ((every_iff.1 hnames').1 s₀ rfl)
              hunnumbered hleft (fun a ha _ hμ => ?_) hμ'
            have ha' : a ∈ (select s₀ j₀).children := ha
            exact (ihs _ hmem).2 a ha (hnodup'.sublist (declared_of_child ha'))
              (hnames'.child ha) (hunnumbered'.child ha) hμ
    · cases same with
      | column c =>
        generalize (column c).lowerApplies = u at hv
        cases hv
        exact ⟨.column (hμ.links c (mem_subtrees.2 (.inl rfl))), sameName, .of_sameName _,
          fun top => .notSource top μ rfl rfl⟩
      | _ => exact absurd rfl hcolumn

theorem Tree.lowerApplies_refines (nodup : t.declared.Nodup) (names : t.NamesDistinct)
    (unnumbered : t.PullsUnnumbered) (hs : t.query? = some s) :
    ∃ s', t.lowerApplies.query? = some s' ∧ ∃ top, Refines env k (.select top (.same []) s s') := by
  have hnothing : ∀ u : Tree, (Reads.same []).Sees u := fun u => ⟨by simp [Reads.same], nofun⟩
  rcases query_cases hs with ⟨i, rfl⟩ | ⟨j, shape, i, rfl⟩
  · obtain ⟨top, s', j, hlowered, hrefines⟩ := (lowerApplies_replaces applies partly pages nodup
      names unnumbered (hnothing (.select s i))).scalar.exists_query
    exact ⟨s', by rw [hlowered]; rfl, top, hrefines⟩
  · have hq : select s j ∈ (projection (.select s j) shape i).children := mem_cons_self
    obtain ⟨top, s', j', hlowered, hrefines⟩ := (lowerApplies_replaces applies partly pages
      (nodup.sublist (declared_of_child hq)) (names.child hq)
      (unnumbered.child hq) (hnothing (.select s j))).scalar.exists_query
    obtain ⟨v, same, hv⟩ := lowerApplies_node (.projection (.select s j) shape i)
    cases same with
    | projection _ _ hq' =>
      generalize (projection (.select s j) shape i).lowerApplies = u at hv
      cases hv
      rw [hq', hlowered]
      exact ⟨s', rfl, top, hrefines⟩

end

theorem Tree.lowerApplies_agree (nodup : t.declared.Nodup) (names : t.NamesDistinct)
    (unnumbered : t.PullsUnnumbered)
    (sortable : ∀ s, t.query? = some s → UnfilteredSortable (s.keyRanges env true [])) :
    Run.Agree false Eq (t.run env) (t.lowerApplies.run env) := by
  intro r run
  obtain ⟨s, hs, hrun⟩ := exists_query run
  let k : Mode := ⟨false, false, true, false, false⟩
  obtain ⟨s', hs', top, hrefines⟩ : ∃ s', t.lowerApplies.query? = some s' ∧
      ∃ top, Refines env k (.select top (.same []) s s') :=
    lowerApplies_refines rfl rfl rfl nodup names unnumbered hs
  rw [run_of_query hs']
  exact hrefines.run_agree ⟨nofun, fun _ => sortable s hs⟩ r hrun

/-- Lowering the applies of a query keeps its headers and its rows, in their order, if sorting orders the
keys of each select whose filter becomes a join condition, also on the rows that the filter drops. -/
theorem Tree.lowerApplies_run {r r' : Relation} (nodup : t.declared.Nodup) (names : t.NamesDistinct)
    (unnumbered : t.AppliesUnnumbered)
    (sortable : ∀ s, t.query? = some s → UnfilteredSortable (s.keyRanges env true []))
    (run : t.run env = .ok r) (run' : t.lowerApplies.run env = .ok r') : r' = r :=
  ((lowerApplies_agree nodup names unnumbered.pulls sortable r run).2 r' run').symm

/-! ## Notes on customers -/

def intColumn (label : Alias) (name : String) : Column Tree :=
  ⟨name, .column ⟨.int64, ScalarType.int64.columnType, label, name⟩, ScalarType.int64.columnType⟩

def rankedNotes (kind : JoinKind) : Tree :=
  .select
    { label := 3
      columns := [intColumn 0 "id", intColumn 2 "rank"]
      source := some (.join
        { kind := kind
          left := .table 0 "customers"
          right := .select
            { label := 2
              columns := [intColumn 1 "rank"]
              source := some (.table 1 "notes")
              filter := some (.binary .equal (intColumn 1 "customer").value (intColumn 0 "id").value)
              order := [⟨.ascending, (intColumn 1 "rank").value⟩] } none } none) }
    none

def sampleNotes : Environment where
  dataset :=
    [("customers", ⟨["id"], [[.int 1], [.int 2]]⟩),
      ("notes", ⟨["customer", "rank"], [[.int 1, .int 2], [.int 3, .int 0], [.int 1, .int 1]]⟩)]
  arguments := []

theorem lowerApplies_run_rankedNotes :
    (rankedNotes .outerApply).declared.Nodup ∧ (rankedNotes .outerApply).NamesDistinct ∧
      (rankedNotes .outerApply).AppliesUnnumbered ∧
      (∀ s, (rankedNotes .outerApply).query? = some s →
        UnfilteredSortable (s.keyRanges sampleNotes true [])) ∧
      ∃ r', (rankedNotes .outerApply).lowerApplies.run sampleNotes = .ok r' ∧
        r' = ⟨["id", "rank"], [[.int 1, .int 1], [.int 1, .int 2], [.int 2, .null]]⟩ := by
  have nodup : (rankedNotes .outerApply).declared.Nodup := by decide
  have names : (rankedNotes .outerApply).NamesDistinct := by decide
  have unnumbered : (rankedNotes .outerApply).AppliesUnnumbered := by decide
  have sortable : ∀ s ∈ (rankedNotes .outerApply).query?,
      UnfilteredSortable (s.keyRanges sampleNotes true []) := by decide
  obtain ⟨r', run'⟩ : ∃ r', (rankedNotes .outerApply).lowerApplies.run sampleNotes = .ok r' := ⟨_, rfl⟩
  exact ⟨nodup, names, unnumbered, sortable, r', run',
    lowerApplies_run nodup names unnumbered sortable rfl run'⟩

def mixedNotes : Environment where
  dataset :=
    [("customers", ⟨["id"], [[.int 1]]⟩),
      ("notes", ⟨["customer", "rank"], [[.int 1, .int 2], [.int 0, .string "a"], [.int 1, .int 1]]⟩)]
  arguments := []

/-- The notes that are not on the customer are sorted along with the others after lowering. A rank that
compares with no number keeps the ranks around it apart, and they stay in their order. -/
theorem lowerApplies_run_mixedNotes :
    (rankedNotes .crossApply).declared.Nodup ∧ (rankedNotes .crossApply).NamesDistinct ∧
      (rankedNotes .crossApply).AppliesUnnumbered ∧
      (rankedNotes .crossApply).checkScopes = .ok () ∧
      (rankedNotes .crossApply).run mixedNotes =
        .ok ⟨["id", "rank"], [[.int 1, .int 1], [.int 1, .int 2]]⟩ ∧
      (rankedNotes .crossApply).lowerApplies.run mixedNotes =
        .ok ⟨["id", "rank"], [[.int 1, .int 2], [.int 1, .int 1]]⟩ :=
  ⟨by decide, by decide, by decide, rfl, rfl, rfl⟩

/-! ## Numbered notes on customers -/

/-- Lowering the applies of a query keeps its headers and its rows, in their order and with their numbers, if
no select whose filter becomes a join condition numbers its rows. A select without a filter, or one
whose apply stays, may number them. -/
theorem Tree.lowerApplies_run_pulled {r r' : Relation} (nodup : t.declared.Nodup) (names : t.NamesDistinct)
    (unnumbered : t.PullsUnnumbered)
    (sortable : ∀ s, t.query? = some s → UnfilteredSortable (s.keyRanges env true []))
    (run : t.run env = .ok r) (run' : t.lowerApplies.run env = .ok r') : r' = r :=
  ((lowerApplies_agree nodup names unnumbered sortable r run).2 r' run').symm

def numberedNotes (filter : Option Tree) (take : Option Tree) : Tree :=
  .select
    { label := 3
      columns := [intColumn 0 "id", intColumn 2 "rank", intColumn 2 "n"]
      source := some (.join
        { kind := .crossApply
          left := .table 0 "customers"
          right := .select
            { label := 2
              columns := [intColumn 1 "rank", ⟨"n", .rowNumber [⟨.ascending, (intColumn 1 "rank").value⟩],
                ScalarType.int64.columnType⟩]
              source := some (.table 1 "notes")
              filter := filter
              take := take } none } none) }
    none

def ofCustomer : Tree := .binary .equal (intColumn 1 "customer").value (intColumn 0 "id").value

theorem lowerApplies_run_numberedNotes :
    (numberedNotes none none).declared.Nodup ∧ (numberedNotes none none).NamesDistinct ∧
      (numberedNotes none none).PullsUnnumbered ∧
      (numberedNotes (some ofCustomer) (some (.int 5))).PullsUnnumbered ∧
      (∀ s, (numberedNotes none none).query? = some s →
        UnfilteredSortable (s.keyRanges sampleNotes true [])) ∧
      ∃ r', (numberedNotes none none).lowerApplies.run sampleNotes = .ok r' ∧
        r' = ⟨["id", "rank", "n"], [[.int 1, .int 2, .int 3], [.int 1, .int 0, .int 1],
          [.int 1, .int 1, .int 2], [.int 2, .int 2, .int 3], [.int 2, .int 0, .int 1],
          [.int 2, .int 1, .int 2]]⟩ := by
  have nodup : (numberedNotes none none).declared.Nodup := by decide
  have names : (numberedNotes none none).NamesDistinct := by decide
  have unnumbered : (numberedNotes none none).PullsUnnumbered := by decide
  have sortable : ∀ s ∈ (numberedNotes none none).query?,
      UnfilteredSortable (s.keyRanges sampleNotes true []) := by decide
  obtain ⟨r', run'⟩ : ∃ r', (numberedNotes none none).lowerApplies.run sampleNotes = .ok r' := ⟨_, rfl⟩
  exact ⟨nodup, names, unnumbered, by decide, sortable, r', run',
    lowerApplies_run_pulled nodup names unnumbered sortable rfl run'⟩

/-- Behind a filter the notes on the customer are counted, and after lowering all notes are. -/
example :
    (numberedNotes (some ofCustomer) none).run sampleNotes =
        .ok ⟨["id", "rank", "n"], [[.int 1, .int 2, .int 2], [.int 1, .int 1, .int 1]]⟩ ∧
      (numberedNotes (some ofCustomer) none).lowerApplies.run sampleNotes =
        .ok ⟨["id", "rank", "n"], [[.int 1, .int 2, .int 3], [.int 1, .int 1, .int 2]]⟩ :=
  ⟨rfl, rfl⟩

end HiveQuery
