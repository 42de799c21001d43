import HiveQuery.Proofs.BoundAccesses
import HiveQuery.Proofs.RelabeledJoins
import HiveQuery.Proofs.UniqueLookups

/-!
# Lookups as joins

A lookup reads the row that it is applied to in its filter only. If applies are lowered, the filter becomes the
condition of an outer join, in which the keys of the other entity are read from columns that pass them on.
-/

namespace HiveQuery
open List HiveQuery.Tree

variable {d : ColumnRef} {m : EntityMap} {l : Lookup} {filter : Option Tree} {t : Tree}

/-! ## Lookups that are joined -/

section Flat

open Relator

variable {t : Tree}

def Tree.isFlat : Tree → Bool
  | .constant v => !v.isInexact
  | .binary _ _ _ | .column _ => true
  | _ => false

def Tree.Flat (t : Tree) : Prop :=
  t.Every fun u => u.isFlat = true

theorem Tree.Flat.column (c : ColumnRef) : (column c).Flat := every_iff.2 ⟨rfl, nofun⟩

theorem Tree.flat_binary {op : BinaryOp} {l r : Tree} : (binary op l r).Flat ↔ l.Flat ∧ r.Flat := by
  rw [Flat, every_iff]
  simp [isFlat, Flat]

theorem Tree.Flat.definite (h : t.Flat) : t.Definite := by
  rintro u hu v rfl
  have hv := h _ hu
  show Value.beq v v = true
  cases v <;> simp_all [isFlat, Value.isInexact, Value.beq]

theorem Tree.Flat.hasAggregate (h : t.Flat) : t.hasAggregate = false := by
  induction t with
  | step t ih =>
    obtain ⟨hnode, hchildren⟩ := every_iff.1 h
    have hany : t.children.any Tree.hasAggregate = false :=
      any_eq_false.2 fun a ha => by simp [ih a ha (hchildren a ha)]
    rw [hasAggregate_eq, hany]
    cases t <;> first | rfl | cases hnode

theorem Tree.Flat.hasAggregate_option {o : Option Tree} (h : ∀ f ∈ o, f.Flat) :
    o.any Tree.hasAggregate = false := by
  cases o with
  | none => rfl
  | some f => exact (h f rfl).hasAggregate

theorem Tree.Flat.declared (h : t.Flat) : t.declared = [] := by
  rw [Tree.declared, filterMap_eq_nil_iff]
  intro u hu
  have hnode := h u hu
  cases u <;> first | rfl | cases hnode

theorem allOf_rel {β : Type} {R : Tree → β → Prop} {op : β → β → β} {conditions : List Tree} {bs : List β}
    (h : Forall₂ R conditions bs)
    (and : ∀ {c b d b'}, R c b → R d b' → R (.binary .and c d) (op b b')) :
    Option.Rel R (allOf conditions) (bs.head?.map fun b => bs.tail.foldl op b) := by
  cases h with
  | nil => exact .none
  | cons hc hcs =>
    have hfold : (R ⇒ R ⇒ R) (binary .and) op := fun _ _ hc _ _ hd => and hc hd
    exact .some (rel_foldl hfold hc hcs)

end Flat

section Pulled

variable {inner : List Alias} {label : Alias} {columns : List (Column Tree)} {c : ColumnRef}

theorem projectFilter_binary {op : BinaryOp} {l l' r r' : Tree}
    (hl : (projectFilter inner label l).run columns = (l', columns))
    (hr : (projectFilter inner label r).run columns = (r', columns)) :
    (projectFilter inner label (.binary op l r)).run columns = (.binary op l' r', columns) := by
  have h : projectFilter inner label (.binary op l r) = (do
    let l ← projectFilter inner label l
    let r ← projectFilter inner label r
    return .binary op l r) := by
    simp only [projectFilter, bottomUp, visit, bind_assoc, pure_bind]
    rfl
  rw [h, StateT.run_bind, hl]
  show (projectFilter inner label r >>= fun r => pure (binary op l' r)).run columns = _
  rw [StateT.run_bind, hr]
  rfl

theorem projectFilter_column (h : (projectColumn inner label c).run columns = (d, columns)) :
    (projectFilter inner label (.column c)).run columns = (.column d, columns) := by
  show (projectColumn inner label c >>= fun c => pure (column c)).run columns = _
  rw [StateT.run_bind, h]
  rfl

theorem projectColumn_inside {d : Column Tree} (hinner : c.label ∈ inner)
    (hd : columns.find? (fun d => d.value.equal (.column c)) = some d) :
    (projectColumn inner label c).run columns = (⟨c.type, c.columnType, label, d.name⟩, columns) := by
  rw [projectColumn, if_pos (by simpa using hinner)]
  simp only [StateT.run_bind, StateT.run_get, pure_bind, hd]
  rfl

end Pulled

namespace Lookup

variable {l : Lookup} {own : Alias} {m : EntityMap} {e : Entity} {r : Relationship}

theorem rows_eq (l : Lookup) (filter : Option Tree) : l.rows filter =
    { label := l.query
      columns := (l.target.columns.map fun c => ⟨c.member, .column (c.ref l.table), c.type.columnType⟩) ++
        [⟨l.target.testName, .constant Projection.testMark, ScalarType.int64.columnType⟩]
      source := some (.table l.table l.target.table)
      filter := filter } := by
  rw [rows, Entity.withTest_query]

theorem Serves.key_mem (h : l.Serves m e r) : ∀ k ∈ l.keys, k.1 ∈ e.columns ∧ k.2 ∈ l.target.columns := by
  intro k hk
  obtain ⟨names, -, hown, hrelated⟩ := forall₂_mem_right h.keys hk
  exact ⟨mem_of_find?_eq_some hown, mem_of_find?_eq_some hrelated⟩

theorem find?_rows {c : MappedColumn} (hc : c ∈ l.target.columns) :
    ∃ d, (l.rows none).columns.find? (fun d => d.value.equal (.column (c.ref l.table))) = some d ∧
      d.name = (l.passed c).name := by
  have hequal : ∀ d : MappedColumn, (column (d.ref l.table)).equal (.column (c.ref l.table)) =
      (d.column == c.column) := fun d => by
    simp [equal, equalUnder, MappedColumn.ref, Pairing.matches, Pairing.ofPairs]
  obtain ⟨d, hd⟩ : ∃ d, l.target.columns.find? (fun d => d.column == c.column) = some d :=
    Option.isSome_iff_exists.1 (find?_isSome.2 ⟨c, hc, beq_self_eq_true _⟩)
  refine ⟨⟨d.member, .column (d.ref l.table), d.type.columnType⟩, ?_, ?_⟩
  · rw [rows_eq]
    simp only [find?_append, find?_map, Function.comp_def, hequal, hd, Option.map_some, Option.some_or]
  · rw [passed, hd, Option.getD_some]

theorem pulledFilter_rows (hown : own ≠ l.table) (hkeys : ∀ k ∈ l.keys, k.2 ∈ l.target.columns) :
    (l.rows (allOf (l.conditions own (·.ref l.table)))).pulledFilter =
      (allOf (l.conditions own l.passed), (l.rows none).columns) := by
  have hprojected : Forall₂ (fun c d => (projectFilter [l.table] l.query c).run (l.rows none).columns =
      (d, (l.rows none).columns)) (l.conditions own (·.ref l.table)) (l.conditions own l.passed) := by
    refine forall₂_map_iff.2 (forall₂_same.2 fun k hk => ?_)
    refine projectFilter_binary (projectFilter_column ?_) (projectFilter_column ?_)
    · rw [projectColumn, if_neg (by simpa [MappedColumn.memberRef] using hown)]
      rfl
    · obtain ⟨d, hd, hname⟩ := find?_rows (hkeys k hk)
      exact (projectColumn_inside mem_cons_self hd).trans (by rw [hname]; rfl)
  have hfilters := allOf_rel hprojected projectFilter_binary
  have hallOf : ∀ ts : List Tree, (ts.head?.map fun t => ts.tail.foldl (binary .and) t) = allOf ts := by
    rintro (_ | _) <;> rfl
  rw [hallOf] at hfilters
  revert hfilters
  generalize allOf (l.conditions own (·.ref l.table)) = f, allOf (l.conditions own l.passed) = g
  intro hfilters
  cases hfilters with
  | none =>
    rw [Select.pulledFilter, rows_eq]
  | some h =>
    rw [rows_eq] at h
    rw [Select.pulledFilter, rows_eq]
    simp only [rows_eq]
    exact congrArg (fun p : Tree × List (Column Tree) => (some p.1, p.2)) h

theorem mem_others_rows {a : Tree} :
    a ∈ (l.rows filter).others ↔ a ∈ filter ∨ (∃ c ∈ l.target.columns, a = .column (c.ref l.table)) ∨
      a = .constant Projection.testMark := by
  rw [rows_eq]
  simp [Select.others, Select.clauses, eq_comm]

theorem flat_others_rows (h : ∀ f ∈ filter, f.Flat) : ∀ a ∈ (l.rows filter).others, a.Flat := by
  intro a ha
  rcases mem_others_rows.1 ha with ha | ⟨c, -, rfl⟩ | rfl
  · exact h a ha
  · exact .column _
  · exact every_iff.2 ⟨rfl, nofun⟩

theorem mem_children_rows {a : Tree} :
    a ∈ (select (l.rows filter) none).children ↔
      a = .table l.table l.target.table ∨ a ∈ (l.rows filter).others := by
  have hsource : (l.rows filter).source = some (.table l.table l.target.table) := by rw [rows_eq]
  rw [children, Select.clauses_eq, mem_append, hsource]
  simp

theorem flat_conditions {related : MappedColumn → ColumnRef} :
    ∀ f ∈ allOf (l.conditions own related), f.Flat := by
  refine allOf_forall (fun c hc => ?_) fun hc hd => flat_binary.2 ⟨hc, hd⟩
  obtain ⟨k, -, rfl⟩ := mem_map.1 hc
  exact flat_binary.2 ⟨.column _, .column _⟩

theorem isPlain_rows (h : ∀ f ∈ filter, f.Flat) : (l.rows filter).isPlain = true := by
  rw [rows_eq, Select.isPlain, Select.hasAggregates]
  simp [Tree.Flat.hasAggregate_option h, hasAggregate_column, hasAggregate_constant]

theorem referenced_rows {a : Alias} (h : a ∈ (Tree.select (l.rows none) none).referenced) : a = l.table := by
  obtain ⟨c, hc, rfl⟩ := mem_map.1 h
  rcases mem_subtrees.1 (mem_allColumns.1 hc) with hroot | ⟨b, hb, hcolumn⟩
  · cases hroot
  · rcases mem_children_rows.1 hb with rfl | hb
    · rcases mem_subtrees.1 hcolumn with h | ⟨_, h, -⟩ <;> cases h
    · rcases mem_others_rows.1 hb with h | ⟨d, -, rfl⟩ | rfl
      · cases h
      · rcases mem_subtrees.1 hcolumn with h | ⟨_, h, -⟩ <;> cases h
        rfl
      · rcases mem_subtrees.1 hcolumn with h | ⟨_, h, -⟩ <;> cases h

/-- An applied lookup becomes a joined one. -/
theorem lowerApply?_joinTo {source : Tree} (hown : own ≠ l.table) (hsource : l.table ∉ source.sources)
    (hkeys : ∀ k ∈ l.keys, k.2 ∈ l.target.columns) :
    (l.joinTo own false source).lowerApply? = some (l.joinTo own true source) := by
  have hunread : (select (l.rows none) none).referenced.any (source.sources.contains ·) = false := by
    refine any_eq_false.2 fun a ha => ?_
    rw [referenced_rows ha]
    simpa using hsource
  have hrows : ∀ filter : Option Tree, { l.rows filter with filter := none } = l.rows none := fun filter => by
    rw [rows_eq, rows_eq]
  rw [joinTo, if_neg Bool.false_ne_true, Join.lowerApply?_select, pulledFilter_rows hown hkeys,
    isPlain_rows flat_conditions, hrows, hunread, joinTo, if_pos rfl]
  cases allOf (l.conditions own l.passed) <;> simp only [rows_eq] <;> rfl

theorem definite_rows (h : ∀ f ∈ filter, f.Flat) : (select (l.rows filter) none).Definite := by
  refine every_iff.2 ⟨nofun, fun a ha => ?_⟩
  rcases mem_children_rows.1 ha with rfl | ha
  · exact every_iff.2 ⟨nofun, nofun⟩
  · exact (flat_others_rows h a ha).definite

end Lookup

theorem Tree.lowerApplies_eq_renewed (h : t.Every fun u => u.isJoin = false) :
    t.lowerApplies = t.renewed := by
  refine congrArg Id.run (bottomUp_eq_renewed fun u hu => ?_)
  have hjoin := h u hu
  cases u with
  | select s i =>
    beta_reduce
    rw [renewed_select]
    rfl
  | join => cases hjoin
  | _ => rfl

theorem Tree.Flat.joinless (h : t.Flat) : t.Every fun u => u.isJoin = false := by
  intro u hu
  have hnode := h u hu
  cases u <;> first | rfl | cases hnode

theorem Entity.joinless_source (e : Entity) (table query : Alias) :
    (e.source table query).Every fun u => u.isJoin = false := by
  refine every_iff.2 ⟨rfl, fun t ht => ?_⟩
  rcases mem_children_source ht with ⟨name, rfl⟩ | ⟨c, rfl, -⟩ <;> exact every_iff.2 ⟨rfl, nofun⟩

theorem Lookup.joinless_rows (h : ∀ f ∈ filter, f.Flat) :
    (select (l.rows filter) none).Every fun u => u.isJoin = false := by
  refine every_iff.2 ⟨rfl, fun t ht => ?_⟩
  rcases mem_children_rows.1 ht with rfl | ht
  · exact every_iff.2 ⟨rfl, nofun⟩
  · exact (flat_others_rows h t ht).joinless

theorem Entity.lowerApplies_source (e : Entity) (table query : Alias) :
    (e.source table query).lowerApplies = e.source table query := by
  rw [lowerApplies_eq_renewed (e.joinless_source table query),
    (e.definite_source table query).renewed_eq_self]

theorem Lookup.lowerApplies_joinTo {own : Alias} {source : Tree} (hown : own ≠ l.table)
    (hsource : l.table ∉ source.lowerApplies.sources) (hkeys : ∀ k ∈ l.keys, k.2 ∈ l.target.columns) :
    (join (l.joinTo own false source) none).lowerApplies =
      .join (l.joinTo own true source.lowerApplies) none := by
  have h : (join (l.joinTo own false source) none).lowerApplies =
      (join (l.joinTo own false source.lowerApplies) none).lowerApplyAt := by
    show lowerApplyAt (.join ⟨.outerApply, source.lowerApplies, lowerApplies (.select _ none), none⟩ none) = _
    rw [lowerApplies_eq_renewed (joinless_rows flat_conditions), (definite_rows flat_conditions).renewed_eq_self]
    rfl
  rw [h, lowerApplyAt, lowerApply?_joinTo hown hsource hkeys]

theorem Lookup.sources_joinTo (l : Lookup) (own : Alias) (lowered : Bool) (source : Tree) :
    (join (l.joinTo own lowered source) none).sources = source.sources ++ [l.query] := by
  cases lowered <;> simp only [joinTo, rows_eq] <;> rfl

theorem Lookup.sources_chain (own : Alias) (lowered : Bool) (source : Tree) (ls : List Lookup) :
    (chain own lowered source ls).sources = source.sources ++ ls.map query := by
  induction ls generalizing source with
  | nil => rw [map_nil, append_nil]; rfl
  | cons l ls ih =>
    rw [chain, foldl_cons, ← chain, ih, sources_joinTo, append_assoc]
    rfl

theorem Lookup.lowerApplies_chain {own : Alias} {source : Tree} {ls : List Lookup}
    (h : ∀ l ∈ ls, own ≠ l.table ∧ l.table ∉ source.lowerApplies.sources ++ ls.map query ∧
      ∀ k ∈ l.keys, k.2 ∈ l.target.columns) :
    (chain own false source ls).lowerApplies = chain own true source.lowerApplies ls := by
  induction ls generalizing source with
  | nil => rfl
  | cons l ls ih =>
    rw [forall_mem_cons] at h
    obtain ⟨⟨hown, hsource, hkeys⟩, hrest⟩ := h
    have hjoin := lowerApplies_joinTo hown (fun hmem => hsource (mem_append_left _ hmem)) hkeys
    rw [chain, foldl_cons, ← chain, ih, hjoin]
    · rfl
    · rw [hjoin, sources_joinTo]
      simpa using hrest

theorem visitColumns_bound {columns : List (Column Access)} {bound : List (ColumnRef × Option Lookup)}
    {v : Visitor Id} (hv : ∀ c, v.around (.column c) (pure (.column c)) = pure (.column c)) :
    visitColumns v (boundColumns columns bound) = pure (boundColumns columns bound) := by
  have hplain : ∀ c ∈ boundColumns columns bound,
      (Course.plain Id).gives (c.value.visit v) () (id c.value) () := fun c hc => by
    obtain ⟨p, -, hp⟩ := value_of_mem_boundColumns hc
    rw [hp]
    exact hv _
  rw [visitColumns_eq]
  exact Eq.trans (Slot.column.visit_rebuilt hplain) (congrArg pure (map_id _))

theorem Entity.lowerApplies_lookups {e : Entity} {table query label : Alias} {columns : List (Column Access)}
    {bound : List (ColumnRef × Option Lookup)}
    (h : ∀ l ∈ bound.filterMap Prod.snd, query ≠ l.table ∧
      l.table ∉ (bound.filterMap Prod.snd).map Lookup.query ∧ ∀ k ∈ l.keys, k.2 ∈ l.target.columns) :
    (select (e.lookups table query label false columns bound) none).lowerApplies =
      .select (e.lookups table query label true columns bound) none := by
  have hchain : (Lookup.chain query false (e.source table query) (bound.filterMap Prod.snd)).lowerApplies =
      Lookup.chain query true (e.source table query) (bound.filterMap Prod.snd) := by
    rw [Lookup.lowerApplies_chain, lowerApplies_source]
    intro l hl
    obtain ⟨hown, hqueries, hkeys⟩ := h l hl
    refine ⟨hown, ?_, hkeys⟩
    rw [lowerApplies_source, mem_append]
    rintro (hmem | hmem)
    · exact hown (mem_singleton.1 hmem).symm
    · exact hqueries hmem
  rw [lookups, lowerApplies, bottomUp, visit]
  simp only [Select.visit, visitOption, visitKeys, visitList, pure_bind, bind_assoc]
  rw [visitColumns_bound fun _ => rfl]
  exact congrArg (fun source =>
    select { e.lookups table query label true columns bound with source := some source } none) hchain

/-! ## The form of a chain -/

section Form

variable {own table query label next : Alias} {lowered : Bool} {source : Tree} {ls : List Lookup}
  {e : Entity} {columns : List (Column Access)} {bound : List (ColumnRef × Option Lookup)}

theorem Lookup.flat_condition (l : Lookup) (own : Alias) (related : MappedColumn → ColumnRef) :
    ((allOf (l.conditions own related)).getD (.constant (.boolean true))).Flat := by
  cases h : allOf (l.conditions own related) with
  | none => exact every_iff.2 ⟨rfl, nofun⟩
  | some f => exact flat_conditions f h

theorem Lookup.mem_children_joinTo (h : t ∈ (join (l.joinTo own lowered source) none).children) :
    t = source ∨ (∃ filter, t = .select (l.rows filter) none ∧ ∀ f ∈ filter, f.Flat) ∨ t.Flat := by
  cases lowered with
  | true =>
    simp only [joinTo, if_true, children, mem_cons, Option.mem_toList] at h
    rcases h with rfl | rfl | h
    · exact .inl rfl
    · exact .inr (.inl ⟨none, rfl, by simp⟩)
    · obtain rfl := Option.some.inj h
      exact .inr (.inr (l.flat_condition own _))
  | false =>
    simp only [joinTo, Bool.false_eq_true, if_false, children, mem_cons, Option.toList_none,
      not_mem_nil, or_false] at h
    rcases h with rfl | rfl
    · exact .inl rfl
    · exact .inr (.inl ⟨_, rfl, flat_conditions⟩)

theorem Lookup.every_chain {P : Tree → Prop} (flat : ∀ {t : Tree}, t.isFlat = true → P t)
    (table : ∀ a name, P (.table a name)) (rows : ∀ (l : Lookup) filter, P (.select (l.rows filter) none))
    (join : ∀ (l : Lookup) source, P (.join (l.joinTo own lowered source) none)) (hsource : source.Every P) :
    (chain own lowered source ls).Every P := by
  have hflat : ∀ {t : Tree}, t.Flat → t.Every P := fun h u hu => flat (h u hu)
  induction ls generalizing source with
  | nil => exact hsource
  | cons l ls ih =>
    refine ih (every_iff.2 ⟨join l source, fun t ht => ?_⟩)
    rcases mem_children_joinTo ht with rfl | ⟨filter, rfl, hfilter⟩ | ht
    · exact hsource
    · refine every_iff.2 ⟨rows l filter, fun t ht => ?_⟩
      rcases mem_children_rows.1 ht with rfl | ht
      · exact every_iff.2 ⟨table _ _, nofun⟩
      · exact hflat (flat_others_rows hfilter t ht)
    · exact hflat ht

theorem Entity.mem_children_lookups
    (h : t ∈ (select (e.lookups table query label lowered columns bound) none).children) :
    t = Lookup.chain query lowered (e.source table query) (bound.filterMap Prod.snd) ∨
      ∃ p ∈ bound, t = .column p.1 := by
  rcases mem_cons.1 h with rfl | h
  · exact .inl rfl
  · obtain ⟨c, hc, rfl⟩ := mem_map.1 h
    exact .inr (value_of_mem_boundColumns hc)

theorem Entity.every_lookups {P : Tree → Prop} (flat : ∀ {t : Tree}, t.isFlat = true → P t)
    (stored : ∀ a name, P (.table a name)) (select : ∀ s : Select Tree, s.skip = none → P (.select s none))
    (join : ∀ (l : Lookup) source, P (.join (l.joinTo query lowered source) none)) :
    (Tree.select (e.lookups table query label lowered columns bound) none).Every P := by
  refine every_iff.2 ⟨select _ rfl, fun t ht => ?_⟩
  rcases mem_children_lookups ht with rfl | ⟨p, -, rfl⟩
  · refine Lookup.every_chain flat stored (fun l filter => select _ (by rw [Lookup.rows_eq])) join ?_
    refine every_iff.2 ⟨select _ rfl, fun t ht => ?_⟩
    rcases mem_children_source ht with ⟨name, rfl⟩ | ⟨c, rfl, -⟩
    · exact every_iff.2 ⟨stored _ _, nofun⟩
    · exact every_iff.2 ⟨flat rfl, nofun⟩
  · exact every_iff.2 ⟨flat rfl, nofun⟩

theorem Entity.modest_lookups :
    (select (e.lookups table query label lowered columns bound) none).Modest := by
  refine every_lookups ?_ (fun _ _ => rfl) (fun _ h => Option.isNone_iff_eq_none.2 h) fun l source => ?_
  · intro t ht
    cases t <;> first | rfl | cases ht
  · cases lowered <;> rfl

theorem Entity.isExact_lookups :
    (select (e.lookups table query label lowered columns bound) none).IsExact := by
  refine every_lookups ?_ (fun _ _ => rfl) (fun _ _ => rfl) fun l source => rfl
  intro t ht
  cases t <;> first | rfl | cases ht | exact Bool.not_eq_true' _ ▸ ht

theorem Entity.leftDeep_lookups :
    (select (e.lookups table query label lowered columns bound) none).LeftDeep := by
  refine every_lookups ?_ (fun _ _ => nofun) (fun _ _ => nofun) fun l source => ?_
  · intro t ht
    cases t <;> first | (cases ht; done) | exact nofun
  · rintro _ ⟨rfl⟩
    cases lowered <;> rfl

def Lookup.aliases (l : Lookup) : List Alias :=
  [l.query, l.table]

theorem Select.declared_of_flat {s : Select Tree} {i : Option Identity} {a : Alias} {name : String}
    (hsource : s.source = some (.table a name)) (h : ∀ t ∈ s.others, t.Flat) :
    (select s i).declared = [s.label, a] := by
  have hothers : s.others.flatMap declared = [] := flatMap_eq_nil_iff.2 fun t ht => (h t ht).declared
  rw [declared_eq, hsource, hothers]
  rfl

theorem Lookup.declared_rows (h : ∀ f ∈ filter, f.Flat) :
    (select (l.rows filter) none).declared = l.aliases := by
  have hsource : (l.rows filter).source = some (.table l.table l.target.table) := by rw [rows_eq]
  rw [Select.declared_of_flat hsource (flat_others_rows h), rows_eq]
  rfl

theorem Lookup.declared_joinTo (l : Lookup) (own : Alias) (lowered : Bool) (source : Tree) :
    (join (l.joinTo own lowered source) none).declared = source.declared ++ l.aliases := by
  cases lowered with
  | true =>
    rw [joinTo, if_pos rfl, declared_join, declared_rows (by simp)]
    simp [(l.flat_condition own _).declared]
  | false =>
    rw [joinTo, if_neg Bool.false_ne_true, declared_join, declared_rows flat_conditions]
    simp

theorem Lookup.declared_chain (own : Alias) (lowered : Bool) (source : Tree) (ls : List Lookup) :
    (chain own lowered source ls).declared = source.declared ++ ls.flatMap aliases := by
  induction ls generalizing source with
  | nil => rw [flatMap_nil, append_nil]; rfl
  | cons l ls ih =>
    rw [chain, foldl_cons, ← chain, ih, declared_joinTo, append_assoc]
    rfl

theorem Lookup.NumberedFrom.le_aliases (h : Lookup.NumberedFrom next ls) :
    ∀ a ∈ ls.flatMap aliases, next ≤ a := by
  induction ls generalizing next with
  | nil => exact nofun
  | cons l ls ih =>
    obtain ⟨htable, hquery, hrest⟩ := h
    rw [flatMap_cons, forall_mem_append]
    refine ⟨?_, fun a ha => (Nat.le_add_right next 2).trans (ih hrest a ha)⟩
    simp [aliases, htable, hquery]

theorem Lookup.NumberedFrom.nodup (h : Lookup.NumberedFrom next ls) : (ls.flatMap aliases).Nodup := by
  induction ls generalizing next with
  | nil => exact nodup_nil
  | cons l ls ih =>
    obtain ⟨htable, hquery, hrest⟩ := h
    rw [flatMap_cons]
    refine nodup_append.2 ⟨?_, ih hrest, ?_⟩
    · simp [aliases, htable, hquery]
    · rintro a ha b hb rfl
      have hle := hrest.le_aliases a hb
      simp only [aliases, htable, hquery, mem_cons, not_mem_nil, or_false] at ha
      rcases ha with rfl | rfl
      · exact Nat.not_succ_le_self _ hle
      · exact Nat.not_succ_le_self _ ((Nat.le_succ _).trans hle)

/-- The aliases that a query with lookups declares. -/
theorem Entity.declared_lookups (e : Entity) (table query label : Alias) (lowered : Bool)
    (columns : List (Column Access)) (bound : List (ColumnRef × Option Lookup)) :
    (select (e.lookups table query label lowered columns bound) none).declared =
      label :: query :: table :: (bound.filterMap Prod.snd).flatMap Lookup.aliases := by
  have hsource : (e.source table query).declared = [query, table] := by
    refine Select.declared_of_flat rfl fun t ht => ?_
    obtain ⟨d, hd, rfl⟩ := mem_map.1 ht
    obtain ⟨c, -, rfl⟩ := mem_map.1 hd
    exact .column _
  have hcolumns : ((boundColumns columns bound).map Column.value).flatMap declared = [] := by
    refine flatMap_eq_nil_iff.2 fun t ht => ?_
    obtain ⟨c, hc, rfl⟩ := mem_map.1 ht
    obtain ⟨p, -, hp⟩ := value_of_mem_boundColumns hc
    rw [hp, (Tree.Flat.column p.1).declared]
  rw [declared_eq]
  show label :: (flatMap declared (_ :: (boundColumns columns bound).map Column.value)) = _
  rw [flatMap_cons, hcolumns, append_nil, Lookup.declared_chain, hsource]
  rfl

theorem Lookup.needs_conditions {related : MappedColumn → ColumnRef} {f : Tree}
    (hf : f ∈ allOf (l.conditions own related)) (hd : f.Needs d) : d.label = own ∨ ∃ c, d = related c := by
  obtain ⟨condition, hcondition, hd⟩ := allOf_needs hf hd
  obtain ⟨k, -, rfl⟩ := mem_map.1 hcondition
  rcases needs_binary.1 hd with hd | hd
  · rw [needs_column.1 hd]
    exact .inl rfl
  · exact .inr ⟨k.2, needs_column.1 hd⟩

theorem Lookup.closed_joinTo (hsource : ∀ d, ¬ source.Needs d) (hown : own ∈ source.sources) :
    ∀ d, ¬ (join (l.joinTo own lowered source) none).Needs d := by
  intro d hd
  have hsources : (select (l.rows none) none).sources = [l.query] := by rw [rows_eq]; rfl
  cases lowered with
  | true =>
    rw [joinTo, if_pos rfl, needs_join_iff] at hd
    rcases hd with hd | ⟨-, hd⟩ | ⟨houter, f, hf, hd⟩
    · exact hsource d hd
    · obtain ⟨-, f, hf, -⟩ := Entity.query_needs (Projection.withTest_needs.2.1 hd)
      cases hf
    · cases hf
      cases hconditions : allOf (l.conditions own l.passed) with
      | none =>
        rw [hconditions] at hd
        obtain ⟨p, hp, -⟩ := Tree.Needs.cases_node hd rfl
        cases hp
      | some f =>
        rw [hconditions] at hd
        rw [hsources] at houter
        rcases needs_conditions hconditions hd with hlabel | ⟨c, rfl⟩
        · exact houter (mem_append_left _ (hlabel ▸ hown))
        · exact houter (mem_append_right _ mem_cons_self)
  | false =>
    rw [joinTo, if_neg Bool.false_ne_true, needs_join_iff] at hd
    rcases hd with hd | ⟨houter, hd⟩ | ⟨-, f, hf, -⟩
    · exact hsource d hd
    · obtain ⟨htable, f, hf, hd⟩ := Entity.query_needs (Projection.withTest_needs.2.1 hd)
      rcases needs_conditions hf hd with hlabel | ⟨c, rfl⟩
      · exact houter rfl (hlabel ▸ hown)
      · exact htable rfl
    · cases hf

theorem Lookup.closed_chain (hsource : ∀ d, ¬ source.Needs d) (hown : own ∈ source.sources) :
    ∀ d, ¬ (chain own lowered source ls).Needs d := by
  induction ls generalizing source with
  | nil => exact hsource
  | cons l ls ih =>
    refine ih (closed_joinTo hsource hown) ?_
    rw [sources_joinTo]
    exact mem_append_left _ hown

theorem Access.Binds.label_eq {a : Access} {o : Option Lookup} (h : a.Binds m e own d o) :
    d.label = own ∨ ∃ l ∈ o, d.label = l.query := by
  cases h with
  | own => exact .inl rfl
  | through => exact .inr ⟨_, rfl, rfl⟩

theorem Entity.checkScopes_lookups (table label : Alias) (lowered : Bool)
    (h : Forall₂ (fun c p => c.value.Binds m e query p.1 p.2) columns bound) :
    (select (e.lookups table query label lowered columns bound) none).checkScopes = .ok () := by
  have hsource : ∀ d, ¬ (e.source table query).Needs d := fun d hd => by
    obtain ⟨-, f, hf, -⟩ := query_needs hd
    cases hf
  refine checkScopes_iff.2 fun d hd => ?_
  rcases Select.needs_iff.1 hd with ⟨t, ht, hd⟩ | ⟨houter, t, ht, hd⟩
  · cases ht
    exact Lookup.closed_chain hsource mem_cons_self d hd
  · obtain ⟨c, hc, rfl⟩ := mem_map.1 ht
    obtain ⟨p, hp, rfl⟩ := mem_map.1 hc
    obtain rfl := needs_column.1 hd
    apply houter
    show _ ∈ (Lookup.chain query lowered (e.source table query) (bound.filterMap Prod.snd)).sources
    rw [Lookup.sources_chain]
    rcases (forall₂_iff_zip.1 h).2 hp |>.label_eq with hlabel | ⟨l, hl, hlabel⟩
    · exact mem_append_left _ (hlabel ▸ mem_cons_self)
    · refine mem_append_right _ (mem_map.2 ⟨l, ?_, hlabel.symm⟩)
      exact mem_filterMap.2 ⟨p.2, (of_mem_zip hp).2, hl⟩

theorem Lookup.NumberedFrom.table_not_mem (h : Lookup.NumberedFrom next ls) :
    ∀ l ∈ ls, l.table ∉ ls.map Lookup.query := by
  have hmem : ∀ {l : Lookup} {ls : List Lookup}, l ∈ ls → l.table ∈ ls.flatMap Lookup.aliases ∧
      l.query ∈ ls.flatMap Lookup.aliases := fun hl =>
    ⟨mem_flatMap.2 ⟨_, hl, by simp [Lookup.aliases]⟩,
      mem_flatMap.2 ⟨_, hl, by simp [Lookup.aliases]⟩⟩
  induction ls generalizing next with
  | nil => exact nofun
  | cons l ls ih =>
    obtain ⟨htable, hquery, hrest⟩ := h
    have hle := hrest.le_aliases
    rw [forall_mem_cons, map_cons]
    refine ⟨?_, fun l' hl' => ?_⟩
    · rw [htable, hquery, mem_cons, not_or]
      refine ⟨(Nat.succ_ne_self next).symm, fun hnext => ?_⟩
      obtain ⟨l', hl', heq⟩ := mem_map.1 hnext
      have hlt := hle _ (hmem hl').2
      rw [heq] at hlt
      exact Nat.not_succ_le_self _ ((Nat.le_succ _).trans hlt)
    · rw [mem_cons, not_or]
      refine ⟨fun heq => ?_, ih hrest l' hl'⟩
      have hlt := hle _ (hmem hl').1
      rw [heq, hquery] at hlt
      exact Nat.not_succ_le_self _ hlt

/-! ## Compiled accesses -/

theorem Tree.dropRepeatedLookups_select (lookups : List Alias) (s : Select Tree) (i : Option Identity) :
    ∃ s' j, (select s i).dropRepeatedLookups lookups = .select s' j := by
  obtain ⟨v, _, same, -, hstep⟩ := ((select s i).dropRepeatedLookups_dropRun lookups).cases_node
  generalize (select s i).dropRepeatedLookups lookups = u at hstep
  cases same with
  | select j =>
    cases hstep with
    | kept _ same =>
      rcases same with rfl | rfl
      · exact ⟨_, _, rfl⟩
      · exact ⟨_, _, rfl⟩

theorem Lookup.NumberedFrom.apart (numbered : Lookup.NumberedFrom next ls) {aliases : List Alias}
    (below : ∀ a ∈ aliases, a < next) : ∀ a ∈ aliases, a ∉ ls.flatMap Lookup.aliases :=
  fun a ha hmem => Nat.not_lt.2 (numbered.le_aliases a hmem) (below a ha)

theorem Entity.nodup_lookups (lowered : Bool) (columns : List (Column Access))
    (numbered : Lookup.NumberedFrom next (bound.filterMap Prod.snd)) (distinct : [label, query, table].Nodup)
    (below : ∀ a ∈ [label, query, table], a < next) :
    (select (e.lookups table query label lowered columns bound) none).declared.Nodup := by
  rw [declared_lookups]
  exact nodup_append.2 ⟨distinct, numbered.nodup, fun a ha b hb hab => numbered.apart below a ha (hab ▸ hb)⟩

theorem Entity.lowerJoins_lookups {c : Config} (table label : Alias) (lookups : List Alias)
    (h : Forall₂ (fun c p => c.value.Binds m e query p.1 p.2) columns bound)
    (numbered : Lookup.NumberedFrom next (bound.filterMap Prod.snd)) (below : query < next) :
    lowerJoins c lookups (.select (e.lookups table query label false columns bound) none) =
      let joined := .select (e.lookups table query label c.lowerApplyJoins columns bound) none
      if c.removeRedundantJoins then joined.dropRepeatedLookups lookups else joined := by
  rw [lowerJoins]
  cases c.lowerApplyJoins with
  | false => rfl
  | true =>
    rw [if_pos rfl, lowerApplies_lookups]
    intro l hl
    refine ⟨fun heq => ?_, numbered.table_not_mem l hl, fun k hk => ?_⟩
    · have hmem : l.table ∈ (bound.filterMap Prod.snd).flatMap Lookup.aliases :=
        mem_flatMap.2 ⟨l, hl, .tail _ (.head _)⟩
      exact numbered.apart (forall_mem_singleton.2 below) query mem_cons_self (heq ▸ hmem)
    · obtain ⟨⟨d, o⟩, hp, rfl⟩ := mem_filterMap.1 hl
      obtain ⟨⟨_, a, _⟩, -, hbinds⟩ := forall₂_mem_right h hp
      cases hbinds with
      | through _ _ serves => exact (serves.key_mem k hk).2

/-- A query for members of an entity compiles to its lookups. -/
theorem Entity.compile_accesses {dialect : Dialect} {c : Config}
    (h : Forall₂ (fun c p => c.value.Binds m e query p.1 p.2) columns bound)
    (he : m.entity? e.name = some e) (numbered : Lookup.NumberedFrom next (bound.filterMap Prod.snd))
    (distinct : [label, query, table].Nodup) (below : ∀ a ∈ [label, query, table], a < next) :
    ∃ q next', (compile dialect m c (e.accesses table query label columns)).run.run next = (.ok q, next') ∧
      ∀ env r, (select (e.lookups table query label c.lowerApplyJoins columns bound) none).LookupsMatchOnce env
          ((bound.filterMap Prod.snd).map Lookup.query) →
        (select (e.lookups table query label c.lowerApplyJoins columns bound) none).run env = .ok r →
        q.tree.run env = .ok r := by
  have hbind := bindMembers_accesses table label h he numbered
  have hjoins := lowerJoins_lookups (c := c) table label ((bound.filterMap Prod.snd).map Lookup.query) h
    numbered (below query (.tail _ (.head _)))
  have scopes := checkScopes_lookups table label c.lowerApplyJoins h
  dsimp only at hjoins
  split at hjoins
  · have nodup := nodup_lookups (e := e) c.lowerApplyJoins columns numbered distinct below
    have tidy := tidy_of_checkScopes scopes
    obtain ⟨s, i, hs⟩ := dropRepeatedLookups_select ((bound.filterMap Prod.snd).map Lookup.query)
      (e.lookups table query label c.lowerApplyJoins columns bound) none
    have hscopes : (select s i).checkScopes = .ok () := by
      refine checkScopes_iff.2 fun d hd => checkScopes_iff.1 scopes d ?_
      exact dropRepeatedLookups_needs _ nodup tidy (hs ▸ hd)
    have modest : (select s i).Modest :=
      hs ▸ dropRepeatedLookups_every _ (fun same ha => same.isModest.trans ha) (fun _ => rfl) modest_lookups
    obtain ⟨q, hcompiled, hrun⟩ := compile_modest hbind (hjoins.trans hs) modest hscopes
    refine ⟨q, _, hcompiled, fun env r unique run => ?_⟩
    have hagree := dropRepeatedLookups_agree nodup tidy (leftDeep_lookups.replaceable isExact_lookups) unique
    rw [hrun, ← hs]
    exact hagree.ok_of_ok run
  · obtain ⟨q, hcompiled, hrun⟩ := compile_modest hbind hjoins modest_lookups scopes
    exact ⟨q, _, hcompiled, fun env r _ run => (hrun env).trans run⟩

end Form

end HiveQuery
