import HiveQuery.Proofs.Rerouting

/-!
# Filters in terms of columns

A filter that is pulled out of a select reads the columns of the select. Columns that it needs are added under free
names, so that none is hidden.
-/

namespace HiveQuery
open List

variable {inner : List Alias} {label : Alias} {columns columns' : List (Column Tree)} {t u : Tree}

/-! ## Columns of a select for columns of its sources -/

/-- A column of a source is read from a column of the select that passes it on, and any other column is
read as before. -/
def Projects (inner : List Alias) (label : Alias) (columns : List (Column Tree)) (c d : ColumnRef) :
    Prop :=
  (c.label ∉ inner ∧ d = c) ∨
    (c.label ∈ inner ∧ d.label = label ∧
      ∃ col ∈ columns, col.name = d.name ∧ col.value.equal (.column c) = true)

/-- Columns with more columns at the end, all of them columns of the sources. -/
structure ColumnsGrow (inner : List Alias) (columns columns' : List (Column Tree)) : Prop where
  split : ∃ extra, columns' = columns ++ extra ∧
    ∀ col ∈ extra, ∃ c : ColumnRef, col.value = .column c ∧ c.label ∈ inner
  nodup : (columns.map Column.name).Nodup → (columns'.map Column.name).Nodup

namespace ColumnsGrow

theorem refl (inner : List Alias) (columns : List (Column Tree)) : ColumnsGrow inner columns columns :=
  ⟨⟨[], (append_nil _).symm, by simp⟩, fun h => h⟩

theorem trans {columns'' : List (Column Tree)} (h : ColumnsGrow inner columns columns')
    (h' : ColumnsGrow inner columns' columns'') : ColumnsGrow inner columns columns'' where
  split := by
    obtain ⟨extra, rfl, hextra⟩ := h.split
    obtain ⟨extra', rfl, hextra'⟩ := h'.split
    refine ⟨extra ++ extra', append_assoc _ _ _, fun col hcol => ?_⟩
    exact (mem_append.1 hcol).elim (hextra col) (hextra' col)
  nodup hnodup := h'.nodup (h.nodup hnodup)

theorem subset (h : ColumnsGrow inner columns columns') : ∀ col ∈ columns, col ∈ columns' := by
  obtain ⟨extra, rfl, -⟩ := h.split
  exact fun col hcol => mem_append_left _ hcol

end ColumnsGrow

theorem Tree.column_equal_self (c : ColumnRef) : (column c).equal (.column c) = true := by
  simp [equal, equalUnder, Pairing.ofPairs, Pairing.matches]

theorem Tree.exists_of_equal_column {c : ColumnRef} (h : t.equal (.column c) = true) :
    ∃ d : ColumnRef, t = .column d ∧ d.label = c.label ∧ d.name = c.name := by
  cases t with
  | column d =>
    simp only [equal, equalUnder, Pairing.ofPairs, Pairing.matches, Bool.and_eq_true,
      beq_iff_eq, lookup_nil] at h
    exact ⟨d, rfl, h.2, h.1⟩
  | _ => simp [equal, equalUnder] at h

theorem projectColumn_run {c d : ColumnRef} (h : (projectColumn inner label c).run columns = (d, columns')) :
    ColumnsGrow inner columns columns' ∧ Projects inner label columns' c d := by
  unfold projectColumn at h
  by_cases hinner : c.label ∈ inner
  · rw [if_pos (contains_iff_mem.2 hinner)] at h
    rw [StateT.run_bind, StateT.run_get, pure_bind] at h
    cases hfind : columns.find? fun d => d.value.equal (.column c) with
    | some col =>
      simp only [hfind] at h
      obtain ⟨rfl, rfl⟩ := Prod.mk.inj h
      have hequal := find?_some hfind
      exact ⟨.refl _ _, .inr ⟨hinner, rfl, col, mem_of_find?_eq_some hfind, rfl, hequal⟩⟩
    | none =>
      simp only [hfind] at h
      obtain ⟨rfl, rfl⟩ := Prod.mk.inj h
      refine ⟨⟨⟨_, rfl, ?_⟩, fun hnodup => ?_⟩, .inr ⟨hinner, rfl,
        ⟨_, .column c, c.columnType⟩, ?_, rfl, Tree.column_equal_self c⟩⟩
      · intro col hcol
        exact ⟨c, by rw [mem_singleton.1 hcol], hinner⟩
      · rw [map_append, map_singleton, ← concat_eq_append, nodup_concat]
        exact ⟨freeName_not_mem _ _, hnodup⟩
      · exact mem_append_right _ (mem_singleton.2 rfl)
  · rw [if_neg (fun h => hinner (contains_iff_mem.1 h))] at h
    obtain ⟨rfl, rfl⟩ := Prod.mk.inj h
    exact ⟨.refl _ _, .inl ⟨hinner, rfl⟩⟩

theorem Projects.mono {c d : ColumnRef} (h : Projects inner label columns c d)
    (hsubset : ∀ col ∈ columns, col ∈ columns') : Projects inner label columns' c d := by
  rcases h with h | ⟨hinner, hlabel, col, hcol, h⟩
  · exact .inl h
  · exact .inr ⟨hinner, hlabel, col, hsubset col hcol, h⟩

theorem Tree.Rerouted.imp {Q Q' : ColumnRef → ColumnRef → Prop} (h : t.Rerouted Q u)
    (hQ : ∀ c d, Q c d → Q' c d) : t.Rerouted Q' u :=
  h.rel (fun h => .column (hQ _ _ h)) fun column _ same =>
    .node column (same.imp fun _ _ _ _ => trivial) same.children

/-- A projected filter differs from the filter in its columns only. -/
theorem projectFilter_run (h : (projectFilter inner label t).run columns = (u, columns')) :
    ColumnsGrow inner columns columns' ∧ t.Rerouted (Projects inner label columns') u := by
  induction t generalizing u columns columns' with
  | step t ih =>
    obtain ⟨v, m, same, children, hnode, -⟩ := Tree.bottomUp_outcome (.state (List (Column Tree))) h
    have hchildren : ∀ {ts us : List Tree} {columns columns' : List (Column Tree)},
        Threaded (fun a : Tree => (Outcome.state (List (Column Tree))).gives
          (a.bottomUp (Tree.projectAt inner label))) ts columns us columns' →
        (∀ a ∈ ts, a ∈ t.children) →
        ColumnsGrow inner columns columns' ∧
          Forall₂ (Tree.Rerouted (Projects inner label columns')) ts us := by
      intro ts us columns columns' hts
      induction hts with
      | nil => exact fun _ => ⟨.refl _ _, .nil⟩
      | cons head _ ihs =>
        intro hmem
        obtain ⟨hhead, hrerouted⟩ := ih _ (hmem _ mem_cons_self) head
        obtain ⟨htail, hall⟩ := ihs fun a ha => hmem a (.tail _ ha)
        exact ⟨hhead.trans htail, .cons (hrerouted.imp fun _ _ h => h.mono htail.subset) hall⟩
    obtain ⟨hgrow, hall⟩ := hchildren children fun _ h => h
    cases t with
    | column c =>
      cases same
      cases children
      rcases hrun : (projectColumn inner label c).run columns with ⟨d, columns''⟩
      have hnode : (Tree.column d, columns'') = (u, columns') := by
        rw [← hnode]
        change _ = (fun p : ColumnRef × List (Column Tree) => (Tree.column p.1, p.2))
          ((projectColumn inner label c).run columns)
        rw [hrun]
      obtain ⟨rfl, rfl⟩ := Prod.mk.inj hnode
      obtain ⟨hgrow, hprojects⟩ := projectColumn_run hrun
      exact ⟨hgrow, .column hprojects⟩
    | _ =>
      have hnode : (v, m) = (u, columns') := by
        cases same
        all_goals exact hnode
      obtain ⟨rfl, rfl⟩ := Prod.mk.inj hnode
      exact ⟨hgrow, .node rfl same hall⟩

/-! ## Applies -/

/-- The filter of a select in terms of its columns, and the columns it needs. -/
inductive FilterPulled (s : Select Tree) : Option Tree → List (Column Tree) → Prop
  | none (filter : s.filter = none) : FilterPulled s none s.columns
  | some {f u : Tree} {columns : List (Column Tree)} (filter : s.filter = some f)
      (run : (projectFilter s.sourceAliases s.label f).run s.columns = (u, columns)) :
      FilterPulled s (some u) columns

/-- What becomes of a node: an apply becomes a join, unless its right side depends on more of its left
side than a filter can. -/
inductive LowersApply : Tree → Tree → Prop
  | kept (t : Tree) : LowersApply t t
  | table {kind : JoinKind} (l : Tree) (a : Alias) (name : String) (i : Option Identity)
      (apply : kind.isApply = true) :
      LowersApply (.join ⟨kind, l, .table a name, none⟩ i)
        (.join ⟨(appliedJoin kind none).1, l, .table a name, (appliedJoin kind none).2⟩ none)
  | select {kind : JoinKind} {l : Tree} {s : Select Tree} {c : Option Tree}
      {columns : List (Column Tree)} (i j : Option Identity) (apply : kind.isApply = true)
      (plain : s.isPlain = true)
      (unread : ∀ a ∈ l.sources, a ∉ (Tree.select { s with filter := none } none).referenced)
      (pulled : FilterPulled s c columns) :
      LowersApply (.join ⟨kind, l, .select s j, none⟩ i)
        (.join ⟨(appliedJoin kind c).1, l, .select { s with filter := none, columns := columns } none,
          (appliedJoin kind c).2⟩ none)

theorem Tree.lowersApply (t : Tree) : LowersApply t t.lowerApplyAt := by
  cases t with
  | join j i =>
    obtain ⟨kind, l, r, c⟩ := j
    simp only [lowerApplyAt, Join.lowerApply?]
    by_cases happly : (!kind.isApply || c.isSome) = true
    · rw [if_pos happly]
      exact .kept _
    rw [if_neg happly]
    simp only [Bool.or_eq_true, Bool.not_eq_true', not_or, Bool.not_eq_false, Bool.not_eq_true,
      Option.isSome_eq_false_iff, Option.isNone_iff_eq_none] at happly
    obtain ⟨happly, rfl⟩ := happly
    cases r with
    | table a name => exact .table l a name i happly
    | select s j =>
      by_cases hlower : (!s.isPlain ||
          (select { s with filter := none } none).referenced.any (l.sources.contains ·)) = true
      · simp only [if_pos hlower]
        exact .kept _
      simp only [if_neg hlower]
      simp only [Bool.or_eq_true, Bool.not_eq_true', any_eq_true, not_or, Bool.not_eq_false,
        not_exists, not_and, contains_iff_mem] at hlower
      obtain ⟨hplain, hunread⟩ := hlower
      have hunread : ∀ a ∈ l.sources, a ∉ (select { s with filter := none } none).referenced :=
        fun a ha href => hunread a href ha
      cases hfilter : s.filter with
      | none => exact .select i j happly hplain hunread (.none hfilter)
      | some f => exact .select i j happly hplain hunread (.some hfilter rfl)
    | _ => exact .kept _
  | _ => exact .kept _

theorem Tree.lowerApplies_node (t : Tree) :
    ∃ v, t.SameNode (fun a b => b = a.lowerApplies) v ∧ LowersApply v t.lowerApplies := by
  obtain ⟨v, same, hnode⟩ := bottomUp_node lowerApplyAt t
  have hnode : t.lowerApplies = v.lowerApplyAt := hnode
  exact ⟨v, same, hnode ▸ v.lowersApply⟩

theorem Tree.lowerApplies_rel {R : Tree → Tree → Prop}
    (node : ∀ {a v b}, a.SameNode R v → LowersApply v b → R a b) (t : Tree) : R t t.lowerApplies := by
  induction t with
  | step t ih =>
    obtain ⟨v, same, hv⟩ := t.lowerApplies_node
    exact node (same.imp fun a b ha hab => hab ▸ ih a ha) hv

end HiveQuery
