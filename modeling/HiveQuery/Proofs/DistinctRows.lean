import HiveQuery.Proofs.Layers

/-!
# Distinct rows as groups

A select without duplicates keeps the first of each set of rows with the same values, and a select that groups by
its columns shows the first row of each group. Both compare a row with first rows only, in the same direction.
-/

namespace HiveQuery
open List Run

/-! ## First rows -/

section Firsts

variable {α : Type} {groups : List (List Value × List α)} {kept : List (List Value × α)}

def Represents (g : List Value × List α) (k : List Value × α) : Prop :=
  g.1 = k.1 ∧ g.2.head? = some k.2

theorem insertGroup_represents (h : Forall₂ Represents groups kept) (p : List Value × α) :
    Forall₂ Represents (insertGroup p.1 p.2 groups)
      (if kept.any fun k => Value.sameRow k.1 p.1 then kept else kept ++ [p]) := by
  induction h with
  | nil => exact .cons ⟨rfl, rfl⟩ .nil
  | @cons g k gs ks hgk hrest ih =>
    rw [insertGroup, any_cons, hgk.1]
    cases hsame : Value.sameRow k.1 p.1 with
    | true =>
      -- a later member leaves the first one in its place
      refine .cons ⟨rfl, ?_⟩ hrest
      rw [head?_append, hgk.2, Option.some_or]
    | false =>
      rw [Bool.false_or, if_neg Bool.false_ne_true]
      split
      · rename_i hany
        rw [if_pos hany] at ih
        exact .cons hgk ih
      · rename_i hany
        rw [if_neg hany] at ih
        exact .cons hgk ih

/-- The groups of rows and the distinct rows have the same first members. -/
theorem groupByKey_firsts (keyed : List (List Value × α)) :
    Forall₂ (fun members k => members.head? = some k.2) (groupByKey keyed) (distinctRows keyed) := by
  refine forall₂_map_left_iff.2 (Forall₂.imp (R := Represents) (fun _ _ h => h.2)
    (rel_foldl (R := Eq) (fun groups kept h p q hpq => ?_) .nil (forall₂_refl keyed)))
  cases hpq
  exact insertGroup_represents h p

end Firsts

/-! ## Values over a group -/

variable {env : Environment} {frames : Frames} {t : Tree} {v : Value}

/-- A value without a group is the value over every group. -/
theorem Tree.scalar_of_ungrouped (h : t.scalar env frames none = .ok v) (group : Option (List Row)) :
    t.scalar env frames group = .ok v := by
  induction t generalizing v with
  | step t ih =>
    cases t with
    | binary op l r =>
      simp only [scalar, bind_eq_ok] at h ⊢
      obtain ⟨x, hx, y, hy, hv⟩ := h
      exact ⟨x, ih l (by simp) hx, y, ih r (by simp) hy, hv⟩
    | unary _ a | isNull a | inSubquery a _ =>
      simp only [scalar, bind_eq_ok] at h ⊢
      exact h.imp fun x hx => hx.imp_left (ih a (by simp))
    | between a l u =>
      simp only [scalar, bind_eq_ok] at h ⊢
      obtain ⟨x, hx, y, hy, z, hz, hv⟩ := h
      exact ⟨x, ih a (by simp) hx, y, ih l (by simp) hy, z,
        ih u (by simp) hz, hv⟩
    | outerJoined test a =>
      rw [scalar] at h ⊢
      exact ih a (by simp) h
    | aggregate => cases h
    | _ => simpa only [scalar] using h

/-! ## Selects -/

namespace Select

variable {s : Select Tree}

def groupedByColumns (s : Select Tree) : Select Tree :=
  { s with distinct := false, group := s.columns.map Column.value }

theorem isGrouped_groupedByColumns (columns : s.columns ≠ []) : s.groupedByColumns.isGrouped = true := by
  obtain ⟨c, cs, hcs⟩ := exists_cons_of_ne_nil columns
  simp [isGrouped, groupedByColumns, hcs]

def Shows (env : Environment) (frames : Frames) (s : Select Tree) (row : Row) (p : List Value × List Value) : Prop :=
  columnValues env (row :: frames) none [] s.columns = .ok p.1 ∧
    keyValues env (row :: frames) none s.order = .ok p.2

theorem produced_groupedByColumns {produced : KeyedRows} (columns : s.columns ≠ [])
    (ungrouped : s.isGrouped = false) (unnumbered : ∀ c ∈ s.columns, c.value.isRowNumber = false)
    (h : s.produced env frames = .ok produced) :
    s.groupedByColumns.produced env frames = .ok (distinctRows produced) := by
  obtain ⟨rows, hkept, hrows⟩ := (produced_eq_ok_of_unnumbered ungrouped unnumbered).1 h
  -- the columns are the keys that the rows are grouped by
  have hkeys : Forall₂ (fun row key => scalars env (row :: frames) none (s.columns.map Column.value) = .ok key)
      rows (produced.map Prod.fst) := by
    refine forall₂_map_right_iff.2 (hrows.imp fun row p hp => ?_)
    rw [scalars_eq, mapM_eq_ok, forall₂_map_left_iff]
    exact columnValues_eq_ok.1 hp.1
  have hkeyed : Forall₂ (fun (k : List Value × Row) p => p.1 = k.1 ∧ s.Shows env frames k.2 p)
      ((produced.map Prod.fst).zip rows) produced := by
    clear h hkeys hkept
    induction hrows with
    | nil => exact .nil
    | cons hp _ ih => exact .cons ⟨rfl, hp⟩ ih
  have hfirsts : Forall₂ (fun members p => ∃ row, members.head? = some row ∧ s.Shows env frames row p)
      (groupByKey ((produced.map Prod.fst).zip rows)) (distinctRows produced) :=
    forall₂_trans (groupByKey_firsts _) (distinctRows_forall₂ And.left hkeyed)
      fun _ k _ hhead hk => ⟨k.2, hhead, hk.2⟩
  refine produced_eq_ok.2 ⟨_, contexts_eq_ok.2 ⟨rows, hkept, .inl ⟨isGrouped_groupedByColumns columns, _,
    hkeys, rfl⟩⟩, forall₂_map_left_iff.2 ?_⟩
  rw [groupRows, if_neg (by simpa [groupedByColumns] using columns)]
  refine hfirsts.imp fun members p hp => ?_
  obtain ⟨row, hhead, hvalues, hkeys⟩ := hp
  rw [headD_eq_head?_getD, hhead]
  exact ⟨columnValues_eq_ok.2 ((columnValues_eq_ok.1 hvalues).imp fun _ _ hv => Tree.scalar_of_ungrouped hv _),
    keyValues_eq_ok.2 ((keyValues_eq_ok.1 hkeys).imp fun _ _ hv => Tree.scalar_of_ungrouped hv _)⟩

/-- A select without duplicates gives the rows that it gives when it groups by all of its columns, whatever its
order and its bounds are. -/
theorem run_distinct (env : Environment) (frames : Frames) (s : Select Tree) (distinct : s.distinct = true)
    (columns : s.columns ≠ []) (group : s.group = []) (aggregates : s.hasAggregates = false)
    (unnumbered : ∀ c ∈ s.columns, c.value.isRowNumber = false) (r : Relation)
    (h : s.run env frames = .ok r) :
    ({ s with distinct := false, group := s.columns.map Column.value } : Select Tree).run env frames = .ok r := by
  obtain ⟨rows, hrows, rfl⟩ := run_eq_ok.1 h
  obtain ⟨produced, skipped, taken, hproduced, hskip, htake, rfl⟩ := delivered_eq_ok.1 hrows
  have ungrouped : s.isGrouped = false := by rw [isGrouped, group, aggregates]; rfl
  have hgroups := produced_groupedByColumns columns ungrouped unnumbered hproduced
  refine run_eq_ok.2 ⟨_, delivered_eq_ok.2 ⟨_, skipped, taken, hgroups, hskip, htake, rfl⟩, ?_⟩
  rw [arrange_eq, arrange_eq, distinct]
  rfl

end Select

/-- The prices of items, each once and from the dearest on, but for the first one. -/
def offeredPrices : Select Tree where
  label := 1
  columns := [⟨"price", .column ⟨.decimal, ScalarType.decimal.columnType, 0, "price"⟩,
    ScalarType.decimal.columnType⟩]
  source := some (.table 0 "items")
  distinct := true
  order := [⟨.ascending, .column ⟨.decimal, ScalarType.decimal.columnType, 0, "price"⟩⟩]
  reverse := true
  skip := some (.int 1)

theorem run_distinct_offeredPrices :
    let env : Environment := ⟨[("items", ⟨["price"], [[.int 2], [.null], [.decimal (.ofInt64 3)],
      [.decimal (.ofInt64 2)], [.int 3], [.null]]⟩)], []⟩
    let grouped : Select Tree :=
      { offeredPrices with distinct := false, group := offeredPrices.columns.map Column.value }
    offeredPrices.run env [] = .ok ⟨["price"], [[.int 2], [.null]]⟩ ∧
      grouped.run env [] = .ok ⟨["price"], [[.int 2], [.null]]⟩ :=
  ⟨rfl, Select.run_distinct _ _ offeredPrices rfl (by decide) rfl rfl (by decide) _ rfl⟩

end HiveQuery
