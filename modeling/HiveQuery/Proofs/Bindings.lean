import HiveQuery.Proofs.SelectAgreement

/-!
# What rows bind

Each row of a source binds the aliases of that source, and the contexts of a select bind its sources and
what is around.
-/

namespace HiveQuery

variable {rows : List Row} {values : List Value} {row : Row}
open List

variable {c : Context} {v : Value} {group : Option (List Row)} {contexts : List Context}
  {cs : List (Column Tree)}

variable {env : Environment} {frames : Frames}

/-! ## Rows of a source -/

theorem mem_of_filterRows {keep : Row → Run Bool} {kept : List Row} (h : filterRows keep rows = .ok kept)
    (hrow : row ∈ kept) : row ∈ rows := by
  obtain ⟨marks, _, rfl⟩ := filterRows_eq_ok.1 h
  obtain ⟨p, hp, rfl⟩ := mem_map.1 hrow
  exact (of_mem_zip (mem_filter.1 hp).1).1

theorem mem_of_joinRows {kind : JoinKind} {left : List Row} {right : Row → Run (List Row)} {missing : Row}
    {condition : Row → Run Bool} (h : joinRows kind left right missing condition = .ok rows) (hrow : row ∈ rows) :
    ∃ x ∈ left, ∃ candidates, right x = .ok candidates ∧ ∃ y, row = x ++ y ∧ (y = missing ∨ y ∈ candidates) := by
  rw [joinRows, bind_eq_ok] at h
  obtain ⟨joined, hjoined, h⟩ := h
  rw [pure_eq_ok.1 h, mem_flatten] at hrow
  obtain ⟨some, hsome, hrow⟩ := hrow
  obtain ⟨x, hx, hjoin⟩ := forall₂_mem_right (mapM_eq_ok.1 hjoined) hsome
  obtain ⟨candidates, hcandidates, hjoin⟩ := bind_eq_ok.1 hjoin
  obtain ⟨kept, hkept, hjoin⟩ := bind_eq_ok.1 hjoin
  refine ⟨x, hx, candidates, hcandidates, ?_⟩
  rw [pure_eq_ok.1 hjoin] at hrow
  split at hrow
  · exact ⟨missing, mem_singleton.1 hrow, .inl rfl⟩
  · obtain ⟨other, hother, rfl⟩ := mem_map.1 (mem_of_filterRows hkept hrow)
    exact ⟨other, rfl, .inr hother⟩

theorem Tree.rows_induction {P : Tree → Row → Prop}
    (table : ∀ a name r, env.dataset.lookup name = some r → ∀ values ∈ r.rows,
      P (.table a name) (sourceRow a r.columns values))
    (select : ∀ s i frames delivered, s.delivered env frames = .ok delivered → ∀ p ∈ delivered,
      P (.select s i) (sourceRow s.label s.headers p.1))
    (join : ∀ j i x y, P j.left x → y = nullRow j.right.sources ∨ P j.right y → P (.join j i) (x ++ y))
    {t : Tree} (h : t.rows env frames = .ok rows) : ∀ row ∈ rows, P t row := by
  induction t generalizing frames rows with
  | step t ih =>
    intro row hrow
    cases t with
    | table a name =>
      rw [Tree.rows] at h
      cases htable : env.dataset.lookup name with
      | none => simp [htable] at h
      | some r =>
        rw [htable] at h
        rw [← Except.ok.inj h] at hrow
        obtain ⟨values, hvalues, rfl⟩ := mem_map.1 hrow
        exact table a name r htable values hvalues
    | select s i =>
      obtain ⟨delivered, hdelivered, rfl⟩ := rows_select_eq_ok.1 h
      obtain ⟨p, hp, rfl⟩ := mem_map.1 hrow
      exact select s i frames delivered hdelivered p hp
    | join j i =>
      obtain ⟨kind, l, r, c⟩ := j
      rw [Tree.rows, bind_eq_ok] at h
      obtain ⟨left, hleft, h⟩ := h
      split at h
      · obtain ⟨x, hx, candidates, hright, y, rfl, hy⟩ := mem_of_joinRows h hrow
        exact join _ i x y (ih l (by simp) hleft x hx) (hy.imp_right (ih r (by simp) hright y))
      · obtain ⟨right, hright, h⟩ := bind_eq_ok.1 h
        obtain ⟨x, hx, candidates, ⟨⟩, y, rfl, hy⟩ := mem_of_joinRows h hrow
        exact join _ i x y (ih l (by simp) hleft x hx) (hy.imp_right (ih r (by simp) hright y))
    | _ => simp [Tree.rows] at h

/-- The rows of a source bind the aliases of the source. -/
theorem Tree.rows_labels {t : Tree} (h : t.rows env frames = .ok rows) :
    ∀ row ∈ rows, row.map Binding.label = t.sources := by
  refine rows_induction (P := fun t row => row.map Binding.label = t.sources) (fun _ _ _ _ _ _ => rfl)
    (fun _ _ _ _ _ _ _ => rfl) (fun j i x y hx hy => ?_) h
  rw [map_append, hx]
  rcases hy with rfl | hy
  · rw [nullRow_labels]
    rfl
  · rw [hy]
    rfl

theorem scalar_column {c : ColumnRef} (h : frames.lookup? c = some v)
    (group : Option (List Row)) : (Tree.column c).scalar env frames group = .ok v := by
  rw [Tree.scalar, h]

theorem scalar_column_sourceRow {a : Alias} {headers : List String} {ref : ColumnRef} (hlabel : ref.label = a)
    (hv : Binding.value? ⟨a, headers, some values⟩ ref.name = some v) :
    (Tree.column ref).scalar env (sourceRow a headers values :: frames) group = .ok v := by
  have hlookup : Frames.lookup? (sourceRow a headers values :: frames) ref = some v := by
    rw [Frames.lookup?, sourceRow, find?_cons_of_pos (by simp [hlabel])]
    exact hv
  exact scalar_column hlookup group

/-! ## Contexts of a select -/

namespace Select

variable {s : Select Tree}

theorem optionRows_labels (h : optionRows env frames s.source = .ok rows) :
    ∀ row ∈ rows, row.map Binding.label = s.sourceAliases := by
  rw [sourceAliases]
  cases hs : s.source with
  | none =>
    rw [hs] at h
    cases h
    exact forall_mem_singleton.2 rfl
  | some t =>
    rw [hs] at h
    exact Tree.rows_labels h

theorem mem_of_groupRows {single : Bool} {keys : List (List Value)} {members : List Row}
    (h : members ∈ groupRows single keys rows) (hrow : row ∈ members) : row ∈ rows := by
  have hrows : Forall₂ (fun row _ => row ∈ rows) rows rows := forall₂_same.2 fun row hrow => hrow
  obtain ⟨others, _, hgroup⟩ := forall₂_mem_left (groupRows_forall₂ single keys hrows) h
  obtain ⟨other, _, hmem⟩ := forall₂_mem_left hgroup hrow
  exact hmem

theorem contexts_rows {P : Row → Prop} (null : P (nullRow s.sourceAliases))
    (rows : ∀ rows, optionRows env frames s.source = .ok rows → ∀ row ∈ rows, P row)
    (h : s.contexts env frames = .ok contexts) (hc : c ∈ contexts) :
    ∃ row, c.frames = row :: frames ∧ P row ∧ ∀ members ∈ c.group, ∀ other ∈ members, P other := by
  obtain ⟨kept, hkept, h⟩ := contexts_eq_ok.1 h
  obtain ⟨all, hall, hfilter, _⟩ := keptRows_eq_ok.1 hkept
  have hrows : ∀ row ∈ kept, P row := fun row hrow => rows all hall row (mem_of_filterRows hfilter hrow)
  rcases h with ⟨_, keys, _, rfl⟩ | ⟨_, numbers, _, rfl⟩
  · obtain ⟨members, hmembers, rfl⟩ := mem_map.1 hc
    have hall : ∀ row ∈ members, P row := fun row hrow => hrows row (mem_of_groupRows hmembers hrow)
    refine ⟨_, rfl, ?_, fun _ h => by cases h; exact hall⟩
    cases members with
    | nil => exact null
    | cons row members => exact hall row mem_cons_self
  · obtain ⟨p, hp, rfl⟩ := mem_map.1 hc
    exact ⟨_, rfl, hrows _ (mem_of_getElem? (mem_zipIdx_iff_getElem?.1 hp)), nofun⟩

/-- The contexts of a select bind its sources and what is around it. -/
theorem contexts_within {scope : List Alias}
    (hframes : frames.Within scope) (h : s.contexts env frames = .ok contexts)
    (hc : c ∈ contexts) :
    c.frames.Within (s.sourceAliases ++ scope) ∧ ∀ members ∈ c.group, ∀ row ∈ members,
      Frames.Within (row :: c.frames.tail) (s.sourceAliases ++ scope) := by
  obtain ⟨row, heq, hrow, hgroup⟩ := contexts_rows (nullRow_labels _) (fun _ => optionRows_labels) h hc
  rw [heq]
  exact ⟨hframes.cons hrow, fun members hmembers other hother => hframes.cons (hgroup members hmembers other hother)⟩

/-! ## Values of a row -/

theorem rowNumbers_forall₂ {numbers : List (List Nat)}
    (h : rowNumbers env frames rows cs = .ok numbers) :
    Forall₂ (fun (c : Column Tree) n => c.value.isRowNumber = false → n = []) cs numbers := by
  rw [rowNumbers_eq, mapM_eq_ok] at h
  refine h.imp fun c n hc hn => ?_
  rw [Tree.rowRanks_of_not hn] at hc
  exact (Except.ok.inj hc).symm

theorem columnValues_forall₂ {numbers : List (Option Nat)}
    (hn : Forall₂ (fun (c : Column Tree) n => c.value.isRowNumber = false → n = none) cs numbers)
    (h : columnValues env frames group numbers cs = .ok values) :
    Forall₂ (fun (c : Column Tree) v => c.value.isRowNumber = false →
      c.value.scalar env frames group = .ok v) cs values := by
  induction hn generalizing values with
  | nil =>
    rw [columnValues] at h
    cases h
    exact .nil
  | cons hcn _ ih =>
    obtain ⟨v, vs, hv, hvs, rfl⟩ := columnValues_cons_eq_ok.1 h
    refine .cons (fun hc => ?_) (ih hvs)
    rw [hcn hc] at hv
    exact hv

/-- The values that are not row numbers are those of the columns. -/
theorem valuesAt_forall₂ (h : s.contexts env frames = .ok contexts)
    (hc : c ∈ contexts) (hvalues : s.valuesAt env c = .ok values) :
    Forall₂ (fun (d : Column Tree) v => d.value.isRowNumber = false →
      d.value.scalar env c.frames c.group = .ok v) s.columns values := by
  obtain ⟨rows, _, h⟩ := contexts_eq_ok.1 h
  rcases h with ⟨_, keys, _, rfl⟩ | ⟨_, numbers, hn, rfl⟩
  · obtain ⟨members, _, rfl⟩ := mem_map.1 hc
    refine (columnValues_eq_ok.1 hvalues).imp ?_
    intro d v hv _
    exact hv
  · obtain ⟨p, _, rfl⟩ := mem_map.1 hc
    refine columnValues_forall₂ (forall₂_map_right_iff.2 ?_) hvalues
    refine (rowNumbers_forall₂ hn).imp fun d n hdn hd => ?_
    rw [hdn hd]
    rfl

end Select

end HiveQuery
