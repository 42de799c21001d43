import HiveQuery.Proofs.Rerouting

/-!
# What has no meaning

Identities of queries and types of columns do not count when a query runs.
-/

namespace HiveQuery
open HiveQuery.Tree

variable {b : Bool} {cs cs' : List (Column Tree)} {o o' : Option Tree}

/-- Columns that are read alike, whatever their types are. -/
def SameRef (c d : ColumnRef) : Prop :=
  d.label = c.label ∧ d.name = c.name

/-- Two trees give the same wherever they are computed, and their sort keys range over the same values. -/
structure Tree.SameMeaning (t u : Tree) : Prop where
  scalar : ∀ env frames group, u.scalar env frames group = t.scalar env frames group
  rows : ∀ env frames, u.rows env frames = t.rows env frames
  first : ∀ env frames, u.firstValues env frames = t.firstValues env frames
  sources : u.sources = t.sources
  aggregate : u.hasAggregate = t.hasAggregate
  number : u.isRowNumber = t.isRowNumber
  numbering : ∀ order order', t = .rowNumber order → u = .rowNumber order' →
    order'.map SortKey.direction = order.map SortKey.direction ∧
      ∀ env frames group, keyValues env frames group order' = keyValues env frames group order
  ranges : ∀ env b frames group, u.keyRanges env b frames group = t.keyRanges env b frames group
  unfiltered : ∀ env sources frames, u.unfilteredRanges env sources frames = t.unfilteredRanges env sources frames
  referenced : ∀ a, a ∈ u.referenced ↔ a ∈ t.referenced

section Lists

variable {env : Environment} {frames : Frames} {group : Option (List Row)}

theorem optionRows_congr (h : Option.Rel SameMeaning o o') :
    optionRows env frames o' = optionRows env frames o := by
  cases h with
  | none => rfl
  | some h => exact h.rows env frames

theorem satisfies_congr (h : Option.Rel SameMeaning o o') :
    satisfies env frames o' = satisfies env frames o := by
  cases h with
  | none => rfl
  | some h => rw [satisfies, satisfies, h.scalar]

theorem optionalCount_congr (h : Option.Rel SameMeaning o o') :
    optionalCount env frames o' = optionalCount env frames o := by
  cases h with
  | none => rfl
  | some h => rw [optionalCount, optionalCount, h.scalar]

theorem mapM_congr_forall₂ {α β γ : Type} {R : α → β → Prop} {f : α → Run γ} {g : β → Run γ} {as : List α}
    {bs : List β} (h : List.Forall₂ R as bs) (hfg : ∀ a b, R a b → g b = f a) : bs.mapM g = as.mapM f := by
  induction h with
  | nil => rfl
  | cons hab _ ih => rw [List.mapM_cons, List.mapM_cons, hfg _ _ hab, ih]

theorem scalars_congr {ts us : List Tree} (h : List.Forall₂ SameMeaning ts us) :
    scalars env frames group us = scalars env frames group ts := by
  rw [scalars_eq, scalars_eq]
  exact mapM_congr_forall₂ h fun _ _ h => h.scalar env frames group

theorem keyValues_congr {ks ks' : List (SortKey Tree)}
    (h : List.Forall₂ (fun k k' => k'.direction = k.direction ∧ k.value.SameMeaning k'.value) ks ks') :
    keyValues env frames group ks' = keyValues env frames group ks := by
  rw [keyValues_eq, keyValues_eq]
  exact mapM_congr_forall₂ h fun _ _ h => h.2.scalar env frames group

theorem columnValues_congr (numbers : List (Option Nat))
    (h : List.Forall₂ (fun c c' => c'.name = c.name ∧ c.value.SameMeaning c'.value) cs cs') :
    columnValues env frames group numbers cs' = columnValues env frames group numbers cs := by
  induction h generalizing numbers with
  | nil => rfl
  | cons h _ ih => rw [columnValues, columnValues, h.2.scalar, ih]

theorem rowNumbers_congr {rows : List Row}
    (h : List.Forall₂ (fun c c' => c'.name = c.name ∧ c.value.SameMeaning c'.value) cs cs') :
    rowNumbers env frames rows cs' = rowNumbers env frames rows cs := by
  rw [rowNumbers_eq, rowNumbers_eq]
  refine mapM_congr_forall₂ h fun c c' h => ?_
  obtain ⟨-, h⟩ := h
  cases hn : c.value.isRowNumber with
  | false => rw [rowRanks_of_not hn, rowRanks_of_not (h.number.trans hn)]
  | true =>
    obtain ⟨order, ht⟩ := exists_rowNumber hn
    obtain ⟨order', hu⟩ := exists_rowNumber (h.number.trans hn)
    obtain ⟨hdirections, hkeys⟩ := h.numbering _ _ ht hu
    simp only [ht, hu, rowRanks, hkeys, hdirections]

theorem optionRanges_congr (h : Option.Rel SameMeaning o o') :
    optionRanges env b frames group o' = optionRanges env b frames group o := by
  cases h with
  | none => rfl
  | some h => exact h.ranges env b frames group

theorem listRanges_congr {ts us : List Tree} (h : List.Forall₂ SameMeaning ts us) :
    listRanges env b frames group us = listRanges env b frames group ts := by
  induction h with
  | nil => rfl
  | cons h _ ih => rw [listRanges, listRanges, h.ranges, ih]

theorem sortRanges_congr {ks ks' : List (SortKey Tree)}
    (h : List.Forall₂ (fun k k' => k'.direction = k.direction ∧ k.value.SameMeaning k'.value) ks ks') :
    sortRanges env b frames group ks' = sortRanges env b frames group ks := by
  induction h with
  | nil => rfl
  | cons h _ ih => rw [sortRanges, sortRanges, h.2.ranges, ih]

theorem columnRanges_congr
    (h : List.Forall₂ (fun c c' => c'.name = c.name ∧ c.value.SameMeaning c'.value) cs cs') :
    columnRanges env b frames group cs' = columnRanges env b frames group cs := by
  induction h with
  | nil => rfl
  | cons h _ ih => rw [columnRanges, columnRanges, h.2.ranges, ih]

end Lists

theorem referenced_congr {t u : Tree} (column : u.column? = t.column?)
    (h : List.Forall₂ SameMeaning t.children u.children) (a : Alias) : a ∈ u.referenced ↔ a ∈ t.referenced := by
  rw [mem_referenced, mem_referenced, column]
  refine or_congr .rfl ⟨?_, ?_⟩
  · rintro ⟨c, hc, ha⟩
    obtain ⟨b, hb, hbc⟩ := forall₂_mem_right h hc
    exact ⟨b, hb, (hbc.referenced a).1 ha⟩
  · rintro ⟨b, hb, ha⟩
    obtain ⟨c, hc, hbc⟩ := forall₂_mem_left h hb
    exact ⟨c, hc, (hbc.referenced a).2 ha⟩

/-! ## Selects -/

namespace Select.SameClauses

variable {s s' : Select Tree} {env : Environment} {frames : Frames}

theorem headers_eq {S R : Tree → Tree → Prop} (h : s.SameClauses S R s') : s'.headers = s.headers :=
  map_eq_of_forall₂ h.columns fun _ _ h => h.1

theorem isPlain {S R : Tree → Tree → Prop} (h : s.SameClauses S R s')
    (hR : ∀ a b, R a b → b.hasAggregate = a.hasAggregate) : s'.isPlain = s.isPlain := by
  have hskip := option_isSome_eq h.skip
  have htake := option_isSome_eq h.take
  have hgroup := isEmpty_eq_of_length_eq h.group.length_eq.symm
  have hgrouped := h.isGrouped hR
  rw [Select.isGrouped, Select.isGrouped, hgroup] at hgrouped
  unfold Select.isPlain
  rw [← Option.not_isSome, ← Option.not_isSome, ← Option.not_isSome, ← Option.not_isSome, hskip, htake,
    h.distinct, hgroup]
  cases hempty : s.group.isEmpty
  · simp
  · rw [hempty] at hgrouped
    simp only [Bool.not_true, Bool.false_or] at hgrouped
    rw [hgrouped]

variable (h : s.SameClauses Tree.SameMeaning Tree.SameMeaning s')
include h

theorem pullsFrom_eq (sources : List Alias) : s'.pullsFrom sources = s.pullsFrom sources := by
  have hunfiltered : SameClauses Tree.SameMeaning Tree.SameMeaning { s with filter := none }
      { s' with filter := none } := { h with filter := .none }
  have hreferenced := referenced_congr (t := .select { s with filter := none } none)
    (u := .select { s' with filter := none } none) rfl hunfiltered.clauses
  rw [Select.pullsFrom, Select.pullsFrom, option_isSome_eq h.filter, h.isPlain fun _ _ h => h.aggregate]
  congr 2
  exact Bool.eq_iff_iff.2 (by simp only [List.any_eq_true, hreferenced])

theorem keptRows_eq : s'.keptRows env frames = s.keptRows env frames := by
  rw [keptRows, keptRows, optionRows_congr h.source]
  simp only [satisfies_congr h.filter]

theorem contexts_eq : s'.contexts env frames = s.contexts env frames := by
  rw [contexts, contexts, h.keptRows_eq, h.isGrouped fun _ _ h => h.aggregate,
    h.sourceAliases fun _ _ h => h.sources, isEmpty_eq_of_length_eq h.group.length_eq.symm]
  simp only [scalars_congr h.group, rowNumbers_congr h.columns]

theorem valuesAt_eq (c : Context) : s'.valuesAt env c = s.valuesAt env c := columnValues_congr _ h.columns

theorem keysAt_eq (c : Context) : s'.keysAt env c = s.keysAt env c := keyValues_congr h.order

/-- Selects whose clauses give the same give the same rows. -/
theorem delivered_eq : s'.delivered env frames = s.delivered env frames := by
  have hdirections : s'.directions = s.directions := map_eq_of_forall₂ h.order fun _ _ h => h.1
  rw [delivered, delivered, produced, produced, h.contexts_eq,
    optionalCount_congr h.skip, optionalCount_congr h.take, h.distinct, h.reverse, hdirections]
  simp only [h.valuesAt_eq, h.keysAt_eq]

theorem run_eq : s'.run env frames = s.run env frames := by
  rw [Select.run_eq, Select.run_eq, h.delivered_eq, h.headers_eq]

theorem keyRanges_eq (b : Bool) : s'.keyRanges env b frames = s.keyRanges env b frames := by
  have hkept : s'.keptRows env frames = s.keptRows env frames := h.keptRows_eq
  have hcontexts : s'.contexts env frames = s.contexts env frames := h.contexts_eq
  have hown : (s'.order.map fun k => (⟨false, do
        let contexts ← s.contexts env frames
        contexts.mapM fun c => k.value.scalar env c.frames c.group⟩ : KeyRange)) =
      s.order.map fun k => ⟨false, do
        let contexts ← s.contexts env frames
        contexts.mapM fun c => k.value.scalar env c.frames c.group⟩ :=
    map_eq_of_forall₂ h.order fun _ _ h => by simp only [h.2.scalar]
  cases s
  cases s'
  simp only [keyRanges, hcontexts, hkept, hown, optionRanges_congr h.source, optionRows_congr h.source,
    optionRanges_congr h.filter, listRanges_congr h.group, columnRanges_congr h.columns,
    sortRanges_congr h.order, optionRanges_congr h.skip, optionRanges_congr h.take]

theorem unfilteredRanges_eq (sources : List Alias) (i j : Option Identity) :
    (select s' j).unfilteredRanges env sources frames = (select s i).unfilteredRanges env sources frames := by
  have hpulls := h.pullsFrom_eq sources
  have hown : (s'.order.map fun k => (⟨true, do
        let rows ← optionRows env frames s.source
        rows.mapM fun row => k.value.scalar env (row :: frames) none⟩ : KeyRange)) =
      s.order.map fun k => ⟨true, do
        let rows ← optionRows env frames s.source
        rows.mapM fun row => k.value.scalar env (row :: frames) none⟩ :=
    map_eq_of_forall₂ h.order fun _ _ h => by simp only [h.2.scalar]
  cases s
  cases s'
  simp only [unfilteredRanges, hpulls, hown, optionRows_congr h.source, sortRanges_congr h.order]

end Select.SameClauses

/-! ## Trees -/

variable {t u : Tree}

theorem SameRef.sameMeaning {c d : ColumnRef} (h : SameRef c d) :
    (column c).SameMeaning (.column d) where
  scalar env frames group := by
    rw [scalar, scalar, lookup?_congr frames h.1 h.2, h.1, h.2]
  rows _ _ := rfl
  first _ _ := rfl
  sources := rfl
  aggregate := rfl
  number := rfl
  numbering _ _ h := nomatch h
  ranges _ _ _ _ := rfl
  unfiltered _ _ _ := rfl
  referenced a := by
    rw [mem_referenced, mem_referenced]
    simp [column?, h.1]

theorem Tree.SameNode.sameMeaning (h : t.SameNode SameMeaning u) : t.SameMeaning u where
  sources := h.sources fun _ _ h => h.sources
  aggregate := h.hasAggregate fun _ _ h => h.aggregate
  number := by cases h <;> rfl
  scalar env frames group := by
    cases h with
    | binary op hl hr => rw [scalar, scalar, hl.scalar, hr.scalar]
    | unary op h => rw [scalar, scalar, h.scalar]
    | between ht hl hu => rw [scalar, scalar, ht.scalar, hl.scalar, hu.scalar]
    | isNull h => rw [scalar, scalar, h.scalar]
    | outerJoined _ h => rw [scalar, scalar, h.scalar]
    | select _ _ _ h => rw [scalar, scalar, h.run_eq]
    | scalarSubquery _ h => rw [scalar, scalar, h.first]
    | existsSubquery h => rw [scalar, scalar, h.first]
    | inSubquery ht hq => rw [scalar, scalar, ht.scalar, hq.first]
    | aggregate kind distinct type h =>
      cases h with
      | none => rfl
      | some h =>
        cases group with
        | none => rfl
        | some rows =>
          rw [scalar, scalar]
          simp only [h.scalar]
    | _ => rfl
  rows env frames := by
    cases h with
    | select _ _ hlabel h => rw [rows, rows, h.run_eq, hlabel]
    | join kind _ _ hl hr hc => simp only [rows, hl.rows, hr.rows, hr.sources, satisfies_congr hc]
    | _ => rfl
  first env frames := by
    cases h with
    | select _ _ _ h => rw [firstValues, firstValues, h.run_eq]
    | _ => rfl
  numbering order order' ht hu := by
    cases h with
    | rowNumber h =>
      cases ht
      cases hu
      exact ⟨map_eq_of_forall₂ h fun _ _ h => h.1, fun env frames group => keyValues_congr h⟩
    | _ => cases ht
  ranges env b frames group := by
    cases h with
    | binary op hl hr => rw [keyRanges, keyRanges, hl.ranges, hr.ranges]
    | unary op h => rw [keyRanges, keyRanges, h.ranges]
    | between ht hl hu => rw [keyRanges, keyRanges, ht.ranges, hl.ranges, hu.ranges]
    | isNull h => rw [keyRanges, keyRanges, h.ranges]
    | outerJoined _ h => rw [keyRanges, keyRanges, h.ranges]
    | select _ _ _ h => rw [keyRanges, keyRanges, h.keyRanges_eq]
    | join kind _ _ hl hr hc =>
      simp only [keyRanges, hl.rows, hl.ranges, hl.sources, hr.rows, hr.ranges, hr.unfiltered, optionRanges_congr hc,
        ← Option.not_isSome, option_isSome_eq hc]
    | scalarSubquery _ h => rw [keyRanges, keyRanges, h.ranges]
    | existsSubquery h => rw [keyRanges, keyRanges, h.ranges]
    | inSubquery ht hq => simp only [keyRanges, ht.ranges, ht.scalar, hq.ranges]
    | aggregate kind distinct type h => simp only [keyRanges, optionRanges_congr h]
    | rowNumber h => rw [keyRanges, keyRanges, sortRanges_congr h]
    | _ => rfl
  unfiltered env sources frames := by
    cases h with
    | select i j _ h => exact h.unfilteredRanges_eq sources i j
    | _ => rfl
  referenced := referenced_congr h.column? h.children

/-- Trees mean the same that differ in identities and types of columns only. -/
theorem Tree.Rerouted.sameMeaning (h : t.Rerouted SameRef u) : t.SameMeaning u :=
  h.rel (fun hcd => hcd.sameMeaning) fun _ _ same => same.sameMeaning

end HiveQuery
