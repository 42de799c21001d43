import HiveQuery.Proofs.ReversedPages

/-!
# Pages that begin before the first row

A negative number of rows to skip counts as none. Both ways of lowering skipped rows add it to the number of
rows to take before anything is counted, so that the page ends too early by as many rows.
-/

namespace HiveQuery

variable {env : Environment} {next next' : Alias}

theorem toInt_add_of_negative {n m : Int64} (hn : n.toInt < 0) (hm : 0 ≤ m.toInt) :
    (n + m).toInt = n.toInt + m.toInt := by
  have hleast := Int64.le_toInt n
  have hgreatest := Int64.toInt_lt m
  rw [Int64.toInt_add, Int.bmod_eq_of_le (by omega) (by omega)]

namespace Select

variable {s o f base : Select Tree} {keys : List (SortKey Tree)} {label : Alias} {n : Int64}
  {take : Option Int64} {rows : KeyedRows}

theorem NumberedBase.paged (hb : o.NumberedBase next base keys label) (skip take : Option Tree) :
    ({ o with skip := skip, take := take } : Select Tree).NumberedBase next base keys label := by
  cases hb with
  | itself distinct group => exact .itself distinct group
  | layer lifts => exact .layer lifts

namespace StrictPage

/-- Row numbers end a page too early that begins before the first row. -/
theorem numberRows_negative (h : s.StrictPage env take rows) (reverse : s.reverse = false)
    (negative : n.toInt < 0) (counts : ∀ m ∈ take, 0 ≤ m.toInt)
    (hf : (s.numberRows (.constant (.int n)) (boundOf take)).Gives next f next') :
    f.run env [] = .ok ⟨s.headers,
      page none (take.map fun m => (n.toInt + m.toInt).toNat) (rows.map Prod.fst)⟩ := by
  obtain ⟨base, keys, label, hb, kept, hkept, rfl⟩ := h.numberRows_cases hf
  -- the page begins with the first row, and ends where the numbers add up to
  let ends : Option Int64 := take.map (n + ·)
  have hends : countOf ends = take.map fun m => (n.toInt + m.toInt).toNat := by
    rw [countOf, Option.map_map]
    refine Option.map_congr fun m hm => ?_
    rw [Function.comp_apply, toInt_add_of_negative negative (counts m hm)]
  have hkeeps : Keeps env kept label (freeName base.headers "_rownum") (0 : Int64).toInt.toNat
      (countOf ends) := by
    have hzero : n.toInt.toNat = 0 := by omega
    have hkeeps : Keeps env kept label (freeName base.headers "_rownum") n.toInt.toNat
        (take.map fun m => (n.toInt + m.toInt).toNat - n.toInt.toNat) := (windowFilter_keeps_upto hkept).2
    rw [hzero] at hkeeps
    rw [hends]
    exact hkeeps
  have hp := h.pages (i := 0) (by decide) ends
  rw [forward_of_not_reversed reverse] at hp
  have hall : s.allRows.run env [] = .ok ⟨s.headers, rows.map Prod.fst⟩ :=
    run_eq_ok.2 ⟨rows, forward_of_not_reversed reverse ▸ h.delivered, rfl⟩
  rw [← hends]
  refine (hb.paged _ _).window_run_of_run hp (freeName_not_mem _ _) hkeeps (by simp [Frames.Within]) ?_
  have hrun := run_page
    (s := { s with skip := some (.constant (.int 0)), take := boundOf ends }) hall
    (optionalCount_int 0) (optionalCount_take rfl)
  exact hrun

/-- Nested orders end such a page too early as well, unless they count more rows than there are numbers for.
-/
theorem nestOrders_negative (h : s.StrictPage env take rows) (reverse : s.reverse = false)
    (negative : n.toInt < 0)
    (hf : (s.nestOrders (.constant (.int n)) (boundOf take)).Gives next f next') :
    f.run env [] =
      if take = none ∧ greatestInt64 < rows.length - n.toInt then .error (.value (.overflow .subtract))
      else .ok ⟨s.headers,
        page none (take.map fun m => (n.toInt + m.toInt).toNat) (rows.map Prod.fst)⟩ := by
  have hrequired := requireOrder_of_order h.order
  have hrows : s.allRows.delivered env [] = .ok rows := forward_of_not_reversed reverse ▸ h.delivered
  cases take with
  | none =>
    have hgrouped : (s.allRows.sortedBy []).isGrouped = s.allRows.isGrouped :=
      isGrouped_unordered (s := s.allRows) h.aggregates
    rw [nestOrders_counted hrequired h.nestable hrows hgrouped hf, leftOver]
    by_cases hfits : (rows.length : Int) - n.toInt ≤ greatestInt64
    · have hall : rows.length - ((rows.length : Int) - n.toInt).toNat = 0 := by omega
      rw [if_pos hfits, if_neg fun h => absurd h.2 (by omega)]
      show Except.ok (Relation.mk s.headers ((lastOf s.directions _ rows).map Prod.fst)) = _
      rw [lastOf_eq_drop h.strict, hall]
      rfl
    · rw [if_neg hfits, if_pos ⟨rfl, by omega⟩]
      rfl
  | some m =>
    rw [nestOrders_taken hrequired h.nestable hrows hf, if_neg (by simp)]
    show Except.ok (Relation.mk s.headers ((lastOf s.directions _ _).map Prod.fst)) = _
    have hall : (rows.take (n.toInt + m.toInt).toNat).length - m.toInt.toNat = 0 := by
      rw [List.length_take]
      omega
    rw [lastOf_eq_drop (h.strict.sublist ((List.take_sublist _ rows).map Prod.snd)), hall, List.drop_zero,
      List.map_take]
    rfl

end StrictPage

end Select

theorem page_early_iff {α : Type} {n : Int64} {take : Option Int64} (negative : n.toInt < 0)
    (counts : ∀ m ∈ take, 0 ≤ m.toInt) (rows : List α) :
    page none (take.map fun m => (n.toInt + m.toInt).toNat) rows =
        page none (countOf take) rows ↔
      ∀ m ∈ take, m = 0 ∨ rows.length ≤ (n.toInt + m.toInt).toNat := by
  cases take with
  | none => simp
  | some m =>
    have hm := counts m rfl
    have hzero : m = 0 ↔ m.toInt = 0 := Int64.toInt_inj.symm
    simp only [page, Option.map_some, Option.getD_none, List.drop_zero, Option.mem_some_iff, forall_eq',
      List.take_eq_take_iff, hzero]
    omega

/-- A page that begins before the first row, of a query whose root is the only select that skips rows. It
should begin with the first row. Both lowerings let it begin there, but end it too early by the rows that it
begins before the first one. Without an end, nested orders fail if there are too many rows left to count. -/
theorem Tree.lowered_negative_run {t : Tree} {s : Select Tree} {n : Int64} {take : Option Int64}
    {r : Relation} (query : t.query? = some s) (order : s.order ≠ []) (reverse : s.reverse = false)
    (skip : s.skip = some (.constant (.int n))) (negative : n.toInt < 0)
    (takes : s.take = take.map fun m => .constant (.int m)) (counts : ∀ m ∈ take, 0 ≤ m.toInt)
    (nodup : t.declared.Nodup) (headers : s.headers.Nodup) (unskipped : t.allRows.Unskipped)
    (aggregates : s.group = [] → s.isGrouped = false) (ordered : s.allRows.StrictlyOrdered env)
    (run : s.allRows.run env [] = .ok r) :
    t.run env = .ok ⟨r.headers, page none (take.map fun m => m.toInt.toNat) r.rows⟩ ∧
      (∀ {t' next next'}, t.lowerByRowNumber.Gives next t' next' →
        t'.run env =
          .ok ⟨r.headers, page none (take.map fun m => (n.toInt + m.toInt).toNat) r.rows⟩) ∧
      (∀ {t' next next'}, t.lowerByNesting.Gives next t' next' →
        t'.run env =
          if take = none ∧ greatestInt64 < r.rows.length - n.toInt then .error (.value (.overflow .subtract))
          else .ok ⟨r.headers, page none (take.map fun m => (n.toInt + m.toInt).toNat) r.rows⟩) ∧
      (page none (take.map fun m => (n.toInt + m.toInt).toNat) r.rows =
          page none (take.map fun m => m.toInt.toNat) r.rows ↔
        ∀ m ∈ take, m = 0 ∨ r.rows.length ≤ (n.toInt + m.toInt).toNat) := by
  obtain ⟨i, hroot, hdeclared, hevery⟩ := exists_root query
  have hunskipped := s.unskipped_clauses skip takes (hevery unskipped)
  have hforward := Select.StrictPage.forward_of_not_reversed reverse
  obtain ⟨rows, hrows, rfl⟩ := Select.run_eq_ok.1 run
  rw [← hforward] at ordered hrows
  have hpage := ordered.strictPage order takes aggregates headers (nodup.sublist hdeclared) hrows
  have hne : n ≠ 0 := by
    rintro rfl
    exact absurd negative (by decide)
  refine ⟨?_, fun h => ?_, fun h => ?_, page_early_iff negative counts _⟩
  · have hzero : n.toInt.toNat = 0 := by omega
    rw [run_of_query query, hpage.run (congrArg (optionalCount env []) skip), reverse]
    show Except.ok (Relation.mk s.headers (page (some n.toInt.toNat) _ _)) = _
    rw [hzero]
    rfl
  · refine (hpage.lowerSkips_run skip Select.numberRows_ascends (fun hv hpage _ _ hf => ?_) query hunskipped
      h).trans (if_neg hne)
    rw [hpage.numberRows_negative (hv.same.reverse.trans reverse) negative counts hf, hv.headers]
    rfl
  · refine (hpage.lowerSkips_run skip Select.nestOrders_ascends (fun hv hpage _ _ hf => ?_) query hunskipped
      h).trans (if_neg hne)
    rw [hpage.nestOrders_negative (hv.same.reverse.trans reverse) negative hf, hv.headers, List.length_map]
    rfl

def cheapItems : Select Tree :=
  { dearItems with reverse := false, skip := some (.int (-1)), take := some (.int 3) }

theorem lowered_negative_run_cheapItems :
    (Tree.select cheapItems none).declared.Nodup ∧ cheapItems.headers.Nodup ∧
      (Tree.select cheapItems none).allRows.Unskipped ∧
      (cheapItems.group = [] → cheapItems.isGrouped = false) ∧
      cheapItems.allRows.StrictlyOrdered pricedOrders ∧
      (Tree.select cheapItems none).run pricedOrders =
        .ok ⟨["item"], [[.string "map"], [.string "ink"], [.string "pen"]]⟩ ∧
      (∃ t' next', (Tree.select cheapItems none).lowerByRowNumber.Gives 2 t' next' ∧
        t'.run pricedOrders = .ok ⟨["item"], [[.string "map"], [.string "ink"]]⟩) ∧
      ∃ t' next', (Tree.select cheapItems none).lowerByNesting.Gives 2 t' next' ∧
        t'.run pricedOrders = .ok ⟨["item"], [[.string "map"], [.string "ink"]]⟩ := by
  have htake : cheapItems.take = (some 3 : Option Int64).map fun m => .constant (.int m) := rfl
  have hcounts : ∀ m ∈ (some 3 : Option Int64), 0 ≤ m.toInt := by
    rintro _ ⟨rfl⟩
    decide
  have hrun : cheapItems.allRows.run pricedOrders [] =
      .ok ⟨["item"], [[.string "map"], [.string "ink"], [.string "pen"], [.string "cap"]]⟩ := rfl
  obtain ⟨hpage, hnumbered, hnested, -⟩ := Tree.lowered_negative_run (t := .select cheapItems none) rfl
    (by decide) rfl rfl (by decide) htake hcounts (by decide) (by decide) (by decide) (by decide)
    dearItems_strictlyOrdered hrun
  refine ⟨by decide, by decide, by decide, by decide, dearItems_strictlyOrdered, hpage, ?_, ?_⟩
  · exact Lowering.exists_gives_and (by decide +kernel) hnumbered
  · exact Lowering.exists_gives_and (by decide +kernel) hnested

end HiveQuery
