import HiveQuery.Compile
import HiveQuery.Proofs.KeptForms
import HiveQuery.Proofs.NavigationSteps

/-!
# Compiled queries

Each lowering refines a query without members, and these refinements are composed.
-/

namespace HiveQuery
open Lowering

variable {env : Environment} {k k₁ k₂ : Mode} {t u v : Tree} {next next' : Alias} {dialect : Dialect}
  {m : EntityMap} {c : Config}

/-! ## Refined queries -/

def Tree.RefinedBy (env : Environment) (k : Mode) (t u : Tree) : Prop :=
  ∀ s, t.query? = some s → ∃ s', u.query? = some s' ∧ ∃ top, Refines env k (.select top (.same []) s s')

theorem Tree.RefinedBy.trans (hk : k₁.Composes k₂ k) (h₁ : t.RefinedBy env k₁ u)
    (h₂ : u.RefinedBy env k₂ v) : t.RefinedBy env k v := by
  intro s hs
  obtain ⟨s', hs', _, hrefines⟩ := h₁ s hs
  obtain ⟨s'', hs'', top, hrefines'⟩ := h₂ s' hs'
  refine ⟨s'', hs'', top, hrefines.trans hk ⟨rfl, fun _ h => h, rfl, fun _ _ _ h h' => ?_⟩ hrefines'⟩
  exact ⟨h'.1.trans h.1, h'.2.trans h.2⟩

theorem Tree.Rerouted.exists_select {s : Select Tree} {i : Option Identity}
    (h : (select s i).Rerouted (fun c d => d = c) u) :
    ∃ s' j, u = .select s' j ∧ s.SameClauses SameMeaning SameMeaning s' := by
  cases h with
  | node _ same children =>
    have hchildren := forall₂_imp_mem children fun _ _ _ h =>
      sameMeaning (h.imp fun _ _ h => h ▸ ⟨rfl, rfl⟩)
    cases same.of_children hchildren with
    | select _ _ _ hsame => exact ⟨_, _, rfl, hsame⟩

theorem Tree.Rerouted.exists_query {s : Select Tree} (h : t.Rerouted (fun c d => d = c) u)
    (hs : t.query? = some s) : ∃ s' i j, u.query? = some s' ∧
      (select s i).Rerouted (fun c d => d = c) (.select s' j) ∧
      (select s i).declared.Sublist t.declared := by
  rcases query_cases hs with ⟨i, rfl⟩ | ⟨j, shape, i, rfl⟩
  · obtain ⟨s', j, rfl, -⟩ := h.exists_select
    exact ⟨s', i, j, rfl, h, .refl _⟩
  · cases h with
    | node _ same children =>
    cases same with
    | projection =>
    cases children with
    | cons hq _ =>
    obtain ⟨s', j', rfl, -⟩ := hq.exists_select
    exact ⟨s', j, j', rfl, hq, declared_of_child List.mem_cons_self⟩

theorem Tree.Rerouted.refinedBy (h : t.Rerouted (fun c d => d = c) u) (nodup : t.declared.Nodup) :
    t.RefinedBy env k u := by
  intro s hs
  obtain ⟨s', i, j, hs', hselect, hdeclared⟩ := h.exists_query hs
  have hreplaces : Replaces env k (.same []) (.select s i) (.select s' j) :=
    hselect.replaces (nodup.sublist hdeclared)
      ⟨fun _ _ _ _ hc => (nomatch hc), fun _ _ _ h _ => h, fun _ _ _ h _ => h⟩
  obtain ⟨top, _, _, ⟨⟩, hrefines⟩ := hreplaces.scalar.exists_query
  exact ⟨s', hs', top, hrefines⟩

/-! ## What is kept -/

/-- What the lowerings ask of a query, apart from what only the first ones need. -/
structure Tree.Lowerable (next : Alias) (t : Tree) : Prop where
  nodup : t.declared.Nodup
  below : ∀ a ∈ t.declared, a < next
  pageable : t.Pageable

namespace Tree.Lowerable

theorem rerouted {Q : ColumnRef → ColumnRef → Prop} (h : t.Lowerable next) (hu : t.Rerouted Q u) :
    u.Lowerable next where
  nodup := hu.declared ▸ h.nodup
  below := hu.declared ▸ h.below
  pageable := hu.pageable h.pageable

theorem lowerApplies (h : t.Lowerable next) : t.lowerApplies.Lowerable next where
  nodup := t.lowerApplies_declared.nodup_iff.2 h.nodup
  below a ha := h.below a (lowerApplies_mem_declared.1 ha)
  pageable := lowerApplies_pageable h.pageable

theorem names (h : t.Lowerable next) : t.NamesDistinct := fun u hu s hs => (h.pageable u hu s hs).headers

theorem isolateCrossJoins (h : t.Lowerable next) (joins : t.JoinsInSources)
    (hu : t.isolateCrossJoins.run next = (u, next')) : u.Lowerable next' := by
  obtain ⟨st, hvisit, rfl⟩ := isolatesTo_of_run hu
  have hisolated := t.keeps next _ _ _ hvisit (Isolation.untouched_start h.nodup h.below)
  exact
    { nodup := hisolated.declared.nodup
      below := hisolated.declared.lt fun a ha => lt_of_lt_of_le (h.below a ha) hisolated.state.next
      pageable := Tree.IsolatedAs.pageable ⟨_, _, hvisit⟩ joins h.pageable }

end Tree.Lowerable

/-! ## The lowerings together -/

def lowerJoins (c : Config) (lookups : List Alias) (bound : Tree) : Tree :=
  let joined := if c.lowerApplyJoins then bound.lowerApplies else bound
  if c.removeRedundantJoins then joined.dropRepeatedLookups lookups else joined

theorem lower_gives (h : (lower dialect m c t).Gives next u next') :
    ∃ bound lookups next₁ isolated next₂, (t.bindMembers m).Gives next (bound, lookups) next₁ ∧
      (if c.isolates dialect then (lowerJoins c lookups bound).isolateCrossJoins.run next₁
        else (lowerJoins c lookups bound, next₁)) = (isolated, next₂) ∧
      (isolated.lowerPaging dialect).Gives next₂ u next' := by
  obtain ⟨⟨bound, lookups⟩, next₁, hbind, h⟩ := gives_bind.1 h
  dsimp only at h
  split at h
  case isTrue hisolates =>
    obtain ⟨isolated, next₂, hisolated, h⟩ := gives_bind.1 h
    refine ⟨bound, lookups, next₁, isolated, next₂, hbind, ?_, h⟩
    rw [if_pos hisolates]
    exact gives_state.1 hisolated
  case isFalse hisolates =>
    obtain ⟨isolated, next₂, hisolated, h⟩ := gives_bind.1 h
    obtain ⟨rfl, rfl⟩ := gives_pure.1 hisolated
    exact ⟨bound, lookups, next₂, _, next₂, hbind, if_neg hisolates, h⟩

theorem lowerJoins_refinedBy (applies : c.lowerApplyJoins = true → k.applies = true) (partly : k.total = false)
    (pages : k.pages = false) (h : t.Lowerable next) (joins : t.JoinsInSources)
    (unnumbered : t.AppliesUnnumbered) :
    t.RefinedBy env k (lowerJoins c [] t) ∧ (lowerJoins c [] t).Lowerable next ∧
      (lowerJoins c [] t).JoinsInSources := by
  obtain ⟨joined, hjoined⟩ : ∃ joined, (if c.lowerApplyJoins then t.lowerApplies else t) = joined := ⟨_, rfl⟩
  have hjoined' : t.RefinedBy env k joined ∧ joined.Lowerable next ∧ joined.JoinsInSources := by
    subst hjoined
    split
    · next hlowers =>
      refine ⟨fun s hs => ?_, h.lowerApplies, Tree.lowerApplies_every
        (fun _ _ same => same.inSources fun _ _ h => h.isJoin) (fun h => h.joinsInSources) joins⟩
      exact Tree.lowerApplies_refines (applies hlowers) partly pages h.nodup h.names unnumbered.pulls hs
    · exact ⟨(Tree.Rerouted.of_self (Q := fun c d => d = c) (fun _ => rfl) t).refinedBy h.nodup, h, joins⟩
  obtain ⟨hrefined, hlowerable, hjoins⟩ := hjoined'
  rw [lowerJoins, hjoined]
  split
  · have hsingle := joined.dropRepeatedLookups_nil
    have hdropped : joined.RefinedBy env ⟨false, false, false, false, false⟩ (joined.dropRepeatedLookups []) :=
      hsingle.refinedBy hlowerable.nodup
    refine ⟨hrefined.trans ?_ hdropped, hlowerable.rerouted hsingle, hsingle.joinsInSources hjoins⟩
    exact ⟨pages, rfl, partly, rfl, id, id, nofun, nofun, nofun⟩
  · exact ⟨hrefined, hlowerable, hjoins⟩

/-- All lowerings together refine a query. -/
theorem lower_refinedBy (windowing : dialect.allowsRowNumber = true) (free : t.MemberFree)
    (h : t.Lowerable next) (joins : t.JoinsInSources) (unnumbered : t.AppliesUnnumbered)
    (lowered : (lower dialect m c t).Gives next u next') :
    ∃ bound, t.Rerouted (fun c d => d = c) bound ∧
      bound.RefinedBy env ⟨false, true, c.lowerApplyJoins, true, true⟩ u := by
  obtain ⟨bound, lookups, _, isolated, next₂, hbind, hisolated, hpaged⟩ := lower_gives lowered
  obtain ⟨rfl, rfl, hbound⟩ := Tree.bindMembers_memberFree free hbind
  refine ⟨bound, hbound, ?_⟩
  let unpaged : Mode := ⟨false, false, c.lowerApplyJoins, true, false⟩
  obtain ⟨hrefined, hlowerable, hjoins⟩ :
      bound.RefinedBy env unpaged (lowerJoins c [] bound) ∧ (lowerJoins c [] bound).Lowerable _ ∧
        (lowerJoins c [] bound).JoinsInSources :=
    lowerJoins_refinedBy (fun happly => happly) rfl rfl (h.rerouted hbound) (hbound.joinsInSources joins)
      (hbound.appliesUnnumbered unnumbered)
  have hunpaged : bound.RefinedBy env unpaged isolated ∧ isolated.Lowerable next₂ := by
    split at hisolated
    · have hwrapped : (lowerJoins c [] bound).RefinedBy env ⟨false, false, false, true, false⟩ isolated :=
        fun s hs => Tree.isolateCrossJoins_refines rfl rfl hlowerable.nodup hlowerable.below hjoins
          hisolated hs
      refine ⟨hrefined.trans ?_ hwrapped, hlowerable.isolateCrossJoins hjoins hisolated⟩
      exact ⟨rfl, rfl, rfl, rfl, id, id, id, nofun, nofun⟩
    · cases hisolated
      exact ⟨hrefined, hlowerable⟩
  rw [Tree.lowerPaging, if_pos windowing] at hpaged
  have hnumbered : isolated.RefinedBy env ⟨false, true, false, false, true⟩ u := fun s hs =>
    Tree.lowerByRowNumber_refines rfl rfl hunpaged.2.nodup hunpaged.2.below hunpaged.2.pageable hpaged hs
  refine hunpaged.1.trans ?_ hnumbered
  exact ⟨rfl, rfl, rfl, rfl, id, id, nofun, id, id⟩

/-! ## Compilation -/

theorem compile_cases {q : CompiledQuery} (h : (compile dialect m c t).run.run next = (.ok q, next')) :
    (lower dialect m c t).Gives next q.tree next' ∧ q.parameters = q.tree.parameters ∧
      (c.verifyAliasScopes = true → q.tree.checkScopes = .ok ()) := by
  obtain ⟨lowered, next₁, hlowered, h⟩ := (Outcome.except CompileError Alias).of_bind h
  have hlowered : (lower dialect m c t).Gives next lowered next₁ := by
    rcases hl : (lower dialect m c t).run.run next with ⟨r, n⟩
    have hadapt : (r.mapError CompileError.lowering, n) = (.ok lowered, next₁) := by
      rw [← hlowered]
      show _ = (fun p : Except LoweringError Tree × Alias => (p.1.mapError CompileError.lowering, p.2))
        ((lower dialect m c t).run.run next)
      rw [hl]
    cases r with
    | error => cases hadapt
    | ok =>
      cases hadapt
      exact hl
  dsimp only at h
  split at h
  · split at h
    · next hchecked =>
      obtain ⟨rfl, rfl⟩ := (Outcome.except CompileError Alias).of_pure h
      exact ⟨hlowered, rfl, fun _ => hchecked⟩
    · cases h
  · next hunchecked =>
    obtain ⟨rfl, rfl⟩ := (Outcome.except CompileError Alias).of_pure h
    exact ⟨hlowered, rfl, fun hchecked => absurd hchecked hunchecked⟩

theorem compile_gives {q : CompiledQuery} (h : (compile dialect m c t).run.run next = (.ok q, next')) :
    (lower dialect m c t).Gives next q.tree next' :=
  (compile_cases h).1

/-- A query without members that is compiled for a dialect with row numbers gives the same relation:
the same headers, and the same rows in the same order. Each sort key ranges over nulls and one family of
values. Where the filter of a select becomes the condition of a join, sorting also has to order the rows
that the filter drops. -/
theorem compile_run {q : CompiledQuery} {r r' : Relation} (windowing : dialect.allowsRowNumber = true)
    (free : t.MemberFree) (nodup : t.declared.Nodup) (below : ∀ a ∈ t.declared, a < next)
    (joins : t.JoinsInSources) (pageable : t.Pageable) (unnumbered : t.AppliesUnnumbered)
    (comparable : ∀ s, t.query? = some s → FilteredComparable (s.keyRanges env c.lowerApplyJoins []))
    (sortable : ∀ s, t.query? = some s → UnfilteredSortable (s.keyRanges env c.lowerApplyJoins []))
    (compiled : (compile dialect m c t).run.run next = (.ok q, next'))
    (run : t.run env = .ok r) (run' : q.tree.run env = .ok r') : r' = r := by
  obtain ⟨s, hs, hrun⟩ := Tree.exists_query run
  obtain ⟨bound, hbound, hlowered⟩ :=
    lower_refinedBy windowing free ⟨nodup, below, pageable⟩ joins unnumbered (compile_gives compiled)
  obtain ⟨s₁, i, j, hs₁, hselect, -⟩ := hbound.exists_query hs
  obtain ⟨_, _, ⟨⟩, hsame⟩ := hselect.exists_select
  obtain ⟨s', hs', top, hrefines⟩ := hlowered s₁ hs₁
  rw [Tree.run_of_query hs'] at run'
  have hfits : Fits ⟨false, true, c.lowerApplyJoins, true, true⟩ (s₁.keyRanges env c.lowerApplyJoins []) :=
    hsame.keyRanges_eq c.lowerApplyJoins ▸ ⟨fun _ => comparable s hs, fun _ => sortable s hs⟩
  exact ((hrefines.run_agree hfits r (hsame.run_eq.trans hrun)).2 r' run').symm

def pagedNotes : Tree :=
  .select
    { label := 4
      columns := [intColumn 0 "id", intColumn 3 "rank"]
      source := some (.join
        { kind := .outerApply
          left := .join ⟨.cross, .table 0 "customers", .table 1 "customers", none⟩ none
          right := .select
            { label := 3
              columns := [intColumn 2 "rank"]
              source := some (.table 2 "notes")
              filter := some (.binary .equal (intColumn 2 "customer").value (intColumn 0 "id").value)
              order := [⟨.ascending, (intColumn 2 "rank").value⟩] } none } none)
      order := [⟨.descending, (intColumn 3 "rank").value⟩]
      skip := some (.int 1)
      take := some (.int 3) }
    none

theorem compile_run_pagedNotes :
    pagedNotes.MemberFree ∧ pagedNotes.declared.Nodup ∧ (∀ a ∈ pagedNotes.declared, a < 5) ∧
      pagedNotes.JoinsInSources ∧ pagedNotes.Pageable ∧ pagedNotes.AppliesUnnumbered ∧
      (∀ s, pagedNotes.query? = some s → FilteredComparable (s.keyRanges sampleNotes true [])) ∧
      (∀ s, pagedNotes.query? = some s → UnfilteredSortable (s.keyRanges sampleNotes true [])) ∧
      ∃ q next' r', (compile .hiveWindowing [] {} pagedNotes).run.run 5 = (.ok q, next') ∧
        q.tree.run sampleNotes = .ok r' ∧
        r' = ⟨["id", "rank"], [[.int 1, .int 2], [.int 1, .int 1], [.int 1, .int 1]]⟩ := by
  have hfree : pagedNotes.MemberFree := by decide
  have hnodup : pagedNotes.declared.Nodup := by decide
  have hbelow : ∀ a ∈ pagedNotes.declared, a < 5 := by decide
  have hjoins : pagedNotes.JoinsInSources := by decide
  have hpageable : pagedNotes.Pageable := by decide
  have hunnumbered : pagedNotes.AppliesUnnumbered := by decide
  have hcomparable : ∀ s ∈ pagedNotes.query?, FilteredComparable (s.keyRanges sampleNotes true []) := by decide
  have hsortable : ∀ s ∈ pagedNotes.query?, UnfilteredSortable (s.keyRanges sampleNotes true []) := by decide
  have hruns : ((compile .hiveWindowing [] {} pagedNotes).run.run 5).1.toOption.any
      (fun q => (q.tree.run sampleNotes).toOption.any fun _ => true) = true := by decide +kernel
  obtain ⟨q, next', hcompiled, hok⟩ := exists_result_of hruns
  obtain ⟨r', hrun', -⟩ := exists_ok_of hok
  have hrun : pagedNotes.run sampleNotes =
      .ok ⟨["id", "rank"], [[.int 1, .int 2], [.int 1, .int 1], [.int 1, .int 1]]⟩ := rfl
  exact ⟨hfree, hnodup, hbelow, hjoins, hpageable, hunnumbered, hcomparable, hsortable, q, next', r', hcompiled,
    hrun', compile_run rfl hfree hnodup hbelow hjoins hpageable hunnumbered hcomparable hsortable hcompiled
      hrun hrun'⟩

/-- The ranks that are sorted before compilation are numbers. Compiled, a rank that compares with no number is
sorted along with them. -/
theorem compile_run_mixedNotes :
    (rankedNotes .crossApply).MemberFree ∧ (rankedNotes .crossApply).declared.Nodup ∧
      (∀ a ∈ (rankedNotes .crossApply).declared, a < 4) ∧ (rankedNotes .crossApply).JoinsInSources ∧
      (rankedNotes .crossApply).Pageable ∧ (rankedNotes .crossApply).AppliesUnnumbered ∧
      (rankedNotes .crossApply).checkScopes = .ok () ∧
      (∀ s ∈ (rankedNotes .crossApply).query?, RangesComparable (s.keyRanges mixedNotes false [])) ∧
      (rankedNotes .crossApply).run mixedNotes =
        .ok ⟨["id", "rank"], [[.int 1, .int 1], [.int 1, .int 2]]⟩ ∧
      ∃ q next' r', (compile .hiveWindowing [] {} (rankedNotes .crossApply)).run.run 4 = (.ok q, next') ∧
        q.tree.run mixedNotes = .ok r' ∧
        r'.rows.map (fun row => row.map Value.toInt64?) = [[some 1, some 2], [some 1, some 1]] := by
  refine ⟨by decide, by decide, by decide, by decide, by decide, by decide, rfl, by decide, rfl, ?_⟩
  have hruns : ((compile .hiveWindowing [] {} (rankedNotes .crossApply)).run.run 4).1.toOption.any
      (fun q => (q.tree.run mixedNotes).toOption.any fun r =>
        r.rows.map (fun row => row.map Value.toInt64?) = [[some 1, some 2], [some 1, some 1]]) = true := by
    decide +kernel
  obtain ⟨q, next', hcompiled, hq⟩ := exists_result_of hruns
  obtain ⟨r', hrun', hrows⟩ := exists_ok_of hq
  exact ⟨q, next', r', hcompiled, hrun', of_decide_eq_true hrows⟩

end HiveQuery
