import HiveQuery.Proofs.NumberedSelects

/-!
# Row numbers in whole trees

Row numbers replace skipped rows in every select of a tree, from the innermost one outwards.
-/

namespace HiveQuery

variable {next' : Alias} {i : Option Identity} {lower : SkipLowering} {v : Tree}
open List Lowering Select
variable {env : Environment} {k : Mode} {scope : List Alias} {next : Alias} {s : Select Tree} {t u : Tree}

/-! ## Aliases go up -/

def Lowering.Ascends {α : Type} (x : Lowering α) : Prop :=
  ∀ next a next', x.Gives next a next' → next ≤ next'

namespace Lowering.Ascends

variable {α β : Type}

theorem pure (a : α) : (Pure.pure a : Lowering α).Ascends := by
  intro next b next' h
  exact (gives_pure.1 h).2.ge

theorem bind {x : Lowering α} {f : α → Lowering β} (hx : x.Ascends) (hf : ∀ a, (f a).Ascends) :
    (x >>= f).Ascends := by
  intro next b next' h
  obtain ⟨a, next₁, ha, hb⟩ := gives_bind.1 h
  exact (hx _ _ _ ha).trans (hf a _ _ _ hb)

theorem fresh : (liftM HiveQuery.fresh : Lowering Alias).Ascends := by
  intro next a next' h
  obtain ⟨_, rfl⟩ := gives_fresh.1 h
  exact Nat.le_succ next

theorem except (x : Except LoweringError α) : (liftM x : Lowering α).Ascends := by
  intro next a next' h
  exact (gives_except.1 h).2.ge

theorem evaluating (x : Except ValueError α) : (HiveQuery.evaluating x).Ascends := by
  intro next a next' h
  exact (gives_evaluating.1 h).2.ge

end Lowering.Ascends

theorem Select.layer_ascends (s : Select Tree) (finish : Select Tree → Select Tree) :
    (s.layer finish).Ascends :=
  .bind .fresh fun _ => .bind (.except _) fun _ => .pure _

theorem Select.windowFilter_ascends (number skip : Tree) (take : Option Tree) :
    (windowFilter number skip take).Ascends := by
  cases take with
  | none => exact .pure _
  | some t => exact .bind (.evaluating _) fun _ => .bind (.evaluating _) fun _ => .pure _

theorem Select.numberRows_ascends (s : Select Tree) (skip : Tree) (take : Option Tree) :
    (s.numberRows skip take).Ascends := by
  refine .bind (.except _) fun _ => .bind ?_ fun _ => ?_
  · unfold numberedBase
    split
    · exact .pure _
    · exact layer_ascends _ _
  · exact .bind .fresh fun _ => .bind (windowFilter_ascends _ _ _) fun _ => .pure _

theorem Select.lowerSkip_ascends (hlower : ∀ s skip take, (lower s skip take).Ascends) (s : Select Tree)
    (skip : Tree) : (s.lowerSkip lower skip).Ascends := by
  refine .bind (.evaluating _) fun skip => ?_
  split
  · exact .pure _
  · refine .bind ?_ fun _ => hlower _ _ _
    cases s.take with
    | none => exact .pure _
    | some t => exact .bind (.evaluating _) fun _ => .pure _

theorem Tree.lowerSkipAt_ascends (hlower : ∀ s skip take, (lower s skip take).Ascends) (t : Tree) :
    (t.lowerSkipAt lower).Ascends := by
  unfold lowerSkipAt
  split
  · split
    · exact .pure _
    · exact .bind (lowerSkip_ascends hlower _ _) fun _ => .pure _
  · exact .pure _

/-! ## One node -/

theorem Tree.exists_childScope (hu : u ∈ t.children) (scope : List Alias) :
    ∃ X, (X, u) ∈ t.childScopes scope := by
  cases t with
  | select s i => exact exists_clauseScope hu scope
  | join j i =>
    obtain ⟨kind, l, r, c⟩ := j
    simp only [children, mem_cons, Option.mem_toList] at hu
    simp only [childScopes, mem_cons, Prod.mk.injEq, mem_map, Option.mem_toList]
    rcases hu with rfl | rfl | hu
    · exact ⟨scope, .inl ⟨rfl, rfl⟩⟩
    · exact ⟨_, .inr (.inl ⟨rfl, rfl⟩)⟩
    · exact ⟨_, .inr (.inr ⟨u, hu, rfl, rfl⟩)⟩
  | _ => exact ⟨scope, mem_map_of_mem hu⟩

namespace Tree.Lowers

variable {t v : Tree}

theorem join_source {kind : JoinKind} {l r l' r' : Tree} {c c' : Option Tree} {i' : Option Identity}
    (hl : l.LowersIn env k ((join ⟨kind, l, r, c⟩ i).childScopes scope) l')
    (hr : r.LowersIn env k ((join ⟨kind, l, r, c⟩ i).childScopes scope) r')
    (hc : Option.Rel (LowersIn env k ((join ⟨kind, l, r, c⟩ i).childScopes scope)) c c') :
    ∃ ν : ColumnMatch, ν.Keeps (l.sources ++ r.sources) ∧ ∀ μ : Reads, μ.Keeps scope → ∀ top,
      Refines env k (.source top μ ν (.join ⟨kind, l, r, c⟩ i) (.join ⟨kind, l', r', c'⟩ i')) := by
  obtain ⟨ν, hν, hleft⟩ := (hl.2 scope (by simp [childScopes])).source
  obtain ⟨ν', hν', hright⟩ := (hr.2 _ (by simp [childScopes]; exact .inr (.inl rfl))).source
  refine ⟨joinMatch l.sources l.sources ν ν', hν.join hν', fun μ hμ top => ?_⟩
  have hjoined : Refines env k (.source top μ (joinMatch l.sources l'.sources ν ν')
      (.join ⟨kind, l, r, c⟩ i) (.join ⟨kind, l', r', c'⟩ i')) := by
    refine .joined kind i i' (.plain (hleft μ hμ false)) (.plain (hright _ ?_ false))
      (option_isSome_eq hc) fun t u ht hu => ?_
    · rw [hl.sources]
      split
      · exact hμ.within hν
      · exact hμ
    · have hab := option_rel_of_some hc ht hu
      rw [hl.sources, hr.sources]
      exact (hab.2 _ (by simp [childScopes, ht])).scalar _ (hμ.within (hν.join hν'))
  rwa [hl.sources] at hjoined

theorem of_sameNode (h : t.SameNode (LowersIn env k (t.childScopes scope)) v)
    (hselect : t.isSelect = false) (ht : t.Hygienic scope) : t.Lowers env k scope v where
  sources := h.sources fun _ _ => Tree.LowersIn.sources
  aggregate := h.hasAggregate fun _ _ => Tree.LowersIn.aggregate
  exact := h.isExact fun _ _ => Tree.LowersIn.exact
  hygienic := h.hygienic (fun _ _ => Tree.LowersIn.sources) ht fun X _ _ hX hab =>
    (hab.2 X hX).hygienic
  scalar μ hμ := by
    cases hcolumn : t.column? with
    | some c =>
      cases h with
      | column c => exact .column (hμ.links c)
      | _ => cases hcolumn
    | none =>
      refine .scalar_of_sameNode h hselect hcolumn (fun _ _ => Tree.LowersIn.aggregate) ?_
      intro hinert a ha b hab
      refine (hab.2 scope ?_).scalar μ hμ
      cases t with
      | select => cases hselect
      | join => cases hinert
      | _ => exact mem_map_of_mem ha
  source := by
    cases h with
    | table a name =>
      exact ⟨sameName, ColumnMatch.Keeps.of_sameName _, fun μ _ top => .table top μ a a name⟩
    | join kind i i' hl hr hc => exact join_source hl hr hc
    | select => cases hselect
    | _ => exact ⟨sameName, ColumnMatch.Keeps.of_sameName _, fun μ _ top => .notSource top μ rfl rfl⟩
  ordered := by
    intro u' lifted hlift
    obtain ⟨s, i, _, _, _, rfl, _⟩ := liftedOrder_cases hlift
    cases h with
    | select => cases hselect

end Tree.Lowers

theorem Tree.SameNode.isSelect {R : Tree → Tree → Prop} (h : t.SameNode R v) : v.isSelect = t.isSelect := by
  cases h <;> rfl

theorem Tree.lowerSkipAt_cases (h : (v.lowerSkipAt lower).Gives next u next') :
    (u = v ∧ next' = next ∧ ∀ s ∈ v.select?, s.skip = none) ∨
      ∃ s i skip f, v = .select s i ∧ s.skip = some skip ∧ u = .select f none ∧
        (s.lowerSkip lower skip).Gives next f next' := by
  cases v with
  | select s i =>
    simp only [lowerSkipAt] at h
    split at h
    · next hskip =>
      obtain ⟨rfl, rfl⟩ := gives_pure.1 h
      refine .inl ⟨rfl, rfl, ?_⟩
      rintro _ ⟨rfl⟩
      exact hskip
    · next skip hskip =>
      obtain ⟨f, m, hf, hpure⟩ := gives_bind.1 h
      obtain ⟨rfl, rfl⟩ := gives_pure.1 hpure
      exact .inr ⟨s, i, skip, f, rfl, hskip, rfl, hf⟩
  | _ =>
    obtain ⟨rfl, rfl⟩ := gives_pure.1 h
    exact .inl ⟨rfl, rfl, nofun⟩

theorem Tree.lowerSkipAt_lowers (pages : k.pages = true) (sorted : k.sorted = true) (hs : s.Pageable)
    (hygienic : (select s i).Hygienic scope)
    (hsame : (select s i).SameNode (LowersIn env k ((select s i).childScopes scope)) v)
    (around : ∀ a ∈ scope, a < next) (hreplace : (v.lowerSkipAt numberRows).Gives next u next') :
    (select s i).Lowers env k scope u := by
  cases hsame with
  | @select s s' i i' hlabel hclauses =>
    have hvisited : s.Visited env k scope s' :=
      ⟨hlabel, hclauses, hygienic_iff.2 (hygienic_iff.1 hygienic), hs.reverse, hs.keys⟩
    rcases lowerSkipAt_cases hreplace with ⟨rfl, rfl, -⟩ | ⟨_, _, skip', f, ⟨rfl, rfl⟩, hskip', rfl, hf⟩
    · exact .of_select pages hs.headers hvisited.lowers fun hrequire =>
        (hvisited.requires pages sorted hrequire).lowers
    · have hsome := option_isSome_eq hclauses.skip
      rw [hskip'] at hsome
      obtain ⟨skip, hskip⟩ := Option.isSome_iff_exists.1 hsome.symm
      obtain ⟨n, rfl, hn⟩ := hs.skip skip hskip
      cases hskip'.symm.trans (hvisited.skip_visited hskip)
      obtain ⟨hlowers, hrequired⟩ := hvisited.lowerSkip pages sorted hs hskip hn around hf
      exact .of_select pages hs.headers hlowers hrequired

/-! ## Whole trees -/

def Tree.Pageable (t : Tree) : Prop :=
  t.Every fun u => ∀ s, u.select? = some s → s.Pageable

instance (t : Tree) : Decidable t.Pageable :=
  inferInstanceAs (Decidable (t.Every _))

/-- A tree with row numbers refines the tree. -/
theorem Tree.lowerByRowNumber_lowers (pages : k.pages = true) (sorted : k.sorted = true)
    (hygienic : t.Hygienic scope) (below : ∀ a ∈ t.declared, a < next) (around : ∀ a ∈ scope, a < next)
    (pageable : t.Pageable) (h : t.RebuiltAs (lowerSkipAt numberRows) next u) :
    t.Lowers env k scope u := by
  induction t generalizing scope u with
  | step t ih =>
    obtain ⟨v, m, m', hm, hreplace, hsame⟩ := h.node (lowerSkipAt_ascends numberRows_ascends _ _ _ _)
    obtain ⟨hnode, hchildren⟩ := every_iff.1 pageable
    have hlowers : t.SameNode (LowersIn env k (t.childScopes scope)) v := by
      refine hsame.imp fun a b ha hab => ⟨exists_childScope ha scope, fun X hX => ?_⟩
      refine ih a ha (hygienic.child hX) ?_ ?_ (hchildren a ha) hab.2
      · exact fun c hc => below c ((declared_of_child ha).subset hc)
      · intro c hc
        rcases mem_of_childScopes hX c hc with hc | hc
        · exact below c (t.brings_sublist.subset hc)
        · exact around c hc
    cases hselect : t.isSelect with
    | false =>
      rcases lowerSkipAt_cases hreplace with ⟨rfl, -⟩ | ⟨s, i, -, -, rfl, -⟩
      · exact .of_sameNode hlowers hselect hygienic
      · cases hlowers.isSelect.trans hselect
    | true =>
      obtain ⟨s, i, rfl⟩ : ∃ s i, t = .select s i := by
        cases t with
        | select s i => exact ⟨s, i, rfl⟩
        | _ => cases hselect
      exact lowerSkipAt_lowers pages sorted (hnode s rfl) hygienic hlowers
        (fun a ha => (around a ha).trans_le hm) hreplace

/-! ## Runs -/

def Tree.query? : Tree → Option (Select Tree)
  | .select s _ => some s
  | .projection (.select s _) _ _ => some s
  | _ => none

theorem Tree.exists_query {r : Relation} (h : t.run env = .ok r) :
    ∃ s, t.query? = some s ∧ s.run env [] = .ok r := by
  cases t with
  | select s i => exact ⟨s, rfl, h⟩
  | projection q shape i =>
    cases q with
    | select s j => exact ⟨s, rfl, h⟩
    | _ => cases h
  | _ => cases h

theorem Tree.query_cases (h : t.query? = some s) :
    (∃ i, t = .select s i) ∨ ∃ j shape i, t = .projection (.select s j) shape i := by
  cases t with
  | select s i => cases h; exact .inl ⟨i, rfl⟩
  | projection q shape i =>
    cases q with
    | select s j => cases h; exact .inr ⟨j, shape, i, rfl⟩
    | _ => cases h
  | _ => cases h

theorem Tree.run_of_query (h : t.query? = some s) : t.run env = s.run env [] := by
  rcases query_cases h with ⟨i, rfl⟩ | ⟨j, shape, i, rfl⟩
  · rfl
  · rfl

theorem Refines.exists_query {μ : Reads} (h : Refines env k (.scalar μ (.select s i) u)) :
    ∃ top s' j, u = .select s' j ∧ Refines env k (.select top μ s s') := by
  cases h with
  | inert _ left => cases left
  | query _ j select => exact ⟨_, _, j, rfl, select⟩

theorem Tree.lowerByRowNumber_refines (pages : k.pages = true) (sorted : k.sorted = true)
    (nodup : t.declared.Nodup) (below : ∀ a ∈ t.declared, a < next) (pageable : t.Pageable)
    (h : t.lowerByRowNumber.Gives next u next') (hs : t.query? = some s) :
    ∃ s', u.query? = some s' ∧ ∃ top, Refines env k (.select top (.same []) s s') := by
  have hrebuilt : t.RebuiltAs (lowerSkipAt numberRows) next u := ⟨_, _, le_refl _, h⟩
  have hygienic : t.Hygienic [] := hygienic_of_nodup nodup (by simp)
  rcases query_cases hs with ⟨i, rfl⟩ | ⟨j, shape, i, rfl⟩
  · have hlowers : (select s i).Lowers env k [] u :=
      lowerByRowNumber_lowers pages sorted hygienic below (by simp) pageable hrebuilt
    obtain ⟨top, s', j, rfl, hselect⟩ := (hlowers.scalar _ (.same [])).exists_query
    exact ⟨s', rfl, top, hselect⟩
  · obtain ⟨v, m, m', hm, hreplace, hsame⟩ := hrebuilt.node (lowerSkipAt_ascends numberRows_ascends _ _ _ _)
    cases hsame with
    | @projection _ _ q' _ i i' hq hshape =>
      obtain ⟨rfl, rfl⟩ := gives_pure.1 hreplace
      have hlowers : (select s j).Lowers env k [] q' :=
        lowerByRowNumber_lowers pages sorted (hygienic.scalar rfl rfl hq.1)
          (fun a ha => below a ((declared_of_child hq.1).subset ha)) (by simp)
          (pageable.child hq.1) hq.2
      obtain ⟨top, s', j, rfl, hselect⟩ := (hlowers.scalar _ (.same [])).exists_query
      exact ⟨s', rfl, top, hselect⟩

/-- Numbering the rows of the selects of a query keeps what the query gives, in all selects that skip
rows, whether they drop repeated rows, group rows or take over the order of the select below. -/
theorem Tree.lowerByRowNumber_run {t t' : Tree} {next' : Alias} {r : Relation}
    (nodup : t.declared.Nodup) (below : ∀ a ∈ t.declared, a < next) (pageable : t.Pageable)
    (comparable : ∀ s, t.query? = some s → RangesComparable (s.keyRanges env false []))
    (lowered : t.lowerByRowNumber.Gives next t' next') (run : t.run env = .ok r) :
    t'.run env = .ok r := by
  obtain ⟨s, hs, hrun⟩ := exists_query run
  let k : Mode := ⟨true, true, false, false, true⟩
  obtain ⟨s', hs', top, hrefines⟩ : ∃ s', t'.query? = some s' ∧
      ∃ top, Refines env k (.select top (.same []) s s') :=
    lowerByRowNumber_refines rfl rfl nodup below pageable lowered hs
  have hagree := hrefines.run_agree (.of_comparable (comparable s hs)) r hrun
  obtain ⟨r', hrun'⟩ := hagree.1 rfl
  have hr : r = r' := hagree.2 r' hrun'
  rw [run_of_query hs', hrun', hr]

def sampleOrders : Environment where
  dataset := [("orders", ⟨["item", "price"], [[.string "pen", .int 3], [.string "ink", .int 1],
    [.string "cap", .int 3], [.string "map", .null]]⟩)]
  arguments := []

def stringColumn (label : Alias) (name : String) : Column Tree :=
  ⟨name, .column ⟨.string, ScalarType.string.columnType, label, name⟩, ScalarType.string.columnType⟩

def itemsByPrice : Select Tree where
  label := 1
  columns := [stringColumn 0 "item"]
  source := some (.table 0 "orders")
  order := [⟨.descending, .column ⟨.int64, ScalarType.int64.columnType, 0, "price"⟩⟩]

def laterItems : Tree :=
  .select { label := 2, columns := [stringColumn 1 "item"], source := some (.select itemsByPrice none)
            skip := some (.int 1), take := some (.int 2) } none

theorem lowerByRowNumber_run_laterItems :
    laterItems.declared.Nodup ∧ (∀ a ∈ laterItems.declared, a < 3) ∧ laterItems.Pageable ∧
      (∀ s, laterItems.query? = some s → RangesComparable (s.keyRanges sampleOrders false [])) ∧
      ∃ t' next', laterItems.lowerByRowNumber.Gives 3 t' next' ∧
        t'.run sampleOrders = .ok ⟨["item"], [[.string "cap"], [.string "ink"]]⟩ := by
  have hcomparable : ∀ s ∈ laterItems.query?, RangesComparable (s.keyRanges sampleOrders false []) := by
    decide
  exact ⟨by decide, by decide, by decide, hcomparable, _, _, rfl,
    Tree.lowerByRowNumber_run (by decide) (by decide) (by decide) hcomparable rfl rfl⟩

end HiveQuery
