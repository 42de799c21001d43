import HiveQuery.Proofs.NestedPages
import HiveQuery.Sql.Text
import Mathlib.Data.List.Pairwise

/-!
# Pages of reversed rows

A select may give its rows in the reverse of their order, and skipping then counts from the last row on. Both
ways of lowering skipped rows reverse rows below the layer that sorts them again.
-/

namespace HiveQuery

variable {directions : List Direction} {α : Type}
open List HiveQuery.Tree

variable {scope : List Alias} {extra : List (Column Tree)} {lifted : List (SortKey Tree)} {t : Select Tree}
  {skipped : Option Nat}

variable {env : Environment} {next next' : Alias}

/-! ## Rows without equal keys -/

/-- Rows without equal keys are sorted in one way only. -/
theorem sortByKeys_of_strict {rows rows' : List (α × List Value)}
    (h : StrictKeys directions (rows.map Prod.snd)) (comparable : Comparable (rows.map Prod.snd))
    (perm : rows'.Perm rows) : sortByKeys directions rows' = rows := by
  have hbefore : rows.Pairwise fun p q => precedes directions p.2 q.2 = true ∧
      precedes directions q.2 p.2 = false := by
    refine List.Pairwise.imp_of_mem (fun {p q} hp hq hpq => ?_) (pairwise_map.1 h)
    have hswap := (comparable directions).swap (mem_map_of_mem hp) (mem_map_of_mem hq)
    rw [hpq] at hswap
    rw [precedes, precedes, hpq, hswap]
    exact ⟨rfl, rfl⟩
  have hcomparable : Comparable (rows'.map Prod.snd) :=
    comparable.mono fun _ hkey => (perm.map Prod.snd).subset hkey
  have hperm : (sortByKeys directions rows').Perm rows := sortByKeys_perm.trans perm
  refine hperm.eq_of_pairwise (fun p q hp hq hpq hqp => ?_) (sortByKeys_pairwise hcomparable)
    (hbefore.imp And.right)
  -- of two rows one belongs in front of the other
  by_contra hne
  let apart : α × List Value → α × List Value → Prop := fun p q =>
    precedes directions p.2 q.2 = true ∨ precedes directions q.2 p.2 = true
  have hsymm : Std.Symm apart := ⟨fun _ _ h => h.symm⟩
  have hapart : rows.Pairwise apart := hbefore.imp fun hpq => .inl hpq.1
  rcases hapart.forall (hperm.subset hp) hq hne with h | h
  · exact Bool.false_ne_true (hqp.symm.trans h)
  · exact Bool.false_ne_true (hpq.symm.trans h)

theorem sortByKeys_numbered_reverse {rows : List (α × Nat)} (nodup : (rows.map Prod.snd).Nodup)
    (bound : ∀ p ∈ rows, (p.2 : Int) ≤ greatestInt64) :
    sortByKeys [.ascending] (rows.reverse.map fun p => (p.1, [countValue p.2])) =
      sortByKeys [.ascending] (rows.map fun p => (p.1, [countValue p.2])) := by
  have hsort : ∀ rows' : List (α × Nat), (∀ p ∈ rows', p ∈ rows) →
      sortByKeys [.ascending] (rows'.map fun p => (p.1, [countValue p.2])) =
        (stableSort (fun a b => decide (a.2 < b.2)) rows').map fun p => (p.1, [countValue p.2]) :=
    fun rows' hsub => stableSort_map _ fun a ha b hb =>
      precedes_countValue (bound a (hsub a ha)) (bound b (hsub b hb))
  have hsame : stableSort (fun a b : α × Nat => decide (a.2 < b.2)) rows.reverse =
      stableSort (fun a b => decide (a.2 < b.2)) rows := by
    refine List.Perm.eq_of_pairwise (fun a b ha hb hab hba => ?_)
      (stableSort_pairwise numbers_ordersOn fun _ _ => trivial)
      (stableSort_pairwise numbers_ordersOn fun _ _ => trivial)
      (((stableSort_perm _).trans (reverse_perm rows)).trans (stableSort_perm _).symm)
    simp only [decide_eq_false_iff_not] at hab hba
    refine inj_on_of_nodup_map nodup ?_ (mem_stableSort.1 hb) (by omega)
    exact mem_reverse.1 (mem_stableSort.1 ha)
  rw [hsort _ fun p hp => mem_reverse.1 hp, hsort _ fun p hp => hp, hsame]

theorem ranks_nodup (directions : List Direction) (keys : List (List Value)) :
    (ranks directions keys).Nodup := by
  rw [ranks_eq]
  refine nodup_range.map_on fun i hi j hj hij => ?_
  exact (idxOf_inj ((sortedPlaces_perm directions keys).mem_iff.2 hi)).1 (Nat.succ_injective hij)

/-! ## Row numbers -/

namespace Select

variable {s o base : Select Tree} {keys : List (SortKey Tree)} {frames : Frames} {name : String}
  {label : Alias} {kept : Tree} {n : Int64} {take : Option Int64} {rows : KeyedRows}

def forward (s : Select Tree) : Select Tree :=
  { s with reverse := false }

theorem delivered_reversed (reverse : s.reverse = true) (skip : s.skip = none) (take : s.take = none)
    (h : s.forward.delivered env frames = .ok rows) : s.delivered env frames = .ok rows.reverse := by
  obtain ⟨produced, hproduced, rfl⟩ := (delivered_eq_ok_of_unpaged (s := s.forward) skip take).1 h
  refine (delivered_eq_ok_of_unpaged skip take).2 ⟨produced, hproduced, ?_⟩
  rw [arrange_eq, arrange_eq, reverse]
  rfl

theorem Numberable.window_reversed (h : base.forward.Numberable keys) (reverse : base.reverse = true)
    (hnodup : base.headers.Nodup) (hname : name ∉ base.headers) {skip : Nat} {count : Option Nat}
    (hkept : Keeps env kept label name skip count)
    (hproduced : (base.sortedBy keys).produced env frames = .ok rows) :
    (base.window keys name label kept).run env frames =
      (base.forward.window keys name label kept).run env frames := by
  let numbered := numberedRows (keys.map SortKey.direction) rows
  have hforward : (base.forward.numbering keys name label).delivered env frames =
      .ok (numbered.map fun p => (p.1 ++ [countValue p.2], [])) :=
    h.delivered_numbering.2 ⟨_, hproduced, rfl⟩
  have hreversed : (base.numbering keys name label).delivered env frames =
      .ok (numbered.reverse.map fun p => (p.1 ++ [countValue p.2], [])) := by
    rw [map_reverse]
    exact delivered_reversed reverse h.skip h.take hforward
  have hbound : ∀ p ∈ numbered, 0 < p.2 ∧ (p.2 : Int) ≤ greatestInt64 := by
    intro p hp
    have hcount := produced_length hproduced
    have hle := mem_numberedRows_bounds hp
    omega
  have hnumbers : (numbered.filter fun p => inWindow skip count p.2).map Prod.snd |>.Nodup := by
    have hsub := (filter_sublist (l := numbered) (p := fun p => inWindow skip count p.2)).map Prod.snd
    refine List.Nodup.sublist hsub ?_
    rw [show numbered.map Prod.snd = _ from map_snd_zip (by simp [ranks_length])]
    exact ranks_nodup _ _
  have hsame : (base.window keys name label kept).delivered env frames =
      (base.forward.window keys name label kept).delivered env frames := by
    have hnodup' : base.forward.headers.Nodup := hnodup
    rw [delivered_window_of_numbering hnodup hname hkept hreversed fun p hp => hbound p (mem_reverse.1 hp),
      delivered_window_of_numbering hnodup' hname hkept hforward hbound,
      windowRows, windowRows, filter_reverse,
      sortByKeys_numbered_reverse hnumbers fun p hp => (hbound p (mem_of_mem_filter hp)).2]
  rw [run_eq, run_eq, hsame]
  rfl

theorem Layered.produced_above_reversed (h : s.forward.Layered scope extra lifted) (hsort : ¬ s.Unsortable)
    (hframes : frames.Within scope) (reverse : s.reverse = true)
    (ht : t.columns = s.columns) (skip take : Option Tree)
    (hproduced : (s.widen extra).produced env frames = .ok rows) :
    (t.pageAbove ((s.widen extra).sortedBy []) lifted skip take).produced env frames =
      .ok ((uniqueRows s.distinct rows).map fun p => (p.1.take s.columns.length, p.2)).reverse := by
  have hforward : (((s.widen extra).sortedBy []).forward).delivered env frames =
      .ok ((uniqueRows s.distinct rows).map fun p => (p.1, [])) :=
    (h.delivered_unordered hsort hframes).2 ⟨rows, hproduced, rfl⟩
  have hreversed : ((s.widen extra).sortedBy []).delivered env frames =
      .ok ((uniqueRows s.distinct rows).reverse.map fun p => (p.1, [])) := by
    rw [map_reverse]
    exact delivered_reversed reverse h.skip h.take hforward
  have hlayer : (t.pageAbove ((s.widen extra).sortedBy []) lifted skip take).IsLayer
      ((s.widen extra).sortedBy []) t.columns none := by
    have hlayer := h.above_isLayer ht skip take
    exact ⟨rfl, rfl, hlayer.headers, hlayer.nodup, hlayer.grouped⟩
  have habove := hlayer.produced_of_unfiltered rfl hreversed fun p hp => h.keyValues_lifted hsort hframes hproduced
    ((uniqueRows_sublist s.distinct rows).subset (mem_reverse.1 hp)) none
  rwa [map_reverse, ht] at habove

theorem Layered.delivered_above_reversed (h : s.forward.Layered scope extra lifted)
    (hframes : frames.Within scope) (reverse : s.reverse = true)
    (ht : t.columns = s.columns) (hrows : s.forward.delivered env frames = .ok rows)
    (hstrict : StrictKeys s.directions (rows.map Prod.snd)) (hcomparable : Comparable (rows.map Prod.snd))
    (hne : rows ≠ []) {skip take : Option Tree} {taken : Option Nat}
    (hskip : optionalCount env frames skip = .ok skipped) (htake : optionalCount env frames take = .ok taken) :
    (t.pageAbove ((s.widen extra).sortedBy []) lifted skip take).delivered env frames =
      .ok (page skipped taken rows) := by
  obtain ⟨produced, hproduced, hpage⟩ := (delivered_eq_ok_of_unpaged h.skip h.take).1 hrows
  have hsort : ¬ s.Unsortable := by
    intro hsort
    have hsort : s.forward.Unsortable := hsort
    obtain ⟨-, rfl⟩ := hsort.contexts_eq_nil hproduced
    rw [arrange_nil] at hpage
    exact hne hpage
  obtain ⟨wide, hwide, rfl⟩ := (h.produced_eq_ok hsort).1 hproduced
  have habove := h.produced_above_reversed hsort hframes reverse ht skip take hwide
  have hsorted : rows = sortByKeys s.directions
      ((uniqueRows s.distinct wide).map fun p => (p.1.take s.columns.length, p.2)) := by
    calc rows
        = arrange s.distinct false s.directions (wide.map fun p => (p.1.take s.columns.length, p.2)) := hpage
      _ = sortByKeys s.directions
            (uniqueRows s.distinct (wide.map fun p => (p.1.take s.columns.length, p.2))) := arrange_eq _ _ _ _
      _ = _ := congrArg (sortByKeys s.directions) (h.uniqueRows_cut hwide)
  refine delivered_eq_ok.2 ⟨_, skipped, taken, habove, hskip, htake, congrArg (page skipped taken) ?_⟩
  symm
  calc arrange false false (lifted.map SortKey.direction) _
      = sortByKeys (lifted.map SortKey.direction) _ := arrange_eq _ _ _ _
    _ = rows := by
      rw [h.lifts.directions]
      refine sortByKeys_of_strict hstrict hcomparable ((reverse_perm _).trans ?_)
      rw [hsorted]
      exact sortByKeys_perm.symm

/-- Row numbers count from the first row on, also if the rows are reversed. -/
theorem NumberedBase.reversed_run (hb : o.NumberedBase next base keys label)
    (hp : o.forward.Pages [] n take) (reverse : o.reverse = true) (hname : name ∉ base.headers)
    (hkept : Keeps env kept label name n.toInt.toNat (countOf take))
    (hrows : o.forward.allRows.delivered env [] = .ok rows)
    (hstrict : StrictKeys o.directions (rows.map Prod.snd)) (hcomparable : Comparable (rows.map Prod.snd))
    (hne : rows ≠ []) :
    (base.window keys name label kept).run env [] = .ok ⟨o.headers,
      page (some n.toInt.toNat) (countOf take) (rows.map Prod.fst)⟩ := by
  have hheaders := hb.headers_eq
  have hnodup : base.headers.Nodup := hheaders ▸ hp.nodup
  have hskip : optionalCount env [] o.skip = .ok (some n.toInt.toNat) :=
    congrArg (optionalCount env []) hp.skip
  have htake : optionalCount env [] o.take = .ok (countOf take) := optionalCount_take hp.take
  cases hb with
  | itself distinct group =>
    have hforward : o.forward.NumberedBase next
        ({ o with order := [], skip := none, take := none } : Select Tree).forward o.order next :=
      .itself distinct group
    have hnumberable := hforward.numberable hp
    obtain ⟨produced, _, _, hproduced, -⟩ := delivered_eq_ok.1 hrows
    rw [hnumberable.window_reversed reverse hnodup hname hkept hproduced]
    refine (window_run hnumberable hnodup hname hkept hskip htake).2 ?_
    exact run_page (s := o.forward) (run_eq_ok.2 ⟨rows, hrows, rfl⟩) hskip htake
  | @layer extra _ lifts =>
    have hlifts : (o.forward.unpaged next).Lifts o.order extra keys :=
      ⟨lifts.plain, lifts.values, lifts.nodup, lifts.lifted.imp fun _ _ h => ⟨h.direction, h.column⟩⟩
    have hforward : o.forward.NumberedBase next _ keys (next + 1) := .layer hlifts
    have hnumberable := hforward.numberable hp
    have hlayered : (o.unpaged next).forward.Layered [] extra keys := hp.layered hlifts
    have hdelivered : ({ o.above (((o.unpaged next).widen extra).sortedBy []) with
        order := keys, skip := o.skip, take := o.take } : Select Tree).delivered env [] =
        .ok (page (some n.toInt.toNat) (countOf take) rows) :=
      Layered.delivered_above_reversed (s := o.unpaged next) hlayered (by simp [Frames.Within]) reverse rfl
        hrows hstrict hcomparable hne hskip htake
    have hbase : (o.above (((o.unpaged next).widen extra).sortedBy [])).Numberable keys :=
      ⟨rfl, rfl, rfl, rfl, rfl, hnumberable.grouped, hnumberable.keys⟩
    refine (window_run hbase hnodup hname hkept hskip htake).2 ?_
    rw [run_eq, hdelivered, page_map]
    exact congrArg (fun headers => Except.ok (Relation.mk headers _)) hheaders

end Select

/-! ## Nested orders -/

theorem lastOf_reverse {rows : List (α × List Value)} (h : StrictKeys directions (rows.map Prod.snd))
    (comparable : Comparable (rows.map Prod.snd)) (count : Nat) :
    lastOf directions count rows.reverse = rows.drop (rows.length - count) := by
  have hreversed : StrictKeys (directions.map Direction.inverted) (rows.reverse.map Prod.snd) := by
    rw [map_reverse]
    exact h.reverse
  have hfirst : sortByKeys (directions.map Direction.inverted) rows.reverse = rows.reverse := by
    refine sortByKeys_of_strict hreversed (comparable.mono fun key hkey => ?_) (.refl _)
    rwa [map_reverse, mem_reverse] at hkey
  have htaken := sortByKeys_inverted (hreversed.sublist ((take_sublist count rows.reverse).map Prod.snd))
  rw [map_inverted_inverted] at htaken
  rw [lastOf, hfirst, htaken, take_reverse, reverse_reverse]

/-- Nested orders leave the last rows, however many are skipped. -/
theorem nestedRows_reverse {rows : List (α × List Value)} (h : StrictKeys directions (rows.map Prod.snd))
    (comparable : Comparable (rows.map Prod.snd)) (skip : Nat) (take : Option Nat) :
    nestedRows directions skip take rows.reverse = rows.drop (take.elim skip fun m => rows.length - m) := by
  cases take with
  | none =>
    rw [nestedRows, lastOf_reverse h comparable, length_reverse, Option.elim_none]
    exact drop_eq_drop_iff.2 (by omega)
  | some m =>
    have hsub : ((rows.drop (rows.length - (skip + m))).map Prod.snd).Sublist (rows.map Prod.snd) :=
      (drop_sublist _ rows).map Prod.snd
    have hcount : rows.length - (skip + m) + (rows.length - (rows.length - (skip + m)) - m) =
        rows.length - m := by omega
    rw [nestedRows, take_reverse,
      lastOf_reverse (h.sublist hsub) (comparable.mono fun _ hkey => hsub.subset hkey), length_drop,
      drop_drop, hcount, Option.elim_some]

/-! ## Pages of a query -/

namespace Select

variable {s v f : Select Tree} {n : Int64} {take : Option Int64} {rows : KeyedRows}

theorem Resembles.forward (h : s.Resembles v) : s.forward.Resembles v.forward :=
  ⟨h.label, { h.same with reverse := rfl }⟩

/-- What is asked of a select so that its rows come in one order only, which they have before they are
reversed. -/
structure StrictPage (env : Environment) (s : Select Tree) (take : Option Int64)
    (rows : List (List Value × List Value)) : Prop where
  order : s.order ≠ []
  takes : s.take = take.map fun m => .constant (.int m)
  aggregates : s.group = [] → s.isGrouped = false
  nestable : s.allRows.Nestable
  delivered : s.forward.allRows.delivered env [] = .ok rows
  strict : StrictKeys s.directions (rows.map Prod.snd)
  comparable : Comparable (rows.map Prod.snd)

theorem Resembles.strictPage (h : s.Resembles v) (hs : s.StrictPage env take rows) :
    v.StrictPage env take rows where
  order hnil := hs.order (forall₂_nil_right_iff.1 (hnil ▸ h.same.order))
  takes := int h.same.take hs.takes
  aggregates hgroup := by
    rw [h.isGrouped]
    exact hs.aggregates (forall₂_nil_right_iff.1 (hgroup ▸ h.same.group))
  nestable := h.allRows.nestable hs.nestable
  delivered := (h.forward.allRows.delivered_eq env []).trans hs.delivered
  strict := by
    have hdirections : v.directions = s.directions := map_eq_of_forall₂ h.same.order fun _ _ h => h.1
    exact hdirections ▸ hs.strict
  comparable := hs.comparable

theorem StrictlyOrdered.strictPage {i : Option Identity} (ordered : s.forward.allRows.StrictlyOrdered env)
    (order : s.order ≠ []) (takes : s.take = boundOf take)
    (aggregates : s.group = [] → s.isGrouped = false) (headers : s.headers.Nodup)
    (nodup : (select s i).declared.Nodup) (hrows : s.forward.allRows.delivered env [] = .ok rows) :
    s.StrictPage env take rows := by
  have hown : s.forward.allRows.OrderedBy s.forward.allRows := .own order
  have hsorted := sortedKeys_of_ownRanges hrows rfl (ordered.comparable _ hown)
  have hdistinct := ordered.distinct (requireOrder_of_order order) hrows
  have hnodup := nodup.sublist (s.declared_allRows_sublist i none)
  exact ⟨order, takes, aggregates,
    ⟨headers, ordered.exact s.forward.allRows hown, hygienic_of_nodup hnodup (by simp)⟩, hrows,
    hsorted.strict hdistinct, hsorted.comparable⟩

namespace StrictPage

theorem forward_of_not_reversed (reverse : s.reverse = false) : s.forward = s := by
  rw [forward, ← reverse]

section

variable (h : s.StrictPage env take rows)
include h

theorem run
    (hskip : optionalCount env [] s.skip = .ok skipped) :
    s.run env [] = .ok ⟨s.headers, page skipped (countOf take)
      ((if s.reverse then rows.reverse else rows).map Prod.fst)⟩ := by
  have hall : s.allRows.delivered env [] = .ok (if s.reverse then rows.reverse else rows) := by
    cases hreverse : s.reverse with
    | true => exact delivered_reversed hreverse rfl rfl h.delivered
    | false => exact forward_of_not_reversed hreverse ▸ h.delivered
  exact run_page (run_eq_ok.2 ⟨_, hall, rfl⟩) hskip (optionalCount_take h.takes)

theorem pages {i : Int64} (hi : 0 ≤ i.toInt) (count : Option Int64) :
    ({ s.forward with
        skip := some (.constant (.int i))
        take := boundOf count } : Select Tree).Pages [] i count := by
  obtain ⟨nodup, apart, source, inner, -⟩ := hygienic_iff.1 h.nestable.hygienic
  refine ⟨rfl, hi, rfl, rfl, h.aggregates, h.nestable.exact, h.nestable.headers,
    hygienic_iff.2 ⟨nodup, apart, source, inner, fun u hu => ?_⟩⟩
  have hlocal : u.IsLocal := by
    rcases mem_append.1 hu with hu | hu
    · rw [mem_singleton.1 hu]
      exact isLocal_int i
    · obtain ⟨m, -, rfl⟩ := Option.map_eq_some_iff.1 (Option.mem_toList.1 hu)
      exact isLocal_int m
  exact hlocal.hygienic []

theorem numberRows_cases
    (hf : (s.numberRows (.constant (.int n)) (boundOf take)).Gives next f next') :
    ∃ base keys label, s.NumberedBase next base keys label ∧
      base.WindowOver keys label (.constant (.int n)) (boundOf take) next' f := by
  obtain ⟨s', order, hrequire, base, keys, label, hbase, hwindow⟩ := numberRows_gives hf
  cases (requireOrder_of_order h.order).symm.trans hrequire
  exact ⟨base, keys, label, numberedBase_gives (o := s) h.nestable.exact hbase, hwindow⟩

theorem numberRows_reversed (reverse : s.reverse = true)
    (skip : s.skip = some (.constant (.int n))) (skips : 0 ≤ n.toInt) (hne : rows ≠ [])
    (hf : (s.numberRows (.constant (.int n)) (boundOf take)).Gives next f next') :
    f.run env [] = .ok ⟨s.headers,
      page (some n.toInt.toNat) (countOf take) (rows.map Prod.fst)⟩ := by
  obtain ⟨base, keys, label, hb, kept, hkept, rfl⟩ := h.numberRows_cases hf
  have hp := h.pages skips take
  rw [← skip, boundOf, ← h.takes] at hp
  exact hb.reversed_run hp reverse (freeName_not_mem _ _) (windowFilter_keeps skips hkept).2 h.delivered
    h.strict h.comparable hne

theorem nestOrders_reversed (reverse : s.reverse = true) (skips : 0 ≤ n.toInt)
    (hf : (s.nestOrders (.constant (.int n)) (boundOf take)).Gives next f next') :
    f.run env [] = .ok ⟨s.headers, (rows.map Prod.fst).drop
      ((countOf take).elim n.toInt.toNat fun m => rows.length - m)⟩ := by
  have hgrouped : (s.allRows.sortedBy []).isGrouped = s.allRows.isGrouped :=
    isGrouped_unordered (s := s.allRows) h.aggregates
  have hrun := nestOrders_run (requireOrder_of_order h.order) h.nestable
    (delivered_reversed reverse rfl rfl h.delivered) (fun _ => hgrouped) skips hf
  rw [hrun, ← map_drop]
  have hrows : nestedRows (s.order.map SortKey.direction) _ _ rows.reverse = _ :=
    nestedRows_reverse h.strict h.comparable n.toInt.toNat (countOf take)
  rw [hrows]

theorem lowerSkips_run (skip : s.skip = some (.constant (.int n)))
    {lower : SkipLowering} (ascends : ∀ s skip take, (lower s skip take).Ascends) {given : Run Relation}
    (hlower : ∀ {v f : Select Tree} {next next' : Alias}, s.Resembles v → v.StrictPage env take rows →
      v.skip = some (.constant (.int n)) → n ≠ 0 →
      (lower v (.constant (.int n)) (boundOf take)).Gives next f next' →
      f.run env [] = given)
    {t t' : Tree} (query : t.query? = some s) (unskipped : ∀ a ∈ s.clauses, a.Unskipped)
    (lowered : (t.lowerSkips lower).Gives next t' next') :
    t'.run env = if n = 0 then t.run env else given := by
  obtain ⟨f, hf, v, m, m', hv, hskip, hv'⟩ := lowerSkips_query ascends query unskipped skip lowered
  have hpage := hv.strictPage h
  rw [run_of_query hf, run_of_query query, ← hv.run_eq env []]
  rcases lowerSkip_gives hpage.takes hv' with ⟨hzero, rfl⟩ | ⟨hzero, hlowered⟩
  · subst hzero
    have hunskipped : ({ v with skip := none } : Select Tree).StrictPage env take rows :=
      ⟨hpage.order, hpage.takes, hpage.aggregates, hpage.nestable, hpage.delivered, hpage.strict,
        hpage.comparable⟩
    rw [if_pos rfl, hunskipped.run rfl, hpage.run (congrArg (optionalCount env []) hskip)]
    rfl
  · rw [if_neg hzero]
    exact hlower hv hpage hskip hzero hlowered

end

end StrictPage

end Select

/-- A page of a query whose root gives its rows reversed, and is the only select that skips rows. Row
numbers give the page of the rows that are not reversed. Nested orders give such rows as well, but always
the last ones. -/
theorem Tree.lowered_reversed_run {t : Tree} {s : Select Tree} {n : Int64} {take : Option Int64}
    {r : Relation} (query : t.query? = some s) (order : s.order ≠ []) (reverse : s.reverse = true)
    (skip : s.skip = some (.constant (.int n))) (skips : 0 ≤ n.toInt)
    (takes : s.take = take.map fun m => .constant (.int m)) (nodup : t.declared.Nodup)
    (headers : s.headers.Nodup) (unskipped : t.allRows.Unskipped)
    (aggregates : s.group = [] → s.isGrouped = false) (ordered : s.forward.allRows.StrictlyOrdered env)
    (run : s.forward.allRows.run env [] = .ok r)
    (enough : n.toInt.toNat + take.elim 0 (fun m => m.toInt.toNat) ≤ r.rows.length) :
    t.run env = .ok ⟨r.headers,
        page (some n.toInt.toNat) (take.map fun m => m.toInt.toNat) r.rows.reverse⟩ ∧
      (∀ {t' next next'}, t.lowerByRowNumber.Gives next t' next' →
        t'.run env = if n = 0 then t.run env else .ok ⟨r.headers,
          page (some n.toInt.toNat) (take.map fun m => m.toInt.toNat) r.rows⟩) ∧
      ∀ {t' next next'}, t.lowerByNesting.Gives next t' next' →
        t'.run env = if n = 0 then t.run env else .ok ⟨r.headers,
          r.rows.drop (take.elim n.toInt.toNat fun m => r.rows.length - m.toInt.toNat)⟩ := by
  obtain ⟨i, hroot, hdeclared, hevery⟩ := exists_root query
  have hunskipped := s.unskipped_clauses skip takes (hevery unskipped)
  obtain ⟨rows, hrows, rfl⟩ := Select.run_eq_ok.1 run
  have hpage := ordered.strictPage order takes aggregates headers (nodup.sublist hdeclared) hrows
  have hne : n ≠ 0 → rows ≠ [] := by
    rintro hn rfl
    have hzero : n.toInt = 0 := by
      simp only [map_nil, length_nil] at enough
      omega
    exact hn (Int64.toInt_inj.1 hzero)
  refine ⟨?_, fun h => ?_, fun h => ?_⟩
  · rw [run_of_query query, hpage.run (congrArg (optionalCount env []) skip), if_pos reverse, map_reverse]
    rfl
  · refine hpage.lowerSkips_run skip Select.numberRows_ascends (fun hv hpage hskip hn hf => ?_) query hunskipped h
    rw [hpage.numberRows_reversed (hv.same.reverse.trans reverse) hskip skips (hne hn) hf, hv.headers]
    rfl
  · refine hpage.lowerSkips_run skip Select.nestOrders_ascends (fun hv hpage _ _ hf => ?_) query hunskipped h
    rw [hpage.nestOrders_reversed (hv.same.reverse.trans reverse) skips hf, hv.headers]
    cases take <;> simp [Select.headers, Select.allRows, Select.forward]

def dearItems : Select Tree where
  label := 1
  columns := [stringColumn 0 "item"]
  source := some (.table 0 "orders")
  order := [⟨.ascending, (intColumn 0 "price").value⟩]
  reverse := true
  skip := some (.int 1)
  take := some (.int 2)

theorem dearItems_strictlyOrdered : dearItems.forward.allRows.StrictlyOrdered pricedOrders := by
  have hby : ∀ b, dearItems.forward.allRows.OrderedBy b → b = dearItems.forward.allRows := by
    intro b hb
    cases hb with
    | own => rfl
    | beneath order => cases order
  exact Select.strictlyOrdered_of_run hby (by decide) (by decide) (by decide +kernel)

theorem lowered_reversed_run_dearItems :
    (Tree.select dearItems none).declared.Nodup ∧ dearItems.headers.Nodup ∧
      (Tree.select dearItems none).allRows.Unskipped ∧ (dearItems.group = [] → dearItems.isGrouped = false) ∧
      dearItems.forward.allRows.StrictlyOrdered pricedOrders ∧
      (Tree.select dearItems none).run pricedOrders = .ok ⟨["item"], [[.string "pen"], [.string "ink"]]⟩ ∧
      (∃ t' next', (Tree.select dearItems none).lowerByRowNumber.Gives 2 t' next' ∧
        t'.run pricedOrders = .ok ⟨["item"], [[.string "ink"], [.string "pen"]]⟩) ∧
      ∃ t' next', (Tree.select dearItems none).lowerByNesting.Gives 2 t' next' ∧
        t'.run pricedOrders = .ok ⟨["item"], [[.string "pen"], [.string "cap"]]⟩ := by
  have htake : dearItems.take = (some 2 : Option Int64).map fun m => .constant (.int m) := rfl
  have hrun : dearItems.forward.allRows.run pricedOrders [] =
      .ok ⟨["item"], [[.string "map"], [.string "ink"], [.string "pen"], [.string "cap"]]⟩ := rfl
  obtain ⟨hreversed, hnumbered, hnested⟩ := lowered_reversed_run (t := .select dearItems none) rfl (by decide)
    rfl rfl (by decide) htake (by decide) (by decide) (by decide) (by decide) dearItems_strictlyOrdered hrun
    (by decide)
  refine ⟨by decide, by decide, by decide, by decide, dearItems_strictlyOrdered, hreversed, ?_, ?_⟩
  · exact Lowering.exists_gives_and (by decide +kernel) hnumbered
  · exact Lowering.exists_gives_and (by decide +kernel) hnested

/-! ## The inverted order -/

variable {frames : Frames}

theorem sortByKeys_inverted_of_unequal {rows : List (α × List Value)} (comparable : Comparable (rows.map Prod.snd))
    (unequal : (rows.map Prod.snd).Pairwise fun a b => compareKeys directions a b ≠ .eq) :
    sortByKeys (directions.map Direction.inverted) rows = (sortByKeys directions rows).reverse := by
  have hperm : ((sortByKeys directions rows).map Prod.snd).Perm (rows.map Prod.snd) := sortByKeys_perm.map _
  -- unequal keys stay so in whatever order they come, since comparable keys compare both ways
  have hunequal : ((sortByKeys directions rows).map Prod.snd).Pairwise fun a b =>
      a ∈ rows.map Prod.snd → b ∈ rows.map Prod.snd → compareKeys directions a b ≠ .eq := by
    refine (hperm.pairwise_iff fun hab hb ha heq => hab ha hb ?_).2 (unequal.imp fun hab _ _ => hab)
    rw [(comparable directions).swap hb ha, heq]
    rfl
  have hsorted : StrictKeys directions ((sortByKeys directions rows).map Prod.snd) := by
    exact (sortByKeys_sortedKeys comparable).strict (hunequal.imp_of_mem fun ha hb hab =>
      hab (hperm.subset ha) (hperm.subset hb))
  have hreversed : ((sortByKeys directions rows).reverse.map Prod.snd).Perm (rows.map Prod.snd) := by
    rw [map_reverse]
    exact (reverse_perm _).trans hperm
  refine sortByKeys_of_strict ?_ (comparable.mono fun _ hkey => hreversed.subset hkey)
    (sortByKeys_perm.symm.trans (reverse_perm _).symm)
  rw [map_reverse]
  exact hsorted.reverse

/-! ## Inverted selects -/

theorem keysSql_inverted (cx : Sql.Context) (ks : List (SortKey Tree)) :
    keysSql cx false (ks.map SortKey.inverted) = keysSql cx true ks := by
  induction ks with
  | nil => rfl
  | cons k ks ih =>
    rw [map_cons, SortKey.inverted, keysSql, keysSql, ih]
    rfl

namespace Select

variable {s : Select Tree}

def inverted (s : Select Tree) : Select Tree :=
  { s with reverse := false, order := s.order.map SortKey.inverted }

theorem directions_inverted (s : Select Tree) :
    s.inverted.directions = s.directions.map Direction.inverted := by
  simp [directions, inverted, SortKey.inverted, Function.comp_def]

theorem produced_inverted (env : Environment) (frames : Frames) (s : Select Tree) :
    s.inverted.produced env frames = s.produced env frames := by
  have hgrouped : s.inverted.isGrouped = s.isGrouped := by
    simp [isGrouped, hasAggregates, inverted, SortKey.inverted, Function.comp_def]
  have hcontexts : s.inverted.contexts env frames = s.contexts env frames := by
    rw [contexts, contexts, hgrouped]
    rfl
  have hkeys : ∀ c, s.inverted.keysAt env c = s.keysAt env c := fun c => keyValues_map_inverted c.group s.order
  simp only [produced, hcontexts, hkeys]
  rfl

theorem sql_inverted (cx : Sql.Context) (ordered : s.order ≠ []) (reverse : s.reverse = true) :
    s.inverted.sql cx = s.sql cx := by
  obtain ⟨label, columns, source, filter, order, group, distinct, skip, take, _, cluster⟩ := s
  cases reverse
  obtain ⟨k, ks, rfl⟩ := exists_cons_of_ne_nil ordered
  simp only [inverted, sql, keysSql_inverted]
  rfl

/-- The rows of a select can be sorted in one way only: sorting orders their keys, as it does where each key ranges
over nulls and one family of values, and no two rows have equal keys. -/
structure SortsOneWay (env : Environment) (frames : Frames) (s : Select Tree) : Prop where
  comparable : ∀ rows, s.produced env frames = .ok rows → Comparable ((uniqueRows s.distinct rows).map Prod.snd)
  unequal : ∀ rows, s.produced env frames = .ok rows →
    ((uniqueRows s.distinct rows).map Prod.snd).Pairwise fun a b => compareKeys s.directions a b ≠ .eq

/-- Reversing the rows of a select is sorting them in the inverted order, which is how a reversed select is
spelled. -/
theorem run_reversed (env : Environment) (frames : Frames) (s : Select Tree) (ordered : s.order ≠ [])
    (reverse : s.reverse = true) (sorts : s.SortsOneWay env frames) :
    s.run env frames = s.inverted.run env frames ∧ ∀ cx, s.sql cx = s.inverted.sql cx := by
  refine ⟨?_, fun cx => (sql_inverted cx ordered reverse).symm⟩
  have hdelivered : s.inverted.delivered env frames = s.delivered env frames := by
    cases hrows : s.produced env frames with
    | error e => rw [delivered, delivered, produced_inverted, hrows]; rfl
    | ok rows =>
      have hsorted := sortByKeys_inverted_of_unequal (sorts.comparable rows hrows) (sorts.unequal rows hrows)
      rw [delivered_of_produced hrows, delivered_of_produced ((produced_inverted env frames s).trans hrows),
        directions_inverted, arrange_eq, arrange_eq, reverse, if_pos rfl, ← hsorted]
      rfl
  rw [run_eq, run_eq, hdelivered]
  simp only [headers, inverted]

end Select

def latestOrders : Select Tree where
  label := 1
  columns := [⟨"customer", .column ⟨.string, ScalarType.string.columnType, 0, "customer"⟩,
    ScalarType.string.columnType⟩]
  source := some (.table 0 "orders")
  order := [⟨.descending, .column ⟨.string, ScalarType.string.columnType, 0, "customer"⟩⟩,
    ⟨.ascending, .column ⟨.decimal, ScalarType.decimal.columnType, 0, "price"⟩⟩]
  reverse := true
  take := some (.int 3)

theorem run_reversed_latestOrders :
    let env : Environment := ⟨[("orders", ⟨["customer", "price"], [[.string "Bob", .int 2], [.null, .int 1],
      [.string "Ann", .null], [.string "Ann", .decimal (.ofInt64 2)]]⟩)], []⟩
    latestOrders.SortsOneWay env [] ∧
      latestOrders.run env [] = .ok ⟨["customer"], [[.null], [.string "Ann"], [.string "Ann"]]⟩ ∧
      latestOrders.inverted.run env [] = .ok ⟨["customer"], [[.null], [.string "Ann"], [.string "Ann"]]⟩ := by
  intro env
  have sorts : latestOrders.SortsOneWay env [] := by
    constructor
    · rintro _ ⟨⟩
      refine .of_families [.string, .number] ?_
      show ∀ key ∈ _, Forall₂ Value.InFamily _ key
      decide
    · rintro _ ⟨⟩
      decide
  have hrun : latestOrders.run env [] = .ok ⟨["customer"], [[.null], [.string "Ann"], [.string "Ann"]]⟩ := rfl
  exact ⟨sorts, hrun, (Select.run_reversed env [] latestOrders (by decide) rfl sorts).1 ▸ hrun⟩

end HiveQuery
