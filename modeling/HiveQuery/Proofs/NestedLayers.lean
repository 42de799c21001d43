import HiveQuery.Proofs.PagingSteps

/-!
# The rows of nested orders

Two layers above a select sort its rows in the inverted order, keep as many as a window has, and sort them
in the order of the select again.
-/

namespace HiveQuery

variable {e : ExecutionError} {i : Option Identity} {α : Type}
open List

variable {rows : KeyedRows} {directions : List Direction}

/-! ## Inverted orders -/

theorem Direction.compare_inverted (d : Direction) (x y : Value) :
    d.inverted.compare x y = d.compare y x := by
  cases d <;> rfl

theorem compareKeys_inverted (directions : List Direction) (xs ys : List Value) :
    compareKeys (directions.map Direction.inverted) xs ys = compareKeys directions ys xs := by
  induction directions generalizing xs ys with
  | nil => rfl
  | cons d ds ih =>
    cases xs with
    | nil => cases ys <;> rfl
    | cons x xs =>
      cases ys with
      | nil => rfl
      | cons y ys => rw [map_cons, compareKeys, compareKeys, Direction.compare_inverted, ih]

theorem map_inverted_inverted (directions : List Direction) :
    (directions.map Direction.inverted).map Direction.inverted = directions := by
  rw [map_map]
  exact (map_congr_left fun d _ => d.inverted_inverted).trans (map_id _)

theorem stableSort_eq_reverse {before : α → α → Bool} {l : List α}
    (h : l.Pairwise fun x y => before y x = true) : stableSort before l = l.reverse := by
  have hsort : ∀ l : List α, (l.Pairwise fun x y => before x y = true) →
      l.insertionSort (fun x y => before x y = false) = l.reverse := by
    intro l h
    induction h with
    | nil => rfl
    | @cons a l ha _ ih =>
      have hlast : ∀ b ∈ l.reverse, decide (¬before a b = false) = true := by simpa using ha
      rw [insertionSort_cons, ih, orderedInsert_eq_take_drop, takeWhile_eq_self_iff.2 hlast,
        dropWhile_eq_nil_iff.2 hlast, reverse_cons]
  rw [stableSort_eq, hsort _ (pairwise_reverse.2 h), reverse_reverse]

/-- No two rows have equal sort keys, and the rows come in the order of their keys. -/
def StrictKeys (directions : List Direction) (keys : List (List Value)) : Prop :=
  keys.Pairwise fun a b => compareKeys directions a b = .lt

theorem StrictKeys.sublist {keys keys' : List (List Value)} (h : StrictKeys directions keys)
    (hsub : keys'.Sublist keys) : StrictKeys directions keys' :=
  List.Pairwise.sublist hsub h

theorem StrictKeys.reverse {keys : List (List Value)} (h : StrictKeys directions keys) :
    StrictKeys (directions.map Direction.inverted) keys.reverse := by
  refine pairwise_reverse.2 (List.Pairwise.imp (fun hab => ?_) h)
  rwa [compareKeys_inverted]

/-- Rows in a strict order come reversed when they are sorted in the inverted order. -/
theorem sortByKeys_inverted {rows : List (α × List Value)} (h : StrictKeys directions (rows.map Prod.snd)) :
    sortByKeys (directions.map Direction.inverted) rows = rows.reverse := by
  refine stableSort_eq_reverse (List.Pairwise.imp (fun hab => ?_) (pairwise_map.1 h))
  rw [precedes, compareKeys_inverted, hab]
  rfl

/-- The rows that are left of some rows after they were sorted in the inverted order, cut, and sorted
again. -/
def lastOf {α : Type} (directions : List Direction) (count : Nat) (rows : List (α × List Value)) :
    List (α × List Value) :=
  sortByKeys directions ((sortByKeys (directions.map Direction.inverted) rows).take count)

theorem lastOf_eq_drop {rows : List (α × List Value)} (h : StrictKeys directions (rows.map Prod.snd))
    (count : Nat) : lastOf directions count rows = rows.drop (rows.length - count) := by
  have hstrict : StrictKeys (directions.map Direction.inverted) ((rows.reverse.take count).map Prod.snd) := by
    refine StrictKeys.sublist ?_ ((take_sublist count rows.reverse).map Prod.snd)
    rw [map_reverse]
    exact h.reverse
  have hsorted := sortByKeys_inverted hstrict
  rw [map_inverted_inverted] at hsorted
  rw [lastOf, sortByKeys_inverted h, hsorted, take_reverse, reverse_reverse]

/-! ## Layers -/

theorem Tree.Hygienic.relabelled {s : Select Tree} {scope : List Alias} (h : (select s i).Hygienic scope)
    (label : Alias) : (select (s.labelled label) i).Hygienic scope :=
  h.rebounded label fun _ => h.bounds

theorem Tree.Hygienic.untaken {s : Select Tree} {scope : List Alias} (h : (select s i).Hygienic scope) :
    (select { s with take := none } i).Hygienic scope :=
  h.rebounded s.label fun u hu => h.bounds (mem_append_left _ (by simpa using hu))

namespace Select

variable {env : Environment} {frames : Frames} {scope : List Alias} {next next' : Alias}
  {s : Select Tree} {extra : List (Column Tree)} {lifted : List (SortKey Tree)}

theorem keyValues_map_inverted (group : Option (List Row)) (keys : List (SortKey Tree)) :
    keyValues env frames group (keys.map SortKey.inverted) = keyValues env frames group keys := by
  rw [keyValues_eq, keyValues_eq, mapM_map]
  rfl

theorem delivered_untaken (h : s.delivered env frames = .ok rows) :
    ∃ all, ({ s with take := none } : Select Tree).delivered env frames = .ok all ∧ rows.Sublist all := by
  obtain ⟨produced, skipped, taken, hproduced, hskip, -, rfl⟩ := delivered_eq_ok.1 h
  refine ⟨_, delivered_eq_ok.2 ⟨produced, skipped, none, hproduced, hskip, rfl, rfl⟩, ?_⟩
  cases taken with
  | none => exact .refl _
  | some n => exact take_sublist n _

theorem Lifts.produced_layer {label : Alias}
    (h : (s.labelled label).Lifts s.order extra lifted) (nodup : s.headers.Nodup)
    (hrows : s.delivered env frames = .ok rows) :
    ∃ wide, ((s.labelled label).widen extra).delivered env frames = .ok wide ∧
      rows = wide.map (fun p => (p.1.take s.columns.length, p.2)) ∧
      ∀ (take : Option Tree) (key : List Value × List Value → List Value), (∀ p ∈ wide, keyValues env
        (sourceRow label ((s.labelled label).widen extra).headers p.1 :: frames) none
        lifted = .ok (key p)) →
      (s.pageAbove ((s.labelled label).widen extra) (lifted.map SortKey.inverted) none take).produced env frames =
        .ok (wide.map fun p => (p.1.take s.columns.length, key p)) := by
  have hrelabelled : (s.labelled label).delivered env frames = .ok rows := hrows
  obtain ⟨wide, hwide⟩ := exists_widen_delivered h.widens h.values hrelabelled
  obtain ⟨rows', hrows', hext⟩ := widen_delivered h.widens hwide
  cases hrelabelled.symm.trans hrows'
  refine ⟨wide, hwide, Layered.eq_map_of_extends hext (delivered_width hrows), fun take key hkeys => ?_⟩
  have hkeys' : ∀ l ∈ lifted.map SortKey.inverted, l.value.hasAggregate = false := forall_mem_map.2 h.unaggregated
  have hlayer := above_isLayer (t := s) ⟨extra.map Column.name, headers_widen (s.labelled label) extra⟩
    (h.nodup nodup) hkeys' none take
  rw [← map_id wide] at hwide
  refine hlayer.produced_of_unfiltered rfl hwide fun p hp => ?_
  exact (keyValues_map_inverted none lifted).trans (hkeys p hp)

/-- A layer above a select finds its rows and their sort keys. -/
theorem Lifts.produced_above {label : Alias} {take : Option Tree}
    (h : (s.labelled label).Lifts s.order extra lifted)
    (hygienic : (Tree.select { s with take := none } none).Hygienic scope)
    (exact : ∀ key ∈ s.order, key.value.IsExact) (nodup : s.headers.Nodup) (hframes : frames.Within scope)
    (hrows : s.delivered env frames = .ok rows) :
    (s.pageAbove ((s.labelled label).widen extra) (lifted.map SortKey.inverted) none take).produced env frames =
      .ok rows := by
  obtain ⟨wide, hwide, hcut, hproduced⟩ := h.produced_layer nodup hrows
  -- whether rows are taken does not matter for the keys of those that are
  have hdelivers : (({ s with label := label, take := none } : Select Tree).widen extra).Delivers env scope
      lifted :=
    Select.Lifts.delivers (s := { s with label := label, take := none })
      ⟨h.plain, h.values, h.nodup, h.lifted.imp fun _ _ h => ⟨h.direction, h.column⟩⟩
      (hygienic.relabelled label) exact nodup
  obtain ⟨all, hall, hsub⟩ := delivered_untaken hwide
  rw [hcut]
  exact hproduced take Prod.snd fun p hp => hdelivers.keys hframes hall p (hsub.subset hp) none

/-- One select gives the rows of another one in the inverted order, and of these at most as many as
taken. -/
structure Inverts (env : Environment) (s f : Select Tree) (count : Option Nat)
    (rows : List (List Value × List Value)) : Prop where
  headers : f.headers = s.headers
  directions : f.directions = s.directions.map Direction.inverted
  delivered : f.delivered env [] =
    .ok (page none count (sortByKeys (s.directions.map Direction.inverted) rows))

theorem layer_inverts {above : Select Tree} {take : Option Tree} {count : Option Nat}
    (exact : ∀ key ∈ s.order, key.value.IsExact) (nodup : s.headers.Nodup)
    (hygienic : (Tree.select { s with take := none } none).Hygienic [])
    (hrows : s.delivered env [] = .ok rows) (hcount : optionalCount env [] take = .ok count)
    (h : (s.layer id).Gives next (above, lifted) next') :
    s.Inverts env { above with order := lifted.map SortKey.inverted, take := take } count rows := by
  obtain ⟨-, extra, lifts, habove⟩ := layer_gives exact h
  dsimp only [id] at lifts habove
  subst habove
  have hproduced : (s.pageAbove ((s.labelled next).widen extra) (lifted.map SortKey.inverted) none take).produced env
      [] = .ok rows := lifts.produced_above hygienic exact nodup (by simp [Frames.Within]) hrows
  have hdirections : (lifted.map SortKey.inverted).map SortKey.direction =
      s.directions.map Direction.inverted := by
    rw [directions, ← map_eq_of_forall₂ lifts.lifted fun _ _ h => h.direction, map_map, map_map]
    rfl
  refine ⟨headers_above s _, hdirections, delivered_eq_ok.2 ⟨rows, none, count, hproduced, rfl, hcount, ?_⟩⟩
  have harrange : arrange false false ((lifted.map SortKey.inverted).map SortKey.direction) rows =
      sortByKeys (s.directions.map Direction.inverted) rows := by
    rw [hdirections, arrange_eq]
    rfl
  exact congrArg (page none count) harrange.symm

theorem layer_hygienic {above : Select Tree} (exact : ∀ key ∈ s.order, key.value.IsExact)
    (hygienic : (Tree.select s none).Hygienic []) (h : (s.layer id).Gives next (above, lifted) next') :
    (Tree.select { above with order := lifted.map SortKey.inverted, take := none } none).Hygienic [] ∧
      ∀ key ∈ lifted.map SortKey.inverted, key.value.IsExact := by
  obtain ⟨-, extra, lifts, habove⟩ := layer_gives exact h
  dsimp only [id] at lifts habove
  subst habove
  have hlocal : ∀ key ∈ lifted.map SortKey.inverted, key.value.IsLocal :=
    forall_mem_map.2 (lifts.forall_value Tree.isLocal_column)
  refine ⟨hygienic_layer rfl ?_ (by simp) fun u hu => ?_, fun key hkey => (hlocal key hkey).exact⟩
  · exact lifts.hygienic_widen (hygienic.relabelled next)
  · have hu : u ∈ (lifted.map SortKey.inverted).map SortKey.value ∨
        u ∈ (s.columns.map (passOn next)).map Column.value := by
      simpa [inner, bounds, above, widen] using hu
    rcases hu with hu | hu
    · obtain ⟨key, hkey, rfl⟩ := mem_map.1 hu
      exact hlocal key hkey
    · obtain ⟨_, hd, rfl⟩ := mem_map.1 hu
      obtain ⟨c, _, rfl⟩ := mem_map.1 hd
      exact isLocal_passOn _ c

theorem delivered_uncounted (h : ({ s with take := none } : Select Tree).delivered env frames = .ok rows)
    (htake : optionalCount env frames s.take = .error e) : s.delivered env frames = .error e := by
  obtain ⟨produced, skipped, _, hproduced, hskip, -⟩ := delivered_eq_ok.1 h
  have hproduced : s.produced env frames = .ok produced := hproduced
  have hskip : optionalCount env frames s.skip = .ok skipped := hskip
  rw [delivered, hproduced, hskip, htake]
  rfl

theorem run_error_of_source {inner : Select Tree} (source : s.source = some (.select inner i))
    (h : inner.delivered env frames = .error e) : s.run env frames = .error e := by
  have hrows : optionRows env frames s.source = .error e := by
    rw [source, optionRows, Tree.rows, run_eq, h]
    rfl
  rw [run_eq, delivered, produced, contexts, keptRows, hrows]
  rfl

/-- What is asked of a select in its required order so that layers can be put above it. -/
structure Nestable (o : Select Tree) : Prop where
  headers : o.headers.Nodup
  exact : ∀ key ∈ o.order, key.value.IsExact
  hygienic : (Tree.select o none).Hygienic []

variable {first middle outer : Select Tree} {lifted' : List (SortKey Tree)} {window : Tree} {next₁ next₂ : Alias}
  (nestable : first.Nestable) (hrows : first.delivered env [] = .ok rows)
  (hmiddle : (first.layer id).Gives next₁ (middle, lifted) next₂)
  (houter : ((middle.lastRows lifted window).layer id).Gives next₂ (outer, lifted') next')
include nestable hrows hmiddle houter

/-- Two layers give the last rows of the select below. -/
theorem nested_run {count : Nat} (hwindow : optionalCount env [] (some window) = .ok (some count)) :
    (outer.sortedBy (lifted'.map SortKey.inverted)).run env [] =
      .ok ⟨first.headers, (lastOf first.directions count rows).map Prod.fst⟩ := by
  have hlast : first.Inverts env (middle.lastRows lifted window) (some count) rows :=
    layer_inverts nestable.exact nestable.headers nestable.hygienic.untaken hrows hwindow hmiddle
  obtain ⟨hygienic', exact'⟩ := layer_hygienic nestable.exact nestable.hygienic hmiddle
  have houters : (middle.lastRows lifted window).Inverts env
      { outer with order := lifted'.map SortKey.inverted, take := none } none _ :=
    layer_inverts exact' (hlast.headers ▸ nestable.headers) hygienic' hlast.delivered rfl houter
  have htake : outer.take = none := by
    obtain ⟨-, extra, -, habove⟩ := layer_gives (s := middle.lastRows lifted window) exact' houter
    dsimp only at habove
    rw [habove]
    rfl
  have hself : outer.sortedBy (lifted'.map SortKey.inverted) =
      { outer with order := lifted'.map SortKey.inverted, take := none } := by
    rw [sortedBy, htake]
  rw [hself]
  refine run_eq_ok.2 ⟨_, houters.delivered, ?_⟩
  rw [houters.headers, hlast.headers, hlast.directions, map_inverted_inverted]
  rfl

theorem nested_uncounted (hwindow : optionalCount env [] (some window) = .error e) :
    (outer.sortedBy (lifted'.map SortKey.inverted)).run env [] = .error e := by
  have hall : first.Inverts env { middle with order := lifted.map SortKey.inverted, take := none } none rows :=
    layer_inverts nestable.exact nestable.headers nestable.hygienic.untaken hrows rfl hmiddle
  obtain ⟨-, exact'⟩ := layer_hygienic nestable.exact nestable.hygienic hmiddle
  obtain ⟨-, extra, lifts, habove⟩ := layer_gives (s := middle.lastRows lifted window) exact' houter
  dsimp only [id] at lifts habove
  subst habove
  have hlifts : ({ middle with label := next₂, order := lifted.map SortKey.inverted, take := none } :
      Select Tree).Lifts (lifted.map SortKey.inverted) extra lifted' :=
    ⟨lifts.plain, lifts.values, lifts.nodup, lifts.lifted.imp fun _ _ h => ⟨h.direction, h.column⟩⟩
  obtain ⟨wide, hwide, -⟩ := Lifts.produced_layer
    (s := { middle with order := lifted.map SortKey.inverted, take := none }) hlifts (hall.headers ▸ nestable.headers)
    hall.delivered
  exact run_error_of_source rfl (delivered_uncounted hwide hwindow)

end Select

end HiveQuery
