import HiveQuery.Proofs.IntegerArithmetic
import HiveQuery.Proofs.Lowering
import HiveQuery.Proofs.RowNumbering

/-!
# Skipped rows as row numbers

A window of row numbers takes the place of the rows that a select skips and takes.
-/

namespace HiveQuery

variable {produced : KeyedRows} {take : Option Int64} {name : String} {kept t : Tree}
open List HiveQuery.Tree Lowering Select Value
variable {env : Environment} {frames : Frames} {next next' : Alias} {label : Alias} {i : Int64}
  {rows : KeyedRows}

/-- A constant bound of a select. -/
abbrev boundOf (count : Option Int64) : Option Tree :=
  count.map fun m => .constant (.int m)

/-- The number of rows that a constant bound stands for. -/
abbrev countOf (count : Option Int64) : Option Nat :=
  count.map fun m => m.toInt.toNat

/-! ## The condition on row numbers -/

theorem fold_add {a b : Int64}
    (h : (binary .add (.constant (.int a)) (.constant (.int b))).fold = .ok t) :
    ∃ i : Int64, t = .constant (.int i) ∧ i.toInt = a.toInt + b.toInt := by
  have hfold : (applyBinary .add (.int a) (.int b) >>= fun v => pure (constant v)) = .ok t := h
  obtain ⟨v, hv, ⟨⟩⟩ := bind_eq_ok.1 hfold
  have hexact : Exact .add (a.toInt + b.toInt) (applyBinary .add (.int a) (.int b)) := .of_int64? _ _
  obtain ⟨i, rfl, hi⟩ := (hv ▸ hexact).of_ok
  exact ⟨i, rfl, hi⟩

theorem applyBinary_countValue {n : Nat} (hn : (n : Int) ≤ greatestInt64) (i : Int64)
    {op : BinaryOp} (hop : op.isComparison = true) :
    applyBinary op (countValue n) (.int i) =
      .ok (.boolean (holds op (compare (n : Int) i.toInt))) := by
  have hcompare : applyComparison op (countValue n) (.int i) =
      .ok (.boolean (holds op (compare (n : Int) i.toInt))) := by
    simp only [applyComparison, countValue, compare?, numeric?, compareNumeric?, Option.bind_eq_bind,
      Option.bind_some, countValue_toInt hn]
    rfl
  rw [← hcompare]
  cases op <;> first | rfl | cases hop

theorem compare_gt_eq (a b : Int) : (compare a b == .gt) = decide (b < a) := by
  rw [Bool.eq_iff_iff, beq_iff_eq, decide_eq_true_eq, compare_gt_iff_gt]

theorem compare_ge_eq (a b : Int) : (compare a b != .lt) = decide (b ≤ a) := by
  rw [Bool.eq_iff_iff, bne_iff_ne, decide_eq_true_eq, compare_ge_iff_ge]

theorem compare_le_eq (a b : Int) : (compare a b != .gt) = decide (a ≤ b) := by
  rw [Bool.eq_iff_iff, bne_iff_ne, decide_eq_true_eq, compare_le_iff_le]

theorem hasAggregate_constant (v : Value) : (constant v).hasAggregate = false := by
  rw [hasAggregate_eq]
  rfl

theorem keeps_greaterThan :
    Keeps env (.binary .greaterThan (.column (numberRef label name))
      (.constant (.int i))) label name i.toInt.toNat none where
  aggregate := by
    rw [hasAggregate_eq]
    simp [isAggregate, hasAggregate_column, hasAggregate_constant]
  holds := by
    intro frames n hn hlookup
    have hvalue : (binary .greaterThan (.column (numberRef label name))
        (.constant (.int i))).scalar env frames none =
        Run.ofValue (applyBinary .greaterThan (countValue n) (.int i)) := by
      rw [scalar, scalar_column hlookup]
      rfl
    rw [satisfies, hvalue, applyBinary_countValue hn.2 i rfl]
    show (Except.ok (truth (.boolean _) == some true) : Run Bool) = _
    congr 1
    have hwindow : decide (i.toInt < (n : Int)) = decide (i.toInt.toNat < n) := decide_eq_decide.2 (by omega)
    simp [truth, holds, inWindow, compare_gt_eq, hwindow]

theorem keeps_between {first last : Int64} (hfirst : first.toInt = i.toInt + 1) :
    Keeps env (.between (.column (numberRef label name)) (.constant (.int first))
      (.constant (.int last))) label name i.toInt.toNat (some (last.toInt.toNat - i.toInt.toNat)) where
  aggregate := by
    rw [hasAggregate_eq]
    simp [isAggregate, hasAggregate_column, hasAggregate_constant]
  holds := by
    intro frames n hn hlookup
    have hvalue : (between (.column (numberRef label name)) (.constant (.int first))
        (.constant (.int last))).scalar env frames none = (do
          let above ← Run.ofValue (applyBinary .greaterThanOrEqual (countValue n) (.int first))
          let under ← Run.ofValue (applyBinary .lessThanOrEqual (countValue n) (.int last))
          Run.ofValue (applyBinary .and above under)) := by
      rw [scalar, scalar_column hlookup]
      rfl
    rw [satisfies, hvalue, applyBinary_countValue hn.2 first rfl, applyBinary_countValue hn.2 last rfl]
    show (Except.ok (truth (ofTruth (conjunction (some _) (some _))) == some true) : Run Bool) = _
    congr 1
    have hwindow : decide (i.toInt.toNat < n ∧ n ≤ i.toInt.toNat + (last.toInt.toNat - i.toInt.toNat)) =
        decide (first.toInt ≤ (n : Int) ∧ (n : Int) ≤ last.toInt) :=
      decide_eq_decide.2 (by omega)
    have hge : holds .greaterThanOrEqual (compare (n : Int) first.toInt) = _ := compare_ge_eq _ _
    have hle : holds .lessThanOrEqual (compare (n : Int) last.toInt) = _ := compare_le_eq _ _
    rw [inWindow, Option.all_some, ← Bool.decide_and, hwindow, Bool.decide_and, hge, hle]
    cases decide (first.toInt ≤ (n : Int)) <;> cases decide ((n : Int) ≤ last.toInt) <;> rfl

theorem Select.windowFilter_cases {number skip window : Tree} {take : Option Tree}
    (h : (windowFilter number skip take).Gives next window next') :
    next' = next ∧
      ((take = none ∧ window = .binary .greaterThan number skip) ∨
        ∃ a first last, take = some a ∧ (binary .add skip (.int 1)).fold = .ok first ∧
          (binary .add skip a).fold = .ok last ∧ window = .between number first last) := by
  cases take with
  | none =>
    obtain ⟨rfl, rfl⟩ := gives_pure.1 h
    exact ⟨rfl, .inl ⟨rfl, rfl⟩⟩
  | some a =>
    obtain ⟨first, next₁, hfirst, hrest⟩ := gives_bind.1 h
    obtain ⟨last, next₂, hlast, hpure⟩ := gives_bind.1 hrest
    obtain ⟨hfold, rfl⟩ := gives_evaluating.1 hfirst
    obtain ⟨hfold', rfl⟩ := gives_evaluating.1 hlast
    obtain ⟨rfl, rfl⟩ := gives_pure.1 hpure
    exact ⟨rfl, .inr ⟨a, first, last, rfl, hfold, hfold', rfl⟩⟩

theorem windowFilter_keeps_upto
    (h : (windowFilter (.column (numberRef label name)) (.constant (.int i)) (boundOf take)).Gives next kept next') :
    next' = next ∧ Keeps env kept label name i.toInt.toNat
      (take.map fun m => (i.toInt + m.toInt).toNat - i.toInt.toNat) := by
  obtain ⟨hnext, ⟨htake, rfl⟩ | ⟨a, first, last, htake, hfirst, hlast, rfl⟩⟩ := windowFilter_cases h
  · rw [Option.map_eq_none_iff.1 htake]
    exact ⟨hnext, keeps_greaterThan⟩
  · obtain ⟨m, rfl, rfl⟩ := Option.map_eq_some_iff.1 htake
    obtain ⟨first, rfl, hfirstInt⟩ := fold_add hfirst
    obtain ⟨last, rfl, hlastInt⟩ := fold_add hlast
    rw [Option.map_some, ← hlastInt]
    exact ⟨hnext, keeps_between hfirstInt⟩

/-- The condition on row numbers that skipping and taking become. -/
theorem windowFilter_keeps (hi : 0 ≤ i.toInt)
    (h : (windowFilter (.column (numberRef label name)) (.constant (.int i)) (boundOf take)).Gives next kept next') :
    next' = next ∧ Keeps env kept label name i.toInt.toNat (countOf take) := by
  have hcount : (fun m : Int64 => (i.toInt + m.toInt).toNat - i.toInt.toNat) = fun m => m.toInt.toNat :=
    funext fun m => by omega
  rw [countOf, ← hcount]
  exact windowFilter_keeps_upto h

/-! ## The two shapes -/

/-- Trees that read columns and compute with exact constants, but hold no query. -/
structure Tree.IsLocal (t : Tree) : Prop where
  exact : t.IsExact
  declared : t.declared = []

theorem Tree.isExact_iff : t.IsExact ↔ t.isInexact = false ∧ ∀ u ∈ t.children, u.IsExact := every_iff

theorem Tree.isLocal_of_children (hexact : t.isInexact = false) (hlabel : t.label? = none)
    (h : ∀ u ∈ t.children, u.IsLocal) : t.IsLocal where
  exact := isExact_iff.2 ⟨hexact, fun u hu => (h u hu).exact⟩
  declared := by
    rw [declared_eq, hlabel, Option.toList_none, nil_append, flatMap_eq_nil_iff]
    exact fun u hu => (h u hu).declared

theorem Tree.isLocal_column (c : ColumnRef) : (column c).IsLocal :=
  isLocal_of_children rfl rfl (by simp)

theorem Tree.isLocal_int (i : Int64) : (constant (.int i)).IsLocal :=
  isLocal_of_children rfl rfl (by simp)

theorem windowFilter_isLocal {c : ColumnRef}
    (h : (windowFilter (.column c) (.constant (.int i)) (boundOf take)).Gives next kept next') :
    kept.IsLocal := by
  obtain ⟨-, ⟨-, rfl⟩ | ⟨a, first, last, htake, hfirst, hlast, rfl⟩⟩ := windowFilter_cases h
  · refine isLocal_of_children rfl rfl ?_
    simp only [children, forall_mem_cons]
    exact ⟨isLocal_column c, isLocal_int i, nofun⟩
  · obtain ⟨m, -, rfl⟩ := Option.map_eq_some_iff.1 htake
    obtain ⟨first, rfl, -⟩ := fold_add hfirst
    obtain ⟨last, rfl, -⟩ := fold_add hlast
    refine isLocal_of_children rfl rfl ?_
    simp only [children, forall_mem_cons]
    exact ⟨isLocal_column c, isLocal_int first, isLocal_int last, nofun⟩

namespace Select

variable {s o n base : Select Tree} {keys : List (SortKey Tree)}

def unpaged (o : Select Tree) (label : Alias) : Select Tree :=
  { o with label := label, skip := none, take := none }

/-- The select that gets the row numbers, and the keys that they follow. -/
inductive NumberedBase (o : Select Tree) (next : Alias) :
    Select Tree → List (SortKey Tree) → Alias → Prop
  | itself (distinct : o.distinct = false) (group : o.group = []) :
      NumberedBase o next { o with order := [], skip := none, take := none } o.order next
  | layer {extra : List (Column Tree)} {lifted : List (SortKey Tree)}
      (lifts : (o.unpaged next).Lifts o.order extra lifted) :
      NumberedBase o next (o.above { (o.unpaged next).widen extra with order := [] }) lifted
        (next + 1)

theorem layer_lifted {finish : Select Tree → Select Tree} {above : Select Tree × List (SortKey Tree)}
    (h : (s.layer finish).Gives next above next') :
    next' = next + 1 ∧ ∃ inner, (s.labelled next).liftOrder = .ok (inner, above.2) ∧
      above.1 = s.above (finish inner) := by
  obtain ⟨label, next₁, hlabel, h⟩ := gives_bind.1 h
  obtain ⟨rfl, rfl⟩ := gives_fresh.1 hlabel
  obtain ⟨⟨inner, lifted⟩, next₂, hlift, h⟩ := gives_bind.1 h
  obtain ⟨hlifted, rfl⟩ := gives_except.1 hlift
  obtain ⟨rfl, rfl⟩ := gives_pure.1 h
  exact ⟨rfl, inner, hlifted, rfl⟩

theorem layer_gives {finish : Select Tree → Select Tree} {above : Select Tree × List (SortKey Tree)}
    (hexact : ∀ key ∈ s.order, key.value.IsExact)
    (h : (s.layer finish).Gives next above next') :
    next' = next + 1 ∧ ∃ extra, (s.labelled next).Lifts s.order extra above.2 ∧
      above.1 = s.above (finish ((s.labelled next).widen extra)) := by
  obtain ⟨hnext, inner, hlifted, habove⟩ := layer_lifted h
  obtain ⟨extra, rfl, hlifts⟩ := liftOrder_spec (s := { s with label := next }) hexact hlifted
  exact ⟨hnext, extra, hlifts, habove⟩

theorem numberedBase_gives {result : Select Tree × List (SortKey Tree)}
    (hexact : ∀ key ∈ o.order, key.value.IsExact)
    (h : (numberedBase { o with skip := none, take := none }).Gives next result label) :
    NumberedBase o next result.1 result.2 label := by
  unfold numberedBase at h
  split at h
  · next hplain =>
    simp only [Bool.and_eq_true, Bool.not_eq_true', List.isEmpty_iff] at hplain
    obtain ⟨rfl, rfl⟩ := gives_pure.1 h
    exact .itself hplain.1 hplain.2
  · obtain ⟨rfl, extra, hlifts, habove⟩ := layer_gives (s := { o with skip := none, take := none }) hexact h
    rw [habove]
    exact .layer hlifts

/-- A select is the window over numbered rows that its bounds make of it. -/
def WindowOver (base : Select Tree) (keys : List (SortKey Tree)) (label : Alias) (skip : Tree) (take : Option Tree)
    (next : Alias) (n : Select Tree) : Prop :=
  ∃ kept, (windowFilter (.column (numberRef label (freeName base.headers "_rownum"))) skip take).Gives
      (label + 1) kept next ∧
    n = base.window keys (freeName base.headers "_rownum") label kept

theorem numberRows_gives {skip : Tree} {take : Option Tree} (h : (s.numberRows skip take).Gives next n next') :
    ∃ s' order, s.requireOrder = .ok (s', order) ∧ ∃ base keys label,
      (numberedBase { s' with order := order, skip := none, take := none }).Gives next (base, keys) label ∧
      base.WindowOver keys label skip take next' n := by
  obtain ⟨⟨s', order⟩, next₁, hgives, hrest⟩ := gives_bind.1 h
  obtain ⟨hrequire, rfl⟩ := gives_except.1 hgives
  obtain ⟨⟨base, keys⟩, label, hbase, h⟩ := gives_bind.1 hrest
  obtain ⟨label', next₂, hlabel, h⟩ := gives_bind.1 h
  obtain ⟨rfl, rfl⟩ := gives_fresh.1 hlabel
  obtain ⟨kept, next₃, hkept, h⟩ := gives_bind.1 h
  obtain ⟨rfl, rfl⟩ := gives_pure.1 h
  exact ⟨s', order, hrequire, base, keys, _, hbase, kept, hkept, rfl⟩

/-! ## Rows of a window -/

/-- What a select with skipped rows has to be so that its rows can be numbered. -/
structure Pages (scope : List Alias) (o : Select Tree) (i : Int64) (take : Option Int64) : Prop where
  skip : o.skip = some (.constant (.int i))
  nonneg : 0 ≤ i.toInt
  take : o.take = take.map fun m => .constant (.int m)
  reverse : o.reverse = false
  aggregates : o.group = [] → o.isGrouped = false
  exact : ∀ key ∈ o.order, key.value.IsExact
  nodup : o.headers.Nodup
  hygienic : (Tree.select o none).Hygienic scope

variable {scope : List Alias} {i : Int64} {take : Option Int64} {name : String} {label : Alias}
  {kept : Tree} {extra : List (Column Tree)} {lifted : List (SortKey Tree)}

theorem hygienic_relabel {a : Alias} (h : (select o none).Hygienic scope) :
    (select (o.unpaged a) none).Hygienic scope := by
  refine .node h.nodup h.apart fun p hp => h.child ?_
  simp only [childScopes, clauseScopes, mem_append] at hp ⊢
  exact hp.imp_right (by simp [bounds, unpaged])

theorem Pages.layered (hp : o.Pages scope i take) (lifts : (o.unpaged next).Lifts o.order extra lifted) :
    (o.unpaged next).Layered scope extra lifted where
  lifts := lifts
  hygienic := hygienic_relabel hp.hygienic
  exact := hp.exact
  nodup := hp.nodup
  aggregates := hp.aggregates
  skip := rfl
  take := rfl
  reverse := hp.reverse

theorem NumberedBase.headers_eq (hb : o.NumberedBase next base keys label) : base.headers = o.headers := by
  cases hb with
  | itself => rfl
  | layer lifts =>
    exact headers_above o _

theorem NumberedBase.numberable (hb : o.NumberedBase next base keys label)
    (hp : o.Pages scope i take) : base.Numberable keys := by
  cases hb with
  | itself distinct group =>
    have hgrouped := hp.aggregates group
    refine ⟨rfl, distinct, rfl, rfl, hp.reverse, ?_, fun key hkey => ?_⟩
    · exact (isGrouped_unordered hp.aggregates).trans hgrouped
    · simp only [isGrouped, hasAggregates, Bool.or_eq_false_iff, any_eq_false] at hgrouped
      exact Bool.eq_false_iff.2 (hgrouped.2.1.2 key hkey)
  | layer lifts =>
    have hlayer := (hp.layered lifts).above_isLayer (t := o) rfl none none
    refine ⟨rfl, rfl, rfl, rfl, rfl, ?_, lifts.unaggregated⟩
    have hgrouped := hlayer.grouped
    simp only [isGrouped, hasAggregates, Bool.or_eq_false_iff] at hgrouped ⊢
    exact ⟨hgrouped.1, ⟨hgrouped.2.1.1, rfl⟩, hgrouped.2.2⟩

theorem comparable_countValues (numbers : List Nat) : Comparable (numbers.map fun n => [countValue n]) := by
  refine .of_families [.number] fun key hkey => ?_
  obtain ⟨n, _, rfl⟩ := mem_map.1 hkey
  exact .cons (.inr rfl) .nil

theorem exists_of_window (h : base.Numberable keys) (hnodup : base.headers.Nodup)
    (hname : name ∉ base.headers) {skip : Nat} {count : Option Nat}
    (hkept : Keeps env kept label name skip count)
    (hrows : (base.window keys name label kept).delivered env frames = .ok rows) :
    ∃ below, (base.sortedBy keys).produced env frames = .ok below ∧
      rows = windowRows skip count (numberedRows (keys.map SortKey.direction) below) ∧
      SortedKeys (base.window keys name label kept).directions (rows.map Prod.snd) := by
  obtain ⟨produced, _, _, hproduced, _⟩ := delivered_eq_ok.1 hrows
  obtain ⟨numbered, hnumbered⟩ := (window_isLayer hnodup hname hkept.aggregate).exists_delivered hproduced
  obtain ⟨below, hbelow, _⟩ := h.delivered_numbering.1 hnumbered
  obtain rfl := Except.ok.inj (hrows.symm.trans (delivered_window h hnodup hname hkept hbelow))
  refine ⟨below, hbelow, rfl, sortByKeys_sortedKeys ?_⟩
  rw [map_map]
  have hcomparable := comparable_countValues (((numberedRows (keys.map SortKey.direction) below).filter
    fun p => inWindow skip count p.2).map Prod.snd)
  rwa [map_map] at hcomparable

theorem optionalCount_int (i : Int64) :
    optionalCount env frames (some (.constant (.int i))) = .ok (some i.toInt.toNat) := rfl

theorem optionalCount_take {bound : Option Tree} (h : bound = boundOf take) :
    optionalCount env frames bound = .ok (countOf take) := by
  subst h
  cases take <;> rfl

theorem NumberedBase.numbers (hb : o.NumberedBase next base keys label) (hp : o.Pages scope i take)
    (hname : name ∉ base.headers)
    (hkept : Keeps env kept label name i.toInt.toNat (countOf take))
    (hrun : ∀ {frames : Frames} {r : Relation}, frames.Within scope →
      (({ base with order := keys, skip := o.skip, take := o.take } : Select Tree).run env frames =
        .ok r ↔ o.run env frames = .ok r)) (total : Bool) :
    o.Numbers env total scope (base.window keys name label kept) := by
  have hnodup : base.headers.Nodup := hb.headers_eq ▸ hp.nodup
  have hwindow : ∀ {frames : Frames} {r : Relation}, frames.Within scope →
      ((base.window keys name label kept).run env frames = .ok r ↔ o.run env frames = .ok r) := by
    intro frames r hframes
    rw [← hrun hframes, hp.skip, hp.take]
    exact window_run (hb.numberable hp) hnodup hname hkept (optionalCount_int i) (optionalCount_take rfl)
  refine ⟨fun hframes h => (hwindow hframes).1 h, fun _ _ r hframes h => ?_, fun hframes h => ?_⟩
  · exact ⟨r, (hwindow hframes).2 h⟩
  · obtain ⟨_, _, _, hsorted⟩ := exists_of_window (hb.numberable hp) hnodup hname hkept h
    exact hsorted

theorem widen_contexts_length (hgrouped : ∀ e ∈ extra, e.value.hasAggregate = true →
      s.isGrouped = true) {contexts : List Context}
    (h : (s.widen extra).contexts env frames = .ok contexts) :
    ∃ contexts', s.contexts env frames = .ok contexts' ∧ contexts'.length = contexts.length := by
  obtain ⟨rows, hrows, h⟩ := contexts_eq_ok.1 h
  rw [widen_isGrouped hgrouped] at h
  rcases h with ⟨hg, keys, hkeys, rfl⟩ | ⟨hg, numbers, hnumbers, rfl⟩
  · exact ⟨_, contexts_eq_ok.2 ⟨rows, hrows, .inl ⟨hg, keys, hkeys, rfl⟩⟩, rfl⟩
  · have hsplit : rowNumbers env frames rows (s.columns ++ extra) = .ok numbers := hnumbers
    rw [rowNumbers_append] at hsplit
    simp only [bind_eq_ok] at hsplit
    obtain ⟨own, hown, _⟩ := hsplit
    refine ⟨_, contexts_eq_ok.2 ⟨rows, hrows, .inr ⟨hg, own, hown, rfl⟩⟩, ?_⟩
    simp [rowContexts]

theorem run_relabel (s : Select Tree) (a : Alias) :
    (s.labelled a).run env frames = s.run env frames := by
  rw [run_eq, run_eq]
  rfl

theorem arrange_nil (distinct reverse : Bool) (directions : List Direction) :
    arrange distinct reverse directions [] = [] :=
  eq_nil_iff_forall_not_mem.2 fun _ hp => not_mem_nil (mem_of_mem_arrange hp)

theorem delivered_eq_nil (hproduced : s.produced env frames = .ok produced) (hnil : produced = [])
    (h : s.delivered env frames = .ok rows) : rows = [] := by
  obtain ⟨produced', skipped, taken, hproduced', _, _, rfl⟩ := delivered_eq_ok.1 h
  obtain rfl := Except.ok.inj (hproduced'.symm.trans hproduced)
  refine eq_nil_iff_forall_not_mem.2 fun p hp => ?_
  have hmem := mem_of_mem_arrange ((page_sublist skipped taken _).subset hp)
  rw [hnil] at hmem
  exact not_mem_nil hmem

theorem IsLayer.produced_length {layer inner : Select Tree} {cs : List (Column Tree)} {j : Option Identity}
    (h : layer.IsLayer inner cs j) (hfilter : layer.filter = none)
    (hrows : inner.delivered env frames = .ok rows) (hproduced : layer.produced env frames = .ok produced) :
    produced.length = rows.length := by
  have hkeep : ∀ p ∈ rows, satisfies env (sourceRow inner.label inner.headers (id p).1 :: frames)
      layer.filter = .ok ((fun _ => true) p) := fun p _ => by rw [hfilter]; rfl
  have hall := (h.produced_eq_ok (rows.map_id.symm ▸ hrows) hkeep).1 hproduced
  rw [← hall.length_eq, filter_true]

section

variable (hp : o.Pages scope i take) (lifts : (o.unpaged next).Lifts o.order extra lifted)
include hp lifts

theorem Pages.layer_rows
    (h : ({ o.above (((o.unpaged next).widen extra).sortedBy []) with order := lifted } :
      Select Tree).produced env frames = .ok produced) :
    ∃ contexts, o.contexts env frames = .ok contexts ∧ (contexts = [] → produced = []) := by
  have hlayered := hp.layered lifts
  have hlayer := hlayered.above_isLayer (t := o) rfl none none
  obtain ⟨rows, hrows⟩ := hlayer.exists_delivered h
  obtain ⟨below, _, _, hbelow, _⟩ := delivered_eq_ok.1 hrows
  obtain ⟨contexts, hcontexts, hall⟩ := produced_eq_ok.1 hbelow
  have hwidened : ((o.unpaged next).widen extra).contexts env frames = .ok contexts :=
    hlayered.contexts_unordered.symm.trans hcontexts
  obtain ⟨contexts', hcontexts', hlen⟩ := widen_contexts_length lifts.widens.grouped hwidened
  refine ⟨contexts', hcontexts', fun hnil => ?_⟩
  have hbelow_nil : below = [] := by
    rw [← length_eq_zero_iff, ← hall.length_eq, ← hlen, hnil, length_nil]
  rw [← length_eq_zero_iff, hlayer.produced_length rfl hrows h,
    delivered_eq_nil hbelow hbelow_nil hrows, length_nil]

theorem Pages.layer_nil
    (h : o.contexts env frames = .ok []) :
    ({ o.above (((o.unpaged next).widen extra).sortedBy []) with
        order := lifted } : Select Tree).produced env frames = .ok [] := by
  have hlayered := hp.layered lifts
  have hlayer := hlayered.above_isLayer (t := o) rfl none none
  have hcontexts : (((o.unpaged next).widen extra).sortedBy []).contexts env frames = .ok [] := by
    rw [hlayered.contexts_unordered]
    exact contexts_nil_of_same (s := o) rfl rfl rfl hlayered.isGrouped h
  have hrows : (((o.unpaged next).widen extra).sortedBy []).delivered env
      frames = .ok (([] : KeyedRows).map id) := by
    exact (delivered_eq_ok_of_unpaged rfl rfl).2 ⟨[], produced_eq_ok.2 ⟨[], hcontexts, .nil⟩, (arrange_nil _ _ _).symm⟩
  exact hlayer.produced_of_unfiltered (k := Prod.snd) rfl hrows nofun

theorem Pages.empties
    (hname : name ∉ o.headers)
    (hkept : Keeps env kept label name i.toInt.toNat (countOf take))
    (total : Bool) :
    o.Empties env total scope
      ((o.above (((o.unpaged next).widen extra).sortedBy [])).window lifted name label kept) := by
  have hb : o.NumberedBase next _ lifted (next + 1) := .layer lifts
  have hnodup := hb.headers_eq ▸ hp.nodup
  have hfree : name ∉ (o.above (((o.unpaged next).widen extra).sortedBy [])).headers := hb.headers_eq ▸ hname
  refine ⟨(headers_window hfree kept).trans hb.headers_eq, fun {frames rows} _ hrows => ?_,
    fun _ {frames} _ hnil => ?_⟩
  · obtain ⟨below, hproduced, rfl, -⟩ := exists_of_window (hb.numberable hp) hnodup hfree hkept hrows
    obtain ⟨contexts, hcontexts, hnil⟩ := hp.layer_rows lifts hproduced
    refine ⟨contexts, hcontexts, fun h => ?_⟩
    rw [hnil h]
    rfl
  · exact ⟨_, delivered_window (hb.numberable hp) hnodup hfree hkept (hp.layer_nil lifts hnil)⟩

end

section

variable (hb : o.NumberedBase next base keys label) (hp : o.Pages scope i take) (hname : name ∉ base.headers)
  (hkept : Keeps env kept label name i.toInt.toNat (countOf take))
include hb hp hname hkept

/-- A window of row numbers does what skipping does, or leaves no rows where these cannot be sorted. -/
theorem NumberedBase.numbers_or_empties
    (total : Bool) :
    o.Numbers env total scope (base.window keys name label kept) ∨
      o.Unsortable ∧ o.Empties env total scope (base.window keys name label kept) := by
  cases hb with
  | itself distinct group =>
    exact .inl (numbers (.itself distinct group) hp hname hkept (fun _ => Iff.rfl) total)
  | layer lifts =>
    have hb : o.NumberedBase next _ _ (next + 1) := .layer lifts
    by_cases hsort : o.Unsortable
    · exact .inr ⟨hsort, hp.empties lifts (hb.headers_eq ▸ hname) hkept total⟩
    · refine .inl (hb.numbers hp hname hkept (fun hframes => ?_) total)
      rw [← o.run_relabel next]
      exact (hp.layered lifts).run_above hsort hframes (t := o) rfl o.skip o.take

theorem NumberedBase.window_run_of_run
    (hframes : frames.Within scope) {r : Relation} (h : o.run env frames = .ok r) :
    (base.window keys name label kept).run env frames = .ok r := by
  obtain hnumbers | ⟨hsort, hempties⟩ := hb.numbers_or_empties hp hname hkept true
  · obtain ⟨r', hr'⟩ := hnumbers.complete rfl hframes h
    rw [hr', ← hnumbers.sound hframes hr', h]
  · obtain ⟨rows, hrows, rfl⟩ := run_eq_ok.1 h
    obtain ⟨produced, _, _, hproduced, -⟩ := delivered_eq_ok.1 hrows
    obtain ⟨hcontexts, hnil⟩ := hsort.contexts_eq_nil hproduced
    obtain ⟨rows', hrows'⟩ := hempties.complete rfl hframes hcontexts
    obtain ⟨contexts, hcontexts', hempty⟩ := hempties.sound hframes hrows'
    cases hcontexts.symm.trans hcontexts'
    refine run_eq_ok.2 ⟨rows', hrows', ?_⟩
    rw [hempty rfl, delivered_eq_nil hproduced hnil hrows, hempties.headers]

end

end Select

end HiveQuery
