import HiveQuery.Proofs.CompiledQueries
import HiveQuery.Proofs.Evaluations

/-!
# Parameters of lowered queries

The lowerings move clauses, copy them and fold them, but a lowered tree has parameters of the same names. A sort
key is dropped only where a column computes it, and a folded bound only where it was a constant.
-/

namespace HiveQuery

variable {ts : List Tree} {i : Option Identity} {layer : Select Tree} {window : Tree}
open List HiveQuery.Tree

variable {n : String} {t u v : Tree} {next next' : Alias}

/-! ## Names -/

def Tree.Asks (n : String) (t : Tree) : Prop :=
  ∃ p ∈ t.subtrees.filterMap parameter?, p.name = n

instance (n : String) (t : Tree) : Decidable (t.Asks n) :=
  inferInstanceAs (Decidable (∃ p ∈ _, _))

def AnyAsks (n : String) (ts : List Tree) : Prop :=
  ∃ t ∈ ts, t.Asks n

@[simp] theorem anyAsks_nil : ¬ AnyAsks n [] :=
  fun ⟨_, h, _⟩ => nomatch h

@[simp] theorem anyAsks_cons : AnyAsks n (t :: ts) ↔ t.Asks n ∨ AnyAsks n ts := by
  simp [AnyAsks]

@[simp] theorem anyAsks_append {us : List Tree} : AnyAsks n (ts ++ us) ↔ AnyAsks n ts ∨ AnyAsks n us := by
  simp [AnyAsks, or_and_right, exists_or]

theorem anyAsks_congr {us : List Tree} (h : Forall₂ (fun a b : Tree => b.Asks n ↔ a.Asks n) ts us) :
    AnyAsks n us ↔ AnyAsks n ts := by
  induction h with
  | nil => rfl
  | cons h _ ih => rw [anyAsks_cons, anyAsks_cons, h, ih]

theorem Tree.asks_iff : t.Asks n ↔ (∃ p, t.parameter? = some p ∧ p.name = n) ∨ AnyAsks n t.children := by
  unfold AnyAsks Asks
  rw [subtrees_eq, filterMap_cons, filterMap_flatMap]
  cases t.parameter? with
  | none => simp only [mem_flatMap]; grind
  | some p => simp only [mem_cons, mem_flatMap]; grind

theorem Tree.asks_of_children (h : t.parameter? = none) : t.Asks n ↔ AnyAsks n t.children := by
  rw [asks_iff, h]
  simp

theorem Tree.asks_column (c : ColumnRef) : ¬ (column c).Asks n :=
  fun h => anyAsks_nil ((asks_of_children rfl).1 h)

theorem Tree.not_asks_of_constant {x : Value} (h : t.constant? = some x) : ¬ t.Asks n := by
  cases t with
  | constant | undefined => exact fun h => anyAsks_nil ((asks_of_children rfl).1 h)
  | _ => cases h

theorem Tree.asks_constant (x : Value) : ¬ (constant x).Asks n := not_asks_of_constant rfl

theorem not_anyAsks_of_columns (h : ∀ a ∈ ts, ∃ c, a = .column c) : ¬ AnyAsks n ts := by
  rintro ⟨a, ha, hname⟩
  obtain ⟨c, rfl⟩ := h a ha
  exact asks_column c hname

/-! ## Rebuilt trees -/

theorem Tree.SameNode.parameter? {R : Tree → Tree → Prop} (h : t.SameNode R u) :
    u.parameter? = t.parameter? := by
  cases h <;> rfl

/-- The same node over children that ask for the same asks for the same. -/
theorem Tree.SameNode.asks (h : t.SameNode (fun a b => b.Asks n ↔ a.Asks n) u) : u.Asks n ↔ t.Asks n := by
  rw [asks_iff, asks_iff, h.parameter?, anyAsks_congr h.children]

theorem Tree.bottomUp_asks {m : Type → Type} [Monad m] {σ : Type} (O : Outcome m σ) {replace : Tree → m Tree}
    (node : ∀ {a b : Tree} {st st'}, O.gives (replace a) st b st' → (b.Asks n ↔ a.Asks n))
    {st st' : σ} (h : O.gives (t.bottomUp replace) st u st') : u.Asks n ↔ t.Asks n :=
  bottomUp_rel O (fun same hnode => (node hnode).trans same.asks) h

theorem Tree.Rerouted.asks {Q : ColumnRef → ColumnRef → Prop} (h : t.Rerouted Q u) : u.Asks n ↔ t.Asks n :=
  h.rel (fun _ => iff_of_false (asks_column _) (asks_column _)) fun _ _ same => same.asks

theorem Tree.foldNode_asks (h : t.foldNode = .ok u) : u.Asks n ↔ t.Asks n := by
  rcases foldNode_cases h with rfl | ⟨⟨x, rfl⟩, -, -, hparameter, hchildren⟩
  · rfl
  · refine iff_of_false (asks_constant x) fun hname => ?_
    obtain ⟨a, ha, hname⟩ := (asks_of_children hparameter).1 hname
    obtain ⟨y, hy⟩ := hchildren a ha
    exact not_asks_of_constant hy hname

theorem Tree.fold_asks (h : t.fold = .ok u) : u.Asks n ↔ t.Asks n :=
  bottomUp_asks _ foldNode_asks (fold_gives h)

theorem Tree.asks_of_same_children (hparameter : u.parameter? = t.parameter?)
    (hchildren : u.children = t.children) : u.Asks n ↔ t.Asks n := by
  rw [asks_iff, asks_iff, hparameter, hchildren]

theorem Tree.identify_asks (id : Identity) (t : Tree) : (t.identify id).Asks n ↔ t.Asks n := by
  refine bottomUp_asks _ (fun {a b st st'} hnode => ?_) (t.identify_gives id)
  rcases identifyNode_keeps hnode with same | ⟨x, rfl, -, rfl⟩
  · exact (same.imp fun a b _ hab => hab ▸ Iff.rfl).asks
  · exact asks_of_same_children rfl rfl

theorem Tree.rename_asks (f : Alias → Alias) (t : Tree) : (t.rename f).Asks n ↔ t.Asks n := by
  have hgives : Outcome.plain.gives (t.bottomUp fun u => (pure (u.renameNode f) : Id Tree)) () (t.rename f) () :=
    rfl
  refine bottomUp_asks _ (fun {a b st st'} hnode => ?_) hgives
  have hnode : a.renameNode f = b := hnode
  subst hnode
  cases a <;> exact asks_of_same_children rfl rfl

/-- Equal trees ask for the same. -/
theorem Tree.asks_of_equalUnder {p : Pairing} (h : t.equalUnder p u = true) : u.Asks n ↔ t.Asks n := by
  induction t generalizing u p with
  | step t ih =>
    have hnode := equalUnder_iff.1 h
    have hparameter : u.parameter? = t.parameter? := by
      cases hnode with
      | ordinary _ same => cases same <;> rfl
      | _ => rfl
    rw [asks_iff, asks_iff, hparameter]
    refine or_congr_right (anyAsks_congr (forall₂_imp_mem hnode.children fun a b ha hab => ?_))
    obtain ⟨q, hab⟩ := hab
    exact ih a ha hab

/-! ## Joins -/

theorem Select.asks_iff {s : Select Tree} : (select s i).Asks n ↔
      AnyAsks n s.source.toList ∨ AnyAsks n s.filter.toList ∨
        AnyAsks n (s.order.map SortKey.value) ∨ AnyAsks n s.group ∨ AnyAsks n s.cluster ∨
        AnyAsks n s.skip.toList ∨ AnyAsks n s.take.toList ∨
        AnyAsks n (s.columns.map Column.value) := by
  rw [asks_of_children rfl]
  simp only [children, clauses, anyAsks_append, or_assoc]

theorem Select.asks_layer {s : Select Tree}
    (h : s = { label := s.label, columns := s.columns, source := some t }) :
    (select s i).Asks n ↔ t.Asks n ∨ AnyAsks n (s.columns.map Column.value) := by
  rw [asks_iff, h]
  simp

theorem Tree.asks_join {j : Join Tree} : (join j i).Asks n ↔
      j.left.Asks n ∨ j.right.Asks n ∨ AnyAsks n j.condition.toList := by
  rw [asks_of_children rfl]
  simp only [children, anyAsks_cons]

theorem appliedJoin_asks (kind : JoinKind) (c : Option Tree) :
    AnyAsks n (appliedJoin kind c).2.toList ↔ AnyAsks n c.toList := by
  unfold appliedJoin
  split <;> simp [asks_constant]

theorem LowersApply.asks (h : LowersApply t u) : u.Asks n ↔ t.Asks n := by
  cases h with
  | kept => rfl
  | table => simp only [asks_join, appliedJoin_asks]
  | @select kind l s c columns i j _ _ _ pulled =>
    have hfilter : AnyAsks n c.toList ↔ AnyAsks n s.filter.toList :=
      anyAsks_congr ((optionRel_iff.1 pulled.rerouted).imp fun _ _ h => h.asks)
    obtain ⟨extra, rfl, hextra⟩ := pulled.grow.split
    have hcolumns : ¬ AnyAsks n (extra.map Column.value) := by
      refine not_anyAsks_of_columns fun a ha => ?_
      obtain ⟨d, hd, rfl⟩ := mem_map.1 ha
      obtain ⟨c, hc, -⟩ := hextra d hd
      exact ⟨c, hc⟩
    simp only [asks_join, appliedJoin_asks, Select.asks_iff, hfilter, map_append, anyAsks_append,
      hcolumns, Option.toList_none, anyAsks_nil]
    grind

theorem Tree.lowerApplies_asks (t : Tree) : t.lowerApplies.Asks n ↔ t.Asks n :=
  lowerApplies_rel (R := fun t u => u.Asks n ↔ t.Asks n) (fun same hv => hv.asks.trans same.asks) t

theorem Tree.IsolatedAs.asks (h : t.IsolatedAs u) : u.Asks n ↔ t.Asks n := by
  induction t generalizing u with
  | step t ih =>
    have hnode {v : Tree} {parent : Option JoinKind} (same : t.SameNode (IsolatesUnder parent) v) :
        v.Asks n ↔ t.Asks n :=
      Tree.SameNode.asks (same.imp fun a b ha hab => ih a ha hab.isolated)
    obtain ⟨parent, h⟩ := h.node
    cases h with
    | column d eq => exact eq ▸ iff_of_false (asks_column _) (asks_column _)
    | node _ same => exact hnode same
    | @wrap w _ m _ _ same =>
      -- the select around a join adds columns only
      have hcolumns : ¬ AnyAsks n ((m.wrapper w).columns.map Column.value) :=
        not_anyAsks_of_columns m.wrapper_columns
      refine Iff.trans ?_ (hnode same)
      exact (Select.asks_layer (s := m.wrapper w) rfl).trans (or_iff_left hcolumns)

/-! ## Layers -/

namespace Select

variable {s s' f o : Select Tree} {i j : Option Identity} {skip : Tree} {take : Option Tree}
  {lifted : List (SortKey Tree)}

theorem asks_above (s inner : Select Tree) :
    (select (s.above inner) i).Asks n ↔ (select inner none).Asks n := by
  have hcolumns : ¬ AnyAsks n ((s.above inner).columns.map Column.value) :=
    not_anyAsks_of_columns (passOn_columns inner.label s.columns)
  exact (asks_layer (s := s.above inner) rfl).trans (or_iff_left hcolumns)

theorem keptKeys_asks {ks ks' : List (SortKey Tree)}
    (h : Forall₂ (fun k k' => k'.direction = k.direction ∧ k.value.KeptKey k'.value) ks ks') :
    AnyAsks n (ks'.map SortKey.value) ↔ AnyAsks n (ks.map SortKey.value) := by
  refine anyAsks_congr (forall₂_map_iff.2 (h.imp ?_))
  rintro ⟨_, a⟩ ⟨_, b⟩ ⟨-, hkept⟩
  cases hkept with
  | same => rfl
  | identified _ id => exact identify_asks id a

theorem liftOrder_asks (h : s.liftOrder = .ok (s', lifted)) :
    ((select s' j).Asks n ↔ (select s i).Asks n) ∧
      ((select (s'.sortedBy []) j).Asks n ↔ (select s i).Asks n) ∧
      ¬ AnyAsks n (lifted.map SortKey.value) := by
  obtain ⟨order, extra, hkept, rfl, hextra, hcolumn, hlifted, -⟩ := liftOrder_cases h
  have horder := keptKeys_asks (n := n) hkept
  have hextra : AnyAsks n (extra.map Column.value) → AnyAsks n (order.map SortKey.value) := by
    rintro ⟨a, ha, hname⟩
    obtain ⟨e, he, rfl⟩ := mem_map.1 ha
    obtain ⟨k, hk, hvalue⟩ := hextra e he
    exact ⟨k.value, mem_map_of_mem hk, hvalue ▸ hname⟩
  have hcolumns : AnyAsks n (order.map SortKey.value) →
      AnyAsks n ((s.columns ++ extra).map Column.value) := by
    rintro ⟨a, ha, hname⟩
    obtain ⟨k, hk, rfl⟩ := mem_map.1 ha
    obtain ⟨c, hc, hequal | hvalue⟩ := hcolumn k hk
    · exact ⟨c.value, mem_map_of_mem hc, (asks_of_equalUnder hequal).1 hname⟩
    · exact ⟨c.value, mem_map_of_mem hc, hvalue ▸ hname⟩
  have hread : ¬ AnyAsks n (lifted.map SortKey.value) := by
    refine not_anyAsks_of_columns fun a ha => ?_
    obtain ⟨l, hl, rfl⟩ := mem_map.1 ha
    exact (hlifted l hl).imp fun _ h => h.1
  simp only [map_append, anyAsks_append] at hcolumns
  simp only [asks_iff, map_append, anyAsks_append, map_nil, anyAsks_nil]
  grind

theorem OrderedAs.asks (h : s.OrderedAs o) : (select o j).Asks n ↔ (select s i).Asks n := by
  induction h generalizing i j with
  | own s => simp only [asks_iff]
  | @source s x y z k lifted order source _ lift ih =>
    obtain ⟨hz, -, hlifted⟩ := liftOrder_asks (i := none) (j := none) (n := n) lift
    have hx := hz.trans (ih (i := k) (j := none))
    rw [asks_iff (i := j), asks_iff (i := i), source, order]
    simp [hlifted, hx]

theorem LayeredAs.asks (h : s.LayeredAs next layer lifted) :
    ((select layer j).Asks n ↔ (select s i).Asks n) ∧ ¬ AnyAsks n (lifted.map SortKey.value) := by
  obtain ⟨inner, hlift, rfl⟩ := h
  obtain ⟨hinner, -, hlifted⟩ := liftOrder_asks (i := i) (j := none) (n := n) hlift
  refine ⟨(asks_above s inner).trans (hinner.trans ?_), hlifted⟩
  simp only [asks_iff]

/-! ## Skipped rows -/

def LowersAsking (lower : SkipLowering) : Prop :=
  ∀ {s f : Select Tree} {skip : Tree} {take : Option Tree} {next next' : Alias} {n : String},
    (lower s skip take).Gives next f next' →
      ((Tree.select f none).Asks n ↔
        (Tree.select s.unbounded none).Asks n ∨ skip.Asks n ∨ AnyAsks n take.toList)

theorem fold_sum_asks {a b : Tree} (h : (binary .add a b).fold = .ok t) :
    t.Asks n ↔ a.Asks n ∨ b.Asks n := by
  rw [fold_asks h, asks_of_children rfl]
  simp

theorem windowFilter_asks {c : ColumnRef} (h : (windowFilter (.column c) skip take).Gives next window next') :
    window.Asks n ↔ skip.Asks n ∨ AnyAsks n take.toList := by
  obtain ⟨-, ⟨rfl, rfl⟩ | ⟨a, first, last, rfl, hfirst, hlast, rfl⟩⟩ := windowFilter_cases h
  · rw [asks_of_children rfl]
    simp [asks_column]
  · have hint : ¬ (int 1).Asks n := asks_constant _
    rw [asks_of_children rfl]
    simp [asks_column, fold_sum_asks hfirst, fold_sum_asks hlast, hint]

theorem NumberedOver.asks {base : Select Tree} {keys : List (SortKey Tree)} {label : Alias}
    (h : o.NumberedOver next base keys label) :
    (select base i).Asks n ∨ AnyAsks n (keys.map SortKey.value) ↔
      (select o.unbounded j).Asks n := by
  cases h with
  | itself =>
    simp only [asks_iff, unbounded, map_nil, anyAsks_nil]
    grind
  | layer lift =>
    obtain ⟨-, hinner, hlifted⟩ := liftOrder_asks (i := j) (j := none) (n := n) lift
    rw [asks_above, hinner, or_iff_left hlifted]
    simp only [asks_iff, unpaged, unbounded]

theorem window_asks (base : Select Tree) (keys : List (SortKey Tree)) (column : String) (label : Alias)
    (window : Tree) :
    (select (base.window keys column label window) i).Asks n ↔
      ((Tree.select base j).Asks n ∨ AnyAsks n (keys.map SortKey.value)) ∨ window.Asks n := by
  have hcolumns : ¬ AnyAsks n ((base.window keys column label window).columns.map Column.value) := by
    refine not_anyAsks_of_columns fun a ha => ?_
    obtain ⟨d, hd, rfl⟩ := mem_map.1 ha
    exact passOn_columns label _ _ (mem_map_of_mem (mem_filter.1 hd).1)
  have hnumber : (rowNumber keys).Asks n ↔ AnyAsks n (keys.map SortKey.value) := asks_of_children rfl
  have hnumbered : (select (base.numbering keys column label) none).Asks n ↔
      (select base j).Asks n ∨ AnyAsks n (keys.map SortKey.value) := by
    simp only [asks_iff, numbering, addColumn, map_append, anyAsks_append, map_cons,
      map_nil, anyAsks_cons, anyAsks_nil, hnumber]
    grind
  rw [← hnumbered]
  simp only [asks_iff (s := base.window keys column label window), hcolumns]
  simp [Select.window, Select.numbering, Select.wrap, Select.above, Select.removeColumn, asks_column]

theorem numberRows_asks : LowersAsking numberRows := by
  intro s f skip take next next' n h
  obtain ⟨o, hordered, base, keys, label, hbase, window, hwindow, rfl⟩ := numberRows_cases h
  rw [window_asks (j := none), hbase.asks (j := none), windowFilter_asks hwindow,
    hordered.unbounded.asks (i := none)]

theorem remainingRows_asks (h : (s.remainingRows skip).run next = (window, next')) :
    window.Asks n ↔ (select (s.sortedBy []) none).Asks n ∨ skip.Asks n := by
  obtain ⟨copy, next₁, hcopy, -, rfl⟩ := remainingRows_cases h
  obtain ⟨f, rfl, -⟩ := duplicate_gives hcopy
  have hcount : ¬ (aggregate .count none false .int64).Asks n := fun hname =>
    anyAsks_nil ((asks_of_children rfl).1 hname)
  rw [asks_of_children rfl]
  simp only [children, anyAsks_cons, anyAsks_nil, asks_of_children (t := .scalarSubquery _ _) rfl]
  rw [asks_layer rfl, rename_asks]
  simp [counting, hcount]

theorem FirstRows.asks {first : Select Tree} (h : o.FirstRows skip next take first window next') :
    (select first i).Asks n ∨ window.Asks n ↔
      (select o.unbounded none).Asks n ∨ skip.Asks n ∨ AnyAsks n take.toList := by
  cases h with
  | taken sum =>
    obtain ⟨hsum, -⟩ := Lowering.gives_evaluating.1 sum
    simp only [asks_iff, unbounded, Option.toList_some, Option.toList_none, anyAsks_cons, anyAsks_nil,
      fold_sum_asks hsum]
    grind
  | counted count =>
    rw [remainingRows_asks count]
    simp only [asks_iff, unbounded, Option.toList_none, map_nil, anyAsks_nil]
    grind

theorem asks_sorted (horder : layer.order = []) (hlifted : ¬ AnyAsks n (lifted.map SortKey.value)) :
    (select (layer.sortedBy (lifted.map SortKey.inverted)) i).Asks n ↔ (select layer j).Asks n := by
  have hinverted : (lifted.map SortKey.inverted).map SortKey.value = lifted.map SortKey.value := by
    simp [Function.comp_def, SortKey.inverted]
  simp only [asks_iff, hinverted, hlifted, horder, map_nil, anyAsks_nil]

theorem asks_taken (htake : layer.take = none) : (select { layer with take := some window } i).Asks n ↔
      (select layer j).Asks n ∨ window.Asks n := by
  simp only [asks_iff, htake, Option.toList_some, Option.toList_none, anyAsks_cons, anyAsks_nil]
  grind

theorem nestOrders_asks : LowersAsking nestOrders := by
  intro s f skip take next next' n h
  obtain ⟨o, hordered, first, window, next₁, hfirst, -, middle, lifted, outer, lifted', hmiddle, houter,
    rfl⟩ := nestOrders_cases h
  obtain ⟨hmiddle', hlifted⟩ := hmiddle.asks (i := none) (j := none) (n := n)
  obtain ⟨houter', hlifted'⟩ := houter.asks (i := none) (j := none) (n := n)
  obtain ⟨inner, -, rfl⟩ := hmiddle
  obtain ⟨inner', -, rfl⟩ := houter
  have hlast : (select ((first.above inner).lastRows lifted window) none).Asks n ↔
      (select first none).Asks n ∨ window.Asks n := by
    have hsorted := (asks_sorted (i := none) (j := none) rfl hlifted).trans hmiddle'
    exact (asks_taken (j := none) rfl).trans (or_congr_left hsorted)
  rw [asks_sorted (j := none) rfl hlifted', houter', hlast, hfirst.asks, hordered.unbounded.asks]

/-- The layers of a select ask for what the select asks for. -/
theorem lowerSkip_asks {lower : SkipLowering} (hlower : LowersAsking lower) (hskip : s.skip = some skip)
    (h : (s.lowerSkip lower skip).Gives next f next') :
    (select f none).Asks n ↔ (select s i).Asks n := by
  obtain ⟨folded, hfolded, ⟨hzero, rfl, -⟩ | ⟨-, taken, htaken, hgives⟩⟩ := lowerSkip_cases h
  · -- a constant bound asks for nothing
    have hconstant : ¬ skip.Asks n := by
      rw [← fold_asks hfolded]
      cases folded with
      | constant x => exact asks_constant x
      | _ => cases hzero
    simp only [asks_iff, hskip, Option.toList_some, Option.toList_none, anyAsks_cons, anyAsks_nil, hconstant,
      or_self]
  · have htake : AnyAsks n taken.toList ↔ AnyAsks n s.take.toList :=
      anyAsks_congr ((optionRel_iff.1 htaken).imp fun _ _ h => fold_asks h)
    rw [hlower hgives, htake, fold_asks hfolded]
    simp only [asks_iff, unbounded, hskip, Option.toList_some, Option.toList_none, anyAsks_cons, anyAsks_nil]
    grind

end Select

theorem Tree.lowerSkips_asks {lower : SkipLowering}
    (hlower : Select.LowersAsking lower) (h : (t.lowerSkips lower).Gives next u next') :
    u.Asks n ↔ t.Asks n := by
  refine bottomUp_asks lowering (fun {a b k k'} hnode => ?_) h
  rcases lowerSkipAt_cases hnode with ⟨rfl, -⟩ | ⟨s, i, skip, f, rfl, hskip, rfl, hf⟩
  · rfl
  · exact Select.lowerSkip_asks hlower hskip hf

theorem Tree.lowerPaging_asks {dialect : Dialect} (h : (t.lowerPaging dialect).Gives next u next') :
    u.Asks n ↔ t.Asks n := by
  unfold lowerPaging at h
  split at h
  · exact lowerSkips_asks Select.numberRows_asks h
  · exact lowerSkips_asks Select.nestOrders_asks h

/-! ## The lowerings together -/

/-- All lowerings together keep what a query asks for. -/
theorem lower_asks {dialect : Dialect} {m : EntityMap} {c : Config} (free : t.MemberFree)
    (h : (lower dialect m c t).Gives next u next') : u.Asks n ↔ t.Asks n := by
  obtain ⟨bound, lookups, _, isolated, next₂, hbind, hisolated, hpaged⟩ := lower_gives h
  obtain ⟨rfl, rfl, hbound⟩ := bindMembers_memberFree free hbind
  have hjoined : (lowerJoins c [] bound).Asks n ↔ bound.Asks n := by
    simp only [lowerJoins]
    split <;> split <;> simp only [(dropRepeatedLookups_nil _).asks, lowerApplies_asks]
  have hwrapped : isolated.Asks n ↔ (lowerJoins c [] bound).Asks n := by
    split at hisolated
    · obtain ⟨st, hvisit, -⟩ := isolatesTo_of_run hisolated
      exact Tree.IsolatedAs.asks ⟨_, _, hvisit⟩
    · cases hisolated
      rfl
  rw [lowerPaging_asks hpaged, hwrapped, hjoined, hbound.asks]

/-! ## Evaluated parameters -/

variable {env : Environment}

theorem Tree.asks_of_query {s : Select Tree} (hs : s ∈ t.query?) (h : (select s none).Asks n) : t.Asks n := by
  have hselect : ∀ i, (select s i).Asks n := fun i =>
    (asks_of_children rfl).2 ((asks_of_children rfl).1 h)
  rcases query_cases hs with ⟨i, rfl⟩ | ⟨j, shape, i, rfl⟩
  · exact hselect i
  · exact (asks_of_children rfl).2 ⟨_, mem_cons_self, hselect j⟩

theorem Tree.Evaluates.asks {x : Evaluation} (h : t.Evaluates env x) (hx : x.tree.Asks n) : t.Asks n := by
  obtain ⟨s, hs, hreach⟩ := h
  refine asks_of_query hs ?_
  induction hreach with
  | refl => exact hx
  | tail _ hstep ih => exact ih (asks_iff.2 (.inr ⟨_, hstep.mem_children, hx⟩))

theorem Tree.run_bound (h : ∀ name, t.Asks name → (env.arguments.lookup name).isSome = true) :
    (∀ name, t.run env ≠ .error (.unboundParameter name)) ∧
      ∀ names, t.run env ≠ .error (.unboundParameters names) := by
  refine ⟨fun name hrun => ?_, fun names hrun => ?_⟩
  · obtain ⟨x, hx, p, hp, rfl, hlookup⟩ := exists_raising hrun rfl
    have hasks : t.Asks p.name := hx.asks (asks_iff.2 (.inl ⟨p, by rw [hp]; rfl, rfl⟩))
    exact absurd (h _ hasks) (by simp [hlookup])
  · obtain ⟨_, _, hraises⟩ := exists_raising hrun rfl
    exact hraises

/-! ## Listed parameters -/

theorem parameters_foldl (ps : List Parameter) :
    let listed := ps.foldl (fun seen p => if seen.any fun q => q.name == p.name then seen else seen ++ [p]) []
    (listed.map Parameter.name).Nodup ∧
      ∀ name, name ∈ listed.map Parameter.name ↔ ∃ p ∈ ps, p.name = name := by
  induction ps using reverseRecOn with
  | nil => exact ⟨nodup_nil, by simp⟩
  | append_singleton ps p ih =>
    simp only [foldl_append, foldl_cons, foldl_nil]
    obtain ⟨hnodup, hnames⟩ := ih
    split
    · next hmem =>
      obtain ⟨q, hq, hname⟩ := any_eq_true.1 hmem
      refine ⟨hnodup, fun name => (hnames name).trans ?_⟩
      have := (hnames q.name).1 (mem_map_of_mem hq)
      grind
    · next hmem =>
      rw [map_append, map_singleton, ← concat_eq_append, nodup_concat]
      refine ⟨⟨by simpa using hmem, hnodup⟩, fun name => ?_⟩
      rw [concat_eq_append, mem_append, hnames]
      grind

theorem Tree.parameters_nodup (t : Tree) : (t.parameters.map Parameter.name).Nodup :=
  (parameters_foldl _).1

theorem Tree.mem_parameters {name : String} : name ∈ t.parameters.map Parameter.name ↔ t.Asks name := by
  exact ((parameters_foldl _).2 name).trans (by simp [Asks])

/-! ## Compiled queries -/

variable {dialect : Dialect} {m : EntityMap} {c : Config} {q : CompiledQuery} {next next' : Alias}

theorem CompiledQuery.run_unbound (hlisted : q.parameters = q.tree.parameters) (env : Environment) :
    ((∃ names, q.run env = .error (.unboundParameters names)) ↔
        ∃ name, q.tree.Asks name ∧ env.arguments.lookup name = none) ∧
      ∀ name, q.run env ≠ .error (.unboundParameter name) := by
  have hmem : ∀ name, name ∈ q.unbound env.arguments ↔
      q.tree.Asks name ∧ env.arguments.lookup name = none := fun name => by
    rw [unbound, mem_filter, Option.isNone_iff_eq_none, hlisted, mem_parameters]
  unfold run
  split
  · next hnil =>
    have hnone : ∀ name, q.tree.Asks name → (env.arguments.lookup name).isSome = true := by
      intro name hname
      rw [Option.isSome_iff_ne_none]
      intro hlookup
      have hunbound := (hmem name).2 ⟨hname, hlookup⟩
      rw [hnil] at hunbound
      cases hunbound
    obtain ⟨hone, hmany⟩ := run_bound hnone
    refine ⟨⟨?_, ?_⟩, hone⟩
    · rintro ⟨names, hrun⟩
      exact absurd hrun (hmany names)
    · rintro ⟨name, hname⟩
      rw [← hmem, hnil] at hname
      cases hname
  · next hne =>
    refine ⟨iff_of_true ⟨_, rfl⟩ ?_, nofun⟩
    obtain ⟨name, hname⟩ := exists_mem_of_ne_nil _ hne
    exact ⟨name, (hmem name).1 hname⟩

/-- A compiled query lists each parameter of the query once and lists no others. Hence it misses a
parameter exactly if one of the query has no value, and if none is missing at the start, none is missing
later. -/
theorem compile_parameters (free : t.MemberFree)
    (compiled : (compile dialect m c t).run.run next = (.ok q, next')) :
    (q.parameters.map Parameter.name).Nodup ∧
      (∀ name, name ∈ q.parameters.map Parameter.name ↔ t.Asks name) ∧
      ∀ env : Environment,
        ((∃ names, q.run env = .error (.unboundParameters names)) ↔
          ∃ name, t.Asks name ∧ env.arguments.lookup name = none) ∧
        ∀ name, q.run env ≠ .error (.unboundParameter name) := by
  obtain ⟨hlowered, hlisted, -⟩ := compile_cases compiled
  have hasks : ∀ name, q.tree.Asks name ↔ t.Asks name := fun name => lower_asks free hlowered
  refine ⟨hlisted ▸ q.tree.parameters_nodup, fun name => ?_, fun env => ?_⟩
  · rw [hlisted, Tree.mem_parameters, hasks]
  · simpa only [hasks] using CompiledQuery.run_unbound hlisted env

def notesFrom : Tree :=
  .select
    { label := 1
      columns := [intColumn 0 "rank"]
      source := some (.table 0 "notes")
      filter := some (.binary .equal (intColumn 0 "customer").value (.parameter ⟨"customer", .int64⟩))
      order := [⟨.ascending, .binary .add (intColumn 0 "rank").value (.parameter ⟨"shift", .int64⟩)⟩]
      skip := some (.parameter ⟨"first", .int64⟩)
      take := some (.binary .add (.parameter ⟨"count", .int64⟩) (.int 1)) }
    none

theorem compile_parameters_notesFrom :
    notesFrom.MemberFree ∧ ∃ q next', (compile .hive [] {} notesFrom).run.run 2 = (.ok q, next') ∧
      (q.parameters.map Parameter.name).Nodup ∧
      (∀ name, name ∈ q.parameters.map Parameter.name ↔ notesFrom.Asks name) ∧
      ∃ names, q.run { sampleNotes with arguments := [("customer", .int 1)] } =
        .error (.unboundParameters names) := by
  have hfree : notesFrom.MemberFree := by decide
  have hok : ((compile .hive [] {} notesFrom).run.run 2).1.isOk = true := by decide +kernel
  obtain ⟨q, next', hcompiled⟩ := exists_result hok
  obtain ⟨hnodup, hmem, hrun⟩ := compile_parameters hfree hcompiled
  exact ⟨hfree, q, next', hcompiled, hnodup, hmem, (hrun _).1.2 ⟨"first", by decide, rfl⟩⟩

end HiveQuery
