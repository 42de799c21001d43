import HiveQuery.Proofs.Copies
import HiveQuery.Proofs.RowNumberTrees

/-!
# What lowering a page does

The trees that replace a select with skipped rows, whatever its bounds and its keys are. What they
declare, what they ask for and which nodes they are made of all follow from this.
-/

namespace HiveQuery
open List Lowering

variable {next next' : Alias}

namespace Select

variable {s s' f o : Select Tree} {skip : Tree} {take : Option Tree} {lifted order : List (SortKey Tree)}

/-! ## Orders -/

theorem passOn_column (a : Alias) (d : Column Tree) :
    ∃ c : ColumnRef, (passOn a d).value = .column c ∧ c.label = a := by
  obtain ⟨c, hvalue, hlabel, -⟩ := passOn_value a d
  exact ⟨c, hvalue, hlabel⟩

theorem passOn_columns (label : Alias) (cs : List (Column Tree)) :
    ∀ a ∈ (cs.map (passOn label)).map Column.value, ∃ c, a = .column c := by
  intro a ha
  obtain ⟨d, hd, rfl⟩ := mem_map.1 ha
  obtain ⟨c, -, rfl⟩ := mem_map.1 hd
  exact (passOn_column label c).imp fun _ h => h.1

/-- A select with the order that it delivers its rows in: its own one, or that of the select it reads from. -/
inductive OrderedAs : Select Tree → Select Tree → Prop
  | own (s : Select Tree) : OrderedAs s s
  | source {s x y z : Select Tree} {i : Option Identity} {lifted : List (SortKey Tree)}
      (order : s.order = []) (source : s.source = some (.select x i)) (ordered : OrderedAs x y)
      (lift : y.liftOrder = .ok (z, lifted)) :
      OrderedAs s { s with source := some (.select z none), order := lifted }

theorem requireOrder_ordered (h : s.requireOrder = .ok (s', order)) : s.OrderedAs (s'.sortedBy order) := by
  -- along the selects from which the order comes
  suffices hall : ∀ t : Tree, ∀ s i, t = .select s i → ∀ {s' order}, s.requireOrder = .ok (s', order) →
      s.OrderedAs (s'.sortedBy order) from hall (.select s none) s none rfl h
  intro t
  induction t with
  | step t ih =>
    rintro s i rfl s' order h
    rcases requireOrder_cases h with ⟨-, rfl, rfl⟩ | ⟨hnil, -, a, a', ha, hlift, rfl⟩
    · exact .own s'
    · obtain ⟨x, j, x', keys, z, rfl, hrequire, hlifted, rfl⟩ := Tree.liftedOrder_cases hlift
      have hmem : Tree.select x j ∈ s.clauses := by simp [clauses, ha]
      exact .source hnil ha (ih _ hmem x j rfl hrequire) hlifted

def unbounded (s : Select Tree) : Select Tree :=
  { s with skip := none, take := none }

theorem OrderedAs.unbounded (h : s.OrderedAs o) : s.unbounded.OrderedAs o.unbounded := by
  cases h with
  | own => exact .own _
  | source order source ordered lift => exact .source order source ordered lift

/-- A select with columns for its sort keys. -/
theorem liftOrder_cases (h : s.liftOrder = .ok (s', lifted)) :
    ∃ order extra,
      Forall₂ (fun k k' => k'.direction = k.direction ∧ k.value.KeptKey k'.value) s.order order ∧
      s' = { s with order := order, columns := s.columns ++ extra } ∧
      (∀ e ∈ extra, ∃ k ∈ order, k.value = e.value) ∧
      (∀ k ∈ order, ∃ c ∈ s'.columns, c.value.equal k.value = true ∨ c.value = k.value) ∧
      (∀ l ∈ lifted, ∃ c : ColumnRef, l.value = .column c ∧ c.label = s.label) ∧
      (s.headers.Nodup → s'.headers.Nodup) := by
  obtain ⟨order, extra, hkept, rfl, hlifts⟩ := liftOrder_copies h
  refine ⟨order, extra, hkept, rfl, hlifts.values, fun k hk => ?_, fun l hl => hlifts.exists_column hl, hlifts.nodup⟩
  obtain ⟨l, -, hl⟩ := forall₂_mem_left hlifts.lifted hk
  obtain ⟨c, hc, -, -, -, -, hvalue⟩ := hl.column
  exact ⟨c, hc, hvalue⟩

/-! ## Numbered rows -/

/-- The select that gets row numbers, and the keys that they follow. -/
inductive NumberedOver (o : Select Tree) (next : Alias) : Select Tree → List (SortKey Tree) → Alias → Prop
  | itself : NumberedOver o next { o with order := [], skip := none, take := none } o.order next
  | layer {inner : Select Tree} {lifted : List (SortKey Tree)}
      (lift : (o.unpaged next).liftOrder = .ok (inner, lifted)) :
      NumberedOver o next (o.above { inner with order := [] }) lifted (next + 1)

/-- What a select with row numbers is put together from. -/
theorem numberRows_cases (h : (s.numberRows skip take).Gives next f next') :
    ∃ o, s.OrderedAs o ∧ ∃ base keys label, o.NumberedOver next base keys label ∧
      base.WindowOver keys label skip take next' f := by
  obtain ⟨o, order, hrequire, base, keys, label, hbase, hwindow⟩ := numberRows_gives h
  refine ⟨_, requireOrder_ordered hrequire, base, keys, label, ?_, hwindow⟩
  unfold numberedBase at hbase
  split at hbase
  · obtain ⟨heq, rfl⟩ := gives_pure.1 hbase
    obtain ⟨rfl, rfl⟩ := Prod.mk.inj heq
    exact .itself
  · obtain ⟨rfl, inner, hlifted, rfl⟩ := layer_lifted hbase
    exact .layer hlifted

/-! ## Nested orders -/

/-- A select that counts the rows of a source. -/
def counting (label : Alias) (source : Tree) : Select Tree where
  label := label
  columns := [⟨"c", .aggregate .count none false .int64, ScalarType.int64.columnType⟩]
  source := some source

/-- The rows up to the end of a window, and how many rows the window has: as many as are taken, or all
that are left. -/
inductive FirstRows (o : Select Tree) (skip : Tree) (next : Alias) :
    Option Tree → Select Tree → Tree → Alias → Prop
  | taken {take limit : Tree} {next' : Alias} (sum : (foldedSum skip take).Gives next limit next') :
      FirstRows o skip next (some take) { o with skip := none, take := some limit } take next'
  | counted {window : Tree} {next' : Alias}
      (count : (remainingRows { o with skip := none, take := none } skip).run next = (window, next')) :
      FirstRows o skip next none { o with skip := none, take := none } window next'

/-- The layer that takes the last rows of a window by inverting the order. -/
def lastRows (layer : Select Tree) (lifted : List (SortKey Tree)) (window : Tree) : Select Tree :=
  { layer with order := lifted.map SortKey.inverted, take := some window }

theorem nestOrders_gives (h : (s.nestOrders skip take).Gives next f next') :
    ∃ o order first window next₁, s.requireOrder = .ok (o, order) ∧
      FirstRows (o.sortedBy order) skip next take first window next₁ ∧
      ∃ middle lifted next₂, (first.layer id).Gives next₁ (middle, lifted) next₂ ∧
        ∃ outer lifted', ((middle.lastRows lifted window).layer id).Gives next₂ (outer, lifted') next' ∧
          f = (outer.sortedBy (lifted'.map SortKey.inverted)) := by
  obtain ⟨⟨o, order⟩, next₀, hgives, hnested⟩ := gives_bind.1 h
  obtain ⟨hrequire, rfl⟩ := gives_except.1 hgives
  cases take
  -- both ways to bound the window go on with the same two layers
  all_goals
    obtain ⟨bound, next₁, hbound, hjoin⟩ := gives_bind.1 hnested
    obtain ⟨_, _, hpair, hlayers⟩ := gives_bind.1 hjoin
    obtain ⟨rfl, rfl⟩ := gives_pure.1 hpair
    obtain ⟨⟨middle, lifted⟩, next₂, hmiddle, hlast⟩ := gives_bind.1 hlayers
    obtain ⟨⟨outer, lifted'⟩, next₃, houter, hpure⟩ := gives_bind.1 hlast
    obtain ⟨rfl, rfl⟩ := gives_pure.1 hpure
    refine ⟨o, order, _, _, _, hrequire, ?_, middle, lifted, next₂, hmiddle, outer, lifted', houter, rfl⟩
  · exact .counted (gives_state.1 hbound)
  · exact .taken hbound

theorem remainingRows_cases {window : Tree} (h : (s.remainingRows skip).run next = (window, next')) :
    ∃ copy next₁, (Tree.select (s.sortedBy []) none).duplicate.run next = (copy, next₁) ∧ next' = next₁ + 1 ∧
      window = .binary .subtract (.scalarSubquery (.select (counting next₁ copy) none) .int64) skip := by
  obtain ⟨copy, next₁, hcopy, hrest⟩ := (Outcome.state Alias).of_bind h
  obtain ⟨rfl, rfl⟩ := Prod.mk.inj hrest
  exact ⟨copy, next₁, hcopy, rfl, rfl⟩

theorem FirstRows.next_le {o first : Select Tree} {window : Tree}
    (h : o.FirstRows skip next take first window next') : next ≤ next' := by
  cases h with
  | taken sum => exact (gives_evaluating.1 sum).2.ge
  | counted count =>
    obtain ⟨_, _, hcopy, rfl, -⟩ := remainingRows_cases count
    obtain ⟨-, -, hnext, -⟩ := Tree.duplicate_gives hcopy
    exact Nat.le_succ_of_le hnext

theorem nestOrders_ascends (s : Select Tree) (skip : Tree) (take : Option Tree) :
    (s.nestOrders skip take).Ascends := by
  intro next f next' h
  obtain ⟨o, order, first, window, next₁, -, hfirst, middle, lifted, next₂, hmiddle, outer, lifted',
    houter, -⟩ := nestOrders_gives h
  exact hfirst.next_le.trans ((layer_ascends _ _ _ _ _ hmiddle).trans (layer_ascends _ _ _ _ _ houter))

/-- A layer with the alias of the select, over the select with a fresh alias and columns for its keys. -/
def LayeredAs (s : Select Tree) (next : Alias) (layer : Select Tree) (lifted : List (SortKey Tree)) : Prop :=
  ∃ inner, (s.labelled next).liftOrder = .ok (inner, lifted) ∧
    layer = s.above inner

/-- What a select with nested orders is put together from. -/
theorem nestOrders_cases (h : (s.nestOrders skip take).Gives next f next') :
    ∃ o, s.OrderedAs o ∧ ∃ first window next₁, FirstRows o skip next take first window next₁ ∧
      next' = next₁ + 2 ∧ ∃ middle lifted outer lifted', first.LayeredAs next₁ middle lifted ∧
        (middle.lastRows lifted window).LayeredAs (next₁ + 1) outer lifted' ∧
        f = (outer.sortedBy (lifted'.map SortKey.inverted)) := by
  obtain ⟨o, order, first, window, next₁, hrequire, hfirst, middle, lifted, next₂, hmiddle, outer,
    lifted', houter, rfl⟩ := nestOrders_gives h
  obtain ⟨rfl, inner, hinner, hlayer⟩ := layer_lifted hmiddle
  obtain ⟨rfl, inner', hinner', hlayer'⟩ := layer_lifted houter
  exact ⟨_, requireOrder_ordered hrequire, first, window, next₁, hfirst, rfl, middle, lifted, outer,
    lifted', ⟨inner, hinner, hlayer⟩, ⟨inner', hinner', hlayer'⟩, rfl⟩

end Select

/-! ## Laws of clauses -/

/-- What may stand in the clauses of a select. -/
structure ClauseLaw where
  source : Tree → Prop
  scalar : Tree → Prop
  bound : Tree → Prop
  reverses : Prop

/-- The clauses of a select that skips no rows keep to a law. -/
structure Select.Obeys (s : Select Tree) (L : ClauseLaw) : Prop where
  source : ∀ a ∈ s.source, L.source a
  filter : ∀ a ∈ s.filter, L.scalar a
  order : ∀ k ∈ s.order, L.scalar k.value
  group : ∀ a ∈ s.group, L.scalar a
  cluster : ∀ a ∈ s.cluster, L.scalar a
  columns : ∀ c ∈ s.columns, L.scalar c.value
  take : ∀ a ∈ s.take, L.bound a
  skip : s.skip = none
  reverse : s.reverse = true → L.reverses

/-- Selects that keep to a law can be sources, columns can stand everywhere, and so can copies of keys. -/
structure ClauseLaw.Layered (L : ClauseLaw) : Prop where
  select : ∀ {s : Select Tree} {i : Option Identity}, L.source (.select s i) ↔ s.Obeys L
  column : ∀ c, L.scalar (.column c)
  key : ∀ {t u : Tree}, t.KeptKey u → L.scalar t → L.scalar u

namespace Select.Obeys

variable {L : ClauseLaw} {s s' f o layer : Select Tree} {skip kept : Tree} {take : Option Tree}
  {lifted keys : List (SortKey Tree)} {label : Alias}

theorem above (h : s'.Obeys L) (hL : L.Layered) (s : Select Tree) : (s.above s').Obeys L := by
  refine ⟨?_, nofun, nofun, nofun, nofun, fun c hc => ?_, nofun, rfl, nofun⟩
  · rintro _ ⟨rfl⟩
    exact hL.select.2 h
  · obtain ⟨d, hd⟩ := passOn_columns s'.label s.columns _ (mem_map_of_mem hc)
    exact hd ▸ hL.column d

theorem liftOrder (hs : s.Obeys L) (hL : L.Layered) (h : s.liftOrder = .ok (s', lifted)) :
    s'.Obeys L ∧ ∀ l ∈ lifted, L.scalar l.value := by
  obtain ⟨order, extra, hkept, rfl, hextra, -, hlifted, -⟩ := liftOrder_cases h
  have horder : ∀ k ∈ order, L.scalar k.value := fun k hk => by
    obtain ⟨k₀, hk₀, -, hkey⟩ := forall₂_mem_right hkept hk
    exact hL.key hkey (hs.order k₀ hk₀)
  have hcolumns : ∀ c ∈ s.columns ++ extra, L.scalar c.value := by
    refine forall_mem_append.2 ⟨hs.columns, fun e he => ?_⟩
    obtain ⟨k, hk, hvalue⟩ := hextra e he
    exact hvalue ▸ horder k hk
  refine ⟨{ hs with order := horder, columns := hcolumns }, fun l hl => ?_⟩
  obtain ⟨c, hc, -⟩ := hlifted l hl
  exact hc ▸ hL.column c

theorem ordered (hs : s.Obeys L) (hL : L.Layered) (h : s.OrderedAs o) : o.Obeys L := by
  induction h with
  | own => exact hs
  | source order source _ lift ih =>
    obtain ⟨hz, hlifted⟩ := (ih (hL.select.1 (hs.source _ source))).liftOrder hL lift
    refine { hs with source := ?_, order := hlifted }
    rintro _ ⟨rfl⟩
    exact hL.select.2 hz

theorem layered (hs : s.Obeys L) (hL : L.Layered) (h : s.LayeredAs next layer lifted) :
    layer.Obeys L ∧ ∀ l ∈ lifted, L.scalar l.value := by
  obtain ⟨inner, hlift, rfl⟩ := h
  have hrenamed : (s.labelled next).Obeys L := { hs with }
  obtain ⟨hinner, hlifted⟩ := hrenamed.liftOrder hL hlift
  exact ⟨hinner.above hL s, hlifted⟩

theorem numbered (ho : o.unbounded.Obeys L) (hL : L.Layered) (h : o.NumberedOver next s keys label) :
    s.Obeys L ∧ ∀ k ∈ keys, L.scalar k.value := by
  cases h with
  | itself => exact ⟨{ ho with order := nofun }, ho.order⟩
  | @layer inner _ lift =>
    have hunpaged : (o.unpaged next).Obeys L := { ho with }
    obtain ⟨hinner, hlifted⟩ := hunpaged.liftOrder hL lift
    have hunordered : (inner.sortedBy []).Obeys L := { hinner with order := nofun }
    exact ⟨hunordered.above hL o, hlifted⟩

/-- Layers of row numbers keep to a law. -/
theorem numberRows (hs : s.unbounded.Obeys L) (hL : L.Layered)
    (number : ∀ keys : List (SortKey Tree), (∀ k ∈ keys, L.scalar k.value) → L.scalar (.rowNumber keys))
    (window : ∀ {c m w m'}, (windowFilter (.column c) skip take).Gives m w m' → L.scalar w)
    (h : (s.numberRows skip take).Gives next f next') : f.Obeys L := by
  obtain ⟨o, hordered, base, keys, label, hbase, kept, hkept, rfl⟩ := numberRows_cases h
  obtain ⟨hbase, hkeys⟩ := (hs.ordered hL hordered.unbounded).numbered hL hbase
  let row : Column Tree := ⟨freeName base.headers "_rownum", .rowNumber keys, ScalarType.int32.columnType⟩
  have hcolumns : ∀ c ∈ base.columns ++ [row], L.scalar c.value :=
    forall_mem_append.2 ⟨hbase.columns, forall_mem_singleton.2 (number keys hkeys)⟩
  have hnumbered : ({ base.addColumn row with label := label } : Select Tree).Obeys L :=
    { hbase with columns := hcolumns }
  have hlayer := hnumbered.above hL (base.addColumn row)
  refine { hlayer with
    filter := ?_
    order := forall_mem_singleton.2 (hL.column _)
    columns := fun c hc => hlayer.columns c (mem_filter.1 hc).1 }
  rintro _ ⟨rfl⟩
  exact window hkept

/-- Layers of nested orders keep to a law. -/
theorem nestOrders (hs : s.unbounded.Obeys L) (hL : L.Layered)
    (rows : ∀ {o first : Select Tree} {window : Tree} {m : Alias}, o.unbounded.Obeys L →
      o.FirstRows skip next take first window m → first.Obeys L ∧ L.bound window)
    (h : (s.nestOrders skip take).Gives next f next') : f.Obeys L := by
  obtain ⟨o, hordered, first, window, next₁, hfirst, -, middle, lifted, outer, lifted', hmiddle, houter,
    rfl⟩ := nestOrders_cases h
  obtain ⟨hfirst, hwindow⟩ := rows (hs.ordered hL hordered.unbounded) hfirst
  obtain ⟨hmiddle, hlifted⟩ := hfirst.layered hL hmiddle
  have hlast : (middle.lastRows lifted window).Obeys L := by
    refine { hmiddle with order := forall_mem_map.2 hlifted, take := ?_ }
    rintro _ ⟨rfl⟩
    exact hwindow
  obtain ⟨houter, hlifted'⟩ := hlast.layered hL houter
  exact { houter with order := forall_mem_map.2 hlifted' }

end Select.Obeys

end HiveQuery
