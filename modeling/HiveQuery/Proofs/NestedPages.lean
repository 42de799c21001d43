import HiveQuery.Proofs.AlikeOrders
import HiveQuery.Proofs.NestedLayers
import HiveQuery.Proofs.Similarity
import Mathlib.Data.List.Flatten

/-!
# Pages by nested orders

A page is taken from below by taking the first rows up to its end, and of these the last ones.
-/

namespace HiveQuery
open List HiveQuery.Tree

variable {α : Type} {directions : List Direction} {t u : Tree} {lower : SkipLowering} {r : Relation}
  {i : Option Identity}

variable {env : Environment} {next next' : Alias}

/-! ## Counted copies -/

variable {n : Int64}

theorem Select.duplicate_agree {s : Select Tree} {copy : Tree}
    (h : (select s none).duplicate.run next = (copy, next')) {r : Relation} (hrun : s.run env [] = .ok r) :
    ∃ s' j, copy = .select s' j ∧ s'.run env [] = .ok r := by
  obtain ⟨f, rfl, -, -, inj, -⟩ := duplicate_gives h
  obtain ⟨s', j, hs', hagree⟩ := run_of_similar (similar_rename f (.select s none))
  have inj : Separates f ((select s none).declared ++ []) := by rwa [append_nil]
  exact ⟨s', j, hs', hagree inj nofun nofun hrun⟩

namespace Select

variable {s : Select Tree} {frames : Frames} {rows : KeyedRows}

theorem unordered_delivered (grouped : (s.sortedBy []).isGrouped = s.isGrouped) (skip : s.skip = none)
    (take : s.take = none) (h : s.delivered env frames = .ok rows) :
    ∃ rows', (s.sortedBy []).delivered env frames = .ok rows' ∧ rows'.length = rows.length := by
  obtain ⟨produced, hproduced, rfl⟩ := (delivered_eq_ok_of_unpaged skip take).1 h
  have hcontexts : (s.sortedBy []).contexts env frames = s.contexts env frames := by
    rw [contexts, contexts, grouped]
    rfl
  have hproduced' : (s.sortedBy []).produced env frames = .ok (produced.map fun p => (p.1, [])) := by
    obtain ⟨contexts, hc, hrows⟩ := produced_eq_ok.1 hproduced
    exact produced_eq_ok.2 ⟨contexts, hcontexts.trans hc,
      forall₂_map_right_iff.2 (hrows.imp fun _ _ h => ⟨h.1, rfl⟩)⟩
  refine ⟨_, (delivered_eq_ok_of_unpaged (s := s.sortedBy []) skip take).2 ⟨_, hproduced', rfl⟩, ?_⟩
  show (arrange s.distinct s.reverse [] (produced.map fun p => (p.1, []))).length =
    (arrange s.distinct s.reverse s.directions produced).length
  rw [(arrange_perm _ _ _ _).length_eq, (arrange_perm _ _ _ _).length_eq,
    Layered.uniqueRows_map_unkeyed, length_map]

theorem counting_delivered (label : Alias) (j : Option Identity) (h : s.delivered env frames = .ok rows) :
    (counting label (.select s j)).delivered env frames = .ok [([countValue rows.length], [])] := by
  have hgrouped : (counting label (.select s j)).isGrouped = true := by
    simp [isGrouped, hasAggregates, counting, hasAggregate_eq, isAggregate]
  let row : List Value × List Value → Row := fun p => sourceRow s.label s.headers p.1
  have hcount : ((rows.map row).length : Int) ≤ greatestInt64 := by
    rw [length_map]
    exact delivered_length h
  have hfilter : filterRows (fun row => satisfies env (row :: frames) none) (rows.map row) =
      .ok (rows.map row) := by
    have hkeep : ∀ p ∈ rows, satisfies env (row p :: frames) none = .ok ((fun _ => true) p) := fun _ _ => rfl
    rw [filterRows_map hkeep, filter_true]
  have hkept : (counting label (.select s j)).keptRows env frames = .ok (rows.map row) :=
    keptRows_eq_ok.2 ⟨_, rows_select_eq_ok (i := j).2 ⟨rows, h, rfl⟩, hfilter, hcount⟩
  -- all rows are in one group
  have hcontexts : (counting label (.select s j)).contexts env frames =
      .ok (groupContexts frames [s.label] [rows.map row]) := by
    refine contexts_eq_ok.2 ⟨_, hkept, .inl ⟨hgrouped, (rows.map row).map fun _ => [], ?_, rfl⟩⟩
    exact forall₂_map_right_iff.2 (forall₂_same.2 fun _ _ => rfl)
  have hproduced : (counting label (.select s j)).produced env frames =
      .ok [([countValue rows.length], [])] := by
    refine produced_eq_ok.2 ⟨_, hcontexts, .cons ⟨?_, rfl⟩ .nil⟩
    rw [← length_map (f := row)]
    rfl
  exact delivered_eq_ok.2 ⟨_, none, none, hproduced, rfl, rfl, rfl⟩

/-- A number of rows left over, which is too great for a number if many more than none are skipped. -/
def leftOver (m : Nat) (n : Int64) : Run Nat :=
  if (m : Int) - n.toInt ≤ greatestInt64 then .ok ((m : Int) - n.toInt).toNat
  else .error (.value (.overflow .subtract))

theorem leftOver_of_nonneg {m : Nat} (hm : (m : Int) ≤ greatestInt64) (hn : 0 ≤ n.toInt) :
    leftOver m n = .ok (m - n.toInt.toNat) := by
  rw [leftOver, if_pos (by omega), show ((m : Int) - n.toInt).toNat = m - n.toInt.toNat by omega]

theorem rowCount_subtract {m : Nat} (hm : (m : Int) ≤ greatestInt64) (n : Int64) :
    (Run.ofValue (Value.applyBinary .subtract (countValue m) (.int n)) >>= rowCount) = leftOver m n := by
  have hexact : Value.Exact .subtract (m - n.toInt) (Value.applyBinary .subtract (countValue m) (.int n)) :=
    countValue_toInt hm ▸ .of_int64? .subtract ((Int64.ofNat m).toInt - n.toInt)
  have hgreatest := n.toInt_lt
  rw [leftOver]
  split_ifs with hfits
  · obtain ⟨i, hi, heq⟩ := hexact.fits (by omega) (Int.lt_add_one_of_le hfits)
    rw [heq, ← hi]
    rfl
  · rw [hexact.overflows (.inr (Int.add_one_le_of_lt (not_le.1 hfits)))]
    rfl

/-- The rows of a copy without an order are counted. -/
theorem remainingRows_leftOver {window : Tree} (hrows : (s.sortedBy []).delivered env [] = .ok rows)
    (h : (s.remainingRows (.constant (.int n))).run next = (window, next')) :
    optionalCount env [] (some window) = some <$> leftOver rows.length n := by
  obtain ⟨copy, next₁, hcopy, -, rfl⟩ := remainingRows_cases h
  have hrun : (s.sortedBy []).run env [] = .ok ⟨s.headers, rows.map Prod.fst⟩ := run_eq_ok.2 ⟨_, hrows, rfl⟩
  obtain ⟨s', j, rfl, hrun'⟩ := duplicate_agree hcopy hrun
  obtain ⟨rows', hrows', hrelation⟩ := run_eq_ok.1 hrun'
  have hlength : rows'.length = rows.length := by
    have hvalues : rows.map Prod.fst = rows'.map Prod.fst := congrArg Relation.rows hrelation
    rw [← length_map (f := Prod.fst), ← length_map (f := Prod.fst), hvalues]
  have hcounting : (counting next₁ (.select s' j)).run env [] = .ok ⟨["c"], [[countValue rows.length]]⟩ := by
    rw [← hlength]
    exact run_eq_ok.2 ⟨_, counting_delivered next₁ j hrows', rfl⟩
  have hscalar : (scalarSubquery (.select (counting next₁ (.select s' j)) none) .int64).scalar env []
      none = .ok (countValue rows.length) := by
    rw [scalar, firstValues, hcounting]
    rfl
  have hwindow : (binary .subtract
      (.scalarSubquery (.select (counting next₁ (.select s' j)) none) .int64) (.constant (.int n))).scalar
      env [] none = Run.ofValue (Value.applyBinary .subtract (countValue rows.length) (.int n)) := by
    rw [scalar, hscalar]
    rfl
  rw [← rowCount_subtract (delivered_length hrows), ← hwindow, map_eq_pure_bind, bind_assoc]
  rfl

end Select

/-! ## Rows that are left -/

/-- The rows that nested orders leave: the first rows up to the end of a page, and of these the last
ones. -/
def nestedRows {α : Type} (directions : List Direction) (skip : Nat) (take : Option Nat)
    (rows : List (α × List Value)) : List (α × List Value) :=
  match take with
  | some m => lastOf directions m (rows.take (skip + m))
  | none => lastOf directions (rows.length - skip) rows

/-- A page that ends with the last row if there are not enough rows. -/
def nestedPage {α : Type} (skip : Nat) (take : Option Nat) (rows : List α) : List α :=
  match take with
  | some m => (rows.take (skip + m)).drop (min (skip + m) rows.length - m)
  | none => rows.drop skip

theorem nestedPage_eq_page {skip : Nat} {take : Option Nat} {rows : List α}
    (h : ∀ m ∈ take, skip + m ≤ rows.length) : nestedPage skip take rows = page (some skip) take rows := by
  cases take with
  | none => rfl
  | some m =>
    have hm := h m rfl
    rw [nestedPage, page, Nat.min_eq_left hm, Nat.add_sub_cancel, Option.getD_some, drop_take,
      Nat.add_sub_cancel_left]

theorem nestedPage_zero (take : Option Nat) (rows : List α) :
    nestedPage 0 take rows = page none take rows := by
  cases take with
  | none => rfl
  | some m =>
    have hend : min (0 + m) rows.length - m = 0 := by omega
    rw [nestedPage, hend, Nat.zero_add]
    rfl

theorem nestedRows_of_strict {rows : List (α × List Value)}
    (h : StrictKeys directions (rows.map Prod.snd)) (skip : Nat) (take : Option Nat) :
    nestedRows directions skip take rows = nestedPage skip take rows := by
  cases take with
  | none =>
    rw [nestedRows, lastOf_eq_drop h, nestedPage]
    exact drop_eq_drop_iff.2 (by omega)
  | some m =>
    rw [nestedRows, lastOf_eq_drop (h.sublist ((take_sublist _ rows).map Prod.snd)), length_take, nestedPage]

/-! ## Nested orders of a select -/

namespace Select

def allRows (s : Select Tree) : Select Tree :=
  { s with skip := none, take := none }

variable {s v o f : Select Tree} {order : List (SortKey Tree)} {n : Int64} {take : Option Int64}
  {rows : KeyedRows}

theorem delivered_taken (hs : s.take = none) (h : s.delivered env [] = .ok rows) (i : Int64)
    (skip : s.skip = none) :
    ({ s with take := some (.constant (.int i)) } : Select Tree).delivered env [] =
      .ok (rows.take i.toInt.toNat) := by
  obtain ⟨produced, hproduced, rfl⟩ := (delivered_eq_ok_of_unpaged skip hs).1 h
  refine delivered_eq_ok.2 ⟨produced, none, some i.toInt.toNat, hproduced, ?_, rfl, rfl⟩
  exact congrArg (optionalCount env []) skip

variable (required : v.requireOrder = .ok (o, order)) (nestable : Nestable { o.allRows with order := order })
  (hrows : ({ o.allRows with order := order } : Select Tree).delivered env [] = .ok rows)
include required nestable hrows

theorem nestOrders_taken {m : Int64}
    (h : (v.nestOrders (.constant (.int n)) (some (.constant (.int m)))).Gives next f next') :
    f.run env [] = .ok ⟨o.headers, (lastOf (order.map SortKey.direction) m.toInt.toNat
      (rows.take (n.toInt + m.toInt).toNat)).map Prod.fst⟩ := by
  obtain ⟨o', order', first, window, next₁, required', hfirst, middle, lifted, next₂, hmiddle, outer, lifted',
    houter, rfl⟩ := nestOrders_gives h
  cases required.symm.trans required'
  cases hfirst with
  | taken sum =>
    obtain ⟨i, rfl, hi⟩ := fold_add (Lowering.gives_evaluating.1 sum).1
    have hrows' := delivered_taken (s := o.allRows.sortedBy order) rfl hrows i rfl
    have hnestable : Nestable { o.allRows with order := order, take := some (.constant (.int i)) } :=
      ⟨nestable.headers, nestable.exact,
        nestable.hygienic.rebounded o.label (forall_mem_singleton.2 ((isLocal_int i).hygienic []))⟩
    rw [← hi]
    exact nested_run hnestable hrows' hmiddle houter (optionalCount_int m)

theorem nestOrders_counted
    (grouped : (o.allRows.sortedBy []).isGrouped = (o.allRows.sortedBy order).isGrouped)
    (h : (v.nestOrders (.constant (.int n)) none).Gives next f next') :
    f.run env [] = (leftOver rows.length n).map fun count =>
      ⟨o.headers, (lastOf (order.map SortKey.direction) count rows).map Prod.fst⟩ := by
  obtain ⟨o', order', first, window, next₁, required', hfirst, middle, lifted, next₂, hmiddle, outer, lifted',
    houter, rfl⟩ := nestOrders_gives h
  cases required.symm.trans required'
  cases hfirst with
  | counted count =>
    obtain ⟨unordered, hunordered, hlength⟩ :=
      unordered_delivered (s := o.allRows.sortedBy order) grouped rfl rfl hrows
    have hwindow := hlength ▸ remainingRows_leftOver hunordered count
    cases hcount : leftOver rows.length n with
    | error e =>
      rw [hcount] at hwindow
      exact nested_uncounted nestable hrows hmiddle houter hwindow
    | ok count =>
      rw [hcount] at hwindow
      exact nested_run nestable hrows hmiddle houter hwindow

/-- What a select with nested orders gives. -/
theorem nestOrders_run
    (grouped : take = none → (o.allRows.sortedBy []).isGrouped = (o.allRows.sortedBy order).isGrouped)
    (hn : 0 ≤ n.toInt)
    (h : (v.nestOrders (.constant (.int n)) (boundOf take)).Gives next f next') :
    f.run env [] = .ok ⟨o.headers,
      (nestedRows (order.map SortKey.direction) n.toInt.toNat (countOf take) rows).map
        Prod.fst⟩ := by
  cases take with
  | none =>
    rw [nestOrders_counted required nestable hrows (grouped rfl) h,
      leftOver_of_nonneg (delivered_length hrows) hn]
    rfl
  | some m =>
    rw [nestOrders_taken required nestable hrows h]
    -- of a negative number of rows none are left
    have hleft : lastOf (order.map SortKey.direction) m.toInt.toNat (rows.take (n.toInt + m.toInt).toNat) =
        lastOf (order.map SortKey.direction) m.toInt.toNat (rows.take (n.toInt.toNat + m.toInt.toNat)) := by
      rcases Int.le_total 0 m.toInt with hm | hm
      · rw [Int.toNat_add hn hm]
      · rw [Int.toNat_of_nonpos hm, lastOf, lastOf, take_zero, take_zero]
    exact congrArg (fun rows => Except.ok (Relation.mk o.headers (rows.map Prod.fst))) hleft

end Select

/-! ## Selects that skip no rows -/

theorem Tree.Rerouted.hygienic {Q : ColumnRef → ColumnRef → Prop} {scope : List Alias}
    (h : t.Rerouted Q u) (ht : t.Hygienic scope) : u.Hygienic scope := by
  induction t generalizing u scope with
  | step t ih =>
    cases h with
    | @column _ d _ => exact (isLocal_column d).hygienic scope
    | node _ same children =>
      refine (same.of_children (forall₂_imp_mem children fun a b ha hab => And.intro ha hab)).hygienic
        (fun _ _ h => h.2.sources) ht ?_
      exact fun X a b hX hab => ih a hab.1 hab.2 (ht.child hX)

namespace Select.Resembles

variable {s v : Select Tree}

theorem isGrouped (h : s.Resembles v) : v.isGrouped = s.isGrouped :=
  h.same.isGrouped fun _ _ => Tree.Rerouted.hasAggregate

theorem run_eq (h : s.Resembles v) (env : Environment) (frames : Frames) :
    v.run env frames = s.run env frames :=
  (h.same.imp (fun _ _ _ h => h.sameMeaning) fun _ _ _ h => h.sameMeaning).run_eq

theorem allRows (h : s.Resembles v) : s.allRows.Resembles v.allRows :=
  ⟨h.label, { h.same with skip := .none, take := .none }⟩

theorem nestable (h : s.Resembles v) (hs : s.Nestable) : v.Nestable where
  headers := h.headers ▸ hs.headers
  exact key hkey := by
    obtain ⟨key', hkey', hkk⟩ := forall₂_mem_right h.same.order hkey
    exact hkk.2.alike.isExact (hs.exact key' hkey')
  hygienic := by
    have hrerouted : (select s none).Rerouted SameRef (.select v none) :=
      .of_sameNode (fun _ => ⟨rfl, rfl⟩) (.select none none h.label h.same)
    exact hrerouted.hygienic hs.hygienic

end Select.Resembles

def Tree.Unskipped (t : Tree) : Prop :=
  t.Every fun u => ∀ s, u.select? = some s → s.skip = none

instance (t : Tree) : Decidable t.Unskipped :=
  inferInstanceAs (Decidable (t.Every fun u => ∀ s ∈ u.select?, s.skip = none))

theorem Tree.RebuiltAs.unskipped
    (ascends : ∀ s skip take, (lower s skip take).Ascends)
    (h : t.RebuiltAs (lowerSkipAt lower) next u) (ht : t.Unskipped) : t.Rerouted SameRef u := by
  induction t generalizing u with
  | step t ih =>
    obtain ⟨v, m, m', -, hreplace, hsame⟩ := h.node (lowerSkipAt_ascends ascends _ _ _ _)
    obtain ⟨hnode, hchildren⟩ := every_iff.1 ht
    have hrerouted : t.SameNode (Rerouted SameRef) v :=
      hsame.imp fun a b ha hab => ih a ha hab.2 (hchildren a ha)
    rcases lowerSkipAt_cases hreplace with ⟨rfl, -⟩ | ⟨s', j, skip, -, rfl, hskip, -⟩
    · exact .of_sameNode (fun _ => ⟨rfl, rfl⟩) hrerouted
    · cases hrerouted with
      | @select s _ _ _ _ same =>
        have hsome := option_isSome_eq same.skip
        rw [hnode s rfl, hskip] at hsome
        cases hsome

theorem Select.Resembles.int {x y : Option Tree} (h : Option.Rel (Rerouted SameRef) x y) {i : Option Int64}
    (hx : x = boundOf i) : y = boundOf i := by
  subst hx
  cases i with
  | none => cases h; rfl
  | some i =>
    cases h with
    | some h =>
      cases h.sameNode rfl
      rfl

theorem Tree.lowerSkips_query
    (ascends : ∀ s skip take, (lower s skip take).Ascends) {t' : Tree} {s : Select Tree}
    (query : t.query? = some s) (unskipped : ∀ a ∈ s.clauses, a.Unskipped)
    (hskip : s.skip = some (.constant (.int n))) (h : (t.lowerSkips lower).Gives next t' next') :
    ∃ f, t'.query? = some f ∧ ∃ v m m', s.Resembles v ∧ v.skip = some (.constant (.int n)) ∧
      (v.lowerSkip lower (.constant (.int n))).Gives m f m' := by
  have hselect : ∀ {i u}, (select s i).RebuiltAs (lowerSkipAt lower) next u →
      ∃ f, u = .select f none ∧ ∃ v m m', s.Resembles v ∧ v.skip = some (.constant (.int n)) ∧
        (v.lowerSkip lower (.constant (.int n))).Gives m f m' := by
    intro i u hrebuilt
    obtain ⟨v, m, m', -, hreplace, hsame⟩ := hrebuilt.node (lowerSkipAt_ascends ascends _ _ _ _)
    have hrerouted := hsame.imp fun a b ha hab => hab.2.unskipped ascends (unskipped a ha)
    cases hrerouted with
    | @select _ v i j hlabel same =>
      have hv : v.skip = some (.constant (.int n)) := Select.Resembles.int (i := some n) same.skip hskip
      rcases lowerSkipAt_cases hreplace with ⟨-, -, hnone⟩ | ⟨_, _, skip', f, ⟨rfl, rfl⟩, hskip', rfl, hf⟩
      · cases hv.symm.trans (hnone v rfl)
      · cases hv.symm.trans hskip'
        exact ⟨f, rfl, v, m, m', ⟨hlabel, same⟩, hv, hf⟩
  have hrebuilt : t.RebuiltAs (lowerSkipAt lower) next t' := ⟨_, _, le_refl _, h⟩
  rcases query_cases query with ⟨i, rfl⟩ | ⟨j, shape, i, rfl⟩
  · obtain ⟨f, rfl, hf⟩ := hselect hrebuilt
    exact ⟨f, rfl, hf⟩
  · obtain ⟨v, m, m', -, hreplace, hsame⟩ := hrebuilt.node (lowerSkipAt_ascends ascends _ _ _ _)
    cases hsame with
    | projection i i' hq hshape =>
      obtain ⟨rfl, rfl⟩ := Lowering.gives_pure.1 hreplace
      obtain ⟨f, rfl, hf⟩ := hselect hq.2
      exact ⟨f, rfl, hf⟩

/-! ## Pages of a query -/

theorem SortedKeys.strict {keys : List (List Value)}
    (h : SortedKeys directions keys) (distinct : keys.Pairwise fun a b => compareKeys directions a b ≠ .eq) :
    StrictKeys directions keys := by
  refine List.Pairwise.imp_of_mem (fun {a b} ha hb hab => ?_) (h.pairwise.and distinct)
  have hswap := (h.comparable directions).swap ha hb
  obtain ⟨hprecedes, hne⟩ := hab
  cases hcompare : compareKeys directions a b with
  | lt => rfl
  | eq => exact absurd hcompare hne
  | gt =>
    rw [hcompare] at hswap
    rw [precedes, hswap] at hprecedes
    cases hprecedes

namespace Select

variable {s v f o : Select Tree} {order : List (SortKey Tree)} {n : Int64} {take : Option Int64}

theorem requireOrder_allRows (h : s.requireOrder = .ok (o, order)) :
    s.allRows.requireOrder = .ok (o.allRows, order) := by
  rcases requireOrder_cases h with ⟨horder, rfl, rfl⟩ | ⟨horder, hgroup, t, t', hsource, hlift, rfl⟩
  · exact requireOrder_of_order (s := o.allRows) horder
  · exact requireOrder_of_source (s := s.allRows) horder hgroup hsource hlift

theorem run_page {frames : Frames} {skipped taken : Option Nat}
    (h : s.allRows.run env frames = .ok r) (hskip : optionalCount env frames s.skip = .ok skipped)
    (htake : optionalCount env frames s.take = .ok taken) :
    s.run env frames = .ok ⟨r.headers, page skipped taken r.rows⟩ := by
  obtain ⟨rows, hrows, rfl⟩ := run_eq_ok.1 h
  obtain ⟨produced, hproduced, rfl⟩ := (delivered_eq_ok_of_unpaged rfl rfl).1 hrows
  refine run_eq_ok.2 ⟨_, delivered_eq_ok.2 ⟨produced, skipped, taken, hproduced, hskip, htake, rfl⟩, ?_⟩
  exact congrArg (Relation.mk s.headers) (page_map Prod.fst skipped taken _)

/-- What is asked of a query so that its rows come in one order only. -/
structure StrictlyOrdered (env : Environment) (s : Select Tree) : Prop where
  exact : ∀ b, s.OrderedBy b → ∀ key ∈ b.order, key.value.IsExact
  comparable : ∀ b, s.OrderedBy b → RangesComparable (b.ownRanges env [])
  distinct : ∀ {o order rows}, s.requireOrder = .ok (o, order) →
    ({ o with order := order } : Select Tree).delivered env [] = .ok rows →
    (rows.map Prod.snd).Pairwise fun a b => compareKeys (order.map SortKey.direction) a b ≠ .eq

theorem strictlyOrdered_of_run {b : Select Tree} (only : ∀ b', s.OrderedBy b' → b' = b)
    (exact : ∀ key ∈ b.order, key.value.IsExact) (comparable : RangesComparable (b.ownRanges env []))
    (distinct : ∀ p ∈ s.requireOrder.toOption, ∀ rows ∈ ((p.1.sortedBy p.2).delivered env []).toOption,
      (rows.map Prod.snd).Pairwise fun a b => compareKeys (p.2.map SortKey.direction) a b ≠ .eq) :
    s.StrictlyOrdered env where
  exact b' hb := only b' hb ▸ exact
  comparable b' hb := only b' hb ▸ comparable
  distinct {o order rows} required hrows :=
    distinct (o, order) (by rw [required]; rfl) rows (by rw [sortedBy, hrows]; rfl)

theorem Resembles.lowerSkip_run (h : s.Resembles v)
    (hn : 0 ≤ n.toInt) (htake : s.take = boundOf take)
    (aggregates : s.group = [] → s.isGrouped = false)
    (ordered : s.allRows.StrictlyOrdered env) (nodup : (select s.allRows i).declared.Nodup)
    (plain : (select s.allRows i).Every fun u => ∀ s, u.select? = some s →
      s.headers.Nodup ∧ s.reverse = false)
    (hrun : s.allRows.run env [] = .ok r)
    (hf : (v.lowerSkip nestOrders (.constant (.int n))).Gives next f next') :
    f.run env [] = .ok ⟨r.headers,
      nestedPage n.toInt.toNat (countOf take) r.rows⟩ := by
  have htake' : v.take = boundOf take := int h.same.take htake
  rcases lowerSkip_gives htake' hf with ⟨hzero, rfl⟩ | ⟨-, hnested⟩
  · subst hzero
    have hrun' : v.allRows.run env [] = .ok r := (h.allRows.run_eq env []).trans hrun
    rw [show (0 : Int64).toInt.toNat = 0 from rfl, nestedPage_zero]
    exact run_page (s := { v with skip := none }) hrun' rfl (optionalCount_take htake')
  · obtain ⟨o, order, _, _, _, required, -⟩ := nestOrders_gives hnested
    obtain ⟨so, sorder, srequired, hso, hkeys, hexact⟩ :=
      h.allRows.requireOrder ordered.exact (requireOrder_allRows required)
    obtain ⟨b, hb⟩ := exists_orderedBy srequired
    have hsorts := hb.sorts (ordered.exact b hb) (ordered.comparable b hb) srequired nodup plain
    have hresembles := hso.ordered hkeys
    have hnestable : Nestable (so.sortedBy sorder) :=
      ⟨hsorts.form.headers ▸ ((every_iff.1 plain).1 _ rfl).1, hsorts.exact, hsorts.hygienic⟩
    obtain ⟨all, hall, rfl⟩ := run_eq_ok.1 hrun
    obtain ⟨rows, hrows, hvalues, hsorted⟩ := hsorts.delivered hall
    have hstrict : StrictKeys (sorder.map SortKey.direction) (rows.map Prod.snd) :=
      hsorted.strict (ordered.distinct srequired hrows)
    have hgrouped : (o.allRows.sortedBy []).isGrouped = (o.allRows.sortedBy order).isGrouped := by
      refine isGrouped_unordered (s := o.allRows.sortedBy order) fun hgroup => ?_
      have hgroup : so.group = [] := forall₂_nil_right_iff.1 (hgroup ▸ hso.same.group)
      have hlength : so.group.length = s.group.length := hsorts.form.group
      rw [hresembles.isGrouped, hsorts.form.grouped]
      exact aggregates (length_eq_zero_iff.1 (hlength.symm.trans (by rw [hgroup]; rfl)))
    have hrun := nestOrders_run required (hresembles.nestable hnestable) ((hresembles.delivered_eq env []).trans hrows)
      (fun _ => hgrouped) hn hnested
    have hdirections : order.map SortKey.direction = sorder.map SortKey.direction :=
      map_eq_of_forall₂ hkeys fun _ _ h => h.1
    have hmap : (nestedPage n.toInt.toNat (countOf take) rows).map Prod.fst =
        nestedPage n.toInt.toNat (countOf take) (rows.map Prod.fst) := by
      cases take <;> simp [nestedPage, countOf]
    rw [hrun, hdirections, nestedRows_of_strict hstrict, hmap, hvalues]
    have hheaders : o.headers = s.headers := hso.headers.trans hsorts.form.headers
    rw [hheaders]
    rfl

end Select

def Tree.allRows : Tree → Tree
  | .select s i => .select s.allRows i
  | .projection (.select s i) shape j => .projection (.select s.allRows i) shape j
  | t => t

namespace Select

variable {s : Select Tree}

theorem clauses_allRows_sublist (s : Select Tree) : s.allRows.clauses.Sublist s.clauses := by
  have hskip : ([] : List Tree).Sublist s.skip.toList := nil_sublist _
  have htake : ([] : List Tree).Sublist s.take.toList := nil_sublist _
  exact ((List.Sublist.append (List.Sublist.refl _) hskip).append htake).append (List.Sublist.refl _)

theorem declared_allRows_sublist (s : Select Tree) (i j : Option Identity) :
    (Tree.select s.allRows j).declared.Sublist (Tree.select s i).declared := by
  rw [Tree.declared_eq, Tree.declared_eq]
  exact (List.Sublist.refl _).append (s.clauses_allRows_sublist.flatMap _)

end Select

theorem Tree.unskipped_int (i : Int64) : (constant (.int i)).Unskipped :=
  every_iff.2 ⟨fun _ h => (nomatch h), fun _ h => (nomatch h)⟩

theorem Select.unskipped_clauses (s : Select Tree) {n : Int64} {take : Option Int64}
    (skip : s.skip = some (.constant (.int n))) (takes : s.take = boundOf take)
    (h : (select s.allRows i).Unskipped) : ∀ a ∈ s.clauses, a.Unskipped := by
  intro a ha
  have hclauses : a ∈ s.allRows.clauses ∨ s.skip = some a ∨ s.take = some a := by
    simp only [clauses, allRows, mem_append, Option.mem_toList, Option.toList_none, not_mem_nil] at ha ⊢
    tauto
  rcases hclauses with ha | ha | ha
  · exact h.child ha
  · rw [skip] at ha
    cases ha
    exact unskipped_int n
  · rw [takes] at ha
    obtain ⟨m, -, rfl⟩ := Option.map_eq_some_iff.1 ha
    exact unskipped_int m

theorem Tree.exists_root {s : Select Tree} (query : t.query? = some s) :
    ∃ i, t.allRows.query? = some s.allRows ∧ (select s i).declared.Sublist t.declared ∧
      ∀ {P : Tree → Prop}, t.allRows.Every P → (select s.allRows i).Every P := by
  rcases query_cases query with ⟨i, rfl⟩ | ⟨j, shape, i, rfl⟩
  · exact ⟨i, rfl, List.Sublist.refl _, fun h => h⟩
  · exact ⟨j, rfl, declared_of_child mem_cons_self, fun h => h.child mem_cons_self⟩

/-- A page of a query whose root is the only select that skips rows, by nested orders: it is exact if
there are enough rows or all rows are asked for, and else it ends with the last row. -/
theorem Tree.lowerByNesting_run {t t' : Tree} {s : Select Tree} {n : Int64} {take : Option Int64}
    {r : Relation} (query : t.query? = some s) (skip : s.skip = some (.constant (.int n)))
    (skips : 0 ≤ n.toInt) (takes : s.take = take.map fun m => .constant (.int m))
    (nodup : t.declared.Nodup)
    (plain : t.allRows.Every fun u => ∀ s, u.select? = some s →
      s.headers.Nodup ∧ s.reverse = false ∧ s.skip = none)
    (aggregates : s.group = [] → s.isGrouped = false) (ordered : s.allRows.StrictlyOrdered env)
    (lowered : t.lowerByNesting.Gives next t' next') (run : t.allRows.run env = .ok r) :
    t'.run env = .ok ⟨r.headers,
        nestedPage n.toInt.toNat (take.map fun m => m.toInt.toNat) r.rows⟩ ∧
      ((∀ m ∈ take, n.toInt.toNat + m.toInt.toNat ≤ r.rows.length) → t'.run env = t.run env) := by
  obtain ⟨i, hroot, hdeclared, hevery⟩ := exists_root query
  have hplain := hevery plain
  have hunskipped := s.unskipped_clauses skip takes fun u hu s hs => (hplain u hu s hs).2.2
  obtain ⟨f, hf, v, m, m', hv, -, hlowered⟩ :=
    lowerSkips_query Select.nestOrders_ascends query hunskipped skip lowered
  have hrun : s.allRows.run env [] = .ok r := (run_of_query hroot).symm.trans run
  have hpage := hv.lowerSkip_run skips takes aggregates ordered
    (nodup.sublist ((s.declared_allRows_sublist i i).trans hdeclared))
    (fun u hu s hs => ⟨(hplain u hu s hs).1, (hplain u hu s hs).2.1⟩) hrun hlowered
  rw [run_of_query hf, run_of_query query]
  refine ⟨hpage, fun henough => ?_⟩
  have horiginal := Select.run_page hrun (congrArg (optionalCount env []) skip) (Select.optionalCount_take takes)
  rw [hpage, horiginal, nestedPage_eq_page]
  intro k hk
  obtain ⟨m, hm, rfl⟩ := Option.map_eq_some_iff.1 hk
  exact henough m hm

def pricedOrders : Environment where
  dataset := [("orders", ⟨["item", "price"], [[.string "pen", .int 3], [.string "ink", .int 1],
    [.string "cap", .int 5], [.string "map", .null]]⟩)]
  arguments := []

def cheaperItems : Select Tree where
  label := 2
  columns := [stringColumn 1 "item"]
  source := some (.select itemsByPrice none)
  skip := some (.int 2)
  take := some (.int 3)

theorem lowerByNesting_run_cheaperItems :
    (Tree.select cheaperItems none).declared.Nodup ∧
      ((Tree.select cheaperItems none).allRows.Every fun u => ∀ s ∈ u.select?,
        s.headers.Nodup ∧ s.reverse = false ∧ s.skip = none) ∧
      (cheaperItems.group = [] → cheaperItems.isGrouped = false) ∧
      cheaperItems.allRows.StrictlyOrdered pricedOrders ∧
      ∃ t' next', (Tree.select cheaperItems none).lowerByNesting.Gives 3 t' next' ∧
        t'.run pricedOrders =
          .ok ⟨["item"], [[.string "pen"], [.string "ink"], [.string "map"]]⟩ := by
  have hplain : (Tree.select cheaperItems none).allRows.Every fun u => ∀ s ∈ u.select?,
      s.headers.Nodup ∧ s.reverse = false ∧ s.skip = none := by
    decide
  have hby : ∀ b, cheaperItems.allRows.OrderedBy b → b = itemsByPrice := by
    intro b hb
    cases hb with
    | own order => exact absurd rfl order
    | beneath _ _ source below =>
      cases source
      cases below with
      | own => rfl
      | beneath order => cases order
  have hordered : cheaperItems.allRows.StrictlyOrdered pricedOrders :=
    Select.strictlyOrdered_of_run hby (by decide) (by decide) (by decide +kernel)
  have htake : cheaperItems.take = (some 3 : Option Int64).map fun m => .constant (.int m) := rfl
  refine ⟨by decide, hplain, by decide, hordered, Lowering.exists_gives_and (by decide +kernel) ?_⟩
  intro t' next' lowered
  exact (Tree.lowerByNesting_run rfl rfl (by decide) htake (by decide) hplain (by decide) hordered lowered
    rfl).1

end HiveQuery
