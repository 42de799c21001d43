import HiveQuery.Proofs.NestedPages

/-!
# Pages of one row

A select that aggregates without grouping has one row, however it is sorted, and a page after that row is empty. Its
row cannot be numbered, and nested orders keep it if they are to keep one.
-/

namespace HiveQuery
open List Select

variable {env : Environment} {next next' : Alias}

/-! ## Identities -/

/-- All undefined numbers in a tree have an identity. -/
def Tree.Identified (t : Tree) : Prop :=
  t.Every fun u => u.isUndefined = true → u.identity?.isSome = true

instance (t : Tree) : Decidable t.Identified :=
  inferInstanceAs (Decidable (t.Every _))

theorem Tree.Rerouted.identified {Q : ColumnRef → ColumnRef → Prop} {t u : Tree} (h : t.Rerouted Q u)
    (ht : t.Identified) : u.Identified := by
  refine h.every (fun _ h => (nomatch h)) (fun a b same ha hb => ?_) ht
  cases same <;> first | exact ha hb | cases hb

/-- Undefined numbers of a tree that was given identities have them. -/
theorem Tree.withIdentities_identified (t : Tree) : t.withIdentities.Identified := by
  rw [withIdentities]
  split_ifs with h
  · refine bottomUp_rel _ (R := fun _ u => u.Identified) (fun {a v b id id'} same hnode => ?_)
      (t.identify_gives t.freshIdentity)
    have hchildren : ∀ c ∈ v.children, c.Identified := fun c hc => by
      obtain ⟨_, _, hc⟩ := forall₂_mem_right same.children hc
      exact hc
    rcases identifyNode_cases hnode with ⟨rfl, hself⟩ | ⟨_, -, -, rfl⟩ | ⟨s, rfl, rfl⟩ | ⟨j, rfl, rfl⟩ |
      ⟨q, shape, rfl, rfl⟩
    · exact every_iff.2 ⟨hself, hchildren⟩
    · exact every_iff.2 ⟨fun _ => rfl, by simp⟩
    all_goals exact every_iff.2 ⟨fun _ => rfl, hchildren⟩
  · intro u hu hundefined
    exact absurd (any_eq_true.2 ⟨u, hu, hundefined⟩) h

theorem Tree.identified_column (c : ColumnRef) : (column c).Identified :=
  every_iff.2 ⟨fun h => (nomatch h), fun _ h => (nomatch h)⟩

theorem Tree.identifyNode_sameNode {t u v : Tree} {id id' : Identity} (ht : t.Identified)
    (same : t.SameNode (Rerouted SameRef) v) (h : v.identifyNode.run id = (u, id')) :
    t.SameNode (Rerouted SameRef) u := by
  rcases identifyNode_cases h with ⟨rfl, -⟩ | ⟨x, rfl, hx, rfl⟩ | ⟨s, rfl, rfl⟩ | ⟨j, rfl, rfl⟩ |
    ⟨q, shape, rfl, rfl⟩
  · exact same
  · cases same
    exact absurd ((every_iff.1 ht).1 hx) Bool.false_ne_true
  · cases same with
    | select i _ label same => exact .select i _ label same
  · cases same with
    | join kind i _ left right condition => exact .join kind i _ left right condition
  · cases same with
    | projection i _ query shape => exact .projection i _ query shape

theorem Tree.identify_rerouted {t : Tree} (ht : t.Identified) (id : Identity) :
    t.Rerouted SameRef (t.identify id) := by
  refine bottomUp_rel _ (R := fun t u => t.Identified → t.Rerouted SameRef u)
    (fun same hnode ha => ?_) (t.identify_gives id) ht
  have hrerouted := same.imp fun b c hb hbc => hbc (ha.child hb)
  exact .of_sameNode (fun _ => ⟨rfl, rfl⟩) (identifyNode_sameNode ha hrerouted hnode)

theorem Tree.KeptKey.rerouted {t u : Tree} (h : t.KeptKey u) (ht : t.Identified) : t.Rerouted SameRef u := by
  cases h with
  | same => exact .of_self (fun _ => ⟨rfl, rfl⟩) t
  | identified _ id => exact identify_rerouted ht id

/-! ## Layers above one row -/

namespace Select

variable {s v f : Select Tree} {extra : List (Column Tree)} {lifted : List (SortKey Tree)} {frames : Frames}
  {rows : KeyedRows}

theorem Resembles.refl (s : Select Tree) : s.Resembles s := by
  have hself : ∀ t : Tree, t.Rerouted SameRef t := .of_self fun _ => ⟨rfl, rfl⟩
  cases Tree.SameNode.of_self (t := .select s none) fun a _ => hself a with
  | select _ _ label same => exact ⟨label, same⟩

theorem arrange_single (distinct reverse : Bool) (directions : List Direction) (single : rows.length ≤ 1) :
    arrange distinct reverse directions rows = rows := by
  match rows, single with
  | [], _ => exact arrange_nil _ _ _
  | [p], _ =>
    rw [arrange_eq]
    cases distinct <;> cases reverse <;> rfl

theorem Lifts.exists_lifted (h : s.Lifts s.order extra lifted) (nodup : s.headers.Nodup) {values : List Value}
    (hwidth : values.length = (s.widen extra).columns.length) :
    ∃ keys, keyValues env (sourceRow s.label (s.widen extra).headers values :: frames) none lifted =
      .ok keys := by
  have hcolumns : Forall₂ (fun (_ : Column Tree) (_ : Value) => True) (s.widen extra).columns values :=
    forall₂_iff_zip.2 ⟨hwidth.symm, fun _ => trivial⟩
  obtain ⟨keys, hkeys⟩ := exists_forall₂ (l := lifted)
    (R := fun l v => l.value.scalar env (sourceRow s.label (s.widen extra).headers values :: frames) none = .ok v)
    fun l hl => by
      obtain ⟨_, _, hlift⟩ := forall₂_mem_right h.lifted hl
      obtain ⟨d, hd, ref, hvalue, hlabel, hname, -⟩ := hlift.column
      obtain ⟨v, hv, -⟩ := value?_of_forall₂ s.label hcolumns (column?_of_mem (h.nodup nodup) hd)
      refine ⟨v, ?_⟩
      rw [hvalue]
      exact scalar_column_sourceRow hlabel (hname ▸ hv)
  exact ⟨keys, keyValues_eq_ok.2 hkeys⟩

theorem Lifts.choose_lifted (h : s.Lifts s.order extra lifted) (env : Environment) (frames : Frames)
    (nodup : s.headers.Nodup) (hwidth : ∀ p ∈ rows, p.1.length = (s.widen extra).columns.length) :
    ∃ key : List Value × List Value → List Value, ∀ p ∈ rows,
      keyValues env (sourceRow s.label (s.widen extra).headers p.1 :: frames) none lifted = .ok (key p) := by
  have hexists : ∀ p, ∃ keys, p ∈ rows → keyValues env
      (sourceRow s.label (s.widen extra).headers p.1 :: frames) none lifted = .ok keys := by
    intro p
    by_cases hp : p ∈ rows
    · obtain ⟨keys, hkeys⟩ := h.exists_lifted nodup (hwidth p hp)
      exact ⟨keys, fun _ => hkeys⟩
    · exact ⟨[], fun hp' => absurd hp' hp⟩
  choose key hkey using hexists
  exact ⟨key, hkey⟩

theorem layer_single {above : Select Tree} {take : Option Tree} {count : Option Nat}
    (identified : ∀ key ∈ s.order, key.value.Identified) (nodup : s.headers.Nodup)
    (hrows : s.delivered env [] = .ok rows) (single : rows.length ≤ 1)
    (hcount : optionalCount env [] take = .ok count) (h : (s.layer id).Gives next (above, lifted) next') :
    above.headers = s.headers ∧ above.take = none ∧
      (∀ key ∈ lifted.map SortKey.inverted, key.value.Identified) ∧
      ∃ rows', ({ above with order := lifted.map SortKey.inverted, take := take } : Select Tree).delivered
        env [] = .ok rows' ∧ rows'.map Prod.fst = page none count (rows.map Prod.fst) := by
  obtain ⟨-, inner, hlifted, habove⟩ := layer_lifted h
  obtain ⟨order, extra, hkept, rfl, lifts⟩ := liftOrder_copies hlifted
  dsimp only [id] at lifts habove
  subst habove
  have hkeys : KeysAlike s.order order := forall₂_imp_mem hkept fun k k' hk hkk =>
    ⟨hkk.1, hkk.2.rerouted (identified k hk)⟩
  have hrows' : (s.sortedBy order).delivered env [] = .ok rows :=
    (((Resembles.refl s).ordered hkeys).delivered_eq env []).trans hrows
  obtain ⟨wide, hwide, hcut, hproduced⟩ := Lifts.produced_layer (s := s.sortedBy order) lifts nodup hrows'
  obtain ⟨key, hkey⟩ := lifts.choose_lifted env [] nodup (delivered_width hwide)
  have hlength : (wide.map fun p => (p.1.take s.columns.length, key p)).length ≤ 1 := by
    rw [hcut] at single
    simpa using single
  refine ⟨headers_above s _, rfl, forall_mem_map.2 (lifts.forall_value Tree.identified_column), _,
    delivered_eq_ok.2 ⟨_, none, count, hproduced take key hkey, rfl, hcount, rfl⟩, ?_⟩
  rw [arrange_single _ _ _ hlength, ← page_map, hcut, map_map, map_map]
  rfl

theorem nested_single {first middle outer : Select Tree} {lifted' : List (SortKey Tree)} {window : Tree}
    {count : Nat} {next₁ next₂ : Alias} (hrows : first.delivered env [] = .ok rows) (single : rows.length ≤ 1)
    (identified : ∀ key ∈ first.order, key.value.Identified) (nodup : first.headers.Nodup)
    (hwindow : optionalCount env [] (some window) = .ok (some count))
    (hmiddle : (first.layer id).Gives next₁ (middle, lifted) next₂)
    (houter : ((middle.lastRows lifted window).layer id).Gives next₂ (outer, lifted') next') :
    (outer.sortedBy (lifted'.map SortKey.inverted)).run env [] =
      .ok ⟨first.headers, (rows.map Prod.fst).take count⟩ := by
  obtain ⟨hheaders, -, identified', last, hlast, hvalues⟩ :=
    layer_single identified nodup hrows single hwindow hmiddle
  have hlast : (middle.lastRows lifted window).delivered env [] = .ok last := hlast
  have hheaders : (middle.lastRows lifted window).headers = first.headers := hheaders
  have single' : last.length ≤ 1 := by
    have hlength := congrArg length hvalues
    simp only [length_map, page, Option.getD_none, drop_zero, length_take] at hlength
    omega
  have huntaken : optionalCount env [] none = .ok none := rfl
  obtain ⟨hheaders', htake, -, all, hall, hvalues'⟩ :=
    layer_single identified' (hheaders ▸ nodup) hlast single' huntaken houter
  have hself : outer.sortedBy (lifted'.map SortKey.inverted) =
      { outer with order := lifted'.map SortKey.inverted, take := none } := by
    rw [sortedBy, htake]
  rw [hself]
  refine run_eq_ok.2 ⟨all, hall, ?_⟩
  rw [hvalues', hvalues]
  exact congrArg (fun headers => Relation.mk headers _) (hheaders'.trans hheaders).symm

/-- How many rows nested orders keep: as many as are taken, or as a copy without an order has after skipping. -/
abbrev windowLength (n : Int64) (take : Option Int64) (copies : Nat) : Nat :=
  take.elim (copies - n.toInt.toNat) fun m => m.toInt.toNat

/-- Nested orders give the only row if they keep one. -/
theorem nestOrders_single {n : Int64} {take : Option Int64} {copies : KeyedRows} (order : s.order ≠ [])
    (identified : ∀ key ∈ s.order, key.value.Identified) (nodup : s.headers.Nodup)
    (counted : take = none → (s.allRows.sortedBy []).delivered env [] = .ok copies)
    (hn : 0 ≤ n.toInt) (hrows : s.allRows.delivered env [] = .ok rows) (single : rows.length ≤ 1)
    (h : (s.nestOrders (.constant (.int n)) (boundOf take)).Gives next f next') :
    f.run env [] = .ok ⟨s.headers, (rows.map Prod.fst).take (windowLength n take copies.length)⟩ := by
  obtain ⟨o, order', first, window, next₁, required, hfirst, middle, lifted, next₂, hmiddle, outer, lifted',
    houter, rfl⟩ := nestOrders_gives h
  cases (requireOrder_of_order order).symm.trans required
  cases take with
  | none =>
    cases hfirst with
    | counted count =>
      have hcopies := counted rfl
      have hwindow := remainingRows_leftOver (s := s.allRows) hcopies count
      rw [leftOver_of_nonneg (delivered_length hcopies) hn] at hwindow
      have hrun := nested_single hrows single identified nodup hwindow hmiddle houter
      exact hrun
  | some m =>
    cases hfirst with
    | taken sum =>
      obtain ⟨i, rfl, hi⟩ := fold_add (Lowering.gives_evaluating.1 sum).1
      have hfirst := delivered_taken (s := s.allRows) rfl hrows i rfl
      have single' : (rows.take i.toInt.toNat).length ≤ 1 := (length_take_le' _ rows).trans single
      have hrun := nested_single hfirst single' identified nodup (optionalCount_int m) hmiddle houter
      rw [hrun, map_take, take_take]
      -- a page of no rows is a page of a negative number of them
      have hcount : min m.toInt.toNat i.toInt.toNat = m.toInt.toNat := by omega
      rw [hcount]
      rfl

theorem aggregated_produced (group : s.group = []) (grouped : s.isGrouped = true)
    (h : s.produced env frames = .ok rows) : ∃ row, rows = [row] := by
  obtain ⟨contexts, hcontexts, hall⟩ := produced_eq_ok.1 h
  obtain ⟨kept, -, ⟨-, keys, -, rfl⟩ | ⟨hungrouped, -⟩⟩ := contexts_eq_ok.1 hcontexts
  · refine length_eq_one_iff.1 ?_
    rw [← hall.length_eq, group]
    rfl
  · rw [grouped] at hungrouped
    cases hungrouped

theorem aggregated_delivered (group : s.group = []) (grouped : s.isGrouped = true)
    (skip : s.skip = none) (take : s.take = none) (h : s.delivered env frames = .ok rows) :
    ∃ row, rows = [row] := by
  obtain ⟨produced, hproduced, rfl⟩ := (delivered_eq_ok_of_unpaged skip take).1 h
  obtain ⟨row, rfl⟩ := aggregated_produced group grouped hproduced
  exact ⟨row, arrange_single _ _ _ le_rfl⟩

/-! ## Numbers of one row -/

theorem Lifts.isGrouped_unordered (h : s.Lifts s.order extra lifted) :
    ((s.widen extra).sortedBy []).isGrouped = (s.widen extra).isGrouped := by
  have hcolumn : (s.order.any fun key => key.value.hasAggregate) = true →
      ((s.widen extra).columns.any fun c => c.value.hasAggregate) = true := by
    intro hany
    obtain ⟨key, hkey, haggregate⟩ := any_eq_true.1 hany
    obtain ⟨l, -, hlift⟩ := forall₂_mem_left h.lifted hkey
    obtain ⟨c, hc, -, -, -, -, hvalue⟩ := hlift.column
    refine any_eq_true.2 ⟨c, hc, ?_⟩
    rcases hvalue with hequal | hsame
    · exact (Tree.hasAggregate_of_equalUnder hequal).symm.trans haggregate
    · rwa [hsame]
  show (_ || (_ || false || _)) = (_ || (_ || (s.order.any fun key => key.value.hasAggregate) || _))
  cases hany : s.order.any fun key => key.value.hasAggregate with
  | false => rfl
  | true =>
    rw [hcolumn hany]
    simp

/-- Layers above a select with one row have that row, and can be numbered. -/
theorem layer_numberable {base : Select Tree} {label : Alias} (skip : s.skip = none) (take : s.take = none)
    (identified : ∀ key ∈ s.order, key.value.Identified) (nodup : s.headers.Nodup)
    (hrows : s.delivered env [] = .ok rows)
    (h : (s.layer fun inner => { inner with order := [] }).Gives next (base, lifted) label) :
    base.headers = s.headers ∧ base.Numberable lifted ∧
      ∃ below, (base.sortedBy lifted).produced env [] = .ok below ∧ below.length = rows.length := by
  obtain ⟨-, inner, hlifted, habove⟩ := layer_lifted h
  obtain ⟨order, extra, hkept, rfl, lifts⟩ := liftOrder_copies hlifted
  dsimp only at lifts habove
  subst habove
  have hkeys : KeysAlike s.order order := forall₂_imp_mem hkept fun k k' hk hkk =>
    ⟨hkk.1, hkk.2.rerouted (identified k hk)⟩
  have hrows' : (s.sortedBy order).delivered env [] = .ok rows :=
    (((Resembles.refl s).ordered hkeys).delivered_eq env []).trans hrows
  obtain ⟨wide, hwide, hcut, -⟩ := Lifts.produced_layer (s := s.sortedBy order) lifts nodup hrows'
  obtain ⟨flat, hflat, hlength⟩ := unordered_delivered lifts.isGrouped_unordered skip take hwide
  have hwidth := delivered_width hflat
  obtain ⟨key, hkey⟩ := lifts.choose_lifted env [] nodup hwidth
  have hheaders : ∃ more, ((((s.labelled next).sortedBy order).widen extra).sortedBy []).headers =
      s.headers ++ more := ⟨extra.map Column.name, headers_widen _ extra⟩
  have hbare : ∀ key ∈ ([] : List (SortKey Tree)), key.value.hasAggregate = false := nofun
  have hgrouped := (above_isLayer hheaders (lifts.nodup nodup) hbare none none).grouped
  have hlayer := above_isLayer hheaders (lifts.nodup nodup) lifts.unaggregated none none
  rw [← flat.map_id] at hflat
  refine ⟨headers_above s _, ⟨rfl, rfl, rfl, rfl, rfl, hgrouped, lifts.unaggregated⟩, _,
    hlayer.produced_of_unfiltered rfl hflat hkey, ?_⟩
  rw [length_map, hlength, hcut, length_map]

theorem windowRows_single {skip : Nat} {count : Option Nat} {directions : List Direction} (hskip : 0 < skip)
    (single : rows.length ≤ 1) : windowRows skip count (numberedRows directions rows) = [] := by
  have hnone : (numberedRows directions rows).filter (fun p => inWindow skip count p.2) = [] := by
    refine filter_eq_nil_iff.2 fun p hp => ?_
    have hlast := (mem_numberedRows_bounds hp).2
    rw [inWindow, decide_eq_false (by omega)]
    exact Bool.false_ne_true
  rw [windowRows, hnone]
  rfl

theorem isGrouped_numbering (s : Select Tree) (name : String) (label : Alias) :
    ((s.sortedBy []).numbering s.order name label).isGrouped = s.isGrouped := by
  have hnumber : (Tree.rowNumber s.order).hasAggregate = s.order.any fun key => key.value.hasAggregate := by
    rw [Tree.hasAggregate_eq]
    simp [Tree.isAggregate, Tree.isSelect, Tree.isSubquery, any_map, Function.comp_def]
  simp [isGrouped, hasAggregates, numbering, addColumn, hnumber, Bool.or_comm, Bool.or_left_comm]

/-- The row of a group cannot be numbered. -/
theorem numbering_error {p : List Value × List Value} (grouped : s.isGrouped = true)
    (hrows : s.produced env frames = .ok (p :: rows)) (name : String) (label : Alias) :
    ((s.sortedBy []).numbering s.order name label).delivered env frames = .error .rowNumberOutsideColumn := by
  obtain ⟨around, hcontexts, hall⟩ := produced_eq_ok.1 hrows
  have hsame : ((s.sortedBy []).numbering s.order name label).contexts env frames = s.contexts env frames := by
    rw [contexts, contexts, isGrouped_numbering, grouped]
    rfl
  obtain ⟨kept, -, ⟨-, keys, -, hgroups⟩ | ⟨hungrouped, -⟩⟩ := contexts_eq_ok.1 hcontexts
  · cases hall with
    | @cons c _ cs _ hfirst _ =>
      have hnumbers : c.numbers = [] := by
        obtain ⟨members, -, rfl⟩ := mem_map.1 (hgroups ▸ mem_cons_self)
        rfl
      have herror : ((s.sortedBy []).numbering s.order name label).valuesAt env c =
          .error .rowNumberOutsideColumn := by
        have hvalues : columnValues env c.frames c.group c.numbers s.columns = .ok p.1 := hfirst.1
        show columnValues env c.frames c.group c.numbers (s.columns ++ [_]) = _
        rw [columnValues_append, hvalues, hnumbers, drop_nil]
        rfl
      rw [delivered, produced, hsame, hcontexts]
      show ((c :: cs).mapM (fun c => ((s.sortedBy []).numbering s.order name label).valuesAt env c >>= _) >>= _) = _
      rw [mapM_cons, herror]
      rfl
  · rw [grouped] at hungrouped
    cases hungrouped

/-- The only row is left out if it is numbered in a layer above, and cannot be numbered otherwise. -/
theorem numberRows_single {n : Int64} {take : Option Int64} {row : List Value × List Value} (group : s.group = [])
    (grouped : s.isGrouped = true) (order : s.order ≠ []) (identified : ∀ key ∈ s.order, key.value.Identified)
    (nodup : s.headers.Nodup) (skips : 0 < n.toInt) (hrow : s.allRows.delivered env [] = .ok [row])
    (h : (s.numberRows (.constant (.int n)) (boundOf take)).Gives next f next') :
    f.run env [] = if s.distinct then .ok ⟨s.headers, []⟩ else .error .rowNumberOutsideColumn := by
  obtain ⟨o, order', required, base, keys, label, hbase, kept, hkept, rfl⟩ := numberRows_gives h
  cases (requireOrder_of_order order).symm.trans required
  unfold numberedBase at hbase
  split at hbase
  · next hplain =>
    obtain ⟨⟨⟩, rfl⟩ := Lowering.gives_pure.1 hbase
    rw [if_neg (by simpa [group] using hplain)]
    obtain ⟨produced, hproduced, -⟩ := (delivered_eq_ok_of_unpaged rfl rfl).1 hrow
    obtain ⟨p, rfl⟩ := aggregated_produced group grouped hproduced
    exact run_error_of_source rfl (numbering_error (s := s.allRows) grouped hproduced _ _)
  · next hdistinct =>
    rw [if_pos (by simpa [group] using hdistinct)]
    obtain ⟨hheaders, numberable, below, hbelow, hlength⟩ :=
      layer_numberable (s := s.allRows) rfl rfl identified nodup hrow hbase
    have hname := freeName_not_mem base.headers "_rownum"
    have hwindow := delivered_window numberable (hheaders ▸ nodup) hname (windowFilter_keeps skips.le hkept).2 hbelow
    rw [windowRows_single (by omega) hlength.le] at hwindow
    refine run_eq_ok.2 ⟨_, hwindow, ?_⟩
    rw [headers_window hname, hheaders]
    rfl

/-! ## Pages of a select -/

/-- What a select that skips rows and aggregates without grouping has to be so that it has one row and can be
lowered. -/
structure Aggregated (s : Select Tree) (n : Int64) (take : Option Int64) : Prop where
  group : s.group = []
  grouped : s.isGrouped = true
  order : s.order ≠ []
  headers : s.headers.Nodup
  skip : s.skip = some (.constant (.int n))
  skips : 0 < n.toInt
  takes : s.take = boundOf take
  identified : ∀ key ∈ s.order, key.value.Identified

theorem Resembles.aggregated {n : Int64} {take : Option Int64} (h : s.Resembles v) (hs : s.Aggregated n take) :
    v.Aggregated n take where
  group := forall₂_nil_left_iff.1 (hs.group ▸ h.same.group)
  grouped := h.isGrouped.trans hs.grouped
  order hnil := hs.order (forall₂_nil_right_iff.1 (hnil ▸ h.same.order))
  headers := h.headers ▸ hs.headers
  skip := int (i := some n) h.same.skip hs.skip
  skips := hs.skips
  takes := int h.same.take hs.takes
  identified key hkey := by
    obtain ⟨key', hkey', hkk⟩ := forall₂_mem_right h.same.order hkey
    exact hkk.2.identified (hs.identified key' hkey')

theorem Aggregated.lowerSkip_gives {lower : SkipLowering} {n : Int64} {take : Option Int64}
    (h : s.Aggregated n take) (hf : (s.lowerSkip lower (.constant (.int n))).Gives next f next') :
    (lower s (.constant (.int n)) (boundOf take)).Gives next f next' := by
  rcases Select.lowerSkip_gives h.takes hf with ⟨hzero, -⟩ | ⟨-, hlowered⟩
  · exact absurd (hzero ▸ h.skips) (by decide)
  · exact hlowered

end Select

/-! ## Pages of a query -/

/-- A page after the first row of a query whose root aggregates without grouping. There is no such row. The
lowering to row numbers gives none if duplicates are removed, and cannot be run otherwise, as the row of a group
is not numbered. Nested orders give the only row if one is taken. If all rows are asked for they give none, but
where an aggregate stands only in the order they count the rows of a select that does not aggregate, and give
the only row if more than the skipped ones are counted. -/
theorem Tree.lowerPaging_aggregated {t : Tree} {s : Select Tree} {n : Int64} {take : Option Int64}
    {r : Relation} (query : t.query? = some s) (group : s.group = []) (grouped : s.isGrouped = true)
    (order : s.order ≠ []) (headers : s.headers.Nodup) (skip : s.skip = some (.constant (.int n)))
    (skips : 0 < n.toInt) (takes : s.take = take.map fun m => .constant (.int m))
    (unskipped : t.allRows.Unskipped) (identified : ∀ key ∈ s.order, key.value.Identified)
    (run : t.run env = .ok r) :
    r = ⟨s.headers, []⟩ ∧
      (∀ next t' next', t.lowerByRowNumber.Gives next t' next' →
        t'.run env = if s.distinct then .ok ⟨s.headers, []⟩ else .error .rowNumberOutsideColumn) ∧
      ∃ row, t.allRows.run env = .ok ⟨s.headers, [row]⟩ ∧
        ∀ next t' next', t.lowerByNesting.Gives next t' next' →
          (∀ m, take = some m → t'.run env = .ok ⟨s.headers, [row].take m.toInt.toNat⟩) ∧
          (take = none → (s.allRows.sortedBy []).isGrouped = true → t'.run env = .ok ⟨s.headers, []⟩) ∧
          (take = none → ∀ copies, (s.allRows.sortedBy []).run env [] = .ok copies →
            t'.run env = .ok ⟨s.headers, [row].take (copies.rows.length - n.toInt.toNat)⟩) := by
  have hs : s.Aggregated n take := ⟨group, grouped, order, headers, skip, skips, takes, identified⟩
  obtain ⟨i, hroot, -, hevery⟩ := exists_root query
  have hunskipped := s.unskipped_clauses skip takes (hevery unskipped)
  rw [run_of_query query] at run
  -- the one row
  obtain ⟨_, hdelivered, rfl⟩ := run_eq_ok.1 run
  obtain ⟨produced, _, _, hproduced, -⟩ := delivered_eq_ok.1 hdelivered
  have hrows : s.allRows.delivered env [] = .ok _ :=
    delivered_eq_ok.2 ⟨produced, none, none, hproduced, rfl, rfl, rfl⟩
  obtain ⟨row, hrow⟩ := aggregated_delivered (s := s.allRows) group grouped rfl rfl hrows
  rw [hrow] at hrows
  have hall : s.allRows.run env [] = .ok ⟨s.headers, [row.1]⟩ := run_eq_ok.2 ⟨_, hrows, rfl⟩
  have hempty : page (some n.toInt.toNat) (take.map fun m => m.toInt.toNat) [row.1] = [] := by
    have hdrop : [row.1].drop n.toInt.toNat = [] := drop_eq_nil_of_le (show 1 ≤ n.toInt.toNat by omega)
    cases take with
    | none => exact hdrop
    | some m => exact (congrArg (take m.toInt.toNat) hdrop).trans take_nil
  have hpage := run_page hall (congrArg (optionalCount env []) skip) (optionalCount_take takes)
  -- what the layers leave of it
  have hnested : ∀ {next t' next'} copies, t.lowerByNesting.Gives next t' next' →
      (take = none → (s.allRows.sortedBy []).delivered env [] = .ok copies) →
      t'.run env = .ok ⟨s.headers, [row.1].take (windowLength n take copies.length)⟩ := by
    intro next t' next' copies lowered counted
    obtain ⟨f, hf, v, m, m', hv, -, hlowered⟩ := lowerSkips_query nestOrders_ascends query hunskipped skip lowered
    have hagg := hv.aggregated hs
    have hcounted : take = none → (v.allRows.sortedBy []).delivered env [] = .ok copies := fun htake =>
      ((hv.allRows.ordered .nil).delivered_eq env []).trans (counted htake)
    have hrun := nestOrders_single hagg.order hagg.identified hagg.headers hcounted skips.le
      ((hv.allRows.delivered_eq env []).trans hrows) le_rfl (hagg.lowerSkip_gives hlowered)
    rwa [run_of_query hf, ← hv.headers]
  refine ⟨(Except.ok.inj (run.symm.trans hpage)).trans (congrArg (Relation.mk s.headers) hempty),
    fun next t' next' lowered => ?_, row.1, (run_of_query hroot).trans hall,
    fun next t' next' lowered => ⟨?_, ?_, ?_⟩⟩
  · obtain ⟨f, hf, v, m, m', hv, -, hlowered⟩ := lowerSkips_query numberRows_ascends query hunskipped skip lowered
    have hagg := hv.aggregated hs
    have hrun := numberRows_single hagg.group hagg.grouped hagg.order hagg.identified hagg.headers skips
      ((hv.allRows.delivered_eq env []).trans hrows) (hagg.lowerSkip_gives hlowered)
    rwa [run_of_query hf, ← hv.headers, ← hv.same.distinct]
  · rintro m rfl
    exact hnested [] lowered (by simp)
  · rintro rfl unordered
    obtain ⟨copies, hcopies, hlength⟩ :=
      unordered_delivered (s := s.allRows) (unordered.trans grouped.symm) rfl rfl hrows
    rw [hnested copies lowered fun _ => hcopies, hlength]
    have hcount : windowLength n none [row].length = 0 := by
      simp only [windowLength, Option.elim_none, length_singleton]
      omega
    rw [hcount, take_zero]
  · rintro rfl copies hcopies
    obtain ⟨rows, hrows', rfl⟩ := run_eq_ok.1 hcopies
    rw [hnested rows lowered fun _ => hrows']
    simp

/-- A value for the orders, sorted by their number, after the first row. -/
def orderCount (value : Tree) (take : Option Int64) : Select Tree where
  label := 1
  columns := [⟨"n", value, ScalarType.int64.columnType⟩]
  source := some (.table 0 "orders")
  order := [⟨.ascending, .aggregate .count none false .int64⟩]
  skip := some (.int 1)
  take := take.map fun m => .constant (.int m)

theorem lowerPaging_aggregated_orderCount :
    let page value take := Tree.select (orderCount value take) none
    let count : Tree := .aggregate .count none false .int64
    (∃ t' next', (page count (some 2)).lowerByRowNumber.Gives 2 t' next' ∧
        t'.run pricedOrders = .error .rowNumberOutsideColumn) ∧
      (∃ t' next' row, (page count (some 2)).lowerByNesting.Gives 2 t' next' ∧
        t'.run pricedOrders = .ok ⟨["n"], [row]⟩) ∧
      (∃ t' next', (page count none).lowerByNesting.Gives 2 t' next' ∧ t'.run pricedOrders = .ok ⟨["n"], []⟩) ∧
      ∃ t' next' row, (page (.int 1) none).lowerByNesting.Gives 2 t' next' ∧
        t'.run pricedOrders = .ok ⟨["n"], [row]⟩ := by
  intro page count
  have hpage (value : Tree) (take : Option Int64) (grouped : (orderCount value take).isGrouped = true)
      (unskipped : (page value take).allRows.Unskipped)
      (identified : ∀ key ∈ (orderCount value take).order, key.value.Identified)
      (run : (page value take).run pricedOrders = .ok ⟨["n"], []⟩) :=
    Tree.lowerPaging_aggregated (t := page value take) rfl rfl grouped (cons_ne_nil _ _)
      (nodup_singleton _) rfl (by decide) rfl unskipped identified run
  obtain ⟨-, hnumbered, row, -, hnested⟩ := hpage count (some 2) (by decide) (by decide) (by decide) rfl
  obtain ⟨-, -, _, -, hopen⟩ := hpage count none (by decide) (by decide) (by decide) rfl
  obtain ⟨-, -, one, -, hsorted⟩ := hpage (.int 1) none (by decide) (by decide) (by decide) rfl
  refine ⟨Lowering.exists_gives_and (by decide +kernel) fun lowered => hnumbered _ _ _ lowered, ?_,
    Lowering.exists_gives_and (by decide +kernel) fun lowered => (hopen _ _ _ lowered).2.1 rfl (by decide), ?_⟩
  · obtain ⟨t', next', lowered⟩ : ∃ t' next', (page count (some 2)).lowerByNesting.Gives 2 t' next' :=
      Lowering.exists_gives (by decide +kernel)
    exact ⟨t', next', row, lowered, (hnested 2 t' next' lowered).1 2 rfl⟩
  · obtain ⟨t', next', lowered⟩ : ∃ t' next', (page (.int 1) none).lowerByNesting.Gives 2 t' next' :=
      Lowering.exists_gives (by decide +kernel)
    exact ⟨t', next', one, lowered, (hsorted 2 t' next' lowered).2.2 rfl _ rfl⟩

end HiveQuery
