import HiveQuery.Proofs.Layers

/-!
# Windows of row numbers

A select that numbers its rows, under a layer that keeps a window of the numbers and sorts by them, gives
the rows that are left after skipping and taking.
-/

namespace HiveQuery

variable {skip : Nat} {take : Option Nat} {kept : Tree}
open List

variable {env : Environment} {frames : Frames}

theorem mem_numberedRows_bounds {directions : List Direction} {rows : KeyedRows}
    {p : List Value × Nat} (h : p ∈ numberedRows directions rows) : 0 < p.2 ∧ p.2 ≤ rows.length := by
  have hnumber := (of_mem_zip h).2
  rw [ranks_eq] at hnumber
  obtain ⟨i, hi, hp⟩ := mem_map.1 hnumber
  have hids := sortedPlaces_perm directions (rows.map Prod.snd)
  have hlt := idxOf_lt_length_iff.2 (hids.mem_iff.2 hi)
  rw [hids.length_eq, length_range] at hlt
  exact hp ▸ ⟨Nat.succ_pos _, hlt.trans_eq (length_map _)⟩

namespace Select

variable {base : Select Tree} {order : List (SortKey Tree)} {name : String} {label : Alias}

/-! ## Numbered rows -/

/-- A select that neither groups nor arranges its rows, and keys that do not make it do so. -/
structure Numberable (base : Select Tree) (order : List (SortKey Tree)) : Prop where
  unordered : base.order = []
  distinct : base.distinct = false
  skip : base.skip = none
  take : base.take = none
  reverse : base.reverse = false
  grouped : base.isGrouped = false
  keys : ∀ key ∈ order, key.value.hasAggregate = false

def numberRef (label : Alias) (name : String) : ColumnRef :=
  ⟨.int32, ScalarType.int32.columnType, label, name⟩

def numbering (base : Select Tree) (order : List (SortKey Tree)) (name : String) (label : Alias) :
    Select Tree :=
  { base.addColumn ⟨name, .rowNumber order, ScalarType.int32.columnType⟩ with label := label }

theorem Numberable.grouped_numbering (h : base.Numberable order) :
    (base.numbering order name label).isGrouped = false := by
  have hnumber : (Tree.rowNumber order).hasAggregate = false := by
    rw [Tree.hasAggregate_eq]
    simpa [Tree.isAggregate, Tree.isSelect, Tree.isSubquery] using h.keys
  rw [← h.grouped]
  simp [isGrouped, hasAggregates, numbering, addColumn, hnumber]

theorem Numberable.grouped_ordered (h : base.Numberable order) : (base.sortedBy order).isGrouped = false := by
  have hkeys : (order.any fun key => key.value.hasAggregate) = false := by simpa using h.keys
  rw [← h.grouped]
  simp [isGrouped, hasAggregates, h.unordered, hkeys]

theorem rowNumbers_numbering {rows : List Row} {numbers : List (List Nat)} :
    rowNumbers env frames rows (base.numbering order name label).columns = .ok numbers ↔
      ∃ before keys, rowNumbers env frames rows base.columns = .ok before ∧
        Forall₂ (fun row key => keyValues env (row :: frames) none order = .ok key) rows keys ∧
        numbers = before ++ [ranks (order.map SortKey.direction) keys] := by
  rw [show (base.numbering order name label).columns = base.columns ++
    [⟨name, .rowNumber order, ScalarType.int32.columnType⟩] from rfl, rowNumbers_append]
  simp only [rowNumbers, bind_eq_ok, pure_eq_ok, mapM_eq_ok]
  constructor
  · rintro ⟨before, hbefore, more, ⟨keys, hkeys, rest, hrest, rfl⟩, rfl⟩
    cases hrest
    exact ⟨before, keys, hbefore, hkeys, rfl⟩
  · rintro ⟨before, keys, hbefore, hkeys, rfl⟩
    exact ⟨before, hbefore, _, ⟨keys, hkeys, [], rfl, rfl⟩, rfl⟩

theorem valuesAt_numbering {row : Row} {before : List (List Nat)} {number? : Option Nat} {i : Nat}
    (hlen : before.length = base.columns.length) {values : List Value} :
    (base.numbering order name label).valuesAt env
        ⟨row :: frames, none, before.map (fun n => n[i]?) ++ [number?]⟩ = .ok values ↔
      ∃ vs n, base.valuesAt env ⟨row :: frames, none, before.map fun n => n[i]?⟩ = .ok vs ∧
        number? = some n ∧ values = vs ++ [countValue n] := by
  have hcolumns : (base.numbering order name label).valuesAt env
      ⟨row :: frames, none, before.map (fun n => n[i]?) ++ [number?]⟩ = (do
        let vs ← base.valuesAt env ⟨row :: frames, none, before.map fun n => n[i]?⟩
        let more ← columnValues env (row :: frames) none [number?]
          [⟨name, .rowNumber order, ScalarType.int32.columnType⟩]
        return vs ++ more) :=
    columnValues_append_of_length (by rw [length_map, hlen]) _ _
  rw [hcolumns]
  simp only [bind_eq_ok, pure_eq_ok]
  cases number? with
  | none => simp [columnValues, Tree.scalar, bind, Except.bind]
  | some n => simp [columnValues, bind, Except.bind, pure, Except.pure]

theorem forall₂_numbering {kept : List Row} {before : List (List Nat)} {numbers : List Nat}
    (hwidth : before.length = base.columns.length) (hcount : numbers.length = kept.length)
    {rows : KeyedRows} :
    Forall₂ (fun (p : Row × Nat) q => (base.numbering order name label).valuesAt env
        ⟨p.1 :: frames, none, (before ++ [numbers]).map fun n => n[p.2]?⟩ = .ok q.1 ∧ [] = q.2)
        kept.zipIdx rows ↔
      ∃ values, Forall₂ (fun (p : Row × Nat) vs =>
          base.valuesAt env ⟨p.1 :: frames, none, before.map fun n => n[p.2]?⟩ = .ok vs)
          kept.zipIdx values ∧
        rows = (values.zip numbers).map fun p => (p.1 ++ [countValue p.2], []) := by
  have hnumbers : Forall₂ (fun (p : Row × Nat) n => numbers[p.2]? = some n) kept.zipIdx numbers := by
    refine forall₂_iff_get.2 ⟨by simp [hcount], fun i h₁ h₂ => ?_⟩
    simp [getElem?_eq_getElem h₂]
  simp only [map_append, map_singleton, valuesAt_numbering hwidth]
  constructor
  · intro hrows
    have hsplit : Forall₂ (fun (p : Row × Nat) q => ∃ c : List Value × Nat,
        (base.valuesAt env ⟨p.1 :: frames, none, before.map fun n => n[p.2]?⟩ = .ok c.1 ∧
          numbers[p.2]? = some c.2) ∧ q = (c.1 ++ [countValue c.2], [])) kept.zipIdx rows := by
      refine hrows.imp fun p q hq => ?_
      obtain ⟨⟨vs, n, hvs, hn, hq⟩, hnil⟩ := hq
      exact ⟨(vs, n), ⟨hvs, hn⟩, Prod.ext hq hnil.symm⟩
    obtain ⟨numbered, hnumbered, hq⟩ := forall₂_exists hsplit
    have hsnd : numbered.map Prod.snd = numbers := by
      refine right_unique_forall₂' (fun _ _ _ h h' => ?_)
        (forall₂_map_right_iff.2 (hnumbered.imp fun _ _ h => h.2)) hnumbers
      exact Option.some.inj (h.symm.trans h')
    have hrows : rows = numbered.map fun p => (p.1 ++ [countValue p.2], []) := by
      rw [← map_eq_of_forall₂ hq (g := id) fun _ _ h => h, map_id]
    refine ⟨numbered.map Prod.fst, forall₂_map_right_iff.2 (hnumbered.imp fun _ _ h => h.1), ?_⟩
    rw [hrows, ← zip_of_prod rfl hsnd]
  · rintro ⟨values, hvalues, rfl⟩
    refine forall₂_map_right_iff.2 ((forall₂_zip_right hvalues hnumbers).imp fun p c hc => ?_)
    exact ⟨⟨c.1, c.2, hc.1, hc.2, rfl⟩, rfl⟩

/-- The rows of a select with a column for their numbers. -/
theorem Numberable.delivered_numbering (h : base.Numberable order) {rows : KeyedRows} :
    (base.numbering order name label).delivered env frames = .ok rows ↔
      ∃ produced, (base.sortedBy order).produced env frames = .ok produced ∧
        rows = (numberedRows (order.map SortKey.direction) produced).map fun p => (p.1 ++ [countValue p.2], []) := by
  have hproduced : (base.numbering order name label).delivered env frames =
      (base.numbering order name label).produced env frames :=
    delivered_eq_produced h.unordered h.distinct h.skip h.take h.reverse
  have hunordered : (base.numbering order name label).order = [] := h.unordered
  rw [hproduced, produced_eq_ok_of_ungrouped h.grouped_numbering]
  simp only [produced_eq_ok_of_ungrouped h.grouped_ordered, rowNumbers_numbering, hunordered,
    keyValues, Except.ok.injEq]
  constructor
  · rintro ⟨kept, _, hkept, ⟨before, keys, hbefore, hkeys, rfl⟩, hrows⟩
    have hcount : (ranks (order.map SortKey.direction) keys).length = kept.length := by
      rw [ranks_length, hkeys.length_eq]
    obtain ⟨values, hvalues, rfl⟩ := (forall₂_numbering (rowNumbers_length hbefore) hcount).1 hrows
    have hlen : values.length = keys.length := by
      rw [← hvalues.length_eq, length_zipIdx, hkeys.length_eq]
    refine ⟨values.zip keys, ⟨kept, before, hkept, hbefore,
      forall₂_zip_right hvalues (zipIdx_forall₂_left hkeys 0)⟩, ?_⟩
    rw [numberedRows, map_fst_zip hlen.le, map_snd_zip hlen.ge]
  · rintro ⟨produced, ⟨kept, before, hkept, hbefore, hrows⟩, rfl⟩
    have hkeys : Forall₂ (fun row key => keyValues env (row :: frames) none order = .ok key) kept
        (produced.map Prod.snd) := by
      rw [← zipIdx_map_fst 0 kept, forall₂_map_left_iff, forall₂_map_right_iff]
      exact hrows.imp fun _ _ h => h.2
    have hcount : (ranks (order.map SortKey.direction) (produced.map Prod.snd)).length = kept.length := by
      rw [ranks_length, hkeys.length_eq]
    exact ⟨kept, _, hkept, ⟨before, _, hbefore, hkeys, rfl⟩, (forall₂_numbering (rowNumbers_length hbefore) hcount).2
      ⟨_, forall₂_map_right_iff.2 (hrows.imp fun _ _ h => h.1), rfl⟩⟩

/-! ## Windows -/

/-- A layer that keeps the rows with certain numbers, in the order of their numbers. -/
def window (base : Select Tree) (order : List (SortKey Tree)) (name : String) (label : Alias)
    (kept : Tree) : Select Tree :=
  let numbered := base.addColumn ⟨name, .rowNumber order, ScalarType.int32.columnType⟩
  { (numbered.wrap label).removeColumn name with
    filter := some kept
    order := [⟨.ascending, .column (numberRef label name)⟩] }

/-- A condition on row numbers that holds in a window of them. -/
structure Keeps (env : Environment) (kept : Tree) (label : Alias) (name : String) (skip : Nat)
    (take : Option Nat) : Prop where
  aggregate : kept.hasAggregate = false
  holds : ∀ {frames : Frames} {n : Nat}, 0 < n ∧ (n : Int) ≤ greatestInt64 →
    frames.lookup? (numberRef label name) = some (countValue n) →
    satisfies env frames (some kept) = .ok (inWindow skip take n)

theorem headers_numbering (base : Select Tree) (order : List (SortKey Tree)) (name : String)
    (label : Alias) : (base.numbering order name label).headers = base.headers ++ [name] := by
  simp [headers, numbering, addColumn]

theorem columns_window (hname : name ∉ base.headers) (kept : Tree) :
    (base.window order name label kept).columns = base.columns.map (passOn label) := by
  have hother : ∀ c ∈ base.columns.map (passOn label), (c.name != name) = true := by
    intro c hc
    obtain ⟨d, hd, rfl⟩ := mem_map.1 hc
    exact bne_iff_ne.2 fun e => hname (mem_map.2 ⟨d, hd, e⟩)
  show ((base.columns ++ [_]).map (passOn label)).filter (fun c : Column Tree => c.name != name) = _
  rw [map_append, filter_append, filter_eq_self.2 hother]
  simp [passOn]

theorem headers_window (hname : name ∉ base.headers) (kept : Tree) :
    (base.window order name label kept).headers = base.headers := by
  rw [headers, columns_window hname, map_map]
  rfl

section

variable (h : base.Numberable order) (hnodup : base.headers.Nodup) (hname : name ∉ base.headers)
include hnodup hname

theorem nodup_numbering : (base.numbering order name label).headers.Nodup := by
  rw [headers_numbering, ← concat_eq_append]
  exact hnodup.concat hname

theorem window_isLayer (hkept : kept.hasAggregate = false) :
    (base.window order name label kept).IsLayer (base.numbering order name label) base.columns none where
  source := rfl
  columns := columns_window hname kept
  headers := ⟨[name], headers_numbering base order name label⟩
  nodup := nodup_numbering hnodup hname
  grouped := by
    have hcolumns : ((base.window order name label kept).columns.any
        fun c => c.value.hasAggregate) = false := by
      rw [columns_window hname, any_map]
      exact any_eq_false.2 fun c _ => by simp [hasAggregate_passOn]
    have hfilter : (base.window order name label kept).filter = some kept := rfl
    have horder : (base.window order name label kept).order =
        [⟨.ascending, .column (numberRef label name)⟩] := rfl
    have hgroup : (base.window order name label kept).group = [] := rfl
    simp [isGrouped, hasAggregates, hcolumns, hfilter, horder, hgroup, hkept, hasAggregate_column]

theorem lookup?_number {values : List Value} (hwidth : values.length = base.columns.length) (v : Value) :
    Frames.lookup? (sourceRow label (base.numbering order name label).headers (values ++ [v]) :: frames)
      (numberRef label name) = some v := by
  have hlen : (values ++ [v]).length = (base.numbering order name label).headers.length := by
    rw [headers_numbering, length_append, length_append, hwidth, headers, length_map]
    rfl
  have hvalues := value?_forall₂ (a := label) (nodup_numbering hnodup hname) hlen
  nth_rewrite 2 [headers_numbering] at hvalues
  have hlast := (forall₂_of_append (by rw [headers, length_map, hwidth]) hvalues).2
  rw [lookup?_cons_of_mem (by simp [sourceRow, numberRef])]
  cases hlast with
  | cons hv _ => simpa [rowLookup?, sourceRow, numberRef] using hv

theorem delivered_window_of_numbering (hkept : Keeps env kept label name skip take)
    {numbered : List (List Value × Nat)}
    (hrows : (base.numbering order name label).delivered env frames =
      .ok (numbered.map fun p => (p.1 ++ [countValue p.2], [])))
    (hbound : ∀ p ∈ numbered, 0 < p.2 ∧ (p.2 : Int) ≤ greatestInt64) :
    (base.window order name label kept).delivered env frames = .ok (windowRows skip take numbered) := by
  have hlayer : (base.window order name label kept).IsLayer (base.numbering order name label)
      base.columns none := window_isLayer hnodup hname hkept.aggregate
  have hnumber : ∀ p ∈ numbered, p.1.length = base.columns.length ∧
      Frames.lookup? (sourceRow label (base.numbering order name label).headers
        (p.1 ++ [countValue p.2]) :: frames) (numberRef label name) = some (countValue p.2) := by
    intro p hp
    have hwidth : p.1.length = base.columns.length := by
      have hwidth := delivered_width hrows _ (mem_map_of_mem hp)
      simpa [numbering, addColumn] using hwidth
    exact ⟨hwidth, lookup?_number hnodup hname hwidth _⟩
  have hkeep : ∀ p ∈ numbered,
      satisfies env (sourceRow label (base.numbering order name label).headers
        (p.1 ++ [countValue p.2]) :: frames) (some kept) = .ok (inWindow skip take p.2) :=
    fun p hp => hkept.holds (hbound p hp) (hnumber p hp).2
  have hwindow : (base.window order name label kept).produced env frames =
      .ok ((numbered.filter fun p => inWindow skip take p.2).map
        fun p => (p.1, [countValue p.2])) := by
    refine (hlayer.produced_eq_ok hrows hkeep).2 (forall₂_map_right_iff.2 ?_)
    refine forall₂_same.2 fun p hp => ?_
    obtain ⟨hwidth, hlookup⟩ := hnumber p (mem_of_mem_filter hp)
    exact ⟨by rw [← hwidth, take_left],
      keyValues_eq_ok.2 (.cons (scalar_column hlookup none) .nil)⟩
  refine (delivered_eq_ok_of_unpaged rfl rfl).2 ⟨_, hwindow, ?_⟩
  rw [arrange_eq]
  rfl

include h

theorem delivered_window (hkept : Keeps env kept label name skip take) {rows : KeyedRows}
    (hproduced : (base.sortedBy order).produced env frames = .ok rows) :
    (base.window order name label kept).delivered env frames =
      .ok (windowRows skip take (numberedRows (order.map SortKey.direction) rows)) := by
  have hrows : (base.numbering order name label).delivered env frames = .ok _ :=
    h.delivered_numbering.2 ⟨rows, hproduced, rfl⟩
  refine delivered_window_of_numbering hnodup hname hkept hrows fun p hp => ?_
  have hcount := produced_length hproduced
  have hle := mem_numberedRows_bounds hp
  omega

/-- A window of row numbers gives what skipping and taking gives. -/
theorem window_run (hkept : Keeps env kept label name skip take) {skipped taken : Option Tree}
    (hskip : optionalCount env frames skipped = .ok (some skip))
    (htake : optionalCount env frames taken = .ok take) {r : Relation} :
    (base.window order name label kept).run env frames = .ok r ↔
      ({ base with order := order, skip := skipped, take := taken } : Select Tree).run env frames =
        .ok r := by
  have hsame : ∀ {produced}, (base.sortedBy order).produced env frames = .ok produced →
      (base.window order name label kept).run env frames =
        ({ base with order := order, skip := skipped, take := taken } : Select Tree).run env frames := by
    intro produced hproduced
    have hwindow := delivered_window h hnodup hname hkept hproduced
    have hpage : ({ base with order := order, skip := skipped, take := taken } :
        Select Tree).delivered env frames =
        .ok (page (some skip) take (sortByKeys (order.map SortKey.direction) produced)) := by
      refine delivered_eq_ok.2 ⟨_, some skip, take, hproduced, hskip, htake, ?_⟩
      rw [arrange_eq, h.distinct, h.reverse]
      rfl
    rw [run_eq, run_eq, hwindow, hpage]
    show (Except.ok _ : Run Relation) = .ok _
    rw [headers_window hname, sortByKeys_ranks _ produced (produced_length hproduced) skip take, page_map]
    rfl
  constructor
  · intro hrun
    obtain ⟨rows, hrows, _⟩ := run_eq_ok.1 hrun
    obtain ⟨produced, _, _, hproduced, _⟩ := delivered_eq_ok.1 hrows
    obtain ⟨numbered, hnumbered⟩ := (window_isLayer hnodup hname hkept.aggregate).exists_delivered hproduced
    obtain ⟨below, hbelow, _⟩ := h.delivered_numbering.1 hnumbered
    rwa [hsame hbelow] at hrun
  · intro hrun
    obtain ⟨rows, hrows, _⟩ := run_eq_ok.1 hrun
    obtain ⟨produced, _, _, hproduced, _⟩ := delivered_eq_ok.1 hrows
    rwa [hsame hproduced]

end

end Select

end HiveQuery
