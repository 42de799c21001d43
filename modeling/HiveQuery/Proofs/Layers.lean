import HiveQuery.Proofs.LiftedOrder
import HiveQuery.Proofs.Partitions

/-!
# Layers

A layer reads from a select below and passes on columns of it, so its rows are those of the select below,
cut to these columns.
-/

namespace HiveQuery

variable {values : List Value}
open List
variable {env : Environment} {frames : Frames} {produced rows : KeyedRows}
  {t : Select Tree} {α : Type}

/-! ## Numbers of rows and values -/

theorem columnValues_length {group : Option (List Row)} {numbers : List (Option Nat)}
    {cs : List (Column Tree)} (h : columnValues env frames group numbers cs = .ok values) :
    values.length = cs.length := by
  induction cs generalizing numbers values with
  | nil =>
    rw [columnValues] at h
    cases h
    rfl
  | cons c cs ih =>
    obtain ⟨v, vs, _, hvs, rfl⟩ := columnValues_cons_eq_ok.1 h
    rw [length_cons, length_cons, ih hvs]

theorem hasAggregate_column (c : ColumnRef) : (Tree.column c).hasAggregate = false := by
  rw [Tree.hasAggregate_eq]
  rfl

namespace Select

variable {s inner layer : Select Tree} {cs : List (Column Tree)} {j : Option Identity}

theorem Lifts.unaggregated {keys ls : List (SortKey Tree)} (h : s.Lifts keys extra ls) :
    ∀ l ∈ ls, l.value.hasAggregate = false :=
  h.forall_value (P := (·.hasAggregate = false)) hasAggregate_column

theorem contexts_length {contexts : List Context} (h : s.contexts env frames = .ok contexts) :
    (contexts.length : Int) ≤ greatestInt64 := by
  obtain ⟨rows, hrows, h⟩ := contexts_eq_ok.1 h
  obtain ⟨_, _, _, hcount⟩ := keptRows_eq_ok.1 hrows
  rcases h with ⟨_, keys, _, rfl⟩ | ⟨_, numbers, _, rfl⟩
  · rw [groupContexts, length_map, groupRows]
    split
    · show (1 : Int) ≤ greatestInt64
      decide
    · have hgroups := groupByKey_length_le (keys.zip rows)
      rw [length_zip] at hgroups
      omega
  · rwa [rowContexts, length_map, length_zipIdx]

theorem produced_length (h : s.produced env frames = .ok rows) : (rows.length : Int) ≤ greatestInt64 := by
  obtain ⟨contexts, hcontexts, hall⟩ := produced_eq_ok.1 h
  exact hall.length_eq ▸ contexts_length hcontexts

/-- No more rows are delivered than can be counted. -/
theorem delivered_length (h : s.delivered env frames = .ok rows) : (rows.length : Int) ≤ greatestInt64 := by
  obtain ⟨produced, skipped, taken, hproduced, _, _, rfl⟩ := delivered_eq_ok.1 h
  have hcount := produced_length hproduced
  have hpage := (page_sublist skipped taken (arrange s.distinct s.reverse s.directions produced)).length_le
  rw [(arrange_perm _ _ _ _).length_eq] at hpage
  have hunique := (uniqueRows_sublist s.distinct produced).length_le
  omega

theorem produced_width (h : s.produced env frames = .ok rows) :
    ∀ p ∈ rows, p.1.length = s.columns.length := by
  intro p hp
  obtain ⟨contexts, _, c, _, hvalues, _⟩ := exists_context_of_produced h hp
  exact columnValues_length hvalues

theorem delivered_width (h : s.delivered env frames = .ok rows) :
    ∀ p ∈ rows, p.1.length = s.columns.length := by
  intro p hp
  obtain ⟨contexts, _, c, _, hvalues, _⟩ := exists_context_of_delivered h hp
  exact columnValues_length hvalues

/-! ## Columns that are passed on -/

theorem value?_forall₂ {a : Alias} {headers : List String} (hnodup : headers.Nodup)
    (hlen : values.length = headers.length) :
    Forall₂ (fun name v => Binding.value? ⟨a, headers, some values⟩ name = some v) headers values := by
  refine forall₂_iff_get.2 ⟨hlen.symm, fun i h₁ h₂ => ?_⟩
  have hfind : headers.findIdx? (· == headers.get ⟨i, h₁⟩) = some i := by
    refine findIdx?_eq_some_iff_getElem.2 ⟨h₁, by simp, fun k hk => ?_⟩
    simp only [get_eq_getElem, beq_iff_eq]
    exact fun e => (Nat.ne_of_lt hk) ((hnodup.getElem_inj_iff).1 e)
  simp only [Binding.value?, hfind, Option.bind_some]
  simp [getElem?_eq_getElem h₂]

theorem passOn_value (a : Alias) (c : Column Tree) :
    ∃ ref : ColumnRef, (passOn a c).value = .column ref ∧ ref.label = a ∧ ref.name = c.name := by
  unfold passOn
  cases c.value <;> exact ⟨_, rfl, rfl, rfl⟩

theorem hasAggregate_passOn (a : Alias) (c : Column Tree) : (passOn a c).value.hasAggregate = false := by
  obtain ⟨ref, hvalue, _⟩ := passOn_value a c
  rw [hvalue, hasAggregate_column]

theorem columnValues_passOn {a : Alias} {headers : List String} {more : List String}
    (hheaders : headers = cs.map Column.name ++ more) (hnodup : headers.Nodup)
    (hlen : values.length = headers.length) (group : Option (List Row)) :
    columnValues env (sourceRow a headers values :: frames) group [] (cs.map (passOn a)) =
      .ok (values.take cs.length) := by
  subst hheaders
  have hvalues := value?_forall₂ (a := a) hnodup hlen
  rw [← take_append_drop cs.length values] at hvalues
  have hwidth : (cs.map Column.name).length = (values.take cs.length).length := by
    rw [length_take, hlen, length_append, length_map]
    omega
  have htaken := (forall₂_of_append hwidth hvalues).1
  rw [take_append_drop] at htaken
  refine columnValues_eq_ok.2 (forall₂_map_left_iff.2 ?_)
  refine (forall₂_map_left_iff.1 htaken).imp fun c v hv => ?_
  obtain ⟨ref, hvalue, hlabel, hname⟩ := passOn_value a c
  rw [hvalue]
  exact scalar_column_sourceRow hlabel (hname ▸ hv)

/-! ## Rows of a layer -/

theorem filterRows_map {f : α → Row} {test : Row → Run Bool} {keep : α → Bool} {rows : List α}
    (h : ∀ p ∈ rows, test (f p) = .ok (keep p)) :
    filterRows test (rows.map f) = .ok ((rows.filter keep).map f) := by
  induction rows with
  | nil => rfl
  | cons p rows ih =>
    rw [map_cons, filterRows, h p mem_cons_self, ih fun q hq => h q (.tail _ hq), filter_cons]
    cases keep p <;> rfl

/-- A select that passes on columns of the select it reads from, and does not group. -/
structure IsLayer (layer inner : Select Tree) (cs : List (Column Tree)) (j : Option Identity) : Prop
    where
  source : layer.source = some (.select inner j)
  columns : layer.columns = cs.map (passOn inner.label)
  headers : ∃ more, inner.headers = cs.map Column.name ++ more
  nodup : inner.headers.Nodup
  grouped : layer.isGrouped = false

theorem IsLayer.exists_delivered (h : layer.IsLayer inner cs j)
    (hp : layer.produced env frames = .ok produced) : ∃ rows, inner.delivered env frames = .ok rows := by
  obtain ⟨contexts, hcontexts, _⟩ := produced_eq_ok.1 hp
  obtain ⟨kept, hkept, _⟩ := contexts_eq_ok.1 hcontexts
  obtain ⟨all, hall, _⟩ := keptRows_eq_ok.1 hkept
  rw [h.source, optionRows] at hall
  obtain ⟨rows, hrows, _⟩ := Tree.rows_select_eq_ok.1 hall
  exact ⟨rows, hrows⟩

/-- The rows of a layer are the rows below that pass its filter, cut to its columns. -/
theorem IsLayer.produced_eq_ok (h : layer.IsLayer inner cs j) {rows : List α}
    {row : α → List Value × List Value} (hrows : inner.delivered env frames = .ok (rows.map row))
    {keep : α → Bool}
    (hkeep : ∀ a ∈ rows, satisfies env (sourceRow inner.label inner.headers (row a).1 :: frames)
      layer.filter = .ok (keep a)) :
    layer.produced env frames = .ok produced ↔
      Forall₂ (fun a q => q.1 = (row a).1.take cs.length ∧
        keyValues env (sourceRow inner.label inner.headers (row a).1 :: frames) none layer.order =
          .ok q.2) (rows.filter keep) produced := by
  let sourceRows : α → Row := fun a => sourceRow inner.label inner.headers (row a).1
  have hall : optionRows env frames layer.source = .ok (rows.map sourceRows) := by
    rw [h.source, optionRows]
    exact Tree.rows_select_eq_ok.2 ⟨_, hrows, by rw [map_map]; rfl⟩
  have hcount : (((rows.filter keep).map sourceRows).length : Int) ≤ greatestInt64 := by
    have hrows := delivered_length hrows
    have hfilter := length_filter_le keep rows
    rw [length_map] at hrows ⊢
    omega
  have hkept : layer.keptRows env frames = .ok ((rows.filter keep).map sourceRows) :=
    keptRows_eq_ok.2 ⟨_, hall, filterRows_map hkeep, hcount⟩
  have hcolumns : ∀ d ∈ layer.columns, d.value.isRowNumber = false := by
    intro d hd
    rw [h.columns] at hd
    obtain ⟨c, _, rfl⟩ := mem_map.1 hd
    obtain ⟨ref, hvalue, _⟩ := passOn_value inner.label c
    rw [hvalue]
    rfl
  have hvalues : ∀ a ∈ rows.filter keep,
      columnValues env (sourceRows a :: frames) none [] layer.columns = .ok ((row a).1.take cs.length) := by
    intro a ha
    obtain ⟨more, hmore⟩ := h.headers
    rw [h.columns]
    refine columnValues_passOn hmore h.nodup ?_ none
    rw [delivered_width hrows _ (mem_map_of_mem (mem_of_mem_filter ha)), Select.headers, length_map]
  rw [produced_eq_ok_of_unnumbered h.grouped hcolumns, hkept]
  constructor
  · rintro ⟨kept, e, hp⟩
    rw [← Except.ok.inj e, forall₂_map_left_iff] at hp
    refine forall₂_imp_mem hp fun a q hmem hq => ⟨?_, hq.2⟩
    rw [hvalues a hmem] at hq
    exact (Except.ok.inj hq.1).symm
  · intro hp
    refine ⟨_, rfl, forall₂_map_left_iff.2 (forall₂_imp_mem hp fun a q hmem hq => ⟨?_, hq.2⟩)⟩
    rw [hvalues a hmem, hq.1]

theorem IsLayer.produced_of_unfiltered (h : layer.IsLayer inner cs j) (filter : layer.filter = none) {rows : List α}
    {r : α → List Value × List Value} {k : α → List Value} (hrows : inner.delivered env frames = .ok (rows.map r))
    (hkey : ∀ a ∈ rows, keyValues env (sourceRow inner.label inner.headers (r a).1 :: frames) none layer.order =
      .ok (k a)) :
    layer.produced env frames = .ok (rows.map fun a => ((r a).1.take cs.length, k a)) := by
  have hkeep : ∀ a ∈ rows, satisfies env (sourceRow inner.label inner.headers (r a).1 :: frames) layer.filter =
      .ok ((fun _ => true) a) := fun a _ => by rw [filter]; rfl
  rw [h.produced_eq_ok hrows hkeep, filter_true]
  exact forall₂_map_right_iff.2 (forall₂_same.2 fun a ha => ⟨rfl, hkey a ha⟩)

theorem headers_above (t inner : Select Tree) : (t.above inner).headers = t.headers := by
  rw [headers, headers, above, map_map]
  rfl

theorem above_isLayer {order : List (SortKey Tree)} (hheaders : ∃ more, inner.headers = t.headers ++ more)
    (hnodup : inner.headers.Nodup) (hkeys : ∀ key ∈ order, key.value.hasAggregate = false)
    (skip take : Option Tree) :
    ({ t.above inner with order := order, skip := skip, take := take } : Select Tree).IsLayer inner
      t.columns none where
  source := rfl
  columns := rfl
  headers := hheaders
  nodup := hnodup
  grouped := by
    have hcolumns : ((t.columns.map (passOn inner.label)).any fun c => c.value.hasAggregate) = false := by
      rw [any_map]
      exact any_eq_false.2 fun c _ => by simp [hasAggregate_passOn]
    have horder : (order.any fun key => key.value.hasAggregate) = false := by simpa using hkeys
    simp [isGrouped, hasAggregates, above, hcolumns, horder]

/-! ## Sorting in the layer above -/

theorem isGrouped_unordered (hgroup : s.group = [] → s.isGrouped = false) :
    (s.sortedBy []).isGrouped = s.isGrouped := by
  by_cases hs : s.group = []
  · have hungrouped := hgroup hs
    simp only [isGrouped, hasAggregates, Bool.or_eq_false_iff] at hungrouped
    simp [isGrouped, hasAggregates, hungrouped]
  · have hs : s.group.isEmpty = false := by simpa using hs
    simp [isGrouped, hs]

theorem Lifts.widens {extra : List (Column Tree)} {lifted : List (SortKey Tree)}
    (h : s.Lifts s.order extra lifted) : s.Widens extra where
  plain := h.plain
  unsortable e he hn := by
    obtain ⟨key, hkey, hvalue⟩ := h.values e he
    exact ⟨key, hkey, hvalue ▸ hn⟩
  grouped e he hagg := by
    obtain ⟨key, hkey, hvalue⟩ := h.values e he
    have horder : (s.order.any fun key => key.value.hasAggregate) = true :=
      any_eq_true.2 ⟨key, hkey, hvalue ▸ hagg⟩
    simp [isGrouped, hasAggregates, horder]

abbrev pageAbove (t s : Select Tree) (order : List (SortKey Tree)) (skip take : Option Tree) : Select Tree :=
  { t.above s with order := order, skip := skip, take := take }

/-- A select whose order is taken over by a layer above. -/
structure Layered (scope : List Alias) (s : Select Tree) (extra : List (Column Tree))
    (lifted : List (SortKey Tree)) : Prop where
  lifts : s.Lifts s.order extra lifted
  hygienic : (Tree.select s none).Hygienic scope
  exact : ∀ key ∈ s.order, key.value.IsExact
  nodup : s.headers.Nodup
  aggregates : s.group = [] → s.isGrouped = false
  skip : s.skip = none
  take : s.take = none
  reverse : s.reverse = false

namespace Layered

variable {extra : List (Column Tree)} {lifted : List (SortKey Tree)} {scope : List Alias}

section

variable (h : s.Layered scope extra lifted)
include h

theorem isGrouped : (s.widen extra).isGrouped = s.isGrouped :=
  widen_isGrouped h.lifts.widens.grouped

theorem contexts_unordered :
    ((s.widen extra).sortedBy []).contexts env frames = (s.widen extra).contexts env frames := by
  have hgrouped : ((s.widen extra).sortedBy []).isGrouped =
      (s.widen extra).isGrouped := isGrouped_unordered fun hs => h.isGrouped.trans (h.aggregates hs)
  rw [contexts, contexts, hgrouped]
  rfl

theorem produced_unordered (hsort : ¬ s.Unsortable)
    (hframes : frames.Within scope) :
    ((s.widen extra).sortedBy []).produced env frames = .ok rows ↔
      ∃ produced, (s.widen extra).produced env frames = .ok produced ∧
        rows = produced.map fun p => (p.1, []) := by
  rw [produced_eq_ok, h.contexts_unordered]
  constructor
  · rintro ⟨contexts, hcontexts, hrows⟩
    have hstep : Forall₂ (fun c row => ∃ p : List Value × List Value,
        ((s.widen extra).valuesAt env c = .ok p.1 ∧ (s.widen extra).keysAt env c = .ok p.2) ∧
          row = (p.1, [])) contexts rows := by
      refine forall₂_imp_mem hrows fun c row hc hrow => ?_
      obtain ⟨keys, hkeys, _⟩ := h.lifts.exists_keys h.hygienic h.exact h.nodup hsort hframes
        hcontexts hc hrow.1 frames
      exact ⟨(row.1, keys), ⟨hrow.1, hkeys⟩, Prod.ext rfl (Except.ok.inj hrow.2).symm⟩
    obtain ⟨produced, hproduced, hmap⟩ := forall₂_exists hstep
    refine ⟨produced, produced_eq_ok.2 ⟨contexts, hcontexts, hproduced⟩, ?_⟩
    rw [← map_eq_of_forall₂ hmap (g := id) fun _ _ h => h, map_id]
  · rintro ⟨produced, hproduced, rfl⟩
    obtain ⟨contexts, hcontexts, hrows⟩ := produced_eq_ok.1 hproduced
    exact ⟨contexts, hcontexts, forall₂_map_right_iff.2 (hrows.imp fun _ _ h => ⟨h.1, rfl⟩)⟩

theorem keyValues_lifted (hsort : ¬ s.Unsortable)
    (hframes : frames.Within scope) (hproduced : (s.widen extra).produced env frames = .ok produced)
    {p : List Value × List Value} (hp : p ∈ produced) (group : Option (List Row)) :
    keyValues env (sourceRow s.label (s.widen extra).headers p.1 :: frames) group lifted = .ok p.2 := by
  obtain ⟨contexts, hcontexts, c, hc, hvalues, hkeys⟩ := exists_context_of_produced hproduced hp
  obtain ⟨keys, hkeys', hlifted⟩ := h.lifts.exists_keys h.hygienic h.exact h.nodup hsort hframes
    hcontexts hc hvalues frames
  rw [hlifted group, Except.ok.inj (hkeys'.symm.trans hkeys)]

end

theorem eq_map_of_extends {rows' : KeyedRows} {width : Nat}
    (h : Forall₂ Extends rows rows') (hwidth : ∀ p ∈ rows, p.1.length = width) :
    rows = rows'.map fun p => (p.1.take width, p.2) := by
  have hcut : Forall₂ (fun p p' => p = (p'.1.take width, p'.2)) rows rows' := by
    refine forall₂_imp_mem h fun p p' hp hext => ?_
    obtain ⟨hkeys, more, hvalues⟩ := hext
    rw [hvalues, hkeys, ← hwidth p hp, take_left]
  rw [map_eq_of_forall₂ hcut (f := id) fun _ _ h => h.symm, map_id]

theorem produced_eq_ok (h : s.Layered scope extra lifted) (hsort : ¬ s.Unsortable) :
    s.produced env frames = .ok rows ↔
      ∃ produced, (s.widen extra).produced env frames = .ok produced ∧
        rows = produced.map fun p => (p.1.take s.columns.length, p.2) := by
  have hnumbers : ∀ e ∈ extra, e.value.isRowNumber = false := fun e he =>
    Bool.eq_false_iff.2 fun hn => hsort (h.lifts.widens.unsortable e he hn)
  have hcut : ∀ {produced}, (s.widen extra).produced env frames = .ok produced →
      s.produced env frames = .ok (produced.map fun p => (p.1.take s.columns.length, p.2)) := by
    intro produced hproduced
    obtain ⟨rows, hrows, hext⟩ := widen_produced hnumbers h.lifts.widens.grouped hproduced
    rw [hrows, eq_map_of_extends hext (produced_width hrows)]
  constructor
  · intro hrows
    obtain ⟨produced, hproduced⟩ := exists_widen_produced h.lifts.widens h.lifts.values hrows
    exact ⟨produced, hproduced, Except.ok.inj (hrows.symm.trans (hcut hproduced))⟩
  · rintro ⟨produced, hproduced, rfl⟩
    exact hcut hproduced

theorem uniqueRows_cut (h : s.Layered scope extra lifted)
    (hproduced : (s.widen extra).produced env frames = .ok produced) :
    uniqueRows s.distinct (produced.map fun p => (p.1.take s.columns.length, p.2)) =
      (uniqueRows s.distinct produced).map fun p => (p.1.take s.columns.length, p.2) := by
  cases hdistinct : s.distinct with
  | false => rfl
  | true =>
    have hextra : extra = [] := by
      by_contra hextra
      rw [h.lifts.plain hextra] at hdistinct
      cases hdistinct
    have hsame : ∀ p ∈ produced, (p.1.take s.columns.length, p.2) = p := by
      intro p hp
      have hwidth := produced_width hproduced p hp
      rw [hextra, widen, append_nil] at hwidth
      rw [← hwidth, take_length]
    rw [map_congr_left hsame, map_id']
    symm
    calc (uniqueRows true produced).map (fun p => (p.1.take s.columns.length, p.2))
        = (uniqueRows true produced).map id := map_congr_left fun p hp =>
          hsame p ((uniqueRows_sublist true produced).subset hp)
      _ = uniqueRows true produced := map_id _

theorem uniqueRows_map_unkeyed (distinct : Bool) (rows : KeyedRows) :
    uniqueRows distinct (rows.map fun p => (p.1, [])) =
      (uniqueRows distinct rows).map fun p => (p.1, []) := by
  have hrows : Forall₂ (fun (p q : List Value × List Value) => q = (p.1, [])) rows
      (rows.map fun p => (p.1, [])) :=
    forall₂_map_right_iff.2 (forall₂_same.2 fun _ _ => rfl)
  have hunique := uniqueRows_forall₂ (fun h => by rw [h]) distinct hrows
  rw [← map_eq_of_forall₂ hunique (g := id) fun _ _ h => h, map_id]

section

variable (h : s.Layered scope extra lifted)
include h

theorem delivered_unordered (hsort : ¬ s.Unsortable)
    (hframes : frames.Within scope) :
    ((s.widen extra).sortedBy []).delivered env frames = .ok rows ↔
      ∃ produced, (s.widen extra).produced env frames = .ok produced ∧
        rows = (uniqueRows s.distinct produced).map fun p => (p.1, []) := by
  have harrange : ∀ produced : KeyedRows,
      arrange s.distinct s.reverse [] (produced.map fun p => (p.1, [])) =
        (uniqueRows s.distinct produced).map fun p => (p.1, []) := by
    intro produced
    rw [h.reverse, ← uniqueRows_map_unkeyed]
    rfl
  rw [delivered_eq_ok_of_unpaged (s := (s.widen extra).sortedBy []) h.skip h.take]
  simp only [h.produced_unordered hsort hframes]
  constructor
  · rintro ⟨_, ⟨produced, hproduced, rfl⟩, rfl⟩
    exact ⟨produced, hproduced, harrange produced⟩
  · rintro ⟨produced, hproduced, rfl⟩
    exact ⟨_, ⟨produced, hproduced, rfl⟩, (harrange produced).symm⟩

theorem above_isLayer (ht : t.columns = s.columns)
    (skip take : Option Tree) :
    (t.pageAbove ((s.widen extra).sortedBy []) lifted skip take).IsLayer
      ((s.widen extra).sortedBy []) t.columns none := by
  have hnodup : ((s.widen extra).sortedBy []).headers.Nodup := h.lifts.nodup h.nodup
  refine Select.above_isLayer ⟨extra.map Column.name, ?_⟩ hnodup h.lifts.unaggregated skip take
  rw [Select.headers, Select.headers, ht]
  exact headers_widen s extra

section

variable (hsort : ¬ s.Unsortable) (hframes : frames.Within scope) (ht : t.columns = s.columns)
  (skip take : Option Tree)
include hsort hframes ht skip take

theorem produced_above
    (hproduced : (s.widen extra).produced env frames = .ok produced) :
    (t.pageAbove ((s.widen extra).sortedBy []) lifted skip take).produced env frames =
      .ok ((uniqueRows s.distinct produced).map fun p => (p.1.take s.columns.length, p.2)) := by
  have hrows := (h.delivered_unordered hsort hframes).2 ⟨produced, hproduced, rfl⟩
  have habove := (h.above_isLayer ht skip take).produced_of_unfiltered rfl hrows fun p hp =>
    h.keyValues_lifted hsort hframes hproduced ((uniqueRows_sublist s.distinct produced).subset hp) none
  rwa [ht] at habove

theorem run_above {r : Relation} :
    (t.pageAbove ((s.widen extra).sortedBy []) lifted skip take).run env frames = .ok r ↔
      ({ s with skip := skip, take := take } : Select Tree).run env frames = .ok r := by
  have hheaders : (t.above ((s.widen extra).sortedBy [])).headers = s.headers := by
    rw [headers_above, headers, ht, headers]
  have hsame : ∀ {produced}, (s.widen extra).produced env frames = .ok produced →
      (t.pageAbove ((s.widen extra).sortedBy []) lifted skip take).run env frames =
      ({ s with skip := skip, take := take } : Select Tree).run env frames := by
    intro produced hproduced
    have hcut : ({ s with skip := skip, take := take } : Select Tree).produced env frames =
        .ok (produced.map fun p => (p.1.take s.columns.length, p.2)) :=
      (h.produced_eq_ok hsort).2 ⟨produced, hproduced, rfl⟩
    have harrange : arrange s.distinct s.reverse s.directions
        (produced.map fun p => (p.1.take s.columns.length, p.2)) =
        arrange false false s.directions
          ((uniqueRows s.distinct produced).map fun p => (p.1.take s.columns.length, p.2)) := by
      rw [arrange_eq, arrange_eq, h.reverse, h.uniqueRows_cut hproduced]
      rfl
    have hdelivered : (t.pageAbove ((s.widen extra).sortedBy []) lifted skip take).delivered env frames =
        ({ s with skip := skip, take := take } : Select Tree).delivered env frames := by
      rw [delivered_of_produced (h.produced_above hsort hframes ht skip take hproduced),
        delivered_of_produced hcut]
      show _ = (do
        let skipped ← optionalCount env frames skip
        let taken ← optionalCount env frames take
        return page skipped taken (arrange s.distinct s.reverse s.directions _))
      rw [harrange, ← h.lifts.directions]
      rfl
    rw [run_eq, run_eq, hdelivered]
    show _ = (do
      let delivered ← ({ s with skip := skip, take := take } : Select Tree).delivered env frames
      return ⟨s.headers, delivered.map Prod.fst⟩ : Run Relation)
    rw [← hheaders]
    rfl
  constructor
  · intro hrun
    obtain ⟨rows, hrows, _⟩ := run_eq_ok.1 hrun
    obtain ⟨produced, _, _, hproduced, _⟩ := delivered_eq_ok.1 hrows
    obtain ⟨below, hbelow⟩ := (h.above_isLayer ht skip take).exists_delivered hproduced
    obtain ⟨produced, hproduced, _⟩ := (h.delivered_unordered hsort hframes).1 hbelow
    rwa [hsame hproduced] at hrun
  · intro hrun
    obtain ⟨rows, hrows, _⟩ := run_eq_ok.1 hrun
    obtain ⟨cut, _, _, hcut, _⟩ := delivered_eq_ok.1 hrows
    have hcut : s.produced env frames = .ok cut := hcut
    obtain ⟨produced, hproduced, _⟩ := (h.produced_eq_ok hsort).1 hcut
    rwa [hsame hproduced]

end

end

end Layered

/-! ## Layers that pass everything on -/

theorem wrap_isLayer (s : Select Tree) (unique : s.headers.Nodup) (a : Alias) :
    (s.wrap a).IsLayer (s.labelled a) s.columns none :=
  have hheaders : ∃ more, (s.labelled a).headers = s.headers ++ more := ⟨[], (append_nil _).symm⟩
  above_isLayer hheaders unique (nofun : ∀ key ∈ ([] : List (SortKey Tree)), _) none none

/-- Passing all columns of a select on through one more layer, under whatever alias, changes nothing. -/
theorem run_wrap (env : Environment) (frames : Frames) (s : Select Tree) (unique : s.headers.Nodup)
    (a : Alias) : (s.wrap a).run env frames = s.run env frames ∧ (s.wrap a).label = s.label := by
  refine ⟨?_, rfl⟩
  have hlayer := s.wrap_isLayer unique a
  have hinner : (s.labelled a).run env frames = s.run env frames := by
    cases s
    rfl
  cases hrows : s.delivered env frames with
  | error e =>
    have hrun : s.run env frames = .error e := by
      rw [run_eq, hrows]
      rfl
    rw [hrun, run_eq, delivered, produced, contexts, keptRows, hlayer.source, optionRows, Tree.rows, hinner, hrun]
    rfl
  | ok rows =>
    have hproduced : (s.wrap a).produced env frames =
        .ok (rows.map fun p => (p.1.take s.columns.length, [])) := by
      have hbelow : (s.labelled a).delivered env frames = .ok (rows.map id) := by
        rw [map_id, ← hrows]
        rfl
      exact hlayer.produced_of_unfiltered rfl hbelow fun p hp => rfl
    rw [run_eq_ok.2 ⟨rows, hrows, rfl⟩, run_eq_ok]
    refine ⟨_, (delivered_eq_produced rfl rfl rfl rfl rfl).trans hproduced, ?_⟩
    rw [wrap, headers_above, map_map]
    refine congrArg _ (map_congr_left fun p hp => ?_)
    exact (take_of_length_le (delivered_width hrows p hp).le).symm

/-- Numbered rows in reverse order without the last one, passed on under the alias of the table itself. -/
theorem run_wrap_numbered :
    let x : Tree := .column ⟨.int64, default, 0, "x"⟩
    let s : Select Tree :=
      { label := 1, columns := [⟨"x", x, default⟩, ⟨"n", .rowNumber [⟨.descending, x⟩], default⟩],
        source := some (.table 0 "t"), order := [⟨.ascending, x⟩], skip := some (.constant (.int 1)), reverse := true }
    (s.wrap 0).run ⟨[("t", ⟨["x"], [[.int 5], [.int 7], [.int 6]]⟩)], []⟩ [] =
      .ok ⟨["x", "n"], [[.int 6, .int 2], [.int 5, .int 3]]⟩ := by
  intro x s
  exact (run_wrap _ [] s (by decide) 0).1.trans (by rfl)

end Select

end HiveQuery
