import HiveQuery.Proofs.Sorting
import Mathlib.Data.List.Nodup

/-!
# How a select produces its rows

The run of a select in stages, each of which is a function of the select and of the rows around it.
-/

namespace HiveQuery

variable {cs : List (Column Tree)} {β : Type}
open List Run

variable {c : Column Tree} {env : Environment} {frames : Frames} {rows : List Row} {group : Option (List Row)}
  {s : Select Tree} {α : Type}

/-! ## Results of runs -/

def Run.values {α : Type} : Run (List α) → List α
  | .ok l => l
  | .error _ => []

/-- A filter gives a result if it has a value for every row. -/
theorem filterRows_eq_ok {keep : Row → Run Bool} {kept : List Row} :
    filterRows keep rows = .ok kept ↔
      ∃ marks, Forall₂ (fun row b => keep row = .ok b) rows marks ∧
        kept = ((rows.zip marks).filter Prod.snd).map Prod.fst := by
  induction rows generalizing kept with
  | nil => simp [filterRows, eq_comm]
  | cons row rows ih =>
    rw [filterRows, bind_eq_ok]
    constructor
    · rintro ⟨b, hb, h⟩
      obtain ⟨rest, hrest, h⟩ := bind_eq_ok.1 h
      obtain ⟨marks, hmarks, rfl⟩ := ih.1 hrest
      refine ⟨b :: marks, .cons hb hmarks, ?_⟩
      rw [pure_eq_ok.1 h]
      cases b <;> simp
    · rintro ⟨marks, hmarks, rfl⟩
      cases hmarks with
      | @cons _ b _ marks hb hmarks =>
        refine ⟨b, hb, bind_eq_ok.2 ⟨_, ih.2 ⟨marks, hmarks, rfl⟩, ?_⟩⟩
        rw [pure_eq_ok]
        cases b <;> simp

theorem heldRows_eq_ok {held : List Row} :
    heldRows rows = .ok held ↔ held = rows ∧ (rows.length : Int) ≤ greatestInt64 := by
  unfold heldRows
  split
  · next h => simp [h, eq_comm]
  · next h => simp [h]

/-! ## Stages -/

namespace Select

variable (env : Environment) (frames : Frames)

def directions (s : Select Tree) : List Direction :=
  s.order.map SortKey.direction

def keptRows (s : Select Tree) : Run (List Row) := do
  let all ← optionRows env frames s.source
  let kept ← filterRows (fun row => satisfies env (row :: frames) s.filter) all
  heldRows kept

def contexts (s : Select Tree) : Run (List Context) := do
  let rows ← s.keptRows env frames
  if s.isGrouped then
    let keys ← rows.mapM fun row => scalars env (row :: frames) none s.group
    return groupContexts frames s.sourceAliases (groupRows s.group.isEmpty keys rows)
  else
    let numbers ← rowNumbers env frames rows s.columns
    return rowContexts frames rows numbers

def valuesAt (s : Select Tree) (c : Context) : Run (List Value) :=
  columnValues env c.frames c.group c.numbers s.columns

def keysAt (s : Select Tree) (c : Context) : Run (List Value) :=
  keyValues env c.frames c.group s.order

def produced (s : Select Tree) : Run (List (List Value × List Value)) := do
  let contexts ← s.contexts env frames
  contexts.mapM fun c => do
    let values ← s.valuesAt env c
    let keys ← s.keysAt env c
    return (values, keys)

def delivered (s : Select Tree) : Run (List (List Value × List Value)) := do
  let produced ← s.produced env frames
  let skipped ← optionalCount env frames s.skip
  let taken ← optionalCount env frames s.take
  return page skipped taken (arrange s.distinct s.reverse s.directions produced)

end Select

theorem Select.sourceAliases_of_source {w : Select Tree} {u : Tree} (h : w.source = some u) :
    w.sourceAliases = u.sources := by
  rw [sourceAliases, h]
  rfl

/-- A run is its last stage. -/
theorem Select.run_eq (env : Environment) (frames : Frames) (s : Select Tree) :
    s.run env frames = do
      let delivered ← s.delivered env frames
      return ⟨s.headers, delivered.map Prod.fst⟩ := by
  obtain ⟨label, columns, source, filter, order, group, distinct, skip, take, reverse, cluster⟩ := s
  simp only [run, delivered, produced, contexts, keptRows, bind_assoc, pure_bind]
  refine bind_congr fun all => bind_congr fun kept => bind_congr fun rows => ?_
  split
  · simp only [bind_assoc, pure_bind]
    rfl
  · simp only [bind_assoc, pure_bind]
    rfl

theorem Select.run_eq_ok {r : Relation} :
    s.run env frames = .ok r ↔
      ∃ rows, s.delivered env frames = .ok rows ∧ r = ⟨s.headers, rows.map Prod.fst⟩ := by
  rw [run_eq, bind_eq_ok]
  exact exists_congr fun rows => and_congr_right fun _ => pure_eq_ok

theorem Tree.rows_select_eq_ok {i : Option Identity} {all : List Row} :
    (select s i).rows env frames = .ok all ↔
      ∃ rows, s.delivered env frames = .ok rows ∧
        all = rows.map fun p => sourceRow s.label s.headers p.1 := by
  simp only [rows, Select.run_eq, bind_assoc, pure_bind, bind_eq_ok, pure_eq_ok, Relation.bindRows, map_map]
  rfl

theorem Select.delivered_eq_ok {rows : KeyedRows} :
    s.delivered env frames = .ok rows ↔
      ∃ produced skipped taken, s.produced env frames = .ok produced ∧
        optionalCount env frames s.skip = .ok skipped ∧
        optionalCount env frames s.take = .ok taken ∧
        rows = page skipped taken (arrange s.distinct s.reverse s.directions produced) := by
  simp only [delivered, bind_eq_ok, pure_eq_ok, exists_and_left]

theorem Select.delivered_eq_ok_of_unpaged (hskip : s.skip = none) (htake : s.take = none)
    {rows : KeyedRows} :
    s.delivered env frames = .ok rows ↔
      ∃ produced, s.produced env frames = .ok produced ∧
        rows = arrange s.distinct s.reverse s.directions produced := by
  simp [delivered_eq_ok, hskip, htake, optionalCount, page]

theorem Select.delivered_of_produced {produced : KeyedRows}
    (h : s.produced env frames = .ok produced) :
    s.delivered env frames = (do
      let skipped ← optionalCount env frames s.skip
      let taken ← optionalCount env frames s.take
      return page skipped taken (arrange s.distinct s.reverse s.directions produced)) := by
  rw [delivered, h]
  rfl

theorem Select.delivered_eq_produced (horder : s.order = []) (hdistinct : s.distinct = false)
    (hskip : s.skip = none) (htake : s.take = none) (hreverse : s.reverse = false) :
    s.delivered env frames = s.produced env frames := by
  have harrange : ∀ rows : KeyedRows,
      page none none (arrange s.distinct s.reverse s.directions rows) = rows := by
    intro rows
    rw [directions, horder, hdistinct, hreverse]
    rfl
  rw [delivered, hskip, htake]
  simp only [optionalCount]
  show (s.produced env frames >>= fun rows => pure (page none none _)) = _
  simp only [harrange, bind_pure]

/-- Rows are produced one by one. -/
theorem Select.produced_eq_ok {produced : KeyedRows} :
    s.produced env frames = .ok produced ↔
      ∃ contexts, s.contexts env frames = .ok contexts ∧
        Forall₂ (fun c p => s.valuesAt env c = .ok p.1 ∧ s.keysAt env c = .ok p.2) contexts produced := by
  have step : ∀ c p, (do
      let values ← s.valuesAt env c
      let keys ← s.keysAt env c
      return (values, keys) : Run (List Value × List Value)) = .ok p ↔
      s.valuesAt env c = .ok p.1 ∧ s.keysAt env c = .ok p.2 := by
    rintro c ⟨values, keys⟩
    simp only [bind_eq_ok, pure_eq_ok, Prod.mk.injEq, ↓existsAndEq, and_true]
  simp only [Select.produced, bind_eq_ok, mapM_eq_ok, step]

theorem Select.keptRows_eq_ok :
    s.keptRows env frames = .ok rows ↔
      ∃ all, optionRows env frames s.source = .ok all ∧
        filterRows (fun row => satisfies env (row :: frames) s.filter) all = .ok rows ∧
        (rows.length : Int) ≤ greatestInt64 := by
  simp [keptRows, bind_eq_ok, heldRows_eq_ok]

theorem Select.contexts_eq_ok {contexts : List Context} :
    s.contexts env frames = .ok contexts ↔
      ∃ rows, s.keptRows env frames = .ok rows ∧
        ((s.isGrouped = true ∧
            ∃ keys, Forall₂ (fun row k => scalars env (row :: frames) none s.group = .ok k) rows keys ∧
              contexts = groupContexts frames s.sourceAliases
                (groupRows s.group.isEmpty keys rows)) ∨
          (s.isGrouped = false ∧
            ∃ numbers, rowNumbers env frames rows s.columns = .ok numbers ∧
              contexts = rowContexts frames rows numbers)) := by
  rw [Select.contexts, bind_eq_ok]
  refine exists_congr fun rows => and_congr_right fun _ => ?_
  cases s.isGrouped
  · simp only [Bool.false_eq_true, if_false, bind_eq_ok, pure_eq_ok, false_and, false_or, true_and]
  · simp only [if_true, bind_eq_ok, pure_eq_ok, mapM_eq_ok, true_and, Bool.true_eq_false, false_and, or_false]

theorem Select.produced_eq_ok_of_ungrouped (hgroup : s.isGrouped = false)
    {produced : KeyedRows} :
    s.produced env frames = .ok produced ↔
      ∃ rows numbers, s.keptRows env frames = .ok rows ∧
        rowNumbers env frames rows s.columns = .ok numbers ∧
        Forall₂ (fun (p : Row × Nat) q =>
          s.valuesAt env ⟨p.1 :: frames, none, numbers.map fun n => n[p.2]?⟩ = .ok q.1 ∧
            keyValues env (p.1 :: frames) none s.order = .ok q.2) rows.zipIdx produced := by
  simp only [produced_eq_ok, contexts_eq_ok, hgroup, Bool.false_eq_true, false_and, false_or, true_and]
  constructor
  · rintro ⟨_, ⟨rows, hrows, numbers, hnumbers, rfl⟩, h⟩
    exact ⟨rows, numbers, hrows, hnumbers, forall₂_map_left_iff.1 h⟩
  · rintro ⟨rows, numbers, hrows, hnumbers, h⟩
    exact ⟨_, ⟨rows, hrows, numbers, hnumbers, rfl⟩, forall₂_map_left_iff.2 h⟩

/-! ## Columns and keys -/

variable {env : Environment} {frames : Frames} {group : Option (List Row)}

def Tree.isRowNumber : Tree → Bool
  | .rowNumber _ => true
  | _ => false

theorem Tree.exists_rowNumber {t : Tree} (h : t.isRowNumber = true) : ∃ order, t = .rowNumber order := by
  cases t <;> first | exact ⟨_, rfl⟩ | cases h

def Tree.rowRanks (env : Environment) (frames : Frames) (rows : List Row) : Tree → Run (List Nat)
  | .rowNumber order => do
    let keys ← rows.mapM fun row => keyValues env (row :: frames) none order
    return ranks (order.map SortKey.direction) keys
  | _ => .ok []

theorem Tree.rowRanks_of_not {t : Tree} (h : t.isRowNumber = false) :
    t.rowRanks env frames rows = .ok [] := by
  cases t <;> first | rfl | cases h

theorem rowNumbers_eq (env : Environment) (frames : Frames) (rows : List Row) (cs : List (Column Tree)) :
    rowNumbers env frames rows cs = cs.mapM fun c => c.value.rowRanks env frames rows := by
  induction cs with
  | nil => rfl
  | cons c cs ih =>
    rw [mapM_cons, ← ih]
    obtain ⟨name, t, type⟩ := c
    cases t with
    | rowNumber order => simp only [rowNumbers, Tree.rowRanks, bind_assoc, pure_bind]
    | _ => rfl

theorem scalars_eq (env : Environment) (frames : Frames) (group : Option (List Row)) (ts : List Tree) :
    scalars env frames group ts = ts.mapM (Tree.scalar env frames group) := by
  induction ts with
  | nil => rfl
  | cons t ts ih => rw [scalars, ih, mapM_cons]

theorem keyValues_eq (env : Environment) (frames : Frames) (group : Option (List Row))
    (ks : List (SortKey Tree)) :
    keyValues env frames group ks = ks.mapM fun k => k.value.scalar env frames group := by
  induction ks with
  | nil => rfl
  | cons k ks ih => rw [keyValues, ih, mapM_cons]

theorem keyValues_cons_eq_ok {k : SortKey Tree} {ks : List (SortKey Tree)} {key : List Value} :
    keyValues env frames group (k :: ks) = .ok key ↔
      ∃ v vs, k.value.scalar env frames group = .ok v ∧
        keyValues env frames group ks = .ok vs ∧ key = v :: vs := by
  simp only [keyValues_eq, mapM_eq_ok, forall₂_cons_left_iff]

theorem columnValues_cons_eq_ok {numbers : List (Option Nat)} {values : List Value} :
    columnValues env frames group numbers (c :: cs) = .ok values ↔
      ∃ v vs, (match numbers.head?.join with
          | some n => pure (countValue n)
          | none => c.value.scalar env frames group : Run Value) = .ok v ∧
        columnValues env frames group numbers.tail cs = .ok vs ∧ values = v :: vs := by
  cases c
  rw [columnValues]
  cases numbers.head?.join <;> simp only [bind_eq_ok, pure_eq_ok, exists_and_left, exists_eq_left]

theorem keyValues_eq_ok {ks : List (SortKey Tree)} {key : List Value} :
    keyValues env frames group ks = .ok key ↔
      Forall₂ (fun (k : SortKey Tree) v => k.value.scalar env frames group = .ok v) ks key := by
  rw [keyValues_eq, mapM_eq_ok]

theorem columnValues_eq_ok {values : List Value} :
    columnValues env frames group [] cs = .ok values ↔
      Forall₂ (fun (c : Column Tree) v => c.value.scalar env frames group = .ok v) cs values := by
  induction cs generalizing values with
  | nil => simp [columnValues, eq_comm]
  | cons c cs ih =>
    simp only [columnValues_cons_eq_ok, forall₂_cons_left_iff, tail_nil, ih]
    rfl

theorem columnValues_pad (numbers : List (Option Nat)) (count : Nat) (cs : List (Column Tree)) :
    columnValues env frames group (numbers ++ replicate count none) cs =
      columnValues env frames group numbers cs := by
  induction cs generalizing numbers count with
  | nil => rfl
  | cons c cs ih =>
    cases c
    cases numbers with
    | cons n numbers =>
      simp only [columnValues, cons_append, head?_cons, tail_cons, ih]
    | nil =>
      cases count with
      | zero => rfl
      | succ count =>
        have h := ih [] count
        rw [nil_append] at h
        simp only [columnValues, nil_append, replicate_succ, head?_cons, tail_cons, head?_nil, tail_nil, h]
        rfl

/-! ## Selects without groups and numbers -/

theorem rowNumbers_of_unnumbered (h : ∀ c ∈ cs, c.value.isRowNumber = false) :
    rowNumbers env frames rows cs = .ok (replicate cs.length []) := by
  rw [rowNumbers_eq, mapM_eq_ok, ← map_const', forall₂_map_right_iff, forall₂_same]
  exact fun c hc => Tree.rowRanks_of_not (h c hc)

section

variable (hgroup : s.isGrouped = false) (hcolumns : ∀ c ∈ s.columns, c.value.isRowNumber = false)
include hgroup hcolumns

theorem Select.contexts_of_unnumbered :
    s.contexts env frames = (do
      let rows ← s.keptRows env frames
      return rows.map fun row => ⟨row :: frames, none, replicate s.columns.length none⟩) := by
  rw [contexts]
  refine bind_congr fun rows => ?_
  rw [hgroup, if_neg (by decide), rowNumbers_of_unnumbered hcolumns]
  show (pure (rowContexts frames rows (replicate s.columns.length [])) : Run _) = _
  congr 1
  have hrows : rows.map (fun row => (⟨row :: frames, none,
      replicate s.columns.length none⟩ : Context)) =
      rows.zipIdx.map ((fun row => ⟨row :: frames, none, replicate s.columns.length none⟩) ∘
        Prod.fst) := by
    rw [← map_map, zipIdx_map_fst]
  rw [hrows, rowContexts]
  simp

theorem Select.produced_eq_ok_of_unnumbered {produced : KeyedRows} :
    s.produced env frames = .ok produced ↔
      ∃ rows, s.keptRows env frames = .ok rows ∧
        Forall₂ (fun row p => columnValues env (row :: frames) none [] s.columns = .ok p.1 ∧
          keyValues env (row :: frames) none s.order = .ok p.2) rows produced := by
  have hpad : ∀ row : Row, s.valuesAt env ⟨row :: frames, none, replicate s.columns.length none⟩ =
      columnValues env (row :: frames) none [] s.columns := by
    intro row
    exact columnValues_pad [] s.columns.length s.columns
  rw [produced_eq_ok, contexts_of_unnumbered hgroup hcolumns]
  simp only [bind_eq_ok, pure_eq_ok, ← hpad]
  constructor
  · rintro ⟨_, ⟨rows, hrows, rfl⟩, h⟩
    exact ⟨rows, hrows, forall₂_map_left_iff.1 h⟩
  · rintro ⟨rows, hrows, h⟩
    exact ⟨_, ⟨rows, hrows, rfl⟩, forall₂_map_left_iff.2 h⟩

end

/-! ## Reading a column -/

theorem getElem?_findIdx?_of_find? {R : α → β → Prop} {l : List α} {l' : List β} (h : Forall₂ R l l')
    {p : α → Bool} {a : α} (ha : l.find? p = some a) :
    ∃ b, (l.findIdx? p).bind (fun i => l'[i]?) = some b ∧ R a b := by
  obtain ⟨hpa, i, hi, rfl, hbefore⟩ := find?_eq_some_iff_getElem.1 ha
  have hindex : l.findIdx? p = some i :=
    findIdx?_eq_some_iff_getElem.2 ⟨hi, hpa, fun j hj => by simpa using hbefore j hj⟩
  have hi' : i < l'.length := h.length_eq ▸ hi
  exact ⟨l'[i], by rw [hindex, Option.bind_some, getElem?_eq_getElem hi'], h.get hi hi'⟩

theorem Select.value?_of_forall₂ {R : Column Tree → Value → Prop} {values : List Value} (a : Alias)
    (h : Forall₂ R s.columns values) {name : String} (hc : s.column? name = some c) :
    ∃ v, Binding.value? ⟨a, s.headers, some values⟩ name = some v ∧ R c v := by
  obtain ⟨v, hv, hcv⟩ := getElem?_findIdx?_of_find? h hc
  refine ⟨v, ?_, hcv⟩
  rw [← hv]
  simp [Binding.value?, headers, findIdx?_map, Function.comp_def]

theorem Select.column?_of_mem (hnodup : s.headers.Nodup) (hc : c ∈ s.columns) :
    s.column? c.name = some c := by
  rw [column?]
  cases h : s.columns.find? fun d => d.name == c.name with
  | none => exact absurd (find?_eq_none.1 h c hc) (by simp)
  | some d =>
    have hname : d.name = c.name := by simpa using find?_some h
    rw [inj_on_of_nodup_map hnodup (mem_of_find?_eq_some h) hc hname]

end HiveQuery
