import HiveQuery.Proofs.SelectSoundness

/-!
# Refined sources give matching rows

What the rules for row sources and sides of joins say about runs, one lemma for each rule, stated over
what its premises say.
-/

namespace HiveQuery

variable {kind' : JoinKind} {l l' r r' : List Alias} {values : List Value} {x x' : Row}
  {right right' : Row → Run (List Row)} {condition condition' : Row → Run Bool} {s : Select Tree}
open List Select HiveQuery.Tree
variable {env : Environment} {k : Mode} {μ : Reads} {ν : ColumnMatch} {frames frames' : Frames} {total : Bool}
  {ν' : ColumnMatch} {kind : JoinKind}

/-! ## Single sources -/

theorem rowLookup?_sourceRow {a : Alias} {columns : List String} {c : ColumnRef} (h : c.label = a) :
    rowLookup? (sourceRow a columns values) c = Binding.value? ⟨a, columns, some values⟩ c.name := by
  simp [rowLookup?, sourceRow, h]

theorem value?_append {a b : Alias} {columns : List String} {name : String} {v : Value} (names : List String)
    (more : List Value) (h : Binding.value? ⟨a, columns, some values⟩ name = some v) :
    Binding.value? ⟨b, columns ++ names, some (values ++ more)⟩ name = some v := by
  obtain ⟨i, hi, hv⟩ := Option.bind_eq_some_iff.1 h
  refine Option.bind_eq_some_iff.2 ⟨i, ?_, ?_⟩
  · rw [findIdx?_append, hi, Option.some_or]
  · rwa [getElem?_append_left (List.getElem?_eq_some_iff.1 hv).1]

theorem RowMatch.extended (total : Bool) (a b : Alias) (columns names : List String)
    (values more : List Value) :
    RowMatch total [a] [b] sameName (sourceRow a columns values)
      (sourceRow b (columns ++ names) (values ++ more)) where
  labels := rfl
  labels' := rfl
  values := by
    intro c d hc hd hname v hv
    rw [rowLookup?_sourceRow (mem_singleton.1 hc)] at hv
    have hw := value?_append (b := b) names more hv
    rw [rowLookup?_sourceRow (mem_singleton.1 hd), hname, hw]
    exact ⟨fun _ => ⟨v, rfl⟩, fun w e => Option.some.inj e⟩

theorem sourceRows_match (a b : Alias) (headers : List String) (rows : List (List Value))
    (hν : ∀ c d, ν c d → d.name = c.name) :
    Forall₂ (RowMatch total [a] [b] ν) (rows.map (sourceRow a headers)) (rows.map (sourceRow b headers)) := by
  refine forall₂_map_iff.2 (forall₂_same.2 fun values _ => ?_)
  have hm := RowMatch.extended total a b headers [] values []
  rw [append_nil, append_nil] at hm
  exact hm.mono fun c d _ _ => hν c d

theorem table_holds (top : Bool) (a b : Alias) (name : String) :
    (Judgement.source top μ sameName (.table a name) (.table b name)).Holds env k := by
  intro frames frames' _ _
  refine ⟨?_, by rintro _ _ _ _ ⟨⟩⟩
  rw [rows, rows]
  cases env.dataset.lookup name with
  | none => exact .of_error
  | some table => exact .of_ok (sourceRows_match a b table.columns table.rows fun _ _ h => h)

theorem notSource_holds (top : Bool) {t u : Tree} (left : t.isSource = false) :
    (Judgement.source top μ ν t u).Holds env k := by
  intro frames frames' _ _
  constructor
  · cases t <;> first | exact .of_error | simp [isSource] at left
  · rintro _ _ _ _ rfl
    simp [isSource] at left

theorem widened_rows {s' : Select Tree} (extra : List (Column Tree)) (i j : Option Identity)
    (run : Run.Agree total Eq (s.run env frames) (s'.run env frames')) (widens : s'.Widens extra)
    (keys : total = true → ∀ e ∈ extra, ∃ key ∈ s'.order, key.value = e.value) :
    Run.Agree total (Forall₂ (RowMatch total [s.label] [s'.label] sameName))
      ((select s i).rows env frames) ((select (s'.widen extra) j).rows env frames') := by
  have hrun : Run.Agree total (fun r r' : Relation =>
      r'.headers = r.headers ++ extra.map Column.name ∧
        Forall₂ (fun v v' => ∃ more, v' = v ++ more) r.rows r'.rows)
      (s.run env frames) ((s'.widen extra).run env frames') := by
    intro r hr
    constructor
    · intro ht
      obtain ⟨r₁, hr₁⟩ := (run r hr).1 ht
      obtain ⟨rows, hrows, _⟩ := run_eq_ok.1 hr₁
      obtain ⟨rows', hrows'⟩ := exists_widen_delivered widens (keys ht) hrows
      exact ⟨_, run_eq_ok.2 ⟨rows', hrows', rfl⟩⟩
    · intro r' hr'
      obtain ⟨r₁, hr₁, h⟩ := widen_run widens hr'
      rwa [← (run r hr).2 r₁ hr₁] at h
  rw [rows, rows]
  refine hrun.bind fun r r' _ _ hr => .of_ok ?_
  refine forall₂_map_iff.2 (hr.2.imp ?_)
  rintro v _ ⟨more, rfl⟩
  rw [hr.1]
  exact .extended total s.label s'.label r.headers _ v more

/-- The rule for selects with more columns. -/
theorem widened_holds (top : Bool) {s' : Select Tree} (extra : List (Column Tree)) (i j : Option Identity)
    (select : (Judgement.select top μ s s').Holds env k) (plain : extra ≠ [] → s'.distinct = false)
    (values : ∀ e ∈ extra, (e.value.isRowNumber = true → s'.Unsortable) ∧
      (e.value.hasAggregate = true → s'.isGrouped = true))
    (total : k.total = true → ∀ e ∈ extra, ∃ key ∈ s'.order, key.value = e.value) :
    (Judgement.source top μ sameName (.select s i) (.select (s'.widen extra) j)).Holds env k := by
  intro frames frames' hframes fits
  rw [Tree.keyRanges] at fits
  have hselect := select hframes (fits_of_keyRanges fits)
  have hwidens : s'.Widens extra := ⟨plain, fun e he => (values e he).1, fun e he => (values e he).2⟩
  refine ⟨widened_rows extra i j hselect.run hwidens total, ?_⟩
  rintro _ _ _ _ ⟨⟩ ⟨⟩ hk hreverse rows rows' hrows hrows'
  rw [Tree.rows] at hrows
  obtain ⟨r, hr, _⟩ := bind_eq_ok.1 hrows
  obtain ⟨rows₁, hrows₁, hext⟩ := widen_delivered hwidens hrows'
  have hkeys : rows'.map Prod.snd = rows₁.map Prod.snd := map_eq_of_forall₂ hext fun _ _ h => h.1
  rw [hkeys]
  exact hselect.sorted hk hreverse hr hrows₁

/-! ## Joins -/

/-- The rows of the right side that go with a row of the left side and satisfy the condition, joined to
it. -/
def matchRow (right : Row → Run (List Row)) (condition : Row → Run Bool) (row : Row) :
    Run (List Row) := do
  let candidates ← right row
  filterRows condition (candidates.map (row ++ ·))

def joinRow (kind : JoinKind) (right : Row → Run (List Row)) (missing : Row)
    (condition : Row → Run Bool) (row : Row) : Run (List Row) := do
  let kept ← matchRow right condition row
  return if kept.isEmpty && kind.keepsUnmatched then [row ++ missing] else kept

theorem joinRows_eq (kind : JoinKind) (left : List Row) (right : Row → Run (List Row)) (missing : Row)
    (condition : Row → Run Bool) :
    joinRows kind left right missing condition = (do
      let joined ← left.mapM (joinRow kind right missing condition)
      return joined.flatten) := by
  have hrow : joinRow kind right missing condition = fun l => (do
      let candidates ← right l
      let kept ← filterRows condition (candidates.map (l ++ ·))
      return if kept.isEmpty && kind.keepsUnmatched then [l ++ missing] else kept) := by
    funext row
    rw [joinRow, matchRow]
    cases right row <;> rfl
  rw [hrow]
  rfl

/-- Joins of matching rows match. -/
theorem joinRows_agree {new new' : List Alias} {P : Row → Row → Prop} {left left' : List Row}
    {missing missing' : Row} (hleft : Forall₂ P left left')
    (hrow : ∀ x x', x ∈ left → P x x' → Run.Agree total (Forall₂ (RowMatch total new new' ν))
      (joinRow kind right missing condition x) (joinRow kind' right' missing' condition' x')) :
    Run.Agree total (Forall₂ (RowMatch total new new' ν)) (joinRows kind left right missing condition)
      (joinRows kind' left' right' missing' condition') := by
  rw [joinRows_eq, joinRows_eq]
  exact (Run.Agree.mapM hleft hrow).bind fun rows rows' _ _ h => .of_ok (rel_flatten h)

theorem unmatched_forall₂ {kept kept' : List Row} (hkind : kind'.keepsUnmatched = kind.keepsUnmatched)
    (hx : RowMatch total l l' ν x x')
    (hkept : Forall₂ (RowMatch total (l ++ r) (l' ++ r') (joinMatch l l' ν ν')) kept kept') :
    Forall₂ (RowMatch total (l ++ r) (l' ++ r') (joinMatch l l' ν ν'))
      (if kept.isEmpty && kind.keepsUnmatched then [x ++ nullRow r] else kept)
      (if kept'.isEmpty && kind'.keepsUnmatched then [x' ++ nullRow r'] else kept') := by
  rw [isEmpty_eq_of_length_eq hkept.length_eq.symm, hkind]
  split
  · exact .cons (hx.append (.null total r r' ν')) .nil
  · exact hkept

section Rows

variable (hx : RowMatch total l l' ν x x')
  (hright : Run.Agree total (Forall₂ (RowMatch total r r' ν')) (right x) (right' x'))
  (hcondition : ∀ y z, y ∈ (right x).values → RowMatch total (l ++ r) (l' ++ r') (joinMatch l l' ν ν') (x ++ y) z →
    Run.Agree total Eq (condition (x ++ y)) (condition' z))
include hx hright hcondition

theorem matchRow_agree :
    Run.Agree total (Forall₂ (RowMatch total (l ++ r) (l' ++ r') (joinMatch l l' ν ν')))
      (matchRow right condition x) (matchRow right' condition' x') := by
  refine hright.bind fun ys ys' hys _ hy => ?_
  have hjoined : Forall₂ (RowMatch total (l ++ r) (l' ++ r') (joinMatch l l' ν ν'))
      (ys.map (x ++ ·)) (ys'.map (x' ++ ·)) :=
    forall₂_map_iff.2 (hy.imp fun _ _ h => hx.append h)
  refine Run.Agree.filterRows hjoined fun row row' hrow hz => ?_
  obtain ⟨y, hy, rfl⟩ := mem_map.1 hrow
  exact hcondition y row' (by rw [hys]; exact hy) hz

theorem joinRow_agree (hkind : kind'.keepsUnmatched = kind.keepsUnmatched) :
    Run.Agree total (Forall₂ (RowMatch total (l ++ r) (l' ++ r') (joinMatch l l' ν ν')))
      (joinRow kind right (nullRow r) condition x)
      (joinRow kind' right' (nullRow r') condition' x') :=
  (matchRow_agree hx hright hcondition).bind fun _ _ _ _ hkept =>
    .of_ok (unmatched_forall₂ hkind hx hkept)

end Rows

theorem Tree.rows_apply (h : kind.isApply = true) (l r : Tree) (c : Option Tree) (i : Option Identity) :
    (join ⟨kind, l, r, c⟩ i).rows env frames = (do
      let left ← l.rows env frames
      joinRows kind left (fun row => r.rows env (row :: frames)) (nullRow r.sources)
        (fun row => satisfies env (row :: frames) c)) := by
  rw [rows]
  simp only [h, if_true]

theorem Tree.rows_join (h : kind.isApply = false) (l r : Tree) (c : Option Tree) (i : Option Identity) :
    (join ⟨kind, l, r, c⟩ i).rows env frames = (do
      let left ← l.rows env frames
      let right ← r.rows env frames
      joinRows kind left (fun _ => .ok right) (nullRow r.sources)
        (fun row => satisfies env (row :: frames) c)) := by
  rw [rows]
  simp only [h, Bool.false_eq_true, if_false]

theorem joined_agree (kind : JoinKind) {l r l' r' : Tree} {c c' : Option Tree} (i j : Option Identity)
    (left : Run.Agree total (Forall₂ (RowMatch total l.sources l'.sources ν)) (l.rows env frames)
      (l'.rows env frames'))
    (applied : kind.isApply = true → ∀ {x x'}, x ∈ (l.rows env frames).values →
      RowMatch total l.sources l'.sources ν x x' →
      Run.Agree total (Forall₂ (RowMatch total r.sources r'.sources ν'))
        (r.rows env (x :: frames)) (r'.rows env (x' :: frames')))
    (joined : kind.isApply = false →
      Run.Agree total (Forall₂ (RowMatch total r.sources r'.sources ν'))
        (r.rows env frames) (r'.rows env frames'))
    (condition : ∀ {x y z}, x ∈ (l.rows env frames).values →
      y ∈ (r.rows env (if kind.isApply then x :: frames else frames)).values →
      RowMatch total (l.sources ++ r.sources) (l'.sources ++ r'.sources)
        (joinMatch l.sources l'.sources ν ν') (x ++ y) z →
      Run.Agree total Eq (satisfies env ((x ++ y) :: frames) c) (satisfies env (z :: frames') c')) :
    Run.Agree total
      (Forall₂ (RowMatch total (l.sources ++ r.sources) (l'.sources ++ r'.sources)
        (joinMatch l.sources l'.sources ν ν')))
      ((join ⟨kind, l, r, c⟩ i).rows env frames)
      ((join ⟨kind, l', r', c'⟩ j).rows env frames') := by
  cases hkind : kind.isApply with
  | true =>
    simp only [hkind, if_true] at condition
    rw [rows_apply hkind, rows_apply hkind]
    refine left.bind fun lefts lefts' hl _ hlefts => joinRows_agree hlefts fun x x' hx hm => ?_
    have hx : x ∈ (l.rows env frames).values := by
      rw [hl]
      exact hx
    exact joinRow_agree hm (applied hkind hx hm) (fun y z hy hz => condition hx hy hz) rfl
  | false =>
    simp only [hkind, Bool.false_eq_true, if_false] at condition
    rw [rows_join hkind, rows_join hkind]
    refine left.bind fun lefts lefts' hl _ hlefts => ?_
    refine (joined hkind).bind fun rights rights' hr _ hrights => ?_
    refine joinRows_agree hlefts fun x x' hx hm => joinRow_agree hm (.of_ok hrights) (fun y z hy hz => ?_) rfl
    exact condition (by rw [hl]; exact hx) (by rw [hr]; exact hy) hz

/-- The rule for joins. -/
theorem joined_holds (top : Bool) (kind : JoinKind) {l r l' r' : Tree} {c c' : Option Tree}
    (i j : Option Identity) (left : (Judgement.side μ ν l l').Holds env k)
    (right : (Judgement.side
      (if kind.isApply then μ.within l.sources l'.sources ν else μ) ν' r r').Holds env k)
    (form : c'.isSome = c.isSome)
    (condition : ∀ t u, c = some t → c' = some u →
      (Judgement.scalar (μ.within (l.sources ++ r.sources) (l'.sources ++ r'.sources)
        (joinMatch l.sources l'.sources ν ν')) t u).Holds env k) :
    (Judgement.source top μ (joinMatch l.sources l'.sources ν ν')
      (.join ⟨kind, l, r, c⟩ i) (.join ⟨kind, l', r', c'⟩ j)).Holds env k := by
  intro frames frames' hframes fits
  simp only [Tree.keyRanges, fits_append] at fits
  obtain ⟨⟨fleft, fright⟩, fcondition⟩ := fits
  refine ⟨joined_agree kind i j (left hframes fleft) ?_ ?_ ?_, by rintro _ _ _ _ ⟨⟩⟩
  · intro hkind x x' hx hm
    simp only [hkind, if_true] at right fright
    exact right (hframes.within hm) (fits_append.1 (fright.of_flatMap hx)).2
  · intro hkind
    simp only [hkind, Bool.false_eq_true, if_false] at right fright
    exact right hframes fright
  · intro x y z hx hy hz
    refine satisfies_agree form fun t u ht hu => ?_
    have h := (fcondition.of_flatMap hx).of_flatMap hy
    rw [ht] at h
    exact condition t u ht hu (hframes.within hz) .none h

/-! ## Joins in selects -/

theorem filterRows_true (rows : List Row) : filterRows (fun _ => .ok true) rows = .ok rows := by
  induction rows with
  | nil => rfl
  | cons row rows ih =>
    rw [filterRows, ih]
    rfl

theorem Select.IsBare.delivered_eq_ok (h : s.IsBare) {rows : KeyedRows}
    (hrows : s.delivered env frames = .ok rows) :
    ∃ all, optionRows env frames s.source = .ok all ∧
      Forall₂ (fun row p => columnValues env (row :: frames) none [] s.columns = .ok p.1) all rows := by
  rw [delivered_eq_produced h.order h.distinct h.skip h.take h.reverse] at hrows
  obtain ⟨kept, hkept, hproduced⟩ := (produced_eq_ok_of_unnumbered h.group h.columns).1 hrows
  obtain ⟨all, hall, hfilter, _⟩ := keptRows_eq_ok.1 hkept
  rw [h.filter] at hfilter
  have hsame : all = kept := Except.ok.inj ((filterRows_true all).symm.trans hfilter)
  exact ⟨all, hall, hsame ▸ hproduced.imp fun _ _ hp => hp.1⟩

theorem Select.passes_sameLookup {new : List Alias} {w : Select Tree} {row row' : Row} {c d : ColumnRef}
    (a : Alias) (hvalues : columnValues env (row' :: frames') none [] w.columns = .ok values)
    (hm : RowMatch total new w.sourceAliases ν row row') (hc : c.label ∈ new) (hd : w.passes ν c d) :
    SameLookup total (rowLookup? row c) (Binding.value? ⟨a, w.headers, some values⟩ d.name) := by
  obtain ⟨col, e, hcol, hcole, he, hce⟩ := hd
  obtain ⟨v, hv, hcv⟩ := value?_of_forall₂ a (columnValues_eq_ok.1 hvalues) hcol
  rw [hcole, scalar, lookup?_cons_of_mem (by rwa [hm.labels'])] at hcv
  have hlookup : rowLookup? row' e = some v := by
    cases hlookup : rowLookup? row' e with
    | none => rw [hlookup] at hcv; cases hcv
    | some v' => rw [hlookup] at hcv; cases hcv; rfl
  rw [hv, ← hlookup]
  exact hm.values hc he hce

/-- The rule for joins that were put into a select. -/
theorem wrapped_holds {t u : Tree} {w : Select Tree} (i : Option Identity)
    (partly : k.total = false) (source : (Judgement.source false μ ν t u).Holds env k)
    (reads : w.source = some u) (bare : w.IsBare) :
    (Judgement.side μ (w.passes ν) t (.select w i)).Holds env k := by
  intro frames frames' hframes fits rows hrows
  refine ⟨fun ht => absurd ht (by simp [partly]), fun rows' hrows' => ?_⟩
  obtain ⟨delivered, hdelivered, rfl⟩ := rows_select_eq_ok.1 hrows'
  obtain ⟨all, hall, hvalues⟩ := bare.delivered_eq_ok hdelivered
  rw [reads] at hall
  have hmatch := ((source hframes fits).rows rows hrows).2 all hall
  rw [← sourceAliases_of_source reads] at hmatch
  refine forall₂_map_right_iff.2 (forall₂_trans hmatch hvalues fun row row' p hm hv => ?_)
  refine ⟨hm.labels, rfl, fun {c d} hc hd hcd => ?_⟩
  rw [rowLookup?_sourceRow (mem_singleton.1 hd)]
  exact passes_sameLookup w.label hv hm hc hcd

end HiveQuery
