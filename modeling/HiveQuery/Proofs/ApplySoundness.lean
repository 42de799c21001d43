import HiveQuery.Proofs.SourceSoundness

/-!
# Applies that became joins

An apply computes its right side anew for each left row, a join once and without the filter. The rows that go with a
left row are the same: leaving rows out before they are put in order is leaving them out afterwards.
-/

namespace HiveQuery

variable {values : List Value} {s : Select Tree}
open List Select Run

variable {env : Environment} {k : Mode} {μ : Reads} {ν ν₀ : ColumnMatch} {frames frames' : Frames}

/-! ## Kinds and conditions -/

theorem appliedJoin_isApply {kind : JoinKind} (c : Option Tree) : (appliedJoin kind c).1.isApply = false := by
  cases kind <;> cases c <;> rfl

theorem appliedJoin_keepsUnmatched {kind : JoinKind} (h : kind.isApply = true) (c : Option Tree) :
    (appliedJoin kind c).1.keepsUnmatched = kind.keepsUnmatched := by
  cases kind <;> cases c <;> first | rfl | simp [JoinKind.isApply] at h

theorem satisfies_appliedJoin (kind : JoinKind) (c : Option Tree) (frames : Frames) :
    satisfies env frames (appliedJoin kind c).2 = satisfies env frames c := by
  cases kind <;> cases c <;> rfl

/-- The rule for applies whose right side reads nothing from the left. -/
theorem uncorrelated_holds {ν' : ColumnMatch} (top : Bool) (kind : JoinKind) {l r l' r' : Tree}
    (i j : Option Identity) (partly : k.total = false) (apply : kind.isApply = true)
    (left : (Judgement.side μ ν l l').Holds env k)
    (right : (Judgement.side (μ.beyond l.sources) ν' r r').Holds env k) :
    (Judgement.source top μ (joinMatch l.sources l'.sources ν ν') (.join ⟨kind, l, r, none⟩ i)
      (.join ⟨(appliedJoin kind none).1, l', r', (appliedJoin kind none).2⟩ j)).Holds env k := by
  intro frames frames' hframes fits
  simp only [Tree.keyRanges, fits_append, apply, if_true] at fits
  refine ⟨?_, by rintro _ _ _ _ ⟨⟩⟩
  rw [Tree.rows_apply apply, Tree.rows_join (appliedJoin_isApply none)]
  refine (left hframes fits.1.1).bind fun lefts lefts' hl _ hlefts => ?_
  intro rows hrows
  refine ⟨fun ht => absurd ht (by simp [partly]), fun rows' hrows' => ?_⟩
  obtain ⟨rights', hr', hrows'⟩ := bind_eq_ok.1 hrows'
  refine ((joinRows_agree hlefts fun x x' hmem hx => ?_) rows hrows).2 rows' hrows'
  refine joinRow_agree hx ?_ (fun y z _ _ => ?_) (appliedJoin_keepsUnmatched apply none)
  · rw [hl] at fits
    have h := right (hframes.beyond hx.labels) (fits_append.1 (fits.1.2.of_flatMap hmem)).2
    rwa [hr'] at h
  · rw [satisfies_appliedJoin]
    exact .of_ok rfl

/-! ## Filters as conditions -/

/-- A filter reads the same inside of the right side and as a join condition. -/
theorem FramesMatch.pulled {total : Bool} {l l' : List Alias} {s' : Select Tree} {x x' row row' : Row}
    (hframes : FramesMatch total μ frames frames') (hx : RowMatch total l l' ν x x')
    (hrow : RowMatch total s.sourceAliases s'.sourceAliases ν₀ row row')
    (hvalues : columnValues env (row' :: frames') none [] s'.columns = .ok values) :
    FramesMatch total (μ.pulled l l' ν s s' ν₀) (row :: x :: frames)
      ((x' ++ sourceRow s'.label s'.headers values) :: frames') := by
  have hlabels : (x' ++ sourceRow s'.label s'.headers values).map Binding.label = l' ++ [s'.label] := by
    rw [map_append, hx.labels']
    rfl
  refine ⟨(hframes.left.cons hx.labels).cons hrow.labels, hframes.right.cons hlabels, ?_⟩
  rintro c d hc hd (⟨hcs, hdl, hds, hcd⟩ | ⟨hcs, hcl, hdl, hcd⟩ | ⟨hcs, hcl, hdl, hds, hcd⟩)
  · rw [lookup?_cons_of_mem (by rwa [hrow.labels]),
      lookup?_cons_of_mem (by rw [hlabels]; exact mem_append_right _ (by simp [hds])),
      rowLookup?_append_of_not_mem (by rwa [hx.labels']), rowLookup?_sourceRow hds]
    exact passes_sameLookup s'.label hvalues hrow hcs hcd
  · rw [lookup?_cons_of_not_mem (by rwa [hrow.labels]), lookup?_cons_of_mem (by rwa [hx.labels]),
      lookup?_cons_of_mem (by rw [hlabels]; exact mem_append_left _ hdl),
      rowLookup?_append_of_mem (by rwa [hx.labels'])]
    exact hx.values hcl hdl hcd
  · have hd' : d.label ∉ l' ++ [s'.label] := by simp [hdl, hds]
    rw [lookup?_cons_of_not_mem (by rwa [hrow.labels]), lookup?_cons_of_not_mem (by rwa [hx.labels]),
      lookup?_cons_of_not_mem (by rwa [hlabels])]
    refine hframes.values ?_ ((mem_append.1 hd).resolve_left hd') hcd
    exact (mem_append.1 ((mem_append.1 hc).resolve_left hcs)).resolve_left hcl

def Run.isTrue : Run Bool → Bool
  | .ok b => b
  | .error _ => false

theorem filterRows_eq_filter {keep : Row → Run Bool} {rows kept : List Row}
    (h : filterRows keep rows = .ok kept) :
    (∀ row ∈ rows, ∃ b, keep row = .ok b) ∧ kept = rows.filter fun row => (keep row).isTrue := by
  induction rows generalizing kept with
  | nil =>
    cases h
    exact ⟨fun _ h => absurd h not_mem_nil, rfl⟩
  | cons row rows ih =>
    rw [filterRows] at h
    obtain ⟨b, hb, h⟩ := bind_eq_ok.1 h
    obtain ⟨rest, hrest, h⟩ := bind_eq_ok.1 h
    obtain ⟨hall, rfl⟩ := ih hrest
    refine ⟨fun r hr => ?_, ?_⟩
    · rcases mem_cons.1 hr with rfl | hr
      · exact ⟨b, hb⟩
      · exact hall r hr
    · rw [pure_eq_ok.1 h, filter_cons, hb]
      rfl

/-! ## The right side for one left row -/

theorem Select.isPlain_iff :
    s.isPlain = true ↔ s.skip = none ∧ s.take = none ∧ s.distinct = false ∧ s.group = [] ∧
      s.hasAggregates = false := by
  simp [isPlain, and_assoc]

theorem Select.isPlain_of_pullsFrom {sources : List Alias} (h : s.pullsFrom sources = true) : s.isPlain = true := by
  simp only [pullsFrom, Bool.and_eq_true] at h
  exact h.1.2

theorem Select.isGrouped_of_plain (plain : s.isPlain = true) : s.isGrouped = false := by
  obtain ⟨_, _, _, hgroup, haggregates⟩ := isPlain_iff.1 plain
  simp [isGrouped, hgroup, haggregates]

theorem Select.delivered_of_plain (plain : s.isPlain = true)
    (unnumbered : ∀ d ∈ s.columns, d.value.isRowNumber = false) {rows : KeyedRows}
    (h : s.delivered env frames = .ok rows) :
    ∃ all produced, optionRows env frames s.source = .ok all ∧
      s.keptRows env frames = .ok (all.filter fun row => (satisfies env (row :: frames) s.filter).isTrue) ∧
      (∀ row ∈ all, ∃ b, satisfies env (row :: frames) s.filter = .ok b) ∧
      Forall₂ (fun row p => columnValues env (row :: frames) none [] s.columns = .ok p.1 ∧
          keyValues env (row :: frames) none s.order = .ok p.2)
        (all.filter fun row => (satisfies env (row :: frames) s.filter).isTrue) produced ∧
      rows = arrange false s.reverse s.directions produced := by
  obtain ⟨hskip, htake, hdistinct, _, _⟩ := isPlain_iff.1 plain
  have hgrouped := isGrouped_of_plain plain
  obtain ⟨produced, hp, rfl⟩ := (delivered_eq_ok_of_unpaged hskip htake).1 h
  obtain ⟨kept, hkept, hproduced⟩ := (produced_eq_ok_of_unnumbered hgrouped unnumbered).1 hp
  obtain ⟨all, hall, hfilter, _⟩ := keptRows_eq_ok.1 hkept
  obtain ⟨htests, rfl⟩ := filterRows_eq_filter hfilter
  exact ⟨all, produced, hall, hkept, htests, hproduced, by rw [hdistinct]⟩

structure Select.FitsUnfiltered (env : Environment) (k : Mode) (frames : Frames) (s : Select Tree) :
    Prop where
  keys : ∀ row ∈ (optionRows env frames s.source).values, ∀ d ∈ s.order,
    HiveQuery.Fits k (d.value.keyRanges env k.applies (row :: frames) none)
  own : ∀ {all}, optionRows env frames s.source = .ok all → ∀ d ∈ s.order,
    ∃ values, all.mapM (fun row => d.value.scalar env (row :: frames) none) = .ok values ∧
      Sortable values

theorem Select.fitsUnfiltered {i : Option Identity} {l : List Alias} (applies : k.applies = true)
    (pulled : s.pullsFrom l = true) (h : HiveQuery.Fits k ((Tree.select s i).unfilteredRanges env l frames)) :
    s.FitsUnfiltered env k frames := by
  obtain ⟨label, columns, source, filter, order, group, distinct, skip, take, reverse, cluster⟩ := s
  simp only [Tree.unfilteredRanges, pulled, if_true, fits_append] at h
  refine ⟨fun row hrow d hd => ?_, fun {all} hall d hd => ?_⟩
  · have hkeys := h.1.of_flatMap hrow
    rw [sortRanges_eq] at hkeys
    rw [applies]
    exact hkeys.of_flatMap hd
  · obtain ⟨values, hvalues, hsortable⟩ := h.2.unfiltered applies _ (mem_map.2 ⟨d, hd, rfl⟩) rfl
    rw [show optionRows env frames source = .ok all from hall] at hvalues
    exact ⟨values, hvalues, hsortable⟩

/-- A select on the right of an apply and one that does without its filter, in terms of what their
clauses are said to compute. -/
structure PullsFilter (H : Judgement → Prop) (μ : Reads) (l l' : List Alias) (ν ν₀ : ColumnMatch)
    (s s' : Select Tree) (c : Option Tree) (columns extra : List (Column Tree)) : Prop where
  pulled : s.pullsFrom l = true
  plain' : s'.isPlain = true
  filter : s'.filter = none
  reverse : s'.reverse = s.reverse
  split : s'.columns = columns ++ extra
  names : columns.map Column.name = s.headers
  unnumbered : ∀ d ∈ s.columns, d.value.isRowNumber = false
  unnumbered' : ∀ d ∈ s'.columns, d.value.isRowNumber = false
  form : s'.source.isSome = s.source.isSome
  source : ∀ t u, s.source = some t → s'.source = some u → H (.source true (μ.beyond l) ν₀ t u)
  values : ∀ p ∈ s.columns.zip columns,
    H (.scalar ((μ.beyond l).within s.sourceAliases s'.sourceAliases ν₀) p.1.value p.2.value)
  directions : s'.directions = s.directions
  keys : ∀ p ∈ s.order.zip s'.order,
    H (.scalar ((μ.beyond l).within s.sourceAliases s'.sourceAliases ν₀) p.1.value p.2.value)
  pulls : c.isSome = s.filter.isSome
  condition : ∀ t u, s.filter = some t → c = some u → H (.scalar (μ.pulled l l' ν s s' ν₀) t u)

namespace PullsFilter

variable {l l' : List Alias} {s s' : Select Tree} {c : Option Tree} {columns extra : List (Column Tree)}
  {x x' row row' : Row}

variable (h : PullsFilter (Judgement.Holds env k) μ l l' ν ν₀ s s' c columns extra)
  (hframes : FramesMatch k.total μ frames frames') (hx : RowMatch k.total l l' ν x x')
include h hframes hx

theorem test_agree (fits : s.Fits env k (x :: frames))
    (hmem : row ∈ (optionRows env (x :: frames) s.source).values)
    (hrow : RowMatch k.total s.sourceAliases s'.sourceAliases ν₀ row row')
    (hvalues : columnValues env (row' :: frames') none [] s'.columns = .ok values) :
    Agree k.total Eq (satisfies env (row :: x :: frames) s.filter)
      (satisfies env ((x' ++ sourceRow s'.label s'.headers values) :: frames') c) := by
  refine satisfies_agree h.pulls fun t u ht hu => ?_
  exact h.condition t u ht hu (hframes.pulled hx hrow hvalues) .none (fits.filter hmem ht)

theorem values_extend (hrow : RowMatch k.total s.sourceAliases s'.sourceAliases ν₀ row row')
    (fits : ∀ d ∈ s.columns, Fits k (d.value.keyRanges env k.applies (row :: x :: frames) none))
    {values' : List Value} (hvalues : columnValues env (row :: x :: frames) none [] s.columns = .ok values)
    (hvalues' : columnValues env (row' :: frames') none [] s'.columns = .ok values') :
    ∃ more, values' = values ++ more := by
  rw [h.split, columnValues_append] at hvalues'
  obtain ⟨first, hfirst, hvalues'⟩ := bind_eq_ok.1 hvalues'
  obtain ⟨more, _, hvalues'⟩ := bind_eq_ok.1 hvalues'
  have hlen : s.columns.length = columns.length := (length_eq_of_map_eq h.names).symm
  have hagree : Agree k.total Eq (columnValues env (row :: x :: frames) none [] s.columns)
      (columnValues env (row' :: frames') none [] columns) := by
    refine columnValues_agree [] (forall₂_iff_zip.2 ⟨hlen, fun hp => ?_⟩)
    exact h.values _ hp ((hframes.beyond hx.labels).within hrow) .none (fits _ (of_mem_zip hp).1)
  exact ⟨more, (hagree values hvalues).2 first hfirst ▸ pure_eq_ok.1 hvalues'⟩

theorem keys_agree (hrow : RowMatch k.total s.sourceAliases s'.sourceAliases ν₀ row row')
    (fits : ∀ d ∈ s.order, Fits k (d.value.keyRanges env k.applies (row :: x :: frames) none)) :
    Agree k.total Eq (keyValues env (row :: x :: frames) none s.order)
      (keyValues env (row' :: frames') none s'.order) := by
  have hlen : s.order.length = s'.order.length := (length_eq_of_map_eq h.directions).symm
  refine keyValues_agree (forall₂_iff_zip.2 ⟨hlen, fun hp => ?_⟩)
  exact h.keys _ hp ((hframes.beyond hx.labels).within hrow) .none (fits _ (of_mem_zip hp).1)

theorem comparable {all all' : List Row} {produced : KeyedRows}
    (hall : Forall₂ (RowMatch k.total s.sourceAliases s'.sourceAliases ν₀) all all')
    (hkeys : Forall₂ (fun row p => keyValues env (row :: frames') none s'.order = .ok p.2) all' produced)
    (fits : ∀ row ∈ all, ∀ d ∈ s.order, Fits k (d.value.keyRanges env k.applies (row :: x :: frames) none))
    (hown : ∀ d ∈ s.order, ∃ values,
      all.mapM (fun row => d.value.scalar env (row :: x :: frames) none) = .ok values ∧ Sortable values) :
    Comparable (produced.map Prod.snd) := by
  have hleft : ∀ row ∈ all, ∃ key, keyValues env (row :: x :: frames) none s.order = .ok key := by
    intro row hrow
    obtain ⟨key, hkey⟩ := exists_forall₂ fun d hd => by
      obtain ⟨values, hvalues, _⟩ := hown d hd
      obtain ⟨v, _, hv⟩ := forall₂_mem_left (mapM_eq_ok.1 hvalues) hrow
      exact ⟨v, hv⟩
    exact ⟨key, keyValues_eq_ok.2 hkey⟩
  have hmatch : Forall₂ (fun row (p : List Value × List Value) =>
      keyValues env (row :: x :: frames) none s.order = .ok p.2) all produced := by
    refine forall₂_trans (forall₂_imp_mem hall fun row row' hmem hm => And.intro hmem hm) hkeys ?_
    rintro row row' p ⟨hmem, hm⟩ hp
    obtain ⟨key, hkey⟩ := hleft row hmem
    rw [hkey, (h.keys_agree hframes hx hm (fits row hmem) key hkey).2 p.2 hp]
  have hcontexts : Forall₂ (fun (c : Context) key =>
      keyValues env c.frames c.group s.order = .ok key)
      (all.map fun row => ⟨row :: x :: frames, none, []⟩) (produced.map Prod.snd) :=
    forall₂_map_iff.2 hmatch
  refine comparable_of_ranges hcontexts fun d hd => ?_
  obtain ⟨values, hvalues, hsortable⟩ := hown d hd
  refine ⟨values, ?_, hsortable⟩
  rw [mapM_map]
  exact hvalues

/-- The rows of the right side for one left row are those of the join that pass its condition. -/
theorem delivered (fits : s.Fits env k (x :: frames)) (unfiltered : s.FitsUnfiltered env k (x :: frames))
    {rows rows' : KeyedRows} (hrows : s.delivered env (x :: frames) = .ok rows)
    (hrows' : s'.delivered env frames' = .ok rows')
    (htests : ∀ p ∈ rows', ∃ b, satisfies env ((x' ++ sourceRow s'.label s'.headers p.1) :: frames') c = .ok b) :
    Forall₂ Extends rows (rows'.filter fun p =>
      (satisfies env ((x' ++ sourceRow s'.label s'.headers p.1) :: frames') c).isTrue) := by
  obtain ⟨all, produced, hall, hkept, hfilter, hproduced, rfl⟩ :=
    delivered_of_plain (isPlain_of_pullsFrom h.pulled) h.unnumbered hrows
  obtain ⟨all', produced', hall', _, _, hproduced', rfl⟩ := delivered_of_plain h.plain' h.unnumbered' hrows'
  rw [h.filter] at hproduced'
  have hunfiltered : (all'.filter fun row => (satisfies env (row :: frames') none).isTrue) = all' :=
    filter_eq_self.2 fun _ _ => rfl
  rw [hunfiltered] at hproduced'
  have hbeyond := hframes.beyond hx.labels
  have hmatch := (optionRows_agree h.form (fun t u ht hu =>
    (h.source t u ht hu hbeyond (fits.source ht)).rows) all hall).2 all' hall'
  have hmem : ∀ row ∈ all, row ∈ (optionRows env (x :: frames) s.source).values := by
    intro row hrow
    rwa [hall]
  -- each row of the source stands for one row of the unfiltered select, which passes the same test
  have hsame : Forall₂ (fun row (p : List Value × List Value) => ∃ row',
      RowMatch k.total s.sourceAliases s'.sourceAliases ν₀ row row' ∧
      columnValues env (row' :: frames') none [] s'.columns = .ok p.1 ∧
      keyValues env (row' :: frames') none s'.order = .ok p.2 ∧
      (satisfies env ((x' ++ sourceRow s'.label s'.headers p.1) :: frames') c).isTrue =
        (satisfies env (row :: x :: frames) s.filter).isTrue) all produced' := by
    refine forall₂_trans (forall₂_imp_mem hmatch fun row row' hr hm => And.intro hr hm)
      (forall₂_imp_right hproduced' fun row' p hp hv => And.intro hp hv) ?_
    rintro row row' p ⟨hr, hm⟩ ⟨hp, hvalues, hkeys⟩
    refine ⟨row', hm, hvalues, hkeys, ?_⟩
    obtain ⟨b, hb⟩ := hfilter row hr
    obtain ⟨b', hb'⟩ := htests p ((arrange_perm _ _ _ _).mem_iff.2 hp)
    have e := (h.test_agree hframes hx fits (hmem row hr) hm hvalues b hb).2 b' hb'
    rw [hb, hb', e]
  have hcomparable : Comparable (produced'.map Prod.snd) :=
    h.comparable hframes hx hmatch (hproduced'.imp fun _ _ hp => hp.2)
      (fun row hrow => unfiltered.keys row (hmem row hrow)) fun d hd => unfiltered.own hall d hd
  rw [← arrange_filter hcomparable, h.reverse, h.directions]
  refine arrange_forall₂ (fun h => h.1) _ _ ?_
  have hpassed := rel_filter (fun row p hp => Bool.eq_iff_iff.1 hp.choose_spec.2.2.2.symm) hsame
  have hproduced := forall₂_imp_mem hproduced fun row p hr hp => And.intro hr hp
  refine forall₂_trans hproduced.flip hpassed fun p row p' hp hp' => ?_
  obtain ⟨hr, hvalues, hkeys⟩ := hp
  obtain ⟨row', hm, hvalues', hkeys', _⟩ := hp'
  refine ⟨?_, ?_⟩
  · refine ((h.keys_agree hframes hx hm (unfiltered.keys row (hmem row ?_)) p.2 hkeys).2 _ hkeys').symm
    exact mem_of_mem_filter hr
  · refine h.values_extend hframes hx hm (fun d hd => ?_) hvalues hvalues'
    obtain ⟨produced, _, _, hp, _, _, _⟩ := delivered_eq_ok.1 hrows
    obtain ⟨contexts, hcontexts, _⟩ := produced_eq_ok.1 hp
    obtain ⟨c, hc, hcframes, hcgroup⟩ := exists_context_of_kept hcontexts
      (isGrouped_of_plain (isPlain_of_pullsFrom h.pulled)) (by rw [hkept]; exact hr)
    have hfit := fits.columns (by rw [hcontexts]; exact hc) hd
    rwa [hcframes, hcgroup] at hfit

end PullsFilter

/-- The rule for applies whose filter becomes the join condition. -/
theorem applied_holds (top : Bool) (kind : JoinKind) {l l' : Tree} {s' : Select Tree} {c : Option Tree}
    {columns extra : List (Column Tree)} (i j i' j' : Option Identity) (applies : k.applies = true)
    (partly : k.total = false) (apply : kind.isApply = true) (left : (Judgement.side μ ν l l').Holds env k)
    (h : PullsFilter (Judgement.Holds env k) μ l.sources l'.sources ν ν₀ s s' c columns extra) :
    (Judgement.source top μ (joinMatch l.sources l'.sources ν sameName)
      (.join ⟨kind, l, .select s i', none⟩ i)
      (.join ⟨(appliedJoin kind c).1, l', .select s' j', (appliedJoin kind c).2⟩ j)).Holds env k := by
  intro frames frames' hframes fits
  simp only [Tree.keyRanges, fits_append, apply, if_true, Option.isNone_none, Bool.and_true,
    if_pos applies] at fits
  refine ⟨?_, by rintro _ _ _ _ ⟨⟩⟩
  rw [Tree.rows_apply apply, Tree.rows_join (appliedJoin_isApply c)]
  refine (left hframes fits.1.1).bind fun lefts lefts' hl _ hlefts => ?_
  intro rows hrows
  refine ⟨fun ht => absurd ht (by simp [partly]), fun rows' hrows' => ?_⟩
  obtain ⟨rights', hr', hrows'⟩ := bind_eq_ok.1 hrows'
  refine ((joinRows_agree hlefts fun x x' hmem hx => ?_) rows hrows).2 rows' hrows'
  intro joined hjoined
  refine ⟨fun ht => absurd ht (by simp [partly]), fun joined' hjoined' => ?_⟩
  obtain ⟨kept, hkept, hjoined⟩ := bind_eq_ok.1 hjoined
  obtain ⟨ys, hys, hkept⟩ := bind_eq_ok.1 hkept
  obtain ⟨delivered, hdelivered, rfl⟩ := Tree.rows_select_eq_ok.1 hys
  cases (filterRows_true _).symm.trans hkept
  obtain ⟨kept', hkept', hjoined'⟩ := bind_eq_ok.1 hjoined'
  obtain ⟨_, ⟨⟩, hkept'⟩ := bind_eq_ok.1 hkept'
  obtain ⟨delivered', hdelivered', rfl⟩ := Tree.rows_select_eq_ok.1 hr'
  obtain ⟨htests, rfl⟩ := filterRows_eq_filter hkept'
  rw [pure_eq_ok.1 hjoined, pure_eq_ok.1 hjoined']
  refine unmatched_forall₂ (appliedJoin_keepsUnmatched apply c) hx ?_
  rw [hl] at fits
  have hfits := fits_append.1 (fits.1.2.of_flatMap hmem)
  have htest : ∀ p ∈ delivered', ∃ b,
      satisfies env ((x' ++ sourceRow s'.label s'.headers p.1) :: frames') c = .ok b := by
    intro p hp
    obtain ⟨b, hb⟩ := htests _ (mem_map_of_mem (mem_map_of_mem hp))
    rw [satisfies_appliedJoin] at hb
    exact ⟨b, hb⟩
  have hmatch := h.delivered hframes hx (fits_of_keyRanges hfits.2)
    (fitsUnfiltered applies h.pulled hfits.1) hdelivered hdelivered' htest
  have hheaders : s'.headers = s.headers ++ extra.map Column.name := by
    rw [headers, h.split, map_append, h.names]
  simp only [satisfies_appliedJoin, map_map, filter_map]
  refine forall₂_map_iff.2 (hmatch.imp ?_)
  rintro p p' ⟨_, more, e⟩
  simp only [Function.comp_apply]
  rw [e, hheaders]
  exact hx.append (.extended k.total s.label s'.label s.headers _ p.1 more)

end HiveQuery
