import HiveQuery.Proofs.SelectAgreement
import HiveQuery.Proofs.Widening

/-!
# Refined selects run alike

What the rules for selects say about runs, one lemma for each rule, stated over what its premises say.
-/

namespace HiveQuery

variable {j : Option Identity} {inner : Select Tree}
open List Select

variable {total : Bool} {contexts : List Context} {s s' : Select Tree}

/-! ## What a refinement says about runs -/

structure ClausesAgree (env : Environment) (k : Mode) (frames frames' : Frames) (μ : Reads)
    (s s' : Select Tree) : Prop where
  contexts : Run.Agree k.total (Forall₂ (ContextMatch k.total μ)) (s.contexts env frames)
    (s'.contexts env frames')
  values : ∀ {c c'}, c ∈ (s.contexts env frames).values → ContextMatch k.total μ c c' →
    Run.Agree k.total Eq (s.valuesAt env c) (s'.valuesAt env c')
  skip : Run.Agree k.total (fun n m => m.getD 0 = n.getD 0) (optionalCount env frames s.skip)
    (optionalCount env frames' s'.skip)
  take : Run.Agree k.total Eq (optionalCount env frames s.take) (optionalCount env frames' s'.take)
  below : ∀ {inner inner' i j}, s.source = some (.select inner i) →
    s'.source = some (.select inner' j) → k.sorted = true → inner'.reverse = false →
    ∀ {contexts rows}, s.contexts env frames = .ok contexts →
    inner'.delivered env frames' = .ok rows → SortedKeys inner'.directions (rows.map Prod.snd)

/-- Two selects give the same relation, and the second one in the order of its sort keys. -/
structure SelectAgree (env : Environment) (k : Mode) (frames frames' : Frames)
    (s s' : Select Tree) : Prop where
  run : Run.Agree k.total Eq (s.run env frames) (s'.run env frames')
  sorted : k.sorted = true → s'.reverse = false → ∀ {r rows}, s.run env frames = .ok r →
    s'.delivered env frames' = .ok rows → SortedKeys s'.directions (rows.map Prod.snd)

structure SourceAgree (env : Environment) (k : Mode) (frames frames' : Frames) (ν : ColumnMatch)
    (t u : Tree) : Prop where
  rows : Run.Agree k.total (Forall₂ (RowMatch k.total t.sources u.sources ν))
    (t.rows env frames) (u.rows env frames')
  sorted : ∀ {inner inner' i j}, t = .select inner i → u = .select inner' j →
    k.sorted = true → inner'.reverse = false → ∀ {rows rows'}, t.rows env frames = .ok rows →
    inner'.delivered env frames' = .ok rows' → SortedKeys inner'.directions (rows'.map Prod.snd)

/-- What a judgement says about the runs in corresponding rows. -/
def Judgement.Holds (env : Environment) (k : Mode) : Judgement → Prop
  | .scalar μ t u => ∀ {frames frames' group group'}, FramesMatch k.total μ frames frames' →
      GroupMatch k.total μ frames frames' group group' →
      Fits k (t.keyRanges env k.applies frames group) →
      ScalarAgree env k.total frames frames' group group' t u
  | .clauses μ ν s s' => ∀ {frames frames'}, FramesMatch k.total μ frames frames' →
      s.Fits env k frames →
      ClausesAgree env k frames frames' (μ.within s.sourceAliases s'.sourceAliases ν) s s'
  | .select _ μ s s' => ∀ {frames frames'}, FramesMatch k.total μ frames frames' →
      s.Fits env k frames → SelectAgree env k frames frames' s s'
  | .source _ μ ν t u => ∀ {frames frames'}, FramesMatch k.total μ frames frames' →
      Fits k (t.keyRanges env k.applies frames none) → SourceAgree env k frames frames' ν t u
  | .side μ ν t u => ∀ {frames frames'}, FramesMatch k.total μ frames frames' →
      Fits k (t.keyRanges env k.applies frames none) →
      Run.Agree k.total (Forall₂ (RowMatch k.total t.sources u.sources ν))
        (t.rows env frames) (u.rows env frames')

variable {env : Environment} {k : Mode} {μ : Reads} {ν : ColumnMatch} {frames frames' : Frames}

/-! ## Clauses -/

theorem optionalCount_agree {c c' : Option Tree} (form : c'.isSome = c.isSome)
    (h : ∀ t u, c = some t → c' = some u → ScalarAgree env total frames frames' none none t u) :
    Run.Agree total Eq (optionalCount env frames c) (optionalCount env frames' c') := by
  cases c with
  | none =>
    cases c' with
    | none => exact .of_ok rfl
    | some u => simp at form
  | some t =>
    cases c' with
    | none => simp at form
    | some u =>
      rw [optionalCount, optionalCount]
      refine (h t u rfl rfl).value.bind fun v w _ _ hvw => ?_
      subst hvw
      refine (Run.Agree.of_eq rfl).bind fun n m _ _ hn => ?_
      exact .of_ok (by rw [hn])

theorem optionalCount_of_isZero {t : Tree} (h : t.isZero = true) :
    optionalCount env frames (some t) = .ok (some 0) := by
  cases t with
  | constant v =>
    have hv : v.toInt64? = some 0 := by simpa [Tree.isZero] using h
    have hcount : rowCount v = .ok 0 := by
      rw [rowCount, hv]
      rfl
    rw [optionalCount, Tree.scalar]
    exact bind_eq_ok.2 ⟨v, rfl, bind_eq_ok.2 ⟨0, hcount, rfl⟩⟩
  | _ => simp [Tree.isZero] at h

theorem Select.exists_context_of_kept (hc : s.contexts env frames = .ok contexts) (hg : s.isGrouped = false)
    {row : Row} (hrow : row ∈ (s.keptRows env frames).values) :
    ∃ c ∈ contexts, c.frames = row :: frames ∧ c.group = none := by
  obtain ⟨rows, hrows, h⟩ := contexts_eq_ok.1 hc
  rw [hrows] at hrow
  rcases h with ⟨hg', _⟩ | ⟨_, numbers, _, rfl⟩
  · rw [hg] at hg'
    exact absurd hg' (by decide)
  · obtain ⟨i, hi⟩ := mem_iff_getElem?.1 hrow
    exact ⟨_, mem_map.2 ⟨(row, i), mk_mem_zipIdx_iff_getElem?.2 hi, rfl⟩, rfl, rfl⟩

theorem optionRows_agree (form : s'.source.isSome = s.source.isSome)
    (h : ∀ t u, s.source = some t → s'.source = some u →
      Run.Agree total (Forall₂ (RowMatch total t.sources u.sources ν)) (t.rows env frames)
        (u.rows env frames')) :
    Run.Agree total (Forall₂ (RowMatch total s.sourceAliases s'.sourceAliases ν))
      (optionRows env frames s.source) (optionRows env frames' s'.source) := by
  unfold sourceAliases
  cases hs : s.source with
  | none =>
    cases hs' : s'.source with
    | none => exact .of_ok (.cons ⟨rfl, rfl, fun h => absurd h not_mem_nil⟩ .nil)
    | some u => simp [hs, hs'] at form
  | some t =>
    cases hs' : s'.source with
    | none => simp [hs, hs'] at form
    | some u => exact h t u hs hs'

theorem ClausesAgree.of_scalars (form : s.SameForm s')
    (source : ∀ t u, s.source = some t → s'.source = some u → SourceAgree env k frames frames' ν t u)
    (filter : ∀ t u, s.filter = some t → s'.filter = some u →
      ∀ {row row'}, row ∈ (optionRows env frames s.source).values →
        RowMatch k.total s.sourceAliases s'.sourceAliases ν row row' →
        ScalarAgree env k.total (row :: frames) (row' :: frames') none none t u)
    (group : ∀ p ∈ s.group.zip s'.group, ∀ {row row'}, row ∈ (s.keptRows env frames).values →
      RowMatch k.total s.sourceAliases s'.sourceAliases ν row row' →
      ScalarAgree env k.total (row :: frames) (row' :: frames') none none p.1 p.2)
    (numbering : ∀ p ∈ s.columns.zip s'.columns, SameNumbering p.1.value p.2.value)
    (columns : ∀ p ∈ s.columns.zip s'.columns, ∀ {c f' g'}, c ∈ (s.contexts env frames).values →
      FramesMatch k.total (μ.within s.sourceAliases s'.sourceAliases ν) c.frames f' →
      GroupMatch k.total (μ.within s.sourceAliases s'.sourceAliases ν) c.frames f' c.group g' →
      ScalarAgree env k.total c.frames f' c.group g' p.1.value p.2.value)
    (skip : ∀ t u, s.skip = some t → s'.skip = some u →
      ScalarAgree env k.total frames frames' none none t u)
    (take : ∀ t u, s.take = some t → s'.take = some u →
      ScalarAgree env k.total frames frames' none none t u)
    (hframes : FramesMatch k.total μ frames frames') :
    ClausesAgree env k frames frames' (μ.within s.sourceAliases s'.sourceAliases ν) s s' := by
  have hlen : s'.columns.length = s.columns.length := length_eq_of_map_eq form.headers
  have hsource := optionRows_agree form.source fun t u ht hu => (source t u ht hu).rows
  refine ⟨?_, ?_, ?_, ?_, ?_⟩
  · refine fun contexts hcontexts => contexts_agree hframes form hsource ?_ ?_ ?_ contexts hcontexts
    · intro row row' hrow hm
      exact satisfies_agree form.filter fun t u ht hu => filter t u ht hu hrow hm
    · intro row row' hrow hm
      rw [scalars_eq, scalars_eq]
      exact .mapM_eq (forall₂_iff_zip.2 ⟨form.group.symm, fun hp => group _ hp hrow hm⟩) fun _ _ _ h => h.value
    · intro hg
      refine forall₂_iff_zip.2 ⟨hlen.symm, fun {d d'} hp => ⟨numbering _ hp, ?_⟩⟩
      intro row row' hrow hm
      obtain ⟨c, hc, hf, hn⟩ := exists_context_of_kept hcontexts hg hrow
      have hmem : c ∈ (s.contexts env frames).values := by
        rw [hcontexts]
        exact hc
      have hagree : ∀ {f' g'}, FramesMatch k.total _ c.frames f' →
          GroupMatch k.total _ c.frames f' c.group g' →
          ScalarAgree env k.total c.frames f' c.group g' d.value d'.value := columns _ hp hmem
      rw [hf, hn] at hagree
      exact hagree (hframes.within hm) .none
  · intro c c' hc hm
    rw [valuesAt, valuesAt, hm.numbers]
    refine columnValues_agree c.numbers (forall₂_iff_zip.2 ⟨hlen.symm, fun hp => ?_⟩)
    exact columns _ hp hc hm.frames hm.group
  · rcases form.skip with hskip | ⟨⟨t, ht, hzero⟩, hnone⟩
    · exact (optionalCount_agree hskip skip).imp fun n m _ _ h => by rw [h]
    · rw [ht, hnone, optionalCount_of_isZero hzero]
      exact .of_ok rfl
  · exact optionalCount_agree form.take take
  · intro inner inner' i j hs hs' hk hreverse contexts rows hcontexts hrows
    obtain ⟨kept, hkept, _⟩ := contexts_eq_ok.1 hcontexts
    obtain ⟨all, hall, _⟩ := keptRows_eq_ok.1 hkept
    rw [hs] at hall
    exact (source _ _ hs hs').sorted rfl rfl hk hreverse hall hrows

theorem clauses_agree (form : s.SameForm s')
    (filter : ∀ t u, s.filter = some t → s'.filter = some u →
      (Judgement.scalar (μ.within s.sourceAliases s'.sourceAliases ν) t u).Holds env k)
    (group : ∀ p ∈ s.group.zip s'.group,
      (Judgement.scalar (μ.within s.sourceAliases s'.sourceAliases ν) p.1 p.2).Holds env k)
    (numbering : ∀ p ∈ s.columns.zip s'.columns, SameNumbering p.1.value p.2.value)
    (columns : ∀ p ∈ s.columns.zip s'.columns,
      (Judgement.scalar (μ.within s.sourceAliases s'.sourceAliases ν) p.1.value p.2.value).Holds env k)
    (skip : ∀ t u, s.skip = some t → s'.skip = some u → (Judgement.scalar μ t u).Holds env k)
    (take : ∀ t u, s.take = some t → s'.take = some u → (Judgement.scalar μ t u).Holds env k)
    (source : ∀ t u, s.source = some t → s'.source = some u → SourceAgree env k frames frames' ν t u)
    (hframes : FramesMatch k.total μ frames frames') (fits : s.Fits env k frames) :
    ClausesAgree env k frames frames' (μ.within s.sourceAliases s'.sourceAliases ν) s s' :=
  .of_scalars form source
    (fun t u ht hu _ _ hrow hm => filter t u ht hu (hframes.within hm) .none (fits.filter hrow ht))
    (fun p hp _ _ hrow hm =>
      group p hp (hframes.within hm) .none (fits.group hrow (of_mem_zip hp).1))
    numbering
    (fun p hp _ _ _ hc hf hg => columns p hp hf hg (fits.columns hc (of_mem_zip hp).1))
    (fun t u ht hu => skip t u ht hu hframes .none (fits.skip ht))
    (fun t u ht hu => take t u ht hu hframes .none (fits.take ht)) hframes

theorem Refines.form (h : Refines env k (.clauses μ ν s s')) : s.SameForm s' := by
  cases h with
  | clauses form => exact form

/-! ## Delivered rows -/

theorem Select.sortedKeys_delivered {rows : KeyedRows}
    (h : s.delivered env frames = .ok rows) (hreverse : s.reverse = false)
    (hown : ∀ {contexts}, s.contexts env frames = .ok contexts → ∀ {d}, d ∈ s.order →
      ∃ values, contexts.mapM (fun c => d.value.scalar env c.frames c.group) = .ok values ∧
        Sortable values) :
    SortedKeys s.directions (rows.map Prod.snd) := by
  obtain ⟨produced, skipped, taken, hp, _, _, rfl⟩ := delivered_eq_ok.1 h
  obtain ⟨contexts, hc, hproduced⟩ := produced_eq_ok.1 hp
  have hkeys : Comparable (produced.map Prod.snd) := by
    refine comparable_of_ranges (forall₂_map_right_iff.2 (hproduced.imp fun c p h => h.2)) ?_
    exact fun d hd => hown hc hd
  rw [hreverse]
  exact (arrange_sortedKeys hkeys).sublist ((page_sublist _ _ _).map Prod.snd)

theorem run_agree_of_delivered (headers : s'.headers = s.headers)
    (h : Run.Agree total (fun rows rows' => rows'.map Prod.fst = rows.map Prod.fst)
      (s.delivered env frames) (s'.delivered env frames')) :
    Run.Agree total Eq (s.run env frames) (s'.run env frames') := by
  rw [run_eq, run_eq]
  refine h.bind fun rows rows' _ _ hrows => .of_ok ?_
  rw [headers, hrows]

/-! ## Selects -/

theorem ClausesAgree.produced (h : ClausesAgree env k frames frames' μ s s')
    (hkeys : ∀ {c c'}, c ∈ (s.contexts env frames).values → ContextMatch k.total μ c c' →
      Run.Agree k.total Eq (s.keysAt env c) (s'.keysAt env c')) :
    Run.Agree k.total Eq (s.produced env frames) (s'.produced env frames') := by
  refine h.contexts.bind fun contexts contexts' hc _ hm => ?_
  refine Run.Agree.mapM_eq hm fun c c' hmem hcc => ?_
  have hmem : c ∈ (s.contexts env frames).values := by
    rw [hc]
    exact hmem
  refine (h.values hmem hcc).bind fun v v' _ _ hv => (hkeys hmem hcc).bind fun ks ks' _ _ hk => ?_
  exact .of_ok (by rw [hv, hk])

theorem ClausesAgree.delivered (h : ClausesAgree env k frames frames' μ s s') (form : s.SameForm s')
    (directions : s'.directions = s.directions)
    (keys : ∀ p ∈ s.order.zip s'.order, ∀ {c c'}, c ∈ (s.contexts env frames).values →
      ContextMatch k.total μ c c' →
      ScalarAgree env k.total c.frames c'.frames c.group c'.group p.1.value p.2.value) :
    Run.Agree k.total Eq (s.delivered env frames) (s'.delivered env frames') := by
  have hlen : s'.order.length = s.order.length := length_eq_of_map_eq directions
  have hproduced : Run.Agree k.total Eq (s.produced env frames) (s'.produced env frames') := by
    refine h.produced fun {c c'} hc hm => ?_
    exact keyValues_agree (forall₂_iff_zip.2 ⟨hlen.symm, fun hp => keys _ hp hc hm⟩)
  refine hproduced.bind fun p p' _ _ hp => h.skip.bind fun n n' _ _ hn => ?_
  refine h.take.bind fun t t' _ _ ht => .of_ok ?_
  rw [form.distinct, form.reverse, directions, ← hp, ← ht, page_congr hn]

/-- The rule for selects with an order of their own. -/
theorem ordered_holds (top : Bool) (form : s.SameForm s') (clauses : (Judgement.clauses μ ν s s').Holds env k)
    (directions : s'.directions = s.directions)
    (keys : ∀ p ∈ s.order.zip s'.order,
      (Judgement.scalar (μ.within s.sourceAliases s'.sourceAliases ν)
        p.1.value p.2.value).Holds env k) :
    (Judgement.select top μ s s').Holds env k := by
  intro frames frames' hframes fits
  have hdelivered := (clauses hframes fits).delivered form directions fun p hp {c c'} hc hm =>
    keys p hp hm.frames hm.group (fits.keys hc (of_mem_zip hp).1)
  refine ⟨run_agree_of_delivered form.headers (hdelivered.imp fun _ _ _ _ h => by rw [h]), ?_⟩
  intro hk hreverse r rows hr hrows
  obtain ⟨rows₀, hrows₀, _⟩ := run_eq_ok.1 hr
  have e : rows₀ = rows := (hdelivered rows₀ hrows₀).2 rows hrows
  rw [directions, ← e]
  exact sortedKeys_delivered hrows₀ (form.reverse ▸ hreverse) (fits.own hk)

theorem filterRows_sublist {keep : Row → Run Bool} {rows kept : List Row}
    (h : filterRows keep rows = .ok kept) : kept.Sublist rows := by
  obtain ⟨marks, hmarks, rfl⟩ := filterRows_eq_ok.1 h
  have hzip : (rows.zip marks).map Prod.fst = rows := map_fst_zip hmarks.length_eq.le
  exact (filter_sublist.map Prod.fst).trans (by rw [hzip])

theorem keyValues_nullRow {a : Alias} {group : Option (List Row)} {lifted : List (SortKey Tree)}
    (h : ∀ k ∈ lifted, ∃ c : ColumnRef, k.value = .column c ∧ c.label = a) :
    keyValues env (nullRow [a] :: frames) group lifted = .ok (lifted.map fun _ => .null) := by
  induction lifted with
  | nil => rfl
  | cons k ks ih =>
    obtain ⟨c, hk, hc⟩ := h k mem_cons_self
    have hmem : c.label ∈ [a] := by simp [hc]
    have hv : k.value.scalar env (nullRow [a] :: frames) group = .ok .null := by
      rw [hk, Tree.scalar, lookup?_cons_of_mem (by rwa [nullRow_labels]), rowLookup?_nullRow hmem]
    rw [keyValues_cons_eq_ok]
    exact ⟨.null, _, hv, ih fun k hk => h k (.tail _ hk), rfl⟩

theorem comparable_nulls (order : List (SortKey Tree)) : Comparable [order.map fun _ => .null] := by
  refine .of_families (order.map fun _ => .number) fun key hkey => ?_
  rw [mem_singleton.1 hkey]
  refine forall₂_map_iff.2 (forall₂_same.2 ?_)
  exact fun _ _ => .inl rfl

theorem Select.Delivers.sortedKeys {scope : List Alias} {rows : KeyedRows}
    (delivers : inner.Delivers env scope s.order) (hframes : frames.Within scope)
    (hsource : s.source = some (.select inner j)) (hgroup : s.group = [])
    (hcontexts : s.contexts env frames = .ok contexts) (hrows : inner.delivered env frames = .ok rows)
    (hsorted : SortedKeys inner.directions (rows.map Prod.snd)) :
    ∃ keys, Forall₂ (fun c key => s.keysAt env c = .ok key) contexts keys ∧ SortedKeys s.directions keys := by
  obtain ⟨kept, hkept, h⟩ := contexts_eq_ok.1 hcontexts
  obtain ⟨all, hall, hfilter, _⟩ := keptRows_eq_ok.1 hkept
  have hall : all = rows.map fun p => sourceRow inner.label inner.headers p.1 := by
    rw [hsource, optionRows] at hall
    obtain ⟨rows₁, hrows₁, e⟩ := Tree.rows_select_eq_ok.1 hall
    rw [hrows] at hrows₁
    cases hrows₁
    exact e
  have hsub := filterRows_sublist hfilter
  rw [hall, sublist_map_iff] at hsub
  obtain ⟨rows', hsub, rfl⟩ := hsub
  have hdirections : s.directions = inner.directions := delivers.directions
  have hkey : ∀ p ∈ rows', ∀ group,
      keyValues env (sourceRow inner.label inner.headers p.1 :: frames) group s.order = .ok p.2 :=
    fun p hp => delivers.keys hframes hrows p (hsub.subset hp)
  rw [hdirections]
  rcases h with ⟨_, keys, _, rfl⟩ | ⟨_, numbers, _, rfl⟩
  · -- all rows form one group, which is seen from its first row
    rw [hgroup]
    cases rows' with
    | nil =>
      refine ⟨[s.order.map fun _ => .null], .cons ?_ .nil, ⟨?_, pairwise_singleton _ _⟩⟩
      · have haliases : s.sourceAliases = [inner.label] := by
          rw [sourceAliases, hsource]
          rfl
        rw [keysAt, haliases]
        exact keyValues_nullRow delivers.columns
      · exact comparable_nulls _
    | cons p ps =>
      refine ⟨[p.2], .cons (hkey p mem_cons_self _) .nil, ?_⟩
      refine hsorted.sublist (singleton_sublist.2 ?_)
      exact mem_map_of_mem (hsub.subset mem_cons_self)
  · refine ⟨rows'.map Prod.snd, ?_, hsorted.sublist (hsub.map Prod.snd)⟩
    have hkeys : Forall₂ (fun row key => keyValues env (row :: frames) none s.order = .ok key)
        (rows'.map fun p => sourceRow inner.label inner.headers p.1) (rows'.map Prod.snd) := by
      refine forall₂_map_iff.2 (forall₂_same.2 ?_)
      exact fun p hp => hkey p hp none
    exact forall₂_map_left_iff.2 (zipIdx_forall₂_left hkeys 0)

theorem ClausesAgree.valueLists {contexts' : List Context} (h : ClausesAgree env k frames frames' μ s s')
    (hc : s.contexts env frames = .ok contexts)
    (hm : Forall₂ (ContextMatch k.total μ) contexts contexts') :
    Run.Agree k.total Eq (contexts.mapM (s.valuesAt env)) (contexts'.mapM (s'.valuesAt env)) := by
  refine Run.Agree.mapM_eq hm fun c c' hmem hcc => h.values ?_ hcc
  rw [hc]
  exact hmem

theorem Select.exists_delivered_of_contexts (hsource : s.source = some (.select inner j))
    (hc : s.contexts env frames = .ok contexts) : ∃ rows, inner.delivered env frames = .ok rows := by
  obtain ⟨kept, hkept, _⟩ := contexts_eq_ok.1 hc
  obtain ⟨all, hall, _⟩ := keptRows_eq_ok.1 hkept
  rw [hsource, optionRows] at hall
  obtain ⟨rows, hrows, _⟩ := Tree.rows_select_eq_ok.1 hall
  exact ⟨rows, hrows⟩

theorem ClausesAgree.lifted (h : ClausesAgree env k frames frames' μ s s') (form : s.SameForm s')
    (order : s.order = [])
    (sorted : ∀ {contexts contexts'}, s.contexts env frames = .ok contexts →
      s'.contexts env frames' = .ok contexts' →
      ∃ keys, Forall₂ (fun c key => s'.keysAt env c = .ok key) contexts' keys ∧
        SortedKeys s'.directions keys) :
    Run.Agree k.total
      (fun rows rows' => rows'.map Prod.fst = rows.map Prod.fst ∧
        (s'.reverse = false → SortedKeys s'.directions (rows'.map Prod.snd)))
      (s.delivered env frames) (s'.delivered env frames') := by
  have hproduced : Run.Agree k.total
      (fun rows rows' => rows'.map Prod.fst = rows.map Prod.fst ∧
        SortedKeys s'.directions (rows'.map Prod.snd))
      (s.produced env frames) (s'.produced env frames') := by
    intro produced hproduced
    obtain ⟨contexts, hcontexts, hproduced⟩ := produced_eq_ok.1 hproduced
    have hvalues : contexts.mapM (s.valuesAt env) = .ok (produced.map Prod.fst) :=
      mapM_eq_ok.2 (forall₂_map_right_iff.2 (hproduced.imp fun _ _ h => h.1))
    constructor
    · intro ht
      obtain ⟨contexts', hcontexts'⟩ := (h.contexts contexts hcontexts).1 ht
      have hm := (h.contexts contexts hcontexts).2 contexts' hcontexts'
      obtain ⟨values', hvalues'⟩ := (h.valueLists hcontexts hm _ hvalues).1 ht
      obtain ⟨keys, hkeys, _⟩ := sorted hcontexts hcontexts'
      exact ⟨values'.zip keys, produced_eq_ok.2
        ⟨contexts', hcontexts', forall₂_zip_right (mapM_eq_ok.1 hvalues') hkeys⟩⟩
    · intro produced' hproduced'
      obtain ⟨contexts', hcontexts', hproduced'⟩ := produced_eq_ok.1 hproduced'
      have hm := (h.contexts contexts hcontexts).2 contexts' hcontexts'
      have hvalues' : contexts'.mapM (s'.valuesAt env) = .ok (produced'.map Prod.fst) :=
        mapM_eq_ok.2 (forall₂_map_right_iff.2 (hproduced'.imp fun _ _ h => h.1))
      have hkeys' : contexts'.mapM (s'.keysAt env) = .ok (produced'.map Prod.snd) :=
        mapM_eq_ok.2 (forall₂_map_right_iff.2 (hproduced'.imp fun _ _ h => h.2))
      obtain ⟨keys, hkeys, hsorted⟩ := sorted hcontexts hcontexts'
      rw [mapM_eq_ok.2 hkeys] at hkeys'
      exact ⟨((h.valueLists hcontexts hm _ hvalues).2 _ hvalues').symm, Except.ok.inj hkeys' ▸ hsorted⟩
  refine hproduced.bind fun p p' _ _ hp => h.skip.bind fun n n' _ _ hn => ?_
  refine h.take.bind fun t t' _ _ ht => .of_ok ⟨?_, fun hreverse => ?_⟩
  · have hdirections : s.directions = [] := by rw [directions, order]; rfl
    have hunsorted : arrange s.distinct s.reverse [] p =
        if s.reverse then (uniqueRows s.distinct p).reverse else uniqueRows s.distinct p := rfl
    rw [arrange_eq_of_sortedKeys hp.2, hdirections, hunsorted, form.distinct, form.reverse, ← ht,
      page_congr hn, ← page_map, ← page_map]
    cases s.reverse with
    | false => rw [if_neg (by simp), if_neg (by simp), uniqueRows_map_fst s.distinct hp.1]
    | true =>
      rw [if_pos rfl, if_pos rfl, map_reverse, map_reverse, uniqueRows_map_fst s.distinct hp.1]
  · rw [hreverse]
    exact (arrange_sortedKeys hp.2.comparable).sublist ((page_sublist _ _ _).map Prod.snd)

/-- The rule for selects that take over the order of the select below. -/
theorem lifted_holds {inner' : Select Tree} {i : Option Identity} (sorted : k.sorted = true)
    (form : s.SameForm s') (clauses : (Judgement.clauses μ ν s s').Holds env k) (order : s.order = [])
    (group : s.group = []) (source : s.source = some (.select inner i))
    (source' : s'.source = some (.select inner' j)) (reverse : inner'.reverse = false)
    (delivers : inner'.Delivers env μ.right s'.order) : (Judgement.select true μ s s').Holds env k := by
  intro frames frames' hframes fits
  have hclauses := clauses hframes fits
  have group' : s'.group = [] := by
    rw [← length_eq_zero_iff, form.group, group]
    rfl
  have hdelivered := hclauses.lifted form order fun {contexts contexts'} hcontexts hcontexts' => by
    -- the keys of the right side are those of the rows below, in their order
    obtain ⟨rows, hrows⟩ := exists_delivered_of_contexts source' hcontexts'
    exact delivers.sortedKeys hframes.right source' group' hcontexts' hrows
      (hclauses.below source source' sorted reverse hcontexts hrows)
  refine ⟨run_agree_of_delivered form.headers (hdelivered.imp fun _ _ _ _ h => h.1), ?_⟩
  intro _ hreverse r rows hr hrows
  obtain ⟨rows₀, hrows₀, _⟩ := run_eq_ok.1 hr
  exact ((hdelivered rows₀ hrows₀).2 rows hrows).2 hreverse

/-- The rule for row numbers. -/
theorem numbered_holds (top : Bool) {n : Select Tree} (select : (Judgement.select true μ s s').Holds env k)
    (numbers : s'.Numbers env k.total μ.right n) : (Judgement.select top μ s n).Holds env k := by
  intro frames frames' hframes fits
  have h := (select hframes fits).run
  refine ⟨fun r hr => ⟨fun ht => ?_, fun r' hr' => ?_⟩, fun _ _ => ?_⟩
  · obtain ⟨r', hr'⟩ := (h r hr).1 ht
    exact numbers.complete ht hframes.right hr'
  · exact (h r hr).2 r' (numbers.sound hframes.right hr')
  · intro r rows _ hrows
    exact numbers.sorted hframes.right hrows

/-- The rule for row numbers of rows that cannot be sorted. -/
theorem emptied_holds (top : Bool) {n : Select Tree} (form : s.SameForm s')
    (clauses : (Judgement.clauses μ ν s s').Holds env k) (unsortable : s.Unsortable)
    (empties : s'.Empties env k.total μ.right n) : (Judgement.select top μ s n).Holds env k := by
  intro frames frames' hframes fits
  have hclauses := clauses hframes fits
  have hdelivered : Run.Agree k.total (fun rows rows' => rows = [] ∧ rows' = [])
      (s.delivered env frames) (n.delivered env frames') := by
    intro rows hrows
    obtain ⟨produced, skipped, taken, hp, _, _, rfl⟩ := delivered_eq_ok.1 hrows
    obtain ⟨hcontexts, rfl⟩ := unsortable.contexts_eq_nil hp
    have hnil : ∀ contexts', s'.contexts env frames' = .ok contexts' → contexts' = [] := by
      intro contexts' hc'
      exact forall₂_nil_left_iff.1 ((hclauses.contexts [] hcontexts).2 contexts' hc')
    refine ⟨fun ht => ?_, fun rows' hrows' => ⟨?_, ?_⟩⟩
    · obtain ⟨contexts', hc'⟩ := (hclauses.contexts [] hcontexts).1 ht
      rw [hnil contexts' hc'] at hc'
      exact empties.complete ht hframes.right hc'
    · have hsub := page_sublist skipped taken (arrange s.distinct s.reverse s.directions [])
      refine eq_nil_iff_forall_not_mem.2 fun p hp => ?_
      exact not_mem_nil (mem_of_mem_arrange (hsub.subset hp))
    · obtain ⟨contexts', hc', hrows'⟩ := empties.sound hframes.right hrows'
      exact hrows' (hnil contexts' hc')
  refine ⟨run_agree_of_delivered (empties.headers.trans form.headers)
    (hdelivered.imp fun rows rows' _ _ h => by rw [h.1, h.2]), ?_⟩
  intro _ _ r rows' hr hrows'
  obtain ⟨rows, hrows, _⟩ := run_eq_ok.1 hr
  rw [((hdelivered rows hrows).2 rows' hrows').2]
  exact ⟨comparable_nil, .nil⟩

end HiveQuery
