import HiveQuery.Proofs.Refinement

/-!
# Agreement of the clauses of two selects

What the stages of two selects have in common when the scalars in their clauses agree.
-/

namespace HiveQuery

variable {rows rows' : List Row} {P : Row → Row → Prop}
open List HiveQuery.Tree

variable {cs cs' : List (Column Tree)} {t u : Tree} {a b ranges : List KeyRange} {s : Select Tree}

variable {env : Environment} {k : Mode}

/-! ## Lists of scalars -/

section Lists

variable {env : Environment} {total : Bool} {frames frames' : Frames} {group group' : Option (List Row)}

structure ScalarAgree (env : Environment) (total : Bool) (frames frames' : Frames)
    (group group' : Option (List Row)) (t u : Tree) : Prop where
  value : Run.Agree total Eq (t.scalar env frames group) (u.scalar env frames' group')
  first : Run.Agree total Eq (t.firstValues env frames) (u.firstValues env frames')
  keys : ∀ {order order' : List (SortKey Tree)}, t = .rowNumber order → u = .rowNumber order' →
    Run.Agree total Eq (keyValues env frames group order) (keyValues env frames' group' order')

theorem keyValues_agree {ks ks' : List (SortKey Tree)}
    (h : Forall₂ (fun k k' : SortKey Tree =>
      ScalarAgree env total frames frames' group group' k.value k'.value) ks ks') :
    Run.Agree total Eq (keyValues env frames group ks) (keyValues env frames' group' ks') := by
  rw [keyValues_eq, keyValues_eq]
  exact Run.Agree.mapM_eq h fun _ _ _ h => h.value

theorem columnValues_agree (numbers : List (Option Nat))
    (h : Forall₂ (fun c c' : Column Tree =>
      ScalarAgree env total frames frames' group group' c.value c'.value) cs cs') :
    Run.Agree total Eq (columnValues env frames group numbers cs)
      (columnValues env frames' group' numbers cs') := by
  induction h generalizing numbers with
  | nil => exact .of_ok rfl
  | cons h _ ih =>
    rw [columnValues, columnValues]
    cases numbers.head?.join with
    | none =>
      refine h.value.bind fun v w _ _ hvw => (ih numbers.tail).bind fun vs ws _ _ hs => ?_
      exact .of_ok (by rw [hvw, hs])
    | some n =>
      refine (ih numbers.tail).bind fun vs ws _ _ hs => ?_
      exact .of_ok (by rw [hs])

theorem satisfies_agree {c c' : Option Tree} (form : c'.isSome = c.isSome)
    (h : ∀ t u, c = some t → c' = some u → ScalarAgree env total frames frames' none none t u) :
    Run.Agree total Eq (satisfies env frames c) (satisfies env frames' c') := by
  cases c with
  | none =>
    cases c' with
    | none => exact .of_ok rfl
    | some u => simp at form
  | some t =>
    cases c' with
    | none => simp at form
    | some u =>
      rw [satisfies, satisfies]
      refine (h t u rfl rfl).value.bind fun v w _ _ hvw => ?_
      exact .of_ok (by rw [hvw])

end Lists

/-- Both trees number rows, in the same directions, or neither does. -/
def SameNumbering (t u : Tree) : Prop :=
  u.isRowNumber = t.isRowNumber ∧
    ∀ {order order' : List (SortKey Tree)}, t = .rowNumber order → u = .rowNumber order' →
      order'.map SortKey.direction = order.map SortKey.direction

theorem SameNumbering.of_not (ht : t.isRowNumber = false) (hu : u.isRowNumber = false) :
    SameNumbering t u := by
  refine ⟨hu.trans ht.symm, fun {order _} h => ?_⟩
  rw [h] at ht
  cases ht

theorem Refines.sameNumbering {μ : Reads} (h : Refines env k (.scalar μ t u)) :
    SameNumbering t u := by
  cases h with
  | rowNumber directions =>
    refine ⟨rfl, ?_⟩
    rintro _ _ ⟨⟩ ⟨⟩
    exact directions
  | inert _ left right =>
    refine ⟨?_, ?_⟩
    · cases t <;> cases u <;> simp_all [isInert, isRowNumber]
    · intro order order' ht
      rw [ht] at left
      exact absurd left (by simp [isInert])
  | _ => exact ⟨rfl, by rintro _ _ ⟨⟩⟩

theorem rowNumbers_agree {total : Bool} {frames frames' : Frames}
    (hrows : Forall₂ P rows rows')
    (h : Forall₂ (fun c c' : Column Tree => SameNumbering c.value c'.value ∧ ∀ row row', row ∈ rows → P row row' →
      ScalarAgree env total (row :: frames) (row' :: frames') none none c.value c'.value) cs cs') :
    Run.Agree total Eq (rowNumbers env frames rows cs) (rowNumbers env frames' rows' cs') := by
  rw [rowNumbers_eq, rowNumbers_eq]
  refine Run.Agree.mapM_eq h fun c c' _ hc => ?_
  obtain ⟨⟨hsame, hdirections⟩, hc⟩ := hc
  cases hn : c.value.isRowNumber with
  | false =>
    rw [rowRanks_of_not hn, rowRanks_of_not (hsame.trans hn)]
    exact .of_ok rfl
  | true =>
    obtain ⟨order, ht⟩ := exists_rowNumber hn
    obtain ⟨order', hu⟩ := exists_rowNumber (hsame.trans hn)
    have hkeys := Run.Agree.mapM_eq hrows fun row row' hr hp => (hc row row' hr hp).keys ht hu
    rw [ht, hu, rowRanks, rowRanks, hdirections ht hu]
    exact hkeys.bind fun keys keys' _ _ hk => .of_ok (by rw [hk])

/-! ## Groups -/

section

variable {α β : Type} {P : α → β → Prop}

theorem insertGroup_forall₂ (key : List Value) {a : α} {b : β} (hab : P a b) {gs : List (List Value × List α)}
    {gs' : List (List Value × List β)} (h : Forall₂ (fun g g' => g'.1 = g.1 ∧ Forall₂ P g.2 g'.2) gs gs') :
    Forall₂ (fun g g' => g'.1 = g.1 ∧ Forall₂ P g.2 g'.2) (insertGroup key a gs)
      (insertGroup key b gs') := by
  induction h with
  | nil => exact .cons ⟨rfl, .cons hab .nil⟩ .nil
  | @cons g g' gs gs' hg hgs ih =>
    rw [insertGroup, insertGroup, hg.1]
    split
    · exact .cons ⟨rfl, rel_append hg.2 (.cons hab .nil)⟩ hgs
    · exact .cons hg ih

theorem groupByKey_forall₂ {keyed : List (List Value × α)} {keyed' : List (List Value × β)}
    (h : Forall₂ (fun p q => q.1 = p.1 ∧ P p.2 q.2) keyed keyed') :
    Forall₂ (Forall₂ P) (groupByKey keyed) (groupByKey keyed') := by
  refine forall₂_map_iff.2 (Forall₂.imp
    (R := fun (g : List Value × List α) (g' : List Value × List β) => g'.1 = g.1 ∧ Forall₂ P g.2 g'.2)
    (fun _ _ hg => hg.2) (rel_foldl (fun gs gs' hgs p q hpq => ?_) .nil h))
  rw [hpq.1]
  exact insertGroup_forall₂ _ hpq.2 hgs

end

theorem groupRows_forall₂ (single : Bool) (keys : List (List Value)) (h : Forall₂ P rows rows') :
    Forall₂ (Forall₂ P) (groupRows single keys rows) (groupRows single keys rows') := by
  cases single with
  | true => exact .cons h .nil
  | false =>
    refine groupByKey_forall₂ ?_
    induction h generalizing keys with
    | nil => simp
    | cons hr _ ih =>
      cases keys with
      | nil => exact .nil
      | cons key keys => exact .cons ⟨rfl, hr⟩ (ih keys)

/-! ## Contexts -/

section Contexts

variable {env : Environment} {total : Bool} {μ : Reads} {ν : ColumnMatch} {frames frames' : Frames}
  {new new' : List Alias}

theorem groupContexts_match {groups groups' : List (List Row)} (hframes : FramesMatch total μ frames frames')
    (h : Forall₂ (Forall₂ (RowMatch total new new' ν)) groups groups') :
    Forall₂ (ContextMatch total (μ.within new new' ν)) (groupContexts frames new groups)
      (groupContexts frames' new' groups') := by
  refine forall₂_map_iff.2 (h.imp fun ms ms' hms => ?_)
  refine ⟨hframes.within ?_, .some (hms.imp fun _ _ hr => hframes.within hr), rfl⟩
  cases hms with
  | nil => exact .null total new new' ν
  | cons hr _ => exact hr

theorem rowContexts_match (numbers : List (List Nat)) (hframes : FramesMatch total μ frames frames')
    (h : Forall₂ (RowMatch total new new' ν) rows rows') :
    Forall₂ (ContextMatch total (μ.within new new' ν)) (rowContexts frames rows numbers)
      (rowContexts frames' rows' numbers) := by
  refine forall₂_map_iff.2 ?_
  refine (zipIdx_forall₂ h 0).imp fun p p' hp => ?_
  exact ⟨hframes.within hp.1, .none, by rw [hp.2]⟩

/-- Rows of corresponding selects are computed from corresponding contexts. -/
theorem contexts_agree {s' : Select Tree} (hframes : FramesMatch total μ frames frames')
    (form : s.SameForm s')
    (hsource : Run.Agree total (Forall₂ (RowMatch total s.sourceAliases s'.sourceAliases ν))
      (optionRows env frames s.source) (optionRows env frames' s'.source))
    (hfilter : ∀ row row', row ∈ (optionRows env frames s.source).values →
      RowMatch total s.sourceAliases s'.sourceAliases ν row row' →
      Run.Agree total Eq (satisfies env (row :: frames) s.filter)
        (satisfies env (row' :: frames') s'.filter))
    (hgroup : ∀ row row', row ∈ (s.keptRows env frames).values →
      RowMatch total s.sourceAliases s'.sourceAliases ν row row' →
      Run.Agree total Eq (scalars env (row :: frames) none s.group)
        (scalars env (row' :: frames') none s'.group))
    (hcolumns : s.isGrouped = false →
      Forall₂ (fun c c' : Column Tree => SameNumbering c.value c'.value ∧
        ∀ row row', row ∈ (s.keptRows env frames).values →
          RowMatch total s.sourceAliases s'.sourceAliases ν row row' →
          ScalarAgree env total (row :: frames) (row' :: frames') none none c.value c'.value)
        s.columns s'.columns) :
    Run.Agree total (Forall₂ (ContextMatch total (μ.within s.sourceAliases s'.sourceAliases ν)))
      (s.contexts env frames) (s'.contexts env frames') := by
  have hkept : Run.Agree total (Forall₂ (RowMatch total s.sourceAliases s'.sourceAliases ν))
      (s.keptRows env frames) (s'.keptRows env frames') := by
    refine hsource.bind fun all all' hall _ hrows => ?_
    refine (Run.Agree.filterRows hrows fun row row' hr hm => ?_).bind fun _ _ _ _ hkept => ?_
    · exact hfilter row row' (by rw [hall]; exact hr) hm
    · unfold heldRows
      rw [hkept.length_eq]
      split
      · exact .of_ok hkept
      · exact .of_error
  refine hkept.bind fun rows rows' hr _ hrows => ?_
  rw [form.grouped]
  cases hg : s.isGrouped with
  | true =>
    rw [if_pos rfl, if_pos rfl, isEmpty_eq_of_length_eq form.group]
    have hkeys := Run.Agree.mapM_eq hrows fun row row' hmem hm =>
      hgroup row row' (by rw [hr]; exact hmem) hm
    refine hkeys.bind fun keys keys' _ _ hk => ?_
    subst hk
    exact .of_ok (groupContexts_match hframes (groupRows_forall₂ _ keys hrows))
  | false =>
    rw [if_neg (by simp), if_neg (by simp)]
    have hnumbers := rowNumbers_agree hrows ((hcolumns hg).imp fun c c' hc =>
      ⟨hc.1, fun row row' hmem hm => hc.2 row row' (by rw [hr]; exact hmem) hm⟩)
    refine hnumbers.bind fun ns ns' _ _ hn => ?_
    subst hn
    exact .of_ok (rowContexts_match ns hframes hrows)

end Contexts

/-! ## Ranges of sort keys -/

/-- Sort keys are comparable where this is asked for. -/
structure Fits (k : Mode) (ranges : List KeyRange) : Prop where
  sorted : k.sorted = true → FilteredComparable ranges
  unfiltered : k.applies = true → UnfilteredSortable ranges

theorem Fits.mono (h : Fits k b) (hsub : ∀ r ∈ a, r ∈ b) : Fits k a where
  sorted hk r hr := h.sorted hk r (hsub r hr)
  unfiltered hk r hr := h.unfiltered hk r (hsub r hr)

theorem Fits.of_comparable (h : RangesComparable ranges) : Fits k ranges :=
  ⟨fun _ r hr _ => h r hr, fun _ r hr _ => (h r hr).sortable⟩

theorem Fits.of_not_asked (sorted : k.sorted = false) (applies : k.applies = false) :
    Fits k ranges :=
  ⟨fun hk => by simp [sorted] at hk, fun hk => by simp [applies] at hk⟩

theorem fits_append : Fits k (a ++ b) ↔ Fits k a ∧ Fits k b := by
  refine ⟨fun h => ⟨h.mono fun _ hr => mem_append_left _ hr,
    h.mono fun _ hr => mem_append_right _ hr⟩, fun ⟨ha, hb⟩ => ⟨fun hk r hr => ?_, fun hk r hr => ?_⟩⟩
  · exact (mem_append.1 hr).elim (ha.sorted hk r) (hb.sorted hk r)
  · exact (mem_append.1 hr).elim (ha.unfiltered hk r) (hb.unfiltered hk r)

theorem Fits.of_flatMap {α : Type} {l : List α} {f : α → List KeyRange} (h : Fits k (l.flatMap f)) {a : α}
    (ha : a ∈ l) : Fits k (f a) :=
  h.mono fun _ hr => mem_flatMap.2 ⟨a, ha, hr⟩

theorem listRanges_eq (env : Environment) (b : Bool) (frames : Frames) (group : Option (List Row))
    (ts : List Tree) :
    listRanges env b frames group ts = ts.flatMap fun t => t.keyRanges env b frames group := by
  induction ts with
  | nil => rfl
  | cons t ts ih => rw [listRanges, ih, flatMap_cons]

theorem sortRanges_eq (env : Environment) (b : Bool) (frames : Frames) (group : Option (List Row))
    (ks : List (SortKey Tree)) :
    sortRanges env b frames group ks = ks.flatMap fun k => k.value.keyRanges env b frames group := by
  induction ks with
  | nil => rfl
  | cons k ks ih =>
    cases k
    rw [sortRanges, ih, flatMap_cons]

theorem columnRanges_eq (env : Environment) (b : Bool) (frames : Frames)
    (group : Option (List Row)) (cs : List (Column Tree)) :
    columnRanges env b frames group cs = cs.flatMap fun c => c.value.keyRanges env b frames group := by
  induction cs with
  | nil => rfl
  | cons c cs ih =>
    cases c
    rw [columnRanges, ih, flatMap_cons]

structure Select.Fits (env : Environment) (k : Mode) (frames : Frames) (s : Select Tree) : Prop where
  source : ∀ {t}, s.source = some t → HiveQuery.Fits k (t.keyRanges env k.applies frames none)
  filter : ∀ {row}, row ∈ (optionRows env frames s.source).values → ∀ {t}, s.filter = some t →
    HiveQuery.Fits k (t.keyRanges env k.applies (row :: frames) none)
  group : ∀ {row}, row ∈ (s.keptRows env frames).values → ∀ {t}, t ∈ s.group →
    HiveQuery.Fits k (t.keyRanges env k.applies (row :: frames) none)
  columns : ∀ {c}, c ∈ (s.contexts env frames).values → ∀ {d}, d ∈ s.columns →
    HiveQuery.Fits k (d.value.keyRanges env k.applies c.frames c.group)
  keys : ∀ {c}, c ∈ (s.contexts env frames).values → ∀ {d}, d ∈ s.order →
    HiveQuery.Fits k (d.value.keyRanges env k.applies c.frames c.group)
  skip : ∀ {t}, s.skip = some t → HiveQuery.Fits k (t.keyRanges env k.applies frames none)
  take : ∀ {t}, s.take = some t → HiveQuery.Fits k (t.keyRanges env k.applies frames none)
  own : k.sorted = true → ∀ {contexts}, s.contexts env frames = .ok contexts → ∀ {d}, d ∈ s.order →
    ∃ values, contexts.mapM (fun c => d.value.scalar env c.frames c.group) = .ok values ∧
      Sortable values

theorem Select.fits_of_keyRanges {frames : Frames}
    (h : HiveQuery.Fits k (s.keyRanges env k.applies frames)) : s.Fits env k frames := by
  obtain ⟨label, columns, source, filter, order, group, distinct, skip, take, reverse, cluster⟩ := s
  simp only [keyRanges, fits_append] at h
  obtain ⟨⟨⟨⟨⟨⟨hsource, hfilter⟩, hgroup⟩, hcontexts⟩, hskip⟩, htake⟩, hown⟩ := h
  refine ⟨?_, ?_, ?_, ?_, ?_, ?_, ?_, ?_⟩
  · rintro t rfl
    exact hsource
  · rintro row hrow t rfl
    exact hfilter.of_flatMap hrow
  · intro row hrow t ht
    have h := hgroup.of_flatMap hrow
    rw [listRanges_eq] at h
    exact h.of_flatMap ht
  · intro c hc d hd
    have h := (fits_append.1 (hcontexts.of_flatMap hc)).1
    rw [columnRanges_eq] at h
    exact h.of_flatMap hd
  · intro c hc d hd
    have h := (fits_append.1 (hcontexts.of_flatMap hc)).2
    rw [sortRanges_eq] at h
    exact h.of_flatMap hd
  · rintro t rfl
    exact hskip
  · rintro t rfl
    exact htake
  · intro hk contexts hc d hd
    obtain ⟨values, hv, hf⟩ := hown.sorted hk _ (mem_map.2 ⟨d, hd, rfl⟩) rfl
    obtain ⟨contexts', hc', hv⟩ := bind_eq_ok.1 hv
    rw [hc] at hc'
    cases hc'
    exact ⟨values, hv, hf.sortable⟩

theorem comparable_of_ranges {contexts : List Context} {order : List (SortKey Tree)}
    {keys : List (List Value)}
    (hkeys : Forall₂ (fun c key => keyValues env c.frames c.group order = .ok key)
      contexts keys)
    (hown : ∀ d ∈ order, ∃ values,
      contexts.mapM (fun c => d.value.scalar env c.frames c.group) = .ok values ∧
        Sortable values) :
    Comparable keys := by
  induction order generalizing keys with
  | nil =>
    refine fun directions => (compareKeys_comparesOn_nil directions).mono fun key hkey => ?_
    obtain ⟨c, _, hc⟩ := forall₂_mem_right hkeys hkey
    rw [keyValues] at hc
    exact (Except.ok.inj hc).symm
  | cons d order ih =>
    obtain ⟨values, hvalues, hsortable⟩ := hown d mem_cons_self
    rw [mapM_eq_ok] at hvalues
    have htails : Forall₂ (fun (c : Context) key =>
        keyValues env c.frames c.group order = .ok key) contexts (keys.map tail) := by
      refine forall₂_map_right_iff.2 (hkeys.imp fun c key hc => ?_)
      obtain ⟨v, vs, _, hvs, rfl⟩ := keyValues_cons_eq_ok.1 hc
      exact hvs
    have hrest : Comparable (keys.map tail) := ih htails fun d hd => hown d (.tail _ hd)
    refine fun directions => (compareKeys_comparesOn_cons hsortable hrest directions).mono fun key hkey => ?_
    obtain ⟨c, hc, hckey⟩ := forall₂_mem_right hkeys hkey
    obtain ⟨v, vs, hv, _, rfl⟩ := keyValues_cons_eq_ok.1 hckey
    obtain ⟨w, hw, hcw⟩ := forall₂_mem_left hvalues hc
    have hvw : v = w := Except.ok.inj (hv.symm.trans hcw)
    exact ⟨v, vs, rfl, hvw ▸ hw, mem_map.2 ⟨_, hkey, rfl⟩⟩

end HiveQuery
