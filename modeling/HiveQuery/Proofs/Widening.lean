import HiveQuery.Proofs.Refinement

/-!
# Selects with more columns

More columns at the end of a select leave its rows as they are, as long as they do not turn it into an
aggregation and repeated rows are kept: each row is the same row with more values.
-/

namespace HiveQuery
open List

variable {cs : List (Column Tree)} {group : Option (List Row)} {produced : KeyedRows}
  {c : Context}

variable {env : Environment} {frames : Frames}

def Context.pad (c : Context) (count : Nat) : Context :=
  match c.group with
  | some _ => c
  | none => { c with numbers := c.numbers ++ replicate count none }

theorem Context.pad_frames (c : Context) (count : Nat) : (c.pad count).frames = c.frames := by
  unfold pad
  split <;> rfl

theorem Context.pad_group (c : Context) (count : Nat) : (c.pad count).group = c.group := by
  unfold pad
  split <;> rfl

/-! ## Numbers -/

theorem rowNumbers_append (rows : List Row) (cs extra : List (Column Tree)) :
    rowNumbers env frames rows (cs ++ extra) = (do
      let numbers ← rowNumbers env frames rows cs
      let more ← rowNumbers env frames rows extra
      return numbers ++ more) := by
  simp only [rowNumbers_eq, mapM_append]

theorem rowNumbers_length {rows : List Row} {numbers : List (List Nat)}
    (h : rowNumbers env frames rows cs = .ok numbers) : numbers.length = cs.length := by
  rw [rowNumbers_eq] at h
  exact (mapM_eq_ok.1 h).length_eq.symm

theorem columnValues_append (numbers : List (Option Nat))
    (cs extra : List (Column Tree)) :
    columnValues env frames group numbers (cs ++ extra) = (do
      let values ← columnValues env frames group numbers cs
      let more ← columnValues env frames group (numbers.drop cs.length) extra
      return values ++ more) := by
  induction cs generalizing numbers with
  | nil =>
    simp only [nil_append, columnValues, length_nil, drop_zero]
    show _ = (columnValues env frames group numbers extra >>= pure)
    rw [bind_pure]
  | cons c cs ih =>
    cases c
    have hdrop : numbers.drop (cs.length + 1) = numbers.tail.drop cs.length := by
      rw [← drop_one, drop_drop, Nat.add_comm]
    simp only [cons_append, columnValues, ih, length_cons, hdrop]
    cases numbers.head?.join <;> simp only [bind_assoc, pure_bind] <;> rfl

theorem columnValues_append_of_length {numbers : List (Option Nat)} (h : numbers.length = cs.length)
    (more : List (Option Nat)) (extra : List (Column Tree)) :
    columnValues env frames group (numbers ++ more) (cs ++ extra) = (do
      let values ← columnValues env frames group numbers cs
      let moreValues ← columnValues env frames group more extra
      return values ++ moreValues) := by
  induction cs generalizing numbers with
  | nil =>
    rw [length_eq_zero_iff.1 h]
    show _ = (columnValues env frames group more extra >>= pure)
    rw [bind_pure]
    rfl
  | cons c cs ih =>
    cases numbers with
    | nil => simp at h
    | cons n numbers =>
      cases c
      simp only [cons_append, columnValues, ih (Nat.succ.inj h), head?_cons, tail_cons]
      cases Option.join (some n) <;> simp only [bind_assoc, pure_bind] <;> rfl

/-! ## Stages -/

theorem Select.Unsortable.contexts_eq_nil {s : Select Tree} (unsortable : s.Unsortable)
    (h : s.produced env frames = .ok produced) : s.contexts env frames = .ok [] ∧ produced = [] := by
  have fails : ∀ (order : List (SortKey Tree)) (c : Context) (key : List Value),
      (∃ d ∈ order, d.value.isRowNumber = true) →
      keyValues env c.frames c.group order ≠ .ok key := by
    intro order
    induction order with
    | nil => rintro c key ⟨d, hd, _⟩; exact absurd hd not_mem_nil
    | cons d order ih =>
      rintro c key ⟨d', hd', hn⟩ hkey
      obtain ⟨v, vs, hv, hvs, _⟩ := keyValues_cons_eq_ok.1 hkey
      rcases mem_cons.1 hd' with rfl | hd'
      · cases hd : d'.value <;> rw [hd] at hn hv <;> simp [Tree.isRowNumber, Tree.scalar] at hn hv
      · exact ih c vs ⟨d', hd', hn⟩ hvs
  obtain ⟨contexts, hc, hproduced⟩ := produced_eq_ok.1 h
  cases hproduced with
  | nil => exact ⟨hc, rfl⟩
  | cons hp _ => exact absurd hp.2 (fails _ _ _ unsortable)

namespace Select

variable {s : Select Tree} {extra : List (Column Tree)}

theorem widen_isGrouped (h : ∀ e ∈ extra, e.value.hasAggregate = true → s.isGrouped = true) :
    (s.widen extra).isGrouped = s.isGrouped := by
  have hhas : (s.widen extra).hasAggregates =
      (s.hasAggregates || extra.any fun e => e.value.hasAggregate) := by
    simp only [hasAggregates, widen, any_append, Bool.or_assoc]
  rw [isGrouped, hhas, ← Bool.or_assoc]
  show (s.isGrouped || _) = s.isGrouped
  cases hg : s.isGrouped with
  | true => rfl
  | false =>
    rw [Bool.false_or, any_eq_false]
    intro e he hagg
    exact absurd (h e he hagg) (by rw [hg]; decide)

theorem widen_contexts (hrows : ∀ e ∈ extra, e.value.isRowNumber = false)
    (hgrouped : ∀ e ∈ extra, e.value.hasAggregate = true → s.isGrouped = true) :
    (s.widen extra).contexts env frames = (do
      let contexts ← s.contexts env frames
      return contexts.map fun c => c.pad extra.length) := by
  rw [contexts, contexts, widen_isGrouped hgrouped, bind_assoc]
  refine bind_congr fun rows => ?_
  cases s.isGrouped with
  | true =>
    simp only [if_true, bind_assoc, pure_bind]
    refine bind_congr fun keys => ?_
    rw [groupContexts, groupContexts, map_map]
    rfl
  | false =>
    simp only [Bool.false_eq_true, if_false, bind_assoc, pure_bind]
    rw [show (s.widen extra).columns = s.columns ++ extra from rfl, rowNumbers_append,
      rowNumbers_of_unnumbered hrows, bind_assoc]
    refine bind_congr fun numbers => ?_
    show (pure (rowContexts _ _ _) : Run _) = _
    rw [rowContexts, rowContexts, map_map]
    congr 1
    refine map_congr_left fun p _ => ?_
    simp [Context.pad]

theorem numbers_length_le {contexts : List Context} (h : s.contexts env frames = .ok contexts) (hc : c ∈ contexts) :
    c.numbers.length ≤ s.columns.length := by
  obtain ⟨rows, _, h⟩ := contexts_eq_ok.1 h
  rcases h with ⟨_, keys, _, rfl⟩ | ⟨_, numbers, hn, rfl⟩
  · obtain ⟨members, _, rfl⟩ := mem_map.1 hc
    exact Nat.zero_le _
  · obtain ⟨p, _, rfl⟩ := mem_map.1 hc
    rw [length_map, rowNumbers_length hn]

/-- The values of a row are followed by those of the new columns. -/
theorem widen_valuesAt (h : c.numbers.length ≤ s.columns.length) :
    (s.widen extra).valuesAt env (c.pad extra.length) = (do
      let values ← s.valuesAt env c
      let more ← columnValues env c.frames c.group [] extra
      return values ++ more) := by
  have hvalues : (s.widen extra).valuesAt env (c.pad extra.length) =
      columnValues env c.frames c.group c.numbers (s.columns ++ extra) := by
    rw [valuesAt, Context.pad_frames, Context.pad_group]
    unfold Context.pad
    split
    · rfl
    · exact columnValues_pad _ _ _
  rw [hvalues, columnValues_append, drop_eq_nil_of_le h]
  rfl

theorem widen_keysAt (c : Context) : (s.widen extra).keysAt env (c.pad extra.length) = s.keysAt env c := by
  rw [keysAt, keysAt, Context.pad_frames, Context.pad_group]
  rfl

def Extends (p p' : List Value × List Value) : Prop :=
  p'.2 = p.2 ∧ ∃ more, p'.1 = p.1 ++ more

theorem widen_produced (hrows : ∀ e ∈ extra, e.value.isRowNumber = false)
    (hgrouped : ∀ e ∈ extra, e.value.hasAggregate = true → s.isGrouped = true)
    {produced' : KeyedRows}
    (h : (s.widen extra).produced env frames = .ok produced') :
    ∃ produced, s.produced env frames = .ok produced ∧ Forall₂ Extends produced produced' := by
  obtain ⟨contexts', hcontexts', hproduced'⟩ := produced_eq_ok.1 h
  rw [widen_contexts hrows hgrouped] at hcontexts'
  obtain ⟨contexts, hcontexts, e⟩ := bind_eq_ok.1 hcontexts'
  rw [pure_eq_ok.1 e, forall₂_map_left_iff] at hproduced'
  have hstep : Forall₂ (fun c p' => ∃ p, (s.valuesAt env c = .ok p.1 ∧
      s.keysAt env c = .ok p.2) ∧ Extends p p') contexts produced' := by
    refine forall₂_imp_mem hproduced' fun c p' hc ⟨hv, hk⟩ => ?_
    rw [widen_keysAt] at hk
    rw [widen_valuesAt (numbers_length_le hcontexts hc)] at hv
    obtain ⟨values, hvalues, hv⟩ := bind_eq_ok.1 hv
    obtain ⟨more, _, hv⟩ := bind_eq_ok.1 hv
    exact ⟨(values, p'.2), ⟨hvalues, hk⟩, rfl, more, pure_eq_ok.1 hv⟩
  obtain ⟨produced, hproduced, hext⟩ := forall₂_exists hstep
  exact ⟨produced, produced_eq_ok.2 ⟨contexts, hcontexts, hproduced⟩, hext⟩

theorem Extends.refl (p : List Value × List Value) : Extends p p := ⟨rfl, [], by simp⟩

theorem contexts_nil_of_same {s' : Select Tree} (hsource : s'.source = s.source)
    (hfilter : s'.filter = s.filter) (hgroup : s'.group = s.group)
    (hgrouped : s'.isGrouped = s.isGrouped) (h : s.contexts env frames = .ok []) :
    s'.contexts env frames = .ok [] := by
  obtain ⟨rows, hrows, h⟩ := contexts_eq_ok.1 h
  have hrows' : s'.keptRows env frames = .ok rows := by
    rw [← hrows, keptRows, keptRows, hsource, hfilter]
  refine contexts_eq_ok.2 ⟨rows, hrows', ?_⟩
  rw [hgrouped, hgroup, sourceAliases, hsource]
  rcases h with h | ⟨hg, numbers, _, h⟩
  · exact .inl h
  · have hnil : rows = [] := by simpa [rowContexts] using h.symm
    subst hnil
    obtain ⟨numbers', h'⟩ : ∃ numbers, rowNumbers env frames [] s'.columns = .ok numbers := by
      simp only [rowNumbers_eq, mapM_eq_ok]
      refine exists_forall₂ fun c _ => ?_
      cases c.value <;> exact ⟨_, rfl⟩
    exact .inr ⟨hg, numbers', h', rfl⟩

/-- More columns neither make a select an aggregation nor keep apart what is repeated, and are not numbered
unless there are no rows. -/
structure Widens (s : Select Tree) (extra : List (Column Tree)) : Prop where
  plain : extra ≠ [] → s.distinct = false
  unsortable : ∀ e ∈ extra, e.value.isRowNumber = true → s.Unsortable
  grouped : ∀ e ∈ extra, e.value.hasAggregate = true → s.isGrouped = true

variable (widens : s.Widens extra)
include widens

/-- Each delivered row is a row with more values. -/
theorem widen_delivered {rows' : KeyedRows}
    (h : (s.widen extra).delivered env frames = .ok rows') :
    ∃ rows, s.delivered env frames = .ok rows ∧ Forall₂ Extends rows rows' := by
  by_cases hextra : extra = []
  · subst hextra
    have hs : s.widen [] = s := by simp [widen]
    rw [hs] at h
    exact ⟨rows', h, forall₂_same.2 fun p _ => .refl p⟩
  obtain ⟨produced', skipped, taken, hp, hskip, htake, rfl⟩ := delivered_eq_ok.1 h
  by_cases hsort : s.Unsortable
  · have hsort' : (s.widen extra).Unsortable := hsort
    obtain ⟨hcontexts', rfl⟩ := hsort'.contexts_eq_nil hp
    have hcontexts : s.contexts env frames = .ok [] :=
      contexts_nil_of_same (s := s.widen extra) rfl rfl rfl (widen_isGrouped widens.grouped).symm hcontexts'
    exact ⟨_, delivered_eq_ok.2 ⟨[], skipped, taken,
      produced_eq_ok.2 ⟨[], hcontexts, .nil⟩, hskip, htake, rfl⟩,
      forall₂_same.2 fun p _ => .refl p⟩
  · have hnumbers : ∀ e ∈ extra, e.value.isRowNumber = false := fun e he =>
      Bool.eq_false_iff.2 fun hn => hsort (widens.unsortable e he hn)
    obtain ⟨produced, hp, hext⟩ := widen_produced hnumbers widens.grouped hp
    refine ⟨_, delivered_eq_ok.2 ⟨produced, skipped, taken, hp, hskip, htake, rfl⟩, ?_⟩
    refine page_forall₂ skipped taken ?_
    rw [show (s.widen extra).distinct = s.distinct from rfl, widens.plain hextra]
    exact arrange_forall₂ (fun h => h.1) s.reverse s.directions hext

theorem widen_run {r' : Relation} (h : (s.widen extra).run env frames = .ok r') :
    ∃ r, s.run env frames = .ok r ∧ r'.headers = r.headers ++ extra.map Column.name ∧
      Forall₂ (fun v v' => ∃ more, v' = v ++ more) r.rows r'.rows := by
  obtain ⟨rows', hrows', rfl⟩ := run_eq_ok.1 h
  obtain ⟨rows, hdelivered, hext⟩ := widen_delivered widens hrows'
  refine ⟨_, run_eq_ok.2 ⟨rows, hdelivered, rfl⟩, ?_, ?_⟩
  · simp [headers, widen]
  · exact forall₂_map_iff.2 (hext.imp fun _ _ hp => hp.2)

theorem exists_widen_produced (hkeys : ∀ e ∈ extra, ∃ key ∈ s.order, key.value = e.value)
    (hp : s.produced env frames = .ok produced) : ∃ produced', (s.widen extra).produced env frames = .ok produced' := by
  by_cases hsort : s.Unsortable
  · have hcontexts : (s.widen extra).contexts env frames = .ok [] :=
      contexts_nil_of_same (s := s) rfl rfl rfl (widen_isGrouped widens.grouped) (hsort.contexts_eq_nil hp).1
    exact ⟨[], produced_eq_ok.2 ⟨[], hcontexts, .nil⟩⟩
  have hnumbers : ∀ e ∈ extra, e.value.isRowNumber = false := fun e he =>
    Bool.eq_false_iff.2 fun hn => hsort (widens.unsortable e he hn)
  obtain ⟨contexts, hcontexts, hproduced⟩ := produced_eq_ok.1 hp
  have hmore : ∀ (c : Context) (key : List Value), s.keysAt env c = .ok key →
      ∃ more, columnValues env c.frames c.group [] extra = .ok more := by
    intro c key hkey
    rw [keysAt, keyValues_eq_ok] at hkey
    obtain ⟨more, hmore⟩ := exists_forall₂ (l := extra)
      (R := fun e v => e.value.scalar env c.frames c.group = .ok v) fun e he => by
        obtain ⟨d, hd, hde⟩ := hkeys e he
        obtain ⟨v, _, hv⟩ := forall₂_mem_left hkey hd
        exact ⟨v, hde ▸ hv⟩
    exact ⟨more, columnValues_eq_ok.2 hmore⟩
  have hstep : Forall₂ (fun c p => ∃ p' : List Value × List Value,
      ((s.widen extra).valuesAt env (c.pad extra.length) = .ok p'.1 ∧
        (s.widen extra).keysAt env (c.pad extra.length) = .ok p'.2) ∧ True)
      contexts produced := by
    refine forall₂_imp_mem hproduced fun c p hc ⟨hv, hk⟩ => ?_
    obtain ⟨more, hmore⟩ := hmore c p.2 hk
    refine ⟨(p.1 ++ more, p.2), ⟨?_, ?_⟩, trivial⟩
    · rw [widen_valuesAt (numbers_length_le hcontexts hc)]
      exact bind_eq_ok.2 ⟨p.1, hv, bind_eq_ok.2 ⟨more, hmore, rfl⟩⟩
    · rw [widen_keysAt]
      exact hk
  obtain ⟨produced', hproduced', _⟩ := forall₂_exists hstep
  have hcontexts' : (s.widen extra).contexts env frames = .ok (contexts.map fun c => c.pad extra.length) := by
    rw [widen_contexts hnumbers widens.grouped, hcontexts]
    rfl
  exact ⟨produced', produced_eq_ok.2 ⟨_, hcontexts', forall₂_map_left_iff.2 hproduced'⟩⟩

theorem exists_widen_delivered (hkeys : ∀ e ∈ extra, ∃ key ∈ s.order, key.value = e.value)
    {rows : KeyedRows} (h : s.delivered env frames = .ok rows) :
    ∃ rows', (s.widen extra).delivered env frames = .ok rows' := by
  obtain ⟨produced, skipped, taken, hp, hskip, htake, _⟩ := delivered_eq_ok.1 h
  obtain ⟨produced', hp'⟩ := exists_widen_produced widens hkeys hp
  exact ⟨_, delivered_eq_ok.2 ⟨produced', skipped, taken, hp', hskip, htake, rfl⟩⟩

end Select

end HiveQuery
