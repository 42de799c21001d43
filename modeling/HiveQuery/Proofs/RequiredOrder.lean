import HiveQuery.Proofs.LoweredSelects

/-!
# Orders from below

A select without an order gives its rows in the order of the select that it reads from. Requiring an order makes that
explicit, by columns which the select gets for the purpose.
-/

namespace HiveQuery
open HiveQuery.Tree

variable {env : Environment}

namespace Select

/-! ## Where an order comes from -/

/-- The select whose order another one delivers its rows in: itself, or one that it reads from. -/
inductive OrderedBy : Select Tree → Select Tree → Prop
  | own {s : Select Tree} (order : s.order ≠ []) : OrderedBy s s
  | beneath {s inner b : Select Tree} {i : Option Identity} (order : s.order = []) (group : s.group = [])
      (source : s.source = some (.select inner i)) (orderedBy : OrderedBy inner b) : OrderedBy s b

theorem exists_orderedBy {s s' : Select Tree} {order : List (SortKey Tree)}
    (h : s.requireOrder = .ok (s', order)) : ∃ b, s.OrderedBy b := by
  suffices hall : ∀ t : Tree, ∀ s i, t = .select s i → ∀ {s' order}, s.requireOrder = .ok (s', order) →
      ∃ b, s.OrderedBy b from hall (.select s none) s none rfl h
  intro t
  induction t with
  | step t ih =>
    rintro s i rfl s' order h
    rcases requireOrder_cases h with ⟨horder, -, -⟩ | ⟨horder, hgroup, a, a', ha, hlift, -⟩
    · exact ⟨s, .own horder⟩
    · obtain ⟨inner, j, inner', order', -, rfl, hrequire, -, -⟩ := liftedOrder_cases hlift
      obtain ⟨b, hb⟩ := ih _ (by simp [clauses, ha]) inner j rfl hrequire
      exact ⟨b, .beneath horder hgroup ha hb⟩

/-- The values of the sort keys of a select on all of its rows. -/
def ownRanges (env : Environment) (frames : Frames) (s : Select Tree) : List KeyRange :=
  s.order.map fun k => ⟨false, do
    let contexts ← s.contexts env frames
    contexts.mapM fun c => k.value.scalar env c.frames c.group⟩

theorem sortedKeys_of_ownRanges {s : Select Tree} {frames : Frames}
    {rows : KeyedRows} (h : s.delivered env frames = .ok rows)
    (reverse : s.reverse = false) (comparable : RangesComparable (s.ownRanges env frames)) :
    SortedKeys s.directions (rows.map Prod.snd) := by
  refine sortedKeys_delivered h reverse fun {contexts} hcontexts {d} hd => ?_
  obtain ⟨values, hvalues, hfamily⟩ := comparable _ (List.mem_map_of_mem hd)
  obtain ⟨contexts', hcontexts', hvalues⟩ := bind_eq_ok.1 hvalues
  rw [hcontexts] at hcontexts'
  cases hcontexts'
  exact ⟨values, hvalues, hfamily.sortable⟩

/-! ## Rows in a required order -/

/-- One select gives the rows of another one, in the order of its own sort keys. -/
structure Sorts (env : Environment) (s o : Select Tree) : Prop where
  label : o.label = s.label
  form : s.SameForm o
  exact : ∀ key ∈ o.order, key.value.IsExact
  hygienic : (Tree.select o none).Hygienic []
  delivered : ∀ {rows}, s.delivered env [] = .ok rows → ∃ rows', o.delivered env [] = .ok rows' ∧
    rows'.map Prod.fst = rows.map Prod.fst ∧ SortedKeys o.directions (rows'.map Prod.snd)

variable {s inner o : Select Tree} {i : Option Identity} {extra : List (Column Tree)}
  {lifted : List (SortKey Tree)}

theorem clausesAgree_lifted {j : Option Identity} (nodup : (select s j).declared.Nodup) (order : s.order = [])
    (source : s.source = some (.select inner i)) (label : o.label = inner.label)
    (run : Run.Agree true Eq (inner.run env []) (o.run env []))
    (lifts : o.Lifts o.order extra lifted) (aggregates : ∀ key ∈ lifted, key.value.hasAggregate = false) :
    ClausesAgree env ⟨true, false, false, false, false⟩ [] []
      ((Reads.same []).within s.sourceAliases [inner.label] sameName) s
      { s with source := some (.select (o.widen extra) none), order := lifted } := by
  let k : Mode := ⟨true, false, false, false, false⟩
  have haliases : s.sourceAliases = [inner.label] := sourceAliases_of_source source
  have haliases' : ({ s with source := some (.select (o.widen extra) none), order := lifted } :
      Select Tree).sourceAliases = [inner.label] := by
    rw [← label]
    rfl
  have hself : ∀ {μ : Reads} (a : Tree), a ∈ s.clauses → (∀ c, μ.Links c c) →
      Refines env k (.scalar μ a a) := by
    intro μ a ha hlinks
    refine ((Tree.Rerouted.of_self (fun _ => rfl) a).replaces ?_
      ⟨fun c d _ (hcd : c = d) => hcd ▸ hlinks c, fun _ _ _ h _ => h.symm, fun _ _ _ h _ => h.symm⟩).scalar
    exact nodup.sublist (declared_of_child (t := .select s j) ha)
  have hlinks : ∀ c, ((Reads.same []).within s.sourceAliases [inner.label] sameName).Links c c := by
    intro c hc
    rw [haliases] at hc ⊢
    exact ⟨hc, .inl ⟨by simpa [Reads.within, Reads.same] using hc,
      by simpa [Reads.within, Reads.same] using hc, rfl⟩⟩
  have hinner : ∀ a ∈ s.inner, Refines env k
      (.scalar ((Reads.same []).within s.sourceAliases [inner.label] sameName) a a) := fun a ha =>
    hself a (s.mem_clauses_of_inner ha) hlinks
  have hbounds : ∀ a ∈ s.bounds, Refines env k (.scalar (Reads.same []) a a) := fun a ha =>
    hself a (s.mem_clauses_of_bounds ha) fun c hc => by cases hc
  have hcolumns : ∀ {c : Column Tree}, c ∈ s.columns → c.value ∈ s.inner := fun hc =>
    List.mem_append_right _ (List.mem_map_of_mem hc)
  have hzip : ∀ {α : Type} {l : List α} {p : α × α}, p ∈ l.zip l → p.2 = p.1 := by
    intro α l p hp
    obtain ⟨n, hn, rfl⟩ := List.mem_iff_getElem.1 hp
    simp
  rw [← haliases']
  refine clauses_agree ⟨by rw [source]; rfl, rfl, rfl, rfl, ?_, rfl, rfl, .inl rfl, rfl⟩ ?_ ?_ ?_ ?_ ?_ ?_ ?_
    (.same true (by rintro _ ⟨⟩)) (fits_of_keyRanges (.of_not_asked rfl rfl))
  · exact Select.Visited.isGrouped_lifted order aggregates
  · rintro t u ht hu
    cases ht.symm.trans hu
    rw [haliases']
    exact (hinner t (by simp [Select.inner, ht])).holds
  · intro p hp
    rw [haliases', hzip hp]
    exact (hinner p.1 (by simp [Select.inner, (List.of_mem_zip hp).1])).holds
  · intro p hp
    rw [hzip hp]
    exact (hinner _ (hcolumns (List.of_mem_zip hp).1)).sameNumbering
  · intro p hp
    rw [haliases', hzip hp]
    exact (hinner _ (hcolumns (List.of_mem_zip hp).1)).holds
  · intro t u ht hu
    cases ht.symm.trans hu
    exact (hbounds t (by simp [bounds, ht])).holds
  · intro t u ht hu
    cases ht.symm.trans hu
    exact (hbounds t (by simp [bounds, ht])).holds
  · rintro t u ht ⟨⟩
    rw [source] at ht
    cases ht
    refine ⟨?_, fun _ _ hk => by cases hk⟩
    have hrows := widened_rows extra i none run lifts.widens fun _ => lifts.values
    exact hrows

theorem Sorts.lift {j : Option Identity} (h : inner.Sorts env o) (lifts : o.Lifts o.order extra lifted)
    (order : s.order = []) (group : s.group = []) (source : s.source = some (.select inner i))
    (nodup : (select s j).declared.Nodup) (hygienic : (select s none).Hygienic [])
    (headers : inner.headers.Nodup) (reverse : s.reverse = false) :
    s.Sorts env { s with source := some (.select (o.widen extra) none), order := lifted } := by
  have hdelivers : (o.widen extra).Delivers env [] lifted :=
    lifts.delivers h.hygienic h.exact (h.form.headers ▸ headers)
  have hlocal : ∀ key ∈ lifted, key.value.IsLocal ∧ key.value.hasAggregate = false := by
    intro key hkey
    obtain ⟨c, hvalue, _⟩ := hdelivers.columns key hkey
    rw [hvalue]
    exact ⟨isLocal_column c, hasAggregate_column c⟩
  have hrun : Run.Agree true Eq (inner.run env []) (o.run env []) := by
    refine run_agree_of_delivered h.form.headers fun rows hrows => ?_
    obtain ⟨rows', hrows', hvalues, _⟩ := h.delivered hrows
    refine ⟨fun _ => ⟨rows', hrows'⟩, fun rows'' hrows'' => ?_⟩
    cases hrows''.symm.trans hrows'
    exact hvalues
  have hclauses := clausesAgree_lifted nodup order source h.label hrun lifts fun key hkey =>
    (hlocal key hkey).2
  have hform : s.SameForm { s with source := some (.select (o.widen extra) none), order := lifted } :=
    ⟨by rw [source]; rfl, rfl, rfl, rfl, Visited.isGrouped_lifted order fun key hkey => (hlocal key hkey).2,
      rfl, rfl, .inl rfl, rfl⟩
  refine ⟨rfl, hform, fun key hkey => (hlocal key hkey).1.exact, ?_, fun {rows} hrows => ?_⟩
  · refine hygienic_reordered hygienic (lifts.hygienic_widen h.hygienic) ?_ fun key hkey =>
      (hlocal key hkey).1
    rw [sourceAliases_of_source source, sources, sources, ← h.label]
    rfl
  · have hlifted := hclauses.lifted hform order fun {contexts contexts'} hcontexts hcontexts' => by
      obtain ⟨below, hbelow⟩ := exists_delivered_of_contexts source hcontexts
      obtain ⟨rows, hrows, -, hsorted⟩ := h.delivered hbelow
      obtain ⟨wide, hwide⟩ := exists_delivered_of_contexts rfl hcontexts'
      refine hdelivers.sortedKeys (by simp [Frames.Within]) rfl group hcontexts' hwide ?_
      obtain ⟨rows', hrows', hext⟩ := widen_delivered lifts.widens hwide
      cases hrows.symm.trans hrows'
      rw [map_eq_of_forall₂ hext (f := Prod.snd) fun _ _ h => h.1]
      exact hsorted
    obtain ⟨rows', hrows'⟩ := (hlifted rows hrows).1 rfl
    obtain ⟨hvalues, hsorted⟩ := (hlifted rows hrows).2 rows' hrows'
    exact ⟨rows', hrows', hvalues, hsorted reverse⟩

/-- Requiring an order keeps the rows. -/
theorem OrderedBy.sorts {b : Select Tree} (h : s.OrderedBy b) (exact : ∀ key ∈ b.order, key.value.IsExact)
    (comparable : RangesComparable (b.ownRanges env [])) {s' : Select Tree} {order : List (SortKey Tree)}
    (required : s.requireOrder = .ok (s', order)) (nodup : (select s i).declared.Nodup)
    (plain : (select s i).Every fun u => ∀ s, u.select? = some s → s.headers.Nodup ∧ s.reverse = false) :
    s.Sorts env (s'.sortedBy order) := by
  have hygienic : (select s none).Hygienic [] :=
    hygienic_iff.2 (hygienic_iff.1 (hygienic_of_nodup nodup (by simp)))
  induction h generalizing s' order i with
  | @own s horder =>
    rcases requireOrder_cases required with ⟨-, rfl, rfl⟩ | ⟨hnil, -⟩
    · refine ⟨rfl, ⟨rfl, rfl, rfl, rfl, rfl, rfl, rfl, .inl rfl, rfl⟩, exact, hygienic,
        fun hrows => ⟨_, hrows, rfl, ?_⟩⟩
      exact sortedKeys_of_ownRanges hrows ((every_iff.1 plain).1 _ rfl).2 comparable
    · exact absurd hnil horder
  | @beneath s inner b j horder hgroup hsource hinner ih =>
    rcases requireOrder_cases required with ⟨hne, -⟩ | ⟨-, -, a, a', ha, hlift, rfl⟩
    · exact absurd horder hne
    obtain ⟨_, _, inner', order', o', rfl, hrequire, hkeys, rfl⟩ := liftedOrder_cases hlift
    rw [hsource] at ha
    cases ha
    have hchild : select inner j ∈ (select s i).children := by
      simp [clauses, hsource]
    -- the select below, with its own order made explicit
    have hsorts : inner.Sorts env (inner'.sortedBy order') :=
      ih exact comparable hrequire (nodup.sublist (declared_of_child hchild))
        (plain.child hchild)
        (hygienic_iff.2 (hygienic_iff.1 (hygienic.source hsource)))
    generalize ho : (inner'.sortedBy order') = o at hsorts hkeys
    obtain ⟨extra, rfl, hlifts⟩ := liftOrder_spec hsorts.exact hkeys
    obtain ⟨hplain, hplains⟩ := every_iff.1 plain
    exact hsorts.lift hlifts horder hgroup hsource nodup hygienic
      ((every_iff.1 (hplains _ hchild)).1 _ rfl).1 (hplain _ rfl).2

end Select

end HiveQuery
