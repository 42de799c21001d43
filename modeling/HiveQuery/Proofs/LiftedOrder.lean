import HiveQuery.Proofs.Equality

/-!
# Orders in terms of columns

A layer above a select sorts by its columns. Lifting an order adds columns for the sort keys that have
none, and each of the lifted keys reads a column that computes the key.
-/

namespace HiveQuery

variable {t u : Tree}
open List

variable {id id' : Identity} {P : Tree → Prop} {l : SortKey Tree} {c : Context}
  {rows : KeyedRows} {p : List Value × List Value} {contexts : List Context}
  {values : List Value}

/-! ## Free names -/

theorem toString_nat_inj {n m : Nat} (h : toString n = toString m) : n = m := by
  have hdigits : Nat.toDigits 10 n = Nat.toDigits 10 m := String.ofList_injective h
  rw [← Nat.ofDigitChars_ten_toDigits (n := n), hdigits, Nat.ofDigitChars_ten_toDigits]

theorem numbered_nodup (base : String) (count : Nat) :
    ((range count).map fun n => base ++ toString (n + 1)).Nodup := by
  refine nodup_range.map fun n m h => ?_
  exact Nat.succ_injective (toString_nat_inj ((String.append_right_inj base).1 h))

theorem freeName_of_mem {taken : List String} {base : String} (h : base ∈ taken) :
    ∃ n ≤ taken.length, freeName taken base = base ++ toString (n + 1) ∧ base ++ toString (n + 1) ∉ taken ∧
      ∀ m < n, base ++ toString (m + 1) ∈ taken := by
  have hfree : ∃ n ∈ range (taken.length + 1), base ++ toString (n + 1) ∉ taken := by
    by_contra hall
    push Not at hall
    have hlen := (numbered_nodup base (taken.length + 1)).length_le_of_subset (forall_mem_map.2 hall)
    rw [length_map, length_range] at hlen
    omega
  have hfind : ((range (taken.length + 1)).find? fun n => !taken.contains (base ++ toString (n + 1))).isSome := by
    simpa using hfree
  obtain ⟨n, hn⟩ := Option.isSome_iff_exists.1 hfind
  obtain ⟨hname, hrange, hbefore⟩ := find?_range_eq_some.1 hn
  refine ⟨n, Nat.lt_succ_iff.1 (mem_range.1 hrange), ?_, by simpa using hname, fun m hm => by simpa using hbefore m hm⟩
  simp only [freeName, if_pos (contains_iff_mem.2 h), find?_map]
  exact congrArg (fun o => (o.map fun n => base ++ toString (n + 1)).getD base) hn

theorem freeName_of_not_mem {taken : List String} {base : String} (h : base ∉ taken) : freeName taken base = base :=
  if_neg (by simpa using h)

theorem freeName_not_mem (taken : List String) (base : String) : freeName taken base ∉ taken := by
  by_cases h : base ∈ taken
  · obtain ⟨n, _, hname, hfree, _⟩ := freeName_of_mem h
    exact hname ▸ hfree
  · rwa [freeName_of_not_mem h]

/-- A name that no column has is found among the base and as many numbered names as there are columns, and one
more. It is the base if that is free, and otherwise the base with the least number from one on that gives a free
name. -/
theorem freeName_least {α : Type} (columns : List (Column α)) (base : String) :
    (∀ c ∈ columns, c.name ≠ freeName (columns.map Column.name) base) ∧
      ((∀ c ∈ columns, c.name ≠ base) → freeName (columns.map Column.name) base = base) ∧
      ((∃ c ∈ columns, c.name = base) → ∃ n, 1 ≤ n ∧ n ≤ columns.length + 1 ∧
        freeName (columns.map Column.name) base = base ++ toString n ∧
        ∀ m, 1 ≤ m → m < n → ∃ c ∈ columns, c.name = base ++ toString m) := by
  refine ⟨fun c hc hname => freeName_not_mem _ base (mem_map.2 ⟨c, hc, hname⟩), fun h => ?_, fun h => ?_⟩
  · exact freeName_of_not_mem (by simpa using h)
  · obtain ⟨n, hn, hname, -, hbefore⟩ := freeName_of_mem (mem_map.2 h)
    rw [length_map] at hn
    refine ⟨n + 1, Nat.succ_pos n, Nat.succ_le_succ hn, hname, fun m hm hmn => ?_⟩
    obtain ⟨k, rfl⟩ := Nat.exists_eq_add_of_le' hm
    exact mem_map.1 (hbefore k (Nat.lt_of_succ_lt_succ hmn))

example : freeName ["id", "id1", "id", "id3"] "id" = "id2" := by decide

theorem Tree.holdsIdentified_of_isExact (h : t.IsExact) : t.holdsIdentified = false := by
  rw [holdsIdentified, any_eq_false]
  intro u hu
  have hexact : u.isInexact = false := h u hu
  cases u <;> simp_all [isInexact]

theorem Tree.identifyNode_cases (h : t.identifyNode.run id = (u, id')) :
    (u = t ∧ (t.isUndefined = true → t.identity?.isSome = true)) ∨
      (∃ x, t = .constant (.double x) ∧ x.isNaN = true ∧ u = .undefined id) ∨
      (∃ s, t = .select s none ∧ u = .select s (some id)) ∨
      (∃ j, t = .join j none ∧ u = .join j (some id)) ∨
      ∃ q shape, t = .projection q shape none ∧ u = .projection q shape (some id) := by
  unfold identifyNode at h
  cases t with
  | undefined i => exact .inl ⟨(Prod.mk.inj h).1.symm, fun _ => rfl⟩
  | constant v =>
    cases v with
    | double x =>
      cases hx : x.isNaN with
      | true =>
        simp only [hx, if_true] at h
        exact .inr (.inl ⟨x, rfl, hx, (Prod.mk.inj h).1.symm⟩)
      | false =>
        simp only [hx, Bool.false_eq_true, if_false] at h
        exact .inl ⟨(Prod.mk.inj h).1.symm, fun hundefined => absurd (hx.symm.trans hundefined) (by simp)⟩
    | _ => exact .inl ⟨(Prod.mk.inj h).1.symm, fun h => (nomatch h)⟩
  | select s i =>
    cases i with
    | none => exact .inr (.inr (.inl ⟨s, rfl, (Prod.mk.inj h).1.symm⟩))
    | some i => exact .inl ⟨(Prod.mk.inj h).1.symm, fun h => (nomatch h)⟩
  | join j i =>
    cases i with
    | none => exact .inr (.inr (.inr (.inl ⟨j, rfl, (Prod.mk.inj h).1.symm⟩)))
    | some i => exact .inl ⟨(Prod.mk.inj h).1.symm, fun h => (nomatch h)⟩
  | projection q shape i =>
    cases i with
    | none => exact .inr (.inr (.inr (.inr ⟨q, shape, rfl, (Prod.mk.inj h).1.symm⟩)))
    | some i => exact .inl ⟨(Prod.mk.inj h).1.symm, fun h => (nomatch h)⟩
  | _ => exact .inl ⟨(Prod.mk.inj h).1.symm, fun h => (nomatch h)⟩

theorem Tree.identifyNode_keeps (h : t.identifyNode.run id = (u, id')) :
    t.SameNode Eq u ∨ ∃ x, t = .constant (.double x) ∧ x.isNaN = true ∧ u = .undefined id := by
  have hself : ∀ t : Tree, t.SameNode Eq t := fun t => .of_self fun _ _ => rfl
  rcases identifyNode_cases h with ⟨rfl, -⟩ | hundefined | ⟨s, rfl, rfl⟩ | ⟨j, rfl, rfl⟩ |
    ⟨q, shape, rfl, rfl⟩
  · exact .inl (hself u)
  · exact .inr hundefined
  · cases hself (.select s none) with
    | select _ _ label same => exact .inl (.select _ _ label same)
  · cases hself (.join j none) with
    | join kind _ _ left right condition => exact .inl (.join kind _ _ left right condition)
  · exact .inl (.projection _ _ rfl rfl)

theorem Tree.identify_gives (id : Identity) (t : Tree) : (Outcome.state Identity).gives (t.bottomUp identifyNode) id
    (t.identify id) ((t.bottomUp identifyNode).run id).2 := rfl

theorem Tree.identify_every
    (same : ∀ {a b : Tree}, a.SameHead b → P a → P b) (undefined : ∀ id, P (.undefined id))
    (id : Identity) (ht : t.Every P) : (t.identify id).Every P := by
  refine bottomUp_every _ same (fun hnode ha hchildren => ?_) (t.identify_gives id) ht
  rcases identifyNode_keeps hnode with hsame | ⟨x, rfl, -, rfl⟩
  · have hequal := forall₂_eq_eq_eq ▸ hsame.children
    exact every_iff.2 ⟨same (hsame.imp fun _ _ _ _ => trivial) ha, hequal ▸ hchildren⟩
  · exact every_iff.2 ⟨undefined _, nofun⟩

/-- A sort key as it is, or with more identities if it has some. -/
inductive Tree.KeptKey : Tree → Tree → Prop
  | same (t : Tree) : KeptKey t t
  | identified {t : Tree} (holds : t.holdsIdentified = true) (id : Identity) : KeptKey t (t.identify id)

theorem Tree.KeptKey.every (h : t.KeptKey u)
    (same : ∀ {a b : Tree}, a.SameHead b → P a → P b) (undefined : ∀ id, P (.undefined id))
    (ht : t.Every P) : u.Every P := by
  cases h with
  | same => exact ht
  | identified _ id => exact identify_every same undefined id ht

theorem Tree.KeptKey.eq_of_isExact (h : t.KeptKey u) (ht : t.IsExact) : u = t := by
  cases h with
  | same => rfl
  | identified holds =>
    rw [holdsIdentified_of_isExact ht] at holds
    cases holds

namespace Select

/-! ## Lifted keys -/

/-- A key reads a column of a select that computes another key. -/
structure LiftsKey (s : Select Tree) (key lifted : SortKey Tree) : Prop where
  direction : lifted.direction = key.direction
  column : ∃ c ∈ s.columns, ∃ ref : ColumnRef, lifted.value = .column ref ∧ ref.label = s.label ∧
    ref.name = c.name ∧ (c.value.equal key.value = true ∨ c.value = key.value)

/-- A select gets columns such that other keys can be read in place of its sort keys. -/
structure Lifts (s : Select Tree) (keys : List (SortKey Tree)) (extra : List (Column Tree))
    (lifted : List (SortKey Tree)) : Prop where
  plain : extra ≠ [] → s.distinct = false
  values : ∀ e ∈ extra, ∃ key ∈ keys, key.value = e.value
  nodup : s.headers.Nodup → (s.widen extra).headers.Nodup
  lifted : Forall₂ (s.widen extra).LiftsKey keys lifted

variable {s s' : Select Tree} {key : SortKey Tree} {keys lifted : List (SortKey Tree)}

theorem headers_widen (s : Select Tree) (extra : List (Column Tree)) :
    (s.widen extra).headers = s.headers ++ extra.map Column.name := by
  simp [headers, widen]

theorem Lifts.exists_column (h : s.Lifts keys extra lifted) (hl : l ∈ lifted) :
    ∃ ref : ColumnRef, l.value = .column ref ∧ ref.label = s.label := by
  obtain ⟨_, _, hlift⟩ := forall₂_mem_right h.lifted hl
  obtain ⟨_, _, ref, hvalue, hlabel, _⟩ := hlift.column
  exact ⟨ref, hvalue, hlabel⟩

theorem Lifts.forall_value (h : s.Lifts keys extra lifted) {P : Tree → Prop}
    (hP : ∀ c, P (.column c)) : ∀ l ∈ lifted, P l.value := by
  intro l hl
  obtain ⟨ref, hvalue, -⟩ := h.exists_column hl
  exact hvalue ▸ hP ref

theorem widen_widen (s : Select Tree) (extra more : List (Column Tree)) :
    (s.widen extra).widen more = s.widen (extra ++ more) := by
  simp [widen]

theorem LiftsKey.widen (h : s.LiftsKey key l) (extra : List (Column Tree)) :
    (s.widen extra).LiftsKey key l where
  direction := h.direction
  column := by
    obtain ⟨c, hc, ref⟩ := h.column
    exact ⟨c, mem_append_left _ hc, ref⟩

theorem column?_getD_name (s : Select Tree) (c : Column Tree) :
    ((s.column? c.name).getD c).name = c.name := by
  cases h : s.column? c.name with
  | none => rfl
  | some d => simpa using find?_some h

theorem sortColumn_spec {t' : Tree} {c : Column Tree} (h : s.sortColumn t = .ok (s', t', c)) :
    t.KeptKey t' ∧ ∃ extra, s' = s.widen extra ∧ c ∈ s'.columns ∧
      (c.value.equal t' = true ∨ c.value = t') ∧ (extra ≠ [] → s.distinct = false) ∧
      (∀ e ∈ extra, e.value = t') ∧ (s.headers.Nodup → s'.headers.Nodup) := by
  unfold sortColumn at h
  split at h
  · next found hfound =>
    have hequal : found.value.equal t = true :=
      find?_some (p := fun c : Column Tree => c.value.equal t) hfound
    cases h
    exact ⟨.same t, [], by simp [widen], mem_of_find?_eq_some hfound, .inl hequal, by simp,
      by simp, id⟩
  · split at h
    · cases h
    · next hdistinct =>
      have hkept : t.KeptKey (if t.holdsIdentified then t.identify (Tree.select s none).freshIdentity
          else t) := by
        split
        · next holds => exact .identified holds _
        · exact .same t
      cases h
      refine ⟨hkept, [_], rfl, by simp [addColumn], .inr rfl, fun _ => by simpa using hdistinct,
        by simp, fun hnodup => ?_⟩
      have hfree := freeName_not_mem s.headers (sortColumnBase t)
      show (s.widen [_]).headers.Nodup
      rw [headers_widen, map_singleton, ← concat_eq_append]
      exact hnodup.concat hfree

theorem liftKey_spec {key' : SortKey Tree} (h : s.liftKey key = .ok (s', key', l)) :
    (key'.direction = key.direction ∧ key.value.KeptKey key'.value) ∧
      ∃ extra, s' = s.widen extra ∧ s.Lifts [key'] extra [l] := by
  obtain ⟨⟨s₁, t, c⟩, hc, ⟨⟩⟩ := bind_eq_ok.1 h
  obtain ⟨hkept, extra, rfl, hmem, hvalue, plain, values, nodup⟩ := sortColumn_spec hc
  refine ⟨⟨rfl, hkept⟩, extra, rfl, ⟨plain, fun e he => ⟨_, mem_cons_self, (values e he).symm⟩, nodup,
    .cons ⟨rfl, c, hmem, _, rfl, rfl, column?_getD_name _ c, hvalue⟩ .nil⟩⟩

theorem liftKeys_spec {keys' : List (SortKey Tree)} (h : s.liftKeys keys = .ok (s', keys', lifted)) :
    Forall₂ (fun k k' => k'.direction = k.direction ∧ k.value.KeptKey k'.value) keys keys' ∧
      ∃ extra, s' = s.widen extra ∧ s.Lifts keys' extra lifted := by
  induction keys generalizing s keys' lifted with
  | nil =>
    cases h
    exact ⟨.nil, [], by simp [widen], by simp, by simp, by simp [widen], .nil⟩
  | cons key keys ih =>
    obtain ⟨⟨s₁, key₁, l⟩, h₁, hrest⟩ := bind_eq_ok.1 h
    obtain ⟨⟨s₂, keys₂, ls⟩, h₂, ⟨⟩⟩ := bind_eq_ok.1 hrest
    obtain ⟨hkept, extra, rfl, first⟩ := liftKey_spec h₁
    obtain ⟨hkepts, more, rfl, rest⟩ := ih h₂
    rw [widen_widen]
    refine ⟨.cons hkept hkepts, extra ++ more, rfl, ?_, ?_, ?_, ?_⟩
    · intro hextra
      rcases extra with - | e
      · exact rest.plain (by simpa using hextra)
      · exact first.plain (by simp)
    · intro e he
      rcases mem_append.1 he with he | he
      · obtain ⟨k, hk, hvalue⟩ := first.values e he
        exact ⟨k, by simp [mem_singleton.1 hk], hvalue⟩
      · obtain ⟨k, hk, hvalue⟩ := rest.values e he
        exact ⟨k, .tail _ hk, hvalue⟩
    · intro hnodup
      have h := rest.nodup (first.nodup hnodup)
      rwa [widen_widen] at h
    · have hfirst := first.lifted
      have hrest := rest.lifted
      rw [widen_widen] at hrest
      cases hfirst with
      | cons hl _ => exact .cons (widen_widen s extra more ▸ hl.widen more) hrest

theorem liftOrder_copies (h : s.liftOrder = .ok (s', lifted)) :
    ∃ order extra,
      Forall₂ (fun k k' => k'.direction = k.direction ∧ k.value.KeptKey k'.value) s.order order ∧
      s' = (s.sortedBy order).widen extra ∧
      (s.sortedBy order).Lifts order extra lifted := by
  obtain ⟨⟨s₁, order, _⟩, hkeys, ⟨⟩⟩ := bind_eq_ok.1 h
  obtain ⟨hkept, extra, rfl, hlifts⟩ := liftKeys_spec hkeys
  exact ⟨order, extra, hkept, rfl, hlifts.plain, hlifts.values, hlifts.nodup,
    hlifts.lifted.imp fun _ _ h => ⟨h.direction, h.column⟩⟩

theorem liftOrder_spec (hexact : ∀ key ∈ s.order, key.value.IsExact) (h : s.liftOrder = .ok (s', lifted)) :
    ∃ extra, s' = s.widen extra ∧ s.Lifts s.order extra lifted := by
  obtain ⟨order, extra, hkept, rfl, hlifts⟩ := liftOrder_copies h
  have horder : s.order = order := by
    rw [← forall₂_eq_eq_eq]
    refine forall₂_imp_mem hkept fun k k' hk hkk => ?_
    have hvalue := hkk.2.eq_of_isExact (hexact k hk)
    cases k'
    cases hkk.1
    cases hvalue
    rfl
  subst horder
  exact ⟨extra, rfl, hlifts⟩

/-! ## Values of lifted keys -/

variable {env : Environment} {frames : Frames} {scope : List Alias} {extra : List (Column Tree)}
  {i : Option Identity}

theorem exists_context_of_produced (h : s.produced env frames = .ok rows) (hp : p ∈ rows) :
    ∃ contexts, s.contexts env frames = .ok contexts ∧ ∃ c ∈ contexts,
      s.valuesAt env c = .ok p.1 ∧ s.keysAt env c = .ok p.2 := by
  obtain ⟨contexts, hcontexts, hall⟩ := produced_eq_ok.1 h
  exact ⟨contexts, hcontexts, forall₂_mem_right hall hp⟩

theorem exists_context_of_delivered (h : s.delivered env frames = .ok rows) (hp : p ∈ rows) :
    ∃ contexts, s.contexts env frames = .ok contexts ∧ ∃ c ∈ contexts,
      s.valuesAt env c = .ok p.1 ∧ s.keysAt env c = .ok p.2 := by
  obtain ⟨produced, skipped, taken, hproduced, _, _, rfl⟩ := delivered_eq_ok.1 h
  exact exists_context_of_produced hproduced (mem_of_mem_arrange ((page_sublist skipped taken _).subset hp))

theorem isRowNumber_of_equal (h : t.equal u = true) : t.isRowNumber = u.isRowNumber := by
  cases t <;> cases u <;> first | rfl | simp [Tree.equal, Tree.equalUnder] at h

theorem not_unsortable_of_delivered (h : s.delivered env frames = .ok rows) (hp : p ∈ rows) : ¬ s.Unsortable := by
  intro hsort
  obtain ⟨produced, _, _, hproduced, _⟩ := delivered_eq_ok.1 h
  obtain ⟨contexts, hcontexts, c, hc, -⟩ := exists_context_of_delivered h hp
  rw [(hsort.contexts_eq_nil hproduced).1] at hcontexts
  cases hcontexts
  exact absurd hc not_mem_nil

namespace Lifts

variable (h : s.Lifts s.order extra lifted)
include h

theorem directions : lifted.map SortKey.direction = s.directions :=
  map_eq_of_forall₂ h.lifted fun _ _ h => h.direction

theorem mem_inner {d : Column Tree} (hd : d ∈ (s.widen extra).columns) : d.value ∈ s.inner := by
  rcases mem_append.1 hd with hd | hd
  · exact mem_append_right _ (mem_map_of_mem hd)
  · obtain ⟨key, hkey, hvalue⟩ := h.values d hd
    exact hvalue ▸ mem_inner_of_mem_order hkey

theorem exists_keys_of_equal (hnodup : s.headers.Nodup) (hsort : ¬ s.Unsortable)
    (hcontexts : (s.widen extra).contexts env frames = .ok contexts) (hc : c ∈ contexts)
    (hequal : ∀ d ∈ (s.widen extra).columns, ∀ key ∈ s.order, d.value.equal key.value = true → ∀ {v},
      d.value.scalar env c.frames c.group = .ok v → key.value.scalar env c.frames c.group = .ok v)
    (hvalues : (s.widen extra).valuesAt env c = .ok values) (around : Frames) :
    ∃ keys, s.keysAt env c = .ok keys ∧ ∀ group,
      keyValues env (sourceRow s.label (s.widen extra).headers values :: around) group lifted = .ok keys := by
  have hcolumns := valuesAt_forall₂ hcontexts hc hvalues
  have hstep : Forall₂ (fun (key l : SortKey Tree) => ∃ v,
      key.value.scalar env c.frames c.group = .ok v ∧ ∀ group,
        l.value.scalar env (sourceRow s.label (s.widen extra).headers values :: around) group =
          .ok v) s.order lifted := by
    refine forall₂_imp_mem h.lifted fun key l hkey hlift => ?_
    obtain ⟨d, hd, ref, hl, hlabel, hname, hvalue⟩ := hlift.column
    have hn : key.value.isRowNumber = false := Bool.eq_false_iff.2 fun hn => hsort ⟨key, hkey, hn⟩
    have hdn : d.value.isRowNumber = false := by
      rcases hvalue with hequal | hsame
      · rw [isRowNumber_of_equal hequal, hn]
      · rw [hsame, hn]
    obtain ⟨v, hv, hscalar⟩ := value?_of_forall₂ s.label hcolumns (column?_of_mem (h.nodup hnodup) hd)
    refine ⟨v, ?_, fun group => ?_⟩
    · rcases hvalue with heq | hsame
      · exact hequal d hd key hkey heq (hscalar hdn)
      · rw [← hsame]
        exact hscalar hdn
    · rw [hl]
      exact scalar_column_sourceRow hlabel (hname ▸ hv)
  obtain ⟨keys, hkeys, hlifted⟩ := forall₂_exists hstep
  refine ⟨keys, keyValues_eq_ok.2 hkeys, fun group => keyValues_eq_ok.2 ?_⟩
  exact (hlifted.imp fun v l h => h group).flip

variable (hygienic : (Tree.select s i).Hygienic scope) (hexact : ∀ key ∈ s.order, key.value.IsExact)
  (hnodup : s.headers.Nodup)
include hygienic hexact hnodup

/-- Lifted keys have the values of the sort keys. -/
theorem exists_keys (hsort : ¬ s.Unsortable) (hframes : frames.Within scope)
    (hcontexts : (s.widen extra).contexts env frames = .ok contexts) (hc : c ∈ contexts)
    (hvalues : (s.widen extra).valuesAt env c = .ok values) (around : Frames) :
    ∃ keys, s.keysAt env c = .ok keys ∧ ∀ group,
      keyValues env (sourceRow s.label (s.widen extra).headers values :: around) group lifted = .ok keys := by
  have hwithin := contexts_within hframes hcontexts hc
  refine h.exists_keys_of_equal hnodup hsort hcontexts hc (fun d hd key hkey hequal _ hv => ?_) hvalues around
  exact Tree.scalar_of_equal hequal (hygienic.inner (h.mem_inner hd)) (hygienic.inner (mem_inner_of_mem_order hkey))
    (hexact key hkey) hwithin.1 hwithin.2 hv

/-- The delivered rows have their sort keys among their columns. -/
theorem delivers : (s.widen extra).Delivers env scope lifted where
  directions := h.directions
  columns l hl := h.exists_column hl
  keys := by
    intro frames rows hframes hrows p hp group
    obtain ⟨contexts, hcontexts, c, hc, hvalues, hkeys⟩ := exists_context_of_delivered hrows hp
    have hsort : ¬ (s.widen extra).Unsortable := not_unsortable_of_delivered hrows hp
    obtain ⟨keys, hkeys', hlifted⟩ :=
      h.exists_keys hygienic hexact hnodup hsort hframes hcontexts hc hvalues frames
    have e : keys = p.2 := Except.ok.inj (hkeys'.symm.trans hkeys)
    exact e ▸ hlifted group

end Lifts

end Select

end HiveQuery
