import HiveQuery.Proofs.LoweredSelects

/-!
# Selects with row numbers

Row numbers in one select, whose clauses were lowered before.
-/

namespace HiveQuery
open List Lowering HiveQuery.Tree

variable {env : Environment} {k : Mode} {scope : List Alias}

/-! ## Layers -/

theorem Select.isExact_layer {s inner : Select Tree} {i j : Option Identity}
    (hsource : s.source = some (.select inner j)) (hinner : (select inner j).IsExact)
    (hlocal : ∀ u ∈ s.inner ++ s.cluster ++ s.bounds, u.IsLocal) : (select s i).IsExact := by
  refine isExact_iff.2 fun u hu => ?_
  rcases mem_append.1 (s.clauses_perm.mem_iff.1 hu) with hu | hu
  · rw [hsource, Option.toList_some, mem_singleton] at hu
    exact hu ▸ hinner
  · exact (hlocal u hu).exact

theorem Select.hygienic_layer {s inner : Select Tree} {i j : Option Identity}
    (hsource : s.source = some (.select inner j)) (hinner : (select inner j).Hygienic scope)
    (hfresh : inner.label ∉ scope)
    (hlocal : ∀ u ∈ s.inner ++ s.cluster ++ s.bounds, u.IsLocal) :
    (select s i).Hygienic scope := by
  have haliases : s.sourceAliases = [inner.label] := sourceAliases_of_source hsource
  refine hygienic_iff.2 ⟨?_, ?_, ?_, fun u hu => ?_, fun u hu => ?_⟩
  · rw [haliases]
    exact nodup_singleton _
  · rw [haliases]
    intro a ha
    rwa [mem_singleton.1 ha]
  · intro u hu
    rw [hsource] at hu
    cases hu
    exact hinner
  · exact (hlocal u (mem_append_left _ hu)).hygienic _
  · exact (hlocal u (mem_append_right _ hu)).hygienic _

theorem Select.isLocal_passOn (a : Alias) (c : Column Tree) : (passOn a c).value.IsLocal := by
  obtain ⟨ref, hvalue, _⟩ := passOn_value a c
  exact hvalue ▸ isLocal_column ref

namespace Select.NumberedBase

variable {o base : Select Tree} {next label : Alias} {keys : List (SortKey Tree)} {name : String}
  {kept : Tree}

theorem next_le (hb : o.NumberedBase next base keys label) : next ≤ label := by
  cases hb with
  | itself => exact le_refl _
  | layer => exact Nat.le_succ _

theorem label_eq (hb : o.NumberedBase next base keys label) : base.label = o.label := by
  cases hb <;> rfl

theorem isLocal_above (o inner : Select Tree) :
    ∀ u ∈ (o.above inner).inner ++ (o.above inner).cluster ++ (o.above inner).bounds, u.IsLocal := by
  intro u hu
  have hu : u ∈ (o.columns.map (passOn inner.label)).map Column.value := by
    simpa [Select.inner, Select.bounds, Select.above] using hu
  obtain ⟨_, hd, rfl⟩ := mem_map.1 hu
  obtain ⟨c, _, rfl⟩ := mem_map.1 hd
  exact isLocal_passOn _ c

theorem hygienic (hb : o.NumberedBase next base keys label)
    (ho : (select o none).Hygienic scope) (hnext : next ∉ scope) :
    (select base none).Hygienic scope ∧
      ∀ key ∈ keys, key.value.Hygienic (base.sourceAliases ++ scope) := by
  obtain ⟨nodup, apart, source, inner, bounds⟩ := hygienic_iff.1 ho
  cases hb with
  | itself =>
    refine ⟨hygienic_iff.2 ⟨nodup, apart, source, fun u hu => ?_, by simp [Select.bounds]⟩,
      fun key hkey => inner _ (mem_append_left _ (mem_inner_of_mem_order hkey))⟩
    rcases mem_append.1 hu with hu | hu
    · exact inner u (mem_append_left _ (mem_inner_unordered (s := o) hu))
    · exact inner u (mem_append_right _ hu)
  | @layer extra _ lifts =>
    have hunpaged : (select (o.unpaged next) none).Hygienic scope := hygienic_relabel ho
    refine ⟨hygienic_layer rfl ?_ hnext (isLocal_above o _), fun key hkey => ?_⟩
    · refine hygienic_iff.2 ⟨nodup, apart, source, fun u hu => ?_,
        by simp [Select.bounds, Select.widen, Select.unpaged]⟩
      rcases mem_append.1 hu with hu | hu
      · rcases mem_inner_widen (mem_inner_unordered hu) with hu | ⟨e, he, rfl⟩
        · exact inner u (mem_append_left _ hu)
        · exact hunpaged.inner (lifts.mem_inner (mem_append_right _ he))
      · exact inner u (mem_append_right _ hu)
    · exact lifts.forall_value (fun ref => (isLocal_column ref).hygienic _) key hkey

theorem isExact (hb : o.NumberedBase next base keys label) (ho : (select o none).IsExact) :
    (select base none).IsExact ∧ ∀ key ∈ keys, key.value.IsExact := by
  have ho := isExact_iff.1 ho
  have hclauses : ∀ {s : Select Tree}, s.source = o.source → s.cluster = o.cluster → s.bounds = [] →
      (∀ u ∈ s.inner, u.IsExact) → ∀ u ∈ s.clauses, u.IsExact := by
    intro s hsource hcluster hbounds hinner u hu
    have hu := s.clauses_perm.mem_iff.1 hu
    rw [hsource, hcluster, hbounds, append_nil, ← append_assoc, mem_append, mem_append] at hu
    rcases hu with (hu | hu) | hu
    · exact ho u (o.clauses_perm.mem_iff.2 (mem_append_left _ hu))
    · exact hinner u hu
    · exact ho u (o.clauses_perm.mem_iff.2 (by simp [hu]))
  cases hb with
  | itself =>
    refine ⟨isExact_iff.2 (hclauses rfl rfl rfl fun u hu => ?_), fun key hkey => ?_⟩
    · exact ho u (o.mem_clauses_of_inner (mem_inner_unordered (s := o) hu))
    · exact ho _ (o.mem_clauses_of_inner (mem_inner_of_mem_order hkey))
  | @layer extra _ lifts =>
    refine ⟨isExact_layer rfl ?_ (isLocal_above o _), fun key hkey => ?_⟩
    · refine isExact_iff.2 (hclauses rfl rfl rfl fun u hu => ?_)
      rcases mem_inner_widen (mem_inner_unordered hu) with hu | ⟨e, he, rfl⟩
      · exact ho u (o.mem_clauses_of_inner hu)
      · obtain ⟨key, hkey, hvalue⟩ := lifts.values e he
        exact hvalue ▸ ho _ (o.mem_clauses_of_inner (mem_inner_of_mem_order hkey))
    · exact lifts.forall_value (fun ref => (isLocal_column ref).exact) key hkey

theorem isLocal_window (hkept : kept.IsLocal) :
    ∀ u ∈ (base.window keys name label kept).inner ++ (base.window keys name label kept).cluster ++
      (base.window keys name label kept).bounds, u.IsLocal := by
  intro u hu
  have hu : u ∈ [kept, .column (numberRef label name)] ++
      (base.window keys name label kept).columns.map Column.value := by
    simpa [inner, bounds, window, wrap, above, removeColumn] using hu
  rcases mem_append.1 hu with hu | hu
  · simp only [mem_cons, not_mem_nil, or_false] at hu
    rcases hu with rfl | rfl
    · exact hkept
    · exact isLocal_column _
  · obtain ⟨d, hd, rfl⟩ := mem_map.1 hu
    obtain ⟨c, _, rfl⟩ := mem_map.1 (mem_of_mem_filter hd)
    exact isLocal_passOn _ c

/-- A window of row numbers brings no clashes of aliases. -/
theorem window_keeps (hb : o.NumberedBase next base keys label) (hnext : ∀ a ∈ scope, a < next)
    (hkept : kept.IsLocal) (ho : (select o none).Hygienic scope) :
    (select (base.window keys name label kept) none).Hygienic scope ∧
      ((select o none).IsExact →
        (select (base.window keys name label kept) none).IsExact) := by
  have hnumbered : ∀ u ∈ (base.numbering keys name label).inner, u ∈ base.inner ∨ u = .rowNumber keys := by
    intro u hu
    simp only [inner, numbering, addColumn, map_append, ← append_assoc] at hu
    rcases mem_append.1 hu with hu | hu
    · exact .inl hu
    · exact .inr (by simpa using hu)
  refine ⟨?_, fun hexact => ?_⟩
  · have hfresh : next ∉ scope := fun h => lt_irrefl _ (hnext next h)
    obtain ⟨hbase, hkeys⟩ := hb.hygienic ho hfresh
    obtain ⟨nodup, apart, source, inner, bounds⟩ := hygienic_iff.1 hbase
    refine hygienic_layer rfl ?_ (fun h => ?_) (isLocal_window hkept)
    · refine hygienic_iff.2 ⟨nodup, apart, source, fun u hu => ?_, bounds⟩
      rcases mem_append.1 hu with hu | hu
      · rcases hnumbered u hu with hu | rfl
        · exact inner u (mem_append_left _ hu)
        · refine .node nodup_nil (by simp [brings]) fun p hp => ?_
          obtain ⟨key, hkey, rfl⟩ : ∃ key ∈ keys, _ = p := by
            simpa [childScopes] using hp
          exact hkeys key hkey
      · exact inner u (mem_append_right _ hu)
    · exact absurd (hnext label h) (not_lt.2 hb.next_le)
  · obtain ⟨hbase, hkeys⟩ := hb.isExact hexact
    have hbase := isExact_iff.1 hbase
    refine isExact_layer rfl (isExact_iff.2 fun u hu => ?_) (isLocal_window hkept)
    have hu := (base.numbering keys name label).clauses_perm.mem_iff.1 hu
    simp only [mem_append] at hu
    rcases hu with hu | (hu | hu) | hu
    · exact hbase u (base.clauses_perm.mem_iff.2 (mem_append_left _ hu))
    · rcases hnumbered u hu with hu | rfl
      · exact hbase u (base.mem_clauses_of_inner hu)
      · refine Tree.isExact_iff.2 ⟨rfl, fun v hv => ?_⟩
        obtain ⟨key, hkey, rfl⟩ := mem_map.1 hv
        exact hkeys key hkey
    · have hu : u ∈ base.cluster := hu
      exact hbase u (base.clauses_perm.mem_iff.2 (by simp [hu]))
    · exact hbase u (base.mem_clauses_of_bounds hu)

end Select.NumberedBase

/-! ## Lowered selects with skipped rows -/

/-- What is asked of a select so that rows can be skipped exactly. -/
@[mk_iff]
structure Select.Pageable (s : Select Tree) : Prop where
  headers : s.headers.Nodup
  reverse : s.reverse = false
  keys : ∀ key ∈ s.order, key.value.IsExact
  skip : ∀ t, s.skip = some t → ∃ i : Int64, t = .constant (.int i) ∧ 0 ≤ i.toInt
  take : ∀ t, s.take = some t → ∃ m : Int64, t = .constant (.int m)
  aggregates : s.skip.isSome = true → s.group = [] → s.isGrouped = false

def Tree.count? : Tree → Option Int64
  | .constant (.int i) => some i
  | _ => none

theorem Tree.count?_eq_some {t : Tree} {i : Int64} : t.count? = some i ↔ t = .constant (.int i) := by
  constructor
  · intro h
    unfold count? at h
    split at h
    · cases h; rfl
    · cases h
  · rintro rfl
    rfl

instance (P : Int64 → Prop) [DecidablePred P] (o : Option Tree) :
    Decidable (∀ t, o = some t → ∃ i : Int64, t = .constant (.int i) ∧ P i) :=
  decidable_of_iff (∀ t ∈ o, ∃ i ∈ t.count?, P i) <| by
    simp only [Option.mem_def, Tree.count?_eq_some]

instance (o : Option Tree) : Decidable (∀ t, o = some t → ∃ i : Int64, t = .constant (.int i)) :=
  decidable_of_iff (∀ t, o = some t → ∃ i : Int64, t = .constant (.int i) ∧ True) (by simp only [and_true])

instance (s : Select Tree) : Decidable s.Pageable :=
  decidable_of_iff _ s.pageable_iff.symm

namespace Select.Requires

variable {s v o : Select Tree} {i : Int64} {take : Option Int64}

theorem pages (h : s.Requires env k scope v o) (hs : s.Pageable) (hskip : s.skip.isSome = true)
    (hi : 0 ≤ i.toInt) (hv : v.skip = some (.constant (.int i)))
    (htake : v.take = boundOf take) : o.Pages scope i take where
  skip := h.skip.trans hv
  nonneg := hi
  take := h.take.trans htake
  reverse := h.lowers.reverse
  aggregates hgroup := by
    have hs' : s.group = [] := by
      rw [← length_eq_zero_iff, ← h.form.group, hgroup, length_nil]
    rw [h.form.grouped, hs.aggregates hskip hs']
  exact := h.lowers.keys
  nodup := h.lowers.headers ▸ hs.headers
  hygienic := h.lowers.hygienic

/-- A select whose rows are numbered refines the one that skips rows. -/
theorem numbered (h : s.Requires env k scope v o) (hp : o.Pages scope i take) (pages : k.pages = true)
    (hskip : s.skip.isSome = true) {next label next' : Alias} (hnext : ∀ a ∈ scope, a < next)
    {base : Select Tree} {keys : List (SortKey Tree)} (hb : o.NumberedBase next base keys label)
    {kept : Tree} {m : Alias}
    (hkept : (windowFilter (.column (numberRef label (freeName base.headers "_rownum")))
      (.constant (.int i)) (boundOf take)).Gives m kept next') (top : Bool) :
    s.Lowers env k top scope (base.window keys (freeName base.headers "_rownum") label kept) := by
  have hname := freeName_not_mem base.headers "_rownum"
  have hlocal := windowFilter_isLocal hkept
  obtain ⟨hhygienic, hexact⟩ := hb.window_keeps hnext hlocal hp.hygienic
  have hkeeps : Keeps env kept label (freeName base.headers "_rownum") i.toInt.toNat
      (countOf take) := (windowFilter_keeps hp.nonneg hkept).2
  refine ⟨hb.label_eq.trans h.lowers.label, ?_, rfl, ?_, fun hs => hexact (h.lowers.exact hs),
    hhygienic, fun μ hμ => ?_⟩
  · exact (headers_window hname kept).trans (hb.headers_eq.trans h.lowers.headers)
  · intro key hkey
    rw [mem_singleton.1 hkey]
    exact (isLocal_column _).exact
  · rcases hb.numbers_or_empties hp hname hkeeps k.total with hnumbers | ⟨hsort, hempties⟩
    · exact .numbered pages hskip (h.lowers.refines μ hμ) (hμ.right ▸ hnumbers)
    · obtain ⟨hs, ν, hclauses⟩ := h.unsortable hsort
      exact .emptied pages hskip (hclauses μ hμ) hs (hμ.right ▸ hempties)

end Select.Requires

namespace Select.Visited

variable {s v : Select Tree}

theorem constant_visited {scopes : List (List Alias × Tree)} {x : Value} {b : Tree}
    (h : (constant x).LowersIn env k scopes b) : b = .constant x := by
  obtain ⟨⟨X, hX⟩, h⟩ := h
  have hscalar := (h X hX).scalar _ (Reads.Keeps.same X)
  cases hscalar with
  | constant => rfl
  | inert _ left => cases left

theorem skip_visited (h : s.Visited env k scope v) {x : Value} (hs : s.skip = some (.constant x)) :
    v.skip = some (.constant x) := by
  have hskip := h.same.skip
  rw [hs] at hskip
  generalize v.skip = skip at hskip ⊢
  cases hskip with
  | some hab => rw [constant_visited hab]

theorem take_visited (h : s.Visited env k scope v) (hs : s.Pageable) :
    ∃ take : Option Int64, v.take = boundOf take := by
  have htake := h.same.take
  generalize v.take = take at htake ⊢
  cases ht : s.take with
  | none =>
    rw [ht] at htake
    cases htake
    exact ⟨none, rfl⟩
  | some a =>
    obtain ⟨m, rfl⟩ := hs.take a ht
    rw [ht] at htake
    cases htake with
    | some hab => exact ⟨some m, by rw [constant_visited hab]; rfl⟩

end Select.Visited

theorem Select.lowerSkip_cases {s f : Select Tree} {skip : Tree} {lower : SkipLowering} {next next' : Alias}
    (h : (s.lowerSkip lower skip).Gives next f next') :
    ∃ folded, skip.fold = .ok folded ∧
      ((folded.isZero = true ∧ f = { s with skip := none } ∧ next' = next) ∨
        folded.isZero = false ∧ ∃ taken, Option.Rel (fun a b => a.fold = .ok b) s.take taken ∧
          (lower s folded taken).Gives next f next') := by
  obtain ⟨folded, next₁, hfold, hrest⟩ := gives_bind.1 h
  obtain ⟨hfolded, rfl⟩ := gives_evaluating.1 hfold
  refine ⟨folded, hfolded, ?_⟩
  split at hrest
  · next hzero =>
    obtain ⟨rfl, rfl⟩ := gives_pure.1 hrest
    exact .inl ⟨hzero, rfl, rfl⟩
  · next hzero =>
    obtain ⟨taken, next₂, htaken, hlower⟩ := gives_bind.1 hrest
    refine .inr ⟨Bool.eq_false_of_not_eq_true hzero, taken, ?_⟩
    cases hs : s.take with
    | none =>
      rw [hs] at htaken
      obtain ⟨rfl, rfl⟩ := gives_pure.1 htaken
      exact ⟨.none, hlower⟩
    | some a =>
      rw [hs] at htaken
      obtain ⟨b, next₃, hfold, hpure⟩ := gives_bind.1 htaken
      obtain ⟨hb, rfl⟩ := gives_evaluating.1 hfold
      obtain ⟨rfl, rfl⟩ := gives_pure.1 hpure
      exact ⟨.some hb, hlower⟩

theorem Select.lowerSkip_gives {v f : Select Tree} {i : Int64} {take : Option Int64}
    {lower : SkipLowering} {next next' : Alias}
    (htake : v.take = boundOf take)
    (h : (v.lowerSkip lower (.constant (.int i))).Gives next f next') :
    (i = 0 ∧ f = { v with skip := none }) ∨
      i ≠ 0 ∧ (lower v (.constant (.int i)) (boundOf take)).Gives next f next' := by
  have hiff : (constant (.int i)).isZero = true ↔ i = 0 := by simp [isZero, Value.toInt64?]
  obtain ⟨folded, hfold, hcases⟩ := lowerSkip_cases h
  obtain rfl : constant (.int i) = folded := Except.ok.inj hfold
  rcases hcases with ⟨hzero, rfl, -⟩ | ⟨hzero, taken, htaken, hlower⟩
  · exact .inl ⟨hiff.1 hzero, rfl⟩
  · refine .inr ⟨fun hi => Bool.false_ne_true (hzero.symm.trans (hiff.2 hi)), ?_⟩
    rw [htake] at htaken
    cases take with
    | none =>
      cases htaken
      exact hlower
    | some m =>
      cases htaken with
      | some hfold =>
        obtain rfl : constant (.int m) = _ := Except.ok.inj hfold
        exact hlower

theorem Select.exists_clauseScope {s : Select Tree} {u : Tree} (hu : u ∈ s.clauses)
    (scope : List Alias) : ∃ X, (X, u) ∈ s.clauseScopes scope := by
  have hu := s.clauses_perm.mem_iff.1 hu
  simp only [clauseScopes, mem_append, mem_map, Prod.mk.injEq] at hu ⊢
  rcases hu with hu | (hu | hu) | hu
  · exact ⟨scope, .inl (.inl (.inl ⟨u, hu, rfl, rfl⟩))⟩
  · exact ⟨_, .inl (.inl (.inr ⟨u, hu, rfl, rfl⟩))⟩
  · exact ⟨_, .inl (.inr ⟨u, hu, rfl, rfl⟩)⟩
  · exact ⟨_, .inr ⟨u, hu, rfl, rfl⟩⟩

namespace Select.Visited

variable {s v f : Select Tree} {next next' : Alias}

theorem unskipped (h : s.Visited env k scope v) :
    Visited env k scope { s with skip := none } { v with skip := none } := by
  have hscopes : ∀ p, p ∈ ({ s with skip := none } : Select Tree).clauseScopes scope →
      p ∈ s.clauseScopes scope := by
    intro p hp
    simp only [clauseScopes, bounds, mem_append, mem_map, Option.toList_none, nil_append] at hp ⊢
    rcases hp with hp | ⟨u, hu, rfl⟩
    · exact .inl hp
    · exact .inr ⟨u, .inr hu, rfl⟩
  have hunskipped : SameClauses (LowersIn env k (s.clauseScopes scope))
      (LowersIn env k (s.clauseScopes scope)) { s with skip := none } { v with skip := none } :=
    { h.same with skip := .none }
  have hlowers : ∀ a b, a ∈ ({ s with skip := none } : Select Tree).clauses →
      a.LowersIn env k (s.clauseScopes scope) b →
      a.LowersIn env k (({ s with skip := none } : Select Tree).clauseScopes scope) b :=
    fun a b ha hab => ⟨exists_clauseScope ha scope, fun X hX => hab.2 X (hscopes _ hX)⟩
  refine ⟨h.label, hunskipped.imp (fun a b ha => hlowers a b ?_) hlowers, ?_, h.reverse, h.keys⟩
  · simp [Select.clauses, show s.source = some a from ha]
  · exact .node h.hygienic.nodup h.hygienic.apart fun p hp => h.hygienic.child (hscopes _ hp)

/-- Lowering the skipped rows of one select. -/
theorem lowerSkip (h : s.Visited env k scope v) (pages : k.pages = true) (sorted : k.sorted = true)
    (hs : s.Pageable) {i : Int64} (hskip : s.skip = some (.constant (.int i))) (hi : 0 ≤ i.toInt)
    (hnext : ∀ a ∈ scope, a < next)
    (hf : (v.lowerSkip numberRows (.constant (.int i))).Gives next f next') :
    (∀ top, s.Lowers env k top scope f) ∧
      ∀ {s' : Select Tree} {order : List (SortKey Tree)}, f.requireOrder = .ok (s', order) →
        s.Lowers env k true scope (s'.sortedBy order) := by
  obtain ⟨take, htake⟩ := h.take_visited hs
  rcases lowerSkip_gives htake hf with ⟨hzero, rfl⟩ | ⟨-, hnumber⟩
  · subst hzero
    refine ⟨fun top => (h.unskipped.lowers top).select_skip pages hskip rfl rfl, fun hrequire => ?_⟩
    have hrequires := h.unskipped.requires pages sorted hrequire
    exact hrequires.lowers.select_skip pages hskip rfl hrequires.skip
  · obtain ⟨v', order, hrequire, base, keys, label, hbase, kept, hkept, rfl⟩ := numberRows_gives hnumber
    have hrequires := h.requires pages sorted hrequire
    have hb := numberedBase_gives (o := v'.sortedBy order) hrequires.lowers.keys hbase
    have hsome : s.skip.isSome = true := by rw [hskip]; rfl
    have hp := hrequires.pages hs hsome hi (h.skip_visited hskip) htake
    have hlowers := hrequires.numbered hp pages hsome hnext hb hkept
    refine ⟨hlowers, fun {s' order'} hrequire' => ?_⟩
    rcases requireOrder_cases hrequire' with ⟨_, rfl, rfl⟩ | ⟨hnil, _⟩
    · exact hlowers true
    · cases hnil

end Select.Visited

end HiveQuery
