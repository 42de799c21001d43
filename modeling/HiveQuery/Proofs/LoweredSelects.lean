import HiveQuery.Proofs.Rerouting

/-!
# Lowered selects

Skipped rows are lowered from the innermost select outwards. A select may take its order from the select
that it reads from, which was lowered before and now gets columns for its sort keys.
-/

namespace HiveQuery
open List HiveQuery.Tree
variable {env : Environment} {k : Mode} {top : Bool} {scope : List Alias}
  {lifted order : List (SortKey Tree)} {i j : Option Identity} {s s' : Select Tree} {t u : Tree}

/-! ## Columns that stay -/

/-- The aliases in scope stay what they are, and so do their columns. -/
structure Reads.Keeps (μ : Reads) (scope : List Alias) : Prop where
  left : μ.left = scope
  right : μ.right = scope
  rel : ∀ c : ColumnRef, c.label ∈ scope → μ.rel c c

namespace Reads.Keeps

variable {μ : Reads} {ν : ColumnMatch} {new : List Alias}

theorem links (h : μ.Keeps scope) (c : ColumnRef) : μ.Links c c := by
  intro hc
  rw [h.left] at hc
  exact ⟨h.right ▸ hc, h.rel c hc⟩

theorem within (h : μ.Keeps scope) (hν : ν.Keeps new) : (μ.within new new ν).Keeps (new ++ scope) := by
  refine ⟨by rw [Reads.within, h.left], by rw [Reads.within, h.right], fun c hc => ?_⟩
  by_cases hnew : c.label ∈ new
  · exact .inl ⟨hnew, hnew, hν c c hnew rfl rfl⟩
  · have hscope : c.label ∈ scope := (mem_append.1 hc).resolve_left hnew
    exact .inr ⟨hnew, hnew, h.rel c hscope⟩

theorem same (scope : List Alias) : (same scope).Keeps scope := ⟨rfl, rfl, fun _ _ => ⟨rfl, rfl⟩⟩

end Reads.Keeps

/-! ## Clauses of a select -/

theorem Select.hygienic_iff : (select s i).Hygienic scope ↔
      s.sourceAliases.Nodup ∧ (∀ a ∈ s.sourceAliases, a ∉ scope) ∧
        (∀ u, s.source = some u → u.Hygienic scope) ∧
        (∀ u ∈ s.inner ++ s.cluster, u.Hygienic (s.sourceAliases ++ scope)) ∧
        ∀ u ∈ s.bounds, u.Hygienic scope := by
  constructor
  · intro h
    refine ⟨h.nodup, h.apart, fun u hu => h.source hu, fun u hu => ?_, fun u hu => h.bounds hu⟩
    refine h.child ?_
    simp only [childScopes, clauseScopes, mem_append, mem_map] at hu ⊢
    rcases hu with hu | hu
    · exact .inl (.inl (.inr ⟨u, hu, rfl⟩))
    · exact .inl (.inr ⟨u, hu, rfl⟩)
  · rintro ⟨nodup, apart, source, inner, bounds⟩
    refine .node nodup apart fun p hp => ?_
    simp only [childScopes, clauseScopes, mem_append, mem_map, Option.mem_toList] at hp
    rcases hp with ((⟨u, hu, rfl⟩ | ⟨u, hu, rfl⟩) | ⟨u, hu, rfl⟩) | ⟨u, hu, rfl⟩
    · exact source u hu
    · exact inner u (mem_append_left _ hu)
    · exact inner u (mem_append_right _ hu)
    · exact bounds u hu

theorem Tree.Hygienic.rebounded (h : (select s i).Hygienic scope) (label : Alias) {skip take : Option Tree}
    (hbounds : ∀ u ∈ skip.toList ++ take.toList, u.Hygienic scope) :
    (select { s with label := label, skip := skip, take := take } i).Hygienic scope := by
  obtain ⟨nodup, apart, source, inner, -⟩ := Select.hygienic_iff.1 h
  exact Select.hygienic_iff.2 ⟨nodup, apart, source, inner, hbounds⟩

theorem Select.isExact_iff : (Tree.select s i).IsExact ↔ ∀ u ∈ s.clauses, u.IsExact := by
  rw [Tree.isExact_iff]
  exact ⟨fun h => h.2, fun h => ⟨rfl, h⟩⟩

theorem Tree.IsLocal.hygienic (h : t.IsLocal) (scope : List Alias) : t.Hygienic scope :=
  hygienic_of_nodup (h.declared ▸ nodup_nil) (by simp [h.declared])

theorem Select.mem_inner_unordered (hu : u ∈ (s.sortedBy []).inner) : u ∈ s.inner := by
  simp only [inner, map_nil, append_nil, mem_append] at hu ⊢
  rcases hu with (hu | hu) | hu
  · exact .inl (.inl (.inl hu))
  · exact .inl (.inr hu)
  · exact .inr hu

theorem Select.mem_inner_widen {extra : List (Column Tree)} (hu : u ∈ (s.widen extra).inner) :
    u ∈ s.inner ∨ ∃ e ∈ extra, e.value = u := by
  simp only [inner, widen, map_append, ← append_assoc] at hu
  rcases mem_append.1 hu with hu | hu
  · exact .inl hu
  · exact .inr (mem_map.1 hu)

theorem Select.Lifts.hygienic_widen {extra : List (Column Tree)} (h : s.Lifts s.order extra lifted)
    (hygienic : (select s i).Hygienic scope) : (select (s.widen extra) j).Hygienic scope := by
  obtain ⟨nodup, apart, source, inner, bounds⟩ := hygienic_iff.1 hygienic
  refine hygienic_iff.2 ⟨nodup, apart, source, fun u hu => ?_, bounds⟩
  rcases mem_append.1 hu with hu | hu
  · rcases mem_inner_widen hu with hu | ⟨d, hd, rfl⟩
    · exact inner u (mem_append_left _ hu)
    · exact hygienic.inner (h.mem_inner (mem_append_right _ hd))
  · exact inner u (mem_append_right _ hu)

theorem Select.isExact_reordered (hs : (select s i).IsExact) (hu : u.IsExact)
    (horder : ∀ key ∈ order, key.value.IsLocal) :
    (select { s with source := some u, order := order } j).IsExact := by
  have hs := isExact_iff.1 hs
  refine isExact_iff.2 fun a ha => ?_
  simp only [clauses, mem_append, Option.toList_some, mem_singleton, mem_map] at ha hs
  rcases ha with ((((((rfl | ha) | ⟨key, hkey, rfl⟩) | ha) | ha) | ha) | ha) | ha
  · exact hu
  · exact hs a (by tauto)
  · exact (horder key hkey).exact
  all_goals exact hs a (by tauto)

theorem Select.hygienic_reordered (hs : (Tree.select s i).Hygienic scope) (hu : u.Hygienic scope)
    (hsources : u.sources = s.sourceAliases) (horder : ∀ key ∈ order, key.value.IsLocal) :
    (Tree.select { s with source := some u, order := order } j).Hygienic scope := by
  obtain ⟨nodup, apart, _, inner, bounds⟩ := hygienic_iff.1 hs
  have haliases : ({ s with source := some u, order := order } : Select Tree).sourceAliases =
      s.sourceAliases := hsources
  refine hygienic_iff.2 ⟨haliases ▸ nodup, haliases ▸ apart, ?_, fun a ha => ?_, bounds⟩
  · rintro _ ⟨⟩
    exact hu
  · rw [haliases]
    simp only [Select.inner, mem_append, mem_map] at ha inner
    rcases ha with (((ha | ⟨key, hkey, rfl⟩) | ha) | ha) | ha
    · exact inner a (.inl (.inl (.inl (.inl ha))))
    · exact (horder key hkey).hygienic _
    · exact inner a (.inl (.inl (.inr ha)))
    · exact inner a (.inl (.inr ha))
    · exact inner a (.inr ha)

theorem Refines.clauses_order {μ : Reads} {ν : ColumnMatch} (h : Refines env k (.clauses μ ν s s'))
    (grouped : (s'.sortedBy order).isGrouped = s'.isGrouped) :
    Refines env k (.clauses μ ν s (s'.sortedBy order)) := by
  cases h with
  | clauses form source filter group columns skip take skips =>
    refine .clauses ⟨form.source, form.filter, form.group, form.headers, ?_, form.distinct,
      form.reverse, form.skip, form.take⟩ source filter group columns skip take skips
    exact grouped.trans form.grouped

theorem Refines.clauses_skip (pages : k.pages = true) {μ : Reads} {ν : ColumnMatch}
    (h : Refines env k (.clauses μ ν { s with skip := none } s')) (hskip : s.skip = some t)
    (hzero : t.isZero = true) (hnone : s'.skip = none) : Refines env k (.clauses μ ν s s') := by
  cases h with
  | clauses form source filter group columns skip take =>
    refine .clauses ⟨form.source, form.filter, form.group, form.headers, form.grouped, form.distinct,
      form.reverse, .inr ⟨⟨t, hskip, hzero⟩, hnone⟩, form.take⟩ source filter group columns ?_ take
      (.inl pages)
    intro a b _ hb
    rw [hnone] at hb
    cases hb

theorem Refines.select_skip (pages : k.pages = true) {μ : Reads}
    (h : Refines env k (.select top μ { s with skip := none } s')) (hskip : s.skip = some t)
    (hzero : t.isZero = true) (hnone : s'.skip = none) : Refines env k (.select top μ s s') := by
  cases h with
  | ordered clauses directions keys =>
    exact .ordered (clauses.clauses_skip pages hskip hzero hnone) directions keys
  | lifted _ sorted clauses order group source source' reverse delivers =>
    exact .lifted pages sorted (clauses.clauses_skip pages hskip hzero hnone) order group source source'
      reverse delivers
  | emptied _ skip => cases skip
  | numbered _ skip => cases skip

/-! ## Lowered selects -/

structure Select.Lowers (env : Environment) (k : Mode) (top : Bool) (scope : List Alias)
    (s s' : Select Tree) : Prop where
  label : s'.label = s.label
  headers : s'.headers = s.headers
  reverse : s'.reverse = false
  keys : ∀ key ∈ s'.order, key.value.IsExact
  exact : (Tree.select s none).IsExact → (Tree.select s' none).IsExact
  hygienic : (Tree.select s' none).Hygienic scope
  refines : ∀ μ : Reads, μ.Keeps scope → Refines env k (.select top μ s s')

/-- The order of a lowered source, in terms of the columns that it has got for its sort keys. -/
structure Tree.OrderedAs (env : Environment) (k : Mode) (scope : List Alias) (t u : Tree)
    (lifted : List (SortKey Tree)) : Prop where
  select : ∃ s i inner, t = .select s i ∧ u = .select inner none ∧ inner.label = s.label ∧
    inner.reverse = false ∧ inner.Delivers env scope lifted
  exact : t.IsExact → u.IsExact
  hygienic : u.Hygienic scope
  refines : ∀ μ : Reads, μ.Keeps scope → Refines env k (.source true μ sameName t u)

structure Tree.Lowers (env : Environment) (k : Mode) (scope : List Alias) (t u : Tree) : Prop where
  sources : u.sources = t.sources
  aggregate : u.hasAggregate = t.hasAggregate
  exact : t.IsExact → u.IsExact
  hygienic : u.Hygienic scope
  scalar : ∀ μ : Reads, μ.Keeps scope → Refines env k (.scalar μ t u)
  source : ∃ ν : ColumnMatch, ν.Keeps t.sources ∧ ∀ μ : Reads, μ.Keeps scope → ∀ top,
    Refines env k (.source top μ ν t u)
  ordered : ∀ {u' : Tree} {lifted : List (SortKey Tree)}, u.liftedOrder = .ok (u', lifted) →
    t.OrderedAs env k scope u' lifted

namespace Select.Lowers

variable {s s' o : Select Tree} {i : Option Identity}

theorem select_skip (h : Lowers env k top scope { s with skip := none } s') (pages : k.pages = true)
    (hskip : s.skip = some t) (hzero : t.isZero = true) (hnone : s'.skip = none) :
    s.Lowers env k top scope s' where
  label := h.label
  headers := h.headers
  reverse := h.reverse
  keys := h.keys
  exact hs := h.exact <| isExact_iff.2 fun u hu => isExact_iff.1 hs u <| by
    simp only [clauses, mem_append, Option.toList_none, not_mem_nil] at hu ⊢
    tauto
  hygienic := h.hygienic
  refines μ hμ := (h.refines μ hμ).select_skip pages hskip hzero hnone

/-- A lowered select whose order is taken over by the one that reads from it. -/
theorem ordered (h : s.Lowers env k true scope o) (pages : k.pages = true) (hnodup : s.headers.Nodup)
    {o' : Select Tree} (hlift : o.liftOrder = .ok (o', lifted)) :
    (select s i).OrderedAs env k scope (.select o' none) lifted := by
  obtain ⟨extra, rfl, hlifts⟩ := liftOrder_spec h.keys hlift
  have hkeys : ∀ d ∈ extra, ∃ key ∈ o.order, key.value = d.value := hlifts.values
  refine ⟨⟨s, i, _, rfl, rfl, h.label, h.reverse, ?_⟩, fun hs => ?_, ?_, fun μ hμ => ?_⟩
  · exact hlifts.delivers h.hygienic h.keys (h.headers ▸ hnodup)
  · have hexact := isExact_iff.1 (h.exact (isExact_iff.2 (isExact_iff.1 hs)))
    refine isExact_iff.2 fun u hu => ?_
    simp only [clauses, widen, map_append, ← append_assoc] at hu
    rcases mem_append.1 hu with hu | hu
    · exact hexact u hu
    · obtain ⟨d, hd, rfl⟩ := mem_map.1 hu
      obtain ⟨key, hkey, hvalue⟩ := hkeys d hd
      exact hvalue ▸ h.keys key hkey
  · exact hlifts.hygienic_widen h.hygienic
  · refine .widened extra i none (h.refines μ hμ) (fun _ => ⟨pages, rfl⟩) hlifts.plain (fun e he => ?_)
      fun _ => hkeys
    exact ⟨hlifts.widens.unsortable e he, hlifts.widens.grouped e he⟩

end Select.Lowers

theorem Select.requireOrder_cases (h : s.requireOrder = .ok (s', order)) :
    (s.order ≠ [] ∧ s' = s ∧ order = s.order) ∨
      (s.order = [] ∧ s.group = [] ∧ ∃ t t', s.source = some t ∧ t.liftedOrder = .ok (t', order) ∧
        s' = { s with source := some t' }) := by
  obtain ⟨label, columns, source, filter, order', group, distinct, skip, take, reverse, cluster⟩ := s
  rw [requireOrder] at h
  split at h
  · next hne =>
    cases h
    exact .inl ⟨by simpa using hne, rfl, rfl⟩
  · next hnil =>
    split at h
    · cases h
    · next hgroup =>
      have hnil : order' = [] := by simpa using hnil
      have hgroup : group = [] := by simpa using hgroup
      cases source with
      | none => cases h
      | some t =>
        obtain ⟨⟨_, _⟩, hoption, ⟨⟩⟩ := bind_eq_ok.1 h
        obtain ⟨⟨t', _⟩, hlift, ⟨⟩⟩ := bind_eq_ok.1 hoption
        exact .inr ⟨hnil, hgroup, t, t', rfl, hlift, rfl⟩

theorem Tree.liftedOrder_cases {u' : Tree} (h : u.liftedOrder = .ok (u', lifted)) :
    ∃ s i s' order o', u = .select s i ∧ s.requireOrder = .ok (s', order) ∧
      (s'.sortedBy order).liftOrder = .ok (o', lifted) ∧
      u' = .select o' none := by
  cases u with
  | select s i =>
    obtain ⟨⟨s', order⟩, hrequire, h⟩ := bind_eq_ok.1 h
    obtain ⟨⟨o', _⟩, hlift, ⟨⟩⟩ := bind_eq_ok.1 h
    exact ⟨s, i, s', order, o', rfl, hrequire, hlift, rfl⟩
  | _ => cases h

theorem Tree.Lowers.of_select {f : Select Tree} (pages : k.pages = true) (hnodup : s.headers.Nodup)
    (h : ∀ top, s.Lowers env k top scope f)
    (required : ∀ {s' : Select Tree} {order : List (SortKey Tree)}, f.requireOrder = .ok (s', order) →
      s.Lowers env k true scope (s'.sortedBy order)) :
    (select s i).Lowers env k scope (.select f j) where
  sources := by rw [Tree.sources, Tree.sources, (h true).label]
  aggregate := by rw [hasAggregate_eq, hasAggregate_eq]; rfl
  exact hs := Select.isExact_iff.2 (Select.isExact_iff.1
    ((h true).exact (Select.isExact_iff.2 (Select.isExact_iff.1 hs))))
  hygienic := Select.hygienic_iff.2 (Select.hygienic_iff.1 (h true).hygienic)
  scalar μ hμ := .query i j ((h true).refines μ hμ)
  source := by
    refine ⟨sameName, ColumnMatch.Keeps.of_sameName _, fun μ hμ top => ?_⟩
    have hwidened := Refines.widened [] i j ((h top).refines μ hμ) (by simp) (by simp) (by simp) (by simp)
    simpa [Select.widen] using hwidened
  ordered := by
    intro u' lifted hlift
    obtain ⟨s₁, _, s', order, o', e, hrequire, hkeys, rfl⟩ := liftedOrder_cases hlift
    cases e
    exact (required hrequire).ordered pages hnodup hkeys

/-! ## Selects with lowered clauses -/

def Tree.LowersIn (env : Environment) (k : Mode) (scopes : List (List Alias × Tree)) (a b : Tree) :
    Prop :=
  (∃ X, (X, a) ∈ scopes) ∧ ∀ X, (X, a) ∈ scopes → a.Lowers env k X b

namespace Tree.LowersIn

variable {scopes : List (List Alias × Tree)} {a b : Tree}

theorem sources (h : a.LowersIn env k scopes b) : b.sources = a.sources := by
  obtain ⟨⟨X, hX⟩, h⟩ := h
  exact (h X hX).sources

theorem aggregate (h : a.LowersIn env k scopes b) : b.hasAggregate = a.hasAggregate := by
  obtain ⟨⟨X, hX⟩, h⟩ := h
  exact (h X hX).aggregate

theorem exact (h : a.LowersIn env k scopes b) (ha : a.IsExact) : b.IsExact := by
  obtain ⟨⟨X, hX⟩, h⟩ := h
  exact (h X hX).exact ha

end Tree.LowersIn

structure Select.Visited (env : Environment) (k : Mode) (scope : List Alias) (s v : Select Tree) :
    Prop where
  label : v.label = s.label
  same : s.SameClauses (Tree.LowersIn env k (s.clauseScopes scope))
    (Tree.LowersIn env k (s.clauseScopes scope)) v
  hygienic : (Tree.select s none).Hygienic scope
  reverse : s.reverse = false
  keys : ∀ key ∈ s.order, key.value.IsExact

namespace Select.Visited

variable {s v : Select Tree}

theorem sameNode (h : s.Visited env k scope v) :
    (select s none).SameNode (LowersIn env k (s.clauseScopes scope)) (.select v none) :=
  .select none none h.label h.same

theorem sourceAliases (h : s.Visited env k scope v) : v.sourceAliases = s.sourceAliases :=
  h.same.sourceAliases fun _ _ => Tree.LowersIn.sources

theorem inner_mem (hu : u ∈ s.inner) : (s.sourceAliases ++ scope, u) ∈ s.clauseScopes scope := by
  simp [clauseScopes, hu]

theorem bounds_mem (hu : u ∈ s.bounds) : (scope, u) ∈ s.clauseScopes scope := by
  simp [clauseScopes, hu]

theorem source_mem (hu : s.source = some u) : (scope, u) ∈ s.clauseScopes scope := by
  simp [clauseScopes, hu]

section

variable (h : s.Visited env k scope v)
include h

theorem hygienic_visited : (select v none).Hygienic scope :=
  h.sameNode.hygienic (fun _ _ => Tree.LowersIn.sources) h.hygienic fun X _ _ hX hab => (hab.2 X hX).hygienic

theorem keys_visited : ∀ key ∈ v.order, key.value.IsExact := by
  intro key hkey
  obtain ⟨key', hkey', _, hab⟩ := forall₂_mem_right h.same.order hkey
  exact hab.exact (h.keys key' hkey')

theorem exists_match :
    ∃ ν : ColumnMatch, ν.Keeps s.sourceAliases ∧ ∀ t u, s.source = some t → v.source = some u →
      ∀ μ : Reads, μ.Keeps scope → ∀ top, Refines env k (.source top μ ν t u) := by
  cases hs : s.source with
  | none => exact ⟨sameName, ColumnMatch.Keeps.of_sameName _, fun t u ht => by cases ht⟩
  | some t =>
    cases hv : v.source with
    | none => exact ⟨sameName, ColumnMatch.Keeps.of_sameName _, fun t u _ hu => by cases hu⟩
    | some u =>
      have hab := option_rel_of_some h.same.source hs hv
      obtain ⟨ν, hν, hsource⟩ := (hab.2 scope (source_mem hs)).source
      refine ⟨ν, by rwa [sourceAliases_of_source hs], ?_⟩
      rintro _ _ ⟨⟩ ⟨⟩ μ hμ top
      exact hsource μ hμ top

theorem clauses :
    ∃ ν : ColumnMatch, ν.Keeps s.sourceAliases ∧ ∀ μ : Reads, μ.Keeps scope →
      Refines env k (.clauses μ ν s v) := by
  obtain ⟨ν, hν, hsource⟩ := h.exists_match
  refine ⟨ν, hν, fun μ hμ => ?_⟩
  refine .clauses_of_same h.same (fun _ _ => Tree.LowersIn.aggregate) ?_ ?_ ?_
  · exact fun t u ht hu _ => hsource t u ht hu μ hμ true
  · intro a ha b _ hab
    rw [h.sourceAliases]
    exact (hab.2 _ (inner_mem ha)).scalar _ (hμ.within hν)
  · exact fun a ha b _ hab => (hab.2 _ (bounds_mem ha)).scalar μ hμ

/-- A select whose clauses were lowered is lowered. -/
theorem lowers (top : Bool) : s.Lowers env k top scope v where
  label := h.label
  headers := map_eq_of_forall₂ h.same.columns fun _ _ h => h.1
  reverse := h.same.reverse.trans h.reverse
  keys := h.keys_visited
  exact := h.sameNode.isExact fun _ _ => Tree.LowersIn.exact
  hygienic := h.hygienic_visited
  refines μ hμ := by
    obtain ⟨ν, hν, hclauses⟩ := h.clauses
    refine .ordered (hclauses μ hμ) (map_eq_of_forall₂ h.same.order fun _ _ h => h.1) fun p hp => ?_
    have hab := ((forall₂_iff_zip.1 h.same.order).2 hp).2
    rw [h.sourceAliases]
    exact (hab.2 _ (inner_mem (mem_inner_of_mem_order (of_mem_zip hp).1))).scalar _ (hμ.within hν)

end

end Select.Visited

structure Select.Requires (env : Environment) (k : Mode) (scope : List Alias) (s v o : Select Tree) :
    Prop where
  lowers : s.Lowers env k true scope o
  form : s.SameForm o
  unsortable : o.Unsortable → s.Unsortable ∧ ∃ ν : ColumnMatch, ∀ μ : Reads, μ.Keeps scope →
    Refines env k (.clauses μ ν s o)
  skip : o.skip = v.skip
  take : o.take = v.take

namespace Select.Visited

variable {s v : Select Tree}

theorem unsortable (h : s.Visited env k scope v) (hv : v.Unsortable) : s.Unsortable := by
  obtain ⟨key, hkey, hnumber⟩ := hv
  obtain ⟨key', hkey', _, hab⟩ := forall₂_mem_right h.same.order hkey
  refine ⟨key', hkey', ?_⟩
  obtain ⟨ν, hν, _⟩ := h.exists_match
  have hscalar := (hab.2 _ (inner_mem (mem_inner_of_mem_order hkey'))).scalar _
    ((Reads.Keeps.same scope).within hν)
  rw [← hscalar.sameNumbering.1, hnumber]

theorem isGrouped_lifted (horder : s.order = []) (hlifted : ∀ key ∈ lifted, key.value.hasAggregate = false) :
    (s.sortedBy lifted).isGrouped = s.isGrouped := by
  have hkeys : (lifted.any fun key => key.value.hasAggregate) = false := by simpa using hlifted
  simp [isGrouped, hasAggregates, horder, hkeys]

theorem clauses_source (h : s.Visited env k scope v) {inner inner' : Select Tree}
    (hs : s.source = some (.select inner i)) (hlabel : inner'.label = inner.label)
    (hsource : ∀ μ : Reads, μ.Keeps scope →
      Refines env k (.source true μ sameName (.select inner i) (.select inner' j))) :
    ∀ μ : Reads, μ.Keeps scope →
      Refines env k (.clauses μ sameName s { v with source := some (.select inner' j) }) := by
  intro μ hμ
  have hsame : s.SameClauses (fun t u => t = .select inner i ∧ u = .select inner' j)
      (LowersIn env k (s.clauseScopes scope)) { v with source := some (.select inner' j) } :=
    ⟨hs ▸ .some ⟨rfl, rfl⟩, h.same.filter, h.same.order, h.same.group, h.same.cluster, h.same.skip,
      h.same.take, h.same.columns, h.same.distinct, h.same.reverse⟩
  have haliases : s.sourceAliases = [inner.label] := sourceAliases_of_source hs
  refine .clauses_of_same hsame (fun _ _ => Tree.LowersIn.aggregate) ?_ ?_ ?_
  · rintro t u _ _ ⟨rfl, rfl⟩
    exact hsource μ hμ
  · intro a ha b _ hab
    have hscalar := (hab.2 _ (inner_mem ha)).scalar _
      (hμ.within (ColumnMatch.Keeps.of_sameName s.sourceAliases))
    rwa [show ({ v with source := some (.select inner' j) } : Select Tree).sourceAliases =
      s.sourceAliases by rw [haliases, ← hlabel]; rfl]
  · exact fun a ha b _ hab => (hab.2 _ (bounds_mem ha)).scalar μ hμ

/-- A select whose clauses were lowered can take its order from below. -/
theorem requires (h : s.Visited env k scope v) (pages : k.pages = true) (sorted : k.sorted = true)
    (hrequire : v.requireOrder = .ok (s', order)) : s.Requires env k scope v (s'.sortedBy order) := by
  rcases requireOrder_cases hrequire with
    ⟨_, rfl, rfl⟩ | ⟨horder, hgroup, b, b', hb, hlift, rfl⟩
  · obtain ⟨ν, _, hclauses⟩ := h.clauses
    exact ⟨h.lowers true, h.same.sameForm fun _ _ => Tree.LowersIn.aggregate,
      fun hv => ⟨h.unsortable hv, ν, hclauses⟩, rfl, rfl⟩
  · obtain ⟨a, ha, hab⟩ := option_rel_exists h.same.source hb
    have hordered := (hab.2 scope (source_mem ha)).ordered hlift
    obtain ⟨inner, i, inner', rfl, rfl, hlabel, hreverse, hdelivers⟩ := hordered.select
    have hlocal : ∀ key ∈ order, key.value.IsLocal ∧ key.value.hasAggregate = false ∧
        key.value.isRowNumber = false := by
      intro key hkey
      obtain ⟨c, hvalue, _⟩ := hdelivers.columns key hkey
      rw [hvalue]
      exact ⟨isLocal_column c, hasAggregate_column c, rfl⟩
    have hclauses := h.clauses_source ha hlabel hordered.refines
    have hclauses : ∀ μ : Reads, μ.Keeps scope → Refines env k (.clauses μ sameName s
        { v with source := some (.select inner' none), order := order }) := fun μ hμ =>
      (hclauses μ hμ).clauses_order (isGrouped_lifted horder fun key hkey => (hlocal key hkey).2.1)
    have hs : s.order = [] ∧ s.group = [] :=
      ⟨forall₂_nil_right_iff.1 (horder ▸ h.same.order),
        forall₂_nil_right_iff.1 (hgroup ▸ h.same.group)⟩
    refine ⟨⟨h.label, (h.lowers true).headers, (h.lowers true).reverse,
      fun key hkey => (hlocal key hkey).1.exact, fun hexact => ?_, ?_, fun μ hμ => ?_⟩,
      (hclauses _ (.same scope)).form, fun ho => ?_, rfl, rfl⟩
    · have hinner := hordered.exact (isExact_iff.1 hexact _ (by simp [Select.clauses, ha]))
      exact isExact_reordered (s := v) ((h.lowers true).exact hexact) hinner fun key hkey =>
        (hlocal key hkey).1
    · refine hygienic_reordered (s := v) h.hygienic_visited hordered.hygienic ?_ fun key hkey =>
        (hlocal key hkey).1
      rw [h.sourceAliases, sourceAliases_of_source ha, sources, sources, hlabel]
    · exact .lifted pages sorted (hclauses μ hμ) hs.1 hs.2 ha rfl hreverse (hμ.right ▸ hdelivers)
    · obtain ⟨key, hkey, hnumber⟩ := ho
      rw [(hlocal key hkey).2.2] at hnumber
      cases hnumber

end Select.Visited

end HiveQuery
