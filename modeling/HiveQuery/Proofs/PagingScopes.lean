import HiveQuery.Proofs.PagingSteps

/-!
# Scopes under the lowering of skipped rows

Lowering skipped rows moves clauses into layers with fresh aliases, and each layer hides its own alias, so that a
lowered tree needs no more than the tree. A copy of a tree needs the columns of the tree as they are.
-/

namespace HiveQuery

variable {lifted order : List (SortKey Tree)} {i : Option Identity} {s s' : Select Tree}
open List Lowering HiveQuery.Tree

variable {n m next next' : Alias} {own : List Alias} {t u : Tree}

/-! ## Leaves and identities -/

theorem Tree.foldNode_cases (h : t.foldNode = .ok u) :
    u = t ∨ (∃ x, u = .constant x) ∧ t.sources = [] ∧ t.label? = none ∧ t.parameter? = none ∧
      ∀ a ∈ t.children, ∃ y, a.constant? = some y := by
  cases t with
  | binary op l r =>
    simp only [foldNode] at h
    split at h
    · next hl hr =>
      obtain ⟨x, _, h⟩ := bind_eq_ok.1 h
      refine .inr ⟨⟨x, (Except.ok.inj h).symm⟩, rfl, rfl, rfl, ?_⟩
      simp only [children, forall_mem_cons]
      exact ⟨⟨_, hl⟩, ⟨_, hr⟩, nofun⟩
    · exact .inl (Except.ok.inj h).symm
  | unary op a =>
    simp only [foldNode] at h
    split at h
    · next ha =>
      obtain ⟨x, _, h⟩ := bind_eq_ok.1 h
      exact .inr ⟨⟨x, (Except.ok.inj h).symm⟩, rfl, rfl, rfl, forall_mem_singleton.2 ⟨_, ha⟩⟩
    · exact .inl (Except.ok.inj h).symm
  | isNull a =>
    simp only [foldNode] at h
    split at h
    · next ha =>
      exact .inr ⟨⟨_, (Except.ok.inj h).symm⟩, rfl, rfl, rfl, forall_mem_singleton.2 ⟨_, ha⟩⟩
    · exact .inl (Except.ok.inj h).symm
  | _ => exact .inl (Except.ok.inj h).symm

theorem Tree.foldNode_covers (h : t.foldNode = .ok u) : t.Covers n u := by
  rcases foldNode_cases h with rfl | ⟨⟨x, rfl⟩, hsources, hlabel, -⟩
  · exact .refl n _
  · exact ⟨hsources.symm, hlabel.symm, .of_leaf rfl rfl rfl⟩

theorem Tree.fold_covers (h : t.fold = .ok u) : t.Covers n u :=
  bottomUp_rel _ (fun same hnode => same.covers.trans (foldNode_covers hnode)) (fold_gives h)

theorem Tree.fold_every {P : Tree → Prop} (same : ∀ {a b : Tree}, a.SameHead b → P a → P b)
    (constant : ∀ x, P (.constant x)) (h : t.fold = .ok u) (ht : t.Every P) : u.Every P := by
  refine bottomUp_every _ same (fun hnode ha hchildren => ?_) (fold_gives h) ht
  rcases foldNode_cases hnode with rfl | ⟨⟨x, rfl⟩, -⟩
  · exact every_iff.2 ⟨ha, hchildren⟩
  · exact every_iff.2 ⟨constant x, nofun⟩

theorem Tree.identifyNode_covers {id id' : Identity} (h : t.identifyNode.run id = (u, id')) :
    t.Covers n u := by
  rcases identifyNode_keeps h with same | ⟨x, rfl, -, rfl⟩
  · exact (same.imp fun a b _ hab => hab ▸ .refl n a).covers
  · exact ⟨rfl, rfl, .of_leaf rfl rfl rfl⟩

theorem Tree.KeptKey.covers (h : t.KeptKey u) : t.Covers n u := by
  cases h with
  | same => exact .refl n t
  | identified _ id =>
    exact bottomUp_rel _ (fun same hnode => same.covers.trans (identifyNode_covers hnode)) (t.identify_gives id)

/-! ## Layers -/

namespace Tree

theorem Covers.select_self (n : Alias) (s : Select Tree) (i j : Option Identity) :
    (select s i).Covers n (.select s j) := by
  have hself : (select s i).SameNode (Covers n) (.select s i) := .of_self fun a _ => .refl n a
  cases hself with
  | select _ _ label same => exact (Tree.SameNode.select i j label same).covers

theorem Spans.of_refers {drawn : Alias} {a : Tree}
    (h : ∃ c : ColumnRef, a = .column c ∧ c.label = drawn) : t.Spans n [drawn] a := by
  obtain ⟨c, rfl, rfl⟩ := h
  exact .of_column (.inl (mem_singleton.2 rfl))

namespace Spans

theorem label (hs : t.Spans n [] (.select s i)) : s.label ∈ t.declared ∨ n ≤ s.label := by
  refine hs.declared _ ?_
  rw [declared_eq]
  exact mem_append_left _ (mem_singleton.2 rfl)

theorem clauses (hs : t.Spans n [] (.select s i)) :
    (∀ a ∈ s.source, t.Spans n [] a) ∧ ∀ a ∈ s.others, t.Spans n s.sourceAliases a :=
  ⟨fun _ ha => hs.trans (.of_source ha), fun _ ha => (hs.widen _).trans (.of_others ha)⟩

end Spans

end Tree

namespace Select

variable {s f o x inner : Select Tree} {i j : Option Identity} {skip : Tree} {take : Option Tree} {label : Alias}

theorem forall_others {P : Tree → Prop} :
    (∀ a ∈ s.others, P a) ↔ (∀ a ∈ s.filter, P a) ∧ (∀ k ∈ s.order, P k.value) ∧ (∀ a ∈ s.group, P a) ∧
      (∀ a ∈ s.cluster, P a) ∧ (∀ a ∈ s.skip, P a) ∧ (∀ a ∈ s.take, P a) ∧ ∀ c ∈ s.columns, P c.value := by
  simp only [others, clauses, forall_mem_append, forall_mem_map,
    Option.mem_toList, Option.mem_def, Option.toList_none, not_mem_nil, false_implies, implies_true, true_and,
    and_assoc]

section

variable (hs : t.Spans n [] (.select s i))
include hs

theorem spans_order : ∀ k ∈ s.order, t.Spans n s.sourceAliases k.value :=
  (forall_others.1 hs.clauses.2).2.1

theorem spans_bounds (hlabel : f.label ∈ t.declared ∨ n ≤ f.label)
    (hsource : f.source = s.source) (hfilter : f.filter = s.filter)
    (horder : ∀ k ∈ f.order, t.Spans n s.sourceAliases k.value) (hgroup : f.group = s.group)
    (hcluster : f.cluster = s.cluster) (hcolumns : f.columns = s.columns)
    (hskip : ∀ a ∈ f.skip, t.Spans n s.sourceAliases a) (htake : ∀ a ∈ f.take, t.Spans n s.sourceAliases a) :
    t.Spans n [] (.select f j) := by
  have haliases : f.sourceAliases = s.sourceAliases := by
    rw [sourceAliases, sourceAliases, hsource]
  obtain ⟨hsource', hothers⟩ := hs.clauses
  obtain ⟨hfilter', -, hgroup', hcluster', -, -, hcolumns'⟩ := forall_others.1 hothers
  refine .select hlabel (hsource ▸ hsource') ?_
  rw [haliases]
  exact forall_others.2 ⟨hfilter ▸ hfilter', horder, hgroup ▸ hgroup', hcluster ▸ hcluster', hskip, htake,
    hcolumns ▸ hcolumns'⟩

theorem spans_unbounded : t.Spans n [] (.select s.unbounded none) := by
  have hkeys := spans_order hs
  exact spans_bounds hs hs.label rfl rfl hkeys rfl rfl rfl nofun nofun

theorem spans_unordered : t.Spans n [] (.select (s.sortedBy []) none) := by
  obtain ⟨-, -, -, -, hskip, htake, -⟩ := forall_others.1 hs.clauses.2
  exact spans_bounds hs hs.label rfl rfl nofun rfl rfl rfl hskip htake

theorem liftOrder_spans (h : s.liftOrder = .ok (inner, lifted)) :
    t.Spans n [] (.select inner none) ∧ ∀ l ∈ lifted, ∃ c : ColumnRef, l.value = .column c ∧ c.label = inner.label := by
  obtain ⟨order, extra, hkept, rfl, hextra, -, hlifted, -⟩ := liftOrder_cases h
  obtain ⟨hsource, hothers⟩ := hs.clauses
  obtain ⟨hfilter, horder, hgroup, hcluster, hskip, htake, hcolumns⟩ := forall_others.1 hothers
  have hkeys : ∀ k ∈ order, t.Spans n s.sourceAliases k.value := fun k hk => by
    obtain ⟨k₀, hk₀, -, hkey⟩ := forall₂_mem_right hkept hk
    exact (horder k₀ hk₀).trans (hkey.covers.spans.widen _)
  refine ⟨.select hs.label hsource (forall_others.2 ⟨hfilter, hkeys, hgroup, hcluster, hskip, htake,
    forall_mem_append.2 ⟨hcolumns, fun e he => ?_⟩⟩), hlifted⟩
  obtain ⟨k, hk, hvalue⟩ := hextra e he
  exact hvalue ▸ hkeys k hk

end

theorem OrderedAs.covers (h : s.OrderedAs o) (i j : Option Identity) : (select s i).Covers n (.select o j) := by
  induction h generalizing i j with
  | own s => exact .select_self n s i j
  | @source s x y z k _ _ source _ lift ih =>
    obtain ⟨hz, hlifted⟩ := liftOrder_spans (ih k none).spans lift
    have hlabel : z.label = x.label := by
      obtain ⟨_, _, -, rfl, -⟩ := liftOrder_cases lift
      exact Option.some.inj (ih k none).label
    obtain ⟨hfilter, -, hgroup, hcluster, hskip, htake, hcolumns⟩ :=
      forall_others.1 (Tree.Spans.refl n [] (select s i)).clauses.2
    have haliases : s.sourceAliases = [z.label] := hlabel ▸ sourceAliases_of_source source
    rw [haliases] at hfilter hgroup hcluster hskip htake hcolumns
    refine ⟨rfl, rfl, .select (Tree.Spans.refl n [] (select s i)).label ?_ ?_⟩
    · rintro _ ⟨rfl⟩
      exact (Tree.Spans.of_source source).trans hz
    · exact forall_others.2 ⟨hfilter, fun l hl => .of_refers (hlifted l hl), hgroup, hcluster, hskip, htake,
        hcolumns⟩

theorem spans_relabeled (hs : t.Spans n [] (.select s i)) (hn : n ≤ label) :
    t.Spans n [] (.select { s with label := label } none) :=
  .select (.inr hn) hs.clauses.1 hs.clauses.2

/-- A layer needs what the select below needs. -/
theorem spans_above {filter : Option Tree} {columns : List (Column Tree)}
    (hlabel : s.label ∈ t.declared ∨ n ≤ s.label) (hinner : t.Spans n [] (.select inner none))
    (hfilter : ∀ a ∈ filter, t.Spans n [inner.label] a)
    (horder : ∀ k ∈ order, ∃ c : ColumnRef, k.value = .column c ∧ c.label = inner.label)
    (htake : ∀ a ∈ take, t.Spans n [] a) (hcolumns : ∀ c ∈ columns, c ∈ (s.above inner).columns) :
    t.Spans n [] (.select
      { s.above inner with columns := columns, filter := filter, order := order, take := take } none) := by
  refine .select hlabel ?_ (forall_others.2 ⟨hfilter, fun k hk => .of_refers (horder k hk), nofun, nofun, nofun,
    fun a ha => (htake a ha).widen _, fun c hc => ?_⟩)
  · rintro _ ⟨rfl⟩
    exact hinner
  · obtain ⟨d, -, rfl⟩ := mem_map.1 (hcolumns c hc)
    exact .of_refers (passOn_column inner.label d)

end Select

/-! ## Copies -/

theorem Tree.Tidy.of_spans (h : t.Tidy) (hspans : ∀ n, t.Spans n [] u) : u.Tidy := by
  intro c hc hmem
  -- declared from an alias above that of the column on
  rcases (hspans (c.label + 1)).declared _ hmem with hmem | hle
  · exact h c ((hspans 0).needs_of_nil hc) hmem
  · exact Nat.not_succ_le_self _ hle

/-- A copy needs what the tree needs. -/
theorem Tree.duplicate_spans (tidy : t.Tidy) (hn : n ≤ next) (h : t.duplicate.run next = (u, next')) :
    next ≤ next' ∧ t.Spans n [] u := by
  obtain ⟨f, rfl, hnext, hfresh, -, hfixed⟩ := duplicate_gives h
  refine ⟨hnext, fun d hd => .inr ?_, fun a ha => .inr ?_⟩
  · obtain ⟨c, hc, rfl⟩ := (Renaming.rename f).needs _ hd
    rwa [ColumnRef.rename, hfixed _ (tidy c hc)]
  · rw [(Renaming.rename f).declared] at ha
    obtain ⟨b, hb, rfl⟩ := mem_map.1 ha
    exact hn.trans (hfresh b hb).1

/-! ## Lowered selects -/

theorem Tree.Spans.foldedSum {a b : Tree} (ha : t.Spans n own a) (hb : t.Spans n own b)
    (h : (binary .add a b).fold = .ok u) : t.Spans n own u := by
  have hsum : t.Spans n own (.binary .add a b) := .of_children rfl rfl (by simp [ha, hb])
  exact hsum.trans ((fold_covers h).spans.widen own)

namespace Select

variable {s f o base : Select Tree} {skip : Tree} {take : Option Tree} {keys : List (SortKey Tree)} {label : Alias}

theorem remainingRows_spans (tidy : (select (s.sortedBy []) none).Tidy)
    (hs : t.Spans n [] (.select (s.sortedBy []) none)) (hskip : t.Spans n [] skip) (hn : n ≤ next)
    (h : (s.remainingRows skip).run next = (u, next')) : t.Spans n [] u := by
  obtain ⟨copy, next₁, hcopy, rfl, rfl⟩ := remainingRows_cases h
  obtain ⟨hle, hspans⟩ := duplicate_spans tidy hn hcopy
  have hcount : t.Spans n [] (.select (counting next₁ copy) none) := by
    refine .select (.inr (hn.trans hle)) ?_ ?_
    · rintro _ ⟨rfl⟩
      exact hs.trans hspans
    · exact forall_others.2 ⟨nofun, nofun, nofun, nofun, nofun, nofun, forall_mem_singleton.2 (.of_leaf rfl rfl rfl)⟩
  have hquery : t.Spans n [] (.scalarSubquery _ .int64) := .of_children rfl rfl (forall_mem_singleton.2 hcount)
  exact .of_children rfl rfl (forall_mem_cons.2 ⟨hquery, forall_mem_singleton.2 hskip⟩)

def LowersWithin (lower : SkipLowering) : Prop :=
  ∀ {s f : Select Tree} {skip : Tree} {take : Option Tree} {n next next' : Alias},
    (lower s skip take).Gives next f next' → n ≤ next → (Tree.select s none).Tidy →
    (Tree.select s none).Spans n [] skip → (∀ a ∈ take, (Tree.select s none).Spans n [] a) →
    f.label = s.label ∧ (Tree.select s none).Spans n [] (.select f none)

theorem FirstRows.spans {first : Select Tree} {window : Tree} (h : o.FirstRows skip next take first window next')
    (hn : n ≤ next) (tidy : t.Tidy) (ho : ∀ n, t.Spans n [] (.select o none)) (hskip : t.Spans n [] skip)
    (htake : ∀ a ∈ take, t.Spans n [] a) :
    first.label = o.label ∧ t.Spans n [] (.select first none) ∧ t.Spans n [] window := by
  cases h with
  | taken sum =>
    have hlimit := hskip.foldedSum (htake _ rfl) (gives_evaluating.1 sum).1
    have hkeys := spans_order (ho n)
    refine ⟨rfl, spans_bounds (ho n) (ho n).label rfl rfl hkeys rfl rfl rfl nofun ?_, htake _ rfl⟩
    rintro _ ⟨rfl⟩
    exact hlimit.widen _
  | counted count =>
    have hcounted : ∀ n, t.Spans n [] (.select (o.unbounded.sortedBy []) none) := fun n =>
      spans_unordered (spans_unbounded (ho n))
    exact ⟨rfl, spans_unbounded (ho n), remainingRows_spans (tidy.of_spans hcounted) (hcounted n) hskip hn count⟩

theorem nestOrders_lowersWithin : LowersWithin nestOrders := by
  intro s f skip take n next next' h hn tidy hskip htake
  obtain ⟨o, hordered, first, window, next₁, hfirst, -, _, lifted, _, lifted', ⟨inner, hinner, rfl⟩,
    ⟨inner', hinner', rfl⟩, rfl⟩ := nestOrders_cases h
  have hcovers : ∀ n, (select s none).Covers n (.select o none) := fun n => hordered.covers none none
  obtain ⟨hlabel, hspans, hwindow⟩ := hfirst.spans hn tidy (fun n => (hcovers n).spans) hskip htake
  have hnext := hn.trans hfirst.next_le
  obtain ⟨hinner, hlifted⟩ := liftOrder_spans (spans_relabeled hspans hnext) hinner
  have hlast : (select s none).Spans n [] (.select ((first.above inner).lastRows lifted window) none) := by
    refine spans_above hspans.label hinner nofun (forall_mem_map.2 hlifted) ?_ fun _ hc => hc
    rintro _ ⟨rfl⟩
    exact hwindow
  obtain ⟨hinner', hlifted'⟩ := liftOrder_spans (spans_relabeled hlast (hnext.trans (Nat.le_succ _))) hinner'
  refine ⟨hlabel.trans (Option.some.inj (hcovers n).label), ?_⟩
  exact spans_above hlast.label hinner' nofun (forall_mem_map.2 hlifted') nofun fun _ hc => hc

theorem windowFilter_spans {number : Tree} (hnumber : t.Spans n own number) (hskip : t.Spans n own skip)
    (htake : ∀ a ∈ take, t.Spans n own a) (h : (windowFilter number skip take).Gives next u next') :
    t.Spans n own u := by
  obtain ⟨-, ⟨-, rfl⟩ | ⟨a, first, last, rfl, hfirst, hlast, rfl⟩⟩ := windowFilter_cases h
  · exact .of_children rfl rfl (by simp [hnumber, hskip])
  · have hfirst := hskip.foldedSum (.of_leaf rfl rfl rfl) hfirst
    have hlast := hskip.foldedSum (htake a rfl) hlast
    exact .of_children rfl rfl (by simp [hnumber, hfirst, hlast])

theorem NumberedOver.spans (h : o.NumberedOver next base keys label) (hn : n ≤ next)
    (ho : t.Spans n [] (.select o none)) : base.label = o.label ∧ n ≤ label ∧ t.Spans n [] (.select base none) ∧
      ∀ k ∈ keys, t.Spans n base.sourceAliases k.value := by
  cases h with
  | itself => exact ⟨rfl, hn, spans_unordered (spans_unbounded ho), spans_order ho⟩
  | @layer inner _ lift =>
    obtain ⟨hinner, hlifted⟩ := liftOrder_spans (spans_relabeled (spans_unbounded ho) hn) lift
    have hbase : t.Spans n [] (.select (o.above (inner.sortedBy [])) none) :=
      spans_above ho.label (spans_unordered hinner) nofun nofun nofun fun _ hc => hc
    exact ⟨rfl, hn.trans (Nat.le_succ _), hbase, fun k hk => .of_refers (hlifted k hk)⟩

theorem numberRows_lowersWithin : LowersWithin numberRows := by
  intro s f skip take n next next' h hn _ hskip htake
  obtain ⟨o, hordered, base, keys, label, hbase, kept, hkept, rfl⟩ := numberRows_cases h
  have hcovers : (select s none).Covers n (.select o none) := hordered.covers none none
  obtain ⟨hlabel, hle, hbase, hkeys⟩ := hbase.spans hn hcovers.spans
  obtain ⟨hsource, hothers⟩ := hbase.clauses
  obtain ⟨hfilter, horder, hgroup, hcluster, hskip', htake', hcolumns⟩ := forall_others.1 hothers
  have hnumbered : (select s none).Spans n []
      (.select (base.numbering keys (freeName base.headers "_rownum") label) none) := by
    refine .select (.inr hle) hsource (forall_others.2 ⟨hfilter, horder, hgroup, hcluster, hskip', htake',
      forall_mem_append.2 ⟨hcolumns, forall_mem_singleton.2 (.of_children rfl rfl (forall_mem_map.2 hkeys))⟩⟩)
  have hnumber : (select s none).Spans n [label] (.column (numberRef label (freeName base.headers "_rownum"))) :=
    .of_refers ⟨_, rfl, rfl⟩
  refine ⟨hlabel.trans (Option.some.inj hcovers.label), ?_⟩
  refine spans_above (s := base.addColumn ⟨_, .rowNumber keys, ScalarType.int32.columnType⟩) hbase.label hnumbered ?_
    (forall_mem_singleton.2 ⟨_, rfl, rfl⟩) nofun fun _ hc => (mem_filter.1 hc).1
  rintro _ ⟨rfl⟩
  exact windowFilter_spans hnumber (hskip.widen _) (fun a ha => (htake a ha).widen _) hkept

end Select

/-! ## Lowered trees -/

/-- The bounds of a select refer to none of its sources. -/
def Tree.BoundsApart (t : Tree) : Prop :=
  t.Every fun u => ∀ s ∈ u.select?, ∀ b ∈ s.bounds, ∀ a ∈ b.referenced, a ∉ s.sourceAliases

instance (t : Tree) : Decidable t.BoundsApart :=
  inferInstanceAs (Decidable (t.Every _))

theorem Tree.Needs.mem_referenced {c : ColumnRef} (h : t.Needs c) : c.label ∈ t.referenced :=
  mem_map_of_mem (mem_allColumns.2 h.mem_subtrees)

theorem Select.lowerSkip_spans {lower : SkipLowering} (hlower : LowersWithin lower) {f : Select Tree}
    {skip : Tree} (hn : n ≤ next) (tidy : (select s none).Tidy)
    (hskip : (select s none).Spans n [] skip) (htake : ∀ a ∈ s.take, (select s none).Spans n [] a)
    (h : (s.lowerSkip lower skip).Gives next f next') :
    f.label = s.label ∧ (select s none).Spans n [] (.select f none) := by
  obtain ⟨folded, hfolded, ⟨-, rfl, -⟩ | ⟨-, taken, htaken, hgives⟩⟩ := lowerSkip_cases h
  · have hself := Tree.Spans.refl n [] (select s none)
    have hkeys := spans_order hself
    exact ⟨rfl, spans_bounds hself hself.label rfl rfl hkeys rfl rfl rfl nofun fun a ha => (htake a ha).widen _⟩
  · refine hlower hgives hn tidy (hskip.trans (fold_covers hfolded).spans) fun b hb => ?_
    obtain ⟨a, ha, hfold⟩ := forall₂_mem_right (optionRel_iff.1 htaken) (Option.mem_toList.2 hb)
    exact (htake a (Option.mem_toList.1 ha)).trans (fold_covers hfold).spans

theorem Select.SameClauses.spans_bounds (h : s.SameClauses (Covers n) (Covers n) s')
    (bounds : (select s i).BoundsApart) : ∀ b ∈ s'.bounds, (select s' none).Spans n [] b := by
  intro b' hb'
  obtain ⟨b, hb, hcovers⟩ : ∃ b ∈ s.bounds, b.Covers n b' :=
    forall₂_mem_right (rel_append (optionRel_iff.1 h.skip) (optionRel_iff.1 h.take)) hb'
  have hapart := bounds _ (mem_subtrees.2 (.inl rfl)) s rfl b hb
  have hothers : b' ∈ s'.others := by
    simp only [Select.others, Select.clauses, mem_append]
    rcases mem_append.1 hb' with hb' | hb' <;> simp [hb']
  refine ⟨fun c hc => .inr ?_, (Tree.Spans.of_others hothers).declared⟩
  refine ((Tree.Spans.of_others (n := n) hothers).needs c hc).resolve_left fun hmem => ?_
  rw [h.sourceAliases fun _ _ h => h.sources] at hmem
  exact hapart _ (hcovers.spans.needs_of_nil hc).mem_referenced hmem

/-- A lowered tree needs what the tree needs. -/
theorem Tree.lowerSkips_covers {lower : SkipLowering}
    (hlower : Select.LowersWithin lower) (hascends : ∀ s skip take, (lower s skip take).Ascends)
    (settled : t.Settled n) (bounds : t.BoundsApart) (hn : n ≤ next)
    (h : (t.lowerSkips lower).Gives next u next') : t.Covers n u := by
  induction t generalizing u next next' with
  | step t ih =>
    have mono : ∀ {t u : Tree} {m m'}, (t.lowerSkipAt lower).Gives m u m' → m ≤ m' := fun h =>
      lowerSkipAt_ascends hascends _ _ _ _ h
    obtain ⟨-, v, m, hm, hnode, same⟩ := bottomUp_gives mono t h
    have hsame : t.SameNode (Covers n) v := same.imp fun a b ha hab => by
      obtain ⟨-, k, k', hk, hgives⟩ := hab
      exact ih a ha (settled.child ha) (bounds.child ha) (hn.trans hk) hgives
    have hcovers := hsame.covers
    refine hcovers.trans ?_
    rcases lowerSkipAt_cases hnode with ⟨rfl, -⟩ | ⟨s', j, skip, f, rfl, hskip, rfl, hf⟩
    · exact .refl n _
    · cases hsame with
      | select _ _ _ clauses =>
        have hself := Tree.Covers.select_self n s' j none
        have hbounds := clauses.spans_bounds bounds
        obtain ⟨hlabel, hspans⟩ := Select.lowerSkip_spans hlower (hn.trans hm)
          (settled.tidy_of_covers (hcovers.trans hself))
          (hbounds skip (by simp [Select.bounds, hskip]))
          (fun a ha => hbounds a (by simp [Select.bounds, Option.mem_def.1 ha])) hf
        exact hself.trans ⟨congrArg (fun a => [a]) hlabel, congrArg some hlabel, hspans⟩

end HiveQuery
