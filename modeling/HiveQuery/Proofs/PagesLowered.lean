import HiveQuery.Proofs.LoweredRelationships
import HiveQuery.Proofs.PagingScopes
import HiveQuery.Proofs.CompiledQueries
import HiveQuery.Proofs.RepeatedLookups

/-!
# Pages are lowered

The last lowering leaves no select that skips rows, in whatever clause or copy of a clause it stands.
-/

namespace HiveQuery
open HiveQuery.Tree

variable {t u v : Tree} {R : Tree → Tree → Prop} {skips numbers : Bool}
  {next next' : Alias} {m : EntityMap} {c : Config} {dialect : Dialect}

/-! ## Ways of paging -/

/-- Rows are skipped only if `skips`, and numbered only if `numbers`. -/
structure Tree.NodePagesBy (skips numbers : Bool) (t : Tree) : Prop where
  skip : skips = false → ∀ s ∈ t.select?, s.skip = none
  number : numbers = false → t.isRowNumber = false

def Tree.PagesBy (skips numbers : Bool) (t : Tree) : Prop :=
  t.Every (Tree.NodePagesBy skips numbers)

theorem Tree.nodePagesBy_of_plain (select : t.isSelect = false) (number : t.isRowNumber = false) :
    t.NodePagesBy skips numbers := by
  refine ⟨fun _ s hs => ?_, fun _ => number⟩
  cases t with
  | select => cases select
  | _ => cases hs

theorem Tree.pagesBy_of_children (select : t.isSelect = false) (number : t.isRowNumber = false)
    (h : ∀ a ∈ t.children, a.PagesBy skips numbers) : t.PagesBy skips numbers :=
  every_iff.2 ⟨nodePagesBy_of_plain select number, h⟩

theorem Tree.pagesBy_column (c : ColumnRef) : (column c).PagesBy skips numbers :=
  pagesBy_of_children rfl rfl nofun

theorem Tree.pagesBy_constant (x : Value) : (constant x).PagesBy skips numbers :=
  pagesBy_of_children rfl rfl nofun

theorem Tree.SameNode.pagesBy (h : t.SameNode R u) (ht : t.NodePagesBy skips numbers) :
    u.NodePagesBy skips numbers := by
  refine ⟨fun hskips s' hs' => ?_, fun hnumbers => h.isRowNumber.trans (ht.number hnumbers)⟩
  obtain ⟨s, hs, same⟩ := h.exists_select hs'
  have hskip := option_isSome_eq same.skip
  rw [ht.skip hskips s hs] at hskip
  exact Option.not_isSome_iff_eq_none.1 (by simp [hskip])

/-! ## Copies -/

theorem Tree.fold_pagesBy (h : t.fold = .ok u) (ht : t.PagesBy skips numbers) : u.PagesBy skips numbers :=
  fold_every Tree.SameNode.pagesBy (fun _ => nodePagesBy_of_plain rfl rfl) h ht

theorem Tree.rename_pagesBy (f : Alias → Alias) (ht : t.PagesBy skips numbers) :
    (t.rename f).PagesBy skips numbers := by
  have hgives : Outcome.plain.gives (t.bottomUp fun u => (pure (u.renameNode f) : Id Tree)) () (t.rename f) () :=
    rfl
  refine bottomUp_every _ Tree.SameNode.pagesBy (fun {a b st st'} hnode ha hchildren => ?_) hgives ht
  have hnode : a.renameNode f = b := hnode
  subst hnode
  cases a with
  | select s i => exact every_iff.2 ⟨⟨fun h s' hs' => by cases hs'; exact ha.skip h s rfl, ha.number⟩, hchildren⟩
  | _ => exact every_iff.2 ⟨⟨ha.skip, ha.number⟩, hchildren⟩

theorem Tree.KeptKey.pagesBy (h : t.KeptKey u) (ht : t.PagesBy skips numbers) : u.PagesBy skips numbers :=
  h.every Tree.SameNode.pagesBy (fun _ => nodePagesBy_of_plain rfl rfl) ht

/-! ## Layers -/

def pagingLaw (numbers : Bool) : ClauseLaw where
  source := Tree.PagesBy false numbers
  scalar := Tree.PagesBy false numbers
  bound := Tree.PagesBy false numbers
  reverses := True

namespace Select

variable {s f o : Select Tree} {i : Option Identity} {skip : Tree} {take : Option Tree}

theorem clausesLowered_iff : (∀ a ∈ s.clauses, a.PagesBy false numbers) ↔
    (∀ a ∈ s.source, a.PagesBy false numbers) ∧ (∀ a ∈ s.filter, a.PagesBy false numbers) ∧
      (∀ k ∈ s.order, k.value.PagesBy false numbers) ∧ (∀ a ∈ s.group, a.PagesBy false numbers) ∧
      (∀ a ∈ s.cluster, a.PagesBy false numbers) ∧ (∀ a ∈ s.skip, a.PagesBy false numbers) ∧
      (∀ a ∈ s.take, a.PagesBy false numbers) ∧ ∀ c ∈ s.columns, c.value.PagesBy false numbers := by
  rw [clauses_eq, List.forall_mem_append, forall_others]
  simp

theorem obeys_of_clauses (h : ∀ a ∈ s.clauses, a.PagesBy false numbers)
    (htake : ∀ a ∈ take, a.PagesBy false numbers) :
    ({ s with skip := none, take := take } : Select Tree).Obeys (pagingLaw numbers) := by
  obtain ⟨hsource, hfilter, horder, hgroup, hcluster, -, -, hcolumns⟩ := clausesLowered_iff.1 h
  exact ⟨hsource, hfilter, horder, hgroup, hcluster, hcolumns, htake, rfl, fun _ => trivial⟩

theorem pagesBy_iff : (select s i).PagesBy false numbers ↔ s.Obeys (pagingLaw numbers) := by
  refine every_iff.trans ⟨fun ⟨hnode, hclauses⟩ => ?_, fun h => ⟨⟨fun _ => ?_, fun _ => rfl⟩, ?_⟩⟩
  · have hskip := hnode.skip rfl s rfl
    obtain ⟨hsource, hfilter, horder, hgroup, hcluster, -, htake, hcolumns⟩ := clausesLowered_iff.1 hclauses
    exact ⟨hsource, hfilter, horder, hgroup, hcluster, hcolumns, htake, hskip, fun _ => trivial⟩
  · rintro _ ⟨rfl⟩
    exact h.skip
  · exact clausesLowered_iff.2 ⟨h.source, h.filter, h.order, h.group, h.cluster, h.skip ▸ nofun, h.take,
      h.columns⟩

theorem pagingLaw_layered : (pagingLaw numbers).Layered := ⟨pagesBy_iff, pagesBy_column, Tree.KeptKey.pagesBy⟩

/-! ## Skipped rows -/

def LowersPages (numbers : Bool) (lower : SkipLowering) : Prop :=
  ∀ {s f : Select Tree} {skip : Tree} {take : Option Tree} {next next' : Alias},
    s.unbounded.Obeys (pagingLaw numbers) → skip.PagesBy false numbers →
      (∀ a ∈ take, a.PagesBy false numbers) → (lower s skip take).Gives next f next' →
        f.Obeys (pagingLaw numbers)

theorem fold_sum_pagesBy {a b : Tree} (h : (binary .add a b).fold = .ok t)
    (ha : a.PagesBy false numbers) (hb : b.PagesBy false numbers) : t.PagesBy false numbers := by
  refine fold_pagesBy h (pagesBy_of_children rfl rfl ?_)
  simpa using ⟨ha, hb⟩

theorem windowFilter_pagesBy {c : ColumnRef} {window : Tree} (hskip : skip.PagesBy false numbers)
    (htake : ∀ a ∈ take, a.PagesBy false numbers)
    (h : (windowFilter (.column c) skip take).Gives next window next') : window.PagesBy false numbers := by
  have hcolumn : (column c).PagesBy false numbers := pagesBy_column c
  obtain ⟨-, ⟨rfl, rfl⟩ | ⟨a, first, last, rfl, hfirst, hlast, rfl⟩⟩ := windowFilter_cases h
  · refine pagesBy_of_children rfl rfl ?_
    simpa using ⟨hcolumn, hskip⟩
  · refine pagesBy_of_children rfl rfl ?_
    simpa using ⟨hcolumn, fold_sum_pagesBy hfirst hskip (pagesBy_constant _),
      fold_sum_pagesBy hlast hskip (htake a rfl)⟩

theorem numberRows_lowersPages : LowersPages true numberRows := fun hs hskip htake h =>
  hs.numberRows pagingLaw_layered (fun _ hkeys => every_iff.2 ⟨⟨nofun, nofun⟩, List.forall_mem_map.2 hkeys⟩)
    (windowFilter_pagesBy hskip htake) h

theorem remainingRows_pagesBy {window : Tree} (h : (s.remainingRows skip).run next = (window, next'))
    (hs : s.Obeys (pagingLaw numbers)) (hskip : skip.PagesBy false numbers) :
    window.PagesBy false numbers := by
  obtain ⟨copy, next₁, hcopy, -, rfl⟩ := remainingRows_cases h
  have hcopy : copy.PagesBy false numbers := by
    obtain ⟨f, rfl, -⟩ := duplicate_gives hcopy
    exact rename_pagesBy _ (pagesBy_iff.2 { hs with order := nofun })
  have hcount : (select (counting next₁ copy) none).PagesBy false numbers := by
    refine pagesBy_iff.2 ⟨?_, nofun, nofun, nofun, nofun, ?_, nofun, rfl, nofun⟩
    · rintro _ ⟨rfl⟩
      exact hcopy
    · intro d hd
      cases List.mem_singleton.1 hd
      exact pagesBy_of_children rfl rfl nofun
  refine pagesBy_of_children rfl rfl ?_
  simp only [children, List.forall_mem_cons]
  exact ⟨pagesBy_of_children rfl rfl (by simpa using hcount), hskip, nofun⟩

theorem FirstRows.lowered {first : Select Tree} {window : Tree} (ho : o.unbounded.Obeys (pagingLaw numbers))
    (h : o.FirstRows skip next take first window next') (hskip : skip.PagesBy false numbers)
    (htake : ∀ a ∈ take, a.PagesBy false numbers) :
    first.Obeys (pagingLaw numbers) ∧ window.PagesBy false numbers := by
  cases h with
  | taken sum =>
    obtain ⟨hsum, -⟩ := Lowering.gives_evaluating.1 sum
    have htake := htake _ rfl
    refine ⟨{ ho with take := ?_ }, htake⟩
    rintro _ ⟨rfl⟩
    exact fold_sum_pagesBy hsum hskip htake
  | counted count => exact ⟨ho, remainingRows_pagesBy count ho hskip⟩

theorem nestOrders_lowersPages : LowersPages numbers nestOrders := fun hs hskip htake h =>
  hs.nestOrders pagingLaw_layered (fun ho hfirst => hfirst.lowered ho hskip htake) h

theorem lowerSkip_lowered {lower : SkipLowering}
    (hlower : LowersPages numbers lower) (hs : ∀ a ∈ s.clauses, a.PagesBy false numbers)
    (hskip : s.skip = some skip) (h : (s.lowerSkip lower skip).Gives next f next') :
    (select f none).PagesBy false numbers := by
  obtain ⟨-, -, -, -, -, hskips, htakes, -⟩ := clausesLowered_iff.1 hs
  obtain ⟨folded, hfolded, ⟨-, rfl, -⟩ | ⟨-, taken, htaken, hgives⟩⟩ := lowerSkip_cases h
  · exact pagesBy_iff.2 (obeys_of_clauses hs htakes)
  · refine pagesBy_iff.2 (hlower (obeys_of_clauses hs nofun)
      (fold_pagesBy hfolded (hskips skip hskip)) (fun a ha => ?_) hgives)
    obtain ⟨b, hb, hfold⟩ := forall₂_mem_right (optionRel_iff.1 htaken) (Option.mem_toList.2 ha)
    exact fold_pagesBy hfold (htakes b (Option.mem_toList.1 hb))

end Select

theorem Tree.lowerSkips_pagesBy {lower : SkipLowering}
    (hlower : Select.LowersPages numbers lower) (h : (t.lowerSkips lower).Gives next u next')
    (ht : t.PagesBy true numbers) : u.PagesBy false numbers := by
  refine bottomUp_every lowering Tree.SameNode.pagesBy (fun {a b k k'} hnode ha hchildren => ?_) h ht
  rcases lowerSkipAt_cases hnode with ⟨rfl, -, hskip⟩ | ⟨s, i, skip, f, rfl, hskip, rfl, hf⟩
  · exact every_iff.2 ⟨⟨fun _ => hskip, ha.number⟩, hchildren⟩
  · exact Select.lowerSkip_lowered hlower hchildren hskip hf

/-- Skipped rows are lowered everywhere. -/
theorem Tree.lowerPaging_pagesBy (h : (t.lowerPaging dialect).Gives next u next')
    (ht : t.PagesBy true numbers) : u.PagesBy false (dialect.allowsRowNumber || numbers) := by
  unfold lowerPaging at h
  split at h
  · next hdialect =>
    rw [hdialect, Bool.true_or]
    exact lowerSkips_pagesBy Select.numberRows_lowersPages h fun v hv => ⟨(ht v hv).skip, nofun⟩
  · next hdialect =>
    rw [Bool.eq_false_of_not_eq_true hdialect, Bool.false_or]
    exact lowerSkips_pagesBy Select.nestOrders_lowersPages h ht

/-! ## The other lowerings -/

theorem Tree.bindMembers_pagesBy {lookups : List Alias} (h : (t.bindMembers m).Gives next (u, lookups) next')
    (ht : t.PagesBy true numbers) : u.PagesBy true numbers := by
  obtain ⟨nav, hvisit, -, -⟩ := bindMembers_gives.1 h
  obtain ⟨-, hbound, -⟩ := bindsFrom (fun _ hw => hw) _ _ _ hvisit nofun
  refine fun v hv => ⟨nofun, fun hnumbers => Bool.eq_false_of_not_eq_true fun hnumber => ?_⟩
  obtain ⟨w, hw, hnumber⟩ := (hbound v hv).numbers hnumber
  exact Bool.false_ne_true (((ht w hw).number hnumbers).symm.trans hnumber)

theorem LowersApply.pagesBy (h : LowersApply t u) (ht : t.PagesBy true numbers) : u.PagesBy true numbers := by
  have hroot : u.NodePagesBy true numbers := by
    cases h with
    | kept => exact (every_iff.1 ht).1
    | _ => exact nodePagesBy_of_plain rfl rfl
  exact h.every hroot (fun _ => nodePagesBy_of_plain rfl rfl) (nodePagesBy_of_plain rfl rfl)
    (fun _ _ _ same ha => same.pagesBy ha) (fun _ _ _ _ => ⟨nofun, fun _ => rfl⟩) ht

theorem Tree.IsolatedAs.pagesBy (h : t.IsolatedAs u) (ht : t.PagesBy true numbers) :
    u.PagesBy true numbers := by
  intro b hb
  rcases h.mem_subtrees hb with ⟨d, rfl⟩ | ⟨st, v, rfl⟩ | ⟨a, ha, _, same⟩
  · exact nodePagesBy_of_plain rfl rfl
  · exact ⟨nofun, fun _ => rfl⟩
  · exact same.pagesBy (ht a ha)

theorem lowerJoins_pagesBy (c : Config) (lookups : List Alias) (ht : t.PagesBy true numbers) :
    (lowerJoins c lookups t).PagesBy true numbers := by
  obtain ⟨joined, hjoined⟩ : ∃ joined, (if c.lowerApplyJoins then t.lowerApplies else t) = joined := ⟨_, rfl⟩
  rw [lowerJoins, hjoined]
  have hjoined : joined.PagesBy true numbers := by
    subst hjoined
    split
    · exact lowerApplies_every (fun _ _ same ha => same.pagesBy ha) LowersApply.pagesBy ht
    · exact ht
  split
  · exact dropRepeatedLookups_every lookups SameNode.pagesBy (fun _ => nodePagesBy_of_plain rfl rfl) hjoined
  · exact hjoined

theorem lower_pagesBy (h : (lower dialect m c t).Gives next u next') (ht : t.PagesBy true numbers) :
    u.PagesBy false (dialect.allowsRowNumber || numbers) := by
  obtain ⟨bound, lookups, next₁, isolated, next₂, hbind, hisolated, hpaged⟩ := lower_gives h
  have hjoined := lowerJoins_pagesBy c lookups (bindMembers_pagesBy hbind ht)
  refine lowerPaging_pagesBy hpaged ?_
  split at hisolated
  · obtain ⟨st, hvisit, -⟩ := isolatesTo_of_run hisolated
    exact Tree.IsolatedAs.pagesBy ⟨_, _, hvisit⟩ hjoined
  · cases hisolated
    exact hjoined

/-! ## Compiled queries -/

/-- No select of a compiled query skips rows, wherever it stands. A query that is compiled for a dialect
without row numbers numbers rows only if it did before. -/
theorem compile_pages {q : CompiledQuery} (compiled : (compile dialect m c t).run.run next = (.ok q, next')) :
    (∀ s i, .select s i ∈ q.tree.subtrees → s.skip = none) ∧
      (dialect = .hive → ∀ order, .rowNumber order ∈ q.tree.subtrees →
        ∃ order', .rowNumber order' ∈ t.subtrees) := by
  obtain ⟨hlowered, -, -⟩ := compile_cases compiled
  refine ⟨fun s i hs => ?_, ?_⟩
  · have hall : t.PagesBy true true := fun _ _ => ⟨nofun, nofun⟩
    exact (lower_pagesBy hlowered hall _ hs).skip rfl s rfl
  · rintro rfl order horder
    by_contra hnone
    have hall : t.PagesBy true false := fun v hv =>
      ⟨nofun, fun _ => Bool.eq_false_of_not_eq_true fun hnumber => by
        obtain ⟨order', rfl⟩ := exists_rowNumber hnumber
        exact hnone ⟨order', hv⟩⟩
    cases (lower_pagesBy hlowered hall _ horder).number rfl

/-- All but the first of a page of notes. Rows are skipped in the query, in its source and in its filter, and
without a bound they are counted. -/
def laterNotes : Tree :=
  let page : Select Tree :=
    { label := 1, columns := [intColumn 0 "rank"], source := some (.table 0 "notes")
      order := [⟨.ascending, (intColumn 0 "rank").value⟩], skip := some (.int 2), take := some (.int 5) }
  let others : Select Tree :=
    { label := 3, columns := [intColumn 2 "customer"], source := some (.table 2 "notes")
      order := [⟨.descending, (intColumn 2 "customer").value⟩], skip := some (.int 2), take := some (.int 1) }
  .select
    { label := 4, columns := [intColumn 1 "rank"], source := some (.select page none)
      filter := some (.existsSubquery (.select others none)), skip := some (.int 1) }
    none

theorem compile_pages_laterNotes :
    ∃ q next', (compile .hive [] {} laterNotes).run.run 5 = (.ok q, next') ∧
      (∀ s i, .select s i ∈ q.tree.subtrees → s.skip = none) ∧
      ∀ order, .rowNumber order ∉ q.tree.subtrees := by
  have hok : ((compile .hive [] {} laterNotes).run.run 5).1.isOk = true := by decide +kernel
  obtain ⟨q, next', compiled⟩ := exists_result hok
  obtain ⟨hskips, hnumbers⟩ := compile_pages compiled
  have hnone : ∀ v ∈ laterNotes.subtrees, v.isRowNumber = false := by decide
  refine ⟨q, next', compiled, hskips, fun order horder => ?_⟩
  obtain ⟨order', horder'⟩ := hnumbers rfl order horder
  cases hnone _ horder'

end HiveQuery
