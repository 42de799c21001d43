import HiveQuery.Proofs.CompiledQueries
import HiveQuery.Proofs.Spelling

/-!
# The text of compiled queries

The lowerings keep every part of a tree in a place where it can be spelled, and the last one leaves no rows to be
skipped. Hence a query without members has a statement once it compiles, if its bounds are constants.
-/

namespace HiveQuery
open HiveQuery.Tree

variable {t u : Tree} {w : Bool} {B : Option Int64 → Option Int64 → Prop} {next next' : Alias}

/-! ## Trees in the place of others -/

/-- A tree can stand where another one stands. -/
structure Tree.KeepsForm (t u : Tree) : Prop where
  scalar : ∀ windows, t.isScalarForm windows = true → u.isScalarForm windows = true
  source : t.isSource = true → u.isSource = true
  select : t.isSelect = true → u.isSelect = true
  count : ∀ i, t.count? = some i → u.count? = some i

theorem Tree.KeepsForm.refl (t : Tree) : t.KeepsForm t := ⟨fun _ h => h, fun h => h, fun h => h, fun _ h => h⟩

theorem Tree.KeepsForm.trans {v : Tree} (h : t.KeepsForm u) (h' : u.KeepsForm v) : t.KeepsForm v where
  scalar windows ht := h'.scalar windows (h.scalar windows ht)
  source ht := h'.source (h.source ht)
  select ht := h'.select (h.select ht)
  count i ht := h'.count i (h.count i ht)

namespace Tree.SameNode

variable {R : Tree → Tree → Prop}

theorem keepsForm (h : t.SameNode R u) : t.KeepsForm u := by
  cases h <;> exact ⟨fun _ h => h, fun h => h, fun h => h, fun _ h => h⟩

theorem exists_side (h : t.SameNode R u) {b : Tree} (hb : b ∈ u.sides) : ∃ a ∈ t.sides, R a b := by
  cases h with
  | select i j _ same => exact forall₂_mem_right (optionRel_iff.1 same.source) hb
  | join kind i j hl hr _ => exact forall₂_mem_right (.cons hl (.cons hr .nil)) hb
  | _ => cases hb

end Tree.SameNode

theorem option_count_eq {o o' : Option Tree} (h : Option.Rel KeepsForm o o')
    (counted : ∀ a ∈ o, a.count?.isSome = true) :
    (∀ b ∈ o', b.count?.isSome = true) ∧ o'.bind count? = o.bind count? := by
  cases h with
  | none => exact ⟨nofun, rfl⟩
  | some hab =>
    obtain ⟨i, hi⟩ := Option.isSome_iff_exists.1 (counted _ rfl)
    have hb := hab.count i hi
    refine ⟨?_, by rw [Option.bind_some, Option.bind_some, hi, hb]⟩
    rintro _ ⟨rfl⟩
    rw [hb]
    rfl

theorem Tree.SameNode.nodeFormed (h : t.SameNode KeepsForm u) (ht : t.NodeFormed w B) :
    u.NodeFormed w B where
  operands b hb := by
    obtain ⟨a, ha, hab⟩ := h.exists_operand hb
    exact hab.scalar w (ht.operands a ha)
  sides b hb := by
    obtain ⟨a, ha, hab⟩ := h.exists_side hb
    exact hab.source (ht.sides a ha)
  join j hj := by
    cases h with
    | join kind i i' =>
      cases hj
      have hwords := ht.join _ rfl
      exact hwords
    | _ => cases hj
  select s hs := by
    cases h with
    | select i i' label same =>
      cases hs
      obtain ⟨hreverse, hbounded⟩ := ht.select _ rfl
      obtain ⟨hskip, hskips⟩ := option_count_eq same.skip hbounded.skip
      obtain ⟨htake, htakes⟩ := option_count_eq same.take hbounded.take
      refine ⟨same.reverse.trans hreverse, hskip, htake, ?_⟩
      rw [hskips, htakes]
      exact hbounded.bounds
    | _ => cases hs

theorem Tree.nodeFormed_column (c : ColumnRef) : (column c).NodeFormed w B :=
  ⟨nofun, nofun, nofun, nofun⟩

theorem Tree.formed_column (c : ColumnRef) : (column c).Formed w B :=
  every_iff.2 ⟨nodeFormed_column c, nofun⟩

theorem Tree.formed_int (i : Int64) : (int i).Formed w B :=
  every_iff.2 ⟨⟨nofun, nofun, nofun, nofun⟩, nofun⟩

theorem Tree.Formed.of_plain (h : t.Formed false B) : t.Formed w B := by
  intro u hu
  have hu := h u hu
  refine ⟨fun a ha => ?_, hu.sides, hu.join, hu.select⟩
  have ha := hu.operands a ha
  cases a with
  | rowNumber => cases ha
  | _ => exact ha

/-! ## Joins -/

theorem Tree.Rerouted.keepsForm {Q : ColumnRef → ColumnRef → Prop} (h : t.Rerouted Q u) : t.KeepsForm u := by
  cases h with
  | column => exact ⟨fun _ h => h, fun h => h, fun h => h, fun _ h => h⟩
  | node _ same => exact same.keepsForm

theorem Tree.Rerouted.formed {Q : ColumnRef → ColumnRef → Prop} (h : t.Rerouted Q u) (ht : t.Formed w B) :
    u.Formed w B :=
  h.every nodeFormed_column (fun _ _ same ha => (same.imp fun _ _ _ h => h.keepsForm).nodeFormed ha) ht

theorem LowersApply.eq_of_formed (h : LowersApply t u) (ht : t.NodeFormed w B) : u = t := by
  have hkind : ∀ {kind : JoinKind}, kind.isApply = true → (Sql.joinWords? kind).isSome = true → False := by
    intro kind happly hwords
    cases kind <;> simp [JoinKind.isApply, Sql.joinWords?] at happly hwords
  cases h with
  | kept => rfl
  | table l a name i apply => exact (hkind apply (ht.join _ rfl)).elim
  | select i j apply => exact (hkind apply (ht.join _ rfl)).elim

theorem Tree.lowerApplies_formed (ht : t.Formed w B) :
    t.lowerApplies.Formed w B ∧ t.KeepsForm t.lowerApplies := by
  refine lowerApplies_rel (R := fun a b => a.Formed w B → b.Formed w B ∧ a.KeepsForm b)
    (fun same hv ha => ?_) t ht
  obtain ⟨hnode, hchildren⟩ := every_iff.1 ha
  have hsame := same.imp fun a b ha hab => hab (hchildren a ha)
  have hv' : NodeFormed w B _ := (hsame.imp fun _ _ _ h => h.2).nodeFormed hnode
  rw [hv.eq_of_formed hv']
  refine ⟨every_iff.2 ⟨hv', fun b hb => ?_⟩, same.keepsForm⟩
  obtain ⟨a, -, hab⟩ := forall₂_mem_right hsame.children hb
  exact hab.1

theorem Select.formed_iff {s : Select Tree} {i : Option Identity} :
    (select s i).Formed w B ↔ (∀ a ∈ s.source, a.isSource = true ∧ a.Formed w B) ∧
      (∀ a ∈ s.others, a.isScalarForm w = true ∧ a.Formed w B) ∧ s.reverse = false ∧ s.Bounded B := by
  constructor
  · intro h
    obtain ⟨hnode, hchildren⟩ := every_iff.1 h
    refine ⟨fun a ha => ?_, fun a ha => ?_, hnode.select s rfl⟩
    · have ha : a ∈ (select s i).sides := Option.mem_toList.2 ha
      exact ⟨hnode.sides a ha, hchildren a (mem_children_of_sides ha)⟩
    · have ha : a ∈ (select s i).operands := mem_others.1 ha
      exact ⟨hnode.operands a ha, hchildren a (mem_children_of_operands ha)⟩
  · rintro ⟨hsource, hothers, hselect⟩
    refine every_iff.2 ⟨⟨fun a ha => (hothers a (mem_others.2 ha)).1,
      fun a ha => (hsource a (Option.mem_toList.1 ha)).1, nofun, ?_⟩, fun a ha => ?_⟩
    · rintro _ ⟨rfl⟩
      exact hselect
    · rcases mem_operands_or_sides ha with ha | ha
      · exact (hothers a (mem_others.2 ha)).2
      · exact (hsource a (Option.mem_toList.1 ha)).2

theorem Select.formed_layer {s : Select Tree} {i : Option Identity}
    (h : s = { label := s.label, columns := s.columns, source := some u })
    (columns : ∀ a ∈ s.columns.map Column.value, ∃ c, a = .column c) (hu : u.Formed w B)
    (source : u.isSource = true) (bounds : B none none) : (select s i).Formed w B := by
  rw [h, formed_iff]
  refine ⟨?_, forall_others.2 ⟨nofun, nofun, nofun, nofun, nofun, nofun, fun c hc => ?_⟩, rfl,
    nofun, nofun, bounds⟩
  · rintro _ ⟨rfl⟩
    exact ⟨source, hu⟩
  · obtain ⟨d, hd⟩ := columns c.value (List.mem_map_of_mem hc)
    rw [hd]
    exact ⟨rfl, formed_column d⟩

theorem Tree.IsolatedAs.formed (bounds : B none none) (h : t.IsolatedAs u) (ht : t.Formed w B) :
    u.Formed w B ∧ t.KeepsForm u := by
  induction t generalizing u with
  | step t ih =>
    obtain ⟨hnode, hchildren⟩ := every_iff.1 ht
    have hsame {v : Tree} {parent : Option JoinKind} (same : t.SameNode (IsolatesUnder parent) v) :
        v.Formed w B ∧ t.KeepsForm v := by
      have hformed := (same.imp fun a b ha hab => (ih a ha hab.isolated (hchildren a ha)).2).nodeFormed hnode
      refine ⟨every_iff.2 ⟨hformed, fun b hb => ?_⟩, same.keepsForm⟩
      obtain ⟨a, ha, hab⟩ := forall₂_mem_right same.children hb
      exact (ih a ha hab.isolated (hchildren a ha)).1
    obtain ⟨parent, h⟩ := h.node
    cases h with
    | column d eq => exact eq ▸ ⟨formed_column _, ⟨fun _ h => h, fun h => h, fun h => h, nofun⟩⟩
    | node _ same => exact hsame same
    | wrap m hj _ same =>
      cases same with
      | join kind i j hl hr hc =>
        have hv := (hsame (.join kind i j hl hr hc)).1
        exact ⟨Select.formed_layer (s := m.wrapper _) rfl m.wrapper_columns hv rfl bounds,
          ⟨nofun, fun _ => rfl, nofun, nofun⟩⟩
      | _ => cases hj

/-! ## Skipped rows -/

/-- Where there are no windows, rows are only skipped if a number of them is taken. -/
def pageableBounds (windows : Bool) (skip take : Option Int64) : Prop :=
  windows = false → skip = none ∨ skip = some 0 ∨ take.isSome = true

instance (windows : Bool) (skip take : Option Int64) : Decidable (pageableBounds windows skip take) :=
  inferInstanceAs (Decidable (_ → _ ∨ _ ∨ _))

def Tree.Spelt (w : Bool) (t : Tree) : Prop :=
  t.isScalarForm w = true ∧ t.Formed w unskippedBounds

theorem Tree.spelt_column (c : ColumnRef) : (column c).Spelt w := ⟨rfl, formed_column c⟩

theorem Tree.spelt_int (i : Int64) : (int i).Spelt w := ⟨rfl, formed_int i⟩

theorem Tree.spelt_of_children (select : t.isSelect = false) (source : t.isSource = false)
    (form : t.isScalarForm w = true) (children : ∀ a ∈ t.children, a.Spelt w) : t.Spelt w := by
  refine ⟨form, every_iff.2 ⟨⟨fun a ha => (children a (mem_children_of_operands ha)).1, ?_, ?_, ?_⟩,
    fun a ha => (children a ha).2⟩⟩
  all_goals
    cases t with
    | select => cases select
    | join => cases source
    | _ => exact nofun

theorem Tree.bottomUp_formed {m : Type → Type} [Monad m] {σ : Type} (O : Outcome m σ)
    {replace : Tree → m Tree} {B' : Option Int64 → Option Int64 → Prop}
    (node : ∀ {v b : Tree} {st st'}, O.gives (replace v) st b st' → v.NodeFormed w B →
      (∀ a ∈ v.children, a.Formed w B') → b.Formed w B' ∧ v.KeepsForm b)
    {st st' : σ} (h : O.gives (t.bottomUp replace) st u st') (ht : t.Formed w B) :
    u.Formed w B' ∧ t.KeepsForm u := by
  have hrel := bottomUp_rel O (R := fun t u => t.Formed w B → u.Formed w B' ∧ t.KeepsForm u)
    (fun {a v b _ _} same hreplace ha => ?_) h
  · exact hrel ht
  · obtain ⟨hnode, hchildren⟩ := every_iff.1 ha
    have hsame := same.imp fun c d hc hcd => hcd (hchildren c hc)
    obtain ⟨hb, hkeeps⟩ := node hreplace ((hsame.imp fun _ _ _ h => h.2).nodeFormed hnode) fun d hd => by
      obtain ⟨c, -, hcd⟩ := forall₂_mem_right hsame.children hd
      exact hcd.1
    exact ⟨hb, hsame.keepsForm.trans hkeeps⟩

theorem Tree.identify_formed (id : Identity) (ht : t.Formed w B) :
    (t.identify id).Formed w B ∧ t.KeepsForm (t.identify id) := by
  refine bottomUp_formed _ (fun {v b st st'} hnode hv hchildren => ?_) (t.identify_gives id) ht
  rcases identifyNode_keeps hnode with same | ⟨x, rfl, -, rfl⟩
  · have hequal := List.forall₂_eq_eq_eq ▸ same.children
    have hnode := (same.imp fun a b _ hab => hab ▸ .refl a).nodeFormed hv
    exact ⟨every_iff.2 ⟨hnode, hequal ▸ hchildren⟩, same.keepsForm⟩
  · exact ⟨every_iff.2 ⟨⟨nofun, nofun, nofun, nofun⟩, nofun⟩, ⟨fun _ _ => rfl, nofun, nofun, nofun⟩⟩

theorem Tree.KeptKey.spelt (h : t.KeptKey u) (ht : t.Spelt w) : u.Spelt w := by
  cases h with
  | same => exact ht
  | identified _ id =>
    obtain ⟨hformed, hkeeps⟩ := identify_formed id ht.2
    exact ⟨hkeeps.scalar w ht.1, hformed⟩

def spellingLaw (w : Bool) : ClauseLaw where
  source a := a.isSource = true ∧ a.Formed w unskippedBounds
  scalar := Tree.Spelt w
  bound a := ∃ n, a = .int n
  reverses := False

namespace Select

variable {s f : Select Tree} {i : Option Identity} {skip : Tree} {take : Option Tree}

theorem spelt_iff : (select s i).Formed w unskippedBounds ↔ s.Obeys (spellingLaw w) := by
  have hbounded : s.Bounded unskippedBounds ↔ s.skip = none ∧ ∀ a ∈ s.take, ∃ n, a = .int n := by
    constructor
    · intro h
      refine ⟨skip_eq_none h, fun a ha => ?_⟩
      obtain ⟨n, hn⟩ := Option.isSome_iff_exists.1 (h.take a ha)
      exact ⟨n, count?_eq_some.1 hn⟩
    · rintro ⟨hskip, htake⟩
      refine ⟨hskip ▸ nofun, fun a ha => ?_, by rw [hskip]; rfl⟩
      obtain ⟨n, rfl⟩ := htake a ha
      rfl
  have hint : ∀ {o : Option Tree}, (∀ a ∈ o, ∃ n, a = int n) → ∀ a ∈ o, a.Spelt w := by
    intro o ho a ha
    obtain ⟨n, rfl⟩ := ho a ha
    exact spelt_int n
  rw [formed_iff, forall_others, hbounded]
  constructor
  · rintro ⟨hsource, ⟨hfilter, horder, hgroup, hcluster, -, -, hcolumns⟩, hreverse, hskip, htake⟩
    exact ⟨hsource, hfilter, horder, hgroup, hcluster, hcolumns, htake, hskip, fun h =>
      Bool.false_ne_true (hreverse.symm.trans h)⟩
  · intro h
    exact ⟨h.source, ⟨h.filter, h.order, h.group, h.cluster, h.skip ▸ nofun, hint h.take, h.columns⟩,
      Bool.eq_false_of_not_eq_true h.reverse, h.skip, h.take⟩

theorem spellingLaw_layered : (spellingLaw w).Layered :=
  ⟨(and_iff_right rfl).trans spelt_iff, spelt_column, Tree.KeptKey.spelt⟩

theorem nestOrders_spelt {m n : Int64} (h : (s.nestOrders (.int m) (some (.int n))).Gives next f next')
    (hs : s.unbounded.Obeys (spellingLaw w)) : f.Obeys (spellingLaw w) := by
  refine hs.nestOrders spellingLaw_layered (fun ho hfirst => ?_) h
  cases hfirst with
  | taken sum =>
    obtain ⟨limit, rfl, -⟩ := fold_add (Lowering.gives_evaluating.1 sum).1
    refine ⟨{ ho with take := ?_ }, n, rfl⟩
    rintro _ ⟨rfl⟩
    exact ⟨limit, rfl⟩

theorem windowFilter_spelt {c : ColumnRef} {m : Int64} {window : Tree}
    (htake : ∀ a ∈ take, ∃ n, a = int n)
    (h : (windowFilter (.column c) (.int m) take).Gives next window next') : window.Spelt w := by
  have hsum : ∀ {a b : Int64} {t : Tree}, (binary .add (.int a) (.int b)).fold = .ok t → t.Spelt w := by
    intro a b t ht
    obtain ⟨n, rfl, -⟩ := fold_add ht
    exact spelt_int n
  obtain ⟨-, ⟨rfl, rfl⟩ | ⟨a, first, last, rfl, hfirst, hlast, rfl⟩⟩ := windowFilter_cases h
  · refine spelt_of_children rfl rfl rfl ?_
    simp only [children, List.forall_mem_cons]
    exact ⟨spelt_column c, spelt_int m, nofun⟩
  · obtain ⟨n, rfl⟩ := htake a rfl
    refine spelt_of_children rfl rfl rfl ?_
    simp only [children, List.forall_mem_cons]
    exact ⟨spelt_column c, hsum hfirst, hsum hlast, nofun⟩

def LowersSpelt (w : Bool) (lower : SkipLowering) : Prop :=
  ∀ {s f : Select Tree} {m : Int64} {take : Option Tree} {next next' : Alias},
    m ≠ 0 → (∀ a ∈ take, ∃ n, a = int n) → pageableBounds w (some m) (take.bind count?) →
    s.unbounded.Obeys (spellingLaw w) → (lower s (.int m) take).Gives next f next' → f.Obeys (spellingLaw w)

theorem numberRows_lowersSpelt : LowersSpelt true numberRows := by
  intro s f m take next next' _ htake _ hs h
  exact hs.numberRows spellingLaw_layered
    (fun _ hkeys => spelt_of_children rfl rfl rfl (List.forall_mem_map.2 hkeys)) (windowFilter_spelt htake) h

theorem nestOrders_lowersSpelt : LowersSpelt false nestOrders := by
  intro s f m take next next' hm htake hbounds hs h
  cases take with
  | none => simp [pageableBounds, hm] at hbounds
  | some a =>
    obtain ⟨n, rfl⟩ := htake a rfl
    exact nestOrders_spelt h hs

theorem fold_int {n : Int64} (h : (int n).fold = .ok t) : t = .int n := (Except.ok.inj h).symm

theorem lowerSkip_spelt {lower : SkipLowering} (hlower : LowersSpelt w lower) (hskip : s.skip = some skip)
    (hs : (select s i).NodeFormed w (pageableBounds w))
    (children : ∀ a ∈ s.clauses, a.Formed w unskippedBounds)
    (h : (s.lowerSkip lower skip).Gives next f next') : (select f none).Formed w unskippedBounds := by
  obtain ⟨hreverse, hbounded⟩ := hs.select s rfl
  have hint : ∀ {o : Option Tree}, (∀ a ∈ o, a.count?.isSome = true) → ∀ a ∈ o, ∃ n, a = int n := by
    intro o ho a ha
    obtain ⟨n, hn⟩ := Option.isSome_iff_exists.1 (ho a ha)
    exact ⟨n, count?_eq_some.1 hn⟩
  obtain ⟨m, rfl⟩ := hint hbounded.skip skip hskip
  have htake := hint hbounded.take
  have hothers : ∀ a ∈ s.others, a.Spelt w := fun a ha =>
    have ha : a ∈ (select s i).operands := mem_others.1 ha
    ⟨hs.operands a ha, children a (mem_children_of_operands ha)⟩
  have hsource : ∀ a ∈ s.source, a.isSource = true ∧ a.Formed w unskippedBounds := fun a ha =>
    have ha : a ∈ (select s i).sides := Option.mem_toList.2 ha
    ⟨hs.sides a ha, children a (mem_children_of_sides ha)⟩
  obtain ⟨hfilter, horder, hgroup, hcluster, -, -, hcolumns⟩ := forall_others.1 hothers
  have hspelt : ∀ {o : Option Tree}, (∀ a ∈ o, ∃ n, a = int n) →
      ({ s with skip := none, take := o } : Select Tree).Obeys (spellingLaw w) := fun ho =>
    ⟨hsource, hfilter, horder, hgroup, hcluster, hcolumns, ho, rfl, fun h =>
      Bool.false_ne_true (hreverse.symm.trans h)⟩
  obtain ⟨folded, hfolded, ⟨-, rfl, -⟩ | ⟨hzero, taken, htaken, hgives⟩⟩ := lowerSkip_cases h
  · exact spelt_iff.2 (hspelt htake)
  · obtain rfl := fold_int hfolded
    obtain rfl : taken = s.take := by
      cases htaken' : s.take with
      | none =>
        rw [htaken'] at htaken
        cases htaken
        rfl
      | some a =>
        obtain ⟨n, rfl⟩ := htake a htaken'
        rw [htaken'] at htaken
        cases htaken with
        | some hfold => rw [fold_int hfold]
    have hm : m ≠ 0 := by
      rintro rfl
      cases hzero
    have hbounds := hbounded.bounds
    rw [hskip] at hbounds
    exact spelt_iff.2 (hlower hm htake hbounds (hspelt nofun) hgives)

end Select

theorem Tree.lowerSkips_formed {lower : SkipLowering}
    (hlower : Select.LowersSpelt w lower) (h : (t.lowerSkips lower).Gives next u next')
    (ht : t.Formed w (pageableBounds w)) : u.Formed w unskippedBounds ∧ t.KeepsForm u := by
  refine bottomUp_formed lowering (fun {a b k k'} hnode ha children => ?_) h ht
  rcases lowerSkipAt_cases hnode with ⟨rfl, -, hskip⟩ | ⟨s, i, skip, f, rfl, hskip, rfl, hf⟩
  · refine ⟨every_iff.2 ⟨⟨ha.operands, ha.sides, ha.join, fun s hs => ?_⟩, children⟩, .refl _⟩
    obtain ⟨hreverse, hbounded⟩ := ha.select s hs
    refine ⟨hreverse, hbounded.skip, hbounded.take, ?_⟩
    rw [hskip s hs]
    rfl
  · exact ⟨Select.lowerSkip_spelt hlower hskip ha children hf,
      ⟨fun _ _ => rfl, fun _ => rfl, fun _ => rfl, nofun⟩⟩

/-- Lowering skipped rows leaves every part of a tree where it can be spelled. -/
theorem Tree.lowerPaging_formed {dialect : Dialect} (h : (t.lowerPaging dialect).Gives next u next')
    (ht : t.Formed dialect.allowsRowNumber (pageableBounds dialect.allowsRowNumber)) :
    u.Formed dialect.allowsRowNumber unskippedBounds ∧ t.KeepsForm u := by
  unfold lowerPaging at h
  split at h
  · next hwindows =>
    rw [hwindows] at ht ⊢
    exact lowerSkips_formed Select.numberRows_lowersSpelt h ht
  · next hwindows =>
    rw [Bool.not_eq_true] at hwindows
    rw [hwindows] at ht ⊢
    exact lowerSkips_formed Select.nestOrders_lowersSpelt h ht

/-! ## The lowerings together -/

variable {dialect : Dialect} {m : EntityMap} {c : Config}

theorem Tree.Formed.memberFree (h : t.Formed w B) (select : t.isSelect = true) : t.MemberFree := by
  refine every h ?_ (fun a ha => ?_) fun a ha => ?_
  · cases t with
    | select => rfl
    | _ => cases select
  all_goals
    cases a with
    | member => cases ha
    | _ => rfl

theorem lower_formed (select : t.isSelect = true)
    (formed : t.Formed false (pageableBounds dialect.allowsRowNumber))
    (h : (lower dialect m c t).Gives next u next') :
    u.isSelect = true ∧ u.Formed dialect.allowsRowNumber unskippedBounds := by
  obtain ⟨bound, lookups, _, isolated, next₂, hbind, hisolated, hpaged⟩ := lower_gives h
  obtain ⟨rfl, rfl, hbound⟩ := bindMembers_memberFree (formed.memberFree select) hbind
  have hformed : bound.Formed dialect.allowsRowNumber (pageableBounds dialect.allowsRowNumber) :=
    hbound.formed formed.of_plain
  have hjoined : (lowerJoins c [] bound).Formed dialect.allowsRowNumber
      (pageableBounds dialect.allowsRowNumber) ∧ bound.KeepsForm (lowerJoins c [] bound) := by
    have happlied : (if c.lowerApplyJoins then bound.lowerApplies else bound).Formed dialect.allowsRowNumber
        (pageableBounds dialect.allowsRowNumber) ∧
        bound.KeepsForm (if c.lowerApplyJoins then bound.lowerApplies else bound) := by
      split
      · exact lowerApplies_formed hformed
      · exact ⟨hformed, .refl _⟩
    rw [lowerJoins]
    split
    · have hdropped := dropRepeatedLookups_nil (if c.lowerApplyJoins then bound.lowerApplies else bound)
      exact ⟨hdropped.formed happlied.1, happlied.2.trans hdropped.keepsForm⟩
    · exact happlied
  have hwrapped : isolated.Formed dialect.allowsRowNumber (pageableBounds dialect.allowsRowNumber) ∧
      (lowerJoins c [] bound).KeepsForm isolated := by
    split at hisolated
    · obtain ⟨st, hvisit, -⟩ := isolatesTo_of_run hisolated
      exact Tree.IsolatedAs.formed (fun _ => .inl rfl) ⟨_, _, hvisit⟩ hjoined.1
    · cases hisolated
      exact ⟨hjoined.1, .refl _⟩
  obtain ⟨hu, hkeeps⟩ := lowerPaging_formed hpaged hwrapped.1
  have hselect := (hbound.keepsForm.trans (hjoined.2.trans (hwrapped.2.trans hkeeps))).select select
  exact ⟨hselect, hu⟩

/-- A query of operators, subqueries and joins whose rows are skipped and taken by constant numbers has a
text once it compiles, if the rows that are skipped can be expressed in the dialect. -/
theorem compile_spells {q : CompiledQuery} (select : t.isSelect = true)
    (formed : t.Formed false (pageableBounds dialect.allowsRowNumber))
    (verified : c.verifyAliasScopes = true)
    (compiled : (compile dialect m c t).run.run next = (.ok q, next')) :
    ∃ text, q.sql dialect = .ok text := by
  obtain ⟨hlower, -, hscopes⟩ := compile_cases compiled
  obtain ⟨hselect, hformed⟩ := lower_formed select formed hlower
  exact exists_toSql hselect hformed (hscopes verified)

/-- A page of the customers who have notes, crossed with all of them and joined to their notes. -/
def notedPairs : Tree :=
  .select
    { label := 6
      columns := [intColumn 0 "id", { intColumn 1 "id" with name := "other" }, intColumn 2 "rank"]
      source := some (.join
        { kind := .leftOuter
          left := .join ⟨.cross, .table 0 "customers", .table 1 "customers", none⟩ none
          right := .table 2 "notes"
          condition := some (.binary .equal (intColumn 2 "customer").value (intColumn 0 "id").value) } none)
      filter := some (.existsSubquery (.select
        { label := 4
          columns := [intColumn 3 "rank"]
          source := some (.table 3 "notes")
          filter := some (.binary .equal (intColumn 3 "customer").value (intColumn 1 "id").value)
          take := some (.int 1) } none))
      order := [⟨.descending, .binary .add (intColumn 2 "rank").value (.parameter ⟨"shift", .int64⟩)⟩]
      skip := some (.int 1)
      take := some (.int 3) }
    none

theorem compile_spells_notedPairs :
    notedPairs.isSelect = true ∧ notedPairs.Formed false (pageableBounds Dialect.hive.allowsRowNumber) ∧
      ∃ q next', (compile .hive [] {} notedPairs).run.run 7 = (.ok q, next') ∧
        ∃ text, q.sql .hive = .ok text := by
  have hformed : notedPairs.Formed false (pageableBounds Dialect.hive.allowsRowNumber) := by decide
  have hok : ((compile .hive [] {} notedPairs).run.run 7).1.isOk = true := by decide +kernel
  obtain ⟨q, next', hcompiled⟩ := exists_result hok
  exact ⟨rfl, hformed, q, next', hcompiled, compile_spells rfl hformed rfl hcompiled⟩

end HiveQuery
