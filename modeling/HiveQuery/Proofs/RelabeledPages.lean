import HiveQuery.Proofs.Coupling
import HiveQuery.Proofs.PagingSteps

/-!
# Skipped rows under other aliases

Lowering skipped rows draws aliases for layers and copies. On a relabeled tree it draws the relabeled ones,
as long as the supply gives them in the same order.
-/

namespace HiveQuery
open List HiveQuery.Tree Select

/-! ## Supplies -/

/-- Different aliases stay different, and those from `first` on stay one behind the other. -/
structure Renumbers (f : Alias → Alias) (first : Alias) : Prop where
  injective : Function.Injective f
  succ : ∀ n, first ≤ n → f (n + 1) = f n + 1

/-- Two supplies give the same aliases from now on, one of them under other numbers. -/
def InStep (f : Alias → Alias) (first : Alias) (n n' : Alias) : Prop :=
  first ≤ n ∧ f n = n'

def LoweringError.relabel (f : Alias → Alias) : LoweringError → LoweringError
  | .distinctOrdering label => .distinctOrdering (f label)
  | e => e

def LoweringError.Relabels (f : Alias → Alias) (e e' : LoweringError) : Prop :=
  e.relabel f = e'

def supplying (f : Alias → Alias) (first : Alias) : Coupling (StateM Alias) :=
  .state (InStep f first)

def renumbered (f : Alias → Alias) (first : Alias) : Coupling Lowering :=
  .failing (LoweringError.Relabels f) (InStep f first)

section Steps

variable {f : Alias → Alias} {first : Alias} {α β : Type} {R : α → β → Prop}

theorem Renumbers.fresh (hf : Renumbers f first) :
    (supplying f first).rel (fun a b => f a = b) fresh fresh := by
  rintro n _ ⟨hn, rfl⟩
  exact ⟨rfl, Nat.le_succ_of_le hn, hf.succ n hn⟩

theorem renumbered_state {x : StateM Alias α} {y : StateM Alias β} (h : (supplying f first).rel R x y) :
    (renumbered f first).rel R (liftM x) (liftM y) := fun n n' hn =>
  ⟨.ok (h n n' hn).1, (h n n' hn).2⟩

theorem renumbered_except {x : Except LoweringError α} {y : Except LoweringError β}
    (h : EndAlike (LoweringError.Relabels f) R x y) : (renumbered f first).rel R (liftM x) (liftM y) :=
  fun _ _ hn => ⟨h, hn⟩

theorem renumbered_evaluating {x : Except ValueError α} {y : Except ValueError β} (h : EndAlike Eq R x y) :
    (renumbered f first).rel R (evaluating x) (evaluating y) := by
  intro n n' hn
  cases h with
  | ok h => exact ⟨.ok h, hn⟩
  | error h => exact ⟨.error (congrArg LoweringError.evaluation h), hn⟩

end Steps

def KeyedRelabels {α : Type} (f : Alias → Alias) (r : α → α) (p q : α × List (SortKey Tree)) : Prop :=
  (r p.1, p.2.map (SortKey.relabel f)) = q

/-! ## Layers -/

namespace Select

variable {f : Alias → Alias}

@[simp] theorem headers_relabel (s : Select Tree) : (s.relabel f).headers = s.headers := by
  simp only [headers, relabel_eq, map_map]
  rfl

theorem addColumn_relabel (s : Select Tree) (c : Column Tree) :
    (s.relabel f).addColumn (c.relabel f) = (s.addColumn c).relabel f := by
  simp only [addColumn, relabel_eq, map_append, map_singleton]

theorem refTo_relabel (s : Select Tree) (c : Column Tree) :
    (s.relabel f).refTo (c.relabel f) = (s.refTo c).rename f := by
  simp only [refTo, relabel_eq, Column.relabel, scalarType?_relabel, ColumnRef.rename]

theorem passOn_eq (label : Alias) (c : Column Tree) : passOn label c =
    let type := c.value.scalarType?.getD c.type.scalar
    let columnType := (c.value.column?.map ColumnRef.columnType).getD type.columnType
    ⟨c.name, .column ⟨type, columnType, label, c.name⟩, columnType⟩ := by
  obtain ⟨name, t, type⟩ := c
  cases t <;> rfl

theorem passOn_relabel (label : Alias) (c : Column Tree) :
    passOn (f label) (c.relabel f) = (passOn label c).relabel f := by
  rw [passOn_eq, passOn_eq]
  simp only [Column.relabel, scalarType?_relabel, Tree.column?_relabel, Option.map_map]
  rfl

theorem above_relabel (s inner : Select Tree) :
    (s.relabel f).above (inner.relabel f) = (s.above inner).relabel f := by
  have hcolumns : (s.relabel f).columns.map (passOn (inner.relabel f).label) =
      (s.columns.map (passOn inner.label)).map (Column.relabel f) := by
    simp only [relabel_eq f s, relabel_eq f inner, map_map]
    exact map_congr_left fun c _ => passOn_relabel inner.label c
  rw [above, hcolumns, relabel_eq f s, relabel_eq f (s.above inner)]
  rfl

theorem wrap_relabel (s : Select Tree) (label : Alias) :
    (s.relabel f).wrap (f label) = (s.wrap label).relabel f := by
  rw [wrap, wrap, ← above_relabel]
  simp only [relabel_eq]

/-! ## Orders -/

theorem sortColumnBase_relabel (t : Tree) : sortColumnBase (t.relabel f) = sortColumnBase t := by
  cases t <;> rfl

section

variable (hf : Function.Injective f) (s : Select Tree)
include hf s

theorem sortColumn_relabel (key : Tree) :
    EndAlike (LoweringError.Relabels f) (fun p q => (p.1.relabel f, p.2.1.relabel f, p.2.2.relabel f) = q)
      (s.sortColumn key) ((s.relabel f).sortColumn (key.relabel f)) := by
  have hfind : (s.relabel f).columns.find? (fun c => c.value.equal (key.relabel f)) =
      (s.columns.find? fun c => c.value.equal key).map (Column.relabel f) := by
    rw [columns_relabel, find?_map]
    congr 2
    funext c
    exact equal_relabel hf c.value key
  have hidentity : (select (s.relabel f) none).freshIdentity = (select s none).freshIdentity :=
    (select s none).freshIdentity_relabel
  rw [sortColumn, sortColumn, hfind, hidentity, distinct_relabel, label_relabel]
  cases s.columns.find? fun c => c.value.equal key with
  | some c => exact .ok rfl
  | none =>
    dsimp only [Option.map_none]
    split
    · exact .error rfl
    · refine .ok ?_
      have hkey : (if (key.relabel f).holdsIdentified then
            (key.relabel f).identify (select s none).freshIdentity else key.relabel f) =
          (if key.holdsIdentified then key.identify (select s none).freshIdentity else key).relabel f := by
        have hidentify (next : Identity) : (key.relabel f).identify next = (key.identify next).relabel f :=
          (bottomUp_relabel (C := .state Eq) hf identifyNode_relabel key next next rfl).1.symm
        rw [holdsIdentified_relabel, hidentify]
        split <;> rfl
      rw [hkey, headers_relabel, sortColumnBase_relabel, scalarType?_relabel, ← addColumn_relabel]
      rfl

theorem liftKey_relabel (k : SortKey Tree) :
    EndAlike (LoweringError.Relabels f) (fun p q => (p.1.relabel f, p.2.1.relabel f, p.2.2.relabel f) = q)
      (s.liftKey k) ((s.relabel f).liftKey (k.relabel f)) := by
  refine (Coupling.fallible _).bind (sortColumn_relabel hf s k.value) ?_
  rintro ⟨s', key, c⟩ _ rfl
  refine .ok ?_
  have href : (s'.relabel f).refTo (((s'.relabel f).column? c.name).getD (c.relabel f)) =
      (s'.refTo ((s'.column? c.name).getD c)).rename f := by
    have hcolumn : (s'.relabel f).column? c.name = (s'.column? c.name).map (Column.relabel f) := by
      simp only [column?, relabel_eq, find?_map]
      rfl
    rw [hcolumn, Option.getD_map, refTo_relabel]
  exact congrArg (fun r => (s'.relabel f, SortKey.mk k.direction (key.relabel f),
    SortKey.mk k.direction (column r))) href.symm

theorem liftKeys_relabel (ks : List (SortKey Tree)) :
    EndAlike (LoweringError.Relabels f)
      (fun p q => (p.1.relabel f, p.2.1.map (SortKey.relabel f), p.2.2.map (SortKey.relabel f)) = q)
      (s.liftKeys ks) ((s.relabel f).liftKeys (ks.map (SortKey.relabel f))) := by
  induction ks generalizing s with
  | nil => exact .ok rfl
  | cons k ks ih =>
    refine (Coupling.fallible _).bind (liftKey_relabel hf s k) ?_
    rintro ⟨s₁, k₁, l₁⟩ _ rfl
    refine (Coupling.fallible _).bind (ih s₁) ?_
    rintro ⟨s₂, ks₂, ls₂⟩ _ rfl
    exact .ok rfl

theorem liftOrder_relabel :
    EndAlike (LoweringError.Relabels f) (KeyedRelabels f (relabel f))
      s.liftOrder (s.relabel f).liftOrder := by
  rw [liftOrder, liftOrder, order_relabel]
  refine (Coupling.fallible _).bind (liftKeys_relabel hf s s.order) ?_
  rintro ⟨s', order, lifted⟩ _ rfl
  exact .ok (by simp only [KeyedRelabels, relabel_eq])

end

end Select

section Orders

variable {f : Alias → Alias} (hf : Function.Injective f)

theorem Select.requireOrder_relabel_of {s : Select Tree} (ih : ∀ t ∈ s.source.toList,
      EndAlike (LoweringError.Relabels f) (KeyedRelabels f (Tree.relabel f))
        t.liftedOrder (t.relabel f).liftedOrder) :
    EndAlike (LoweringError.Relabels f) (KeyedRelabels f (Select.relabel f))
      s.requireOrder (s.relabel f).requireOrder := by
  obtain ⟨label, columns, source, filter, order, group, distinct, skip, take, reverse, cluster⟩ := s
  have hsource : EndAlike (LoweringError.Relabels f) (KeyedRelabels f (Option.map (Tree.relabel f)))
      (optionOrder source) (optionOrder (source.map (Tree.relabel f))) := by
    cases source with
    | none => exact .error rfl
    | some t =>
      refine (Coupling.fallible _).bind (ih t (mem_singleton_self t)) ?_
      rintro ⟨t', lifted⟩ _ rfl
      exact .ok rfl
  simp only [Select.relabel_eq, Select.requireOrder, isEmpty_map]
  split
  · exact .ok (congrArg (·, _) (Select.relabel_eq f _))
  · split
    · exact .error rfl
    · refine (Coupling.fallible _).bind hsource ?_
      rintro ⟨source', lifted⟩ _ rfl
      exact .ok (congrArg (·, _) (Select.relabel_eq f _))

include hf

theorem Tree.liftedOrder_relabel (t : Tree) :
    EndAlike (LoweringError.Relabels f) (KeyedRelabels f (relabel f))
      t.liftedOrder (t.relabel f).liftedOrder := by
  induction t with
  | step t ih =>
    cases t with
    | select s i =>
      have hsource : ∀ u ∈ s.source.toList, u ∈ (select s i).children := fun u hu =>
        mem_clauses.2 (.inl (Option.mem_toList.1 hu))
      refine (Coupling.fallible _).bind (requireOrder_relabel_of fun u hu => ih u (hsource u hu)) ?_
      rintro ⟨s', order⟩ _ rfl
      have hsorted : (s'.sortedBy order).relabel f =
          ((s'.relabel f).sortedBy (order.map (SortKey.relabel f))) := by
        simp only [relabel_eq]
      refine (Coupling.fallible _).bind (hsorted ▸ liftOrder_relabel hf (s'.sortedBy order)) ?_
      rintro ⟨s'', lifted⟩ _ rfl
      exact .ok rfl
    | _ => exact .error rfl

/-- A relabeled select gets the relabeled order. -/
theorem Select.requireOrder_relabel (s : Select Tree) :
    EndAlike (LoweringError.Relabels f) (KeyedRelabels f (relabel f))
      s.requireOrder (s.relabel f).requireOrder :=
  requireOrder_relabel_of fun t _ => t.liftedOrder_relabel hf

end Orders

/-! ## Copies -/

theorem Tree.duplicate_relabel {f : Alias → Alias} {first : Alias} (hf : Renumbers f first) (t : Tree) :
    (supplying f first).rel (Relabels f) t.duplicate (t.relabel f).duplicate := by
  have hpairs : ∀ aliases : List Alias, (supplying f first).rel (fun p q => p.map (Prod.map f f) = q)
      (aliases.mapM fun a => do return (a, ← fresh)) ((aliases.map f).mapM fun a => do return (a, ← fresh)) := by
    intro aliases
    induction aliases with
    | nil => exact .pure rfl
    | cons a aliases ih =>
      rw [map_cons, mapM_cons, mapM_cons]
      refine .bind (R := fun p q => Prod.map f f p = q)
        (.bind hf.fresh fun b _ hb => .pure (congrArg (f a, ·) hb))
        fun p _ hp => ?_
      exact .bind ih fun ps _ hps => .pure (congrArg₂ cons hp hps)
  rw [duplicate, duplicate, (Renaming.relabel f).declared]
  refine .bind (hpairs t.declared) ?_
  rintro pairs _ rfl
  refine .pure (rename_relabel hf.injective (fun a => ?_) t).symm
  rw [replacement, replacement, ← map_reverse, lookup_map hf.injective, Option.getD_map]

/-! ## Windows -/

namespace Select

variable {f : Alias → Alias} {first : Alias} (hf : Renumbers f first)

include hf

theorem foldedSum_relabel (a b : Tree) :
    (renumbered f first).rel (Relabels f) (foldedSum a b) (foldedSum (a.relabel f) (b.relabel f)) :=
  renumbered_evaluating (fold_relabel hf.injective (.binary .add a b))

theorem layer_relabel (s : Select Tree) {finish : Select Tree → Select Tree}
    (hfinish : ∀ s, (finish s).relabel f = finish (s.relabel f)) :
    (renumbered f first).rel (KeyedRelabels f (relabel f)) (s.layer finish)
      ((s.relabel f).layer finish) := by
  refine .bind (renumbered_state hf.fresh) ?_
  rintro label _ rfl
  have hlabeled : ({ s with label := label } : Select Tree).relabel f =
      { s.relabel f with label := f label } := by
    simp only [relabel_eq]
  refine .bind (renumbered_except (hlabeled ▸ liftOrder_relabel hf.injective { s with label := label })) ?_
  rintro ⟨inner, lifted⟩ _ rfl
  refine .pure ?_
  rw [← hfinish, above_relabel]
  rfl

theorem windowFilter_relabel (number skip : Tree) (take : Option Tree) :
    (renumbered f first).rel (Relabels f) (windowFilter number skip take)
      (windowFilter (number.relabel f) (skip.relabel f) (take.map (Tree.relabel f))) := by
  cases take with
  | none => exact .pure rfl
  | some take =>
    refine .bind (foldedSum_relabel hf skip (.int 1)) ?_
    rintro lower _ rfl
    refine .bind (foldedSum_relabel hf skip take) ?_
    rintro upper _ rfl
    exact .pure rfl

theorem numberedBase_relabel (s : Select Tree) :
    (renumbered f first).rel (KeyedRelabels f (relabel f)) s.numberedBase
      (s.relabel f).numberedBase := by
  rw [numberedBase, numberedBase, distinct_relabel, group_relabel, isEmpty_map]
  split
  · exact .pure (by simp only [KeyedRelabels, relabel_eq, map_nil])
  · exact layer_relabel hf s fun s => by simp only [relabel_eq, map_nil]

theorem keepWindow_relabel (base : Select Tree) (order : List (SortKey Tree)) (skip : Tree)
    (take : Option Tree) :
    (renumbered f first).rel (fun s s' => s.relabel f = s') (base.keepWindow order skip take)
      ((base.relabel f).keepWindow (order.map (SortKey.relabel f)) (skip.relabel f)
        (take.map (Tree.relabel f))) := by
  have hnumbered (name : String) (type : ColumnType) :
      (base.relabel f).addColumn ⟨name, .rowNumber (order.map (SortKey.relabel f)), type⟩ =
        (base.addColumn ⟨name, .rowNumber order, type⟩).relabel f := by
    rw [← addColumn_relabel, Column.relabel, relabel_rowNumber]
  rw [keepWindow, keepWindow, headers_relabel]
  refine .bind (renumbered_state hf.fresh) ?_
  rintro label _ rfl
  refine .bind (windowFilter_relabel hf (.column _) skip take) ?_
  rintro window _ rfl
  refine .pure ?_
  rw [hnumbered, wrap_relabel]
  simp only [removeColumn, relabel_eq, filter_map]
  rfl

theorem numberRows_relabel (s : Select Tree) (skip : Tree) (take : Option Tree) :
    (renumbered f first).rel (fun s s' => s.relabel f = s') (s.numberRows skip take)
      ((s.relabel f).numberRows (skip.relabel f) (take.map (Tree.relabel f))) := by
  refine .bind (renumbered_except (requireOrder_relabel hf.injective s)) ?_
  rintro ⟨s', order⟩ _ rfl
  have hbase : ({ s' with order := order, skip := none, take := none } : Select Tree).relabel f =
      { s'.relabel f with order := order.map (SortKey.relabel f), skip := none, take := none } := by
    simp only [relabel_eq, Option.map_none]
  refine .bind (hbase ▸ numberedBase_relabel hf _) ?_
  rintro ⟨base, order'⟩ _ rfl
  exact keepWindow_relabel hf base order' skip take

theorem remainingRows_relabel (s : Select Tree) (skip : Tree) :
    (supplying f first).rel (Relabels f) (s.remainingRows skip)
      ((s.relabel f).remainingRows (skip.relabel f)) := by
  have hunsorted : (select (s.sortedBy []) none).relabel f =
      .select ((s.relabel f).sortedBy []) none := by
    simp only [Tree.relabel, Select.relabel_eq, map_nil]
  refine .bind (hunsorted ▸ duplicate_relabel hf _) ?_
  rintro copy _ rfl
  refine .bind hf.fresh ?_
  rintro label _ rfl
  exact .pure rfl

theorem lastLayers_relabel (inner : Select Tree) (window : Tree) :
    (renumbered f first).rel (fun s s' => s.relabel f = s')
      (do
        let (middle, lifted) ← inner.layer id
        let (outer, lifted) ← (middle.lastRows lifted window).layer id
        return (outer.sortedBy (lifted.map SortKey.inverted)))
      (do
        let (middle, lifted) ← (inner.relabel f).layer id
        let (outer, lifted) ← (middle.lastRows lifted (window.relabel f)).layer id
        return (outer.sortedBy (lifted.map SortKey.inverted))) := by
  have hinverted (ks : List (SortKey Tree)) : (ks.map SortKey.inverted).map (SortKey.relabel f) =
      (ks.map (SortKey.relabel f)).map SortKey.inverted := by
    rw [map_map, map_map]
    rfl
  refine .bind (layer_relabel hf inner fun _ => rfl) ?_
  rintro ⟨middle, lifted⟩ _ rfl
  have hlast : (middle.lastRows lifted window).relabel f =
      (middle.relabel f).lastRows (lifted.map (SortKey.relabel f)) (window.relabel f) := by
    simp only [lastRows, relabel_eq, hinverted, Option.map_some]
  have hlayer : (renumbered f first).rel (KeyedRelabels f (relabel f))
      ((middle.lastRows lifted window).layer id) (((middle.lastRows lifted window).relabel f).layer id) :=
    layer_relabel hf _ fun _ => rfl
  rw [hlast] at hlayer
  refine .bind hlayer ?_
  rintro ⟨outer, lifted'⟩ _ rfl
  exact .pure (by simp only [relabel_eq, hinverted])

theorem nestOrders_relabel (s : Select Tree) (skip : Tree) (take : Option Tree) :
    (renumbered f first).rel (fun s s' => s.relabel f = s') (s.nestOrders skip take)
      ((s.relabel f).nestOrders (skip.relabel f) (take.map (Tree.relabel f))) := by
  refine .bind (renumbered_except (requireOrder_relabel hf.injective s)) ?_
  rintro ⟨s', order⟩ _ rfl
  cases take with
  | some take =>
    refine .bind (foldedSum_relabel hf skip take) ?_
    rintro limit _ rfl
    have hfirst : ({ s' with skip := none, order := order, take := some limit } : Select Tree).relabel f =
        { s'.relabel f with
          skip := none, order := order.map (SortKey.relabel f), take := some (limit.relabel f) } := by
      simp only [relabel_eq, Option.map_none, Option.map_some]
    have hlayers := lastLayers_relabel hf { s' with skip := none, order := order, take := some limit } take
    rw [hfirst] at hlayers
    exact hlayers
  | none =>
    have hfirst : ({ s' with skip := none, order := order, take := none } : Select Tree).relabel f =
        { s'.relabel f with skip := none, order := order.map (SortKey.relabel f), take := none } := by
      simp only [relabel_eq, Option.map_none]
    refine .bind (renumbered_state (hfirst ▸ remainingRows_relabel hf _ skip)) ?_
    rintro window _ rfl
    have hlayers := lastLayers_relabel hf { s' with skip := none, order := order, take := none } window
    rw [hfirst] at hlayers
    exact hlayers

end Select

/-! ## Whole trees -/

section WholeTrees

variable {f : Alias → Alias} {first : Alias} {lower : SkipLowering}

theorem Tree.isZero_relabel (t : Tree) : (t.relabel f).isZero = t.isZero := by
  cases t <;> rfl

theorem Select.lowerSkip_relabel (hf : Renumbers f first)
    (hlower : ∀ s skip take, (renumbered f first).rel (fun s s' => s.relabel f = s') (lower s skip take)
      (lower (s.relabel f) (skip.relabel f) (take.map (Tree.relabel f))))
    (s : Select Tree) (skip : Tree) :
    (renumbered f first).rel (fun s s' => s.relabel f = s') (s.lowerSkip lower skip)
      ((s.relabel f).lowerSkip lower (skip.relabel f)) := by
  refine .bind (renumbered_evaluating (fold_relabel hf.injective skip)) ?_
  rintro skip' _ rfl
  rw [isZero_relabel]
  split
  · exact .pure (by simp only [relabel_eq, Option.map_none])
  · refine .bind (R := fun o o' => o.map (Tree.relabel f) = o') ?_ ?_
    · rw [Select.take_relabel]
      cases s.take with
      | none => exact .pure rfl
      | some take =>
        refine .bind (renumbered_evaluating (fold_relabel hf.injective take)) ?_
        rintro take' _ rfl
        exact .pure rfl
    · rintro take _ rfl
      exact hlower s skip' take

theorem Tree.lowerSkips_relabel (hf : Renumbers f first)
    (hlower : ∀ s skip take, (renumbered f first).rel (fun s s' => s.relabel f = s') (lower s skip take)
      (lower (s.relabel f) (skip.relabel f) (take.map (relabel f)))) (t : Tree) :
    (renumbered f first).rel (Relabels f) (t.lowerSkips lower) ((t.relabel f).lowerSkips lower) := by
  refine bottomUp_relabel hf.injective (fun u => ?_) t
  cases u with
  | select s i =>
    simp only [relabel, lowerSkipAt, skip_relabel]
    cases s.skip with
    | none => exact .pure rfl
    | some skip =>
      refine .bind (lowerSkip_relabel hf hlower s skip) ?_
      rintro s' _ rfl
      exact .pure rfl
  | _ => exact .pure rfl

/-- The skipped rows of a relabeled tree are lowered alike. -/
theorem Tree.lowerPaging_relabel (hf : Renumbers f first) (dialect : Dialect) (t : Tree) :
    (renumbered f first).rel (Relabels f) (t.lowerPaging dialect)
      ((t.relabel f).lowerPaging dialect) := by
  unfold lowerPaging
  split
  · exact lowerSkips_relabel hf (numberRows_relabel hf) t
  · exact lowerSkips_relabel hf (nestOrders_relabel hf) t

end WholeTrees

end HiveQuery
