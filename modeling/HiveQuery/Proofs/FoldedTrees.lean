import HiveQuery.Proofs.Similarity

/-!
# Folded trees

The folded tree is similar to the tree, and a normal form: no operator on constants is left.
-/

namespace HiveQuery

variable {env : Environment}
open List

variable {t u v : Tree} {x y : Value}

/-! ## Steps -/

def Tree.isFoldable : Tree → Bool
  | .binary _ l r => l.constant?.isSome && r.constant?.isSome
  | .unary _ a | .isNull a => a.constant?.isSome
  | _ => false

/-- What folding does at a node. -/
inductive Tree.FoldStep : Tree → Tree → Prop
  | kept {t : Tree} (other : t.isFoldable = false) : FoldStep t t
  | binary {op : BinaryOp} {l r : Tree} {x y z : Value} (left : l.constant? = some x)
      (right : r.constant? = some y) (value : Value.applyBinary op x y = .ok z) :
      FoldStep (.binary op l r) (.constant z)
  | unary {op : UnaryOp} {a : Tree} {x z : Value} (operand : a.constant? = some x)
      (value : Value.applyUnary op x = .ok z) : FoldStep (.unary op a) (.constant z)
  | isNull {a : Tree} {x : Value} (operand : a.constant? = some x) :
      FoldStep (.isNull a) (.constant (.boolean x.isNull))

theorem Tree.foldStep (h : t.foldNode = .ok u) : t.FoldStep u := by
  cases t with
  | binary op l r =>
    cases hl : l.constant? <;> cases hr : r.constant? <;> simp only [foldNode, hl, hr] at h
    case some.some =>
      obtain ⟨z, hz, h⟩ := bind_eq_ok.1 h
      cases h
      exact .binary hl hr hz
    all_goals
      cases h
      exact .kept (by simp [isFoldable, hl, hr])
  | unary op a =>
    cases ha : a.constant? <;> simp only [foldNode, ha] at h
    · cases h
      exact .kept (by simp [isFoldable, ha])
    · obtain ⟨z, hz, h⟩ := bind_eq_ok.1 h
      cases h
      exact .unary ha hz
  | isNull a =>
    cases ha : a.constant? <;> simp only [foldNode, ha] at h <;> cases h
    · exact .kept (by simp [isFoldable, ha])
    · exact .isNull ha
  | _ =>
    cases h
    exact .kept rfl

theorem Tree.foldNode_of_not_foldable (h : t.isFoldable = false) : t.foldNode = .ok t := by
  cases t with
  | binary op l r => cases hl : l.constant? <;> cases hr : r.constant? <;> simp_all [isFoldable, foldNode]
  | unary op a | isNull a => cases ha : a.constant? <;> simp_all [isFoldable, foldNode]
  | _ => rfl

/-! ## Similarity -/

theorem Tree.denotes_of_constant (h : t.constant? = some x) : t.Denotes x := by
  cases t with
  | constant | undefined =>
    cases h
    exact ⟨fun _ _ _ => rfl, rfl, rfl, rfl⟩
  | _ => cases h

theorem Tree.Similar.denotes {f : Alias → Alias} (h : t.Similar f u) (hu : u.constant? = some x) :
    t.Denotes x := by
  have hx := denotes_of_constant hu
  cases h with
  | value left right =>
    have hvalue := (hx.scalar ⟨[], []⟩ [] none).symm.trans (right.scalar ⟨[], []⟩ [] none)
    cases hvalue
    exact left
  | node _ _ same => 
    cases same with
    | constant | undefined => exact denotes_of_constant hu
    | _ => cases hu
  | _ => cases hu

theorem Tree.Denotes.of_children (plain : t.isSource = false ∧ t.isRowNumber = false ∧ t.isAggregate = false)
    (children : ∀ a ∈ t.children, ∃ y, a.Denotes y)
    (scalar : ∀ env frames group, t.scalar env frames group = .ok x) : t.Denotes x := by
  refine ⟨scalar, plain.1, plain.2.1, ?_⟩
  have hany : t.children.any hasAggregate = false := any_eq_false.2 fun a ha => by
    obtain ⟨y, hy⟩ := children a ha
    rw [hy.aggregate]
    exact Bool.false_ne_true
  rw [hasAggregate_eq, plain.2.2, hany, Bool.and_false, Bool.or_false]

theorem Tree.FoldStep.similar (h : v.FoldStep u) (same : t.SameNode (Similar id) v) : t.Similar id u := by
  cases h with
  | kept => exact same.similar
  | binary left right value =>
    cases same with
    | binary op hl hr =>
      have hl := hl.denotes left
      have hr := hr.denotes right
      refine .value (.of_children ⟨rfl, rfl, rfl⟩ ?_ fun env frames group => ?_) (denotes_of_constant rfl)
      · simpa using ⟨⟨_, hl⟩, ⟨_, hr⟩⟩
      · rw [scalar, hl.scalar, hr.scalar]
        exact congrArg Run.ofValue value
  | unary operand value =>
    cases same with
    | unary op ha =>
      have ha := ha.denotes operand
      refine .value (.of_children ⟨rfl, rfl, rfl⟩ (forall_mem_singleton.2 ⟨_, ha⟩) fun env frames group => ?_)
        (denotes_of_constant rfl)
      rw [scalar, ha.scalar]
      exact congrArg Run.ofValue value
  | isNull operand =>
    cases same with
    | isNull ha =>
      have ha := ha.denotes operand
      refine .value (.of_children ⟨rfl, rfl, rfl⟩ (forall_mem_singleton.2 ⟨_, ha⟩) fun env frames group => ?_)
        (denotes_of_constant rfl)
      rw [scalar, ha.scalar]
      rfl

theorem Tree.fold_similar (h : t.fold = .ok u) : t.Similar id u :=
  bottomUp_rel _ (fun same hnode => (foldStep hnode).similar same) (fold_gives h)

/-! ## Normal forms -/

theorem Tree.fold_normal (h : t.fold = .ok u) : u.Every fun w => w.isFoldable = false := by
  refine bottomUp_every _ (P := fun _ => True) (fun _ _ => trivial) (fun {a b _ _} hnode _ hchildren => ?_)
    (fold_gives h) fun _ _ => trivial
  cases foldStep hnode with
  | kept other => exact every_iff.2 ⟨other, hchildren⟩
  | _ => exact every_iff.2 ⟨rfl, nofun⟩

theorem Tree.fold_recognizable (h : t.fold = .ok u) : u.Recognizable := by
  refine bottomUp_recognizable _ (fun {a b _ _} hnode ha => ?_) (fold_gives h)
  cases foldStep hnode with
  | kept => exact ha
  | _ => exact every_iff.2 ⟨nofun, nofun⟩

theorem Tree.fold_of_normal (normal : u.Every fun w => w.isFoldable = false) (h : u.Recognizable) :
    u.fold = .ok u := by
  have hsteady : u.Every fun w => w.renewed.foldNode = pure w.renewed := fun w hw => by
    show w.renewed.foldNode = _
    rw [Recognizable.renewed_eq_self (Every.subtree h hw)]
    exact foldNode_of_not_foldable (normal w hw)
  rw [fold, bottomUp_eq_renewed hsteady, h.renewed_eq_self]
  rfl

/-! ## Folding -/

theorem separates_id (names : List Alias) : Separates id names := fun _ _ _ _ h => h

theorem Tree.Similar.scalar_id (h : t.Similar id u) {frames : Frames} {group : Option (List Row)}
    (hv : t.scalar env frames group = .ok x) : u.scalar env frames group = .ok x := by
  -- the aliases of all rows around
  let scope := (frames ++ group.getD []).flatMap fun row => row.map Binding.label
  have hrow : ∀ row, row ∈ frames ∨ row ∈ group.getD [] → ∀ b ∈ row, b.label ∈ scope := fun row hrow b hb =>
    mem_flatMap.2 ⟨row, mem_append.2 hrow, mem_map_of_mem hb⟩
  refine h.scalar (separates_id (t.declared ++ scope)) (fun _ _ => rfl) (fun row h => hrow row (.inl h)) ?_ hv
  rintro members rfl row hmem r hr
  rcases mem_cons.1 hr with rfl | hr
  · exact hrow r (.inr hmem)
  · exact hrow r (.inl (mem_of_mem_tail hr))

theorem Select.run_of_similar_id {s s' : Select Tree} {i j : Option Identity}
    (h : (Tree.select s i).Similar id (.select s' j)) {frames : Frames} {r : Relation}
    (hr : s.run env frames = .ok r) : s'.run env frames = .ok r := by
  obtain ⟨_, _, hs, hrun⟩ := run_of_similar h
  cases hs
  refine hrun (separates_id (_ ++ frames.flatMap fun row => row.map Binding.label)) (fun _ _ => rfl) ?_ hr
  exact fun row hrow b hb => mem_flatMap.2 ⟨row, hrow, mem_map_of_mem hb⟩

theorem Tree.Similar.run_id (h : t.Similar id u) {r : Relation} (hr : t.run env = .ok r) :
    u.run env = .ok r := by
  have hselect : ∀ {s i v}, (Tree.select s i).Similar id v → s.run env [] = .ok r →
      ∃ s' j, v = .select s' j ∧ s'.run env [] = .ok r := by
    intro s i v h hr
    obtain ⟨s', j, rfl, -⟩ := Select.run_of_similar h
    exact ⟨s', j, rfl, Select.run_of_similar_id h hr⟩
  cases t with
  | select s i =>
    obtain ⟨s', j, rfl, hr⟩ := hselect h hr
    exact hr
  | projection q a i =>
    cases h with
    | value left => cases left.scalar env [] none
    | node _ _ same children =>
      cases same
      cases children with
      | cons hq =>
        cases q with
        | select s i =>
          obtain ⟨s', j, rfl, hr⟩ := hselect hq hr
          exact hr
        | _ => cases hr
  | _ => cases hr

/-- A folded tree has the values and the relation of the tree, in whatever rows around, and fails where the
tree fails. Folding it again gives the same tree, in which no operator on constants is left. -/
theorem Tree.fold_preserves (h : t.fold = .ok u) :
    (∀ env frames group x, u.scalar env frames group = .ok x ↔ t.scalar env frames group = .ok x) ∧
      (∀ s i, t = .select s i → ∃ s' j, u = .select s' j ∧
        ∀ env frames r, s'.run env frames = .ok r ↔ s.run env frames = .ok r) ∧
      (∀ env r, u.run env = .ok r ↔ t.run env = .ok r) ∧
      u.fold = .ok u ∧ u.Every fun w => w.isFoldable = false := by
  have hsimilar := fold_similar h
  have hback : u.Similar id t := hsimilar.symm fun _ _ => ⟨fun _ _ => rfl, fun _ _ => rfl⟩
  refine ⟨fun env frames group x => ⟨hback.scalar_id, hsimilar.scalar_id⟩, ?_,
    fun env r => ⟨hback.run_id, hsimilar.run_id⟩, fold_of_normal (fold_normal h) (fold_recognizable h),
    fold_normal h⟩
  rintro s i rfl
  obtain ⟨s', j, rfl, -⟩ := Select.run_of_similar hsimilar
  exact ⟨s', j, rfl, fun env frames r =>
    ⟨Select.run_of_similar_id hback, Select.run_of_similar_id hsimilar⟩⟩

def foldableItems : Tree :=
  let price : Tree := .column ⟨.int64, ScalarType.int64.columnType, 0, "price"⟩
  .select
    { label := 1, source := some (.table 0 "items")
      columns := [⟨"price", .binary .add price (.unary .negate (.int 2)), ScalarType.int64.columnType⟩]
      filter := some (.binary .or (.isNull (.constant .null)) (.isNull price))
      order := [⟨.ascending, price⟩]
      skip := some (.binary .subtract (.int 3) (.int 2)) }
    (some 7)

theorem fold_preserves_foldableItems : foldableItems.subtrees.any Tree.isFoldable = true ∧
    ∃ u, foldableItems.fold = .ok u ∧ (∀ env r, u.run env = .ok r ↔ foldableItems.run env = .ok r) ∧
      u.fold = .ok u ∧ u.Every fun w => w.isFoldable = false := by
  refine ⟨by decide +kernel, ?_⟩
  have hok : foldableItems.fold.toBool = true := by decide +kernel
  cases h : foldableItems.fold with
  | error e =>
    rw [h] at hok
    cases hok
  | ok u =>
    obtain ⟨-, -, hrun, hfold, hnormal⟩ := Tree.fold_preserves h
    exact ⟨u, rfl, hrun, hfold, hnormal⟩

end HiveQuery
