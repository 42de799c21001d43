import HiveQuery.Proofs.Traversal

/-!
# Rebuilt trees

A traversal that replaces no node still rebuilds the tree, and a rebuilt tree can differ in its identities:
an undefined number differs from itself, so that a query around one is not known to be as it was.
-/

namespace HiveQuery

variable {s : Select Tree} {t : Tree} {F : Tree → Tree} {m : Type → Type}
open List

/-- A tree that is rebuilt from its leaves up, with each node as it is. -/
def Tree.renewed (t : Tree) : Tree :=
  Id.run (t.bottomUp pure)

def Select.mapClauses (F : Tree → Tree) (s : Select Tree) : Select Tree where
  label := s.label
  columns := s.columns.map fun c => ⟨c.name, F c.value, c.type⟩
  source := s.source.map F
  filter := s.filter.map F
  order := s.order.map fun k => ⟨k.direction, F k.value⟩
  group := s.group.map F
  distinct := s.distinct
  skip := s.skip.map F
  take := s.take.map F
  reverse := s.reverse
  cluster := s.cluster.map F

abbrev Select.renewed (s : Select Tree) : Select Tree :=
  s.mapClauses Tree.renewed

def ColumnRef.rename (f : Alias → Alias) (c : ColumnRef) : ColumnRef :=
  { c with label := f c.label }

/-- A node under another alias with other children. -/
def Tree.mapNode (f : Alias → Alias) (F : Tree → Tree) : Tree → Tree
  | .constant v => .constant v
  | .undefined id => .undefined id
  | .parameter p => .parameter p
  | .binary op l r => .binary op (F l) (F r)
  | .unary op t => .unary op (F t)
  | .between t l u => .between (F t) (F l) (F u)
  | .isNull t => .isNull (F t)
  | .member t name => .member (F t) name
  | .record fields => .record (fields.map fun p => (p.1, F p.2))
  | .entity name t => .entity name (F t)
  | .outerJoined test t => .outerJoined (F test) (F t)
  | .table a name => .table (f a) name
  | .column c => .column (c.rename f)
  | .select s id =>
    .select
      { label := f s.label
        columns := s.columns.map fun c => ⟨c.name, F c.value, c.type⟩
        source := s.source.map F
        filter := s.filter.map F
        order := s.order.map fun k => ⟨k.direction, F k.value⟩
        group := s.group.map F
        distinct := s.distinct
        skip := s.skip.map F
        take := s.take.map F
        reverse := s.reverse
        cluster := s.cluster.map F } id
  | .join j id => .join ⟨j.kind, F j.left, F j.right, j.condition.map F⟩ id
  | .scalarSubquery q type => .scalarSubquery (F q) type
  | .existsSubquery q => .existsSubquery (F q)
  | .inSubquery t q => .inSubquery (F t) (F q)
  | .aggregate kind t distinct type => .aggregate kind (t.map F) distinct type
  | .rowNumber order => .rowNumber (order.map fun k => ⟨k.direction, F k.value⟩)
  | .projection q t id => .projection (F q) (F t) id

theorem Tree.mapNode_congr {f g : Alias → Alias} {G : Tree → Tree} (label : ∀ a ∈ t.label?, f a = g a)
    (column : ∀ c ∈ t.column?, f c.label = g c.label) (children : ∀ u ∈ t.children, F u = G u) :
    t.mapNode f F = t.mapNode g G := by
  have hoption : ∀ o : Option Tree, o.map F = o.map G ↔ ∀ a ∈ o, F a = G a := fun o => by cases o <;> simp
  cases t with
  | record fields =>
    exact congrArg record (map_congr_left fun p hp => congrArg (Prod.mk p.1) (children _ (mem_map_of_mem hp)))
  | _ =>
    simp_all [mapNode, label?, column?, Select.clauses, ColumnRef.rename, or_imp,
      forall_and]

theorem Tree.mapNode_id (t : Tree) : t.mapNode id id = t := by
  cases t <;> simp [mapNode, ColumnRef.rename]

theorem Tree.mapNode_mapNode (f g : Alias → Alias) (F G : Tree → Tree) (t : Tree) :
    (t.mapNode f F).mapNode g G = t.mapNode (g ∘ f) (G ∘ F) := by
  cases t <;> simp [mapNode, ColumnRef.rename, Function.comp_def]

theorem Tree.children_mapNode (f : Alias → Alias) (F : Tree → Tree) (t : Tree) :
    (t.mapNode f F).children = t.children.map F := by
  cases t <;> simp [mapNode, Select.clauses, Function.comp_def, Option.toList_map]

theorem Select.SameClauses.mapClauses {S R S' R' : Tree → Tree → Prop} {s' : Select Tree}
    (h : s.SameClauses S R s') (hS : ∀ a b, s.source = some a → S a b → S' (F a) (F b))
    (hR : ∀ a b, a ∈ s.clauses → R a b → R' (F a) (F b)) :
    (s.mapClauses F).SameClauses S' R' (s'.mapClauses F) := by
  have h := h.imp hS hR
  exact ⟨option_rel_map h.source, option_rel_map h.filter, forall₂_map_iff.2 h.order, forall₂_map_iff.2 h.group,
    forall₂_map_iff.2 h.cluster, option_rel_map h.skip, option_rel_map h.take, forall₂_map_iff.2 h.columns,
    h.distinct, h.reverse⟩

theorem Tree.SameNode.mapNode {R S : Tree → Tree → Prop} {u : Tree} (f : Alias → Alias) (h : t.SameNode R u)
    (hRS : ∀ a b, a ∈ t.children → R a b → S (F a) (F b)) : (t.mapNode f F).SameNode S (u.mapNode f F) := by
  cases h.imp hRS with
  | select i j label same =>
    exact .select i j (congrArg f label) { same.mapClauses (fun _ _ _ h => h) fun _ _ _ h => h with }
  | join kind i j hl hr hc => exact .join kind i j hl hr (option_rel_map hc)
  | record same => exact .record (forall₂_map_iff.2 same)
  | rowNumber same => exact .rowNumber (forall₂_map_iff.2 same)
  | aggregate kind distinct type same => exact .aggregate kind distinct type (option_rel_map same)
  | _ => constructor <;> assumption

/-- A node that is rebuilt with other children. A query keeps its identity if these are equal to its own. -/
def Tree.rebuilt (F : Tree → Tree) : Tree → Tree
  | .select s i => .select (s.mapClauses F) (i.filter fun _ => (s.mapClauses F).beq s)
  | .join ⟨kind, l, r, c⟩ i =>
    .join ⟨kind, F l, F r, c.map F⟩ (i.filter fun _ => (F l).beq l && (F r).beq r && beqOption (c.map F) c)
  | .projection q t i => .projection (F q) (F t) (i.filter fun _ => (F q).beq q && (F t).beq t)
  | t => t.mapNode id F

/-! ## Rebuilt clauses -/

/-- What it is that an action leads from a state to a value and a state. -/
structure Course (m : Type → Type) [Monad m] (σ : Type) where
  gives : {α : Type} → m α → σ → α → σ → Prop
  pure : ∀ {α : Type} (a : α) (st : σ), gives (pure a) st a st
  bind : ∀ {α β : Type} {x : m α} {f : α → m β} {a : α} {b : β} {st st₁ st₂ : σ}, gives x st a st₁ →
    gives (f a) st₁ b st₂ → gives (x >>= f) st b st₂

def Course.plain (m : Type → Type) [Monad m] [LawfulMonad m] : Course m Unit where
  gives x _ a _ := x = Pure.pure a
  pure _ _ := rfl
  bind hx hf := by rw [hx, pure_bind, hf]

def Course.state (σ : Type) : Course (StateM σ) σ where
  gives x st a st' := x.run st = (a, st')
  pure _ _ := rfl
  bind {_ _ x f a _ st st₁ _} hx hf := by
    show (fun p => (f p.1).run p.2) (x.run st) = _
    rw [hx]
    exact hf

section Lists

variable {m : Type → Type} [Monad m] {v : Visitor m} {σ : Type} {C : Course m σ} {st st' : σ}
  {F : Tree → Tree}

theorem visitOption_rebuilt {o : Option Tree} (h : ∀ a ∈ o, C.gives (a.visit v) st (F a) st) :
    C.gives (visitOption v o) st (o.map F) st := by
  cases o with
  | none => exact C.pure _ _
  | some a => exact C.bind (h a rfl) (C.pure _ _)

theorem Slot.visit_rebuilt {α : Type} (S : Slot α) {as : List α}
    (h : ∀ a ∈ as, C.gives ((S.value a).visit v) st (F (S.value a)) st) :
    C.gives (S.visit v as) st (as.map fun a => S.put a (F (S.value a))) st := by
  induction as with
  | nil => exact C.pure _ _
  | cons a as ih =>
    rw [forall_mem_cons] at h
    exact C.bind h.1 (C.bind (ih h.2) (C.pure _ _))

theorem Select.visit_rebuilt (source : ∀ a ∈ s.source, C.gives (a.visit v) st (F a) st)
    (after : C.gives (v.afterSource (s.mapClauses F).source) st () st')
    (others : ∀ a ∈ s.others, C.gives (a.visit v) st' (F a) st') :
    C.gives (s.visit v) st (s.mapClauses F) st' := by
  obtain ⟨label, columns, _, filter, order, group, distinct, skip, take, reverse, cluster⟩ := s
  simp only [Select.others, Select.clauses, forall_mem_append, forall_mem_map, Option.mem_toList] at others
  obtain ⟨⟨⟨⟨⟨⟨⟨-, hfilter⟩, horder⟩, hgroup⟩, hcluster⟩, hskip⟩, htake⟩, hcolumns⟩ := others
  rw [Select.visit, visitKeys_eq, visitList_eq, visitList_eq, visitColumns_eq]
  exact C.bind (visitOption_rebuilt source) <| C.bind after <| C.bind (visitOption_rebuilt hfilter) <|
    C.bind (Slot.visit_rebuilt _ horder) <| C.bind (Slot.visit_rebuilt _ hgroup) <|
    C.bind (Slot.visit_rebuilt _ hcluster) <| C.bind (visitOption_rebuilt hskip) <|
    C.bind (visitOption_rebuilt htake) <| C.bind (Slot.visit_rebuilt _ hcolumns) (C.pure _ _)

end Lists

/-! ## Rebuilt nodes -/

/-- What a traversal rebuilds at one node. -/
theorem Tree.visit_rebuilt [Monad m] (v : Visitor m) (F : Tree → Tree) (t : Tree) :
    ∃ rebuilt : m Tree, t.visit v = v.around t rebuilt ∧ ∀ {σ : Type} (C : Course m σ) (st : σ),
      (∀ a ∈ t.children, C.gives (a.visit v) st (F a) st) →
      (∀ s ∈ t.select?, C.gives (v.afterSource (s.mapClauses F).source) st () st) →
      C.gives rebuilt st (t.rebuilt F) st := by
  cases t with
  | select s i =>
    rw [visit]
    refine ⟨_, rfl, fun C st h after => ?_⟩
    rw [children, s.clauses_eq, forall_mem_append] at h
    have hsource : ∀ a ∈ s.source, _ := fun a ha => h.1 a (Option.mem_toList.2 ha)
    exact C.bind (Select.visit_rebuilt hsource (after s rfl) h.2) (C.pure _ _)
  | join j i =>
    obtain ⟨kind, l, r, c⟩ := j
    rw [visit]
    refine ⟨_, rfl, fun C st h _ => ?_⟩
    simp only [children, forall_mem_cons, Option.mem_toList] at h
    exact C.bind h.1 <| C.bind h.2.1 <| C.bind (visitOption_rebuilt h.2.2) (C.pure _ _)
  | record fields =>
    rw [visit, visitFields_eq]
    exact ⟨_, rfl, fun C st h _ => C.bind (Slot.visit_rebuilt _ (forall_mem_map.1 h)) (C.pure _ _)⟩
  | aggregate kind a distinct type =>
    rw [visit]
    refine ⟨_, rfl, fun C st h _ => ?_⟩
    exact C.bind (visitOption_rebuilt fun a ha => h a (Option.mem_toList.2 ha)) (C.pure _ _)
  | rowNumber order =>
    rw [visit, visitKeys_eq]
    exact ⟨_, rfl, fun C st h _ => C.bind (Slot.visit_rebuilt _ (forall_mem_map.1 h)) (C.pure _ _)⟩
  | constant | undefined | parameter | table | column =>
    exact ⟨_, rfl, fun C _ _ _ => C.pure _ _⟩
  | unary | isNull | member | entity | scalarSubquery | existsSubquery =>
    rw [visit]
    exact ⟨_, rfl, fun C st h _ => C.bind (h _ mem_cons_self) (C.pure _ _)⟩
  | binary | outerJoined | inSubquery | projection =>
    rw [visit]
    refine ⟨_, rfl, fun C st h _ => ?_⟩
    simp only [children, forall_mem_cons] at h
    exact C.bind h.1 <| C.bind h.2.1 (C.pure _ _)
  | between =>
    rw [visit]
    refine ⟨_, rfl, fun C st h _ => ?_⟩
    simp only [children, forall_mem_cons] at h
    exact C.bind h.1 <| C.bind h.2.1 <| C.bind h.2.2.1 (C.pure _ _)

theorem Tree.bottomUp_eq (replace : Tree → Tree) (t : Tree) :
    Id.run (t.bottomUp fun u => pure (replace u)) =
      replace (t.rebuilt fun a => Id.run (a.bottomUp fun u => pure (replace u))) := by
  obtain ⟨rebuilt, hvisit, hrebuilt⟩ := visit_rebuilt
    (⟨fun _ rebuilt => rebuilt >>= fun u => pure (replace u), fun _ => pure ()⟩ : Visitor Id)
    (fun a => Id.run (a.bottomUp fun u => pure (replace u))) t
  have hpure : rebuilt = _ := hrebuilt (.plain Id) () (fun _ _ => rfl) fun _ _ => rfl
  rw [bottomUp, hvisit, hpure]
  rfl

theorem Tree.renewed_node (t : Tree) : t.renewed = t.rebuilt renewed := bottomUp_eq id t

theorem Tree.renewed_select (s : Select Tree) (i : Option Identity) :
    (select s i).renewed = .select s.renewed (i.filter fun _ => s.renewed.beq s) :=
  renewed_node _

/-- A traversal leaves a node as it is that was rebuilt. -/
structure Visitor.Steady {m : Type → Type} [Monad m] (v : Visitor m) (t : Tree) : Prop where
  around : v.around t (pure t.renewed) = pure t.renewed
  after : ∀ s ∈ t.select?, v.afterSource s.renewed.source = pure ()

/-- A traversal that replaces no node rebuilds the tree. -/
theorem Tree.visit_eq_renewed [Monad m] [LawfulMonad m] {v : Visitor m} (steady : t.Every v.Steady) :
    t.visit v = pure t.renewed := by
  induction t with
  | step t ih =>
    obtain ⟨hnode, hchildren⟩ := every_iff.1 steady
    obtain ⟨rebuilt, hvisit, hrebuilt⟩ := visit_rebuilt v renewed t
    have hpure : rebuilt = pure (t.rebuilt renewed) :=
      hrebuilt (.plain m) () (fun a ha => ih a ha (hchildren a ha)) hnode.after
    rw [hvisit, hpure, ← renewed_node, hnode.around]

theorem Tree.bottomUp_eq_renewed [Monad m] [LawfulMonad m] {replace : Tree → m Tree}
    (steady : t.Every fun u => replace u.renewed = pure u.renewed) : t.bottomUp replace = pure t.renewed :=
  visit_eq_renewed fun u hu => ⟨(pure_bind _ _).trans (steady u hu), fun _ _ => rfl⟩

/-! ## Trees that equal themselves -/

variable {t u : Tree}

/-- Every constant of a tree equals itself, as all but undefined numbers do. -/
def Tree.Definite (t : Tree) : Prop :=
  t.Every fun u => ∀ v, u = .constant v → (v == v) = true

theorem beqOption_iff {o o' : Option Tree} :
    beqOption o o' = true ↔ Option.Rel (fun t u => t.beq u = true) o o' := by
  cases o <;> cases o' <;> simp [beqOption]

theorem beqList_iff {ts us : List Tree} :
    beqList ts us = true ↔ Forall₂ (fun t u => t.beq u = true) ts us := by
  induction ts generalizing us with
  | nil => cases us <;> simp [beqList]
  | cons t ts ih => cases us <;> simp [beqList, ih]

theorem beqKeys_iff {ks ks' : List (SortKey Tree)} : beqKeys ks ks' = true ↔
    Forall₂ (fun k k' => k'.direction = k.direction ∧ k.value.beq k'.value = true) ks ks' := by
  induction ks generalizing ks' with
  | nil => cases ks' <;> simp [beqKeys]
  | cons k ks ih => cases ks' <;> simp [beqKeys, ih, eq_comm (a := k.direction)]

theorem beqColumns_iff {cs cs' : List (Column Tree)} : beqColumns cs cs' = true ↔
    Forall₂ (fun c c' => c'.name = c.name ∧ c.value.beq c'.value = true) cs cs' ∧
      cs'.map Column.type = cs.map Column.type := by
  induction cs generalizing cs' with
  | nil => cases cs' <;> simp [beqColumns]
  | cons c cs ih => cases cs' <;> (simp [beqColumns, ih]; try grind)

theorem beqFields_iff {fs fs' : List (String × Tree)} : beqFields fs fs' = true ↔
    Forall₂ (fun f f' => f'.1 = f.1 ∧ f.2.beq f'.2 = true) fs fs' := by
  induction fs generalizing fs' with
  | nil => cases fs' <;> simp [beqFields]
  | cons f fs ih => cases fs' <;> simp [beqFields, ih, eq_comm (a := f.1)]

theorem Select.beq_iff {s' : Select Tree} : s.beq s' = true ↔ s'.label = s.label ∧
    s.SameClauses (fun t u => t.beq u = true) (fun t u => t.beq u = true) s' ∧
      s'.columns.map Column.type = s.columns.map Column.type := by
  cases s
  simp only [beq, Bool.and_eq_true, beq_iff_eq, beqOption_iff, beqKeys_iff, beqList_iff, beqColumns_iff]
  constructor
  · grind [SameClauses]
  · rintro ⟨label, ⟨source, filter, order, group, cluster, skip, take, columns, distinct, reverse⟩, types⟩
    simp_all

def Tree.columnTypes : Tree → List ColumnType
  | .select s _ => s.columns.map Column.type
  | _ => []

/-- Two trees agree in every detail but their children, and these are related. Constants have to compare as
equal. -/
inductive Tree.BeqNode (R : Tree → Tree → Prop) : Tree → Tree → Prop
  | constant {x y : Value} (equal : (x == y) = true) : BeqNode R (.constant x) (.constant y)
  | node {t u : Tree} (constant : ∀ x, t ≠ .constant x) (same : t.SameNode R u)
      (identity : u.identity? = t.identity?) (types : u.columnTypes = t.columnTypes) : BeqNode R t u

theorem Tree.beq_iff : t.beq u = true ↔ t.BeqNode (fun a b => a.beq b = true) u := by
  constructor
  · intro h
    cases t <;> cases u <;>
      simp only [beq, Bool.and_eq_true, beq_iff_eq, Bool.false_eq_true, beqFields_iff, beqKeys_iff,
        beqOption_iff, Select.beq_iff] at h
    case constant.constant => exact .constant h
    case select.select =>
      obtain ⟨rfl, label, same, types⟩ := h
      exact .node (by rintro _ ⟨⟩) (.select _ _ label same) rfl types
    case join.join j _ j' _ =>
      obtain ⟨kind, l, r, c⟩ := j
      obtain ⟨⟨⟨⟨rfl, rfl⟩, hl⟩, hr⟩, hc⟩ := h
      exact .node (by rintro _ ⟨⟩) (.join _ _ _ hl hr hc) rfl rfl
    all_goals
      repeat cases ‹_ ∧ _›
      subst_vars
      refine .node (by rintro _ ⟨⟩) ?_ rfl rfl
      constructor <;> assumption
  · intro h
    cases h with
    | constant equal => exact equal
    | node constant same identity types =>
      cases same <;> simp_all [beq, identity?, columnTypes, beqFields_iff, beqKeys_iff,
        beqOption_iff, Select.beq_iff]

theorem Tree.Definite.beq_self (h : t.Definite) : t.beq t = true := by
  induction t with
  | step t ih =>
    obtain ⟨hnode, hchildren⟩ := every_iff.1 h
    refine beq_iff.2 ?_
    cases t with
    | constant v => exact .constant (hnode v rfl)
    | _ => exact .node nofun (.of_self fun a ha => ih a ha (hchildren a ha)) rfl rfl

theorem Float.beq_self {x : Float} (h : x.isNaN = false) : (x == x) = true := by
  change x.toModel.unpack.isNaN = false at h
  show (x.toModel.unpack.compare x.toModel.unpack == some .eq) = true
  generalize x.toModel.unpack = a at h ⊢
  cases a with
  | notANumber => cases h
  | zero s => rfl
  | infinity s => cases s <;> rfl
  | finite s m e hm => cases s <;> dsimp only [Float.Model.UnpackedFloat.compare] <;> simp

theorem Float.isNaN_of_beq {x y : Float} (h : (x == y) = true) : x.isNaN = false := by
  change (x.toModel.unpack.compare y.toModel.unpack == some .eq) = true at h
  show x.toModel.unpack.isNaN = false
  generalize x.toModel.unpack = a, y.toModel.unpack = b at h
  cases a with
  | notANumber => cases h
  | _ => rfl

theorem Value.beq_self {v : Value} (h : (Tree.constant v).isUndefined = false) : (v == v) = true := by
  cases v with
  | double x => exact Float.beq_self h
  | decimal d => simp [BEq.beq, beq, Decimal.compare, Decimal.aligned]
  | _ => simp [BEq.beq, beq]

theorem Value.beq_left {v w : Value} (h : (v == w) = true) : (v == v) = true := by
  refine beq_self ?_
  cases v with
  | double x =>
    cases w with
    | double y => exact Float.isNaN_of_beq h
    | _ => cases h
  | _ => rfl

theorem Tree.definite_of_beq (h : t.beq u = true) : t.Definite := by
  induction t generalizing u with
  | step t ih =>
    cases beq_iff.1 h with
    | constant equal =>
      refine every_iff.2 ⟨?_, nofun⟩
      rintro _ ⟨⟩
      exact Value.beq_left equal
    | node constant same =>
      refine every_iff.2 ⟨fun x hx => absurd hx (constant x), fun a ha => ?_⟩
      obtain ⟨b, -, hab⟩ := forall₂_mem_left same.children ha
      exact ih a ha hab

/-- Whatever has an identity equals itself. -/
def Tree.Recognizable (t : Tree) : Prop :=
  t.Every fun u => u.identity?.isSome = true → u.beq u = true

/-- What has an identity has to equal itself for the tree to stay what it is. -/
theorem Tree.Recognizable.renewed_eq_self (h : t.Recognizable) : t.renewed = t := by
  induction t with
  | step t ih =>
    obtain ⟨hnode, hchildren⟩ := every_iff.1 h
    have ih : ∀ a ∈ t.children, a.renewed = a := fun a ha => ih a ha (hchildren a ha)
    have hkept : ∀ {i : Option Identity} {b : Bool}, (i.isSome = true → b = true) →
        i.filter (fun _ => b) = i := by
      intro i b
      cases i <;> simp_all
    have hmap : t.mapNode id renewed = t :=
      (mapNode_congr (fun _ _ => rfl) (fun _ _ => rfl) ih).trans t.mapNode_id
    rw [renewed_node]
    cases t with
    | select s i =>
      simp only [identity?, beq, beq_self_eq_true, Bool.true_and] at hnode
      have hs : s.mapClauses renewed = s := (select.inj hmap).1
      rw [rebuilt, hs, hkept hnode]
    | join j i =>
      obtain ⟨kind, l, r, c⟩ := j
      simp only [identity?, beq, beq_self_eq_true, Bool.true_and] at hnode
      obtain ⟨-, hl, hr, hc⟩ := Join.mk.inj (join.inj hmap).1
      rw [rebuilt, hl, hr, hc, hkept hnode]
    | projection q x i =>
      simp only [identity?, beq, beq_self_eq_true, Bool.true_and] at hnode
      obtain ⟨hq, hx, -⟩ := projection.inj hmap
      rw [rebuilt, hq, hx, hkept hnode]
    | _ => exact hmap

theorem Tree.bottomUp_recognizable [Monad m] {σ : Type} (O : Outcome m σ) {replace : Tree → m Tree}
    (node : ∀ {a b st st'}, O.gives (replace a) st b st' → a.Recognizable → b.Recognizable) {st st' : σ}
    (h : O.gives (t.bottomUp replace) st u st') : u.Recognizable := by
  induction t generalizing u st st' with
  | step t ih =>
    obtain ⟨v, st₁, -, children, hreplace, hidentity⟩ := bottomUp_outcome O h
    refine node hreplace (every_iff.2 ⟨fun h => (definite_of_beq (hidentity h)).beq_self, fun b hb => ?_⟩)
    obtain ⟨a, ha, _, _, hab⟩ := forall₂_mem_right children.forall₂_exists hb
    exact ih a ha hab

theorem Tree.Definite.renewed_eq_self (h : t.Definite) : t.renewed = t :=
  Tree.Recognizable.renewed_eq_self fun _ hu _ => beq_self (h.subtree hu)

end HiveQuery
