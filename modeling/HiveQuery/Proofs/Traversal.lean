import HiveQuery.Proofs.Lists
import HiveQuery.Tree.Fold
import HiveQuery.Tree.Identity

/-!
# Traversals of trees

Walks, visits and inductions all follow the children of a node, in the order in which clauses are read, so that a
fact about every subtree is proved once, for a node whose children have it.
-/

namespace HiveQuery

variable {a : Tree} {P : Tree → Prop} {α β : Type}
open List HiveQuery.Tree

variable {s s' : Select Tree} {t u : Tree} {R S : Tree → Tree → Prop}

/-! ## Children -/

/-- The trees in the clauses of a select, the source first and the columns last. -/
def Select.clauses (s : Select Tree) : List Tree :=
  s.source.toList ++ s.filter.toList ++ s.order.map SortKey.value ++ s.group ++ s.cluster ++
    s.skip.toList ++ s.take.toList ++ s.columns.map Column.value

/-- The clauses of a select other than its source. -/
def Select.others (s : Select Tree) : List Tree :=
  ({ s with source := none } : Select Tree).clauses

theorem Select.clauses_eq (s : Select Tree) : s.clauses = s.source.toList ++ s.others := by
  simp [clauses, others]

theorem Select.mem_clauses {s : Select Tree} : a ∈ s.clauses ↔ a ∈ s.source ∨ a ∈ s.others := by
  rw [s.clauses_eq, mem_append, Option.mem_toList, Option.mem_def]

/-- The trees directly below a tree, in the order in which they are read. -/
@[simp] def Tree.children : Tree → List Tree
  | .constant _ | .undefined _ | .parameter _ | .table _ _ | .column _ => []
  | .binary _ l r => [l, r]
  | .unary _ t | .isNull t | .member t _ | .entity _ t => [t]
  | .between t l u => [t, l, u]
  | .record fields => fields.map Prod.snd
  | .outerJoined test t => [test, t]
  | .select s _ => s.clauses
  | .join j _ => j.left :: j.right :: j.condition.toList
  | .scalarSubquery q _ | .existsSubquery q => [q]
  | .inSubquery t q => [t, q]
  | .aggregate _ t _ _ => t.toList
  | .rowNumber order => order.map SortKey.value
  | .projection q t _ => [q, t]

theorem Tree.children_anonymous (t : Tree) : t.anonymous.children = t.children := by
  cases t <;> rfl

/-! ## Walks -/

section

variable (stop : Tree → Bool)
include stop

theorem walkOption_eq (o : Option Tree) :
    walkOption stop o = o.toList.flatMap (walk stop) := by
  cases o <;> simp [walkOption, walk]

theorem walkList_eq (ts : List Tree) :
    walkList stop ts = ts.flatMap (walk stop) := by
  induction ts with
  | nil => rfl
  | cons t ts ih => simp [walkList, walk, ih]

theorem walkKeys_eq (ks : List (SortKey Tree)) :
    walkKeys stop ks = (ks.map SortKey.value).flatMap (walk stop) := by
  induction ks with
  | nil => rfl
  | cons k ks ih => cases k; simp [walkKeys, walk, ih]

theorem walkColumns_eq (cs : List (Column Tree)) :
    walkColumns stop cs = (cs.map Column.value).flatMap (walk stop) := by
  induction cs with
  | nil => rfl
  | cons c cs ih => cases c; simp [walkColumns, walk, ih]

theorem walkFields_eq (fs : List (String × Tree)) :
    walkFields stop fs = (fs.map Prod.snd).flatMap (walk stop) := by
  induction fs with
  | nil => rfl
  | cons f fs ih => cases f; simp [walkFields, walk, ih]

theorem Tree.inside_eq (t : Tree) :
    t.inside stop = t.children.flatMap (walk stop) := by
  cases t with
  | select s id =>
    cases s
    simp [inside, Select.inside, Select.clauses, walkOption_eq, walkList_eq,
      walkKeys_eq, walkColumns_eq, flatMap_append]
  | join j id =>
    cases j
    simp [inside, walkOption_eq, walk]
  | _ =>
    simp [inside, walk, walkOption_eq, walkKeys_eq, walkFields_eq]

theorem Tree.walk_eq (t : Tree) :
    t.walk stop = t :: if stop t then [] else t.children.flatMap (walk stop) := by
  rw [← inside_eq]; rfl

end

theorem Tree.subtrees_eq (t : Tree) : t.subtrees = t :: t.children.flatMap subtrees := by
  rw [subtrees, walk_eq]
  rfl

theorem Tree.mem_subtrees : u ∈ t.subtrees ↔ u = t ∨ ∃ c ∈ t.children, u ∈ c.subtrees := by
  rw [subtrees_eq, mem_cons, mem_flatMap]

theorem firstOccurrences_concat [BEq α] (l : List α) (a : α) : firstOccurrences (l ++ [a]) =
    if (firstOccurrences l).contains a then firstOccurrences l else firstOccurrences l ++ [a] := by
  rw [firstOccurrences, foldl_append]
  rfl

theorem mem_firstOccurrences [BEq α] [LawfulBEq α] {l : List α} {a : α} : a ∈ firstOccurrences l ↔ a ∈ l := by
  induction l using reverseRecOn with
  | nil => exact .rfl
  | append_singleton l b ih =>
    rw [firstOccurrences_concat]
    split
    · next hb =>
      rw [contains_iff_mem] at hb
      grind
    · grind

theorem Tree.mem_allColumns {c : ColumnRef} : c ∈ t.allColumns ↔ .column c ∈ t.subtrees := by
  rw [allColumns, mem_firstOccurrences, mem_filterMap]
  constructor
  · rintro ⟨u, hu, hc⟩
    cases u with
    | column d =>
      cases hc
      exact hu
    | _ => cases hc
  · exact fun h => ⟨_, h, rfl⟩

theorem Tree.mem_referenced {x : Alias} :
    x ∈ t.referenced ↔ (∃ c, t.column? = some c ∧ c.label = x) ∨ ∃ a ∈ t.children, x ∈ a.referenced := by
  simp only [referenced, mem_map, mem_allColumns, mem_subtrees (t := t), or_and_right, exists_or]
  refine or_congr ?_ ⟨?_, ?_⟩
  · refine exists_congr fun c => and_congr_left fun _ => ?_
    cases t <;> simp [column?, eq_comm]
  · rintro ⟨c, ⟨a, ha, hc⟩, hx⟩
    exact ⟨a, ha, c, hc, hx⟩
  · rintro ⟨a, ha, c, hc, hx⟩
    exact ⟨c, ⟨a, ha, hc⟩, hx⟩

/-- Something holds of a tree and of everything below it. -/
def Tree.Every (P : Tree → Prop) (t : Tree) : Prop :=
  ∀ u ∈ t.subtrees, P u

instance {P : Tree → Prop} [DecidablePred P] (t : Tree) : Decidable (t.Every P) :=
  inferInstanceAs (Decidable (∀ u ∈ t.subtrees, P u))

theorem Tree.every_iff : t.Every P ↔ P t ∧ ∀ u ∈ t.children, u.Every P := by
  constructor
  · intro h
    refine ⟨h t (mem_subtrees.2 (.inl rfl)), fun c hc u hu => ?_⟩
    exact h u (mem_subtrees.2 (.inr ⟨c, hc, hu⟩))
  · rintro ⟨ht, hchildren⟩ u hu
    rcases mem_subtrees.1 hu with rfl | ⟨c, hc, hu⟩
    · exact ht
    · exact hchildren c hc u hu

theorem Tree.Every.child (h : t.Every P) (ha : a ∈ t.children) : a.Every P := (every_iff.1 h).2 a ha

theorem Tree.declared_eq (t : Tree) : t.declared = t.label?.toList ++ t.children.flatMap declared := by
  simp only [declared]
  rw [subtrees_eq, filterMap_cons, filterMap_flatMap]
  cases t.label? <;> rfl

theorem Select.declared_eq (s : Select Tree) (i : Option Identity) : (Tree.select s i).declared =
      s.label :: (s.source.toList.flatMap Tree.declared ++ s.others.flatMap Tree.declared) := by
  rw [Tree.declared_eq, Tree.children, s.clauses_eq, flatMap_append]
  rfl

theorem Tree.declared_join (kind : JoinKind) (l r : Tree) (c : Option Tree) (i : Option Identity) :
    (join ⟨kind, l, r, c⟩ i).declared = l.declared ++ (r.declared ++ c.toList.flatMap declared) :=
  declared_eq _

theorem Tree.declared_projection (q shape : Tree) (i : Option Identity) :
    (projection q shape i).declared = q.declared ++ shape.declared := by
  rw [declared_eq]
  simp [label?]

theorem Tree.children_declared_sublist (t : Tree) :
    (t.children.flatMap declared).Sublist t.declared := by
  rw [t.declared_eq]
  exact sublist_append_right _ _

theorem Tree.hasAggregate_eq (t : Tree) :
    t.hasAggregate =
      (t.isAggregate || !(t.isSelect || t.isSubquery) && t.children.any hasAggregate) := by
  rw [hasAggregate, walk_eq, any_cons]
  cases t.isSelect || t.isSubquery
  · simp only [Bool.false_eq_true, if_false, any_flatMap, Bool.not_false, Bool.true_and]
    rfl
  · rfl

/-! ## Induction -/

theorem Tree.sizeOf_lt_of_mem_children (h : u ∈ t.children) : sizeOf u < sizeOf t := by
  cases t with
  | select s id =>
    cases s
    simp only [children, Select.clauses, mem_append, Option.mem_toList, mem_map] at h
    simp only [select.sizeOf_spec, Select.mk.sizeOf_spec]
    rcases h with ((((((h | h) | ⟨k, h, rfl⟩) | h) | h) | h) | h) | ⟨c, h, rfl⟩
    · subst h; simp; omega
    · subst h; simp; omega
    · have := sizeOf_lt_of_mem h
      cases k; simp at *; omega
    · have := sizeOf_lt_of_mem h
      omega
    · have := sizeOf_lt_of_mem h
      omega
    · subst h; simp; omega
    · subst h; simp; omega
    · have := sizeOf_lt_of_mem h
      cases c; simp at *; omega
  | join j id =>
    cases j
    simp only [children, mem_cons, Option.mem_toList] at h
    rcases h with rfl | rfl | rfl <;> simp <;> omega
  | record fields =>
    simp only [children, mem_map] at h
    obtain ⟨f, h, rfl⟩ := h
    have := sizeOf_lt_of_mem h
    cases f; simp at *; omega
  | rowNumber order =>
    simp only [children, mem_map] at h
    obtain ⟨k, h, rfl⟩ := h
    have := sizeOf_lt_of_mem h
    cases k; simp at *; omega
  | aggregate kind t d ty =>
    simp only [children, Option.mem_toList] at h
    subst h; simp; omega
  | _ => simp at h <;> (try rcases h with rfl | rfl | rfl) <;> simp <;> omega

/-- Induction along the children. -/
@[induction_eliminator]
theorem Tree.children_induction (step : ∀ t, (∀ u ∈ t.children, P u) → P t) (t : Tree) : P t :=
  step t fun u _ => Tree.children_induction step u
termination_by sizeOf t
decreasing_by exact sizeOf_lt_of_mem_children ‹_›

theorem Tree.Every.subtree (ht : t.Every P) (ha : a ∈ t.subtrees) : a.Every P := by
  induction t with
  | step t ih =>
    rcases mem_subtrees.1 ha with rfl | ⟨c, hc, ha⟩
    · exact ht
    · exact ih c hc (ht.child hc) ha

theorem Tree.mem_subtrees_column {c : ColumnRef} : a ∈ (column c).subtrees ↔ a = .column c := by
  rw [mem_subtrees]
  simp

theorem Tree.grandchildren_induction (step : ∀ t, (∀ u ∈ t.children, P u ∧ ∀ a ∈ u.children, P a) → P t)
    (t : Tree) : P t := by
  have h : P t ∧ ∀ u ∈ t.children, P u := by
    induction t with
    | step t ih => exact ⟨step t ih, fun u hu => (ih u hu).1⟩
  exact h.1

/-! ## Same nodes -/

/-- Two selects whose clauses differ in no more than the trees in them: the sources in one way, all others in
another. -/
structure Select.SameClauses (S R : Tree → Tree → Prop) (s s' : Select Tree) : Prop where
  source : Option.Rel S s.source s'.source
  filter : Option.Rel R s.filter s'.filter
  order : Forall₂ (fun k k' => k'.direction = k.direction ∧ R k.value k'.value) s.order s'.order
  group : Forall₂ R s.group s'.group
  cluster : Forall₂ R s.cluster s'.cluster
  skip : Option.Rel R s.skip s'.skip
  take : Option.Rel R s.take s'.take
  columns : Forall₂ (fun c c' => c'.name = c.name ∧ R c.value c'.value) s.columns s'.columns
  distinct : s'.distinct = s.distinct
  reverse : s'.reverse = s.reverse

/-- Two trees that agree in all but their children, and these are related. Identities do not count. -/
inductive Tree.SameNode (R : Tree → Tree → Prop) : Tree → Tree → Prop
  | constant (v : Value) : SameNode R (.constant v) (.constant v)
  | undefined (id : Identity) : SameNode R (.undefined id) (.undefined id)
  | parameter (p : Parameter) : SameNode R (.parameter p) (.parameter p)
  | binary (op : BinaryOp) {l r l' r' : Tree} : R l l' → R r r' →
      SameNode R (.binary op l r) (.binary op l' r')
  | unary (op : UnaryOp) {t t' : Tree} : R t t' → SameNode R (.unary op t) (.unary op t')
  | between {t l u t' l' u' : Tree} : R t t' → R l l' → R u u' →
      SameNode R (.between t l u) (.between t' l' u')
  | isNull {t t' : Tree} : R t t' → SameNode R (.isNull t) (.isNull t')
  | member (name : String) {t t' : Tree} : R t t' → SameNode R (.member t name) (.member t' name)
  | record {fields fields' : List (String × Tree)} :
      Forall₂ (fun f f' => f'.1 = f.1 ∧ R f.2 f'.2) fields fields' →
      SameNode R (.record fields) (.record fields')
  | entity (name : String) {t t' : Tree} : R t t' → SameNode R (.entity name t) (.entity name t')
  | outerJoined {test t test' t' : Tree} : R test test' → R t t' →
      SameNode R (.outerJoined test t) (.outerJoined test' t')
  | table (a : Alias) (name : String) : SameNode R (.table a name) (.table a name)
  | column (c : ColumnRef) : SameNode R (.column c) (.column c)
  | select {s s' : Select Tree} (id id' : Option Identity) : s'.label = s.label →
      s.SameClauses R R s' → SameNode R (.select s id) (.select s' id')
  | join (kind : JoinKind) {l r l' r' : Tree} {c c' : Option Tree} (id id' : Option Identity) :
      R l l' → R r r' → Option.Rel R c c' →
      SameNode R (.join ⟨kind, l, r, c⟩ id) (.join ⟨kind, l', r', c'⟩ id')
  | scalarSubquery (type : ScalarType) {q q' : Tree} : R q q' →
      SameNode R (.scalarSubquery q type) (.scalarSubquery q' type)
  | existsSubquery {q q' : Tree} : R q q' → SameNode R (.existsSubquery q) (.existsSubquery q')
  | inSubquery {t q t' q' : Tree} : R t t' → R q q' →
      SameNode R (.inSubquery t q) (.inSubquery t' q')
  | aggregate (kind : AggregateKind) {t t' : Option Tree} (distinct : Bool) (type : ScalarType) :
      Option.Rel R t t' →
      SameNode R (.aggregate kind t distinct type) (.aggregate kind t' distinct type)
  | rowNumber {order order' : List (SortKey Tree)} :
      Forall₂ (fun k k' => k'.direction = k.direction ∧ R k.value k'.value) order order' →
      SameNode R (.rowNumber order) (.rowNumber order')
  | projection {q t q' t' : Tree} (id id' : Option Identity) : R q q' → R t t' →
      SameNode R (.projection q t id) (.projection q' t' id')

/-- Two selects that differ in no more than the trees in them. -/
abbrev Select.SameHead (s s' : Select Tree) : Prop :=
  s.SameClauses (fun _ _ => True) (fun _ _ => True) s'

/-- Two trees that agree in all but their children. -/
abbrev Tree.SameHead (t u : Tree) : Prop :=
  t.SameNode (fun _ _ => True) u

theorem Select.SameClauses.imp {S' R' : Tree → Tree → Prop} (h : s.SameClauses S R s')
    (hS : ∀ a b, s.source = some a → S a b → S' a b) (hR : ∀ a b, a ∈ s.clauses → R a b → R' a b) :
    s.SameClauses S' R' s' where
  source := option_rel_imp h.source hS
  filter := option_rel_imp h.filter fun a b ha => hR a b (by simp [clauses, ha])
  order := forall₂_imp_mem h.order fun k k' hk hkk =>
    ⟨hkk.1, hR _ _ (by simp only [clauses, mem_append]; grind) hkk.2⟩
  group := forall₂_imp_mem h.group fun a b ha => hR a b (by simp [clauses, ha])
  cluster := forall₂_imp_mem h.cluster fun a b ha => hR a b (by simp [clauses, ha])
  skip := option_rel_imp h.skip fun a b ha => hR a b (by simp [clauses, ha])
  take := option_rel_imp h.take fun a b ha => hR a b (by simp [clauses, ha])
  columns := forall₂_imp_mem h.columns fun c c' hc hcc =>
    ⟨hcc.1, hR _ _ (mem_append_right _ (mem_map_of_mem hc)) hcc.2⟩
  distinct := h.distinct
  reverse := h.reverse

theorem Select.SameClauses.of_clauses (same : s.SameHead s')
    (h : Forall₂ R s.clauses s'.clauses) : s.SameClauses R R s' := by
  have hsource := (optionRel_iff.1 same.source).length_eq
  have hfilter := (optionRel_iff.1 same.filter).length_eq
  have hskip := (optionRel_iff.1 same.skip).length_eq
  have htake := (optionRel_iff.1 same.take).length_eq
  have horder := same.order.length_eq
  have hgroup := same.group.length_eq
  have hcluster := same.cluster.length_eq
  unfold clauses at h
  obtain ⟨h, columns⟩ := forall₂_of_append (by simp_all) h
  obtain ⟨h, take⟩ := forall₂_of_append (by simp_all) h
  obtain ⟨h, skip⟩ := forall₂_of_append (by simp_all) h
  obtain ⟨h, cluster⟩ := forall₂_of_append (by simp_all) h
  obtain ⟨h, group⟩ := forall₂_of_append (by simp_all) h
  obtain ⟨h, order⟩ := forall₂_of_append (by simp_all) h
  obtain ⟨source, filter⟩ := forall₂_of_append hsource h
  rw [forall₂_map_iff] at order columns
  exact ⟨optionRel_iff.2 source, optionRel_iff.2 filter,
    .mp (fun _ _ h h' => ⟨h.1, h'⟩) same.order order, group, cluster,
    optionRel_iff.2 skip, optionRel_iff.2 take,
    .mp (fun _ _ h h' => ⟨h.1, h'⟩) same.columns columns,
    same.distinct, same.reverse⟩

theorem Select.SameClauses.of_others (same : s.SameHead s')
    (source : Option.Rel S s.source s'.source) (others : Forall₂ R s.others s'.others) :
    s.SameClauses S R s' := by
  have h : SameClauses R R { s with source := none } { s' with source := none } :=
    of_clauses { same with source := .none } others
  exact { h with source := source }

theorem Tree.SameNode.of_children (same : t.SameHead u)
    (h : Forall₂ R t.children u.children) : t.SameNode R u := by
  cases same with
  | select id id' label same => exact .select id id' label (same.of_clauses h)
  | join kind id id' =>
    obtain ⟨hl, hr, hc⟩ : R _ _ ∧ R _ _ ∧ Forall₂ R _ _ := by simpa using h
    exact .join kind id id' hl hr (optionRel_iff.2 hc)
  | record same =>
    rw [children, children, forall₂_map_iff] at h
    exact .record (.mp (fun _ _ h h' => ⟨h.1, h'⟩) same h)
  | rowNumber same =>
    rw [children, children, forall₂_map_iff] at h
    exact .rowNumber (.mp (fun _ _ h h' => ⟨h.1, h'⟩) same h)
  | aggregate kind distinct type => exact .aggregate kind distinct type (optionRel_iff.2 h)
  | _ =>
    simp only [children, forall₂_cons, forall₂_nil_left_iff, and_true] at h
    constructor <;> simp_all

theorem Select.SameClauses.keys (h : s.SameClauses S R s') :
    Forall₂ R (s.order.map SortKey.value) (s'.order.map SortKey.value) :=
  forall₂_map_iff.2 (h.order.imp fun _ _ h => h.2)

theorem Select.SameClauses.values (h : s.SameClauses S R s') :
    Forall₂ R (s.columns.map Column.value) (s'.columns.map Column.value) :=
  forall₂_map_iff.2 (h.columns.imp fun _ _ h => h.2)

theorem Select.SameClauses.clauses (h : s.SameClauses R R s') : Forall₂ R s.clauses s'.clauses := by
  unfold Select.clauses
  exact rel_append (rel_append (rel_append (rel_append (rel_append
    (rel_append (rel_append (optionRel_iff.1 h.source) (optionRel_iff.1 h.filter)) h.keys)
    h.group) h.cluster) (optionRel_iff.1 h.skip)) (optionRel_iff.1 h.take)) h.values

theorem Select.SameClauses.others (h : s.SameClauses S R s') : Forall₂ R s.others s'.others :=
  clauses (R := R) { h with source := .none }

theorem Tree.SameNode.children (h : t.SameNode R u) : Forall₂ R t.children u.children := by
  cases h with
  | select id id' _ same => exact same.clauses
  | join kind id id' hl hr hc => exact .cons hl (.cons hr (optionRel_iff.1 hc))
  | record h =>
    exact forall₂_map_iff.2 (h.imp fun _ _ h => h.2)
  | rowNumber h =>
    exact forall₂_map_iff.2 (h.imp fun _ _ h => h.2)
  | aggregate kind distinct type h => exact optionRel_iff.1 h
  | constant | undefined | parameter | table | column => exact .nil
  | unary _ h | isNull h | member _ h | entity _ h | scalarSubquery _ h | existsSubquery h =>
    exact .cons h .nil
  | binary _ h h' | outerJoined h h' | inSubquery h h' | projection _ _ h h' =>
    exact .cons h (.cons h' .nil)
  | between h h' h'' => exact .cons h (.cons h' (.cons h'' .nil))

theorem Tree.SameNode.imp {R' : Tree → Tree → Prop} (h : t.SameNode R u)
    (hR : ∀ a b, a ∈ t.children → R a b → R' a b) : t.SameNode R' u := by
  refine of_children ?_ (forall₂_imp_mem h.children hR)
  cases h with
  | select id id' label same =>
    exact .select id id' label (same.imp (fun _ _ _ _ => trivial) fun _ _ _ _ => trivial)
  | join kind id id' _ _ hc =>
    exact .join kind id id' trivial trivial (option_rel_imp hc fun _ _ _ _ => trivial)
  | record h => exact .record (h.imp fun _ _ h => ⟨h.1, trivial⟩)
  | rowNumber h => exact .rowNumber (h.imp fun _ _ h => ⟨h.1, trivial⟩)
  | aggregate kind distinct type h =>
    exact .aggregate kind distinct type (option_rel_imp h fun _ _ _ _ => trivial)
  | _ => constructor <;> trivial

theorem Tree.SameNode.of_self (h : ∀ a ∈ t.children, R a a) : t.SameNode R t := by
  refine of_children ?_ (forall₂_same.2 h)
  have option : ∀ {α : Type} (o : Option α), Option.Rel (fun _ _ => True) o o := fun o => by
    cases o <;> constructor
    trivial
  have list : ∀ {α : Type} {P : α → α → Prop} (l : List α), (∀ a, P a a) → Forall₂ P l l :=
    fun l h => forall₂_same.2 fun a _ => h a
  cases t with
  | select s i =>
    exact .select i i rfl ⟨option _, option _, list _ fun _ => ⟨rfl, trivial⟩, list _ fun _ => trivial,
      list _ fun _ => trivial, option _, option _, list _ fun _ => ⟨rfl, trivial⟩, rfl, rfl⟩
  | join j i => exact .join j.kind i i trivial trivial (option _)
  | record fields => exact .record (list _ fun _ => ⟨rfl, trivial⟩)
  | rowNumber order => exact .rowNumber (list _ fun _ => ⟨rfl, trivial⟩)
  | aggregate kind t distinct type => exact .aggregate kind distinct type (option _)
  | _ => constructor <;> trivial

theorem Select.SameClauses.symm (h : s.SameClauses S R s') :
    s'.SameClauses (fun a b => S b a) (fun a b => R b a) s where
  source := optionRel_iff.2 (optionRel_iff.1 h.source).flip
  filter := optionRel_iff.2 (optionRel_iff.1 h.filter).flip
  order := h.order.flip.imp fun _ _ h => ⟨h.1.symm, h.2⟩
  group := h.group.flip
  cluster := h.cluster.flip
  skip := optionRel_iff.2 (optionRel_iff.1 h.skip).flip
  take := optionRel_iff.2 (optionRel_iff.1 h.take).flip
  columns := h.columns.flip.imp fun _ _ h => ⟨h.1.symm, h.2⟩
  distinct := h.distinct.symm
  reverse := h.reverse.symm

theorem Tree.SameNode.symm (h : t.SameNode R u) : u.SameNode (fun a b => R b a) t := by
  cases h with
  | select i j label same => exact .select j i label.symm same.symm
  | join kind i j hl hr hc => exact .join kind j i hl hr (optionRel_iff.2 (optionRel_iff.1 hc).flip)
  | projection i j hq hx => exact .projection j i hq hx
  | record h => exact .record (h.flip.imp fun _ _ h => ⟨h.1.symm, h.2⟩)
  | rowNumber h => exact .rowNumber (h.flip.imp fun _ _ h => ⟨h.1.symm, h.2⟩)
  | aggregate kind distinct type h => exact .aggregate kind distinct type (optionRel_iff.2 (optionRel_iff.1 h).flip)
  | _ => constructor <;> assumption

theorem Tree.SameNode.label? (h : t.SameNode R u) : u.label? = t.label? := by
  cases h with
  | select _ _ hlabel => exact congrArg some hlabel
  | _ => rfl

theorem Tree.SameNode.column? (h : t.SameNode R u) : u.column? = t.column? := by
  cases h <;> rfl

/-! ## Visiting -/

/-- What a computation with a state gives. An outcome of a composed computation is put together from
outcomes of its parts. -/
structure Outcome (m : Type → Type) [Monad m] (σ : Type) where
  gives : {α : Type} → m α → σ → α → σ → Prop
  of_pure : ∀ {α : Type} {a b : α} {s s' : σ}, gives (pure a) s b s' → b = a ∧ s' = s
  of_bind : ∀ {α β : Type} {x : m α} {f : α → m β} {s s' : σ} {b : β}, gives (x >>= f) s b s' →
    ∃ a s₁, gives x s a s₁ ∧ gives (f a) s₁ b s'

def Outcome.state (σ : Type) : Outcome (StateM σ) σ where
  gives x s a s' := x.run s = (a, s')
  of_pure h := by
    obtain ⟨rfl, rfl⟩ := Prod.mk.inj h
    exact ⟨rfl, rfl⟩
  of_bind {_ _ x _ s _ _} h := ⟨(x.run s).1, (x.run s).2, rfl, h⟩

def Outcome.plain : Outcome Id Unit where
  gives x _ a _ := x.run = a
  of_pure h := ⟨h.symm, rfl⟩
  of_bind {_ _ x _ _ _ _} h := ⟨x.run, (), rfl, h⟩

def Outcome.fallible (ε : Type) : Outcome (Except ε) Unit where
  gives x _ a _ := x = .ok a
  of_pure h := ⟨(Except.ok.inj h).symm, rfl⟩
  of_bind h := by
    obtain ⟨a, ha, h⟩ := bind_eq_ok.1 h
    exact ⟨a, (), ha, h⟩

/-- A list of steps, each one from the state that the one before leaves. -/
inductive Threaded {α β σ : Type} (step : α → σ → β → σ → Prop) : List α → σ → List β → σ → Prop
  | nil (s : σ) : Threaded step [] s [] s
  | cons {a : α} {s s₁ s₂ : σ} {b : β} {as : List α} {bs : List β} :
      step a s b s₁ → Threaded step as s₁ bs s₂ → Threaded step (a :: as) s (b :: bs) s₂

theorem Threaded.forall₂_exists {σ : Type} {step : α → σ → β → σ → Prop} {as : List α} {bs : List β}
    {s s' : σ} (h : Threaded step as s bs s') : Forall₂ (fun a b => ∃ m m', step a m b m') as bs := by
  induction h with
  | nil => exact .nil
  | cons ha _ ih => exact .cons ⟨_, _, ha⟩ ih

theorem Threaded.append {σ : Type} {step : α → σ → β → σ → Prop} {as as' : List α} {bs bs' : List β}
    {s s₁ s₂ : σ} (h : Threaded step as s bs s₁) (h' : Threaded step as' s₁ bs' s₂) :
    Threaded step (as ++ as') s (bs ++ bs') s₂ := by
  induction h with
  | nil => exact h'
  | cons head _ ih => exact .cons head (ih h')

theorem Threaded.source {σ : Type} {step : Tree → σ → Tree → σ → Prop} {st st' : σ}
    (same : s.SameHead s')
    (h : Threaded step s.clauses st s'.clauses st') :
    ∃ m, Threaded step s.source.toList st s'.source.toList m ∧ Threaded step s.others m s'.others st' := by
  rw [s.clauses_eq, s'.clauses_eq] at h
  have hsource := same.source
  revert h
  generalize s.source = o, s'.source = o' at hsource
  intro h
  cases hsource with
  | none => exact ⟨st, .nil st, h⟩
  | some =>
    cases h with
    | cons head rest => exact ⟨_, .cons head (.nil _), rest⟩

section Visit

variable {m : Type → Type} [Monad m] {σ : Type} (O : Outcome m σ) (v : Visitor m)

def Outcome.visits (t : Tree) (s : σ) (u : Tree) (s' : σ) : Prop := O.gives (t.visit v) s u s'

theorem visitOption_gives {o o' : Option Tree} {s s' : σ} (h : O.gives (visitOption v o) s o' s') :
    Option.Rel (fun _ _ => True) o o' ∧ Threaded (O.visits v) o.toList s o'.toList s' := by
  cases o with
  | none =>
    obtain ⟨rfl, rfl⟩ := O.of_pure h
    exact ⟨.none, .nil _⟩
  | some t =>
    obtain ⟨u, s₁, hu, h⟩ := O.of_bind h
    obtain ⟨rfl, rfl⟩ := O.of_pure h
    exact ⟨.some trivial, .cons hu (.nil _)⟩

/-- Where a tree stands in an item. -/
structure Slot (α : Type) where
  value : α → Tree
  put : α → Tree → α
  value_put : ∀ a t, value (put a t) = t

namespace Slot

abbrev tree : Slot Tree := ⟨id, fun _ t => t, fun _ _ => rfl⟩

abbrev key : Slot (SortKey Tree) := ⟨SortKey.value, fun k t => ⟨k.direction, t⟩, fun _ _ => rfl⟩

abbrev column : Slot (Column Tree) := ⟨Column.value, fun c t => ⟨c.name, t, c.type⟩, fun _ _ => rfl⟩

abbrev field : Slot (String × Tree) := ⟨Prod.snd, fun f t => (f.1, t), fun _ _ => rfl⟩

/-- Visits the trees in some items, one after the other. -/
def visit (S : Slot α) : List α → m (List α)
  | [] => pure []
  | a :: as => do
    let t ← (S.value a).visit v
    let as ← S.visit as
    return S.put a t :: as

theorem visit_gives (S : Slot α) {as bs : List α} {s s' : σ} (h : O.gives (S.visit v as) s bs s') :
    Forall₂ (fun a b => ∃ t, b = S.put a t) as bs ∧
      Threaded (O.visits v) (as.map S.value) s (bs.map S.value) s' := by
  induction as generalizing s bs with
  | nil =>
    obtain ⟨rfl, rfl⟩ := O.of_pure h
    exact ⟨.nil, .nil _⟩
  | cons a as ih =>
    obtain ⟨t, s₁, ht, h⟩ := O.of_bind h
    obtain ⟨bs, s₂, hbs, h⟩ := O.of_bind h
    obtain ⟨rfl, rfl⟩ := O.of_pure h
    rw [map_cons, map_cons, S.value_put]
    exact ⟨.cons ⟨t, rfl⟩ (ih hbs).1, .cons ht (ih hbs).2⟩

end Slot

theorem visitList_eq (ts : List Tree) : visitList v ts = Slot.tree.visit v ts := by
  induction ts with
  | nil => rfl
  | cons t ts ih => rw [visitList, ih]; rfl

theorem visitKeys_eq (ks : List (SortKey Tree)) : visitKeys v ks = Slot.key.visit v ks := by
  induction ks with
  | nil => rfl
  | cons k ks ih => rw [visitKeys, ih]; rfl

theorem visitColumns_eq (cs : List (Column Tree)) : visitColumns v cs = Slot.column.visit v cs := by
  induction cs with
  | nil => rfl
  | cons c cs ih => rw [visitColumns, ih]; rfl

theorem visitFields_eq (fs : List (String × Tree)) : visitFields v fs = Slot.field.visit v fs := by
  induction fs with
  | nil => rfl
  | cons f fs ih => rw [visitFields, ih]; rfl

theorem Select.visit_gives {st st' : σ} (h : O.gives (s.visit v) st s' st') :
    s'.label = s.label ∧ s.SameHead s' ∧
      ∃ st₁ st₂, Threaded (O.visits v) s.source.toList st s'.source.toList st₁ ∧
        O.gives (v.afterSource s'.source) st₁ () st₂ ∧
        Threaded (O.visits v) s.others st₂ s'.others st' := by
  cases s
  simp only [visit, visitList_eq, visitKeys_eq, visitColumns_eq] at h
  obtain ⟨source, st₁, h₁, rest⟩ := O.of_bind h
  obtain ⟨_, st₀, h₀, clauses⟩ := O.of_bind rest
  obtain ⟨filter, st₂, h₂, h⟩ := O.of_bind clauses
  obtain ⟨order, st₃, h₃, h⟩ := O.of_bind h
  obtain ⟨group, st₄, h₄, h⟩ := O.of_bind h
  obtain ⟨cluster, st₅, h₅, h⟩ := O.of_bind h
  obtain ⟨skip, st₆, h₆, h⟩ := O.of_bind h
  obtain ⟨take, st₇, h₇, h⟩ := O.of_bind h
  obtain ⟨columns, st₈, h₈, h⟩ := O.of_bind h
  obtain ⟨rfl, rfl⟩ := O.of_pure h
  have h₁ := visitOption_gives O v h₁
  have h₂ := visitOption_gives O v h₂
  have h₃ := Slot.visit_gives O v _ h₃
  have h₄ := Slot.visit_gives O v _ h₄
  have h₅ := Slot.visit_gives O v _ h₅
  rw [map_id, map_id] at h₄ h₅
  have h₆ := visitOption_gives O v h₆
  have h₇ := visitOption_gives O v h₇
  have h₈ := Slot.visit_gives O v _ h₈
  refine ⟨rfl, ⟨h₁.1, h₂.1, h₃.1.imp ?_, h₄.1.imp fun _ _ _ => trivial, h₅.1.imp fun _ _ _ => trivial, h₆.1, h₇.1,
    h₈.1.imp ?_, rfl, rfl⟩, st₁, st₀, h₁.2, h₀,
    ((((((h₂.2.append h₃.2).append h₄.2).append h₅.2).append h₆.2).append h₇.2).append h₈.2)⟩
  all_goals
    rintro a _ ⟨t, rfl⟩
    exact ⟨rfl, trivial⟩

theorem Tree.visit_select (s : Select Tree) (i : Option Identity) :
    ∃ rebuilt : m Tree, (select s i).visit v = v.around (.select s i) rebuilt ∧
      ∀ {st u st'}, O.gives rebuilt st u st' →
        ∃ s', u = .select s' (i.filter fun _ => s'.beq s) ∧ O.gives (s.visit v) st s' st' := by
  refine ⟨_, rfl, fun h => ?_⟩
  obtain ⟨s', st₁, hs, h⟩ := O.of_bind h
  obtain ⟨rfl, rfl⟩ := O.of_pure h
  exact ⟨s', rfl, hs⟩

theorem identity_kept {i : Option Identity} {b : Bool} (h : (i.filter fun _ => b).isSome = true) :
    b = true ∧ i.filter (fun _ => b) = i := by
  cases i <;> cases b <;> simp_all

/-- A visit rebuilds the node from its children, which are visited one after the other. -/
theorem Tree.visit_gives (t : Tree) (hv : t.isSelect = true → ∀ o, v.afterSource o = pure ()) :
    ∃ rebuilt : m Tree, t.visit v = v.around t rebuilt ∧
      ∀ {st u st'}, O.gives rebuilt st u st' → t.SameHead u ∧
        Threaded (O.visits v) t.children st u.children st' ∧
        (u.identity?.isSome = true → u.beq t = true) := by
  cases t with
  | constant x | undefined x | parameter p | table a name | column c =>
    refine ⟨_, rfl, fun h => ?_⟩
    obtain ⟨rfl, rfl⟩ := O.of_pure h
    exact ⟨by constructor, .nil _, by simp [identity?, beq]⟩
  | unary op t | isNull t | member t name | entity name t | scalarSubquery q type
  | existsSubquery q =>
    refine ⟨_, rfl, fun h => ?_⟩
    obtain ⟨u, st₁, hu, h⟩ := O.of_bind h
    obtain ⟨rfl, rfl⟩ := O.of_pure h
    exact ⟨by constructor; trivial, .cons hu (.nil _), nofun⟩
  | binary op l r | outerJoined l r | inSubquery l r =>
    refine ⟨_, rfl, fun h => ?_⟩
    obtain ⟨u, st₁, hu, h⟩ := O.of_bind h
    obtain ⟨u', st₂, hu', h⟩ := O.of_bind h
    obtain ⟨rfl, rfl⟩ := O.of_pure h
    exact ⟨by constructor <;> trivial, .cons hu (.cons hu' (.nil _)), nofun⟩
  | projection l r id =>
    refine ⟨_, rfl, fun h => ?_⟩
    obtain ⟨u, st₁, hu, h⟩ := O.of_bind h
    obtain ⟨u', st₂, hu', h⟩ := O.of_bind h
    obtain ⟨rfl, rfl⟩ := O.of_pure h
    refine ⟨by constructor <;> trivial, .cons hu (.cons hu' (.nil _)), fun h => ?_⟩
    obtain ⟨hbeq, hid⟩ := identity_kept h
    simpa [beq, hid] using hbeq
  | between t l r =>
    refine ⟨_, rfl, fun h => ?_⟩
    obtain ⟨u, st₁, hu, h⟩ := O.of_bind h
    obtain ⟨u', st₂, hu', h⟩ := O.of_bind h
    obtain ⟨u'', st₃, hu'', h⟩ := O.of_bind h
    obtain ⟨rfl, rfl⟩ := O.of_pure h
    exact ⟨by constructor <;> trivial, .cons hu (.cons hu' (.cons hu'' (.nil _))), nofun⟩
  | record fields =>
    refine ⟨_, rfl, fun h => ?_⟩
    obtain ⟨us, st₁, hu, h⟩ := O.of_bind h
    obtain ⟨rfl, rfl⟩ := O.of_pure h
    rw [visitFields_eq] at hu
    have hu := Slot.visit_gives O v _ hu
    refine ⟨.record (hu.1.imp ?_), hu.2, nofun⟩
    rintro f _ ⟨t, rfl⟩
    exact ⟨rfl, trivial⟩
  | rowNumber order =>
    refine ⟨_, rfl, fun h => ?_⟩
    obtain ⟨us, st₁, hu, h⟩ := O.of_bind h
    obtain ⟨rfl, rfl⟩ := O.of_pure h
    rw [visitKeys_eq] at hu
    have hu := Slot.visit_gives O v _ hu
    refine ⟨.rowNumber (hu.1.imp ?_), hu.2, nofun⟩
    rintro k _ ⟨t, rfl⟩
    exact ⟨rfl, trivial⟩
  | aggregate kind t distinct type =>
    refine ⟨_, rfl, fun h => ?_⟩
    obtain ⟨us, st₁, hu, h⟩ := O.of_bind h
    obtain ⟨rfl, rfl⟩ := O.of_pure h
    have hu := visitOption_gives O v hu
    exact ⟨.aggregate kind distinct type hu.1, hu.2, nofun⟩
  | select s id =>
    refine ⟨_, rfl, fun h => ?_⟩
    obtain ⟨us, st₁, hu, h⟩ := O.of_bind h
    obtain ⟨rfl, rfl⟩ := O.of_pure h
    obtain ⟨hlabel, hsame, st₂, st₃, hsource, hafter, hothers⟩ := Select.visit_gives O v hu
    rw [hv rfl] at hafter
    obtain ⟨-, rfl⟩ := O.of_pure hafter
    refine ⟨.select _ _ hlabel hsame, ?_, fun h => ?_⟩
    · simp only [children, Select.clauses_eq]
      exact hsource.append hothers
    · obtain ⟨hbeq, hid⟩ := identity_kept h
      simpa [beq, hid] using hbeq
  | join j id =>
    cases j
    refine ⟨_, rfl, fun h => ?_⟩
    obtain ⟨u, st₁, hu, h⟩ := O.of_bind h
    obtain ⟨u', st₂, hu', h⟩ := O.of_bind h
    obtain ⟨c, st₃, hc, h⟩ := O.of_bind h
    obtain ⟨rfl, rfl⟩ := O.of_pure h
    have hc := visitOption_gives O v hc
    refine ⟨.join _ _ _ trivial trivial hc.1, .cons hu (.cons hu' hc.2), fun h => ?_⟩
    obtain ⟨hbeq, hid⟩ := identity_kept h
    simpa [beq, hid, and_assoc] using hbeq

theorem Tree.bottomUp_outcome {replace : Tree → m Tree} {st st' : σ}
    (h : O.gives (t.bottomUp replace) st u st') :
    ∃ v st₁, t.SameHead v ∧
      Threaded (fun a => O.gives (a.bottomUp replace)) t.children st v.children st₁ ∧
      O.gives (replace v) st₁ u st' ∧ (v.identity?.isSome = true → v.beq t = true) := by
  obtain ⟨rebuilt, hvisit, hgives⟩ := visit_gives O
    ⟨fun _ rebuilt => rebuilt >>= replace, fun _ => pure ()⟩ t fun _ _ => rfl
  rw [bottomUp, hvisit] at h
  obtain ⟨v, st₁, hv, hreplace⟩ := O.of_bind h
  obtain ⟨hsame, hchildren, hidentity⟩ := hgives hv
  exact ⟨v, st₁, hsame, hchildren, hreplace, hidentity⟩

theorem Tree.bottomUp_rel {replace : Tree → m Tree}
    (node : ∀ {a v b : Tree} {st st'}, a.SameNode R v → O.gives (replace v) st b st' → R a b) {st st' : σ}
    (h : O.gives (t.bottomUp replace) st u st') : R t u := by
  induction t generalizing u st st' with
  | step t ih =>
    obtain ⟨v, st₁, same, children, hreplace, -⟩ := bottomUp_outcome O h
    refine node (same.of_children (forall₂_imp_mem children.forall₂_exists fun a b ha hab => ?_)) hreplace
    obtain ⟨_, _, hab⟩ := hab
    exact ih a ha hab

theorem Tree.bottomUp_every {replace : Tree → m Tree} {Q : Tree → Prop}
    (same : ∀ {a b : Tree}, a.SameHead b → P a → P b)
    (node : ∀ {a b : Tree} {st st'}, O.gives (replace a) st b st' → P a → (∀ x ∈ a.children, x.Every Q) → b.Every Q)
    {st st' : σ} (h : O.gives (t.bottomUp replace) st u st') (ht : t.Every P) : u.Every Q := by
  have hrel := bottomUp_rel O (R := fun t u => t.Every P → u.Every Q) (fun {a v _ _ _} hsame hnode ha => ?_) h
  · exact hrel ht
  · obtain ⟨hroot, hchildren⟩ := every_iff.1 ha
    refine node hnode (same (hsame.imp fun _ _ _ _ => trivial) hroot) fun b hb => ?_
    obtain ⟨c, hc, hcb⟩ := forall₂_mem_right hsame.children hb
    exact hcb (hchildren c hc)

end Visit

theorem Tree.bottomUp_node (replace : Tree → Tree) (t : Tree) :
    ∃ v, t.SameNode (fun a b => b = Id.run (a.bottomUp fun u => pure (replace u))) v ∧
      Id.run (t.bottomUp fun u => pure (replace u)) = replace v := by
  have hgives : Outcome.plain.gives (t.bottomUp fun u => (pure (replace u) : Id Tree)) ()
      (Id.run (t.bottomUp fun u => pure (replace u))) () := rfl
  obtain ⟨v, _, same, children, hnode, -⟩ := bottomUp_outcome .plain hgives
  refine ⟨v, same.of_children (children.forall₂_exists.imp fun a b hab => ?_), hnode.symm⟩
  obtain ⟨_, _, hab⟩ := hab
  exact hab.symm

theorem Tree.fold_gives {t u : Tree} (h : t.fold = .ok u) :
    (Outcome.fallible ValueError).gives (t.bottomUp foldNode) () u () := h

end HiveQuery
