import HiveQuery.Proofs.KeptForms
import HiveQuery.Proofs.PagingScopes
import HiveQuery.Sql.Text

/-!
# Trees that have a text

A tree has a text if each of its parts stands where it can be spelled, no rows are left to be skipped, bounds are
constants, and each alias that it reads has a name.
-/

namespace HiveQuery

variable {x : Alias} {o : Option Tree} {s : Select Tree} {a : Tree}
open List

/-! ## Forms -/

/-- The children of a tree that are used as sources. -/
def Tree.sides : Tree → List Tree
  | .select s _ => s.source.toList
  | .join j _ => [j.left, j.right]
  | _ => []

/-- The kinds of trees that are spelled as scalars, row numbers only where there are windows. -/
def Tree.isScalarForm (windows : Bool) : Tree → Bool
  | .constant _ | .undefined _ | .parameter _ | .column _ | .binary _ _ _ | .unary _ _ | .between _ _ _
  | .isNull _ | .select _ _ | .scalarSubquery _ _ | .existsSubquery _ | .inSubquery _ _
  | .aggregate _ _ _ _ => true
  | .rowNumber _ => windows
  | _ => false

/-- Rows are skipped and taken by constant numbers, of which something holds. -/
@[mk_iff]
structure Select.Bounded (B : Option Int64 → Option Int64 → Prop) (s : Select Tree) : Prop where
  skip : ∀ a ∈ s.skip, a.count?.isSome = true
  take : ∀ a ∈ s.take, a.count?.isSome = true
  bounds : B (s.skip.bind Tree.count?) (s.take.bind Tree.count?)

/-- The parts of one node stand where they can be spelled. -/
@[mk_iff]
structure Tree.NodeFormed (windows : Bool) (B : Option Int64 → Option Int64 → Prop) (t : Tree) : Prop where
  operands : ∀ a ∈ t.operands, a.isScalarForm windows = true
  sides : ∀ a ∈ t.sides, a.isSource = true
  join : ∀ j ∈ t.join?, (Sql.joinWords? j.kind).isSome = true
  select : ∀ s ∈ t.select?, s.reverse = false ∧ s.Bounded B

/-- All parts of a tree stand where they can be spelled. -/
def Tree.Formed (windows : Bool) (B : Option Int64 → Option Int64 → Prop) (t : Tree) : Prop :=
  t.Every (Tree.NodeFormed windows B)

section Decidable

variable (windows : Bool) (B : Option Int64 → Option Int64 → Prop) [∀ m n, Decidable (B m n)]

instance (s : Select Tree) : Decidable (s.Bounded B) :=
  decidable_of_iff _ (s.bounded_iff B).symm

instance (t : Tree) : Decidable (t.NodeFormed windows B) :=
  decidable_of_iff _ (t.nodeFormed_iff windows B).symm

instance (t : Tree) : Decidable (t.Formed windows B) :=
  inferInstanceAs (Decidable (t.Every (Tree.NodeFormed windows B)))

end Decidable

def unskippedBounds (skip _take : Option Int64) : Prop :=
  skip = none

/-! ## Names -/

variable {t u : Tree} {windows : Bool} {B : Option Int64 → Option Int64 → Prop}

theorem Tree.mem_sourceOrder : x ∈ t.sourceOrder ↔ ∃ u ∈ t.subtrees, x ∈ u.introduces := by
  rw [sourceOrder, mem_firstOccurrences, mem_flatMap]

theorem Tree.introduces_of_sides (ha : a ∈ t.sides) (hx : a.label? = some x) : x ∈ t.introduces := by
  cases t with
  | select s i =>
    have hs : s.source = some a := Option.mem_toList.1 ha
    simp [introduces, hs, hx]
  | join j i =>
    simp only [sides, mem_cons, not_mem_nil, or_false] at ha
    rcases ha with rfl | rfl
    · simp [introduces, hx]
    · simp [introduces, hx]
  | _ => cases ha

theorem Tree.mem_children_of_sides (h : a ∈ t.sides) : a ∈ t.children := by
  cases t with
  | select s i => exact Select.mem_clauses.2 (.inl (Option.mem_toList.1 h))
  | join j i =>
    simp only [sides, mem_cons, not_mem_nil, or_false] at h
    rcases h with rfl | rfl <;> simp
  | _ => cases h

theorem Tree.mem_operands_or_sides (h : a ∈ t.children) : a ∈ t.operands ∨ a ∈ t.sides := by
  cases t with
  | select s i =>
    rw [children, s.clauses_eq, mem_append] at h
    exact h.symm.imp_left Select.mem_others.1
  | join j i =>
    simp only [children, mem_cons, Option.mem_toList] at h
    simp only [operands, sides, Option.mem_toList, mem_cons, not_mem_nil, or_false]
    tauto
  | _ => exact .inl h

theorem Tree.Formed.every {P : Tree → Prop} (h : t.Formed windows B) (root : P t)
    (scalar : ∀ a, a.isScalarForm windows = true → P a) (source : ∀ a, a.isSource = true → P a) :
    t.Every P := by
  induction t with
  | step t ih =>
    obtain ⟨hnode, hchildren⟩ := every_iff.1 h
    refine every_iff.2 ⟨root, fun a ha => ih a ha (hchildren a ha) ?_⟩
    rcases mem_operands_or_sides ha with ha | ha
    · exact scalar a (hnode.operands a ha)
    · exact source a (hnode.sides a ha)

theorem Tree.mem_subtrees_trans {b : Tree} (hb : b ∈ a.subtrees) (ha : a ∈ t.subtrees) : b ∈ t.subtrees := by
  induction t with
  | step t ih =>
    rcases mem_subtrees.1 ha with rfl | ⟨c, hc, ha⟩
    · exact hb
    · exact mem_subtrees.2 (.inr ⟨c, hc, ih c hc ha⟩)

theorem Tree.child_mem_subtrees (ha : a ∈ t.children) : a ∈ t.subtrees :=
  mem_subtrees.2 (.inr ⟨a, ha, mem_subtrees.2 (.inl rfl)⟩)

theorem Tree.sources_of_sides (ha : a ∈ t.sides) (hx : x ∈ a.sources) : x ∈ t.sourceOrder := by
  induction a generalizing t with
  | step a ih =>
    cases hlabel : a.label? with
    | some y =>
      rw [sources_of_label hlabel, mem_singleton] at hx
      subst hx
      exact mem_sourceOrder.2 ⟨t, mem_subtrees.2 (.inl rfl), introduces_of_sides ha hlabel⟩
    | none =>
      have hchild := child_mem_subtrees (mem_children_of_sides ha)
      cases a with
      | join j i =>
        obtain ⟨b, hb, hx⟩ : ∃ b ∈ (join j i).sides, x ∈ b.sources := by
          rcases mem_append.1 hx with hx | hx
          · exact ⟨j.left, by simp [sides], hx⟩
          · exact ⟨j.right, by simp [sides], hx⟩
        obtain ⟨v, hv, hx⟩ := mem_sourceOrder.1 (ih b (mem_children_of_sides hb) hb hx)
        exact mem_sourceOrder.2 ⟨v, mem_subtrees_trans hv hchild, hx⟩
      | table | select => cases hlabel
      | _ => cases hx

def Tree.isProjection : Tree → Bool
  | .projection _ _ _ => true
  | _ => false

theorem Tree.bindings_introduced (h : t.isProjection = false) {p : List Alias × Tree} (hp : p ∈ t.bindings)
    (hx : x ∈ p.1) : x ∈ t.sourceOrder := by
  cases t with
  | projection => cases h
  | select s i =>
    rcases mem_append.1 hp with hp | hp
    · obtain ⟨a, -, rfl⟩ := mem_map.1 hp
      cases hx
    · obtain ⟨a, -, rfl⟩ := mem_map.1 hp
      obtain ⟨b, hb, hx⟩ := Select.mem_sourceAliases.1 hx
      exact sources_of_sides (Option.mem_toList.2 hb) hx
  | join j i =>
    obtain ⟨kind, l, r, c⟩ := j
    have hside : ∀ a ∈ [l, r], x ∈ a.sources → x ∈ (join ⟨kind, l, r, c⟩ i).sourceOrder := fun a ha =>
      sources_of_sides ha
    simp only [bindings, mem_cons, mem_map] at hp
    rcases hp with rfl | rfl | ⟨a, -, rfl⟩
    · cases hx
    · dsimp only at hx
      split at hx
      · exact hside l (by simp) hx
      · cases hx
    · rcases mem_append.1 hx with hx | hx
      · exact hside l (by simp) hx
      · exact hside r (by simp) hx
  | _ =>
    obtain ⟨a, -, rfl⟩ := mem_map.1 hp
    cases hx

theorem Tree.sourceOrder_of_child (ha : a ∈ t.children) (hx : x ∈ a.sourceOrder) : x ∈ t.sourceOrder := by
  obtain ⟨v, hv, hx⟩ := mem_sourceOrder.1 hx
  exact mem_sourceOrder.2 ⟨v, mem_subtrees_trans hv (child_mem_subtrees ha), hx⟩

/-- The aliases that a tree needs from outside and those that it introduces have names. -/
structure Tree.Named (names : List Alias) (t : Tree) : Prop where
  needs : ∀ c, t.Needs c → c.label ∈ names
  introduced : ∀ x ∈ t.sourceOrder, x ∈ names

theorem Tree.Named.of_checkScopes (h : t.checkScopes = .ok ()) : t.Named t.sourceOrder :=
  ⟨fun c hc => absurd hc (checkScopes_iff.1 h c), fun _ => id⟩

/-- Names for a tree are names for its parts. -/
theorem Tree.Named.child {names : List Alias} (h : t.Named names) (plain : t.isProjection = false)
    (ha : a ∈ t.children) : a.Named names where
  needs c hc := by
    obtain ⟨own, hown⟩ := exists_binding ha
    by_cases hmem : c.label ∈ own
    · exact h.introduced _ (bindings_introduced plain hown hmem)
    · exact h.needs c (.child hown hmem hc)
  introduced x hx := h.introduced x (sourceOrder_of_child ha hx)

theorem Tree.Named.side {names : List Alias} (h : t.Named names) (ha : a ∈ t.sides) (hx : a.label? = some x) :
    x ∈ names :=
  h.introduced x (mem_sourceOrder.2 ⟨t, mem_subtrees.2 (.inl rfl), introduces_of_sides ha hx⟩)

/-! ## Text -/

def FailsOnly (E : SqlError → Prop) {α : Type} (x : Except SqlError α) : Prop :=
  ∀ e, x = .error e → E e

/-- All errors but those about names may occur. -/
def Lenient (E : SqlError → Prop) : Prop :=
  ∀ e, (∀ a, e ≠ .undeclared a) → E e

variable {E : SqlError → Prop}

namespace FailsOnly

variable {α β : Type}

theorem ok (a : α) : FailsOnly E (.ok a) := nofun

theorem pure (a : α) : FailsOnly E (Pure.pure a) := nofun

theorem error {e : SqlError} (h : E e) : FailsOnly E (.error e : Except SqlError α) := by
  rintro _ ⟨⟩
  exact h

theorem error_or {P : Prop} {e : SqlError} (h : Lenient E ∨ P) (he : ∀ a, e ≠ .undeclared a) (hP : ¬ P) :
    FailsOnly E (.error e : Except SqlError α) :=
  .error (h.resolve_right hP e he)

theorem bind {x : Except SqlError α} {f : α → Except SqlError β} (hx : FailsOnly E x)
    (hf : ∀ a, FailsOnly E (f a)) : FailsOnly E (x >>= f) := by
  cases x with
  | error e => exact .error (hx e rfl)
  | ok a => exact hf a

theorem mapM {f : α → Except SqlError β} {as : List α} (h : ∀ a ∈ as, FailsOnly E (f a)) :
    FailsOnly E (as.mapM f) := by
  induction as with
  | nil => exact .ok _
  | cons a as ih =>
    rw [forall_mem_cons] at h
    rw [mapM_cons]
    exact h.1.bind fun _ => (ih h.2).bind fun _ => .pure _

end FailsOnly

variable {cx : Sql.Context}

theorem Sql.Context.failsOnly_name {a : Alias} (h : a ∈ cx.sources) : FailsOnly E (cx.name a) := by
  unfold name
  split
  · exact .ok _
  · next hnone =>
    rw [findIdx?_eq_none_iff] at hnone
    exact absurd (hnone a h) (by simp)

theorem failsOnly_keysSql {ks : List (SortKey Tree)} (h : ∀ k ∈ ks, FailsOnly E (k.value.scalarSql cx))
    (invert : Bool) : FailsOnly E (keysSql cx invert ks) := by
  rw [keysSql_eq]
  exact .mapM fun k hk => (h k hk).bind fun _ => .pure _

theorem failsOnly_limitOf (h : Lenient E ∨ ∀ a ∈ o, a.count?.isSome = true) : FailsOnly E (Sql.limitOf o) := by
  rcases h with h | h
  · unfold Sql.limitOf
    split
    · exact .ok _
    · split
      · exact .ok _
      · exact .error (h _ nofun)
    · exact .error (h _ nofun)
  · cases o with
    | none => exact .ok _
    | some a =>
      obtain ⟨i, hi⟩ := Option.isSome_iff_exists.1 (h a rfl)
      rw [Tree.count?_eq_some] at hi
      subst hi
      exact .ok _

theorem failsOnly_fromSql (h : ∀ a ∈ o, FailsOnly E (a.sourceSql cx)) : FailsOnly E (fromSql cx o) := by
  cases o with
  | none => exact .ok _
  | some a => exact (h a rfl).bind fun _ => .pure _

theorem failsOnly_conditionSql (h : ∀ a ∈ o, FailsOnly E (a.scalarSql cx)) (word : String) :
    FailsOnly E (conditionSql cx word o) := by
  cases o with
  | none => exact .ok _
  | some a => exact (h a rfl).bind fun _ => .pure _

theorem Select.skip_eq_none (bounded : s.Bounded unskippedBounds) : s.skip = none := by
  cases hs : s.skip with
  | none => rfl
  | some a =>
    have hnone : s.skip.bind Tree.count? = none := bounded.bounds
    have hsome := bounded.skip a hs
    rw [hs, Option.bind_some] at hnone
    rw [hnone] at hsome
    cases hsome

theorem Select.failsOnly_sql (source : ∀ a ∈ s.source, FailsOnly E (a.sourceSql cx))
    (others : ∀ a ∈ s.others, FailsOnly E (a.scalarSql cx))
    (formed : Lenient E ∨ s.reverse = false ∧ s.Bounded unskippedBounds) : FailsOnly E (s.sql cx) := by
  obtain ⟨hfilter, horder, hgroup, hcluster, -, -, hcolumns⟩ := forall_others.1 others
  have hskip : Lenient E ∨ s.skip = none := formed.imp_right fun h => skip_eq_none h.2
  have hreverse : Lenient E ∨ s.reverse = false := formed.imp_right And.left
  have htake := formed.imp_right fun h => h.2.take
  cases s
  rw [sql]
  split
  · next h => exact .error_or hskip (by simp) fun hnone => by simp_all
  · rw [columnsSql_eq, listSql_eq, listSql_eq]
    refine (FailsOnly.mapM fun c hc => (hcolumns c hc).bind fun _ => .pure _).bind fun _ =>
      (failsOnly_fromSql source).bind fun _ => (failsOnly_conditionSql hfilter _).bind fun _ =>
        (FailsOnly.mapM hgroup).bind fun _ => (FailsOnly.mapM hcluster).bind fun _ => .bind ?_ fun _ =>
          (failsOnly_limitOf htake).bind fun _ => .pure _
    split
    · next h => exact .error_or hreverse (by simp) fun hfalse => by simp_all
    · exact failsOnly_keysSql horder _

structure Tree.Written (E : SqlError → Prop) (cx : Sql.Context) (t : Tree) : Prop where
  scalar : Lenient E ∨ t.isScalarForm cx.dialect.allowsRowNumber = true → FailsOnly E (t.scalarSql cx)
  source : Lenient E ∨ t.isSource = true → (∀ x, t.label? = some x → x ∈ cx.sources) →
    FailsOnly E (t.sourceSql cx)

theorem Select.written {i : Option Identity}
    (formed : Lenient E ∨ (Tree.select s i).NodeFormed cx.dialect.allowsRowNumber unskippedBounds)
    (named : (Tree.select s i).Named cx.sources) (children : ∀ a ∈ s.clauses, a.Written E cx) :
    FailsOnly E (s.sql cx) := by
  refine failsOnly_sql (fun a ha => ?_) (fun a ha => ?_) (formed.imp_right fun h => h.select s rfl)
  · have hside : a ∈ (Tree.select s i).sides := Option.mem_toList.2 ha
    exact (children a (Tree.mem_children_of_sides hside)).source (formed.imp_right fun h => h.sides a hside)
      fun x => named.side hside
  · refine (children a (mem_clauses.2 (.inr ha))).scalar (formed.imp_right fun h => ?_)
    exact h.operands a (mem_others.1 ha)

theorem Tree.Written.of_children
    (formed : Lenient E ∨ t.NodeFormed cx.dialect.allowsRowNumber unskippedBounds) (named : t.Named cx.sources)
    (children : ∀ a ∈ t.children, a.Written E cx) : t.Written E cx where
  scalar form := by
    have hoperand : ∀ a ∈ t.operands, FailsOnly E (a.scalarSql cx) := fun a ha =>
      (children a (mem_children_of_operands ha)).scalar (formed.imp_right fun h => h.operands a ha)
    cases t with
    | constant | undefined | parameter => exact .ok _
    | column c => exact (Sql.Context.failsOnly_name (named.needs c .column)).bind fun _ => .pure _
    | binary op l r =>
      simp only [Tree.operands, Tree.children, forall_mem_cons] at hoperand
      exact hoperand.1.bind fun _ => hoperand.2.1.bind fun _ => .pure _
    | unary op a =>
      simp only [Tree.operands, Tree.children, forall_mem_cons] at hoperand
      cases op <;> exact hoperand.1.bind fun _ => .pure _
    | between a l r =>
      simp only [Tree.operands, Tree.children, forall_mem_cons] at hoperand
      exact hoperand.1.bind fun _ => hoperand.2.1.bind fun _ => hoperand.2.2.1.bind fun _ => .pure _
    | isNull a =>
      simp only [Tree.operands, Tree.children, forall_mem_cons] at hoperand
      exact hoperand.1.bind fun _ => .pure _
    | outerJoined test a => exact hoperand a (.tail _ (.head _))
    | select s i => exact (Select.written formed named children).bind fun _ => .pure _
    | scalarSubquery q type => exact hoperand q mem_cons_self
    | existsSubquery q => exact (hoperand q mem_cons_self).bind fun _ => .pure _
    | inSubquery a q =>
      simp only [Tree.operands, Tree.children, forall_mem_cons] at hoperand
      exact hoperand.1.bind fun _ => hoperand.2.1.bind fun _ => .pure _
    | aggregate kind a distinct type =>
      refine .bind ?_ fun _ => .pure _
      cases a with
      | none => exact .ok _
      | some a => exact hoperand a mem_cons_self
    | rowNumber order =>
      rw [Tree.scalarSql]
      split
      · exact (failsOnly_keysSql (fun k hk => hoperand _ (mem_map_of_mem hk)) false).bind fun _ => .pure _
      · next h => exact .error_or form (by simp) h
    | _ => exact .error_or form (by simp) Bool.false_ne_true
  source form label := by
    cases t with
    | table a name => exact (Sql.Context.failsOnly_name (label a rfl)).bind fun _ => .pure _
    | select s i =>
      exact (Select.written formed named children).bind fun _ =>
        (Sql.Context.failsOnly_name (label s.label rfl)).bind fun _ => .pure _
    | join j i =>
      obtain ⟨kind, l, r, c⟩ := j
      have hside : ∀ a ∈ (Tree.join ⟨kind, l, r, c⟩ i).sides, FailsOnly E (a.sourceSql cx) := fun a ha =>
        (children a (mem_children_of_sides ha)).source (formed.imp_right fun h => h.sides a ha) fun x =>
          named.side ha
      have hcondition : ∀ a ∈ c, FailsOnly E (a.scalarSql cx) := fun a ha => by
        have ha : a ∈ (Tree.join ⟨kind, l, r, c⟩ i).operands := Option.mem_toList.2 ha
        exact (children a (mem_children_of_operands ha)).scalar (formed.imp_right fun h => h.operands a ha)
      simp only [Tree.sides, forall_mem_cons] at hside
      rw [Tree.sourceSql]
      split
      · next h => exact .error_or formed (by simp) fun formed => by simpa [h] using formed.join _ rfl
      · exact hside.1.bind fun _ => hside.2.1.bind fun _ => (failsOnly_conditionSql hcondition _).bind fun _ =>
          .pure _
    | _ => exact .error_or form (by simp) Bool.false_ne_true

theorem Tree.written (formed : Lenient E ∨ t.Formed cx.dialect.allowsRowNumber unskippedBounds)
    (named : t.Named cx.sources) : t.Written E cx := by
  induction t with
  | step t ih =>
    cases hplain : t.isProjection with
    | true =>
      cases t with
      | projection =>
        exact ⟨fun form => .error_or form (by simp) Bool.false_ne_true,
          fun form _ => .error_or form (by simp) Bool.false_ne_true⟩
      | _ => cases hplain
    | false =>
      refine .of_children (formed.imp_right fun h => (every_iff.1 h).1) named fun a ha => ?_
      exact ih a ha (formed.imp_right fun h => (every_iff.1 h).2 a ha) (named.child hplain ha)

/-- The errors of the statement of a select. -/
theorem Tree.failsOnly_toSql {dialect : Dialect} (scopes : t.checkScopes = .ok ())
    (formed : Lenient E ∨ t.isSelect = true ∧ t.Formed dialect.allowsRowNumber unskippedBounds) :
    FailsOnly E (t.toSql dialect) := by
  cases t with
  | select s i =>
    have hnamed := Tree.Named.of_checkScopes scopes
    have hformed := formed.imp_right fun h => every_iff.1 h.2
    refine Select.written (i := i) (hformed.imp_right And.left) hnamed fun a ha => ?_
    exact written (hformed.imp_right fun h => h.2 a ha) (hnamed.child rfl ha)
  | _ => exact .error (formed.elim (· _ nofun) fun h => nomatch h.1)

/-- A select whose parts can be spelled has a statement. -/
theorem Tree.exists_toSql {dialect : Dialect} (select : t.isSelect = true)
    (formed : t.Formed dialect.allowsRowNumber unskippedBounds) (scopes : t.checkScopes = .ok ()) :
    ∃ text, t.toSql dialect = .ok text := by
  cases h : t.toSql dialect with
  | ok text => exact ⟨text, rfl⟩
  | error e => exact (failsOnly_toSql scopes (E := fun _ => False) (.inr ⟨select, formed⟩) e h).elim

/-! ## Names of sources -/

variable {t : Tree} {cx : Sql.Context} {a b : Alias} {name : String} {c : ColumnRef} {view : List Alias}

theorem Sql.Context.name_eq_ok :
    cx.name a = .ok name ↔ ∃ n, cx.sources.findIdx? (· == a) = some n ∧ name = "t" ++ toString n := by
  unfold Sql.Context.name
  split
  · next n hn => simp [hn, eq_comm]
  · next hn => simp [hn]

theorem Sql.Context.name_inj (ha : cx.name a = .ok name) (hb : cx.name b = .ok name) : a = b := by
  obtain ⟨n, hn, rfl⟩ := name_eq_ok.1 ha
  obtain ⟨m, hm, htext⟩ := name_eq_ok.1 hb
  obtain rfl : n = m := toString_nat_inj ((String.append_right_inj "t").1 htext)
  obtain ⟨_, hna, -⟩ := findIdx?_eq_some_iff_getElem.1 hn
  obtain ⟨_, hnb, -⟩ := findIdx?_eq_some_iff_getElem.1 hm
  exact (beq_iff_eq.1 hna).symm.trans (beq_iff_eq.1 hnb)

/-- The source that a name means where the given ones are in view, the innermost first. -/
def Sql.Context.resolve? (cx : Sql.Context) (view : List Alias) (name : String) : Option Alias :=
  view.find? fun a => (cx.name a).toOption == some name

theorem Sql.Context.resolve?_name (ha : a ∈ view) (hname : cx.name a = .ok name) :
    cx.resolve? view name = some a := by
  cases hfind : cx.resolve? view name with
  | none =>
    have hmiss := find?_eq_none.1 hfind a ha
    simp [hname, Except.toOption] at hmiss
  | some b =>
    have hfound : (cx.name b).toOption = some name := by simpa using find?_some hfind
    cases hb : cx.name b with
    | error e =>
      rw [hb] at hfound
      cases hfound
    | ok name' =>
      rw [hb] at hfound
      cases hfound
      rw [name_inj hname hb]

/-- A reference of a tree that is spelled out, and what is in view there. A projection has no spelling. -/
inductive Tree.References (c : ColumnRef) : List Alias → Tree → Prop
  | column : References c [] (.column c)
  | child {t : Tree} {p : List Alias × Tree} {view : List Alias} : t.isProjection = false → p ∈ t.bindings →
      References c view p.2 → References c (view ++ p.1) t

theorem Tree.References.cases_needs (h : t.References c view) :
    t.Needs c ∨ c.label ∈ view ∧ c.label ∈ t.sourceOrder := by
  induction h with
  | column => exact .inl .column
  | @child t p view plain hp _ ih =>
    rcases ih with hneeds | ⟨hview, hlabel⟩
    · by_cases hown : c.label ∈ p.1
      · exact .inr ⟨mem_append_right _ hown, bindings_introduced plain hp hown⟩
      · exact .inl (.child hp hown hneeds)
    · exact .inr ⟨mem_append_left _ hview, sourceOrder_of_child (mem_children_of_bindings hp) hlabel⟩

/-- Names are complete and free of collisions: if the scopes of a tree are in order, its text lacks no name, no
two aliases have one name, and the name of every reference means the source that it refers to. -/
theorem Tree.toSql_names (dialect : Dialect) (t : Tree) (scopes : t.checkScopes = .ok ()) :
    let cx : Sql.Context := ⟨dialect, t.sourceOrder⟩
    (∀ a, t.toSql dialect ≠ .error (.undeclared a)) ∧
      (∀ a b name, cx.name a = .ok name → cx.name b = .ok name → a = b) ∧
      ∀ c view, t.References c view →
        ∃ name, cx.name c.label = .ok name ∧ cx.resolve? view name = some c.label := by
  intro cx
  refine ⟨fun a ha => ?_, fun _ _ _ => Sql.Context.name_inj, fun c view href => ?_⟩
  · exact failsOnly_toSql (E := fun e => ∀ a, e ≠ .undeclared a) scopes (.inl fun _ => id) _ ha a rfl
  · obtain ⟨hview, hlabel⟩ := href.cases_needs.resolve_left (checkScopes_iff.1 scopes c)
    have hnamed : FailsOnly (fun _ => False) (cx.name c.label) := Sql.Context.failsOnly_name hlabel
    cases hname : cx.name c.label with
    | error e => exact (hnamed e hname).elim
    | ok name => exact ⟨name, rfl, Sql.Context.resolve?_name hview hname⟩

/-- The notes that share their rank with another one, which stands in a query of its own. -/
def sharedRanks : Tree :=
  let read (a : Alias) (name : String) : Tree := .column ⟨.int64, ScalarType.int64.columnType, a, name⟩
  let other : Select Tree :=
    { label := 3, columns := [⟨"id", read 1 "id", ScalarType.int64.columnType⟩], source := some (.table 1 "notes")
      filter := some (.binary .equal (read 1 "rank") (read 0 "rank")) }
  .select { label := 2, columns := [⟨"id", read 0 "id", ScalarType.int64.columnType⟩]
            source := some (.table 0 "notes"), filter := some (.existsSubquery (.select other none)) } none

/-- The rank of the outer note, from the inner query where both tables are in view. -/
theorem toSql_names_sharedRanks :
    let cx : Sql.Context := ⟨.hive, sharedRanks.sourceOrder⟩
    sharedRanks.checkScopes = .ok () ∧ (∀ a, sharedRanks.toSql .hive ≠ .error (.undeclared a)) ∧
      ∃ name, cx.name 0 = .ok name ∧ cx.resolve? [1, 0] name = some 0 := by
  intro cx
  have scopes : sharedRanks.checkScopes = .ok () := rfl
  obtain ⟨hdeclared, -, hmeant⟩ := Tree.toSql_names .hive sharedRanks scopes
  refine ⟨scopes, hdeclared, hmeant ⟨.int64, ScalarType.int64.columnType, 0, "rank"⟩ [1, 0] ?_⟩
  show sharedRanks.References _ (((([] ++ []) ++ [1]) ++ []) ++ [0])
  -- through both filters, each of which stands behind a source
  refine .child (p := ([0], _)) rfl (.tail _ (.head _)) (.child (p := ([], _)) rfl (.head _) ?_)
  exact .child (p := ([1], _)) rfl (.tail _ (.head _)) (.child (p := ([], _)) rfl (.tail _ (.head _)) .column)

end HiveQuery
