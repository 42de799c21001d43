import HiveQuery.Proofs.ComputedJoins
import HiveQuery.Proofs.PagingScopes
import Mathlib.Logic.Relation

/-!
# What is evaluated, and what it fails with

On the way to the value of a tree other trees are evaluated, in rows of their own. A run that misses a column
or a parameter misses one that is evaluated, where it is evaluated.
-/

namespace HiveQuery

variable {i : Option Identity}
open List HiveQuery.Tree

variable {j : Join Tree} {y : Evaluation} {s : Select Tree} {rows : List Row} {o : Option Tree}
  {cs : List (Column Tree)}

variable {env : Environment} {e : ExecutionError}

/-! ## What is evaluated -/

/-- A tree that is evaluated in some rows, and over the rows of a group if it stands for one. -/
structure Evaluation where
  frames : Frames
  group : Option (List Row)
  tree : Tree

/-- The parts of a tree that are evaluated in the same rows and over the same group. -/
def Tree.scalarParts : Tree → List Tree
  | .binary _ l r => [l, r]
  | .unary _ t | .isNull t | .outerJoined _ t | .inSubquery t _ => [t]
  | .between t l u => [t, l, u]
  | .rowNumber order => order.map SortKey.value
  | _ => []

def Tree.subquery? : Tree → Option Tree
  | .scalarSubquery q _ | .existsSubquery q | .inSubquery _ q => some q
  | _ => none

inductive Join.Enters (env : Environment) (frames : Frames) (j : Join Tree) : Evaluation → Prop
  | left : Enters env frames j ⟨frames, none, j.left⟩
  | right : j.kind.isApply = false → Enters env frames j ⟨frames, none, j.right⟩
  | applied {left : List Row} {x : Row} :
      j.kind.isApply = true → j.left.rows env frames = .ok left → x ∈ left →
      Enters env frames j ⟨x :: frames, none, j.right⟩
  | condition {left right : List Row} {x y : Row} {a : Tree} :
      j.left.rows env frames = .ok left → x ∈ left →
      j.right.rows env (j.around frames x) = .ok right → y ∈ right →
      a ∈ j.condition → Enters env frames j ⟨(x ++ y) :: frames, none, a⟩

inductive Select.Enters (env : Environment) (frames : Frames) (s : Select Tree) : Evaluation → Prop
  | source {a : Tree} : a ∈ s.source → Enters env frames s ⟨frames, none, a⟩
  | filter {rows : List Row} {row : Row} {a : Tree} :
      optionRows env frames s.source = .ok rows → row ∈ rows → a ∈ s.filter →
      Enters env frames s ⟨row :: frames, none, a⟩
  /-- Groups are formed by the values of their keys in each row. -/
  | key {rows : List Row} {row : Row} {a : Tree} :
      s.isGrouped = true → s.keptRows env frames = .ok rows → row ∈ rows → a ∈ s.group →
      Enters env frames s ⟨row :: frames, none, a⟩
  /-- Rows are numbered before the columns are evaluated. -/
  | number {rows : List Row} {row : Row} {c : Column Tree} :
      s.isGrouped = false → s.keptRows env frames = .ok rows → row ∈ rows → c ∈ s.columns →
      c.value.isRowNumber = true → Enters env frames s ⟨row :: frames, none, c.value⟩
  | column {contexts : List Context} {context : Context} {c : Column Tree} :
      s.contexts env frames = .ok contexts → context ∈ contexts → c ∈ s.columns →
      Enters env frames s ⟨context.frames, context.group, c.value⟩
  | order {contexts : List Context} {context : Context} {k : SortKey Tree} :
      s.contexts env frames = .ok contexts → context ∈ contexts → k ∈ s.order →
      Enters env frames s ⟨context.frames, context.group, k.value⟩
  /-- Skipped and taken rows are counted outside of the rows of the select. -/
  | bound {a : Tree} : a ∈ s.bounds → Enters env frames s ⟨frames, none, a⟩

/-- To evaluate the first tree, the second one may be evaluated. -/
inductive Evaluation.Enters (env : Environment) : Evaluation → Evaluation → Prop
  | part {frames : Frames} {group : Option (List Row)} {t a : Tree} :
      a ∈ t.scalarParts → Enters env ⟨frames, group, t⟩ ⟨frames, group, a⟩
  | subquery {frames : Frames} {group : Option (List Row)} {t q : Tree} :
      q ∈ t.subquery? → Enters env ⟨frames, group, t⟩ ⟨frames, none, q⟩
  /-- The argument of an aggregate is evaluated in each row of the group. -/
  | argument {frames : Frames} {members : List Row} {row : Row} {kind : AggregateKind} {a : Tree}
      {distinct : Bool} {type : ScalarType} :
      row ∈ members →
      Enters env ⟨frames, some members, .aggregate kind (some a) distinct type⟩
        ⟨row :: frames.tail, none, a⟩
  | join {frames : Frames} {group : Option (List Row)} {j : Join Tree} {i : Option Identity}
      {y : Evaluation} : j.Enters env frames y → Enters env ⟨frames, group, .join j i⟩ y
  | select {frames : Frames} {group : Option (List Row)} {s : Select Tree} {i : Option Identity}
      {y : Evaluation} : s.Enters env frames y → Enters env ⟨frames, group, .select s i⟩ y

/-- Running a query comes to evaluate a tree. -/
def Tree.Evaluates (env : Environment) (t : Tree) (x : Evaluation) : Prop :=
  ∃ s ∈ t.query?, Relation.ReflTransGen (Evaluation.Enters env) ⟨[], none, .select s none⟩ x

theorem Tree.mem_bindings_of_scalarParts {t a : Tree} (ha : a ∈ t.scalarParts) : ([], a) ∈ t.bindings := by
  cases t <;> simp_all [scalarParts, bindings]

theorem Tree.mem_bindings_of_subquery {t a : Tree} (ha : a ∈ t.subquery?) : ([], a) ∈ t.bindings := by
  cases t <;> simp_all [subquery?, bindings]

theorem Join.Enters.mem_children {frames : Frames}
    (h : j.Enters env frames y) : y.tree ∈ (join j i).children := by
  cases h <;> simp_all

theorem Select.Enters.mem_children {frames : Frames}
    (h : s.Enters env frames y) : y.tree ∈ (select s i).children := by
  cases h <;> simp_all [clauses, bounds] <;> grind

theorem Evaluation.Enters.mem_children {x : Evaluation} (h : Enters env x y) :
    y.tree ∈ x.tree.children := by
  cases h with
  | part ha => exact mem_children_of_bindings (mem_bindings_of_scalarParts ha)
  | subquery ha => exact mem_children_of_bindings (mem_bindings_of_subquery ha)
  | argument => exact mem_cons_self
  | join h => exact h.mem_children
  | select h => exact h.mem_children

/-! ## Failing runs -/

/-- Whatever a run fails with, it is such an error. -/
def Run.Fails {α : Type} (P : ExecutionError → Prop) (x : Run α) : Prop :=
  ∀ e, x = .error e → P e

namespace Run.Fails

variable {α β : Type} {P Q : ExecutionError → Prop}

theorem ok (a : α) : Fails P (.ok a) := nofun

theorem pure (a : α) : Fails P (Pure.pure a) := nofun

theorem error (h : P e) : Fails P (.error e : Run α) := by
  rintro _ ⟨⟩
  exact h

theorem imp {x : Run α} (h : x.Fails P) (hPQ : ∀ {e}, P e → Q e) : x.Fails Q := fun e he => hPQ (h e he)

theorem bind_ok {x : Run α} {f : α → Run β} (hx : x.Fails P) (hf : ∀ a, x = .ok a → (f a).Fails P) :
    (x >>= f).Fails P := by
  cases x with
  | error e => exact error (hx e rfl)
  | ok a => exact hf a rfl

theorem bind {x : Run α} {f : α → Run β} (hx : x.Fails P) (hf : ∀ a, (f a).Fails P) : (x >>= f).Fails P :=
  hx.bind_ok fun a _ => hf a

theorem mapM {f : α → Run β} {as : List α} (h : ∀ a ∈ as, (f a).Fails P) : (as.mapM f).Fails P := by
  induction as with
  | nil => exact pure _
  | cons a as ih =>
    rw [mapM_cons]
    exact (h a mem_cons_self).bind fun b =>
      (ih fun a ha => h a (.tail _ ha)).bind fun bs => pure _

theorem filterRows {keep : Row → Run Bool} (h : ∀ row ∈ rows, (keep row).Fails P) :
    (HiveQuery.filterRows keep rows).Fails P := by
  induction rows with
  | nil => exact ok _
  | cons row rows ih =>
    exact (h row mem_cons_self).bind fun kept =>
      (ih fun row hrow => h row (.tail _ hrow)).bind fun rest => pure _

theorem joinRows {kind : JoinKind} {left : List Row} {right : Row → Run (List Row)} {missing : Row}
    {condition : Row → Run Bool} (hright : ∀ x ∈ left, (right x).Fails P)
    (hcondition : ∀ x ∈ left, ∀ others, right x = .ok others → ∀ y ∈ others, (condition (x ++ y)).Fails P) :
    (HiveQuery.joinRows kind left right missing condition).Fails P := by
  refine (mapM fun x hx => (hright x hx).bind_ok fun others hothers => ?_).bind fun _ => pure _
  refine (filterRows fun row hrow => ?_).bind fun _ => pure _
  obtain ⟨y, hy, rfl⟩ := mem_map.1 hrow
  exact hcondition x hx others hothers y hy

theorem ofValue (hP : ∀ e, P (.value e)) (x : Except ValueError α) : (ofValue x).Fails P := by
  cases x with
  | ok a => exact ok a
  | error e => exact error (hP e)

end Run.Fails

section Clauses

variable {env : Environment} {frames : Frames} {group : Option (List Row)} {P : ExecutionError → Prop}

theorem satisfies_fails (h : ∀ a ∈ o, (a.scalar env frames none).Fails P) :
    (satisfies env frames o).Fails P := by
  cases o with
  | none => exact .ok _
  | some a => exact (h a rfl).bind fun _ => .pure _

theorem optionalCount_fails (hP : ∀ v, P (.rowCount v))
    (h : ∀ a ∈ o, (a.scalar env frames none).Fails P) : (optionalCount env frames o).Fails P := by
  cases o with
  | none => exact .ok _
  | some a =>
    refine (h a rfl).bind fun v => Run.Fails.bind ?_ fun _ => .pure _
    rw [rowCount]
    split
    · exact .ok _
    · exact .error (hP v)

theorem keyValues_fails {ks : List (SortKey Tree)} (h : ∀ k ∈ ks, (k.value.scalar env frames group).Fails P) :
    (keyValues env frames group ks).Fails P := by
  rw [keyValues_eq]
  exact .mapM h

theorem columnValues_fails (numbers : List (Option Nat))
    (h : ∀ c ∈ cs, (c.value.scalar env frames group).Fails P) :
    (columnValues env frames group numbers cs).Fails P := by
  induction cs generalizing numbers with
  | nil => exact .ok _
  | cons c cs ih =>
    have ih := ih numbers.tail fun a ha => h a (.tail _ ha)
    rw [columnValues]
    split
    · exact ih.bind fun _ => .pure _
    · exact (h c mem_cons_self).bind fun _ => ih.bind fun _ => .pure _

theorem rowNumbers_fails
    (h : ∀ c ∈ cs, ∀ order, c.value = .rowNumber order → ∀ row ∈ rows,
      (keyValues env (row :: frames) none order).Fails P) : (rowNumbers env frames rows cs).Fails P := by
  rw [rowNumbers_eq]
  refine .mapM fun c hc => ?_
  cases hn : c.value.isRowNumber with
  | false =>
    rw [rowRanks_of_not hn]
    exact .ok _
  | true =>
    obtain ⟨order, ht⟩ := exists_rowNumber hn
    rw [ht]
    exact .bind (.mapM (h c hc order ht)) fun _ => .pure _

end Clauses

/-! ## Evaluated trees that fail -/

/-- What a tree fails with by itself where it misses a column, a parameter or a group. -/
def Evaluation.Raises (env : Environment) (x : Evaluation) : ExecutionError → Prop
  | .unboundColumn a name => ∃ c : ColumnRef, x.tree = .column c ∧ c.label = a ∧ c.name = name ∧
      x.frames.lookup? c = none
  | .unboundParameter name => ∃ p : Parameter, x.tree = .parameter p ∧ p.name = name ∧
      env.arguments.lookup name = none
  | .unboundParameters _ => False
  | .aggregateOutsideGroup => x.tree.isAggregate = true ∧ x.group = none
  | _ => True

def Evaluation.Blames (env : Environment) (x : Evaluation) (e : ExecutionError) : Prop :=
  ∃ y, Relation.ReflTransGen (Enters env) x y ∧ y.Raises env e

theorem Evaluation.Blames.self {x : Evaluation} (h : x.Raises env e) : x.Blames env e := ⟨x, .refl, h⟩

theorem Evaluation.Enters.blames {x : Evaluation} (h : Enters env x y) (he : y.Blames env e) :
    x.Blames env e := by
  obtain ⟨z, hreach, hz⟩ := he
  exact ⟨z, .head h hreach, hz⟩

structure Tree.Blamed (env : Environment) (t : Tree) : Prop where
  scalar : ∀ frames group, (t.scalar env frames group).Fails (Evaluation.Blames env ⟨frames, group, t⟩)
  rows : ∀ frames group, (t.rows env frames).Fails (Evaluation.Blames env ⟨frames, group, t⟩)
  first : ∀ frames group, (t.firstValues env frames).Fails (Evaluation.Blames env ⟨frames, group, t⟩)
  keys : ∀ order, t = .rowNumber order → ∀ frames group,
    (keyValues env frames group order).Fails (Evaluation.Blames env ⟨frames, group, t⟩)

section Blame

variable {env : Environment} {frames : Frames} {group : Option (List Row)} {t a : Tree} {x : Evaluation}

theorem Evaluation.Enters.scalar_fails (hx : Enters env x ⟨frames, group, a⟩)
    (h : ∀ a ∈ x.tree.children, a.Blamed env) : (a.scalar env frames group).Fails (x.Blames env) :=
  ((h a hx.mem_children).scalar frames group).imp hx.blames

theorem Evaluation.Enters.rows_fails (hx : Enters env x ⟨frames, group, a⟩)
    (h : ∀ a ∈ x.tree.children, a.Blamed env) : (a.rows env frames).Fails (x.Blames env) :=
  ((h a hx.mem_children).rows frames group).imp hx.blames

theorem Evaluation.Enters.first_fails (hx : Enters env x ⟨frames, group, a⟩)
    (h : ∀ a ∈ x.tree.children, a.Blamed env) : (a.firstValues env frames).Fails (x.Blames env) :=
  ((h a hx.mem_children).first frames group).imp hx.blames

theorem Select.run_blames (h : ∀ a ∈ s.clauses, a.Blamed env) (frames : Frames)
    (group : Option (List Row)) (i : Option Identity) :
    (s.run env frames).Fails (Evaluation.Blames env ⟨frames, group, .select s i⟩) := by
  have enters : ∀ {y : Evaluation}, s.Enters env frames y →
      Evaluation.Enters env ⟨frames, group, .select s i⟩ y := .select
  have hrows : (optionRows env frames s.source).Fails
      (Evaluation.Blames env ⟨frames, group, .select s i⟩) := by
    cases hs : s.source with
    | none => exact .ok _
    | some a => exact (enters (.source hs)).rows_fails h
  have hkept : (s.keptRows env frames).Fails (Evaluation.Blames env ⟨frames, group, .select s i⟩) := by
    refine hrows.bind_ok fun all hall => (Run.Fails.filterRows fun row hrow => ?_).bind fun rows => ?_
    · exact satisfies_fails fun a ha => (enters (.filter hall hrow ha)).scalar_fails h
    · unfold heldRows
      split
      · exact .ok _
      · exact .error (.self trivial)
  have hcontexts : (s.contexts env frames).Fails (Evaluation.Blames env ⟨frames, group, .select s i⟩) := by
    refine hkept.bind_ok fun rows hrows => ?_
    cases hgrouped : s.isGrouped with
    | true =>
      refine (Run.Fails.mapM fun row hrow => ?_).bind fun _ => .pure _
      rw [scalars_eq]
      exact .mapM fun a ha => (enters (.key hgrouped hrows hrow ha)).scalar_fails h
    | false =>
      refine (rowNumbers_fails fun c hc order horder row hrow => ?_).bind fun _ => .pure _
      have hnumber := enters (.number hgrouped hrows hrow hc (by rw [horder]; rfl))
      exact ((h _ hnumber.mem_children).keys order horder (row :: frames) none).imp hnumber.blames
  have hproduced : (s.produced env frames).Fails (Evaluation.Blames env ⟨frames, group, .select s i⟩) :=
    hcontexts.bind_ok fun contexts hok => .mapM fun c hc =>
      (columnValues_fails c.numbers fun d hd => (enters (.column hok hc hd)).scalar_fails h).bind fun _ =>
        (keyValues_fails fun k hk => (enters (.order hok hc hk)).scalar_fails h).bind fun _ => .pure _
  have hcount : ∀ o : Option Tree, (∀ a ∈ o, a ∈ s.bounds) → (optionalCount env frames o).Fails
      (Evaluation.Blames env ⟨frames, group, .select s i⟩) := fun o ho =>
    optionalCount_fails (fun _ => .self trivial) fun a ha => (enters (.bound (ho a ha))).scalar_fails h
  rw [run_eq]
  refine (hproduced.bind fun _ => (hcount s.skip fun a ha => ?_).bind fun _ =>
    (hcount s.take fun a ha => ?_).bind fun _ => .pure _).bind fun _ => .pure _
  · exact mem_append_left _ (Option.mem_toList.2 ha)
  · exact mem_append_right _ (Option.mem_toList.2 ha)

theorem Join.rows_blames (h : ∀ a ∈ (join j i).children, a.Blamed env) (frames : Frames)
    (group : Option (List Row)) :
    ((join j i).rows env frames).Fails (Evaluation.Blames env ⟨frames, group, .join j i⟩) := by
  have enters : ∀ {y : Evaluation}, j.Enters env frames y →
      Evaluation.Enters env ⟨frames, group, .join j i⟩ y := .join
  have hsatisfies : ∀ {left : List Row}, j.left.rows env frames = .ok left → ∀ x ∈ left, ∀ others,
      j.right.rows env (j.around frames x) = .ok others → ∀ y ∈ others,
      (satisfies env ((x ++ y) :: frames) j.condition).Fails
        (Evaluation.Blames env ⟨frames, group, .join j i⟩) := fun hl x hx others hr y hy =>
    satisfies_fails fun a ha => (enters (.condition hl hx hr hy ha)).scalar_fails h
  cases hkind : j.kind.isApply with
  | true =>
    have haround : ∀ x, j.around frames x = x :: frames := fun x => if_pos hkind
    simp only [haround] at hsatisfies
    rw [rows_apply hkind]
    refine ((enters .left).rows_fails h).bind_ok fun left hl => .joinRows (fun x hx => ?_) (hsatisfies hl)
    exact (enters (.applied hkind hl hx)).rows_fails h
  | false =>
    have haround : ∀ x, j.around frames x = frames := fun x => if_neg (by simp [hkind])
    simp only [haround] at hsatisfies
    rw [rows_join hkind]
    refine ((enters .left).rows_fails h).bind_ok fun left hl =>
      ((enters (.right hkind)).rows_fails h).bind_ok fun right hr => .joinRows (fun _ _ => .ok right) ?_
    rintro x hx _ ⟨⟩
    exact hsatisfies hl x hx right hr

theorem Tree.Blamed.of_children (h : ∀ a ∈ t.children, a.Blamed env) : t.Blamed env where
  scalar frames group := by
    have hpart : ∀ a ∈ t.scalarParts,
        (a.scalar env frames group).Fails (Evaluation.Blames env ⟨frames, group, t⟩) := fun a ha =>
      (Evaluation.Enters.part ha).scalar_fails h
    have hquery : ∀ q ∈ t.subquery?,
        (q.firstValues env frames).Fails (Evaluation.Blames env ⟨frames, group, t⟩) := fun q hq =>
      (Evaluation.Enters.subquery hq).first_fails h
    have hvalue : ∀ y : Except ValueError Value,
        (Run.ofValue y).Fails (Evaluation.Blames env ⟨frames, group, t⟩) := .ofValue fun _ => .self trivial
    cases t with
    | constant v => exact .ok v
    | undefined id => exact .ok _
    | parameter p =>
      rw [Tree.scalar]
      split
      · exact .ok _
      · next hlookup => exact .error (.self ⟨p, rfl, rfl, hlookup⟩)
    | column c =>
      rw [Tree.scalar]
      split
      · exact .ok _
      · next hlookup => exact .error (.self ⟨c, rfl, rfl, rfl, hlookup⟩)
    | binary op l r =>
      simp only [scalarParts, forall_mem_cons] at hpart
      exact hpart.1.bind fun _ => hpart.2.1.bind fun _ => hvalue _
    | unary op a =>
      simp only [scalarParts, forall_mem_cons] at hpart
      exact hpart.1.bind fun _ => hvalue _
    | between a l r =>
      simp only [scalarParts, forall_mem_cons] at hpart
      exact hpart.1.bind fun _ => hpart.2.1.bind fun _ => hpart.2.2.1.bind fun _ => (hvalue _).bind fun _ =>
        (hvalue _).bind fun _ => hvalue _
    | isNull a =>
      simp only [scalarParts, forall_mem_cons] at hpart
      exact hpart.1.bind fun _ => .pure _
    | outerJoined test a => exact hpart a mem_cons_self
    | select s i => exact (Select.run_blames h frames group i).bind fun _ => .pure _
    | scalarSubquery q type | existsSubquery q => exact (hquery q rfl).bind fun _ => .pure _
    | inSubquery a q =>
      refine (hpart a mem_cons_self).bind fun needle => ?_
      split
      · exact .pure _
      · exact (hquery q rfl).bind fun _ => .pure _
    | aggregate kind a distinct type =>
      cases group with
      | none => cases a <;> exact .error (.self ⟨rfl, rfl⟩)
      | some members =>
        cases a with
        | none =>
          rw [Tree.scalar]
          split
          · exact .ok _
          · exact .error (.self trivial)
        | some a =>
          exact (Run.Fails.mapM fun row hrow => (Evaluation.Enters.argument hrow).scalar_fails h).bind
            fun _ => hvalue _
    | _ => exact .error (.self trivial)
  rows frames group := by
    cases t with
    | table a name =>
      rw [Tree.rows]
      split
      · exact .ok _
      · exact .error (.self trivial)
    | select s i => exact (Select.run_blames h frames group i).bind fun _ => .pure _
    | join j i => exact Join.rows_blames h frames group
    | _ => exact .error (.self trivial)
  first frames group := by
    cases t with
    | select s i => exact (Select.run_blames h frames group i).bind fun _ => .pure _
    | _ => exact .error (.self trivial)
  keys := by
    rintro order rfl frames group
    exact keyValues_fails fun k hk => (Evaluation.Enters.part (mem_map_of_mem hk)).scalar_fails h

theorem Tree.blamed (t : Tree) : t.Blamed env := by
  induction t with
  | step t ih => exact .of_children ih

def ExecutionError.isMissing : ExecutionError → Bool
  | .unboundColumn _ _ | .unboundParameter _ | .unboundParameters _ => true
  | _ => false

/-- An error of a run is that of a tree which is evaluated. -/
theorem Tree.exists_raising (h : t.run env = .error e) (missing : e.isMissing = true) :
    ∃ x, t.Evaluates env x ∧ x.Raises env e := by
  have hselect : ∀ s ∈ t.query?, s.run env [] = .error e → ∃ x, t.Evaluates env x ∧ x.Raises env e := by
    intro s hs hrun
    obtain ⟨x, hreach, hx⟩ := Select.run_blames (fun a _ => a.blamed) [] none none e hrun
    exact ⟨x, ⟨s, hs, hreach⟩, hx⟩
  cases t with
  | select s i => exact hselect s rfl h
  | projection q shape i =>
    cases q with
    | select s j => exact hselect s rfl h
    | _ => cases h; cases missing
  | _ => cases h; cases missing

end Blame

/-! ## Which aggregates find a group -/

variable {frames : Frames} {t u a : Tree}

/-- The children of a tree that belong to the select around it. -/
def Tree.ownParts : Tree → List Tree
  | .select _ _ | .aggregate _ _ _ _ | .scalarSubquery _ _ | .existsSubquery _ => []
  | .inSubquery t _ => [t]
  | t => t.children

/-- A tree stands in another one outside of nested selects and of the arguments of aggregates. -/
def Tree.Owns (t a : Tree) : Prop := Relation.ReflTransGen (fun t a => a ∈ t.ownParts) t a

def Tree.item? : Tree → Option Tree
  | .inSubquery t _ => some t
  | _ => none

/-- A tree stands in an item that another one looks up in a subquery. -/
def Tree.LooksUp (t a : Tree) : Prop := ∃ u, t.Owns u ∧ ∃ item ∈ u.item?, item.Owns a

theorem Tree.scalarParts_subset_ownParts (t : Tree) : t.scalarParts ⊆ t.ownParts := by
  cases t <;> simp [scalarParts, ownParts]

theorem Tree.hasAggregate_of_ownParts (ha : a ∈ t.ownParts) (hitem : a ∉ t.item?)
    (h : a.hasAggregate = true) : t.hasAggregate = true := by
  have hchild : (t.isSelect || t.isSubquery) = false ∧ a ∈ t.children := by
    cases t <;> simp_all [ownParts, item?, isSelect, isSubquery]
  rw [hasAggregate_eq, hchild.1]
  simpa using .inr ⟨a, hchild.2, h⟩

theorem Tree.Owns.hasAggregate (h : t.Owns a) (ha : a.isAggregate = true) :
    t.hasAggregate = true ∨ t.LooksUp a := by
  induction h using Relation.ReflTransGen.head_induction_on with
  | refl => exact .inl (by rw [hasAggregate_eq, ha, Bool.true_or])
  | @head t b hb hrest ih =>
    by_cases hitem : b ∈ t.item?
    · exact .inr ⟨t, .refl, b, hitem, hrest⟩
    obtain hfound | ⟨u, hu, hlooked⟩ := ih
    · exact .inl (hasAggregate_of_ownParts hb hitem hfound)
    · exact .inr ⟨u, .head hb hu, hlooked⟩

/-! ## Grouped selects -/

def Select.outputs (s : Select Tree) : List Tree :=
  s.columns.map Column.value ++ s.order.map SortKey.value

theorem Select.isGrouped_of_hasAggregate (ht : t ∈ s.outputs) (h : t.hasAggregate = true) :
    s.isGrouped = true := by
  simp only [isGrouped, hasAggregates, Bool.or_eq_true, any_eq_true]
  obtain hc | hk := mem_append.1 ht
  · obtain ⟨c, hmem, rfl⟩ := mem_map.1 hc
    exact .inr (.inr ⟨c, hmem, h⟩)
  · obtain ⟨k, hmem, rfl⟩ := mem_map.1 hk
    exact .inr (.inl (.inr ⟨k, hmem, h⟩))

/-- What a select evaluates for its columns and sort keys, short of nested selects and of the arguments of
aggregates. -/
inductive Select.Computes (env : Environment) (frames : Frames) (s : Select Tree) : Evaluation → Prop
  | number {rows : List Row} {row : Row} {c : Column Tree} :
      s.isGrouped = false → s.keptRows env frames = .ok rows → row ∈ rows → c ∈ s.columns →
      c.value.isRowNumber = true → Computes env frames s ⟨row :: frames, none, c.value⟩
  | output {contexts : List Context} {context : Context} {t : Tree} :
      s.contexts env frames = .ok contexts → context ∈ contexts → t ∈ s.outputs →
      Computes env frames s ⟨context.frames, context.group, t⟩
  | part {frames' : Frames} {group : Option (List Row)} {t a : Tree} :
      Computes env frames s ⟨frames', group, t⟩ → a ∈ t.scalarParts →
      Computes env frames s ⟨frames', group, a⟩

theorem Select.Computes.owned {x : Evaluation} (h : s.Computes env frames x) :
    ∃ t ∈ s.outputs, t.Owns x.tree := by
  induction h with
  | number _ _ _ hc _ => exact ⟨_, mem_append_left _ (mem_map_of_mem hc), .refl⟩
  | output _ _ ht => exact ⟨_, ht, .refl⟩
  | part _ ha ih =>
    obtain ⟨t, ht, howned⟩ := ih
    exact ⟨t, ht, howned.tail (scalarParts_subset_ownParts _ ha)⟩

theorem Select.Computes.group_eq_none_iff {x : Evaluation} (h : s.Computes env frames x) :
    x.group = none ↔ s.isGrouped = false := by
  induction h with
  | number hungrouped => simp [hungrouped]
  | output hcontexts hc _ =>
    obtain ⟨rows, -, ⟨hgrouped, keys, -, rfl⟩ | ⟨hungrouped, numbers, -, rfl⟩⟩ := contexts_eq_ok.1 hcontexts
    · obtain ⟨members, -, rfl⟩ := mem_map.1 hc
      simp [hgrouped]
    · obtain ⟨p, -, rfl⟩ := mem_map.1 hc
      simp [hungrouped]
  | part _ _ ih => exact ih

/-- An aggregate of a select's own makes it grouped unless it stands in an item that is looked up in a subquery.
It fails for want of a group just if the select is not grouped; so a select that fails in this way either
looks up such an aggregate, or has come to an aggregate that is not its own. -/
theorem Select.run_own_aggregates (env : Environment) (frames : Frames) (s : Select Tree) :
    (∀ t ∈ s.outputs, ∀ a, t.Owns a → a.isAggregate = true → s.isGrouped = true ∨ t.LooksUp a) ∧
      (∀ x, s.Computes env frames x → x.tree.isAggregate = true →
        (x.Raises env .aggregateOutsideGroup ↔ s.isGrouped = false)) ∧
      (s.run env frames = .error .aggregateOutsideGroup →
        ∃ x, Relation.ReflTransGen (Evaluation.Enters env) ⟨frames, none, .select s none⟩ x ∧
          x.Raises env .aggregateOutsideGroup ∧
          (s.Computes env frames x → s.isGrouped = false ∧ ∃ t ∈ s.outputs, t.LooksUp x.tree)) := by
  have hgrouped : ∀ t ∈ s.outputs, ∀ a, t.Owns a → a.isAggregate = true →
      s.isGrouped = true ∨ t.LooksUp a := fun t ht a howned ha =>
    (howned.hasAggregate ha).imp_left (isGrouped_of_hasAggregate ht)
  refine ⟨hgrouped, fun x hx ha => ?_, fun hrun => ?_⟩
  · rw [← hx.group_eq_none_iff]
    exact and_iff_right ha
  · obtain ⟨x, hreach, hraises⟩ := run_blames (fun a _ => a.blamed) frames none none _ hrun
    refine ⟨x, hreach, hraises, fun hx => ?_⟩
    have hungrouped : s.isGrouped = false := hx.group_eq_none_iff.1 hraises.2
    obtain ⟨t, ht, howned⟩ := hx.owned
    have hlooked := (hgrouped t ht x.tree howned hraises.1).resolve_left (by simp [hungrouped])
    exact ⟨hungrouped, t, ht, hlooked⟩

/-- A count that is looked up in a subquery finds no group, unless a column beside it has an aggregate. -/
example :
    let one : Column Tree := ⟨"x", .int 1, ScalarType.int32.columnType⟩
    let count : Tree := .aggregate .count none false .int64
    let looked : Column Tree :=
      ⟨"b", .inSubquery count (.select { label := 0, columns := [one] } none), ScalarType.boolean.columnType⟩
    let counted : Column Tree := ⟨"n", count, ScalarType.int64.columnType⟩
    let alone : Select Tree := { label := 1, columns := [looked] }
    let beside : Select Tree := { label := 1, columns := [looked, counted] }
    (alone.run ⟨[], []⟩ []).map (·.rows) = .error .aggregateOutsideGroup ∧
      (beside.run ⟨[], []⟩ []).map (·.rows) = .ok [[.boolean true, .int 1]] :=
  ⟨rfl, rfl⟩

end HiveQuery
