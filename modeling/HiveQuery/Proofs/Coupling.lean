import HiveQuery.Proofs.Relabeling

/-!
# Two runs side by side

A computation on a tree and the same computation on the relabeled tree take the same branches, and their results and
states are relabeled. What is put together from steps that keep in step keeps in step.
-/

namespace HiveQuery
open List

/-! ## Computations that keep in step -/

/-- Two computations keep in step, and their results are related. -/
structure Coupling (m : Type → Type) [Monad m] where
  rel : {α β : Type} → (α → β → Prop) → m α → m β → Prop
  pure : ∀ {α β : Type} {R : α → β → Prop} {a : α} {b : β}, R a b → rel R (Pure.pure a) (Pure.pure b)
  bind : ∀ {α β γ δ : Type} {R : α → β → Prop} {S : γ → δ → Prop} {x : m α} {y : m β} {f : α → m γ}
    {g : β → m δ}, rel R x y → (∀ a b, R a b → rel S (f a) (g b)) → rel S (x >>= f) (y >>= g)

/-- Both sides succeed with related results, or both fail with related errors. -/
inductive EndAlike {ε α β : Type} (E : ε → ε → Prop) (R : α → β → Prop) : Except ε α → Except ε β → Prop
  | ok {a : α} {b : β} : R a b → EndAlike E R (.ok a) (.ok b)
  | error {e e' : ε} : E e e' → EndAlike E R (.error e) (.error e')

namespace Coupling

def plain : Coupling Id where
  rel R x y := R x.run y.run
  pure h := h
  bind h hf := hf _ _ h

/-- Two runs with states that stay in step. -/
def state {σ : Type} (S : σ → σ → Prop) : Coupling (StateM σ) where
  rel R x y := ∀ s s', S s s' → R (x.run s).1 (y.run s').1 ∧ S (x.run s).2 (y.run s').2
  pure h _ _ hs := ⟨h, hs⟩
  bind h hf s s' hs := hf _ _ (h s s' hs).1 _ _ (h s s' hs).2

/-- Two runs that fail with related errors. -/
def fallible {ε : Type} (E : ε → ε → Prop) : Coupling (Except ε) where
  rel R x y := EndAlike E R x y
  pure h := .ok h
  bind h hf := by
    cases h with
    | ok h => exact hf _ _ h
    | error h => exact .error h

/-- Two runs with states in step that fail with related errors. -/
def failing {ε σ : Type} (E : ε → ε → Prop) (S : σ → σ → Prop) : Coupling (ExceptT ε (StateM σ)) where
  rel R x y := ∀ s s', S s s' → EndAlike E R (x.run.run s).1 (y.run.run s').1 ∧ S (x.run.run s).2 (y.run.run s').2
  pure h _ _ hs := ⟨.ok h, hs⟩
  bind {_ _ _ _ R _ x y _ _} h hf s s' hs := by
    have hrun := h s s' hs
    rw [exceptT_run_bind, exceptT_run_bind]
    revert hrun
    generalize x.run.run s = p, y.run.run s' = q
    obtain ⟨r, s₁⟩ := p
    obtain ⟨r', s₁'⟩ := q
    rintro ⟨hr, hs₁⟩
    cases hr with
    | ok h => exact hf _ _ h _ _ hs₁
    | error h => exact ⟨.error h, hs₁⟩

section Steps

variable {m : Type → Type} [Monad m] {C : Coupling m} {α β γ δ : Type} {R : α → β → Prop} {S : γ → δ → Prop}

theorem rel.pure {a : α} {b : β} (h : R a b) : C.rel R (Pure.pure a) (Pure.pure b) := C.pure h

theorem rel.bind {x : m α} {y : m β} {f : α → m γ} {g : β → m δ} (h : C.rel R x y)
    (hf : ∀ a b, R a b → C.rel S (f a) (g b)) : C.rel S (x >>= f) (y >>= g) := C.bind h hf

end Steps

section State

variable {ε σ : Type} {E : ε → ε → Prop} {S : σ → σ → Prop}

theorem state_get : (state S).rel S get get := fun _ _ hs => ⟨hs, hs⟩

theorem state_set {s s' : σ} (h : S s s') : (state S).rel (fun _ _ => True) (set s) (set s') := fun _ _ _ =>
  ⟨trivial, h⟩

theorem state_modify {g g' : σ → σ} (h : ∀ s s', S s s' → S (g s) (g' s')) :
    (state S).rel (fun _ _ => True) (modify g) (modify g') := fun s s' hs =>
  ⟨trivial, h s s' hs⟩

theorem failing_get : (failing E S).rel S get get := fun _ _ hs => ⟨.ok hs, hs⟩

theorem failing_set {s s' : σ} (h : S s s') : (failing E S).rel (fun _ _ => True) (set s) (set s') :=
  fun _ _ _ => ⟨.ok trivial, h⟩

theorem failing_modify {g g' : σ → σ} (h : ∀ s s', S s s' → S (g s) (g' s')) :
    (failing E S).rel (fun _ _ => True) (modify g) (modify g') := fun s s' hs =>
  ⟨.ok trivial, h s s' hs⟩

end State

end Coupling

/-! ## Visits -/

def Tree.Relabels (f : Alias → Alias) (t u : Tree) : Prop :=
  t.relabel f = u

/-- Two visitors keep in step at every node. -/
structure Visitor.Coupled {m : Type → Type} [Monad m] (C : Coupling m) (f : Alias → Alias)
    (v v' : Visitor m) : Prop where
  around : ∀ t x y, C.rel (Tree.Relabels f) x y →
    C.rel (Tree.Relabels f) (v.around t x) (v'.around (t.relabel f) y)
  afterSource : ∀ o, C.rel (fun _ _ => True) (v.afterSource o) (v'.afterSource (o.map (Tree.relabel f)))

section Visit

variable {m : Type → Type} [Monad m] {C : Coupling m} {f : Alias → Alias} {v v' : Visitor m}

theorem Visitor.Coupled.around_of_eq (hv : v.Coupled C f v') {t u : Tree} {x y : m Tree}
    (htu : t.relabel f = u) (hxy : C.rel (Tree.Relabels f) x y) :
    C.rel (Tree.Relabels f) (v.around t x) (v'.around u y) :=
  htu ▸ hv.around t x y hxy

def Tree.VisitsAlike (C : Coupling m) (f : Alias → Alias) (v v' : Visitor m) (t : Tree) : Prop :=
  C.rel (Tree.Relabels f) (t.visit v) ((t.relabel f).visit v')

theorem visitOption_relabel {o : Option Tree} (ih : ∀ t ∈ o.toList, t.VisitsAlike C f v v') :
    C.rel (fun a b => a.map (Tree.relabel f) = b) (visitOption v o)
      (visitOption v' (o.map (Tree.relabel f))) := by
  cases o with
  | none => exact .pure rfl
  | some t => exact .bind (ih t (mem_singleton_self t)) fun _ _ h => .pure (congrArg some h)

theorem Slot.visit_relabel {α : Type} (S : Slot α) {as : List α} {g : α → α}
    (hvalue : ∀ a, S.value (g a) = (S.value a).relabel f) (hput : ∀ a t, g (S.put a t) = S.put (g a) (t.relabel f))
    (ih : ∀ a ∈ as, (S.value a).VisitsAlike C f v v') :
    C.rel (fun as bs => as.map g = bs) (S.visit v as) (S.visit v' (as.map g)) := by
  induction as with
  | nil => exact .pure rfl
  | cons a as has =>
    rw [forall_mem_cons] at ih
    rw [map_cons, visit, visit, hvalue]
    exact .bind ih.1 fun t _ h => .bind (has ih.2) fun _ _ h' =>
      .pure (congrArg₂ cons ((hput a t).trans (congrArg _ h)) h')

theorem Select.visit_relabel {s : Select Tree} (hv : v.Coupled C f v')
    (ih : ∀ t ∈ s.clauses, t.VisitsAlike C f v v') :
    C.rel (fun a b => a.relabel f = b) (s.visit v) ((s.relabel f).visit v') := by
  cases s
  simp only [clauses, forall_mem_append, forall_mem_map] at ih
  obtain ⟨⟨⟨⟨⟨⟨⟨source, filter⟩, order⟩, group⟩, cluster⟩, skip⟩, take⟩, columns⟩ := ih
  rw [relabel_eq]
  simp only [visit, visitKeys_eq, visitList_eq, visitColumns_eq]
  refine .bind (visitOption_relabel source) fun source' _ h => ?_
  subst h
  refine .bind (hv.afterSource source') fun _ _ _ => ?_
  refine .bind (visitOption_relabel filter) fun filter' _ h => ?_
  subst h
  refine .bind (Slot.visit_relabel _ (fun _ => rfl) (fun _ _ => rfl) order) fun order' _ h => ?_
  subst h
  refine .bind (Slot.visit_relabel _ (fun _ => rfl) (fun _ _ => rfl) group) fun group' _ h => ?_
  subst h
  refine .bind (Slot.visit_relabel _ (fun _ => rfl) (fun _ _ => rfl) cluster) fun cluster' _ h => ?_
  subst h
  refine .bind (visitOption_relabel skip) fun skip' _ h => ?_
  subst h
  refine .bind (visitOption_relabel take) fun take' _ h => ?_
  subst h
  refine .bind (Slot.visit_relabel _ (fun _ => rfl) (fun _ _ => rfl) columns) fun columns' _ h => ?_
  subst h
  exact .pure (relabel_eq f _)

/-- Visits that treat relabeled trees alike give relabeled trees. -/
theorem Tree.visit_relabel (hf : Function.Injective f) (hv : v.Coupled C f v') (t : Tree) :
    t.VisitsAlike C f v v' := by
  induction t with
  | step t ih =>
    have hone {a : Tree} (node : Tree → Tree) (ha : a ∈ t.children)
        (hnode : ∀ u, (node u).relabel f = node (u.relabel f)) :
        C.rel (Relabels f) (do return node (← a.visit v)) (do return node (← (a.relabel f).visit v')) :=
      .bind (ih a ha) fun u _ h => .pure ((hnode u).trans (congrArg node h))
    have htwo {a b : Tree} (node : Tree → Tree → Tree) (ha : a ∈ t.children) (hb : b ∈ t.children)
        (hnode : ∀ u w, (node u w).relabel f = node (u.relabel f) (w.relabel f)) :
        C.rel (Relabels f) (do return node (← a.visit v) (← b.visit v))
          (do return node (← (a.relabel f).visit v') (← (b.relabel f).visit v')) :=
      .bind (ih a ha) fun u _ h => .bind (ih b hb) fun w _ h' =>
        .pure ((hnode u w).trans (congrArg₂ node h h'))
    cases t with
    | constant | undefined | parameter | table | column => exact hv.around _ _ _ (.pure rfl)
    | unary _ a | isNull a | member a _ | entity _ a | scalarSubquery a _ | existsSubquery a =>
      exact hv.around _ _ _ (hone _ mem_cons_self fun _ => rfl)
    | binary _ a b | outerJoined a b | inSubquery a b =>
      exact hv.around _ _ _ (htwo _ mem_cons_self (.tail _ (.head _)) fun _ _ => rfl)
    | between a b c =>
      simp only [children, forall_mem_cons] at ih
      refine hv.around _ _ _ (.bind ih.1 fun _ _ ha => .bind ih.2.1 fun _ _ hb =>
        .bind ih.2.2.1 fun _ _ hc => .pure ?_)
      subst ha hb hc
      rfl
    | record fields =>
      rw [VisitsAlike, relabel_record, visit, visit, visitFields_eq, visitFields_eq]
      exact hv.around_of_eq (relabel_record fields) (.bind
        (Slot.visit_relabel _ (fun _ => rfl) (fun _ _ => rfl) (forall_mem_map.1 ih)) fun fields' _ h =>
        .pure ((relabel_record fields').trans (congrArg record h)))
    | rowNumber order =>
      rw [VisitsAlike, relabel_rowNumber, visit, visit, visitKeys_eq, visitKeys_eq]
      exact hv.around_of_eq (relabel_rowNumber order) (.bind
        (Slot.visit_relabel _ (fun _ => rfl) (fun _ _ => rfl) (forall_mem_map.1 ih)) fun order' _ h =>
        .pure ((relabel_rowNumber order').trans (congrArg rowNumber h)))
    | aggregate kind a distinct type =>
      rw [VisitsAlike, relabel_aggregate]
      exact hv.around_of_eq (relabel_aggregate kind a distinct type)
        (.bind (visitOption_relabel ih) fun a' _ h => .pure ((relabel_aggregate kind a' distinct type).trans
          (congrArg (aggregate kind · distinct type) h)))
    | projection a b i =>
      simp only [children, forall_mem_cons] at ih
      refine hv.around _ _ _ (.bind ih.1 fun a' _ ha => .bind ih.2.1 fun b' _ hb => .pure ?_)
      subst ha hb
      simp only [Relabels, relabel, beq_relabel hf]
    | select s i =>
      refine hv.around _ _ _ (.bind (Select.visit_relabel hv ih) fun s' _ hs => .pure ?_)
      subst hs
      simp only [Relabels, relabel, Select.beq_relabel hf]
    | join j i =>
      simp only [children, forall_mem_cons] at ih
      rw [VisitsAlike, relabel_join]
      refine hv.around_of_eq (relabel_join j i) (.bind ih.1 fun l _ hl => .bind ih.2.1 fun r _ hr =>
        .bind (visitOption_relabel ih.2.2) fun c _ hc => .pure ?_)
      subst hl hr hc
      simp only [Relabels, relabel_join, Join.relabel, beq_relabel hf, beqOption_relabel hf]

theorem Tree.bottomUp_relabel (hf : Function.Injective f) {replace replace' : Tree → m Tree}
    (h : ∀ t, C.rel (Relabels f) (replace t) (replace' (t.relabel f))) (t : Tree) :
    C.rel (Relabels f) (t.bottomUp replace) ((t.relabel f).bottomUp replace') := by
  refine visit_relabel hf ⟨fun t x y hxy => ?_, fun _ => .pure trivial⟩ t
  exact .bind hxy fun u _ hu => hu ▸ h u

end Visit

/-! ## Visits that draw no aliases -/

section Pure

variable {f : Alias → Alias}

theorem Tree.foldNode_relabel (t : Tree) : EndAlike Eq (Relabels f) t.foldNode (t.relabel f).foldNode := by
  cases t with
  | binary op l r =>
    simp only [relabel, foldNode, constant?_relabel]
    split
    · exact (Coupling.fallible Eq).bind (R := Eq) (by cases Value.applyBinary op _ _ <;> constructor <;> rfl)
        fun v _ h => .ok (congrArg constant h)
    · exact .ok rfl
  | unary op t =>
    simp only [relabel, foldNode, constant?_relabel]
    split
    · exact (Coupling.fallible Eq).bind (R := Eq) (by cases Value.applyUnary op _ <;> constructor <;> rfl)
        fun v _ h => .ok (congrArg constant h)
    · exact .ok rfl
  | isNull t =>
    simp only [relabel, foldNode, constant?_relabel]
    split
    · exact .ok rfl
    · exact .ok rfl
  | _ => exact .ok rfl

theorem Tree.fold_relabel (hf : Function.Injective f) (t : Tree) :
    EndAlike Eq (Relabels f) t.fold (t.relabel f).fold :=
  bottomUp_relabel (C := Coupling.fallible Eq) hf foldNode_relabel t

theorem Tree.identifyNode_relabel (t : Tree) :
    (Coupling.state Eq).rel (Relabels f) t.identifyNode (t.relabel f).identifyNode := by
  rintro id _ rfl
  cases t with
  | constant v =>
    cases v with
    | double x =>
      cases h : x.isNaN <;> simp only [identifyNode, relabel, h] <;> exact ⟨rfl, trivial⟩
    | _ => exact ⟨rfl, rfl⟩
  | select s i | join j i | projection q t i => cases i <;> exact ⟨rfl, rfl⟩
  | _ => exact ⟨rfl, rfl⟩

theorem Tree.renameNode_relabel {g g' : Alias → Alias} (h : ∀ a, g' (f a) = f (g a)) (t : Tree) :
    (t.relabel f).renameNode g' = (t.renameNode g).relabel f := by
  cases t with
  | table a name => exact congrArg (table · name) (h a)
  | column c => exact congrArg (fun a => column { c with label := a }) (h c.label)
  | select s i =>
    simp only [relabel, renameNode, Select.relabel_eq, h]
  | _ => rfl

theorem Tree.rename_relabel (hf : Function.Injective f) {g g' : Alias → Alias} (h : ∀ a, g' (f a) = f (g a))
    (t : Tree) : (t.relabel f).rename g' = (t.rename g).relabel f := by
  have hrename : Coupling.plain.rel (Relabels f)
      (t.bottomUp fun u => pure (u.renameNode g)) ((t.relabel f).bottomUp fun u => pure (u.renameNode g')) :=
    bottomUp_relabel hf (fun u => (u.renameNode_relabel h).symm) t
  exact hrename.symm

end Pure

end HiveQuery
