import HiveQuery.Proofs.Neatness
import HiveQuery.Proofs.PagesLowered
import HiveQuery.Proofs.ScopeSafety

/-!
# Trees that stay as they are

A query without cross joins and skipped rows is only rebuilt by the last two lowerings, for every dialect.
-/

namespace HiveQuery
open Lowering

variable {t u : Tree} {st : Isolation} {parent : Option JoinKind}

/-- No join in a tree stands under a join of the other sort, and the tree itself may stand under one. -/
inductive Tree.Separated : Option JoinKind → Tree → Prop
  | node {parent : Option JoinKind} {t : Tree} (unmixed : ∀ j ∈ t.join?, mixes j.kind parent = false)
      (children : ∀ a ∈ t.children, Separated (t.around parent) a) : Separated parent t

/-! ## What isolation leaves -/

theorem Tree.IsolatesUnder.separated (h : t.IsolatesUnder parent u) : u.Separated parent := by
  induction t generalizing u parent with
  | step t ih =>
    have hnode {v : Tree} {parent : Option JoinKind} (unmixed : ∀ j ∈ t.join?, mixes j.kind parent = false)
        (same : t.SameNode (IsolatesUnder (t.around parent)) v) : v.Separated parent := by
      have hall : ∀ b ∈ v.children, b.Separated (t.around parent) := by
        intro b hb
        obtain ⟨a, ha, hab⟩ := forall₂_mem_right same.children hb
        exact ih a ha hab
      cases same with
      | join =>
        have hkind := unmixed _ rfl
        refine .node ?_ hall
        rintro _ ⟨rfl⟩
        exact hkind
      | _ => exact .node nofun hall
    cases h.node with
    | column => exact .node nofun nofun
    | node unmixed same => exact hnode unmixed same
    | wrap m hj _ same =>
      refine .node nofun fun a ha => ?_
      rcases Isolation.mem_wrapper ha with rfl | ⟨c, rfl⟩
      · rw [around_of_join hj, ← around_of_join hj none] at same
        exact hnode (fun _ _ => rfl) same
      · exact .node nofun nofun

/-! ## What is separated -/

theorem Tree.Separated.visit (h : t.Separated parent) (st : Isolation) (hparent : st.parent = parent)
    (replaced : st.replaced = []) : (t.visit isolation).run st = (t.renewed, st) := by
  induction h generalizing st with
  | @node parent t unmixed _ ih =>
    obtain ⟨rebuilt, hvisit, hrebuilt⟩ := visit_rebuilt isolation renewed t
    have hrun : ∀ st : Isolation, st.parent = t.around parent → st.replaced = [] →
        rebuilt.run st = (t.renewed, st) := fun st hparent hreplaced => t.renewed_node ▸
      hrebuilt (.state Isolation) st (fun a ha => ih a ha st hparent hreplaced) fun _ _ => rfl
    rw [hvisit]
    cases t with
    | select s i =>
      exact congrArg
        (fun p : Tree × Isolation => (p.1, { p.2 with columns := st.columns, parent := st.parent }))
        (hrun { st with columns := (select s i).readColumns, parent := none } rfl replaced)
    | join j i =>
      show (fun p : Tree × Isolation => (if mixes j.kind st.parent then isolateJoin p.1 else return p.1).run
        { p.2 with parent := st.parent }) (rebuilt.run { st with parent := some j.kind }) = _
      rw [hrun { st with parent := some j.kind } rfl replaced, hparent, unmixed j rfl, ← hparent]
      rfl
    | column c =>
      show (column (followReplaced st.replaced (st.replaced.length + 1) c), st) = _
      rw [replaced]
      rfl
    | _ => exact hrun st hparent replaced

theorem Tree.Separated.isolateCrossJoins (h : t.Separated none) (next : Alias) :
    t.isolateCrossJoins.run next = (t.renewed, next) :=
  congrArg (fun p : Tree × Isolation => (p.1, p.2.next)) (h.visit ⟨next, [], [], none⟩ rfl rfl)

theorem Tree.Separated.mem_subtrees (h : t.Separated parent) (hu : u ∈ t.subtrees) :
    ∃ parent, u.Separated parent := by
  induction h with
  | @node parent t unmixed children ih =>
    rcases Tree.mem_subtrees.1 hu with rfl | ⟨a, ha, hu⟩
    · exact ⟨parent, .node unmixed children⟩
    · exact ih a ha hu

/-- The sides of a join are joins of its own sort, if they are joins. -/
def Tree.JoinsAlike (t : Tree) : Prop :=
  t.Every fun u => ∀ j ∈ u.join?, ∀ side, side = j.left ∨ side = j.right → ∀ i ∈ side.join?,
    (i.kind = .cross ↔ j.kind = .cross)

theorem Tree.Separated.joinsAlike (h : t.Separated parent) : t.JoinsAlike := by
  intro u hu j hj side hside i hi
  obtain ⟨parent, ⟨-, children⟩⟩ := h.mem_subtrees hu
  cases u with
  | join j' _ =>
    cases hj
    have hmem : side ∈ (join j none).children := by
      rcases hside with rfl | rfl <;> simp
    obtain ⟨unmixed, -⟩ := children side hmem
    have hmixes : mixes i.kind (some j.kind) = false := unmixed i hi
    simpa [mixes] using hmixes
  | _ => cases hj

theorem Tree.IsolatedAs.definite (h : t.IsolatedAs u) (ht : t.Definite) : u.Definite := by
  rintro b hb v rfl
  rcases h.mem_subtrees hb with ⟨d, hd⟩ | ⟨st, w, hw⟩ | ⟨a, ha, _, same⟩
  · cases hd
  · cases hw
  · cases same with
    | constant => exact ht _ ha v rfl

/-- Isolation leaves no cross join as a side of a join of another kind or the other way round. Isolating the
result again draws no alias and rebuilds the tree as it is, which is the same tree, identities included,
if no undefined number stands in it as a constant. -/
theorem Tree.isolateCrossJoins_separated (t : Tree) (next next' : Alias) :
    (t.isolateCrossJoins.run next).1.JoinsAlike ∧
      (t.isolateCrossJoins.run next).1.isolateCrossJoins.run next' =
        ((t.isolateCrossJoins.run next).1.renewed, next') ∧
      (t.Definite →
        (t.isolateCrossJoins.run next).1.renewed = (t.isolateCrossJoins.run next).1) := by
  obtain ⟨st, hvisit, -⟩ := isolatesTo_of_run (show t.isolateCrossJoins.run next = _ from rfl)
  have hseparated := Tree.IsolatesUnder.separated ⟨_, _, hvisit, rfl⟩
  refine ⟨hseparated.joinsAlike, ?_, fun h => (Tree.IsolatedAs.definite ⟨_, _, hvisit⟩ h).renewed_eq_self⟩
  exact hseparated.isolateCrossJoins next'

/-! ## Rebuilt trees -/

theorem Tree.renewed_rerouted (t : Tree) : t.Rerouted (fun c d => d = c) t.renewed := by
  induction t with
  | step t ih =>
    obtain ⟨v, same, hv⟩ := bottomUp_node id t
    have hv : t.renewed = v := hv
    rw [hv]
    refine .of_sameNode (fun _ => rfl) (same.imp fun a b ha hab => ?_)
    obtain rfl : b = a.renewed := hab
    exact ih a ha

/-! ## Modest trees -/

def Tree.isModest : Tree → Bool
  | .select s _ => s.skip.isNone
  | .join j _ => j.kind != .cross
  | _ => true

/-- A tree without cross joins and skipped rows, which every dialect expresses as it is. -/
def Tree.Modest (t : Tree) : Prop :=
  t.Every fun u => u.isModest = true

theorem Tree.SameNode.isModest {R : Tree → Tree → Prop} (h : t.SameNode R u) : u.isModest = t.isModest := by
  cases h with
  | select _ _ _ same =>
    show Option.isNone _ = Option.isNone _
    rw [← Option.not_isSome, ← Option.not_isSome, option_isSome_eq same.skip]
  | _ => rfl

theorem Tree.Modest.lowerPaging_eq (h : t.Modest) (dialect : Dialect) :
    t.lowerPaging dialect = pure t.renewed := by
  have hskips : ∀ lower, t.lowerSkips lower = pure t.renewed := fun lower => by
    refine bottomUp_eq_renewed fun u hu => ?_
    cases u with
    | select s i =>
      have hskip : s.renewed.skip = none := by
        simp only [Select.mapClauses, Option.isNone_iff_eq_none.1 (h _ hu), Option.map_none]
      rw [renewed_select, lowerSkipAt, hskip]
    | _ => rfl
  rw [lowerPaging]
  split
  · exact hskips _
  · exact hskips _

theorem Tree.Modest.separated {parent : Option JoinKind} (h : t.Modest) (hparent : parent ≠ some .cross) :
    t.Separated parent := by
  induction t generalizing parent with
  | step t ih =>
    obtain ⟨hnode, hchildren⟩ := every_iff.1 h
    refine .node (fun j hj => ?_) fun a ha => ih a ha (hchildren a ha) ?_
    · cases t with
      | join =>
        cases hj
        cases parent with
        | none => rfl
        | some kind => simp_all [mixes, isModest]
      | _ => cases hj
    · cases t with
      | select => rintro ⟨⟩
      | join => exact fun h => bne_iff_ne.1 hnode (Option.some.inj h)
      | _ => exact hparent

/-! ## Compiled queries -/

theorem Tree.Rerouted.run_select {s : Select Tree} {i : Option Identity}
    (h : (select s i).Rerouted (fun c d => d = c) u) :
    ∃ s' j, u = .select s' j ∧ ∀ env, u.run env = (select s i).run env := by
  obtain ⟨s', j, rfl, hsame⟩ := h.exists_select
  exact ⟨s', j, rfl, fun _ => hsame.run_eq⟩

theorem Tree.Rerouted.checkScopes (h : t.Rerouted (fun c d => d = c) u) (ht : t.checkScopes = .ok ()) :
    u.checkScopes = .ok () := by
  refine checkScopes_iff.2 fun d hd => ?_
  obtain ⟨c, hc, rfl⟩ := h.needs (fun _ _ h _ => h) hd
  exact checkScopes_iff.1 ht _ hc

variable {m : EntityMap} {c : Config} {dialect : Dialect} {bound : Tree} {lookups : List Alias}
  {next next' : Alias}

theorem lower_modest (dialect : Dialect) (hbound : (t.bindMembers m).Gives next (bound, lookups) next')
    (modest : (lowerJoins c lookups bound).Modest) :
    ∃ isolated, (lowerJoins c lookups bound).Rerouted (fun c d => d = c) isolated ∧
      (lower dialect m c t).Gives next isolated.renewed next' := by
  have hseparated : (lowerJoins c lookups bound).Separated none := modest.separated nofun
  by_cases hisolates : c.isolates dialect
  · refine ⟨_, Tree.renewed_rerouted _, gives_bind.2 ⟨_, _, hbound, ?_⟩⟩
    dsimp only
    rw [if_pos hisolates]
    refine gives_bind.2 ⟨_, _, gives_state.2 (hseparated.isolateCrossJoins next'), ?_⟩
    have hmodest := (Tree.renewed_rerouted _).every (fun _ => rfl) (fun _ _ same ha => same.isModest.trans ha) modest
    rw [Tree.Modest.lowerPaging_eq hmodest]
    exact gives_pure.2 ⟨rfl, rfl⟩
  · refine ⟨_, .of_self (Q := fun c d => d = c) (fun _ => rfl) _, gives_bind.2 ⟨_, _, hbound, ?_⟩⟩
    dsimp only
    rw [if_neg hisolates]
    refine gives_bind.2 ⟨_, _, gives_pure.2 ⟨rfl, rfl⟩, ?_⟩
    exact modest.lowerPaging_eq dialect ▸ gives_pure.2 ⟨rfl, rfl⟩

theorem compile_of_lower (hlower : (lower dialect m c t).Gives next u next')
    (scopes : u.checkScopes = .ok ()) :
    (compile dialect m c t).run.run next = (.ok ⟨u, u.parameters⟩, next') := by
  have hadapt : (ExceptT.adapt CompileError.lowering (lower dialect m c t)).run.run next = (.ok u, next') := by
    show (fun p : Except LoweringError Tree × Alias => (p.1.mapError CompileError.lowering, p.2))
      ((lower dialect m c t).run.run next) = _
    rw [hlower]
    rfl
  rw [compile, exceptT_run_bind, hadapt]
  dsimp only
  rw [scopes]
  split <;> rfl

/-- What a query compiles to whose joins are lowered and modest. -/
theorem compile_modest {s : Select Tree} {i : Option Identity}
    (hbound : (t.bindMembers m).Gives next (bound, lookups) next')
    (hs : lowerJoins c lookups bound = .select s i) (modest : (Tree.select s i).Modest)
    (scopes : (Tree.select s i).checkScopes = .ok ()) :
    ∃ q, (compile dialect m c t).run.run next = (.ok q, next') ∧
      ∀ env, q.tree.run env = (Tree.select s i).run env := by
  obtain ⟨isolated, hrerouted, hlower⟩ := lower_modest dialect hbound (hs ▸ modest)
  rw [hs] at hrerouted
  obtain ⟨s₁, i₁, rfl, hrun⟩ := hrerouted.run_select
  obtain ⟨-, -, -, hrun'⟩ := (Tree.select s₁ i₁).renewed_rerouted.run_select
  have hscopes := (Tree.renewed_rerouted _).checkScopes (hrerouted.checkScopes scopes)
  exact ⟨_, compile_of_lower hlower hscopes, fun env => (hrun' env).trans (hrun env)⟩

end HiveQuery
