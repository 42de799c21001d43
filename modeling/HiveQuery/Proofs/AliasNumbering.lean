import HiveQuery.Proofs.CompiledQueries
import HiveQuery.Proofs.RelabeledJoins
import HiveQuery.Proofs.RelabeledMembers
import HiveQuery.Proofs.RelabeledText
import Mathlib.Data.Fintype.Sum

/-!
# Numbers of aliases

How the aliases of a query are numbered cannot be seen in its statement, in its parameters, or in the kind of its
errors.
-/

namespace HiveQuery

/-! ## Statements -/

inductive ErrorKind where
  | structuralPrecondition
  | missingClause
  | mapping
  | evaluation
  | validation
  | unsupported
  | emit
deriving DecidableEq

def LoweringError.kind : LoweringError → ErrorKind
  | .distinctOrdering _ => .structuralPrecondition
  | .missingOrder => .missingClause
  | .unknownEntity _ | .unmappedMember _ _ => .mapping
  | .evaluation _ => .evaluation

def CompileError.kind : CompileError → ErrorKind
  | .lowering e => e.kind
  | .scope _ => .validation

def SqlError.kind (e : SqlError) : ErrorKind :=
  if e.isUnsupported then .unsupported else .emit

def CompiledQuery.render (layout : String → String) (c : Config) (dialect : Dialect) (q : CompiledQuery) :
    Except SqlError String :=
  (q.sql dialect).map fun text => if c.prettyPrint then layout text else text

/-- The statement of a query and its parameters, or what kind of failure there is. The first alias that is
drawn is `next`. -/
def translate (layout : String → String) (dialect : Dialect) (m : EntityMap) (c : Config) (t : Tree)
    (next : Alias) : Except ErrorKind (String × List Parameter) :=
  match ((compile dialect m c t).run.run next).1 with
  | .error e => .error e.kind
  | .ok q =>
    match q.render layout c dialect with
    | .error e => .error e.kind
    | .ok text => .ok (text, q.parameters)

variable {f : Alias → Alias} {first : Alias} {layout : String → String} {dialect : Dialect} {m : EntityMap}
  {c : Config} {t : Tree}

/-! ## Compilation -/

theorem lower_relabel (hf : Renumbers f first) (dialect : Dialect) (m : EntityMap) (c : Config) (t : Tree) :
    (renumbered f first).rel (Tree.Relabels f) (lower dialect m c t) (lower dialect m c (t.relabel f)) := by
  refine .bind (t.bindMembers_relabel hf m) ?_
  rintro ⟨bound, lookups⟩ _ rfl
  have hjoins : lowerJoins c (lookups.map f) (bound.relabel f) = (lowerJoins c lookups bound).relabel f := by
    simp only [lowerJoins]
    split <;> split <;>
      simp only [Tree.lowerApplies_relabel hf.injective, Tree.dropRepeatedLookups_relabel hf.injective]
  simp only [lowerJoins] at hjoins
  simp only [hjoins]
  split
  · refine .bind (renumbered_state (Tree.isolateCrossJoins_relabel hf _)) ?_
    rintro isolated _ rfl
    exact Tree.lowerPaging_relabel hf dialect isolated
  · simp only [pure_bind]
    exact Tree.lowerPaging_relabel hf dialect _

def CompileError.SameKind (e e' : CompileError) : Prop :=
  e.kind = e'.kind

theorem LoweringError.kind_relabel (e : LoweringError) : (e.relabel f).kind = e.kind := by
  cases e <;> rfl

theorem SqlError.kind_relabel (e : SqlError) : (e.relabel f).kind = e.kind := by
  cases e <;> rfl

def CompiledQuery.relabel (f : Alias → Alias) (q : CompiledQuery) : CompiledQuery :=
  ⟨q.tree.relabel f, q.parameters⟩

theorem Coupling.failing_adapt {ε ε' σ α β : Type} {E : ε → ε → Prop} {E' : ε' → ε' → Prop}
    {S : σ → σ → Prop} {R : α → β → Prop} {g : ε → ε'} {x : ExceptT ε (StateM σ) α}
    {y : ExceptT ε (StateM σ) β} (hg : ∀ e e', E e e' → E' (g e) (g e')) (h : (failing E S).rel R x y) :
    (failing E' S).rel R (ExceptT.adapt g x) (ExceptT.adapt g y) := by
  intro s s' hs
  obtain ⟨hresult, hstate⟩ := h s s' hs
  refine ⟨?_, hstate⟩
  show EndAlike E' R ((x.run.run s).1.mapError g) ((y.run.run s').1.mapError g)
  generalize (x.run.run s).1 = r, (y.run.run s').1 = r' at hresult
  cases hresult with
  | ok h => exact .ok h
  | error h => exact .error (hg _ _ h)

/-- A relabeled query compiles to the relabeled query. -/
theorem compile_relabel (hf : Renumbers f first) (dialect : Dialect) (m : EntityMap) (c : Config) (t : Tree) :
    (Coupling.failing CompileError.SameKind (InStep f first)).rel (fun q q' => q.relabel f = q')
      (compile dialect m c t) (compile dialect m c (t.relabel f)) := by
  refine Coupling.bind _ (Coupling.failing_adapt ?_ (lower_relabel hf dialect m c t)) ?_
  · rintro e _ rfl
    exact e.kind_relabel.symm
  · rintro lowered _ rfl
    have hdone : CompiledQuery.relabel f ⟨lowered, lowered.parameters⟩ =
        ⟨lowered.relabel f, (lowered.relabel f).parameters⟩ := by
      rw [Tree.parameters_relabel]
      rfl
    have hscopes : (lowered.relabel f).checkScopes = .ok () ↔ lowered.checkScopes = .ok () :=
      lowered.checkScopesIn_relabel hf.injective []
    dsimp only
    split
    · cases hlowered : lowered.checkScopes with
      | ok =>
        rw [hscopes.2 hlowered]
        exact Coupling.pure _ hdone
      | error e =>
        cases hrelabeled : (lowered.relabel f).checkScopes with
        | ok => exact nomatch hlowered.symm.trans (hscopes.1 hrelabeled)
        | error e' => exact fun _ _ hn => ⟨.error rfl, hn⟩
    · exact Coupling.pure _ hdone

/-! ## Text -/

theorem CompiledQuery.render_relabel (hf : Function.Injective f) (layout : String → String) (c : Config)
    (dialect : Dialect) (q : CompiledQuery) :
    (spelling f).rel Eq (q.render layout c dialect) ((q.relabel f).render layout c dialect) := by
  have htext := q.tree.toSql_relabel hf dialect
  rw [render, render, sql, sql]
  show EndAlike _ Eq _ (((q.tree.relabel f).toSql dialect).map _)
  generalize q.tree.toSql dialect = r, (q.tree.relabel f).toSql dialect = r' at htext
  cases htext with
  | ok h => exact .ok (congrArg (fun text => if c.prettyPrint then layout text else text) h)
  | error h => exact .error h

/-- The statement is the same if the supply is renumbered along with the query. -/
theorem translate_relabel_of_renumbers (hf : Renumbers f first) {next : Alias} (hnext : first ≤ next) :
    translate layout dialect m c (t.relabel f) (f next) = translate layout dialect m c t next := by
  have hcompiled := (compile_relabel hf dialect m c t next (f next) ⟨hnext, rfl⟩).1
  rw [translate, translate]
  generalize ((compile dialect m c t).run.run next).1 = r,
    ((compile dialect m c (t.relabel f)).run.run (f next)).1 = r' at hcompiled
  cases hcompiled with
  | error h => exact congrArg Except.error h.symm
  | @ok q _ h =>
    subst h
    have htext := q.render_relabel hf.injective layout c dialect
    simp only
    generalize q.render layout c dialect = text, (q.relabel f).render layout c dialect = text' at htext
    cases htext with
    | ok h => exact congrArg (fun text => Except.ok (text, q.parameters)) h.symm
    | @error e _ h =>
      subst h
      exact congrArg Except.error e.kind_relabel

/-! ## Renumbering -/

def shift (k d a : Nat) : Nat :=
  if a < k then a else a + d

theorem shift_of_lt {k d a : Nat} (h : a < k) : shift k d a = a := if_pos h

theorem shift_of_le {k d a : Nat} (h : k ≤ a) : shift k d a = a + d := if_neg (Nat.not_lt.2 h)

theorem shift_renumbers (k d : Nat) : Renumbers (shift k d) k where
  injective := by
    intro (a : Nat) (b : Nat) (h : shift k d a = shift k d b)
    show (a : Nat) = b
    simp only [shift] at h
    split at h <;> split at h <;> omega
  succ := by
    intro (n : Nat) (hn : k ≤ n)
    rw [shift_of_le hn, shift_of_le (Nat.le_succ_of_le hn), Nat.add_right_comm]

theorem translate_start {k k' : Nat} (below : ∀ a ∈ t.aliases, a < k) (hk : k ≤ k') :
    translate layout dialect m c t k' = translate layout dialect m c t k := by
  have hself : t.relabel (shift k (k' - k)) = t :=
    (Tree.relabel_congr fun a ha => shift_of_lt (below a ha)).trans t.relabel_id
  have hstart : shift k (k' - k) k = k' := by rw [shift_of_le le_rfl, Nat.add_sub_cancel' hk]
  calc translate layout dialect m c t k'
      = translate layout dialect m c (t.relabel (shift k (k' - k))) (shift k (k' - k) k) := by
        rw [hself, hstart]
    _ = translate layout dialect m c t k := translate_relabel_of_renumbers (shift_renumbers k (k' - k)) le_rfl

/-- An injective change of aliases below a number extends to a renumbering that keeps this number. -/
theorem Renumbers.exists_extending {ρ : Alias → Alias} {k : Alias} {as : List Alias}
    (injective : ∀ a ∈ as, ∀ b ∈ as, ρ a = ρ b → a = b) (below : ∀ a ∈ as, a < k)
    (below' : ∀ a ∈ as, ρ a < k) : ∃ f, Renumbers f k ∧ f k = k ∧ ∀ a ∈ as, f a = ρ a := by
  have hcard : Fintype.card (Fin k) = (Finset.range k).card := by simp
  have hmaps : Set.MapsTo (fun a : Fin k => ρ a) {a : Fin k | a.val ∈ as} (Finset.range k) := fun a ha =>
    Finset.mem_coe.2 (Finset.mem_range.2 (below' a ha))
  have hinj : Set.InjOn (fun a : Fin k => ρ a) {a : Fin k | a.val ∈ as} := fun a ha b hb h =>
    Fin.ext (injective a ha b hb h)
  obtain ⟨g, hg⟩ := hmaps.exists_equiv_extend_of_card_eq hcard hinj
  have hlt (a : Fin k) : (g a : Nat) < k := Finset.mem_range.1 (g a).2
  let f (a : Nat) : Nat := if h : a < k then g ⟨a, h⟩ else a
  have hinside {a : Nat} (h : a < k) : f a = g ⟨a, h⟩ := dif_pos h
  have houtside {a : Nat} (h : k ≤ a) : f a = a := dif_neg (Nat.not_lt.2 h)
  refine ⟨f, ⟨?_, fun n hn => ?_⟩, houtside le_rfl, fun a ha => ?_⟩
  · intro (a : Nat) (b : Nat) (h : f a = f b)
    rcases Nat.lt_or_ge a k with ha | ha <;> rcases Nat.lt_or_ge b k with hb | hb
    · rw [hinside ha, hinside hb] at h
      exact congrArg Fin.val (g.injective (Subtype.ext h))
    · rw [hinside ha, houtside hb] at h
      exact absurd (hlt ⟨a, ha⟩) (by omega)
    · rw [houtside ha, hinside hb] at h
      exact absurd (hlt ⟨b, hb⟩) (by omega)
    · rwa [houtside ha, houtside hb] at h
  · rw [houtside hn, houtside (Nat.le_succ_of_le hn)]
  · exact (hinside (below a ha)).trans (hg ⟨a, below a ha⟩ ha)

/-- The statement of a query and its parameters, or the kind of its failure, depend neither on the numbers
of its aliases nor on the alias that is drawn first. -/
theorem translate_relabel {ρ : Alias → Alias} {k k' : Alias}
    (injective : ∀ a ∈ t.aliases, ∀ b ∈ t.aliases, ρ a = ρ b → a = b) (below : ∀ a ∈ t.aliases, a < k)
    (below' : ∀ a ∈ (t.relabel ρ).aliases, a < k') :
    translate layout dialect m c (t.relabel ρ) k' = translate layout dialect m c t k := by
  have hrenumbered : ∀ a ∈ t.aliases, ρ a < k' := fun a ha =>
    below' _ (Tree.mem_aliases_relabel.2 ⟨a, ha, rfl⟩)
  obtain ⟨f, hf, hstart, hfρ⟩ := Renumbers.exists_extending injective
    (fun a ha => lt_of_lt_of_le (below a ha) (le_max_left k k'))
    (fun a ha => lt_of_lt_of_le (hrenumbered a ha) (le_max_right k k'))
  calc translate layout dialect m c (t.relabel ρ) k'
      = translate layout dialect m c (t.relabel ρ) (max k k') :=
        (translate_start below' (le_max_right k k')).symm
    _ = translate layout dialect m c (t.relabel f) (f (max k k')) := by
        rw [Tree.relabel_congr hfρ, hstart]
    _ = translate layout dialect m c t (max k k') := translate_relabel_of_renumbers hf le_rfl
    _ = translate layout dialect m c t k := translate_start below (le_max_left k k')

theorem translate_relabel_pagedNotes :
    (∀ a ∈ pagedNotes.aliases, ∀ b ∈ pagedNotes.aliases, 9 - 2 * a = 9 - 2 * b → a = b) ∧
      (∀ a ∈ pagedNotes.aliases, a < 5) ∧ (∀ a ∈ (pagedNotes.relabel (9 - 2 * ·)).aliases, a < 20) ∧
      translate id .hive [] {} (pagedNotes.relabel (9 - 2 * ·)) 20 = translate id .hive [] {} pagedNotes 5 ∧
      (translate id .hive [] {} pagedNotes 5).isOk = true := by
  have hinjective : ∀ a ∈ pagedNotes.aliases, ∀ b ∈ pagedNotes.aliases, 9 - 2 * a = 9 - 2 * b → a = b := by
    decide
  have hbelow : ∀ a ∈ pagedNotes.aliases, a < 5 := by decide
  have hbelow' : ∀ a ∈ (pagedNotes.relabel (9 - 2 * ·)).aliases, a < 20 := by decide
  exact ⟨hinjective, hbelow, hbelow', translate_relabel hinjective hbelow hbelow', by decide +kernel⟩

end HiveQuery
