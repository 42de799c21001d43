import HiveQuery.Lower.Paging
import HiveQuery.Proofs.Traversal

/-!
# What lowerings give
-/

namespace HiveQuery

/-- A lowering that starts with an alias succeeds with a result and leaves another alias. -/
def Lowering.Gives {α : Type} (x : Lowering α) (next : Alias) (a : α) (next' : Alias) : Prop :=
  x.run.run next = (.ok a, next')

/-- What becomes of a select with skipped rows, given both of its bounds. -/
abbrev SkipLowering := Select Tree → Tree → Option Tree → Lowering (Select Tree)

theorem exists_result {ε σ α : Type} {p : Except ε α × σ} (h : p.1.isOk = true) : ∃ a s, p = (.ok a, s) := by
  rcases p with ⟨_ | a, s⟩
  · cases h
  · exact ⟨a, s, rfl⟩

theorem exists_ok_of {ε α : Type} {x : Except ε α} {P : α → Bool} (h : x.toOption.any P = true) :
    ∃ a, x = .ok a ∧ P a = true := by
  cases x with
  | error => cases h
  | ok a => exact ⟨a, rfl, h⟩

theorem exists_result_of {ε σ α : Type} {p : Except ε α × σ} {P : α → Bool} (h : p.1.toOption.any P = true) :
    ∃ a s, p = (.ok a, s) ∧ P a = true := by
  obtain ⟨a, ha, hP⟩ := exists_ok_of h
  exact ⟨a, p.2, Prod.ext ha rfl, hP⟩

theorem Lowering.exists_gives {α : Type} {x : Lowering α} {next : Alias}
    (h : (x.run.run next).1.isOk = true) : ∃ a next', x.Gives next a next' :=
  exists_result h

theorem Lowering.exists_gives_and {α : Type} {x : Lowering α} {next : Alias} {P : α → Prop}
    (h : (x.run.run next).1.isOk = true) (hP : ∀ {a next'}, x.Gives next a next' → P a) :
    ∃ a next', x.Gives next a next' ∧ P a := by
  obtain ⟨a, next', ha⟩ := exists_gives h
  exact ⟨a, next', ha, hP ha⟩

theorem Lowering.exists_gives_of {α : Type} {x : Lowering α} {next : Alias} {P : α → Bool}
    (h : (x.run.run next).1.toOption.any P = true) : ∃ a next', x.Gives next a next' ∧ P a = true :=
  exists_result_of h

theorem exceptT_run_bind {ε σ α β : Type} (x : ExceptT ε (StateM σ) α) (f : α → ExceptT ε (StateM σ) β)
    (s : σ) :
    (x >>= f).run.run s =
      match x.run.run s with
      | (.ok a, s₁) => (f a).run.run s₁
      | (.error e, s₁) => (.error e, s₁) := by
  rw [ExceptT.run_bind, StateT.run_bind]
  show (match x.run.run s with | (r, s₁) => _) = _
  rcases x.run.run s with ⟨r, s₁⟩
  cases r <;> rfl

namespace Lowering

variable {α β : Type} {next next' : Alias}

theorem gives_pure {a b : α} : (pure a : Lowering α).Gives next b next' ↔ b = a ∧ next' = next := by
  constructor
  · intro h
    have h : ((.ok a, next) : Except LoweringError α × Alias) = (.ok b, next') := h
    simp only [Prod.mk.injEq, Except.ok.injEq] at h
    exact ⟨h.1.symm, h.2.symm⟩
  · rintro ⟨rfl, rfl⟩
    rfl

theorem gives_bind {x : Lowering α} {f : α → Lowering β} {b : β} :
    (x >>= f).Gives next b next' ↔ ∃ a next₁, x.Gives next a next₁ ∧ (f a).Gives next₁ b next' := by
  unfold Gives
  rw [exceptT_run_bind]
  rcases x.run.run next with ⟨r, next₁⟩
  cases r with
  | error e =>
    constructor
    · intro h
      cases h
    · rintro ⟨a, next₂, h, _⟩
      cases h
  | ok a =>
    constructor
    · exact fun h => ⟨a, next₁, rfl, h⟩
    · rintro ⟨a', next₂, h, h'⟩
      cases h
      exact h'

theorem gives_fresh {a : Alias} :
    (liftM fresh : Lowering Alias).Gives next a next' ↔ a = next ∧ next' = next + 1 := by
  show ((.ok next, next + 1) : Except LoweringError Alias × Alias) = (.ok a, next') ↔ _
  simp only [Prod.mk.injEq, Except.ok.injEq, eq_comm]

theorem gives_state {x : StateM Alias α} {a : α} :
    (liftM x : Lowering α).Gives next a next' ↔ x.run next = (a, next') := by
  show ((.ok (x.run next).1, (x.run next).2) : Except LoweringError α × Alias) = (.ok a, next') ↔ _
  rw [Prod.mk.injEq, Except.ok.injEq, Prod.ext_iff]

theorem gives_except {x : Except LoweringError α} {a : α} :
    (liftM x : Lowering α).Gives next a next' ↔ x = .ok a ∧ next' = next := by
  show ((x, next) : Except LoweringError α × Alias) = (.ok a, next') ↔ _
  simp only [Prod.mk.injEq, eq_comm]

theorem gives_evaluating {x : Except ValueError α} {a : α} :
    (evaluating x).Gives next a next' ↔ x = .ok a ∧ next' = next := by
  cases x with
  | ok b =>
    rw [evaluating, gives_pure, Except.ok.injEq, eq_comm]
  | error e =>
    show ((.error (.evaluation e), next) : Except LoweringError α × Alias) = (.ok a, next') ↔ _
    simp

end Lowering

def Outcome.except (ε σ : Type) : Outcome (ExceptT ε (StateM σ)) σ where
  gives x s a s' := x.run.run s = (.ok a, s')
  of_pure {_ a b s s'} h := by
    have h : ((.ok a, s) : Except ε _ × σ) = (.ok b, s') := h
    simp only [Prod.mk.injEq, Except.ok.injEq] at h
    exact ⟨h.1.symm, h.2.symm⟩
  of_bind {_ _ x f s s' b} h := by
    rw [exceptT_run_bind] at h
    rcases hx : x.run.run s with ⟨r, s₁⟩
    rw [hx] at h
    cases r with
    | error e => cases h
    | ok a => exact ⟨a, s₁, rfl, h⟩

def lowering : Outcome Lowering Alias :=
  .except LoweringError Alias

end HiveQuery
