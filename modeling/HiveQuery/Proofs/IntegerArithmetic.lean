import HiveQuery.Value.Arithmetic
import Mathlib.Algebra.Ring.Int.Defs

/-!
# Arithmetic of 64-bit integers

A result that fits into 64 bits is exact, and any other is an overflow. The one exception is the remainder of the
least integer by minus one.
-/

namespace HiveQuery
set_option autoImplicit false

namespace Value

/-- The outcome of an operation whose exact result is `r`. -/
structure Exact (op : BinaryOp) (r : Int) (outcome : Except ValueError Value) : Prop where
  fits : -2 ^ 63 ≤ r → r < 2 ^ 63 → ∃ i : Int64, i.toInt = r ∧ outcome = .ok (.int i)
  overflows : r < -2 ^ 63 ∨ 2 ^ 63 ≤ r → outcome = .error (.overflow op)

theorem Exact.of_int64? (op : BinaryOp) (r : Int) :
    Exact op r (match int64? r with
      | some i => .ok (.int i)
      | none => .error (.overflow op)) where
  fits hleast hgreatest := by
    have hint : int64? r = some (Int64.ofInt r) := if_pos ⟨hleast, Int.le_of_lt_add_one hgreatest⟩
    rw [hint]
    exact ⟨_, Int64.toInt_ofInt_of_le hleast hgreatest, rfl⟩
  overflows hout := by
    have hint : int64? r = none := if_neg (by simp only [leastInt64, greatestInt64]; omega)
    rw [hint]

theorem Exact.of_ok {op : BinaryOp} {r : Int} {v : Value} (h : Exact op r (.ok v)) :
    ∃ i : Int64, v = .int i ∧ i.toInt = r := by
  by_cases hr : -2 ^ 63 ≤ r ∧ r < 2 ^ 63
  · obtain ⟨i, hi, ⟨⟩⟩ := h.fits hr.1 hr.2
    exact ⟨i, rfl, hi⟩
  · cases h.overflows (by omega)

theorem exact_modulo {a b : Int64} (hzero : b.toInt ≠ 0) (hleast : ¬(a.toInt = -2 ^ 63 ∧ b.toInt = -1)) :
    Exact .modulo (a.toInt.tmod b.toInt) (applyBinary .modulo (.int a) (.int b)) := by
  have hresult : integerResult .modulo a.toInt b.toInt = some (a.toInt.tmod b.toInt) := if_neg hzero
  show Exact _ _ (integerArithmetic .modulo a b)
  rw [integerArithmetic, hresult]
  show Exact _ _ (if _ then _ else _)
  rw [if_neg fun h => hleast h.2]
  exact .of_int64? _ _

/-- Integer arithmetic is exact where its result fits into 64 bits, and an overflow where it does not. A remainder
by zero is null. The remainder of the least integer by minus one, and no other, is an overflow though it fits. -/
theorem integers_exact (a b : Int64) :
    Exact .add (a.toInt + b.toInt) (applyBinary .add (.int a) (.int b)) ∧
      Exact .subtract (a.toInt - b.toInt) (applyBinary .subtract (.int a) (.int b)) ∧
      Exact .multiply (a.toInt * b.toInt) (applyBinary .multiply (.int a) (.int b)) ∧
      (b.toInt = 0 → applyBinary .modulo (.int a) (.int b) = .ok .null) ∧
      (b.toInt ≠ 0 → ¬(a.toInt = -2 ^ 63 ∧ b.toInt = -1) →
        Exact .modulo (a.toInt.tmod b.toInt) (applyBinary .modulo (.int a) (.int b))) ∧
      (a.toInt = -2 ^ 63 → b.toInt = -1 → applyBinary .modulo (.int a) (.int b) = .error (.overflow .modulo)) ∧
      Exact .subtract (-a.toInt) (applyUnary .negate (.int a)) := by
  refine ⟨.of_int64? _ _, .of_int64? _ _, .of_int64? _ _, fun hzero => ?_, exact_modulo, fun ha hb => ?_,
    .of_int64? _ _⟩
  · have hresult : integerResult .modulo a.toInt b.toInt = none := if_pos hzero
    show integerArithmetic .modulo a b = _
    rw [integerArithmetic, hresult]
  · show integerArithmetic .modulo a b = _
    rw [integerArithmetic, ha, hb]
    rfl

/-- The least integer by two has the remainder zero. -/
theorem integers_exact_leastByTwo :
    ∃ i : Int64, i.toInt = 0 ∧ applyBinary .modulo (.int Int64.minValue) (.int 2) = .ok (.int i) :=
  ((integers_exact Int64.minValue 2).2.2.2.2.1 (by decide) (by decide)).fits (by decide) (by decide)

end Value

end HiveQuery
