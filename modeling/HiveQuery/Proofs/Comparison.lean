import HiveQuery.Relation.Order
import Mathlib.Algebra.Order.Ring.Int
import Mathlib.Data.List.Forall2
import Mathlib.Order.Compare

/-!
# The order of values and of sort keys

Sorting treats values that do not compare as level, so it orders rows only where the values of a key
come from one family. There it is a total preorder, with nulls in front.
-/

namespace HiveQuery

/-! ## Families -/

/-- The kinds of values that compare with each other without rounding. -/
inductive Family where
  | number
  | string
  | boolean
  | timestamp
deriving DecidableEq

def Value.family? : Value → Option Family
  | .int _ | .decimal _ => some .number
  | .string _ => some .string
  | .boolean _ => some .boolean
  | .timestamp _ => some .timestamp
  | .null | .double _ => none

def Value.InFamily (f : Family) (v : Value) : Prop :=
  v.isNull = true ∨ v.family? = some f

/-! ## Total preorders -/

structure ComparesOn {α : Type} (cmp : α → α → Ordering) (p : α → Prop) : Prop where
  swap : ∀ {a b}, p a → p b → cmp b a = (cmp a b).swap
  trans : ∀ {a b c}, p a → p b → p c → (cmp a b).isLE = true → (cmp b c).isLE = true →
    (cmp a c).isLE = true

section

variable {α : Type} {cmp : α → α → Ordering} {p : α → Prop} {a b : α}

theorem ComparesOn.mono {q : α → Prop} (h : ComparesOn cmp p) (sub : ∀ a, q a → p a) : ComparesOn cmp q :=
  ⟨fun ha hb => h.swap (sub _ ha) (sub _ hb), fun ha hb hc => h.trans (sub _ ha) (sub _ hb) (sub _ hc)⟩

theorem ComparesOn.lt_iff (h : ComparesOn cmp p) (ha : p a) (hb : p b) :
    cmp a b = .lt ↔ ¬ (cmp b a).isLE = true := by
  rw [h.swap ha hb]
  cases cmp a b <;> decide

end

/-! ## Values -/

theorem compare_mul_right {a b c : Int} (hc : 0 < c) : compare (a * c) (b * c) = compare a b := by
  rw [← cmp_eq_compare, ← cmp_eq_compare]
  exact cmp_mul_pos_right hc a b

/-- A decimal as a multiple of the smallest step between decimals. -/
def Decimal.steps (d : Decimal) : Int :=
  d.signed * (Number.tenTo (maxScale - d.scale) : Nat)

theorem tenTo_pos (n : Nat) : (0 : Int) < (Number.tenTo n : Nat) :=
  Int.natCast_pos.2 (Nat.pow_pos (by decide))

theorem tenTo_split {a b c : Nat} (hab : a ≤ b) (hbc : b ≤ c) :
    Number.tenTo (c - a) = Number.tenTo (b - a) * Number.tenTo (c - b) := by
  simp only [Number.tenTo]
  have e : c - a = (b - a) + (c - b) := by omega
  rw [e]
  exact Nat.pow_add 10 (b - a) (c - b)

theorem Decimal.compare_eq (a b : Decimal) : a.compare b = Ord.compare a.steps b.steps := by
  have ha := a.scale_le
  have hb := b.scale_le
  have hs : max a.scale b.scale ≤ maxScale := by omega
  rw [steps, steps, tenTo_split (Nat.le_max_left a.scale b.scale) hs,
    tenTo_split (Nat.le_max_right a.scale b.scale) hs, Int.natCast_mul, Int.natCast_mul,
    ← Int.mul_assoc, ← Int.mul_assoc, compare_mul_right (tenTo_pos _)]
  rfl

theorem Decimal.steps_ofInt64 (i : Int64) :
    (ofInt64 i).steps = i.toInt * (Number.tenTo maxScale : Nat) := by
  have hsigned : (ofInt64 i).signed = i.toInt := by
    simp only [signed, ofInt64, decide_eq_true_eq]
    split <;> omega
  rw [steps, hsigned]
  rfl

def Value.steps : Value → Int
  | .int i => (Decimal.ofInt64 i).steps
  | .decimal d => d.steps
  | _ => 0

def Value.stringOf : Value → String
  | .string s => s
  | _ => ""

def Value.booleanOf : Value → Bool
  | .boolean b => b
  | _ => false

def Value.timestampOf : Value → Timestamp
  | .timestamp t => t
  | _ => default

theorem Value.compare?_number {a b : Value} (ha : a.family? = some .number)
    (hb : b.family? = some .number) : a.compare? b = some (compare a.steps b.steps) := by
  cases a <;> cases b <;> simp_all [family?, compare?, numeric?, compareNumeric?, steps, Decimal.compare_eq]
  rw [Decimal.steps_ofInt64, Decimal.steps_ofInt64, compare_mul_right (tenTo_pos maxScale)]

instance : Std.TransCmp Timestamp.compare :=
  inferInstanceAs <| Std.TransCmp <|
    compareLex (compareOn Timestamp.year) <| compareLex (compareOn Timestamp.month) <|
    compareLex (compareOn Timestamp.day) <| compareLex (compareOn Timestamp.hour) <|
    compareLex (compareOn Timestamp.minute) <| compareLex (compareOn Timestamp.second) <|
    compareOn Timestamp.nanosecond

theorem ComparesOn.of_view {β : Type} (cmp : β → β → Ordering) [Std.TransCmp cmp] {f : Family}
    (view : Value → β)
    (h : ∀ {a b : Value}, a.family? = some f → b.family? = some f →
      a.compare? b = some (cmp (view a) (view b))) :
    ComparesOn (fun a b => (Value.compare? a b).getD .eq) (fun v => v.family? = some f) := by
  constructor
  · intro a b ha hb
    simp only [h ha hb, h hb ha, Option.getD_some]
    exact Std.OrientedCmp.eq_swap
  · intro a b c ha hb hc
    simp only [h ha hb, h hb hc, h ha hc, Option.getD_some]
    exact Std.TransCmp.isLE_trans

theorem Value.compare?_comparesOn (f : Family) :
    ComparesOn (fun a b => (compare? a b).getD .eq) (fun v => v.family? = some f) := by
  cases f with
  | number => exact .of_view compare steps compare?_number
  | string =>
    refine .of_view compare stringOf fun {a b} ha hb => ?_
    cases a <;> cases b <;> simp_all [family?, compare?, stringOf]
  | boolean =>
    refine .of_view compare booleanOf fun {a b} ha hb => ?_
    cases a <;> cases b <;> simp_all [family?, compare?, booleanOf]
  | timestamp =>
    refine .of_view Timestamp.compare timestampOf fun {a b} ha hb => ?_
    cases a <;> cases b <;> simp_all [family?, compare?, timestampOf]

theorem Value.isNull_eq_false {v : Value} {f : Family} (h : v.family? = some f) : v.isNull = false := by
  cases v <;> simp_all [family?, isNull]

/-- Sorting orders the values of one family. -/
theorem Value.sortCompare_comparesOn (f : Family) : ComparesOn sortCompare (Value.InFamily f) := by
  have h := compare?_comparesOn f
  constructor
  · rintro a b (ha | ha) (hb | hb)
    · simp [sortCompare, ha, hb]
    · simp [sortCompare, ha, isNull_eq_false hb]
    · simp [sortCompare, hb, isNull_eq_false ha]
    · simp only [sortCompare, isNull_eq_false ha, isNull_eq_false hb]
      exact h.swap ha hb
  · rintro a b c (ha | ha) (hb | hb) (hc | hc) hab hbc
    · simp [sortCompare, ha, hc]
    · simp [sortCompare, ha, isNull_eq_false hc]
    · simp [sortCompare, ha, hc]
    · simp [sortCompare, ha, isNull_eq_false hc]
    · simp [sortCompare, hb, isNull_eq_false ha] at hab
    · simp [sortCompare, hb, isNull_eq_false ha] at hab
    · simp [sortCompare, hc, isNull_eq_false hb] at hbc
    · simp only [sortCompare, isNull_eq_false ha, isNull_eq_false hb, isNull_eq_false hc] at hab hbc ⊢
      exact h.trans ha hb hc hab hbc

/-! ## Keys -/

/-- Keys whose places hold nulls and values of the given families. -/
def KeyIn (families : List Family) (key : List Value) : Prop :=
  List.Forall₂ Value.InFamily families key

theorem Direction.compare_comparesOn {p : Value → Prop} (h : ComparesOn Value.sortCompare p) (d : Direction) :
    ComparesOn d.compare p := by
  cases d with
  | ascending => exact h
  | descending =>
    exact ⟨fun ha hb => h.swap hb ha, fun ha hb hc hab hbc => h.trans hc hb ha hbc hab⟩

theorem compareKeys_comparesOn_nil (directions : List Direction) :
    ComparesOn (compareKeys directions) (· = []) := by
  constructor
  · rintro _ _ rfl rfl
    cases directions <;> rfl
  · rintro _ _ _ rfl rfl rfl _ _
    cases directions <;> rfl

theorem compareKeys_comparesOn_cons {p : Value → Prop} {q : List Value → Prop}
    (hp : ComparesOn Value.sortCompare p) (hq : ∀ directions, ComparesOn (compareKeys directions) q)
    (directions : List Direction) :
    ComparesOn (compareKeys directions) fun key => ∃ v vs, key = v :: vs ∧ p v ∧ q vs := by
  cases directions with
  | nil =>
    constructor
    · intro a b _ _
      rfl
    · intro a b c _ _ _ _ _
      rfl
  | cons d ds =>
    have hd := d.compare_comparesOn hp
    have hds := hq ds
    constructor
    · rintro _ _ ⟨x, a, rfl, hx, ha⟩ ⟨y, b, rfl, hy, hb⟩
      simp only [compareKeys, Ordering.swap_then, hd.swap hx hy, hds.swap ha hb]
    · rintro _ _ _ ⟨x, a, rfl, hx, ha⟩ ⟨y, b, rfl, hy, hb⟩ ⟨z, c, rfl, hz, hc⟩ hab hbc
      simp only [compareKeys, Ordering.isLE_then_iff_and] at hab hbc ⊢
      refine ⟨hd.trans hx hy hz hab.1 hbc.1, ?_⟩
      rcases hab.2 with hab' | hab'
      · exact .inl ((hd.lt_iff hx hz).2 fun hzx => (hd.lt_iff hx hy).1 hab' (hd.trans hy hz hx hbc.1 hzx))
      rcases hbc.2 with hbc' | hbc'
      · exact .inl ((hd.lt_iff hx hz).2 fun hzx => (hd.lt_iff hy hz).1 hbc' (hd.trans hz hx hy hzx hab.1))
      · exact .inr (hds.trans ha hb hc hab' hbc')

/-- Sorting orders keys whose places hold values of one family each. -/
theorem compareKeys_comparesOn (directions : List Direction) (families : List Family) :
    ComparesOn (compareKeys directions) (KeyIn families) := by
  induction families generalizing directions with
  | nil => exact (compareKeys_comparesOn_nil directions).mono fun _ h => List.forall₂_nil_left_iff.1 h
  | cons f fs ih =>
    refine (compareKeys_comparesOn_cons (Value.sortCompare_comparesOn f) ih directions).mono ?_
    rintro _ (_ | ⟨hv, hvs⟩)
    exact ⟨_, _, rfl, hv, hvs⟩

/-- Keys that sorting orders, whatever the directions: it is a total preorder on them. Keys whose places hold
values of one family each are such keys. -/
def Comparable (keys : List (List Value)) : Prop :=
  ∀ directions, ComparesOn (compareKeys directions) (· ∈ keys)

theorem Comparable.mono {keys keys' : List (List Value)} (h : Comparable keys)
    (sub : ∀ key ∈ keys', key ∈ keys) : Comparable keys' := fun directions => (h directions).mono sub

theorem Comparable.of_families {keys : List (List Value)} (families : List Family)
    (h : ∀ key ∈ keys, KeyIn families key) : Comparable keys := fun directions =>
  (compareKeys_comparesOn directions families).mono h

theorem comparable_nil : Comparable [] := .of_families [] (by simp)

/-! ## Values of different families -/

theorem Value.isNull_or_family {v : Value} (exact : ∀ x, v ≠ .double x) :
    v.isNull = true ∨ ∃ f, v.family? = some f := by
  cases v with
  | null => exact .inl rfl
  | double x => exact absurd rfl (exact x)
  | _ => exact .inr ⟨_, rfl⟩

theorem Value.sortCompare_null {v w : Value} (hv : v.isNull = true) :
    (v.sortCompare w).isLE = true ∧ ((w.sortCompare v).isLE = true ↔ w.isNull = true) := by
  rw [sortCompare, sortCompare, hv]
  cases w.isNull <;> simp

theorem Value.sortCompare_of_family {a b : Value} {f g : Family} (ha : a.family? = some f)
    (hb : b.family? = some g) : a.sortCompare b = (a.compare? b).getD .eq := by
  rw [sortCompare, isNull_eq_false ha, isNull_eq_false hb]

theorem Value.compare?_eq_none {a b : Value} {f g : Family} (ha : a.family? = some f)
    (hb : b.family? = some g) (hne : f ≠ g) : a.compare? b = none := by
  cases a <;> cases ha <;> cases b <;> cases hb <;> first | rfl | exact absurd rfl hne

theorem Value.sortCompare_swap {a b : Value} (ha : ∀ x, a ≠ .double x) (hb : ∀ x, b ≠ .double x) :
    b.sortCompare a = (a.sortCompare b).swap := by
  rcases isNull_or_family ha with ha | ⟨f, ha⟩ <;> rcases isNull_or_family hb with hb | ⟨g, hb⟩
  · exact (sortCompare_comparesOn .number).swap (.inl ha) (.inl hb)
  · exact (sortCompare_comparesOn g).swap (.inl ha) (.inr hb)
  · exact (sortCompare_comparesOn f).swap (.inr ha) (.inl hb)
  · by_cases hne : f = g
    · subst hne
      exact (sortCompare_comparesOn f).swap (.inr ha) (.inr hb)
    · rw [sortCompare_of_family ha hb, sortCompare_of_family hb ha, compare?_eq_none ha hb hne,
        compare?_eq_none hb ha (Ne.symm hne)]
      rfl

theorem Value.sortCompare_not_trans {a b c : Value} (ha : ∀ x, a ≠ .double x) (hb : ∀ x, b ≠ .double x)
    (hc : ∀ x, c ≠ .double x) :
    ((a.sortCompare b).isLE = true ∧ (b.sortCompare c).isLE = true ∧ (a.sortCompare c).isLE = false) ↔
      a.compare? c = some .gt ∧ b.isNull = false ∧ b.family? ≠ a.family? := by
  rcases isNull_or_family ha with ha | ⟨f, ha⟩
  · have hnone : a.compare? c = none := by
      cases a with
      | null => rfl
      | _ => cases ha
    simp [(sortCompare_null ha).1, hnone]
  rcases isNull_or_family hb with hb | ⟨g, hb⟩
  · simp [(sortCompare_null hb).2, isNull_eq_false ha, hb]
  rcases isNull_or_family hc with hc | ⟨k, hc⟩
  · have hnone : a.compare? c = none := by
      cases c with
      | null => cases a <;> rfl
      | _ => cases hc
    simp [(sortCompare_null hc).2, isNull_eq_false hb, hnone]
  rw [sortCompare_of_family ha hc]
  by_cases hac : f = k
  · subst hac
    by_cases hab : f = g
    · subst hab
      have htrans := (sortCompare_comparesOn f).trans (.inr ha) (.inr hb) (.inr hc)
      rw [sortCompare_of_family ha hc] at htrans
      grind
    · rw [sortCompare_of_family ha hb, sortCompare_of_family hb hc, compare?_eq_none ha hb hab,
        compare?_eq_none hb hc (Ne.symm hab), hb, ha, isNull_eq_false hb]
      cases a.compare? c with
      | none => simp
      | some o => cases o <;> simp [Ne.symm hab]
  · simp [compare?_eq_none ha hc hac]

/-- The order of sorting runs both ways and has nulls in front. It is not transitive across families, so it is a
total preorder only on keys whose places hold values of one family each. -/
theorem Value.sortCompare_laws {a b c : Value} (ha : ∀ x, a ≠ .double x) (hb : ∀ x, b ≠ .double x)
    (hc : ∀ x, c ≠ .double x) :
    b.sortCompare a = (a.sortCompare b).swap ∧
      (a.isNull = false → null.sortCompare a = .lt) ∧
      (((a.sortCompare b).isLE = true ∧ (b.sortCompare c).isLE = true ∧ (a.sortCompare c).isLE = false) ↔
        a.compare? c = some .gt ∧ b.isNull = false ∧ b.family? ≠ a.family?) ∧
      ∀ directions families, ComparesOn (compareKeys directions) (KeyIn families) := by
  refine ⟨sortCompare_swap ha hb, fun hnull => ?_, sortCompare_not_trans ha hb hc, compareKeys_comparesOn⟩
  rw [sortCompare, hnull]
  rfl

theorem Value.sortCompare_circle :
    ((int 2).sortCompare (.string "a")).isLE = true ∧ ((string "a").sortCompare (.int 1)).isLE = true ∧
      ((int 2).sortCompare (.int 1)).isLE = false :=
  (sortCompare_laws (a := .int 2) (b := .string "a") (c := .int 1) nofun nofun nofun).2.2.1.2
    ⟨by decide, rfl, by decide⟩

end HiveQuery
