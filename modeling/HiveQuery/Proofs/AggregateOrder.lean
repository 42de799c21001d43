import HiveQuery.Evaluate
import HiveQuery.Proofs.IntegerArithmetic
import HiveQuery.Proofs.Lists
import Mathlib.Algebra.BigOperators.Group.List.Basic
import Mathlib.Algebra.Order.Ring.Int
import Mathlib.Data.List.Dedup
import Mathlib.Data.List.Induction
import Mathlib.Order.Compare

/-!
# Aggregates of integers in the order of the rows

A sum is added up row by row and is an overflow once a total on the way leaves the range, even if the sum of all
integers is back inside.
-/

namespace HiveQuery
open List Value
set_option autoImplicit false

/-! ## Sums -/

abbrev InRange (r : Int) : Prop := leastInt64 ≤ r ∧ r ≤ greatestInt64

def exactSum (is : List Int64) : Int := (is.map Int64.toInt).sum

def runningTotals (is : List Int64) : List Int := (is.map Int64.toInt).scanl (· + ·) 0

structure Reaches (totals : List Int) (sum : Int) (outcome : Run Value) : Prop where
  fits : (∀ r ∈ totals, InRange r) → ∃ i : Int64, i.toInt = sum ∧ outcome = .ok (.int i)
  overflows : (∃ r ∈ totals, ¬ InRange r) → outcome = .error (.value (.overflow .add))

/-- The outcome of adding up integers in their order; null without integers. -/
structure SumsTo (is : List Int64) (outcome : Run Value) : Prop where
  empty : is = [] → outcome = .ok .null
  reaches : is ≠ [] → Reaches (runningTotals is) (exactSum is) outcome

theorem inRange_toInt (i : Int64) : InRange i.toInt := ⟨i.le_toInt, Int.le_of_lt_add_one i.toInt_lt⟩

theorem add_exact (i j : Int64) : Exact .add (i.toInt + j.toInt) (applyBinary .add (.int i) (.int j)) :=
  .of_int64? _ _

theorem foldlM_add_reaches (is : List Int64) (i : Int64) :
    Reaches ((is.map Int64.toInt).scanl (· + ·) i.toInt) (i.toInt + exactSum is)
      (Run.ofValue ((is.map int).foldlM (fun sum w => applyBinary .add sum w) (.int i))) := by
  induction is generalizing i with
  | nil =>
    refine ⟨fun _ => ⟨i, (Int.add_zero _).symm, rfl⟩, fun ⟨r, hr, hout⟩ => ?_⟩
    exact absurd (mem_singleton.1 hr ▸ inRange_toInt i) hout
  | cons j js ih =>
    have htotal : exactSum (j :: js) = j.toInt + exactSum js := rfl
    rw [map_cons, map_cons, scanl_cons, foldlM_cons, htotal, ← Int.add_assoc]
    by_cases hfits : InRange (i.toInt + j.toInt)
    · obtain ⟨k, hk, hsum⟩ := (add_exact i j).fits hfits.1 (Int.lt_add_one_of_le hfits.2)
      rw [hsum, ← hk]
      refine ⟨fun hall => (ih k).fits fun r hr => hall r (.tail _ hr), fun ⟨r, hr, hout⟩ => ?_⟩
      rcases mem_cons.1 hr with rfl | hr
      · exact absurd (inRange_toInt i) hout
      · exact (ih k).overflows ⟨r, hr, hout⟩
    · have hout : applyBinary .add (.int i) (.int j) = .error (.overflow .add) :=
        (add_exact i j).overflows (by simp only [InRange, leastInt64, greatestInt64] at hfits; omega)
      rw [hout]
      refine ⟨fun hall => absurd (hall _ ?_) hfits, fun _ => rfl⟩
      cases js <;> simp

theorem sumValues_sumsTo (is : List Int64) : SumsTo is (Run.ofValue (sumValues (is.map .int))) := by
  cases is with
  | nil => exact ⟨fun _ => rfl, fun h => absurd rfl h⟩
  | cons i is =>
    have hreaches := foldlM_add_reaches is i
    have htotals : runningTotals (i :: is) = 0 :: (is.map Int64.toInt).scanl (· + ·) i.toInt := by
      rw [runningTotals, map_cons, scanl_cons, Int.zero_add]
    refine ⟨nofun, fun _ => htotals ▸ ⟨fun hall => hreaches.fits fun r hr => hall r (.tail _ hr), ?_⟩⟩
    rintro ⟨r, hr, hout⟩
    rcases mem_cons.1 hr with rfl | hr
    · exact absurd (by decide) hout
    · exact hreaches.overflows ⟨r, hr, hout⟩

/-! ## Sums in different orders -/

theorem exactSum_mem_runningTotals (is : List Int64) : exactSum is ∈ runningTotals is := by
  have hlast : (runningTotals is).getLast? = some ((is.map Int64.toInt).foldl (· + ·) 0) := getLast?_scanl
  rw [exactSum, sum_eq_foldl]
  exact mem_of_getLast? hlast

theorem scanl_bounds (is : List Int64) (start : Int) :
    ∀ r ∈ (is.map Int64.toInt).scanl (· + ·) start,
      start + (is.map fun i => min i.toInt 0).sum ≤ r ∧ r ≤ start + (is.map fun i => max i.toInt 0).sum := by
  induction is generalizing start with
  | nil => simp
  | cons i is ih =>
    intro r hr
    rw [map_cons, map_cons, sum_cons, sum_cons]
    rw [map_cons, scanl_cons] at hr
    rcases mem_cons.1 hr with rfl | hr
    · have := ih r r (by cases is <;> simp)
      omega
    · have := ih _ r hr
      omega

variable {is js : List Int64} {outcome outcome' : Run Value}

theorem SumsTo.eq_null_or_exact (h : SumsTo is outcome) {v : Value} (hv : outcome = .ok v) :
    (is = [] ∧ v = .null) ∨ is ≠ [] ∧ ∃ i : Int64, i.toInt = exactSum is ∧ v = .int i := by
  subst hv
  by_cases hempty : is = []
  · cases h.empty hempty
    exact .inl ⟨hempty, rfl⟩
  · by_cases hall : ∀ r ∈ runningTotals is, InRange r
    · obtain ⟨i, hi, ⟨⟩⟩ := (h.reaches hempty).fits hall
      exact .inr ⟨hempty, i, hi, rfl⟩
    · push Not at hall
      cases (h.reaches hempty).overflows hall

theorem exactSum_perm (perm : is.Perm js) : exactSum is = exactSum js := (perm.map _).sum_eq

theorem SumsTo.unique (perm : is.Perm js) (h : SumsTo is outcome) (h' : SumsTo js outcome') {v w : Value}
    (hv : outcome = .ok v) (hw : outcome' = .ok w) : v = w := by
  rcases h.eq_null_or_exact hv with ⟨hempty, rfl⟩ | ⟨hne, i, hi, rfl⟩ <;>
    rcases h'.eq_null_or_exact hw with ⟨hempty', rfl⟩ | ⟨hne', j, hj, rfl⟩
  · rfl
  · exact absurd (hempty ▸ perm).nil_eq.symm hne'
  · exact absurd (hempty' ▸ perm).eq_nil hne
  · rw [Int64.toInt_inj.1 (hi.trans ((exactSum_perm perm).trans hj.symm))]

/-- In every order the sum is reached if it is within bounds on both sides of zero. -/
theorem SumsTo.exact (h : SumsTo is outcome) (negative : InRange (is.map fun i => min i.toInt 0).sum)
    (positive : InRange (is.map fun i => max i.toInt 0).sum) : ∃ v, outcome = .ok v := by
  by_cases hempty : is = []
  · exact ⟨_, h.empty hempty⟩
  · obtain ⟨i, -, hi⟩ := (h.reaches hempty).fits fun r hr => by
      have := scanl_bounds is 0 r hr
      simp only [InRange] at negative positive ⊢
      omega
    exact ⟨_, hi⟩

theorem SumsTo.overflow (h : SumsTo is outcome) (hout : ¬ InRange (exactSum is)) :
    outcome = .error (.value (.overflow .add)) := by
  refine (h.reaches ?_).overflows ⟨_, exactSum_mem_runningTotals is, hout⟩
  rintro rfl
  exact hout (by decide)

/-! ## Distinct integers and extremes -/

/-- Each integer once, where it first occurs. -/
def firsts (is : List Int64) : List Int64 := is.reverse.dedup.reverse

theorem firsts_perm (perm : is.Perm js) : (firsts is).Perm (firsts js) :=
  (reverse_perm _).trans (((reverse_perm _).trans (perm.trans (reverse_perm _).symm)).dedup.trans (reverse_perm _).symm)

theorem Value.sameGroup_int (i j : Int64) : (int i).sameGroup (.int j) = (i == j) := by
  have hcompare : (int i).sameGroup (.int j) = (some (compare i.toInt j.toInt) == some .eq) := rfl
  rw [hcompare, Bool.eq_iff_iff]
  simp [Int64.toInt_inj]

theorem distinctValues_int (is : List Int64) : distinctValues (is.map .int) = (firsts is).map .int := by
  induction is using reverseRecOn with
  | nil => rfl
  | append_singleton is i ih =>
    have hstep : distinctValues ((is ++ [i]).map .int) =
        let kept := distinctValues (is.map .int)
        if kept.any fun k => k.sameGroup (.int i) then kept else kept ++ [.int i] := by
      rw [distinctValues, map_append, foldl_append]
      rfl
    have hany : (((firsts is).map int).any fun k => k.sameGroup (.int i)) = decide (i ∈ is) := by
      rw [any_map, Bool.eq_iff_iff]
      simp [sameGroup_int, firsts]
    rw [hstep, ih]
    simp only [hany, decide_eq_true_eq]
    split
    · rename_i hmem
      rw [firsts, firsts, reverse_append, reverse_singleton, singleton_append, dedup_cons_of_mem (mem_reverse.2 hmem)]
    · rename_i hmem
      rw [firsts, firsts, reverse_append, reverse_singleton, singleton_append,
        dedup_cons_of_notMem (mem_reverse.not.2 hmem), reverse_cons, map_append]
      rfl

def better (wanted : Ordering) (best : Option Int64) (i : Int64) : Option Int64 :=
  match best with
  | none => some i
  | some b => some (if compare i.toInt b.toInt = wanted then i else b)

theorem better_comm {wanted : Ordering} (hne : wanted ≠ .eq) (best : Option Int64) (i j : Int64) :
    better wanted (better wanted best i) j = better wanted (better wanted best j) i := by
  have hinj : ∀ {i j : Int64}, i.toInt = j.toInt → i = j := Int64.toInt_inj.1
  cases wanted with
  | eq => exact absurd rfl hne
  | lt => cases best <;> grind [better, compare_lt_iff_lt]
  | gt => cases best <;> grind [better, compare_gt_iff_gt]

theorem extremum_int (wanted : Ordering) (is : List Int64) :
    extremum wanted (is.map .int) = ((is.foldl (better wanted) none).map .int).getD .null := by
  have hrun : ∀ (is : List Int64) (b : Int64), (is.map int).foldl
      (fun best w => if w.compare? best == some wanted then w else best) (.int b) =
        ((is.foldl (better wanted) (some b)).map .int).getD .null := by
    intro is
    induction is with
    | nil => exact fun _ => rfl
    | cons i is ih =>
      intro b
      have hcompare : (int i).compare? (.int b) = some (compare i.toInt b.toInt) := rfl
      rw [map_cons, foldl_cons, foldl_cons, better, ← ih, hcompare]
      congr 1
      grind
  cases is with
  | nil => rfl
  | cons i is => exact hrun is i

theorem extremum_perm {wanted : Ordering} (hne : wanted ≠ .eq) (perm : is.Perm js) :
    extremum wanted (is.map .int) = extremum wanted (js.map .int) := by
  have : RightCommutative (better wanted) := ⟨better_comm hne⟩
  rw [extremum_int, extremum_int, perm.foldl_eq]

/-! ## Aggregates -/

/-- The integers that an argument has on some rows, without its nulls. -/
def Tree.integers (env : Environment) (around : Frames) (argument : Tree) (rows : List Row) : List Int64 :=
  rows.filterMap fun row =>
    match argument.scalar env (row :: around) none with
    | .ok (.int i) => some i
    | _ => none

/-- The integers that an aggregate is computed from, in the order of the rows. -/
def Tree.counted (env : Environment) (around : Frames) (argument : Tree) (distinct : Bool) (rows : List Row) :
    List Int64 :=
  if distinct then firsts (argument.integers env around rows) else argument.integers env around rows

variable {env : Environment} {around : Frames} {argument : Tree} {distinct : Bool} {rows rows' : List Row}

theorem Tree.counted_perm (perm : rows.Perm rows') :
    (argument.counted env around distinct rows).Perm (argument.counted env around distinct rows') := by
  have hintegers : (argument.integers env around rows).Perm (argument.integers env around rows') := perm.filterMap _
  cases distinct with
  | false => exact hintegers
  | true => exact firsts_perm hintegers

/-- An argument gives integers and nulls on some rows. -/
def Tree.IsInteger (env : Environment) (around : Frames) (argument : Tree) (rows : List Row) : Prop :=
  ∀ row ∈ rows, ∃ v, argument.scalar env (row :: around) none = .ok v ∧ (v = .null ∨ ∃ i, v = .int i)

theorem Tree.IsInteger.values (h : argument.IsInteger env around rows) :
    ∃ vs, (rows.mapM fun row => argument.scalar env (row :: around) none) = .ok vs ∧
      (vs.filter fun v => !v.isNull) = (argument.integers env around rows).map .int := by
  induction rows with
  | nil => exact ⟨[], rfl, rfl⟩
  | cons row rows ih =>
    obtain ⟨v, hv, hkind⟩ := h row mem_cons_self
    obtain ⟨vs, hvs, hfilter⟩ := ih fun r hr => h r (.tail _ hr)
    refine ⟨v :: vs, mapM_eq_ok.2 (.cons hv (mapM_eq_ok.1 hvs)), ?_⟩
    rcases hkind with rfl | ⟨i, rfl⟩
    · rw [filter_cons_of_neg (by decide), hfilter, integers, integers, filterMap_cons, hv]
    · rw [filter_cons_of_pos rfl, hfilter, integers, integers, filterMap_cons, hv]
      rfl

theorem filter_int (is : List Int64) : ((is.map int).filter fun v => !v.isNull) = is.map .int :=
  filter_eq_self.2 (by simp [isNull])

theorem Tree.IsInteger.aggregate (h : argument.IsInteger env around rows) (kind : AggregateKind) (type : ScalarType)
    (head : Row) :
    (aggregate kind (some argument) distinct type).scalar env (head :: around) (some rows) =
      Run.ofValue (aggregateValues kind false ((argument.counted env around distinct rows).map .int)) := by
  obtain ⟨vs, hvs, hfilter⟩ := h.values
  have hcounted : (if distinct then distinctValues (vs.filter fun v => !v.isNull) else vs.filter fun v => !v.isNull) =
      (argument.counted env around distinct rows).map .int := by
    rw [hfilter, distinctValues_int, counted]
    cases distinct <;> rfl
  rw [scalar]
  simp only [tail_cons, hvs]
  show Run.ofValue (aggregateValues kind distinct vs) = _
  simp only [aggregateValues, hcounted, filter_int]
  rfl

theorem aggregateValues_perm {kind : AggregateKind} (hkind : kind ∈ [AggregateKind.count, .min, .max])
    (perm : is.Perm js) :
    ∃ v, aggregateValues kind false (is.map .int) = .ok v ∧ aggregateValues kind false (js.map .int) = .ok v := by
  simp only [aggregateValues, filter_int]
  rcases mem_cons.1 hkind with rfl | hkind
  · exact ⟨countValue (is.map int).length, rfl, by rw [(perm.map int).length_eq]; rfl⟩
  rcases mem_cons.1 hkind with rfl | hkind
  · exact ⟨_, rfl, congrArg Except.ok (extremum_perm nofun perm.symm)⟩
  cases mem_singleton.1 hkind
  exact ⟨_, rfl, congrArg Except.ok (extremum_perm nofun perm.symm)⟩

theorem Tree.IsInteger.sumsTo (h : argument.IsInteger env around rows) (type : ScalarType) (head : Row) :
    SumsTo (argument.counted env around distinct rows)
      ((Tree.aggregate .sum (some argument) distinct type).scalar env (head :: around) (some rows)) := by
  have hsum := sumValues_sumsTo (argument.counted env around distinct rows)
  rw [h.aggregate, aggregateValues, filter_int]
  exact hsum

/-- Counts and extremes are the same in every order of the rows. A sum is exact if all totals on the way to it fit
into 64 bits, and an overflow otherwise; it never has two values. It is there in every order if the negative and the
positive integers have sums that fit, and in none if the whole sum does not fit. -/
theorem Tree.aggregate_order (env : Environment) (around : Frames) (argument : Tree) (distinct : Bool)
    (type : ScalarType) (head head' : Row) {rows rows' : List Row} (perm : rows.Perm rows')
    (integers : argument.IsInteger env around rows) :
    let result (kind : AggregateKind) (head : Row) (rows : List Row) : Run Value :=
      (Tree.aggregate kind (some argument) distinct type).scalar env (head :: around) (some rows)
    let counted := argument.counted env around distinct rows
    (∀ kind ∈ [AggregateKind.count, .min, .max],
        ∃ v, result kind head rows = .ok v ∧ result kind head' rows' = .ok v) ∧
      SumsTo counted (result .sum head rows) ∧
      (∀ v w, result .sum head rows = .ok v → result .sum head' rows' = .ok w → v = w) ∧
      (InRange (counted.map fun i => min i.toInt 0).sum → InRange (counted.map fun i => max i.toInt 0).sum →
        ∃ v, result .sum head rows = .ok v ∧ result .sum head' rows' = .ok v) ∧
      (¬ InRange (exactSum counted) → result .sum head rows = .error (.value (.overflow .add)) ∧
        result .sum head' rows' = .error (.value (.overflow .add))) := by
  intro result counted
  have integers' : argument.IsInteger env around rows' := fun row hrow => integers row (perm.mem_iff.2 hrow)
  have hperm : counted.Perm (argument.counted env around distinct rows') := counted_perm perm
  have hsum : SumsTo counted (result .sum head rows) := integers.sumsTo type head
  have hsum' : SumsTo _ (result .sum head' rows') := integers'.sumsTo type head'
  have hunique : ∀ v w, result .sum head rows = .ok v → result .sum head' rows' = .ok w → v = w :=
    fun v w => hsum.unique hperm hsum'
  refine ⟨fun kind hkind => ?_, hsum, hunique, fun negative positive => ?_, fun hout => ⟨hsum.overflow hout, ?_⟩⟩
  · obtain ⟨v, hv, hv'⟩ := aggregateValues_perm hkind hperm
    exact ⟨v, (integers.aggregate kind type head).trans (congrArg Run.ofValue hv),
      (integers'.aggregate kind type head').trans (congrArg Run.ofValue hv')⟩
  · obtain ⟨v, hv⟩ := hsum.exact negative positive
    rw [(hperm.map _).sum_eq] at negative positive
    obtain ⟨w, hw⟩ := hsum'.exact negative positive
    exact ⟨v, hv, hunique v w hv hw ▸ hw⟩
  · exact hsum'.overflow (exactSum_perm hperm ▸ hout)

def tally (vs : List Value) : List Row := vs.map fun v => sourceRow 0 ["n"] [v]

/-- The sum of a column of numbers. -/
def tallied (distinct : Bool) (vs : List Value) : Run Value :=
  (Tree.aggregate .sum (some (.column ⟨.int64, default, 0, "n"⟩)) distinct .int64).scalar ⟨[], []⟩ [[]]
    (some (tally vs))

/-- One and minus one cancel in one order, while the total leaves the range between them in the other. -/
theorem Tree.aggregate_order_overflow :
    (tally [.int 9223372036854775807, .int 1, .int (-1)]).Perm (tally [.int 9223372036854775807, .int (-1), .int 1]) ∧
      tallied false [.int 9223372036854775807, .int 1, .int (-1)] = .error (.value (.overflow .add)) ∧
      tallied false [.int 9223372036854775807, .int (-1), .int 1] = .ok (.int 9223372036854775807) :=
  ⟨(Perm.swap _ _ _).cons _, by rfl, by rfl⟩

theorem Tree.aggregate_order_distinct :
    ∃ v, tallied true [.int 3, .null, .int (-1), .int 3] = .ok v ∧
      tallied true [.null, .int 3, .int (-1), .int 3] = .ok v :=
  (aggregate_order ⟨[], []⟩ [] (.column ⟨.int64, default, 0, "n"⟩) true .int64 [] []
    (Perm.swap (sourceRow 0 ["n"] [.null]) (sourceRow 0 ["n"] [.int 3]) (tally [.int (-1), .int 3]))
    (by
      simp only [tally, map_cons, map_nil, Tree.IsInteger, forall_mem_cons]
      exact ⟨⟨_, rfl, .inr ⟨3, rfl⟩⟩, ⟨_, rfl, .inl rfl⟩, ⟨_, rfl, .inr ⟨-1, rfl⟩⟩, ⟨_, rfl, .inr ⟨3, rfl⟩⟩,
        nofun⟩)).2.2.2.1 (by decide) (by decide)

end HiveQuery
