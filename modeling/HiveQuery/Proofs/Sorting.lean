import HiveQuery.Evaluate
import HiveQuery.Proofs.Comparison
import HiveQuery.Proofs.Lists
import Mathlib.Data.List.Chain
import Mathlib.Data.List.Perm.Basic
import Mathlib.Data.List.Sort
import Mathlib.Data.List.TakeWhile
import Mathlib.Data.Set.List

/-!
# Sorting rows

Stable sorting by a comparison that is a total preorder on the rows at hand.
-/

namespace HiveQuery

/-- Rows with the values that they are sorted by. -/
abbrev KeyedRows := List (List Value × List Value)

variable {distinct reverse : Bool} {rows' : KeyedRows}
open List

variable {rows : KeyedRows} {directions : List Direction} {α β : Type}

/-! ## Stable sorting -/

/-- On some elements, `before` is the strict part of a total preorder. -/
structure OrdersOn {α : Type} (before : α → α → Bool) (p : α → Prop) : Prop where
  asymm : ∀ {a b}, p a → p b → before a b = true → before b a = false
  trans : ∀ {a b c}, p a → p b → p c → before b a = false → before c b = false →
    before c a = false

section StableSort

variable {α β : Type} {before : α → α → Bool} {l : List α}

theorem insertFromEnd_eq (a : α) (l : List α) :
    insertFromEnd before a l = l.orderedInsert (fun x y => before x y = false) a := by
  induction l with
  | nil => rfl
  | cons b bs ih =>
    rw [insertFromEnd, orderedInsert_cons, ih]
    cases before a b <;> rfl

/-- A stable sort inserts each element into those before it, from their end. -/
theorem stableSort_eq (l : List α) :
    stableSort before l = (l.reverse.insertionSort fun x y => before x y = false).reverse := by
  rw [stableSort, insertionSort, foldr_reverse]
  simp only [insertFromEnd_eq]

theorem stableSort_perm (l : List α) : (stableSort before l).Perm l := by
  rw [stableSort_eq]
  exact (reverse_perm _).trans ((perm_insertionSort _ _).trans (reverse_perm l))

theorem mem_stableSort {a : α} : a ∈ stableSort before l ↔ a ∈ l := (stableSort_perm l).mem_iff

theorem stableSort_map {before' : β → β → Bool} (f : α → β)
    (h : ∀ a ∈ l, ∀ b ∈ l, before' (f a) (f b) = before a b) :
    stableSort before' (l.map f) = (stableSort before l).map f := by
  rw [stableSort_eq, stableSort_eq, map_reverse, map_insertionSort _ (fun x y => before' x y = false),
    map_reverse]
  intro a ha b hb
  rw [h a (mem_reverse.1 ha) b (mem_reverse.1 hb)]

theorem stableSort_forall₂ {before' : β → β → Bool} {R : α → β → Prop}
    (hR : ∀ {a a' b b'}, R a b → R a' b' → before' b b' = before a a') {l' : List β}
    (h : Forall₂ R l l') : Forall₂ R (stableSort before l) (stableSort before' l') := by
  obtain ⟨hlength, hzip⟩ := forall₂_iff_zip.1 h
  have hleft : stableSort before ((l.zip l').map Prod.fst) =
      (stableSort (fun p q => before p.1 q.1) (l.zip l')).map Prod.fst := stableSort_map _ fun _ _ _ _ => rfl
  have hright : stableSort before' ((l.zip l').map Prod.snd) =
      (stableSort (fun p q => before p.1 q.1) (l.zip l')).map Prod.snd :=
    stableSort_map _ fun p hp q hq => hR (hzip hp) (hzip hq)
  rw [map_fst_zip hlength.le] at hleft
  rw [map_snd_zip hlength.ge] at hright
  rw [hleft, hright, forall₂_map_iff, forall₂_same]
  exact fun p hp => hzip (mem_stableSort.1 hp)

theorem stableSort_eq_self (h : l.Pairwise fun x y => before y x = false) :
    stableSort before l = l := by
  rw [stableSort_eq, (pairwise_reverse.2 h).insertionSort_eq, reverse_reverse]

variable {p : α → Prop}

theorem OrdersOn.total (ord : OrdersOn before p) : Std.Total fun x y : Subtype p => before x y = false where
  total x y := by
    cases h : before x y with
    | true => exact .inr (ord.asymm x.2 y.2 h)
    | false => exact .inl rfl

theorem OrdersOn.isTrans (ord : OrdersOn before p) : IsTrans (Subtype p) fun x y => before x y = false where
  trans _ _ _ hxy hyz := ord.trans (Subtype.prop _) (Subtype.prop _) (Subtype.prop _) hyz hxy

theorem stableSort_subtype (l : List (Subtype p)) :
    stableSort before (l.map Subtype.val) = (stableSort (fun x y => before x.1 y.1) l).map Subtype.val :=
  stableSort_map _ fun _ _ _ _ => rfl

theorem stableSort_pairwise (ord : OrdersOn before p) (hl : ∀ b ∈ l, p b) :
    (stableSort before l).Pairwise fun x y => before y x = false := by
  have := ord.total
  have := ord.isTrans
  lift l to List (Subtype p) using hl
  rw [stableSort_subtype, stableSort_eq, pairwise_map, pairwise_reverse]
  exact pairwise_insertionSort _ _

theorem orderedInsert_of_forall {r : α → α → Prop} [DecidableRel r] {a : α} (h : ∀ b ∈ l, r a b) :
    l.orderedInsert r a = a :: l := by
  cases l with
  | nil => rfl
  | cons b bs => exact orderedInsert_cons_of_le r bs (h b mem_cons_self)

theorem orderedInsert_filter {r : α → α → Prop} [DecidableRel r] [IsTrans α r] (a : α) (h : l.Pairwise r)
    (q : α → Bool) :
    (l.orderedInsert r a).filter q = if q a then (l.filter q).orderedInsert r a else l.filter q := by
  induction h with
  | nil => exact filter_cons
  | @cons b bs hb _ ih =>
    by_cases hab : r a b
    · -- nothing further down is preceded by `a`, so `a` stays in front whatever is filtered out
      have hall : ∀ c ∈ b :: bs, r a c :=
        forall_mem_cons.2 ⟨hab, fun c hc => IsTrans.trans _ _ _ hab (hb c hc)⟩
      rw [orderedInsert_of_forall hall, orderedInsert_of_forall fun c hc => hall c (mem_of_mem_filter hc),
        filter_cons]
    · rw [orderedInsert_of_not_le r bs hab, filter_cons, ih, filter_cons]
      cases q a <;> cases q b <;> simp [hab]

/-- Leaving rows out before sorting is leaving them out afterwards. -/
theorem stableSort_filter (ord : OrdersOn before p) (hl : ∀ b ∈ l, p b) (q : α → Bool) :
    stableSort before (l.filter q) = (stableSort before l).filter q := by
  have := ord.total
  have := ord.isTrans
  lift l to List (Subtype p) using hl
  rw [filter_map, stableSort_subtype, stableSort_subtype, filter_map, stableSort_eq, stableSort_eq,
    filter_reverse, ← filter_reverse]
  congr 2
  induction l.reverse with
  | nil => rfl
  | cons a l ih =>
    rw [insertionSort_cons, orderedInsert_filter a (pairwise_insertionSort _ l), ← ih, filter_cons]
    split <;> rfl

end StableSort
/-! ## Sorting by keys -/

theorem precedes_ordersOn {p : List Value → Prop} (h : ComparesOn (compareKeys directions) p) :
    OrdersOn (precedes directions) p := by
  constructor
  · intro a b ha hb hab
    have hab : compareKeys directions a b = .lt := by simpa [precedes] using hab
    simp [precedes, h.swap ha hb, hab]
  · intro a b c ha hb hc hba hcb
    have le : ∀ {x y}, p x → p y →
        (precedes directions y x = false ↔ (compareKeys directions x y).isLE = true) := by
      intro x y hx hy
      rw [precedes, h.swap hx hy]
      cases compareKeys directions x y <;> decide
    rw [le ha hc]
    exact h.trans ha hb hc ((le ha hb).1 hba) ((le hb hc).1 hcb)

theorem Comparable.ordersOn {rows : List (α × List Value)} (h : Comparable (rows.map Prod.snd))
    (directions : List Direction) :
    OrdersOn (fun a b : α × List Value => precedes directions a.2 b.2) (· ∈ rows) :=
  have hkeys := precedes_ordersOn (h directions)
  ⟨fun ha hb => hkeys.asymm (mem_map_of_mem ha) (mem_map_of_mem hb),
    fun ha hb hc => hkeys.trans (mem_map_of_mem ha) (mem_map_of_mem hb) (mem_map_of_mem hc)⟩

section Keys

variable {α : Type} {directions : List Direction} {rows : List (α × List Value)}

theorem sortByKeys_perm : (sortByKeys directions rows).Perm rows := stableSort_perm rows

theorem sortByKeys_pairwise (h : Comparable (rows.map Prod.snd)) :
    (sortByKeys directions rows).Pairwise fun a b => precedes directions b.2 a.2 = false :=
  stableSort_pairwise (h.ordersOn directions) fun _ hb => hb

end Keys

structure SortedKeys (directions : List Direction) (keys : List (List Value)) : Prop where
  comparable : Comparable keys
  pairwise : keys.Pairwise fun a b => precedes directions b a = false

theorem SortedKeys.sublist {keys keys' : List (List Value)} (h : SortedKeys directions keys)
    (sub : keys'.Sublist keys) : SortedKeys directions keys' where
  comparable := h.comparable.mono fun _ hk => sub.subset hk
  pairwise := h.pairwise.sublist sub

theorem sortByKeys_sortedKeys {α : Type} {directions : List Direction} {rows : List (α × List Value)}
    (h : Comparable (rows.map Prod.snd)) :
    SortedKeys directions ((sortByKeys directions rows).map Prod.snd) where
  comparable := h.mono fun _ hk => (sortByKeys_perm.map Prod.snd).subset hk
  pairwise := pairwise_map.2 (sortByKeys_pairwise h)

/-! ## Arranged rows -/

theorem distinctRows_sublist (rows : List (List Value × α)) : (distinctRows rows).Sublist rows := by
  induction rows using reverseRecOn with
  | nil => exact .slnil
  | append_singleton rows row ih =>
    rw [distinctRows, foldl_append, foldl_cons, foldl_nil]
    split
    · exact ih.trans (sublist_append_left rows [row])
    · exact ih.append_right [row]

def uniqueRows (distinct : Bool) (rows : List (List Value × List Value)) :
    List (List Value × List Value) :=
  if distinct then distinctRows rows else rows

theorem uniqueRows_sublist (distinct : Bool) (rows : KeyedRows) :
    (uniqueRows distinct rows).Sublist rows := by
  cases distinct with
  | false => exact .refl _
  | true => exact distinctRows_sublist rows

theorem distinctRows_forall₂ {R : List Value × α → List Value × β → Prop} (hR : ∀ {a b}, R a b → b.1 = a.1)
    {rows : List (List Value × α)} {rows' : List (List Value × β)} (h : Forall₂ R rows rows') :
    Forall₂ R (distinctRows rows) (distinctRows rows') := by
  refine rel_foldl (fun kept kept' hkept row row' hrow => ?_) .nil h
  have hany : (kept'.any fun k => Value.sameRow k.1 row'.1) = kept.any fun k => Value.sameRow k.1 row.1 :=
    any_eq_of_forall₂ hkept fun _ _ hk => by rw [hR hk, hR hrow]
  rw [hany]
  split
  · exact hkept
  · exact rel_append hkept (.cons hrow .nil)

theorem uniqueRows_forall₂ {R : List Value × List Value → List Value × List Value → Prop}
    (hR : ∀ {a b}, R a b → b.1 = a.1) (distinct : Bool) (h : Forall₂ R rows rows') :
    Forall₂ R (uniqueRows distinct rows) (uniqueRows distinct rows') := by
  cases distinct with
  | false => exact h
  | true => exact distinctRows_forall₂ hR h

theorem uniqueRows_map_fst (distinct : Bool) (h : rows'.map Prod.fst = rows.map Prod.fst) :
    (uniqueRows distinct rows').map Prod.fst = (uniqueRows distinct rows).map Prod.fst := by
  have hrows : Forall₂ (fun a b => b.1 = a.1) rows rows' := by
    rw [← forall₂_eq_eq_eq, forall₂_map_iff] at h
    exact h.flip
  exact map_eq_of_forall₂ (uniqueRows_forall₂ id distinct hrows) fun _ _ => id

theorem arrange_eq (distinct reverse : Bool) (directions : List Direction)
    (rows : KeyedRows) :
    arrange distinct reverse directions rows =
      if reverse then (sortByKeys directions (uniqueRows distinct rows)).reverse
      else sortByKeys directions (uniqueRows distinct rows) := by
  cases directions with
  | nil =>
    have h : sortByKeys [] (uniqueRows distinct rows) = uniqueRows distinct rows :=
      stableSort_eq_self (pairwise_of_forall fun _ _ => rfl)
    rw [h]
    rfl
  | cons d ds => rfl

theorem arrange_perm (distinct reverse : Bool) (directions : List Direction)
    (rows : KeyedRows) :
    (arrange distinct reverse directions rows).Perm (uniqueRows distinct rows) := by
  rw [arrange_eq]
  cases reverse with
  | false => exact sortByKeys_perm
  | true => exact (reverse_perm _).trans sortByKeys_perm

theorem mem_of_mem_arrange {p : List Value × List Value} (h : p ∈ arrange distinct reverse directions rows) :
    p ∈ rows :=
  (uniqueRows_sublist distinct rows).subset ((arrange_perm _ _ _ _).mem_iff.1 h)

theorem arrange_sortedKeys (h : Comparable (rows.map Prod.snd)) :
    SortedKeys directions ((arrange distinct false directions rows).map Prod.snd) := by
  rw [arrange_eq]
  refine sortByKeys_sortedKeys (h.mono fun _ hk => ?_)
  exact ((uniqueRows_sublist distinct rows).map Prod.snd).subset hk

theorem arrange_forall₂ {R : List Value × List Value → List Value × List Value → Prop}
    (hR : ∀ {a b}, R a b → b.2 = a.2) (reverse : Bool) (directions : List Direction)
    (h : Forall₂ R rows rows') :
    Forall₂ R (arrange false reverse directions rows) (arrange false reverse directions rows') := by
  rw [arrange_eq, arrange_eq]
  have hsorted : Forall₂ R (sortByKeys directions (uniqueRows false rows))
      (sortByKeys directions (uniqueRows false rows')) :=
    stableSort_forall₂ (fun hab hab' => by rw [hR hab, hR hab']) h
  cases reverse with
  | false => exact hsorted
  | true => exact forall₂_reverse_iff.2 hsorted

theorem arrange_filter (h : Comparable (rows.map Prod.snd)) (q : List Value × List Value → Bool) :
    arrange false reverse directions (rows.filter q) = (arrange false reverse directions rows).filter q := by
  rw [arrange_eq, arrange_eq]
  have hsorted : sortByKeys directions (uniqueRows false (rows.filter q)) =
      (sortByKeys directions (uniqueRows false rows)).filter q :=
    stableSort_filter (h.ordersOn directions) (fun _ hb => hb) q
  cases reverse with
  | false => exact hsorted
  | true => rw [if_pos rfl, if_pos rfl, hsorted, filter_reverse]

theorem arrange_eq_of_sortedKeys (h : SortedKeys directions (rows.map Prod.snd)) :
    arrange distinct reverse directions rows =
      if reverse then (uniqueRows distinct rows).reverse else uniqueRows distinct rows := by
  have hsorted := h.sublist ((uniqueRows_sublist distinct rows).map Prod.snd)
  have hself : sortByKeys directions (uniqueRows distinct rows) = uniqueRows distinct rows :=
    stableSort_eq_self (pairwise_map.1 hsorted.pairwise)
  rw [arrange_eq, hself]

/-! ## Pages -/

theorem page_sublist (skip take : Option Nat) (l : List α) : (page skip take l).Sublist l := by
  unfold page
  cases take with
  | none => exact drop_sublist _ _
  | some n => exact (take_sublist _ _).trans (drop_sublist _ _)

theorem page_forall₂ {R : α → β → Prop} (skip take : Option Nat) {l : List α} {l' : List β}
    (h : Forall₂ R l l') : Forall₂ R (page skip take l) (page skip take l') := by
  unfold page
  cases take with
  | none => exact forall₂_drop _ h
  | some n => exact forall₂_take n (forall₂_drop _ h)

theorem page_congr {n m : Option Nat} (h : m.getD 0 = n.getD 0) (t : Option Nat) (l : List α) :
    page m t l = page n t l := by
  unfold page
  rw [h]

theorem page_map (f : α → β) (skip take : Option Nat) (l : List α) :
    page skip take (l.map f) = (page skip take l).map f := by
  cases take <;> simp [page, map_drop, map_take]

/-- Does a number, counted from one, belong to the rows that are left after skipping and taking? -/
def inWindow (skip : Nat) (take : Option Nat) (n : Nat) : Bool :=
  decide (skip < n) && take.all fun m => decide (n ≤ skip + m)

theorem zipIdx_filter_lt (a k : Nat) (l : List α) : (l.zipIdx k).filter (fun p => decide (a < p.2)) =
      (l.drop (a + 1 - k)).zipIdx (max k (a + 1)) := by
  induction l generalizing k with
  | nil => simp
  | cons x l ih =>
    rw [zipIdx_cons, filter_cons, ih]
    by_cases h : a < k
    · have e₁ : a + 1 - k = 0 := by omega
      have e₂ : a + 1 - (k + 1) = 0 := by omega
      have e₃ : max k (a + 1) = k := by omega
      have e₄ : max (k + 1) (a + 1) = k + 1 := by omega
      rw [if_pos (decide_eq_true h), e₁, e₂, e₃, e₄, drop_zero, drop_zero, zipIdx_cons]
    · have e₁ : a + 1 - k = (a + 1 - (k + 1)) + 1 := by omega
      have e₂ : max (k + 1) (a + 1) = max k (a + 1) := by omega
      simp [h, e₁, e₂]

theorem zipIdx_filter_le (b k : Nat) (l : List α) :
    ((l.zipIdx k).filter fun p => decide (p.2 ≤ b)).map Prod.fst = l.take (b + 1 - k) := by
  induction l generalizing k with
  | nil => simp
  | cons x l ih =>
    rw [zipIdx_cons, filter_cons]
    by_cases h : k ≤ b
    · have e : b + 1 - k = (b + 1 - (k + 1)) + 1 := by omega
      simp only [h, decide_true, if_true, map_cons, ih, e, take_succ_cons]
    · have e₁ : b + 1 - k = 0 := by omega
      have e₂ : b + 1 - (k + 1) = 0 := by omega
      simp only [h, decide_false, Bool.false_eq_true, if_false, ih, e₁, e₂, take_zero]

theorem zipIdx_filter_inWindow (skip : Nat) (take : Option Nat) (l : List α) :
    ((l.zipIdx 1).filter fun p => inWindow skip take p.2).map Prod.fst = page (some skip) take l := by
  have hlt := zipIdx_filter_lt skip 1 l
  rw [Nat.add_sub_cancel] at hlt
  cases take with
  | none =>
    simp only [inWindow, Option.all_none, Bool.and_true, hlt, page, Option.getD_some]
    exact zipIdx_map_fst _ _
  | some m =>
    have hfilter : (l.zipIdx 1).filter (fun p => inWindow skip (some m) p.2) =
        ((l.zipIdx 1).filter (fun p => decide (skip < p.2))).filter (fun p => decide (p.2 ≤ skip + m)) := by
      rw [filter_filter]
      refine filter_congr fun p _ => ?_
      simp [inWindow, Bool.and_comm]
    rw [hfilter, hlt, zipIdx_filter_le]
    simp only [page, Option.getD_some]
    congr 1
    omega

/-! ## Row numbers -/

theorem countValue_toInt {n : Nat} (h : (n : Int) ≤ greatestInt64) : (Int64.ofNat n).toInt = n := by
  apply Int64.toInt_ofNat_of_lt
  simp only [greatestInt64] at h
  omega

theorem precedes_countValue {a b : Nat} (ha : (a : Int) ≤ greatestInt64) (hb : (b : Int) ≤ greatestInt64) :
    precedes [.ascending] [countValue a] [countValue b] = decide (a < b) := by
  have h : compareKeys [.ascending] [countValue a] [countValue b] = compare (a : Int) (b : Int) := by
    simp only [compareKeys, Direction.compare, Value.sortCompare, countValue, Value.isNull,
      Value.compare?, Value.numeric?, Value.compareNumeric?, Option.bind_eq_bind, Option.bind_some,
      Option.getD_some, countValue_toInt ha, countValue_toInt hb, Ordering.then_eq]
  rw [precedes, h]
  by_cases hab : a < b
  · rw [compare_lt_iff_lt.2 (Int.ofNat_lt.2 hab)]
    simp [hab]
  · have : compare (a : Int) (b : Int) ≠ .lt := by
      rw [Ne, compare_lt_iff_lt]
      omega
    simp [hab, this]

theorem ranks_eq (directions : List Direction) (keys : List (List Value)) :
    ranks directions keys = (range keys.length).map fun i =>
        ((sortByKeys directions ((range keys.length).zip keys)).map Prod.fst).idxOf i + 1 := by
  simp only [ranks, idxOf, findIdx_map]
  rfl

theorem sortedPlaces_perm (directions : List Direction) (keys : List (List Value)) :
    ((sortByKeys directions ((range keys.length).zip keys)).map Prod.fst).Perm
      (range keys.length) := by
  have h : ((sortByKeys directions ((range keys.length).zip keys)).map Prod.fst).Perm
      (((range keys.length).zip keys).map Prod.fst) := sortByKeys_perm.map Prod.fst
  rwa [map_fst_zip (by simp)] at h

theorem zip_eq_map_range (values : List (List Value)) (l : List β) (hlen : values.length = l.length) :
    values.zip l = ((range l.length).zip l).map fun p => (values.getD p.1 [], p.2) := by
  apply ext_getElem
  · simp [hlen]
  · intro i h₁ h₂
    have hi : i < values.length := by
      simp only [length_zip] at h₁
      omega
    simp [getElem?_eq_getElem hi]

theorem numbers_ordersOn : OrdersOn (fun a b : α × Nat => decide (a.2 < b.2)) fun _ => True := by
  constructor
  · intro a b _ _ h
    simp only [decide_eq_true_eq] at h
    simp only [decide_eq_false_iff_not]
    omega
  · intro a b c _ _ _ hba hcb
    simp only [decide_eq_false_iff_not] at hba hcb ⊢
    omega

theorem zipIdx_eq_map_idxOf {ids : List Nat} (h : ids.Nodup) :
    ids.zipIdx 1 = ids.map fun i => (i, ids.idxOf i + 1) := by
  apply ext_getElem
  · simp
  · intro j h₁ h₂
    have hj : j < ids.length := by simpa using h₁
    simp only [getElem_zipIdx, getElem_map, h.idxOf_getElem j hj, Nat.add_comm]

theorem stableSort_numbered {ids : List Nat} {n : Nat} (h : ids.Perm (range n)) :
    stableSort (fun a b : Nat × Nat => decide (a.2 < b.2))
      ((range n).map fun i => (i, ids.idxOf i + 1)) = ids.zipIdx 1 := by
  have hnodup : ids.Nodup := h.nodup_iff.2 nodup_range
  have hperm : ((range n).map fun i => (i, ids.idxOf i + 1)).Perm (ids.zipIdx 1) := by
    rw [zipIdx_eq_map_idxOf hnodup]
    exact (h.map _).symm
  have hpairwise : (ids.zipIdx 1).Pairwise fun x y => decide (y.2 < x.2) = false := by
    rw [pairwise_iff_getElem]
    intro i j hi hj hij
    simp only [getElem_zipIdx, decide_eq_false_iff_not]
    omega
  refine List.Perm.eq_of_pairwise ?_ (stableSort_pairwise numbers_ordersOn fun _ _ => trivial)
    hpairwise ((stableSort_perm _).trans hperm)
  intro a b ha hb hab hba
  have ha := hperm.mem_iff.1 (mem_stableSort.1 ha)
  rw [zipIdx_eq_map_idxOf hnodup, mem_map] at ha hb
  obtain ⟨i, hi, rfl⟩ := ha
  obtain ⟨j, hj, rfl⟩ := hb
  simp only [decide_eq_false_iff_not] at hab hba
  have hij : ids.idxOf i = ids.idxOf j := by omega
  have : i = j := (idxOf_inj hi).1 hij
  rw [this]

theorem ranks_length (directions : List Direction) (keys : List (List Value)) :
    (ranks directions keys).length = keys.length := by
  simp [ranks]

/-- Rows with their numbers in the order of their keys. -/
def numberedRows (directions : List Direction) (rows : List (List Value × List Value)) : List (List Value × Nat) :=
  (rows.map Prod.fst).zip (ranks directions (rows.map Prod.snd))

/-- The rows with a number in a window, in the order of their numbers. -/
def windowRows (skip : Nat) (take : Option Nat) (numbered : List (List Value × Nat)) :
    List (List Value × List Value) :=
  sortByKeys [.ascending] ((numbered.filter fun p => inWindow skip take p.2).map fun p => (p.1, [countValue p.2]))

/-- Row numbers, a filter on them and sorting by them do what skipping and taking do. -/
theorem sortByKeys_ranks (directions : List Direction) (rows : KeyedRows)
    (hcount : (rows.length : Int) ≤ greatestInt64) (skip : Nat) (take : Option Nat) :
    (windowRows skip take (numberedRows directions rows)).map Prod.fst =
      page (some skip) take ((sortByKeys directions rows).map Prod.fst) := by
  let values := rows.map Prod.fst
  let keys := rows.map Prod.snd
  have hlen : values.length = keys.length := by simp [values, keys]
  let sorted := sortByKeys directions ((range keys.length).zip keys)
  let ids := sorted.map Prod.fst
  let numbered := (range keys.length).map fun i => (i, ids.idxOf i + 1)
  let row : Nat × Nat → List Value × List Value := fun p => (values.getD p.1 [], [countValue p.2])
  have hids : ids.Perm (range keys.length) := sortedPlaces_perm directions keys
  have hvalues : (sortByKeys directions rows).map Prod.fst = ids.map fun i => values.getD i [] := by
    rw [(zip_of_prod rfl rfl : rows = values.zip keys), zip_eq_map_range values keys hlen,
      sortByKeys, stableSort_map (fun p : Nat × List Value => (values.getD p.1 [], p.2)) fun _ _ _ _ => rfl,
      map_map, map_map]
    rfl
  have hrows : ((numberedRows directions rows).filter fun p => inWindow skip take p.2).map
        (fun p => (p.1, [countValue p.2])) =
      (numbered.filter fun p => inWindow skip take p.2).map row := by
    have hzip : numberedRows directions rows = numbered.map fun p => (values.getD p.1 [], p.2) := by
      rw [numberedRows, zip_eq_map_range _ _ (by rw [ranks_length, hlen]), ranks_length, ranks_eq,
        ← map_prod_left_eq_zip]
    rw [hzip, filter_map, map_map]
    rfl
  have hbefore : ∀ a ∈ numbered.filter (fun p => inWindow skip take p.2),
      ∀ b ∈ numbered.filter (fun p => inWindow skip take p.2),
      precedes [.ascending] (row a).2 (row b).2 = decide (a.2 < b.2) := by
    have bound : ∀ a ∈ numbered.filter (fun p => inWindow skip take p.2), (a.2 : Int) ≤ greatestInt64 := by
      intro a ha
      obtain ⟨i, hi, rfl⟩ := mem_map.1 (mem_of_mem_filter ha)
      have hlt : ids.idxOf i < ids.length := idxOf_lt_length_iff.2 (hids.mem_iff.2 hi)
      rw [hids.length_eq, length_range] at hlt
      show ((ids.idxOf i + 1 : Nat) : Int) ≤ _
      simp only [keys, length_map] at hlt
      omega
    intro a ha b hb
    exact precedes_countValue (bound a ha) (bound b hb)
  rw [windowRows, hrows, sortByKeys, stableSort_map row hbefore,
    stableSort_filter numbers_ordersOn (fun _ _ => trivial), stableSort_numbered hids, hvalues,
    page_map, ← zipIdx_filter_inWindow, map_map, map_map]
  rfl

end HiveQuery
