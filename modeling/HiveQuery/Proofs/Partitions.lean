import HiveQuery.Proofs.SelectAgreement

/-!
# Groups as parts of the rows

A row goes to the first group whose first row has the same key, or opens a group. Keys that are alike in pairs need
not be alike all together, and an undefined number is not even alike itself.
-/

namespace HiveQuery
open List

/-! ## Parts of a list -/

section

variable {α : Type} {key : α → List Value} {a : α} {done : List α} {parts : List (α × List α)}

/-- Parts with a first member and later ones. All members stand in the order of the list, and so do the first
ones. The later members of a part have the key of its first one, and no first member has the key of an earlier
one. -/
structure Partitions (key : α → List Value) (all : List α) (parts : List (α × List α)) : Prop where
  perm : (parts.flatMap fun g => g.1 :: g.2).Perm all
  order : ∀ g ∈ parts, (g.1 :: g.2).Sublist all
  firsts : (parts.map Prod.fst).Sublist all
  alike : ∀ g ∈ parts, ∀ b ∈ g.2, Value.sameRow (key g.1) (key b) = true
  apart : (parts.map Prod.fst).Pairwise fun b c => Value.sameRow (key b) (key c) = false

def heldParts (key : α → List Value) (parts : List (α × List α)) : List (List Value × List α) :=
  parts.map fun g => (key g.1, g.1 :: g.2)

theorem insertGroup_heldParts (key : α → List Value) (a : α) (parts : List (α × List α)) :
    (∃ before g after, parts = before ++ g :: after ∧ Value.sameRow (key g.1) (key a) = true ∧
      insertGroup (key a) a (heldParts key parts) = heldParts key (before ++ (g.1, g.2 ++ [a]) :: after)) ∨
    (∀ g ∈ parts, Value.sameRow (key g.1) (key a) = false) ∧
      insertGroup (key a) a (heldParts key parts) = heldParts key (parts ++ [(a, [])]) := by
  induction parts with
  | nil => exact .inr ⟨nofun, rfl⟩
  | cons g parts ih =>
    cases hsame : Value.sameRow (key g.1) (key a) with
    | true =>
      refine .inl ⟨[], g, parts, rfl, hsame, ?_⟩
      simp [heldParts, insertGroup, hsame]
    | false =>
      rw [heldParts, map_cons, insertGroup, if_neg (by simp [hsame]), ← heldParts]
      rcases ih with ⟨before, h, after, rfl, hh, hinsert⟩ | ⟨hall, hinsert⟩
      · exact .inl ⟨g :: before, h, after, rfl, hh, congrArg _ hinsert⟩
      · exact .inr ⟨forall_mem_cons.2 ⟨hsame, hall⟩, congrArg _ hinsert⟩

theorem Partitions.insert (h : Partitions key done parts) (a : α) :
    ∃ parts', insertGroup (key a) a (heldParts key parts) = heldParts key parts' ∧
      Partitions key (done ++ [a]) parts' := by
  have hmono : done.Sublist (done ++ [a]) := sublist_append_left _ _
  rcases insertGroup_heldParts key a parts with ⟨before, g, after, rfl, hsame, hinsert⟩ | ⟨hall, hinsert⟩
  · have hg : g ∈ before ++ g :: after := by simp
    have hparts : ∀ p ∈ before ++ (g.1, g.2 ++ [a]) :: after,
        p = (g.1, g.2 ++ [a]) ∨ p ∈ before ++ g :: after := by
      simp only [mem_append, mem_cons]
      tauto
    have hfirsts : (before ++ (g.1, g.2 ++ [a]) :: after).map Prod.fst = (before ++ g :: after).map Prod.fst := by
      simp
    refine ⟨_, hinsert, ?_, fun p hp => ?_, hfirsts ▸ h.firsts.trans hmono, fun p hp => ?_, hfirsts ▸ h.apart⟩
    · refine Perm.trans ?_ (h.perm.append_right [a])
      simp only [flatMap_append, flatMap_cons, append_assoc, cons_append]
      exact .append_left _ (.cons _ (.append_left _ (perm_append_singleton a _).symm))
    · rcases hparts p hp with rfl | hp
      · exact (h.order g hg).append_right [a]
      · exact (h.order p hp).trans hmono
    · rcases hparts p hp with rfl | hp
      · exact forall_mem_append.2 ⟨h.alike g hg, forall_mem_singleton.2 hsame⟩
      · exact h.alike p hp
  · refine ⟨_, hinsert, ?_, fun p hp => ?_, ?_, fun p hp => ?_, ?_⟩
    · rw [flatMap_append]
      exact h.perm.append_right [a]
    · rcases mem_append.1 hp with hp | hp
      · exact (h.order p hp).trans hmono
      · rw [mem_singleton.1 hp]
        exact sublist_append_right _ _
    · rw [map_append]
      exact h.firsts.append_right [a]
    · rcases mem_append.1 hp with hp | hp
      · exact h.alike p hp
      · rw [mem_singleton.1 hp]
        exact nofun
    · rw [map_append, pairwise_append]
      refine ⟨h.apart, pairwise_singleton _ _, fun b hb c hc => ?_⟩
      obtain ⟨g, hg, rfl⟩ := mem_map.1 hb
      rw [mem_singleton.1 hc]
      exact hall g hg

/-- The groups by a key are parts of what was grouped. -/
theorem groupByKey_partitions (key : α → List Value) (all : List α) :
    ∃ parts, groupByKey (all.map fun a => (key a, a)) = parts.map (fun g => g.1 :: g.2) ∧
      Partitions key all parts := by
  obtain ⟨parts, hparts, h⟩ : ∃ parts, (all.map fun a => (key a, a)).foldl
      (fun groups p => insertGroup p.1 p.2 groups) [] = heldParts key parts ∧ Partitions key all parts := by
    induction all using reverseRecOn with
    | nil => exact ⟨[], rfl, .nil, nofun, .slnil, nofun, .nil⟩
    | append_singleton all a ih =>
      obtain ⟨parts, hparts, h⟩ := ih
      obtain ⟨parts', hinsert, h'⟩ := h.insert a
      exact ⟨parts', by rwa [map_append, foldl_append, hparts], h'⟩
  refine ⟨parts, ?_, h⟩
  rw [groupByKey, hparts, heldParts, map_map]
  rfl

theorem groupByKey_map {β : Type} (key : α → List Value) (f : α → β) (all : List α) :
    groupByKey (all.map fun a => (key a, f a)) = (groupByKey (all.map fun a => (key a, a))).map (map f) := by
  have h : Forall₂ (Forall₂ fun a b => f a = b) (groupByKey (all.map fun a => (key a, a)))
      (groupByKey (all.map fun a => (key a, f a))) :=
    groupByKey_forall₂ (forall₂_map_iff.2 (forall₂_same.2 fun _ _ => ⟨rfl, rfl⟩))
  have hmap : Forall₂ Eq ((groupByKey (all.map fun a => (key a, a))).map (map f))
      (groupByKey (all.map fun a => (key a, f a))) := by
    refine forall₂_map_left_iff.2 (h.imp fun members members' hm => ?_)
    exact forall₂_eq_eq_eq ▸ forall₂_map_left_iff.2 hm
  exact (forall₂_eq_eq_eq ▸ hmap : _ = _).symm

theorem groupByKey_length_le (keyed : List (List Value × α)) : (groupByKey keyed).length ≤ keyed.length := by
  obtain ⟨parts, hparts, h⟩ := groupByKey_partitions Prod.fst keyed
  have hmap := groupByKey_map Prod.fst Prod.snd keyed
  rw [map_id'' fun _ => rfl] at hmap
  rw [hmap, hparts, length_map, length_map]
  simpa using h.firsts.length_le

end

/-! ## Rows of a select -/

theorem Value.sameGroup_undefined {x : Float} (h : x.isNaN = true) : (double x).sameGroup (.double x) = false := by
  have hunpack : x.toModel.unpack = .notANumber := by
    change x.toModel.unpack.isNaN = true at h
    cases hx : x.toModel.unpack <;> rw [hx] at h <;> first | rfl | cases h
  have hbeq : (x == x) = false := by
    change (x.toModel.unpack.compare x.toModel.unpack == some .eq) = false
    rw [hunpack]
    rfl
  simp only [sameGroup, compare?, numeric?, compareNumeric?, Numeric.toDouble, Double.compare?]
  grind

/-- A row with its key and its place among the rows. -/
structure KeyedRow where
  place : Nat
  key : List Value
  row : Row

variable (env : Environment) (frames : Frames) {s : Select Tree} {rows : List Row} {keys : List (List Value)}

/-- The groups of a select are parts of its rows: each row is in one group, the rows of a group keep their order,
groups stand in the order of their first rows, and keys are compared with those of first rows only. Likeness need
not be transitive for that, nor hold of a value and itself. -/
theorem Select.groupRows_partitions (grouped : s.group ≠ [])
    (hkeys : rows.mapM (fun row => scalars env (row :: frames) none s.group) = .ok keys) :
    (∃ all parts, all.map KeyedRow.row = rows ∧ all.map KeyedRow.place = range rows.length ∧
      (∀ a ∈ all, scalars env (a.row :: frames) none s.group = .ok a.key) ∧
      Partitions KeyedRow.key all parts ∧
      groupRows s.group.isEmpty keys rows = parts.map fun g => g.1.row :: g.2.map KeyedRow.row) ∧
    (groupRows s.group.isEmpty keys rows).flatten.Perm rows ∧
    (∀ members ∈ groupRows s.group.isEmpty keys rows, members ≠ [] ∧ members.Sublist rows) ∧
    (∃ i x j, (Value.int i).sameGroup (.double x) = true ∧ (Value.double x).sameGroup (.int j) = true ∧
      (Value.int i).sameGroup (.int j) = false) ∧
    ∀ x : Float, x.isNaN = true → (Value.double x).sameGroup (.double x) = false := by
  have hrows := mapM_eq_ok.1 hkeys
  have hlength := hrows.length_eq
  obtain ⟨all, hall⟩ : ∃ all : List KeyedRow, all.map (fun a => ((a.key, a.row), a.place)) = (keys.zip rows).zipIdx :=
    ⟨(keys.zip rows).zipIdx.map fun p => ⟨p.2, p.1.1, p.1.2⟩, by rw [map_map]; exact map_id _⟩
  have hkey : all.map (fun a => (a.key, a.row)) = keys.zip rows := by
    rw [← zipIdx_map_fst 0 (keys.zip rows), ← hall, map_map]
    rfl
  have hrow : all.map KeyedRow.row = rows := by
    rw [← map_snd_zip hlength.le, ← hkey, map_map]
    rfl
  have hplace : all.map KeyedRow.place = range rows.length := by
    rw [range_eq_range', hlength, ← Nat.min_eq_left hlength.ge, ← length_zip, ← zipIdx_map_snd 0, ← hall, map_map]
    rfl
  have hvalue : ∀ a ∈ all, scalars env (a.row :: frames) none s.group = .ok a.key := by
    intro a ha
    have hmem : (a.key, a.row) ∈ keys.zip rows := hkey ▸ mem_map_of_mem (f := fun a => (a.key, a.row)) ha
    exact (forall₂_iff_zip.1 hrows.flip).2 hmem
  obtain ⟨parts, hparts, h⟩ := groupByKey_partitions KeyedRow.key all
  have hgroups : groupRows s.group.isEmpty keys rows = parts.map fun g => g.1.row :: g.2.map KeyedRow.row := by
    rw [groupRows, if_neg (by simpa using grouped), ← hkey, groupByKey_map, hparts, map_map]
    rfl
  refine ⟨⟨all, parts, hrow, hplace, hvalue, h, hgroups⟩, ?_, ?_, ⟨9007199254740993, Double.ofNat 9007199254740992,
    9007199254740992, by decide, by decide, by decide⟩, fun _ => Value.sameGroup_undefined⟩
  · have hflat : (groupRows s.group.isEmpty keys rows).flatten =
        (parts.flatMap fun g => g.1 :: g.2).map KeyedRow.row := by
      rw [hgroups, map_flatMap, flatMap_def]
      rfl
    rw [hflat, ← hrow]
    exact h.perm.map _
  · rw [hgroups]
    intro members hmembers
    obtain ⟨g, hg, rfl⟩ := mem_map.1 hmembers
    exact ⟨cons_ne_nil _ _, hrow ▸ (h.order g hg).map KeyedRow.row⟩

/-- Sizes of which the second one is alike both others, which are not alike. -/
def sizes : List Row :=
  [Value.int 9007199254740993, .double (Double.ofNat 9007199254740992), .int 9007199254740992].map fun v =>
    sourceRow 0 ["size"] [v]

theorem Select.groupRows_partitions_sizes :
    let s : Select Tree := { label := 1, group := [.column ⟨.double, default, 0, "size"⟩] }
    ∃ keys, sizes.mapM (fun row => scalars ⟨[], []⟩ [row] none s.group) = .ok keys ∧
      (groupRows s.group.isEmpty keys sizes).map length = [2, 1] ∧
      (groupRows s.group.isEmpty keys sizes).flatten.Perm sizes :=
  ⟨_, rfl, by decide, (groupRows_partitions ⟨[], []⟩ [] (cons_ne_nil _ _) rfl).2.1⟩

end HiveQuery
