import HiveQuery.Proofs.JoinedLookups
import Mathlib.Data.List.Induction

/-!
# Rows that are looked up

What a chain of lookups gives, applied or joined: each row of the entity, and with it, for each lookup, the row of
the other entity with equal keys, or a row of nulls.
-/

namespace HiveQuery

variable {table : Alias} {d : ColumnRef} {keep : List Value → Bool} {s : Select Tree} {t : Tree}
open List HiveQuery.Tree
variable {env : Environment} {frames : Frames} {c : MappedColumn} {source : Tree}

/-! ## Selects that filter and compute -/

theorem Select.run_of_plain (plain : s.isPlain = true) (order : s.order = []) (reverse : s.reverse = false)
    (numbers : ∀ c ∈ s.columns, c.value.isRowNumber = false) {α : Type} {f : α → Row} {as : List α}
    (rows : optionRows env frames s.source = .ok (as.map f)) (count : (as.length : Int) ≤ greatestInt64)
    {keep : α → Bool} (filter : ∀ a ∈ as, satisfies env (f a :: frames) s.filter = .ok (keep a))
    {values : α → List Value}
    (columns : ∀ a ∈ as, Forall₂ (fun (c : Column Tree) v =>
      c.value.scalar env (f a :: frames) none = .ok v) s.columns (values a)) :
    s.run env frames = .ok ⟨s.headers, (as.filter keep).map values⟩ := by
  simp only [isPlain, Bool.and_eq_true, Bool.not_eq_true', Option.isNone_iff_eq_none,
    List.isEmpty_iff] at plain
  obtain ⟨⟨⟨⟨skip, take⟩, distinct⟩, group⟩, aggregates⟩ := plain
  have hkept : s.keptRows env frames = .ok ((as.filter keep).map f) := by
    refine keptRows_eq_ok.2 ⟨as.map f, rows, filterRows_map filter, ?_⟩
    rw [length_map]
    exact (Int.ofNat_le.2 (length_filter_le keep as)).trans count
  have hproduced : s.produced env frames = .ok ((as.filter keep).map fun a => (values a, [])) := by
    refine (produced_eq_ok_of_unnumbered ?_ numbers).2 ⟨_, hkept, ?_⟩
    · simp [isGrouped, group, aggregates]
    · refine forall₂_map_iff.2 (forall₂_same.2 fun a ha => ?_)
      refine ⟨?_, ?_⟩
      · exact columnValues_eq_ok.2 (columns a (mem_of_mem_filter ha))
      · rw [order]
        rfl
  have hdelivered := (delivered_eq_produced order distinct skip take reverse).trans hproduced
  refine run_eq_ok.2 ⟨_, hdelivered, ?_⟩
  rw [map_map]
  rfl

/-! ## Stored rows -/

def Table.value? (t : Table) (row : List Value) (column : String) : Option Value :=
  (t.columns.findIdx? (· == column)).bind fun i => row[i]?

def Table.value (t : Table) (row : List Value) (column : String) : Value :=
  (t.value? row column).getD .null

/-- A table holds the rows of an entity: it has a value for each of its columns, and no more rows than can be
counted. -/
structure Table.Holds (t : Table) (e : Entity) : Prop where
  count : (t.rows.length : Int) ≤ greatestInt64
  columns : ∀ row ∈ t.rows, ∀ c ∈ e.columns, (t.value? row c.column).isSome

def Entity.value? (e : Entity) (t : Table) (row : List Value) (member : String) : Option Value :=
  (e.column? member).bind fun c => t.value? row c.column

def Entity.values (e : Entity) (t : Table) (row : List Value) : List Value :=
  e.columns.map fun c => t.value row c.column

def Entity.ownRow (e : Entity) (query : Alias) (t : Table) (row : List Value) : Row :=
  sourceRow query e.members (e.values t row)

section Stored

variable {t : Table} {e : Entity} {row : List Value} {c : MappedColumn} {v : Value}

theorem Table.Holds.value?_eq (h : t.Holds e) (hrow : row ∈ t.rows) (hc : c ∈ e.columns) :
    t.value? row c.column = some (t.value row c.column) := by
  obtain ⟨v, hv⟩ := Option.isSome_iff_exists.1 (h.columns row hrow c hc)
  rw [value, hv, Option.getD_some]

theorem Entity.value?_binding {name : String} (a : Alias) (hc : e.column? name = some c) :
    Binding.value? ⟨a, e.members, some (e.values t row)⟩ name = some (t.value row c.column) := by
  have hvalues : Forall₂ (fun (c : MappedColumn) v => v = t.value row c.column) e.columns
      (e.values t row) := forall₂_map_right_iff.2 (forall₂_same.2 fun _ _ => rfl)
  obtain ⟨v, hv, rfl⟩ := getElem?_findIdx?_of_find? hvalues hc
  rw [← hv]
  simp [Binding.value?, members, findIdx?_map, Function.comp_def]

theorem lookup?_ref (a : Alias) (hv : t.value? row c.column = some v) (frames : Frames) :
    Frames.lookup? (sourceRow a t.columns row :: frames) (c.ref a) = some v := by
  rw [lookup?_cons_of_mem mem_cons_self, rowLookup?_sourceRow (a := a) rfl]
  exact hv

def MappedColumn.passOn (table : Alias) (c : MappedColumn) : Column Tree :=
  ⟨c.member, .column (c.ref table), c.type.columnType⟩

theorem Entity.run_of_plain {extra : List (Column Tree)} {more : List Value} (plain : s.isPlain = true)
    (order : s.order = []) (reverse : s.reverse = false) (source : s.source = some (.table table e.table))
    (columns : s.columns = e.columns.map (·.passOn table) ++ extra)
    (constants : Forall₂ (fun (c : Column Tree) v => c.value = .constant v) extra more)
    (stored : env.dataset.lookup e.table = some t) (holds : t.Holds e)
    (filter : ∀ row ∈ t.rows, satisfies env (sourceRow table t.columns row :: frames) s.filter = .ok (keep row)) :
    s.run env frames = .ok ⟨s.headers, (t.rows.filter keep).map fun row => e.values t row ++ more⟩ := by
  refine Select.run_of_plain plain order reverse ?_ ?_ holds.count filter fun row hrow => ?_
  · rw [columns, forall_mem_append]
    refine ⟨fun c hc => ?_, fun c hc => ?_⟩
    · obtain ⟨d, -, rfl⟩ := mem_map.1 hc
      rfl
    · obtain ⟨v, -, hv⟩ := forall₂_mem_left constants hc
      rw [hv]
      rfl
  · rw [source, optionRows, Tree.rows, stored]
  · rw [columns]
    refine rel_append ?_ (constants.imp fun c v hv => ?_)
    · refine forall₂_map_iff.2 (forall₂_same.2 fun c hc => ?_)
      exact scalar_column (lookup?_ref table (holds.value?_eq hrow hc) frames) none
    · rw [hv, scalar]

theorem Entity.rows_query {query : Alias} {filter : Option Tree} (flat : ∀ f ∈ filter, f.Flat)
    (stored : env.dataset.lookup e.table = some t) (holds : t.Holds e)
    (kept : ∀ row ∈ t.rows, satisfies env (sourceRow table t.columns row :: frames) filter = .ok (keep row)) :
    (select (e.query table query filter).query none).rows env frames =
      .ok ((t.rows.filter keep).map (e.ownRow query t)) := by
  have hfilter : filter.any hasAggregate = false := Tree.Flat.hasAggregate_option flat
  have hplain : (e.query table query filter).query.isPlain = true := by
    simp [Select.isPlain, Select.hasAggregates, Entity.query, hasAggregate_column, hfilter]
  have hheaders : (e.query table query filter).query.headers = e.members := map_map
  have hrun : (e.query table query filter).query.run env frames =
      .ok ⟨_, (t.rows.filter keep).map fun row => e.values t row ++ []⟩ :=
    run_of_plain hplain rfl rfl rfl (append_nil _).symm .nil stored holds kept
  rw [rows, hrun, hheaders]
  simp only [append_nil, Relation.bindRows]
  exact congrArg Except.ok map_map

theorem Entity.rows_source {query : Alias} (stored : env.dataset.lookup e.table = some t) (holds : t.Holds e)
    (frames : Frames) : (e.source table query).rows env frames = .ok (t.rows.map (e.ownRow query t)) := by
  have hrows : (e.source table query).rows env frames =
      .ok ((t.rows.filter fun _ => true).map (e.ownRow query t)) :=
    rows_query nofun stored holds fun _ _ => rfl
  rwa [filter_true] at hrows

end Stored

def Lookup.found (l : Lookup) (t : Table) (other : List Value) : Row :=
  sourceRow l.query (l.target.members ++ [l.target.testName])
    (l.target.values t other ++ [Projection.testMark])

theorem Lookup.rows_rows {l : Lookup} {t : Table} {filter : Option Tree} (flat : ∀ f ∈ filter, f.Flat)
    (stored : env.dataset.lookup l.target.table = some t) (holds : t.Holds l.target)
    (kept : ∀ row ∈ t.rows, satisfies env (sourceRow l.table t.columns row :: frames) filter = .ok (keep row)) :
    (select (l.rows filter) none).rows env frames = .ok ((t.rows.filter keep).map (l.found t)) := by
  have hplain := isPlain_rows (l := l) flat
  have hheaders : (l.rows filter).headers = l.target.members ++ [l.target.testName] := by
    rw [Select.headers, rows_eq, map_append, map_map]
    rfl
  have hrun : (l.rows filter).run env frames = .ok ⟨(l.rows filter).headers,
      (t.rows.filter keep).map fun row => l.target.values t row ++ [Projection.testMark]⟩ := by
    rw [rows_eq] at hplain ⊢
    exact Entity.run_of_plain hplain rfl rfl rfl rfl (.cons rfl .nil) stored holds kept
  have hlabel : (l.rows filter).label = l.query := by rw [rows_eq]
  rw [Tree.rows, hrun, hheaders, hlabel]
  exact congrArg Except.ok map_map

/-! ## Rows that match -/

def Value.equals (x y : Value) : Bool :=
  x.compare? y == some .eq

def Value.Comparable (x y : Value) : Prop :=
  x.isNull = true ∨ y.isNull = true ∨ (x.compare? y).isSome = true

instance (x y : Value) : Decidable (x.Comparable y) :=
  inferInstanceAs (Decidable (_ ∨ _ ∨ _))

/-- A row of this entity and one of the other entity are equal in all keys. -/
def Lookup.pairs (l : Lookup) (own related : Table) (row other : List Value) : Bool :=
  l.keys.all fun k =>
    Value.equals (own.value row k.1.column) (related.value other k.2.column)

def Lookup.Comparable (l : Lookup) (own related : Table) : Prop :=
  ∀ row ∈ own.rows, ∀ other ∈ related.rows, ∀ k ∈ l.keys,
    Value.Comparable (own.value row k.1.column) (related.value other k.2.column)

def Decides (env : Environment) (frames : Frames) (t : Tree) (b : Bool) : Prop :=
  ∃ v, t.scalar env frames none = .ok v ∧ (v.truth == some true) = b

theorem Decides.and {u : Tree} {a b : Bool} (ht : Decides env frames t a) (hu : Decides env frames u b) :
    Decides env frames (.binary .and t u) (a && b) := by
  obtain ⟨x, hx, rfl⟩ := ht
  obtain ⟨y, hy, rfl⟩ := hu
  refine ⟨Value.ofTruth (Value.conjunction x.truth y.truth), ?_, ?_⟩
  · rw [scalar, hx, hy]
    rfl
  · rcases x.truth with _ | _ | _ <;> rcases y.truth with _ | _ | _ <;> rfl

theorem Decides.equal {u : Tree} {x y : Value} (ht : t.scalar env frames none = .ok x)
    (hu : u.scalar env frames none = .ok y) (comparable : x.Comparable y) :
    Decides env frames (.binary .equal t u) (x.equals y) := by
  have hscalar : (binary .equal t u).scalar env frames none =
      Run.ofValue (Value.applyComparison .equal x y) := by
    rw [scalar, ht, hu]
    rfl
  by_cases hnull : (x.isNull || y.isNull) = true
  · refine ⟨.null, by rw [hscalar, Value.applyComparison, if_pos hnull]; rfl, ?_⟩
    cases x <;> cases y <;> first | rfl | cases hnull
  · obtain ⟨ord, hord⟩ : ∃ ord, x.compare? y = some ord := by
      simp only [Bool.or_eq_true, not_or] at hnull
      exact Option.isSome_iff_exists.1 ((comparable.resolve_left hnull.1).resolve_left hnull.2)
    refine ⟨.boolean (ord == .eq), by rw [hscalar, Value.applyComparison, if_neg hnull, hord]; rfl, ?_⟩
    rw [Value.equals, hord]
    cases ord <;> rfl

theorem Decides.satisfies {conditions : List Tree} {bs : List Bool}
    (h : Forall₂ (Decides env frames) conditions bs) :
    satisfies env frames (allOf conditions) = .ok (bs.all id) := by
  have hall : ∀ (b : Bool) (bs : List Bool), bs.foldl (· && ·) b = (b && bs.all id) := fun b bs => by
    induction bs generalizing b with
    | nil => simp
    | cons b' bs ih => simp [ih, Bool.and_assoc]
  have hconditions := allOf_rel h and
  cases h with
  | nil => rfl
  | cons =>
    cases hconditions with
    | some hdecides =>
      obtain ⟨v, hv, hb⟩ := hdecides
      rw [allOf, HiveQuery.satisfies, hv]
      exact congrArg Except.ok (hb.trans (hall _ _))

theorem Entity.column?_of_mem {e : Entity} (nodup : e.members.Nodup) (hc : c ∈ e.columns) :
    e.column? c.member = some c := by
  obtain ⟨d, hd⟩ : ∃ d, e.column? c.member = some d :=
    Option.isSome_iff_exists.1 (find?_isSome.2 ⟨c, hc, beq_self_eq_true _⟩)
  have hmember : d.member = c.member := by simpa using find?_some hd
  rw [hd, inj_on_of_nodup_map nodup (mem_of_find?_eq_some hd) hc hmember]

/-- What is stored determines the rows of a lookup: keys can be compared, and no row matches two rows. -/
structure Lookup.Determined (env : Environment) (e : Entity) (own : Table) (l : Lookup) (related : Table) :
    Prop where
  keys : ∀ k ∈ l.keys, k.1 ∈ e.columns ∧ k.2 ∈ l.target.columns
  members : l.target.members.Nodup
  stored : env.dataset.lookup l.target.table = some related
  holds : related.Holds l.target
  comparable : l.Comparable own related
  unique : ∀ row ∈ own.rows, (related.rows.filter (l.pairs own related row)).length ≤ 1

section Matched

variable {e : Entity} {own related : Table} {l : Lookup} {query : Alias} {row other : List Value}

section

variable (hrow : row ∈ own.rows) (hother : other ∈ related.rows) (comparable : l.Comparable own related)
include hrow hother comparable

theorem Lookup.satisfies_conditions {read : MappedColumn → ColumnRef}
    (hown : ∀ k ∈ l.keys, frames.lookup? (k.1.memberRef query) = some (own.value row k.1.column))
    (hrelated : ∀ k ∈ l.keys, frames.lookup? (read k.2) = some (related.value other k.2.column)) :
    satisfies env frames (allOf (l.conditions query read)) = .ok (l.pairs own related row other) := by
  have hdecides : Forall₂ (Decides env frames) (l.conditions query read) (l.keys.map fun k =>
      Value.equals (own.value row k.1.column) (related.value other k.2.column)) := by
    refine forall₂_map_iff.2 (forall₂_same.2 fun k hk => ?_)
    exact .equal (scalar_column (hown k hk) none) (scalar_column (hrelated k hk) none)
      (comparable row hrow other hother k hk)
  rw [Decides.satisfies hdecides, all_map]
  rfl

theorem Lookup.satisfies_applied (holds : related.Holds l.target)
    (keys : ∀ k ∈ l.keys, k.2 ∈ l.target.columns) (htable : query ≠ l.table)
    (hown : ∀ k ∈ l.keys, frames.lookup? (k.1.memberRef query) = some (own.value row k.1.column)) :
    satisfies env (sourceRow l.table related.columns other :: frames)
      (allOf (l.conditions query (·.ref l.table))) = .ok (l.pairs own related row other) := by
  refine satisfies_conditions hrow hother comparable (fun k hk => ?_) fun k hk => ?_
  · rw [lookup?_cons_of_not_mem (mt mem_singleton.1 htable)]
    exact hown k hk
  · exact lookup?_ref l.table (holds.value?_eq hother (keys k hk)) frames

end

theorem Entity.lookup?_ownRow (rest : Row) (frames : Frames) (hlabel : d.label = query)
    (hc : e.column? d.name = some c) :
    Frames.lookup? ((e.ownRow query own row ++ rest) :: frames) d = some (own.value row c.column) := by
  have hmem : d.label ∈ (e.ownRow query own row).map Binding.label := by
    rw [hlabel]
    exact mem_cons_self
  rw [lookup?_append_of_left hmem, lookup?_cons_of_mem hmem, ownRow, rowLookup?_sourceRow hlabel,
    value?_binding query hc]

theorem Lookup.lookup?_found (frames : Frames) (hlabel : d.label = l.query)
    (hc : l.target.column? d.name = some c) :
    Frames.lookup? (l.found related other :: frames) d = some (related.value other c.column) := by
  have hmem : d.label ∈ (l.found related other).map Binding.label := by
    rw [hlabel]
    exact mem_cons_self
  rw [lookup?_cons_of_mem hmem, found, rowLookup?_sourceRow hlabel]
  exact value?_append _ _ (Entity.value?_binding l.query hc)

theorem Lookup.lookup?_passed (frames : Frames) (members : l.target.members.Nodup) (hc : c ∈ l.target.columns) :
    Frames.lookup? (l.found related other :: frames) (l.passed c) = some (related.value other c.column) := by
  obtain ⟨d, hd⟩ : ∃ d, l.target.columns.find? (fun d => d.column == c.column) = some d :=
    Option.isSome_iff_exists.1 (find?_isSome.2 ⟨c, hc, beq_self_eq_true _⟩)
  have hcolumn : d.column = c.column := by simpa using find?_some hd
  have hname : (l.passed c).name = d.member := by
    rw [passed, hd, Option.getD_some]
  rw [← hcolumn]
  refine lookup?_found frames rfl ?_
  rw [hname, Entity.column?_of_mem members (mem_of_find?_eq_some hd)]

theorem Lookup.Determined.rows_right {lowered : Bool} (h : l.Determined env e own related)
    (join : (l.joinTo query lowered source).kind.isApply = false) :
    (l.joinTo query lowered source).right.rows env frames = .ok (related.rows.map (l.found related)) := by
  cases lowered with
  | true =>
    have hrows : (select (l.rows none) none).rows env frames =
        .ok ((related.rows.filter fun _ => true).map (l.found related)) :=
      rows_rows nofun h.stored h.holds fun _ _ => rfl
    rwa [filter_true] at hrows
  | false => cases join

theorem Lookup.Determined.matched (h : l.Determined env e own related) (members : e.members.Nodup)
    {lowered : Bool} {rest : Row} (hrow : row ∈ own.rows) (htable : query ≠ l.table)
    (hquery : l.query ∉ (e.ownRow query own row ++ rest).map Binding.label) :
    (l.joinTo query lowered source).matched env [] (e.ownRow query own row ++ rest) =
      .ok ((related.rows.filter (l.pairs own related row)).map fun other =>
        e.ownRow query own row ++ rest ++ l.found related other) := by
  have hown : ∀ (frames : Frames) (rest : Row), ∀ k ∈ l.keys,
      Frames.lookup? ((e.ownRow query own row ++ rest) :: frames) (k.1.memberRef query) =
        some (own.value row k.1.column) := fun frames rest k hk =>
    Entity.lookup?_ownRow rest frames rfl (Entity.column?_of_mem members (h.keys k hk).1)
  -- A lookup that is joined reads the keys of the other row from its columns, after all rows are computed; one
  -- that is applied reads them from the table, before.
  cases lowered with
  | true =>
    refine Join.matched_eq_ok.2 ⟨related.rows.map (l.found related), ?_, ?_⟩
    · exact h.rows_right rfl
    · rw [map_map]
      have htrue (frames : Frames) (o : Option Tree) : satisfies env frames
          (some (o.getD (.constant (.boolean true)))) = satisfies env frames o := by cases o <;> rfl
      refine Select.filterRows_map fun other hother => (htrue _ _).trans ?_
      refine satisfies_conditions hrow hother h.comparable (fun k hk => ?_) fun k hk => ?_
      · rw [Function.comp_apply, append_assoc]
        exact hown [] _ k hk
      · rw [Function.comp_apply, lookup?_append_of_not_left (c := l.passed k.2) hquery]
        exact lookup?_passed [] h.members (h.keys k hk).2
  | false =>
    refine Join.matched_eq_ok.2
      ⟨(related.rows.filter (l.pairs own related row)).map (l.found related), ?_, ?_⟩
    · exact rows_rows flat_conditions h.stored h.holds fun other hother =>
        satisfies_applied hrow hother h.comparable h.holds (fun k hk => (h.keys k hk).2) htable
          (hown [] rest)
    · rw [map_map]
      exact filterRows_true _

end Matched

/-! ## Joins that are computed -/

theorem optionJoins_eq_nil {o : Option Tree} (h : ∀ t ∈ o, t.computedJoins env frames none = []) :
    optionJoins env frames o = [] := by
  cases o with
  | none => rfl
  | some t => exact h t rfl

theorem Select.computedJoins_of_others
    (h : ∀ t ∈ s.others, ∀ frames group, t.computedJoins env frames group = []) :
    s.computedJoins env frames = optionJoins env frames s.source := by
  simp only [others, clauses, mem_append, Option.toList_none, nil_append,
    Option.mem_toList, or_imp, forall_and] at h
  obtain ⟨⟨⟨⟨⟨⟨hfilter, horder⟩, hgroup⟩, -⟩, hskip⟩, htake⟩, hcolumns⟩ := h
  have hfiltered : ∀ frames, optionJoins env frames s.filter = [] := fun frames =>
    optionJoins_eq_nil fun t ht => hfilter t ht frames none
  have hgrouped : ∀ frames, listJoins env frames none s.group = [] := fun frames => by
    rw [listJoins_eq]
    exact flatMap_eq_nil_iff.2 fun t ht => hgroup t ht frames none
  have hordered : ∀ frames group, keyJoins env frames group s.order = [] := fun frames group => by
    rw [keyJoins_eq]
    exact flatMap_eq_nil_iff.2 fun k hk => horder k.value (mem_map_of_mem hk) frames group
  have hcomputed : ∀ frames group, columnJoins env frames group s.columns = [] := fun frames group => by
    rw [columnJoins_eq]
    exact flatMap_eq_nil_iff.2 fun c hc => hcolumns c.value (mem_map_of_mem hc) frames group
  rw [computedJoins_eq, optionJoins_eq_nil fun t ht => hskip t ht frames none,
    optionJoins_eq_nil fun t ht => htake t ht frames none]
  simp [hfiltered, hgrouped, hordered, hcomputed]

theorem Tree.computedJoins_of_joinless (h : t.Every fun u => u.isJoin = false) (frames : Frames)
    (group : Option (List Row)) : t.computedJoins env frames group = [] := by
  induction t generalizing frames group with
  | step t ih =>
    obtain ⟨hjoin, hchildren⟩ := every_iff.1 h
    have hnil : ∀ u ∈ t.children, ∀ frames group, u.computedJoins env frames group = [] := fun u hu =>
      ih u hu (hchildren u hu)
    clear ih h hchildren
    cases t with
    | join => cases hjoin
    | select s i =>
      rw [children, Select.clauses_eq, forall_mem_append] at hnil
      obtain ⟨hsource, hothers⟩ := hnil
      rw [computedJoins, Select.computedJoins_of_others hothers]
      exact optionJoins_eq_nil fun t ht => hsource t (Option.mem_toList.2 ht) frames none
    | aggregate kind argument distinct type =>
      refine flatMap_eq_nil_iff.2 fun row _ => optionJoins_eq_nil fun t ht => ?_
      exact hnil t (Option.mem_toList.2 ht) _ none
    | rowNumber keys =>
      rw [computedJoins, keyJoins_eq]
      exact flatMap_eq_nil_iff.2 fun k hk => hnil k.value (mem_map_of_mem hk) frames group
    | inSubquery item query =>
      rw [computedJoins, hnil item mem_cons_self, hnil query (.tail _ (.head _))]
      cases item.scalar env frames group <;> simp
    | _ => simp_all [computedJoins]

/-! ## Rows of a chain of lookups -/

def Environment.stored (env : Environment) (e : Entity) : Table :=
  (env.dataset.lookup e.table).getD ⟨[], []⟩

def Lookup.result (env : Environment) (own : Table) (row : List Value) (l : Lookup) : Row :=
  let related := env.stored l.target
  ((related.rows.find? (l.pairs own related row)).map (l.found related)).getD (nullRow [l.query])

def Entity.joinedRow (e : Entity) (env : Environment) (query : Alias) (own : Table) (ls : List Lookup)
    (row : List Value) : Row :=
  e.ownRow query own row ++ ls.flatMap (Lookup.result env own row)

section Chain

variable {e : Entity} {own : Table} {l : Lookup} {ls : List Lookup} {table query : Alias} {lowered : Bool}
  {row : List Value}

theorem Lookup.labels_result (env : Environment) (own : Table) (row : List Value) (l : Lookup) :
    (l.result env own row).map Binding.label = [l.query] := by
  rw [result]
  cases (env.stored l.target).rows.find? (l.pairs own (env.stored l.target) row) <;> rfl

theorem Entity.labels_joinedRow (e : Entity) (env : Environment) (query : Alias) (own : Table)
    (ls : List Lookup) (row : List Value) :
    (e.joinedRow env query own ls row).map Binding.label = query :: ls.map Lookup.query := by
  rw [joinedRow, map_append, map_flatMap]
  simp only [Lookup.labels_result, map_eq_flatMap (f := Lookup.query)]
  rfl

theorem Lookup.extend_joinTo {r : Row}
    (unique : ((env.stored l.target).rows.filter (l.pairs own (env.stored l.target) row)).length ≤ 1) :
    (l.joinTo query lowered source).extend r (((env.stored l.target).rows.filter
      (l.pairs own (env.stored l.target) row)).map fun other => r ++ l.found (env.stored l.target) other) =
      [r ++ l.result env own row] := by
  have hsources : (l.joinTo query lowered source).right.sources = [l.query] := by
    cases lowered <;> simp only [joinTo, rows_eq] <;> rfl
  have hkeeps : (l.joinTo query lowered source).kind.keepsUnmatched = true := by
    cases lowered <;> rfl
  rw [result, ← head?_filter, Join.extend, hsources, hkeeps]
  rcases hkept : (env.stored l.target).rows.filter (l.pairs own (env.stored l.target) row) with _ | ⟨other, _ | _⟩
  · rfl
  · rfl
  · rw [hkept] at unique
    exact absurd unique (by simp)

theorem Lookup.chain_append (own : Alias) (lowered : Bool) (source : Tree) (ls : List Lookup) (l : Lookup) :
    chain own lowered source (ls ++ [l]) =
      .join (l.joinTo own lowered (chain own lowered source ls)) none :=
  foldl_append

theorem Lookup.left_joinTo (l : Lookup) (own : Alias) (lowered : Bool) (source : Tree) :
    (l.joinTo own lowered source).left = source := by
  cases lowered <;> rfl

/-- What is stored determines all rows that are looked up, and the lookups have aliases of their own. -/
structure Lookup.AllDetermined (env : Environment) (e : Entity) (own : Table) (query : Alias)
    (ls : List Lookup) : Prop where
  members : e.members.Nodup
  stored : env.dataset.lookup e.table = some own
  holds : own.Holds e
  determined : ∀ l ∈ ls, l.Determined env e own (env.stored l.target)
  tables : ∀ l ∈ ls, query ≠ l.table
  queries : (query :: ls.map Lookup.query).Nodup

theorem Lookup.AllDetermined.of_append (h : Lookup.AllDetermined env e own query (ls ++ [l])) :
    Lookup.AllDetermined env e own query ls where
  members := h.members
  stored := h.stored
  holds := h.holds
  determined := fun l hl => h.determined l (mem_append_left _ hl)
  tables := fun l hl => h.tables l (mem_append_left _ hl)
  queries := h.queries.sublist (((sublist_append_left ls [l]).map Lookup.query).cons_cons query)

theorem Lookup.AllDetermined.matched (h : Lookup.AllDetermined env e own query (ls ++ [l]))
    (hrow : row ∈ own.rows) :
    (l.joinTo query lowered source).matched env [] (e.joinedRow env query own ls row) =
      .ok (((env.stored l.target).rows.filter (l.pairs own (env.stored l.target) row)).map fun other =>
        e.joinedRow env query own ls row ++ l.found (env.stored l.target) other) := by
  have hmem : l ∈ ls ++ [l] := mem_append_right _ mem_cons_self
  refine (h.determined l hmem).matched h.members hrow (h.tables l hmem) ?_
  have hqueries := h.queries
  rw [map_append, ← cons_append] at hqueries
  rw [← Entity.joinedRow, Entity.labels_joinedRow]
  exact fun hmem => disjoint_of_nodup_append hqueries hmem mem_cons_self

/-- A chain of lookups gives one row for each row of the entity. -/
theorem Lookup.AllDetermined.rows_chain (h : Lookup.AllDetermined env e own query ls) :
    (chain query lowered (e.source table query) ls).rows env [] =
      .ok (own.rows.map (e.joinedRow env query own ls)) := by
  -- The last lookup is the outermost join.
  induction ls using reverseRecOn with
  | nil =>
    refine (Entity.rows_source h.stored h.holds []).trans ?_
    exact congrArg Except.ok (map_congr_left fun row _ => (append_nil _).symm)
  | append_singleton ls l ih =>
    have hdetermined := h.determined l (mem_append_right _ mem_cons_self)
    rw [chain_append]
    refine rows_join_eq_ok.2 ⟨own.rows.map (e.joinedRow env query own ls),
      own.rows.map fun row => [e.joinedRow env query own (ls ++ [l]) row], ?_, ?_, ?_, ?_⟩
    · rw [left_joinTo, ih h.of_append]
    · exact fun join => ⟨_, hdetermined.rows_right join⟩
    · refine forall₂_map_iff.2 (forall₂_same.2 ?_)
      intro row hrow
      refine ⟨_, h.matched hrow, ?_⟩
      rw [extend_joinTo (hdetermined.unique row hrow)]
      simp [Entity.joinedRow]
    · rw [← flatMap_def, ← map_eq_flatMap]

theorem Lookup.computedJoins_joinTo (l : Lookup) (query : Alias) (lowered : Bool) (source : Tree) :
    (join (l.joinTo query lowered source) none).computedJoins env frames none =
      (frames, l.joinTo query lowered source) :: source.computedJoins env frames none := by
  have hrows : ∀ (filter : Option Tree), (∀ f ∈ filter, f.Flat) → ∀ frames,
      (l.rows filter).computedJoins env frames = [] := fun _ h frames =>
    computedJoins_of_joinless (joinless_rows h) frames none
  cases lowered with
  | true =>
    have hcondition : ∀ frames, optionJoins env frames (l.joinTo query true source).condition = [] :=
      fun frames => computedJoins_of_joinless (l.flat_condition query l.passed).joinless frames none
    simp only [joinTo, if_true, computedJoins] at hcondition ⊢
    simp [hrows none (by simp), hcondition, JoinKind.isApply]
  | false =>
    simp only [joinTo, Bool.false_eq_true, if_false, computedJoins]
    simp [hrows (allOf (l.conditions query (·.ref l.table))) flat_conditions, optionJoins, JoinKind.isApply]

/-- No computed join of the chain matches a row twice. -/
theorem Lookup.AllDetermined.unique_chain (h : Lookup.AllDetermined env e own query ls)
    (lookups : List Alias) :
    LookupsUnique env lookups
      ((chain query lowered (e.source table query) ls).computedJoins env [] none) := by
  induction ls using reverseRecOn with
  | nil =>
    rw [chain, foldl_nil, computedJoins_of_joinless (e.joinless_source table query)]
    rintro _ ⟨⟩
  | append_singleton ls l ih =>
    rw [chain_append, computedJoins_joinTo, lookupsUnique_cons]
    refine ⟨fun _ _ _ r hr => ?_, ih h.of_append⟩
    rw [left_joinTo, h.of_append.rows_chain] at hr
    obtain ⟨row, hrow, rfl⟩ := mem_map.1 hr
    rw [h.matched hrow, Run.values, length_map]
    exact (h.determined l (mem_append_right _ mem_cons_self)).unique row hrow

theorem Lookup.AllDetermined.lookup?_result (h : Lookup.AllDetermined env e own query ls) (hl : l ∈ ls)
    (hlabel : d.label = l.query) (row : List Value) :
    Frames.lookup? [e.joinedRow env query own ls row] d = Frames.lookup? [l.result env own row] d := by
  obtain ⟨before, after, rfl⟩ := append_of_mem hl
  have hqueries := h.queries
  rw [map_append, ← cons_append] at hqueries
  have hjoined : e.joinedRow env query own (before ++ l :: after) row =
      e.joinedRow env query own before row ++
        (l.result env own row ++ after.flatMap (result env own row)) := by
    simp [Entity.joinedRow]
  rw [hjoined, lookup?_append_of_not_left, lookup?_append_of_left]
  · rw [labels_result, hlabel]
    exact mem_singleton_self _
  · rw [Entity.labels_joinedRow, hlabel]
    exact fun hmem => disjoint_of_nodup_append hqueries hmem mem_cons_self

end Chain

end HiveQuery
