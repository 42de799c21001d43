import HiveQuery.Proofs.SingletonNavigation
import Mathlib.Data.List.ProdSigma

/-!
# Rows that a relationship leads to

A relationship leads from the rows of an entity to a query for the rows of its target, which refers to the row of the
entity by any number of keys.
-/

namespace HiveQuery
open List

/-- The keys of two rows can be compared, or one of them is null. -/
def Relationship.Comparable (env : Environment) (e target : Entity) (r : Relationship) : Prop :=
  ∀ row ∈ (env.stored e).rows, ∀ other ∈ (env.stored target).rows, ∀ k ∈ r.keys,
    ∀ x ∈ e.value? (env.stored e) row k.1, ∀ y ∈ target.value? (env.stored target) other k.2, x.Comparable y

/-- All pairs of a row of an entity and a row of its target that are equal in all keys. -/
def Relationship.partners (r : Relationship) (env : Environment) (e target : Entity) :
    List (List Value × List Value) :=
  ((env.stored e).rows.product (env.stored target).rows).filter fun p =>
    r.pairs e target (env.stored e) (env.stored target) p.1 p.2

def Entity.memberColumns (e : Entity) (query : Alias) : List (Column Tree) :=
  e.columns.map fun c => ⟨c.member, .column (c.memberRef query), c.type.columnType⟩

/-- The members of an entity with those of another one, of which a query is applied to each row. -/
def Entity.appliedTo (e target : Entity) (label : Alias) (query related : Select Tree) : Select Tree where
  label := label
  columns := e.memberColumns query.label ++ target.memberColumns related.label
  source := some (.join ⟨.crossApply, .select query none, .select related none, none⟩ none)

variable {env : Environment} {m : EntityMap} {e : Entity} {r : Relationship} {l : Lookup} {row other : List Value}

theorem Relationship.ne_null_of_pairs {target : Entity} {own related : Table} {k : String × String}
    (h : r.pairs e target own related row other = true) (hk : k ∈ r.keys) :
    e.value? own row k.1 ≠ some .null ∧ target.value? related other k.2 ≠ some .null := by
  have hequals := all_eq_true.1 h k hk
  constructor
  · intro null
    rw [null] at hequals
    cases hy : target.value? related other k.2 with
    | none => simp [hy] at hequals
    | some y => cases y <;> simp [hy, Value.equals, Value.compare?, Value.numeric?] at hequals
  · intro null
    rw [null] at hequals
    cases hx : e.value? own row k.1 with
    | none => simp [hx] at hequals
    | some x => cases x <;> simp [hx, Value.equals, Value.compare?, Value.numeric?] at hequals

/-- The query that a relationship leads to is that of a lookup. -/
theorem Lookup.Serves.of_related {own : Alias} {entity : String} {p : Projection} {next next' : Alias}
    (h : (m.related (e.shape own) entity r).Gives next p next') :
    ∃ l : Lookup, l.Serves m e r ∧ l.table = next ∧
      p = l.target.query l.table l.query (allOf (l.conditions own (·.ref l.table))) := by
  obtain ⟨target, conditions, hknown, hconditions, rfl, rfl⟩ := EntityMap.related_gives.1 h
  obtain ⟨columns, hcolumns, rfl⟩ := keyConditions_shape.1 hconditions
  refine ⟨⟨target, columns, next, next + 1⟩, ⟨?_, hcolumns, rfl⟩, rfl, rfl⟩
  unfold EntityMap.known at hknown
  split at hknown
  · next htarget => exact Except.ok.inj hknown ▸ htarget
  · cases hknown

theorem Entity.scalar_memberColumns {frames : Frames} {query : Alias} {t : Table}
    (h : ∀ c ∈ e.columns, frames.lookup? (c.memberRef query) = some (t.value row c.column)) :
    Forall₂ (fun (c : Column Tree) v => c.value.scalar env frames none = .ok v) (e.memberColumns query)
      (e.values t row) :=
  forall₂_map_iff.2 (forall₂_same.2 fun c hc => scalar_column (h c hc) none)

theorem Entity.lookup?_memberRef {query : Alias} {t : Table} (members : e.members.Nodup) (rest : Row)
    (frames : Frames) {c : MappedColumn} (hc : c ∈ e.columns) :
    Frames.lookup? ((e.ownRow query t row ++ rest) :: frames) (c.memberRef query) =
      some (t.value row c.column) :=
  lookup?_ownRow rest frames rfl (column?_of_mem members hc)

section Applied

variable {table query : Alias}

/-- Applied to the rows of an entity, a lookup gives the pairs of rows with equal keys. -/
theorem Lookup.Serves.rows_applied (h : l.Serves m e r) (members : e.members.Nodup) (hown : env.Holds e)
    (hrelated : env.Holds l.target) (comparable : r.Comparable env e l.target) (htable : query ≠ l.table) :
    (Tree.join ⟨.crossApply, e.source table query, .select
        (l.target.query l.table l.query (allOf (l.conditions query (·.ref l.table)))).query none, none⟩
        none).rows env [] =
      .ok ((r.partners env e l.target).map fun p =>
        e.ownRow query (env.stored e) p.1 ++ l.target.ownRow l.query (env.stored l.target) p.2) := by
  have hrows : ∀ row ∈ (env.stored e).rows, (Tree.select (l.target.query l.table l.query
      (allOf (l.conditions query (·.ref l.table)))).query none).rows env [e.ownRow query (env.stored e) row] =
        .ok (((env.stored l.target).rows.filter (r.pairs e l.target (env.stored e) (env.stored l.target) row)).map
          (l.target.ownRow l.query (env.stored l.target))) := by
    intro row hrow
    rw [filter_congr fun other hother => h.pairs_eq hown hrelated hrow hother]
    refine Entity.rows_query flat_conditions hrelated.lookup_eq hrelated.holds fun other hother =>
      satisfies_applied hrow hother (h.comparable hown hrelated comparable) hrelated.holds
        (fun k hk => (h.key_mem k hk).2) htable fun k hk => ?_
    rw [← append_nil (e.ownRow _ _ _)]
    exact Entity.lookup?_memberRef members [] [] (h.key_mem k hk).1
  refine Tree.rows_join_eq_ok.2 ⟨_, _, Entity.rows_source hown.lookup_eq hown.holds [], nofun,
    forall₂_map_iff.2 (forall₂_same.2 fun row hrow => ⟨_, Join.matched_eq_ok.2 ⟨_, hrows row hrow,
      filterRows_true _⟩, rfl⟩), ?_⟩
  rw [Relationship.partners, product, filter_flatMap, map_flatMap, ← flatMap_def]
  refine flatMap_congr fun row _ => ?_
  rw [Join.extend, JoinKind.keepsUnmatched, Bool.and_false, if_neg Bool.false_ne_true, filter_map, map_map, map_map]
  rfl

theorem Lookup.Serves.run_applied (h : l.Serves m e r) (members : e.members.Nodup)
    (targets : l.target.members.Nodup) (hown : env.Holds e) (hrelated : env.Holds l.target)
    (comparable : r.Comparable env e l.target) (htable : query ≠ l.table) (hquery : query ≠ l.query)
    (count : ((r.partners env e l.target).length : Int) ≤ greatestInt64) (label : Alias) :
    (e.appliedTo l.target label (e.query table query none).query
      (l.target.query l.table l.query (allOf (l.conditions query (·.ref l.table)))).query).run env [] =
      .ok ⟨e.members ++ l.target.members, (r.partners env e l.target).map fun p =>
        e.values (env.stored e) p.1 ++ l.target.values (env.stored l.target) p.2⟩ := by
  have hvalues : ∀ p ∈ r.partners env e l.target, Forall₂ (fun (c : Column Tree) v => c.value.scalar env
      [e.ownRow query (env.stored e) p.1 ++ l.target.ownRow l.query (env.stored l.target) p.2] none = .ok v)
      (e.memberColumns query ++ l.target.memberColumns l.query)
      (e.values (env.stored e) p.1 ++ l.target.values (env.stored l.target) p.2) := by
    refine fun p _ => rel_append (Entity.scalar_memberColumns fun c hc => ?_)
      (Entity.scalar_memberColumns fun c hc => ?_)
    · exact Entity.lookup?_memberRef members _ [] hc
    · rw [lookup?_append_of_not_left (mt mem_singleton.1 hquery.symm), ← append_nil (l.target.ownRow _ _ _)]
      exact Entity.lookup?_memberRef targets [] [] hc
  have hplain : (e.appliedTo l.target label (e.query table query none).query
      (l.target.query l.table l.query (allOf (l.conditions query (·.ref l.table)))).query).isPlain = true := by
    simp [Select.isPlain, Select.hasAggregates, Entity.appliedTo, Entity.memberColumns, hasAggregate_column]
  have hnumbers : ∀ c ∈ e.memberColumns query ++ l.target.memberColumns l.query,
      c.value.isRowNumber = false := by
    simp only [Entity.memberColumns, forall_mem_append, forall_mem_map]
    exact ⟨fun _ _ => rfl, fun _ _ => rfl⟩
  have hrun := Select.run_of_plain hplain rfl rfl hnumbers
    (h.rows_applied members hown hrelated comparable htable) count (fun _ _ => rfl) hvalues
  rw [hrun, filter_true, Select.headers, Entity.appliedTo, map_append, Entity.memberColumns,
    Entity.memberColumns, map_map, map_map]
  rfl

end Applied

/-- The query that a relationship leads to, applied to the rows of the entity, gives the pairs of a row of the
entity and a row of the target that are equal in all keys, in the order of the two tables. A row with a null
key is in none of these pairs. -/
theorem EntityMap.memberQuery_relates (distinct : ∀ e ∈ m, e.members.Nodup) {name member : String}
    (he : m.entity? name = some e) (hr : e.relationship? member = some r)
    {first after next next' : Alias} {p : Projection} {t : Tree}
    (hp : (m.tableQuery name).Gives first p after) (hafter : after ≤ next)
    (ht : (m.memberQuery p.shape name member).Gives next t next') :
    ∃ (q : Projection) (target : Entity), t = q.toTree ∧ m.entity? r.target = some target ∧
      ∀ env : Environment, env.Holds e → env.Holds target → r.Comparable env e target →
        ((r.partners env e target).length : Int) ≤ greatestInt64 →
        (∀ label, (e.appliedTo target label p.query q.query).run env [] =
          .ok ⟨e.members ++ target.members, (r.partners env e target).map fun pair =>
            e.values (env.stored e) pair.1 ++ target.values (env.stored target) pair.2⟩) ∧
        ∀ pair ∈ r.partners env e target, ∀ k ∈ r.keys, e.value? (env.stored e) pair.1 k.1 ≠ some .null ∧
          target.value? (env.stored target) pair.2 k.2 ≠ some .null := by
  obtain ⟨rfl, rfl⟩ := tableQuery_gives he hp
  obtain ⟨e', _, hknown, hrest⟩ := Lowering.gives_bind.1 ht
  obtain ⟨hfound, rfl⟩ := Lowering.gives_except.1 hknown
  rw [known, he] at hfound
  obtain rfl := Except.ok.inj hfound
  rw [hr] at hrest
  obtain ⟨q, _, hq, hpure⟩ := Lowering.gives_bind.1 hrest
  obtain ⟨rfl, rfl⟩ := Lowering.gives_pure.1 hpure
  obtain ⟨l, hserves, rfl, rfl⟩ := Lookup.Serves.of_related hq
  have hquery : first + 1 < l.query := by
    rw [hserves.query]
    exact Nat.lt_succ_of_lt hafter
  refine ⟨_, l.target, rfl, hserves.target, fun env hown hrelated comparable count => ⟨fun label => ?_,
    fun pair hpair k hk => r.ne_null_of_pairs (mem_filter.1 hpair).2 hk⟩⟩
  exact hserves.run_applied (distinct e (mem_of_entity? he))
    (distinct l.target (mem_of_entity? hserves.target)) hown hrelated comparable
    (Nat.ne_of_lt hafter) (Nat.ne_of_lt hquery) count label

/-- An order has a number within its region. -/
def regionalOrder : Entity where
  name := "Order"
  table := "orders"
  columns := [⟨"number", "order_no", .int64⟩, ⟨"region", "region_id", .int64⟩]
  relationships := [⟨"lines", "Line", [("number", "order"), ("region", "area")], false⟩]

def orderLine : Entity where
  name := "Line"
  table := "lines"
  columns := [⟨"area", "region", .int64⟩, ⟨"order", "number", .int64⟩, ⟨"price", "price", .int64⟩]
  relationships := []

/-- The region of the last order and of one line is not known. -/
def regionalSample : Environment where
  dataset :=
    [("orders", ⟨["region_id", "order_no"], [[.int 10, .int 1], [.int 20, .int 1], [.null, .int 2]]⟩),
      ("lines", ⟨["price", "number", "region"], [[.int 5, .int 1, .int 20], [.int 6, .int 1, .int 10],
        [.int 7, .int 2, .null], [.int 8, .int 1, .int 20]]⟩)]
  arguments := []

theorem memberQuery_relates_orderLine :
    ∃ q : Projection, (EntityMap.memberQuery [regionalOrder, orderLine] (regionalOrder.query 0 1 none).shape
        "Order" "lines").Gives 2 q.toTree 4 ∧
      (regionalOrder.appliedTo orderLine 4 (regionalOrder.query 0 1 none).query q.query).run regionalSample [] =
        .ok ⟨["number", "region", "area", "order", "price"],
          [[.int 1, .int 10, .int 10, .int 1, .int 6], [.int 1, .int 20, .int 20, .int 1, .int 5],
            [.int 1, .int 20, .int 20, .int 1, .int 8]]⟩ := by
  have hgives : (EntityMap.memberQuery [regionalOrder, orderLine] (regionalOrder.query 0 1 none).shape
      "Order" "lines").Gives 2 _ 4 := rfl
  have hp : (EntityMap.tableQuery [regionalOrder, orderLine] "Order").Gives 0 (regionalOrder.query 0 1 none) 2 :=
    rfl
  obtain ⟨q, target, hq, htarget, hrun⟩ :=
    EntityMap.memberQuery_relates (by decide) rfl rfl hp (le_refl 2) hgives
  obtain rfl : orderLine = target := Option.some.inj htarget
  obtain ⟨hrun, -⟩ := hrun regionalSample ⟨by decide, by decide, by decide⟩ ⟨by decide, by decide, by decide⟩
    (by unfold Relationship.Comparable; decide) (by decide)
  exact ⟨q, hq ▸ hgives, (hrun 4).trans rfl⟩

end HiveQuery
