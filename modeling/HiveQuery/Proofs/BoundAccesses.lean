import HiveQuery.Proofs.SteadyTrees

/-!
# Accesses to the members of an entity

A query over the rows of an entity names its columns by accesses. Each access through a relationship is bound to a
lookup of its own, which is applied to the rows that the query has so far.
-/

namespace HiveQuery

variable {table : Alias} {target : Entity} {outer : List (Option Tree)} {r : Relationship}
  {entity name : String}
open List

variable {next : Alias}

/-! ## Members that are bound -/

namespace Navigation

variable {m : EntityMap} {nav nav₁ nav₂ : Navigation}

def course : Course Navigating Navigation where
  gives x nav a nav' := x.run.run nav = (.ok a, nav')
  pure _ _ := rfl
  bind hx hf := (run_bind hx _).trans hf

theorem modify_run (f : Navigation → Navigation) :
    (modify f : Navigating PUnit).run.run nav = (.ok (), f nav) := rfl

theorem afterSource_run (source : Option Tree) : ((visitor m).afterSource source).run.run nav =
    (.ok (), { nav with sources := source :: nav.sources }) := rfl

theorem around_select (s : Select Tree) (i : Option Identity) (rebuilt : Navigating Tree) :
    (visitor m).around (.select s i) rebuilt = rebuilt >>= leave := rfl

theorem access_run {source field : Tree} (hfield : source.member? name = some field)
    (plain : isAccess name field = false) :
    (access source name).run.run nav = (.ok field, { nav with changed := true }) := by
  rw [access, run_bind get_run, hfield]
  dsimp only
  rw [plain, Bool.false_and, if_neg Bool.false_ne_true, touch, run_bind (modify_run _)]
  rfl

theorem follow_run {root source : Tree} {p : Projection}
    (hp : (m.related root entity r).Gives nav.next p next) (singleton : r.singleton = true)
    (hsources : nav.sources = some source :: outer) (hnew : p.withTest.query.label ∉ nav.lookups) :
    (follow m root entity r).run.run nav = (.ok p.withTest.shape,
      { next := next
        lookups := nav.lookups ++ [p.withTest.query.label]
        sources := some (.join ⟨.outerApply, source, .select p.withTest.query none, none⟩ none) :: outer
        changed := true }) := by
  have hlowering : (lowering (m.related root entity r)).run.run nav = (.ok p, { nav with next := next }) := by
    rw [lowering_run, hp]
  rw [follow, run_bind hlowering, touch, run_bind (modify_run _), run_bind get_run]
  rw [singleton, if_pos rfl, joinLookup, hsources]
  dsimp only
  rw [if_neg (by simpa using hnew)]
  rfl

theorem visit_member_run (nav : Navigation) {root u v : Tree}
    (hroot : (root.visit (visitor m)).run.run { nav with changed := false } = (.ok u, nav₁))
    (hresolve : (resolve m u name).run.run nav₁ = (.ok v, nav₂)) :
    ((Tree.member root name).visit (visitor m)).run.run nav =
      (.ok v, { nav₂ with changed := nav.changed || nav₂.changed }) := by
  rw [Tree.visit]
  have hrebuilt : (root.visit (visitor m) >>= fun t => pure (Tree.member t name)).run.run
      { nav with changed := false } = (.ok (.member u name), nav₁) := run_bind hroot _
  generalize root.visit (visitor m) >>= (fun t => pure (Tree.member t name)) = rebuilt at hrebuilt ⊢
  dsimp only [visitor]
  rw [run_bind get_run, run_bind (modify_run _), run_bind hrebuilt, run_bind hresolve]
  rfl

end Navigation

/-! ## Lookups -/

def Entity.shape (e : Entity) (query : Alias) : Tree :=
  .entity e.name (.record (e.columns.map fun c => (c.member, .column (c.memberRef query))))

/-- A row of another entity that is looked up: the pairs of columns in which it is equal to a row of this
entity, and the aliases of its table and its query. -/
structure Lookup where
  target : Entity
  keys : List (MappedColumn × MappedColumn)
  table : Alias
  query : Alias

namespace Lookup

def conditions (own : Alias) (related : MappedColumn → ColumnRef) (l : Lookup) : List Tree :=
  l.keys.map fun k => .binary .equal (.column (k.1.memberRef own)) (.column (related k.2))

def rows (l : Lookup) (filter : Option Tree) : Select Tree :=
  (l.target.query l.table l.query filter).withTest.query

def passed (l : Lookup) (c : MappedColumn) : ColumnRef :=
  let member := ((l.target.columns.find? fun d => d.column == c.column).getD c).member
  ⟨c.type, c.type.columnType, l.query, member⟩

def joinTo (own : Alias) (lowered : Bool) (source : Tree) (l : Lookup) : Join Tree :=
  if lowered then
    let condition := (allOf (l.conditions own l.passed)).getD (.constant (.boolean true))
    ⟨.leftOuter, source, .select (l.rows none) none, some condition⟩
  else
    ⟨.outerApply, source, .select (l.rows (allOf (l.conditions own (·.ref l.table)))) none, none⟩

def chain (own : Alias) (lowered : Bool) (source : Tree) (ls : List Lookup) : Tree :=
  ls.foldl (fun source l => .join (l.joinTo own lowered source) none) source

structure Serves (m : EntityMap) (e : Entity) (r : Relationship) (l : Lookup) : Prop where
  target : m.entity? r.target = some l.target
  keys : Forall₂ (fun k c => e.column? k.1 = some c.1 ∧ l.target.column? k.2 = some c.2) r.keys l.keys
  query : l.query = l.table + 1

end Lookup

section Binding

variable {m : EntityMap} {e : Entity} {own : Alias} {nav : Navigation}

theorem Entity.member?_shape (e : Entity) (own : Alias) (name : String) :
    (e.shape own).member? name = (e.column? name).map fun c => .column (c.memberRef own) := by
  show (e.columns.map fun c => (c.member, Tree.column (c.memberRef own))).lookup name = _
  rw [column?]
  induction e.columns with
  | nil => rfl
  | cons c cs ih =>
    rw [map_cons, lookup_cons, find?_cons, ih, Bool.beq_comm]
    cases c.member == name <;> rfl

theorem Entity.visit_shape (m : EntityMap) (e : Entity) (own : Alias) :
    (e.shape own).visit (Navigation.visitor m) = pure (e.shape own) := by
  have hsteady : (e.shape own).Every (Navigation.visitor m).Steady := by
    refine Tree.every_iff.2 ⟨⟨rfl, nofun⟩, fun t ht => ?_⟩
    obtain rfl := mem_singleton.1 ht
    refine Tree.every_iff.2 ⟨⟨rfl, nofun⟩, fun t ht => ?_⟩
    obtain ⟨f, hf, rfl⟩ := mem_map.1 ht
    obtain ⟨c, -, rfl⟩ := mem_map.1 hf
    exact Tree.every_iff.2 ⟨⟨rfl, nofun⟩, nofun⟩
  have hrenewed : (e.shape own).renewed = e.shape own := by
    show Tree.entity e.name
      (Tree.record (e.columns.map fun c => (c.member, .column (c.memberRef own)))).renewed = _
    simp only [Tree.renewed_node (.record _), Tree.rebuilt, Tree.mapNode, map_map]
    rfl
  rw [Tree.visit_eq_renewed hsteady, hrenewed]

theorem keyCondition_shape {k : String × String} {t : Tree} :
    keyCondition (e.shape own) entity target table k = .ok t ↔
      ∃ c d, (e.column? k.1 = some c ∧ target.column? k.2 = some d) ∧
        t = .binary .equal (.column (c.memberRef own)) (.column (d.ref table)) := by
  rw [keyCondition, Tree.memberOrAccess, Entity.member?_shape]
  cases e.column? k.1 with
  | none => simp
  | some c => cases target.column? k.2 <;> simp [eq_comm]

theorem keyConditions_shape {keys : List (String × String)} {conditions : List Tree} :
    keyConditions (e.shape own) entity target table keys = .ok conditions ↔
      ∃ columns : List (MappedColumn × MappedColumn), Forall₂ (fun k c =>
        e.column? k.1 = some c.1 ∧ target.column? k.2 = some c.2) keys columns ∧
        conditions = columns.map fun c =>
          .binary .equal (.column (c.1.memberRef own)) (.column (c.2.ref table)) := by
  rw [keyConditions]
  constructor
  · intro h
    replace h := mapM_eq_ok.1 h
    induction h with
    | nil => exact ⟨[], .nil, rfl⟩
    | cons hcondition _ ih =>
      obtain ⟨c, d, hk, rfl⟩ := keyCondition_shape.1 hcondition
      obtain ⟨columns, hcolumns, rfl⟩ := ih
      exact ⟨(c, d) :: columns, .cons hk hcolumns, rfl⟩
  · rintro ⟨columns, h, rfl⟩
    induction h with
    | nil => rfl
    | @cons k c ks cs hk _ ih =>
      rw [mapM_cons, keyCondition_shape.2 ⟨c.1, c.2, hk, rfl⟩, ih]
      rfl

theorem Lookup.Serves.related_gives {l : Lookup} (h : l.Serves m e r) :
    (m.related (e.shape own) e.name r).Gives l.table
      (l.target.query l.table l.query (allOf (l.conditions own (·.ref l.table)))) (l.table + 2) := by
  refine EntityMap.related_gives.2 ⟨l.target, l.conditions own (·.ref l.table), ?_, ?_, ?_, rfl⟩
  · rw [EntityMap.known, h.target]
  · exact keyConditions_shape.2 ⟨l.keys, h.keys, rfl⟩
  · rw [h.query]

/-- An access to a member of an entity or, through a relationship, to a member of another entity. -/
inductive Access where
  | own (member : String)
  | through (relationship member : String)

def Access.tree (root : Tree) : Access → Tree
  | .own member => .member root member
  | .through relationship member => .member (.member root relationship) member

/-- What an access is bound to: a column of the query, or a column of a lookup. -/
inductive Access.Binds (m : EntityMap) (e : Entity) (own : Alias) : Access → ColumnRef → Option Lookup → Prop
  | own {name : String} {c : MappedColumn} (column : e.column? name = some c)
      (apart : e.relationship? name = none) :
      Binds m e own (.own name) (c.memberRef own) none
  | through {name member : String} {r : Relationship} {l : Lookup} {c : MappedColumn}
      (relationship : e.relationship? name = some r) (singleton : r.singleton = true)
      (serves : l.Serves m e r) (column : l.target.column? member = some c) :
      Binds m e own (.through name member) (c.memberRef l.query) (some l)

def Entity.members (e : Entity) : List String :=
  e.columns.map MappedColumn.member

def Entity.testName (e : Entity) : String :=
  freeName e.members "Test"

theorem Entity.withTest_query (e : Entity) (table query : Alias) (filter : Option Tree) :
    (e.query table query filter).withTest =
      { query :=
          { label := query
            columns := (e.columns.map fun c => ⟨c.member, .column (c.ref table), c.type.columnType⟩) ++
              [⟨e.testName, .constant Projection.testMark, ScalarType.int64.columnType⟩]
            source := some (.table table e.table)
            filter := filter }
        shape := .outerJoined (.column ⟨.int64, ScalarType.int64.columnType, query, e.testName⟩)
          (e.shape query) } := by
  have htest : (e.query table query filter).query.columns.find? Projection.isTest = none := by
    refine find?_eq_none.2 fun c hc => ?_
    obtain ⟨d, -, rfl⟩ := mem_map.1 hc
    exact Bool.false_ne_true
  have hheaders : (e.query table query filter).query.headers = e.members := map_map
  rw [Projection.withTest, htest]
  dsimp only
  rw [hheaders]
  rfl

def Entity.testedShape (e : Entity) (query : Alias) : Tree :=
  .outerJoined (.column ⟨.int64, ScalarType.int64.columnType, query, e.testName⟩) (e.shape query)

open Navigation

theorem Navigation.resolve_shape (he : m.entity? e.name = some e) (name : String) :
    resolve m (e.shape own) name = match e.relationship? name with
      | some r => follow m (e.shape own) e.name r
      | none => access (e.shape own) name := by
  have hrelationship : m.relationship? e.name name = e.relationship? name := by
    rw [EntityMap.relationship?, he, Option.bind_some]
  rw [← hrelationship]
  rfl

theorem Lookup.Serves.resolve_run {l : Lookup} (h : l.Serves m e r) (he : m.entity? e.name = some e)
    (relationship : e.relationship? name = some r) (singleton : r.singleton = true) {lookups : List Alias}
    {source : Tree} {changed : Bool} (hnew : l.query ∉ lookups) :
    (resolve m (e.shape own) name).run.run ⟨l.table, lookups, some source :: outer, changed⟩ =
      (.ok (l.target.testedShape l.query),
        ⟨l.table + 2, lookups ++ [l.query], some (.join (l.joinTo own false source) none) :: outer, true⟩) := by
  have htest := l.target.withTest_query l.table l.query (allOf (l.conditions own (·.ref l.table)))
  rw [resolve_shape he, relationship]
  refine (follow_run h.related_gives singleton rfl ?_).trans ?_
  · rw [htest]
    exact hnew
  · rw [joinTo, if_neg Bool.false_ne_true, rows, htest]
    rfl

theorem Access.Binds.visit {a : Access} {d : ColumnRef} {o : Option Lookup} (h : a.Binds m e own d o)
    (he : m.entity? e.name = some e) {source : Tree} {lookups : List Alias} {changed : Bool}
    (hnext : ∀ l ∈ o, l.table = next) (hnew : ∀ l ∈ o, l.query ∉ lookups) :
    ((a.tree (e.shape own)).visit (visitor m)).run.run ⟨next, lookups, some source :: outer, changed⟩ =
      (.ok (.column d),
        { next := next + 2 * o.toList.length
          lookups := lookups ++ o.toList.map Lookup.query
          sources := some (Lookup.chain own false source o.toList) :: outer
          changed := true }) := by
  have hroot : ((e.shape own).visit (visitor m)).run.run ⟨next, lookups, some source :: outer, false⟩ =
      (.ok (e.shape own), ⟨next, lookups, some source :: outer, false⟩) := by
    rw [Entity.visit_shape]
    rfl
  cases h with
  | @own name c column apart =>
    have hresolve : (resolve m (e.shape own) name).run.run ⟨next, lookups, some source :: outer, false⟩ =
        (.ok (.column (c.memberRef own)), ⟨next, lookups, some source :: outer, true⟩) := by
      rw [resolve_shape he, apart]
      exact access_run (by rw [Entity.member?_shape, column]; rfl) rfl
    rw [tree, visit_member_run _ hroot hresolve]
    simp [Lookup.chain]
  | @through name member r l c relationship singleton serves column =>
    obtain rfl := hnext l rfl
    have hfield : (l.target.testedShape l.query).member? member = some (.column (c.memberRef l.query)) := by
      rw [Entity.testedShape, Tree.member?, Entity.member?_shape, column]
      rfl
    have hinner := visit_member_run ⟨l.table, lookups, some source :: outer, false⟩ hroot
      (serves.resolve_run he relationship singleton (hnew l rfl))
    have hresolve : resolve m (l.target.testedShape l.query) member =
      access (l.target.testedShape l.query) member := rfl
    rw [tree, visit_member_run ⟨l.table, lookups, some source :: outer, changed⟩ hinner
      (hresolve ▸ access_run hfield rfl)]
    simp [Lookup.chain]

/-- Lookups take their aliases from the supply, one after the other. -/
def Lookup.NumberedFrom : Alias → List Lookup → Prop
  | _, [] => True
  | next, l :: ls => l.table = next ∧ l.query = next + 1 ∧ NumberedFrom (next + 2) ls

def boundColumns (columns : List (Column Access)) (bound : List (ColumnRef × Option Lookup)) :
    List (Column Tree) :=
  (columns.zip bound).map fun p => ⟨p.1.name, .column p.2.1, p.1.type⟩

theorem value_of_mem_boundColumns {columns : List (Column Access)} {bound : List (ColumnRef × Option Lookup)}
    {d : Column Tree} (hd : d ∈ boundColumns columns bound) : ∃ p ∈ bound, d.value = .column p.1 := by
  obtain ⟨p, hp, rfl⟩ := mem_map.1 hd
  exact ⟨p.2, (of_mem_zip hp).2, rfl⟩

theorem visitColumns_run {columns : List (Column Access)} {bound : List (ColumnRef × Option Lookup)}
    (h : Forall₂ (fun c p => c.value.Binds m e own p.1 p.2) columns bound)
    (he : m.entity? e.name = some e) (source : Tree) (outer : List (Option Tree)) (lookups : List Alias)
    (changed : Bool) (numbered : Lookup.NumberedFrom next (bound.filterMap Prod.snd))
    (hbelow : ∀ a ∈ lookups, a < next) :
    ∃ changed', (visitColumns (visitor m) (columns.map fun c =>
      ⟨c.name, c.value.tree (e.shape own), c.type⟩)).run.run ⟨next, lookups, some source :: outer, changed⟩ =
      (.ok (boundColumns columns bound),
        { next := next + 2 * (bound.filterMap Prod.snd).length
          lookups := lookups ++ (bound.filterMap Prod.snd).map Lookup.query
          sources := some (Lookup.chain own false source (bound.filterMap Prod.snd)) :: outer
          changed := changed' }) := by
  induction h generalizing source next lookups changed with
  | nil => exact ⟨changed, by simp [visitColumns, Lookup.chain, boundColumns]; rfl⟩
  | @cons c p columns bound hc _ ih =>
    obtain ⟨d, o⟩ := p
    have hls : ((d, o) :: bound).filterMap Prod.snd = o.toList ++ bound.filterMap Prod.snd := by
      cases o <;> rfl
    obtain ⟨htable, hquery, hnumbered⟩ : (∀ l ∈ o, l.table = next) ∧ (∀ l ∈ o, l.query = next + 1) ∧
        Lookup.NumberedFrom (next + 2 * o.toList.length) (bound.filterMap Prod.snd) := by
      cases o with
      | none => exact ⟨by simp, by simp, numbered⟩
      | some l =>
        obtain ⟨htable, hquery, hrest⟩ := numbered
        exact ⟨by rintro _ ⟨⟩; exact htable, by rintro _ ⟨⟩; exact hquery, hrest⟩
    have hnew : ∀ l ∈ o, l.query ∉ lookups := fun l hl hmem => by
      have hlt := hbelow _ hmem
      rw [hquery l hl] at hlt
      exact absurd hlt (Nat.not_lt.2 (Nat.le_succ next))
    have hbelow' : ∀ a ∈ lookups ++ o.toList.map Lookup.query, a < next + 2 * o.toList.length := by
      intro a ha
      rcases mem_append.1 ha with ha | ha
      · exact Nat.lt_add_right _ (hbelow a ha)
      · obtain ⟨l, hl, rfl⟩ := mem_map.1 ha
        rw [hquery l (Option.mem_toList.1 hl)]
        have hlength := length_pos_of_mem hl
        exact Nat.add_lt_add_left (by omega) next
    obtain ⟨changed', hrest⟩ := ih (Lookup.chain own false source o.toList) _ true hnumbered hbelow'
    refine ⟨changed', ?_⟩
    rw [map_cons, visitColumns, run_bind (hc.visit he htable hnew), run_bind hrest, hls]
    simp only [Lookup.chain, foldl_append, map_append, append_assoc, length_append,
      Nat.mul_add, Nat.add_assoc]
    rfl

def Entity.source (e : Entity) (table query : Alias) : Tree :=
  .select (e.query table query none).query none

theorem Entity.mem_children_source {query : Alias} {t : Tree} (ht : t ∈ (e.source table query).children) :
    (∃ name, t = .table table name) ∨ ∃ c, t = .column c ∧ c.label = table := by
  rcases mem_cons.1 ht with rfl | ht
  · exact .inl ⟨_, rfl⟩
  · obtain ⟨d, hd, rfl⟩ := mem_map.1 ht
    obtain ⟨c, -, rfl⟩ := mem_map.1 hd
    exact .inr ⟨_, rfl, rfl⟩

theorem Entity.definite_source (e : Entity) (table query : Alias) : (e.source table query).Definite := by
  refine Tree.every_iff.2 ⟨nofun, fun t ht => ?_⟩
  rcases mem_children_source ht with ⟨name, rfl⟩ | ⟨c, rfl, -⟩ <;>
    exact Tree.every_iff.2 ⟨nofun, nofun⟩

theorem Entity.visit_source (m : EntityMap) (e : Entity) (table query : Alias) :
    (e.source table query).visit (visitor m) = pure (e.source table query) := by
  have hrenewed : (e.query table query none).query.mapClauses Tree.renewed =
      (e.query table query none).query := by
    have hrenewed := (e.definite_source table query).renewed_eq_self
    rw [source, Tree.renewed_select] at hrenewed
    exact (Tree.select.inj hrenewed).1
  have hcolumn : ∀ a ∈ (e.query table query none).query.others, ∀ nav,
      course.gives (a.visit (visitor m)) nav a.renewed nav := by
    intro a ha nav
    have ha : a ∈ (e.source table query).children := .tail _ ha
    rcases mem_children_source ha with ⟨name, rfl⟩ | ⟨c, rfl, -⟩ <;> rfl
  funext nav
  have hselect : course.gives ((e.query table query none).query.visit (visitor m)) nav _ _ :=
    Select.visit_rebuilt (fun _ ha => Option.some.inj ha ▸ rfl) (afterSource_run _) fun a ha => hcolumn a ha _
  rw [hrenewed] at hselect
  rw [source, Tree.visit, around_select]
  exact (run_bind (run_bind hselect _) _).trans rfl

def Entity.accesses (e : Entity) (table query label : Alias) (columns : List (Column Access)) : Tree :=
  .select
    { label := label
      columns := columns.map fun c => ⟨c.name, c.value.tree (e.shape query), c.type⟩
      source := some (e.source table query) }
    none

def Entity.lookups (e : Entity) (table query label : Alias) (lowered : Bool) (columns : List (Column Access))
    (bound : List (ColumnRef × Option Lookup)) : Select Tree where
  label := label
  columns := boundColumns columns bound
  source := some (Lookup.chain query lowered (e.source table query) (bound.filterMap Prod.snd))

/-- Binding turns the accesses of a query into its lookups. -/
theorem Entity.bindMembers_accesses (table label : Alias) {columns : List (Column Access)}
    {bound : List (ColumnRef × Option Lookup)}
    (h : Forall₂ (fun c p => c.value.Binds m e own p.1 p.2) columns bound)
    (he : m.entity? e.name = some e) (numbered : Lookup.NumberedFrom next (bound.filterMap Prod.snd)) :
    ((e.accesses table own label columns).bindMembers m).Gives next
      (.select (e.lookups table own label false columns bound) none,
        (bound.filterMap Prod.snd).map Lookup.query)
      (next + 2 * (bound.filterMap Prod.snd).length) := by
  obtain ⟨changed, hcolumns⟩ := visitColumns_run h he (e.source table own) [] [] false numbered nofun
  refine Tree.bindMembers_gives.2 ⟨⟨_, (bound.filterMap Prod.snd).map Lookup.query, [], changed⟩, ?_, rfl, rfl⟩
  show ((e.accesses table own label columns).visit (visitor m)).run.run _ = _
  rw [accesses, Tree.visit]
  simp only [Select.visit, visitOption, visitKeys, visitList, e.visit_source m, pure_bind, bind_assoc]
  rw [around_select, bind_assoc, run_bind (afterSource_run _), bind_assoc, run_bind hcolumns]
  rfl

end Binding

/-! ## Accesses that lead to a column -/

/-- The members of an entity have different names, and each relationship leads to a known entity by mapped
members of both entities. -/
structure Entity.WellMapped (m : EntityMap) (e : Entity) : Prop where
  distinct : (e.members ++ e.relationships.map Relationship.member).Nodup
  related : ∀ r ∈ e.relationships, ∃ target ∈ m.entity? r.target,
    ∀ k ∈ r.keys, (e.column? k.1).isSome ∧ (target.column? k.2).isSome

/-- An access names a column of an entity, or of the entity that a singleton relationship leads to. -/
def Access.Leads (m : EntityMap) (e : Entity) : Access → Prop
  | .own member => (e.column? member).isSome
  | .through relationship member => ∃ r ∈ e.relationship? relationship, r.singleton = true ∧
      ∃ target ∈ m.entity? r.target, (target.column? member).isSome

instance (m : EntityMap) (e : Entity) (a : Access) : Decidable (a.Leads m e) :=
  match a with
  | .own _ => inferInstanceAs (Decidable (_ = true))
  | .through _ _ => inferInstanceAs (Decidable (∃ r ∈ _, _ ∧ ∃ target ∈ _, _))

section Leads

variable {m : EntityMap} {e : Entity}

theorem Entity.WellMapped.relationship?_eq_none (h : e.WellMapped m) {c : MappedColumn} (hc : c ∈ e.columns) :
    e.relationship? c.member = none := by
  refine find?_eq_none.2 fun r hr heq => ?_
  exact (nodup_append.1 h.distinct).2.2 c.member (mem_map_of_mem hc) r.member
    (mem_map_of_mem hr) (beq_iff_eq.1 heq).symm

theorem exists_keyColumns {keys : List (String × String)}
    (h : ∀ k ∈ keys, (e.column? k.1).isSome ∧ (target.column? k.2).isSome) :
    ∃ columns, Forall₂ (fun k (c : MappedColumn × MappedColumn) =>
      e.column? k.1 = some c.1 ∧ target.column? k.2 = some c.2) keys columns := by
  induction keys with
  | nil => exact ⟨[], .nil⟩
  | cons k keys ih =>
    rw [forall_mem_cons] at h
    obtain ⟨columns, hcolumns⟩ := ih h.2
    obtain ⟨c, hc⟩ := Option.isSome_iff_exists.1 h.1.1
    obtain ⟨d, hd⟩ := Option.isSome_iff_exists.1 h.1.2
    exact ⟨(c, d) :: columns, .cons ⟨hc, hd⟩ hcolumns⟩

theorem Access.Leads.exists_binds {a : Access} (h : a.Leads m e) (mapped : e.WellMapped m)
    (own next : Alias) :
    ∃ d o, a.Binds m e own d o ∧ ∀ l ∈ o, l.table = next ∧ l.query = next + 1 := by
  cases a with
  | own member =>
    obtain ⟨c, hc⟩ := Option.isSome_iff_exists.1 h
    have hmember : c.member = member := by simpa using find?_some hc
    have hapart := mapped.relationship?_eq_none (mem_of_find?_eq_some hc)
    exact ⟨_, none, .own hc (hmember ▸ hapart), nofun⟩
  | through relationship member =>
    obtain ⟨r, hr, singleton, target, htarget, hmember⟩ := h
    obtain ⟨target', htarget', hkeys⟩ := mapped.related r (mem_of_find?_eq_some hr)
    obtain rfl : target = target' := Option.mem_unique htarget htarget'
    obtain ⟨keys, hkeys⟩ := exists_keyColumns hkeys
    obtain ⟨c, hc⟩ := Option.isSome_iff_exists.1 hmember
    let l : Lookup := ⟨target, keys, next, next + 1⟩
    refine ⟨c.memberRef l.query, some l, .through hr singleton ⟨htarget, hkeys, rfl⟩ hc, ?_⟩
    rintro _ ⟨rfl⟩
    exact ⟨rfl, rfl⟩

/-- Accesses that lead to members can be bound. -/
theorem exists_bound {columns : List (Column Access)} (h : ∀ c ∈ columns, c.value.Leads m e)
    (mapped : e.WellMapped m) (own next : Alias) :
    ∃ bound, Forall₂ (fun c p => c.value.Binds m e own p.1 p.2) columns bound ∧
      Lookup.NumberedFrom next (bound.filterMap Prod.snd) := by
  induction columns generalizing next with
  | nil => exact ⟨[], .nil, trivial⟩
  | cons c columns ih =>
    rw [forall_mem_cons] at h
    obtain ⟨d, o, hbinds, ho⟩ := h.1.exists_binds mapped own next
    cases o with
    | none =>
      obtain ⟨bound, hbound, hnumbered⟩ := ih h.2 next
      exact ⟨(d, none) :: bound, .cons hbinds hbound, hnumbered⟩
    | some l =>
      obtain ⟨bound, hbound, hnumbered⟩ := ih h.2 (next + 2)
      exact ⟨(d, some l) :: bound, .cons hbinds hbound, (ho l rfl).1, (ho l rfl).2, hnumbered⟩

end Leads

end HiveQuery
