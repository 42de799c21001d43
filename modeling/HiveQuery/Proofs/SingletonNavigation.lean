import HiveQuery.Proofs.LookedUpRows

/-!
# Navigation along singleton relationships

A query may name columns of other entities by way of relationships that lead to at most one row. What such an access
reads is said here by the entities and the stored tables alone, without the compiler.
-/

namespace HiveQuery

variable {name : String}
open List Lowering

variable {env : Environment}

/-! ## Values of accesses -/

namespace Relationship

def pairs (r : Relationship) (e target : Entity) (own related : Table) (row other : List Value) : Bool :=
  r.keys.all fun k =>
    match e.value? own row k.1, target.value? related other k.2 with
    | some x, some y => x.equals y
    | _, _ => false

/-- The keys of two rows can be compared, and no row of the entity matches two rows of the target. -/
structure Determines (env : Environment) (e target : Entity) (r : Relationship) : Prop where
  comparable : ∀ row ∈ (env.stored e).rows, ∀ other ∈ (env.stored target).rows, ∀ k ∈ r.keys,
    ∀ x ∈ e.value? (env.stored e) row k.1, ∀ y ∈ target.value? (env.stored target) other k.2, x.Comparable y
  unique : ∀ row ∈ (env.stored e).rows,
    ((env.stored target).rows.filter (r.pairs e target (env.stored e) (env.stored target) row)).length ≤ 1

end Relationship

structure Environment.Holds (env : Environment) (e : Entity) : Prop where
  stored : (env.dataset.lookup e.table).isSome
  holds : (env.stored e).Holds e

def Access.value? (env : Environment) (m : EntityMap) (e : Entity) (row : List Value) : Access → Option Value
  | .own member => e.value? (env.stored e) row member
  | .through relationship member =>
    (e.relationship? relationship).bind fun r => (m.entity? r.target).bind fun target =>
      let related := env.stored target
      match related.rows.find? (r.pairs e target (env.stored e) related row) with
      | some other => target.value? related other member
      | none => some .null

def Access.Determined (env : Environment) (m : EntityMap) (e : Entity) : Access → Prop
  | .own _ => True
  | .through relationship _ => ∀ r ∈ e.relationship? relationship, ∀ target ∈ m.entity? r.target,
      env.Holds target ∧ r.Determines env e target

section Values

variable {m : EntityMap} {e : Entity} {r : Relationship} {l : Lookup} {row other : List Value}

theorem Environment.Holds.lookup_eq (h : env.Holds e) : env.dataset.lookup e.table = some (env.stored e) := by
  obtain ⟨t, ht⟩ := Option.isSome_iff_exists.1 h.stored
  rw [Environment.stored, ht, Option.getD_some]

theorem Environment.Holds.value?_eq (h : env.Holds e) (hrow : row ∈ (env.stored e).rows) {c : MappedColumn}
    (hc : e.column? name = some c) :
    e.value? (env.stored e) row name = some ((env.stored e).value row c.column) := by
  rw [Entity.value?, hc, Option.bind_some, h.holds.value?_eq hrow (mem_of_find?_eq_some hc)]

section

variable (h : l.Serves m e r) (hown : env.Holds e) (hrelated : env.Holds l.target)
include h hown hrelated

theorem Lookup.Serves.pairs_eq
    (hrow : row ∈ (env.stored e).rows) (hother : other ∈ (env.stored l.target).rows) :
    r.pairs e l.target (env.stored e) (env.stored l.target) row other =
      l.pairs (env.stored e) (env.stored l.target) row other := by
  have hkeys := map_eq_of_forall₂ h.keys
    (f := fun k => match e.value? (env.stored e) row k.1, l.target.value? (env.stored l.target) other k.2 with
      | some x, some y => x.equals y
      | _, _ => false)
    (g := fun c : MappedColumn × MappedColumn => Value.equals ((env.stored e).value row c.1.column)
      ((env.stored l.target).value other c.2.column)) fun k c hk => by
    rw [hown.value?_eq hrow hk.1, hrelated.value?_eq hother hk.2]
  have hall := congrArg (all · id) hkeys
  rwa [all_map, all_map, eq_comm] at hall

theorem Lookup.Serves.comparable
    (comparable : ∀ row ∈ (env.stored e).rows, ∀ other ∈ (env.stored l.target).rows, ∀ k ∈ r.keys,
      ∀ x ∈ e.value? (env.stored e) row k.1, ∀ y ∈ l.target.value? (env.stored l.target) other k.2,
        x.Comparable y) : l.Comparable (env.stored e) (env.stored l.target) := by
  intro row hrow other hother c hc
  obtain ⟨k, hk, hk1, hk2⟩ := forall₂_mem_right h.keys hc
  exact comparable row hrow other hother k hk _ (hown.value?_eq hrow hk1) _ (hrelated.value?_eq hother hk2)

theorem Lookup.Serves.determined
    (members : l.target.members.Nodup) (determines : r.Determines env e l.target) :
    l.Determined env e (env.stored e) (env.stored l.target) where
  keys := h.key_mem
  members := members
  stored := hrelated.lookup_eq
  holds := hrelated.holds
  comparable := h.comparable hown hrelated determines.comparable
  unique := by
    intro row hrow
    rw [filter_congr fun other hother => (h.pairs_eq hown hrelated hrow hother).symm]
    exact determines.unique row hrow

end

theorem Access.Binds.lookup? {a : Access} {d : ColumnRef} {o : Option Lookup} {query : Alias}
    {ls : List Lookup} (h : a.Binds m e query d o) (ho : ∀ l ∈ o, l ∈ ls ∧ env.Holds l.target)
    (determined : Lookup.AllDetermined env e (env.stored e) query ls) (hown : env.Holds e)
    (hrow : row ∈ (env.stored e).rows) :
    ∃ v, a.value? env m e row = some v ∧
      Frames.lookup? [e.joinedRow env query (env.stored e) ls row] d = some v := by
  cases h with
  | @own name c column apart =>
    obtain rfl : c.member = name := by simpa using find?_some column
    exact ⟨_, hown.value?_eq hrow column, Entity.lookup?_ownRow _ [] rfl column⟩
  | @through name member r l c relationship singleton serves column =>
    obtain ⟨hl, hrelated⟩ := ho l rfl
    obtain rfl : c.member = member := by simpa using find?_some column
    have hpairs : (env.stored l.target).rows.find?
        (r.pairs e l.target (env.stored e) (env.stored l.target) row) =
          (env.stored l.target).rows.find? (l.pairs (env.stored e) (env.stored l.target) row) := by
      rw [← head?_filter, ← head?_filter]
      rw [filter_congr fun other hother => serves.pairs_eq hown hrelated hrow hother]
    rw [determined.lookup?_result hl rfl, value?, relationship, Option.bind_some, serves.target,
      Option.bind_some]
    dsimp only
    rw [hpairs, Lookup.result]
    -- No row matches, or the first one that does.
    cases hfound : (env.stored l.target).rows.find? (l.pairs (env.stored e) (env.stored l.target) row) with
    | none =>
      refine ⟨.null, rfl, ?_⟩
      rw [lookup?_cons_of_mem mem_cons_self]
      exact rowLookup?_nullRow mem_cons_self
    | some other =>
      exact ⟨_, hrelated.value?_eq (mem_of_find?_eq_some hfound) column, Lookup.lookup?_found [] rfl column⟩

theorem Access.Determined.lookup? {a : Access} {d : ColumnRef} {o : Option Lookup} {query : Alias}
    (h : a.Determined env m e) (binds : a.Binds m e query d o) :
    ∀ l ∈ o, ∃ r, l.Serves m e r ∧ env.Holds l.target ∧ r.Determines env e l.target := by
  cases binds with
  | own => exact nofun
  | @through _ _ r l _ relationship _ serves =>
    rintro _ ⟨rfl⟩
    exact ⟨r, serves, h r relationship l.target serves.target⟩

variable {table query label : Alias} {lowered : Bool} {columns : List (Column Access)}
  {bound : List (ColumnRef × Option Lookup)}

theorem forall₂_boundColumns (h : Forall₂ (fun c p => c.value.Binds m e query p.1 p.2) columns bound) :
    Forall₂ (fun c (d : Column Tree) => d.name = c.name ∧
      ∃ p ∈ bound, c.value.Binds m e query p.1 p.2 ∧ d.value = .column p.1)
      columns (boundColumns columns bound) := by
  induction h with
  | nil => exact .nil
  | cons hbinds _ ih =>
    refine .cons ⟨rfl, _, mem_cons_self, hbinds, rfl⟩ (ih.imp fun c d hd => ⟨hd.1, ?_⟩)
    obtain ⟨p, hp, hbound⟩ := hd.2
    exact ⟨p, .tail _ hp, hbound⟩

theorem Entity.isPlain_lookups (e : Entity) (table query label : Alias) (lowered : Bool)
    (columns : List (Column Access)) (bound : List (ColumnRef × Option Lookup)) :
    (e.lookups table query label lowered columns bound).isPlain = true := by
  have haggregates : ∀ d ∈ boundColumns columns bound, d.value.hasAggregate = false := fun d hd => by
    obtain ⟨p, -, hp⟩ := value_of_mem_boundColumns hd
    rw [hp, hasAggregate_column]
  simpa [Select.isPlain, Select.hasAggregates, lookups] using haggregates

section

variable (h : Forall₂ (fun c p => c.value.Binds m e query p.1 p.2) columns bound) (hown : env.Holds e)
  (hrelated : ∀ l ∈ bound.filterMap Prod.snd, env.Holds l.target)
  (determined : Lookup.AllDetermined env e (env.stored e) query (bound.filterMap Prod.snd))
include h hown hrelated determined

theorem Entity.scalar_lookups
    (hrow : row ∈ (env.stored e).rows) :
    Forall₂ (fun c (d : Column Tree) => ∃ v, c.value.value? env m e row = some v ∧ d.value.scalar env
      [e.joinedRow env query (env.stored e) (bound.filterMap Prod.snd) row] none = .ok v)
      columns (boundColumns columns bound) := by
  refine (forall₂_boundColumns h).imp fun c d hd => ?_
  obtain ⟨-, p, hp, hbinds, hvalue⟩ := hd
  have hmem : ∀ l ∈ p.2, l ∈ bound.filterMap Prod.snd := fun l hl => mem_filterMap.2 ⟨p, hp, hl⟩
  obtain ⟨v, hv, hlookup⟩ :=
    hbinds.lookup? (fun l hl => ⟨hmem l hl, hrelated l (hmem l hl)⟩) determined hown hrow
  exact ⟨v, hv, hvalue ▸ scalar_column hlookup none⟩

theorem Entity.run_lookups :
    ∃ rows, (e.lookups table query label lowered columns bound).run env [] =
        .ok ⟨columns.map Column.name, rows⟩ ∧
      Forall₂ (fun row values =>
        Forall₂ (fun c v => c.value.value? env m e row = some v) columns values)
        (env.stored e).rows rows := by
  have hvalues := fun row (hrow : row ∈ (env.stored e).rows) =>
    scalar_lookups h hown hrelated determined hrow
  have hheaders : (e.lookups table query label lowered columns bound).headers = columns.map Column.name :=
    map_eq_of_forall₂ (forall₂_boundColumns h) fun _ _ hd => hd.1
  have hnumbers : ∀ d ∈ boundColumns columns bound, d.value.isRowNumber = false := fun d hd => by
    obtain ⟨p, -, hp⟩ := value_of_mem_boundColumns hd
    rw [hp]
    rfl
  have hcomputed : ∀ row ∈ (env.stored e).rows, Forall₂ (fun (d : Column Tree) v => d.value.scalar env
      [e.joinedRow env query (env.stored e) (bound.filterMap Prod.snd) row] none = .ok v)
      (boundColumns columns bound) (columns.map fun c => (c.value.value? env m e row).getD .null) := by
    intro row hrow
    refine forall₂_map_right_iff.2 ((hvalues row hrow).flip.imp fun d c hd => ?_)
    obtain ⟨v, hv, hscalar⟩ := hd
    rw [hv, Option.getD_some, hscalar]
  have hplain := e.isPlain_lookups table query label lowered columns bound
  have hrun := Select.run_of_plain hplain rfl rfl hnumbers determined.rows_chain hown.holds.count
    (fun _ _ => rfl) hcomputed
  rw [filter_true, hheaders] at hrun
  refine ⟨_, hrun, forall₂_map_right_iff.2 (forall₂_same.2 fun row hrow => ?_)⟩
  refine forall₂_map_right_iff.2 (forall₂_same.2 fun c hc => ?_)
  obtain ⟨_, _, v, hv, _⟩ := forall₂_mem_left (hvalues row hrow) hc
  rw [hv, Option.getD_some]

end

theorem Entity.lookupsMatchOnce_lookups
    (determined : Lookup.AllDetermined env e (env.stored e) query (bound.filterMap Prod.snd))
    (lookups : List Alias) :
    (Tree.select (e.lookups table query label lowered columns bound) none).LookupsMatchOnce env lookups := by
  rintro _ ⟨rfl⟩
  rw [Select.computedJoins_of_others]
  · exact determined.unique_chain lookups
  · intro t ht frames group
    obtain ⟨c, hc, rfl⟩ := mem_map.1 ht
    obtain ⟨p, -, hp⟩ := value_of_mem_boundColumns hc
    rw [hp]
    rfl

theorem Lookup.NumberedFrom.queries {ls : List Lookup} {next : Alias} (h : Lookup.NumberedFrom next ls)
    (below : query < next) : (query :: ls.map Lookup.query).Nodup := by
  have hsublist : (ls.map Lookup.query).Sublist (ls.flatMap Lookup.aliases) := by
    clear h
    induction ls with
    | nil => exact List.Sublist.refl _
    | cons l ls ih => exact (ih.cons l.table).cons_cons l.query
  refine nodup_cons.2 ⟨fun hmem => ?_, h.nodup.sublist hsublist⟩
  exact Nat.not_lt.2 (h.le_aliases query (hsublist.subset hmem)) below

theorem EntityMap.mem_of_entity? (h : m.entity? name = some e) : e ∈ m :=
  mem_reverse.1 (mem_of_find?_eq_some h)

theorem EntityMap.tableQuery_gives {first after : Alias} {p : Projection} (he : m.entity? name = some e)
    (h : (m.tableQuery name).Gives first p after) :
    p = e.query first (first + 1) none ∧ after = first + 1 + 1 := by
  obtain ⟨e', _, hknown, hrest⟩ := gives_bind.1 h
  obtain ⟨hfound, rfl⟩ := gives_except.1 hknown
  obtain ⟨table, _, htable, hrest⟩ := gives_bind.1 hrest
  obtain ⟨rfl, rfl⟩ := gives_fresh.1 htable
  obtain ⟨query, _, hquery, hrest⟩ := gives_bind.1 hrest
  obtain ⟨rfl, rfl⟩ := gives_fresh.1 hquery
  rw [known, he] at hfound
  obtain rfl := Except.ok.inj hfound
  exact gives_pure.1 hrest

theorem Access.allDetermined {next : Alias}
    (h : Forall₂ (fun c p => c.value.Binds m e query p.1 p.2) columns bound)
    (mapped : ∀ e ∈ m, e.WellMapped m) (he : e ∈ m)
    (numbered : Lookup.NumberedFrom next (bound.filterMap Prod.snd)) (below : query < next)
    (hown : env.Holds e) (determined : ∀ c ∈ columns, c.value.Determined env m e) :
    Lookup.AllDetermined env e (env.stored e) query (bound.filterMap Prod.snd) ∧
      ∀ l ∈ bound.filterMap Prod.snd, env.Holds l.target := by
  have hserves : ∀ l ∈ bound.filterMap Prod.snd,
      ∃ r, l.Serves m e r ∧ env.Holds l.target ∧ r.Determines env e l.target := fun l hl => by
    obtain ⟨p, hp, hl⟩ := mem_filterMap.1 hl
    obtain ⟨c, hc, hbinds⟩ := forall₂_mem_right h hp
    exact (determined c hc).lookup? hbinds l hl
  have hmembers : ∀ e ∈ m, e.members.Nodup := fun e he => (mapped e he).distinct.of_append_left
  refine ⟨⟨hmembers e he, hown.lookup_eq, hown.holds, fun l hl => ?_, fun l hl heq => ?_,
    numbered.queries below⟩, fun l hl => ?_⟩
  · obtain ⟨r, serves, hrelated, determines⟩ := hserves l hl
    exact serves.determined hown hrelated (hmembers _ (EntityMap.mem_of_entity? serves.target)) determines
  · have hle := numbered.le_aliases l.table (mem_flatMap.2 ⟨l, hl, by simp [Lookup.aliases]⟩)
    exact Nat.not_lt.2 hle (heq ▸ below)
  · obtain ⟨r, -, hrelated, -⟩ := hserves l hl
    exact hrelated

end Values

/-- A query for members of an entity and of the entities that singleton relationships lead to is compiled, and
it gives one row for each row of the entity, with the values of the rows that its keys match. -/
theorem compile_lookups_run {m : EntityMap} (mapped : ∀ e ∈ m, e.WellMapped m) {name : String} {e : Entity}
    (he : m.entity? name = some e) {columns : List (Column Access)} (leads : ∀ c ∈ columns, c.value.Leads m e)
    {first after label next : Alias} {p : Projection} (hp : (m.tableQuery name).Gives first p after)
    (hlabel : label < first ∨ after ≤ label) (hafter : after ≤ next) (hnext : label < next)
    (dialect : Dialect) (c : Config) :
    let t : Tree := .select
      { label := label
        columns := columns.map fun c => ⟨c.name, c.value.tree p.shape, c.type⟩
        source := some (.select p.query none) }
      none
    ∃ q next', (compile dialect m c t).run.run next = (.ok q, next') ∧
      ∀ env : Environment, env.Holds e → (∀ c ∈ columns, c.value.Determined env m e) →
        ∃ rows, q.tree.run env = .ok ⟨columns.map Column.name, rows⟩ ∧
          List.Forall₂ (fun row values =>
            List.Forall₂ (fun c v => c.value.value? env m e row = some v) columns values)
            (env.stored e).rows rows := by
  obtain ⟨rfl, rfl⟩ := EntityMap.tableQuery_gives he hp
  obtain rfl : e.name = _ := beq_iff_eq.1 (find?_some (p := fun e : Entity => e.name == _) he)
  have hmem := EntityMap.mem_of_entity? he
  obtain ⟨bound, hbound, numbered⟩ := exists_bound leads (mapped e hmem) (first + 1) next
  have hquery : first + 1 < next := hafter
  have hbelow : ∀ a ∈ [label, first + 1, first], a < next := by
    simpa using ⟨hnext, hquery, (Nat.lt_succ_self first).trans hquery⟩
  have hdistinct : [label, first + 1, first].Nodup := by
    have hne : label ≠ first + 1 ∧ label ≠ first := by
      rcases hlabel with h | h
      · exact ⟨(h.trans (Nat.lt_succ_self first)).ne, h.ne⟩
      · exact ⟨(Nat.lt_of_succ_le h).ne', ((Nat.lt_succ_self first).trans (Nat.lt_of_succ_le h)).ne'⟩
    simp [hne]
  obtain ⟨q, next', hcompile, hrun⟩ := Entity.compile_accesses hbound he numbered hdistinct hbelow
  refine ⟨q, next', hcompile, fun env hown determined => ?_⟩
  obtain ⟨hall, hrelated⟩ := Access.allDetermined hbound mapped hmem numbered hquery hown determined
  obtain ⟨rows, hrows, hvalues⟩ := Entity.run_lookups hbound hown hrelated hall
  exact ⟨rows, hrun env _ (Entity.lookupsMatchOnce_lookups hall _) hrows, hvalues⟩

def bookedCustomer : Entity where
  name := "Customer"
  table := "customers"
  columns := [⟨"home", "address_id", .int64⟩]
  relationships := [⟨"address", "Address", [("home", "id")], true⟩]

def homeColumns : List (Column Access) :=
  [⟨"home", .own "home", ScalarType.int64.columnType⟩,
   ⟨"city", .through "address" "city", ScalarType.string.columnType⟩,
   ⟨"address", .through "address" "id", ScalarType.int64.columnType⟩]

/-- The home of the second customer is not known, and that of the third one is not in the book. -/
def sampleBook : Environment where
  dataset :=
    [("customers", ⟨["address_id"], [[.int 200], [.null], [.int 999], [.int 100]]⟩),
      ("addresses", ⟨["id", "city"], [[.int 100, .string "Paris"], [.int 200, .string "Oslo"]]⟩)]
  arguments := []

theorem addressBook_wellMapped : ∀ e ∈ addressBook, e.WellMapped addressBook := by
  intro e he
  rcases mem_pair.1 he with rfl | rfl
  · exact ⟨by decide, by decide⟩
  · exact ⟨by decide, by decide⟩

theorem sampleBook_holds : ∀ e ∈ addressBook, sampleBook.Holds e := by
  intro e he
  rcases mem_pair.1 he with rfl | rfl <;> exact ⟨by decide, by decide, by decide⟩

theorem homeColumns_determined :
    ∀ c ∈ homeColumns, c.value.Determined sampleBook addressBook bookedCustomer := by
  have haddress : ∀ r ∈ bookedCustomer.relationship? "address", ∀ target ∈ addressBook.entity? r.target,
      sampleBook.Holds target ∧ r.Determines sampleBook bookedCustomer target := by
    rintro _ ⟨rfl⟩ target htarget
    refine ⟨sampleBook_holds target (EntityMap.mem_of_entity? htarget), ?_⟩
    obtain ⟨rfl⟩ := htarget
    exact ⟨by decide, by decide⟩
  simp only [homeColumns, forall_mem_cons]
  exact ⟨trivial, haddress, haddress, nofun⟩

theorem compile_lookups_run_homeColumns :
    ∃ q next', (compile .hive addressBook {} (bookedCustomer.accesses 0 1 2 homeColumns)).run.run 3 =
        (.ok q, next') ∧
      q.tree.run sampleBook = .ok ⟨["home", "city", "address"],
        [[.int 200, .string "Oslo", .int 200], [.null, .null, .null], [.int 999, .null, .null],
          [.int 100, .string "Paris", .int 100]]⟩ := by
  have he : addressBook.entity? "Customer" = some bookedCustomer := rfl
  have leads : ∀ c ∈ homeColumns, c.value.Leads addressBook bookedCustomer := by decide
  have hp : (addressBook.tableQuery "Customer").Gives 0 (bookedCustomer.query 0 1 none) 2 := rfl
  have hlabel : (2 : Alias) < 0 ∨ 2 ≤ 2 := by decide
  obtain ⟨q, next', hcompile, hrun⟩ := compile_lookups_run addressBook_wellMapped he leads hp hlabel
    (by decide) (Nat.lt_succ_self 2) .hive {}
  obtain ⟨rows, hrows, hvalues⟩ :=
    hrun sampleBook (sampleBook_holds bookedCustomer (EntityMap.mem_of_entity? he)) homeColumns_determined
  have hmapped : rows.map (·.map some) = (sampleBook.stored bookedCustomer).rows.map fun row =>
      homeColumns.map fun c => c.value.value? sampleBook addressBook bookedCustomer row :=
    map_eq_of_forall₂ hvalues fun _ _ h => map_eq_of_forall₂ h fun _ _ hv => hv.symm
  have hinjective : Function.Injective (map (map (some : Value → Option Value))) :=
    map_injective_iff.2 (map_injective_iff.2 (Option.some_injective _))
  obtain rfl : rows = [[.int 200, .string "Oslo", .int 200], [.null, .null, .null], [.int 999, .null, .null],
      [.int 100, .string "Paris", .int 100]] := hinjective (hmapped.trans rfl)
  exact ⟨q, next', hcompile, hrows⟩

end HiveQuery
