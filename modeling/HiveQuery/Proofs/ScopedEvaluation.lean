import HiveQuery.Proofs.Evaluations
import HiveQuery.Proofs.IsolatedTrees

/-!
# Columns of accepted queries are bound

Where a column of an accepted query is evaluated, some row around it has the alias of the column. A column without
a value is one that its source has no value for.
-/

namespace HiveQuery

variable {env : Environment}
open List HiveQuery.Tree Select

variable {rows : List Row} {group : Option (List Row)} {i : Option Identity} {row : Row}

/-! ## Bound aliases -/

def Frames.Binds (frames : Frames) (a : Alias) : Prop :=
  ∃ row ∈ frames, a ∈ row.map Binding.label

/-- What the innermost row that has an alias contributes for it. -/
def Frames.binding? (frames : Frames) (a : Alias) : Option Binding :=
  frames.findSome? fun row => row.find? fun b => b.label == a

namespace Frames

variable {frames : Frames} {row : Row} {a : Alias}

theorem binds_cons : Frames.Binds (row :: frames) a ↔ a ∈ row.map Binding.label ∨ frames.Binds a := by
  simp [Frames.Binds]

theorem Binds.cons (h : frames.Binds a) (row : Row) : Frames.Binds (row :: frames) a := binds_cons.2 (.inr h)

theorem lookup?_eq_bind (frames : Frames) (c : ColumnRef) :
    frames.lookup? c = (frames.binding? c.label).bind fun b => b.value? c.name := by
  induction frames with
  | nil => rfl
  | cons row frames ih =>
    rw [lookup?, binding?, findSome?_cons]
    cases row.find? fun b => b.label == c.label with
    | none => exact ih
    | some b => rfl

theorem Binds.exists_binding (h : frames.Binds a) : ∃ b, frames.binding? a = some b := by
  obtain ⟨row, hrow, ha⟩ := h
  obtain ⟨b, hb, rfl⟩ := mem_map.1 ha
  refine Option.isSome_iff_exists.1 (findSome?_isSome_iff.2 ⟨row, hrow, ?_⟩)
  exact find?_isSome.2 ⟨b, hb, by simp⟩

theorem mem_of_binding? {b : Binding} (h : frames.binding? a = some b) : ∃ row ∈ frames, b ∈ row := by
  obtain ⟨row, hrow, hb⟩ := exists_of_findSome?_eq_some h
  exact ⟨row, hrow, mem_of_find?_eq_some hb⟩

end Frames

/-! ## Stored and computed rows -/

/-- A source contributes nulls, a row of a stored table, or as many values as it has columns. -/
def Binding.Sourced (env : Environment) (b : Binding) : Prop :=
  ∀ values ∈ b.values, values.length = b.columns.length ∨
    ∃ name, ∃ table ∈ env.dataset.lookup name, b.columns = table.columns ∧ values ∈ table.rows

/-- A source has no value for a name: it has no such column, or it is a stored table with such a column and a
row that ends before it. -/
def Binding.Lacks (env : Environment) (b : Binding) (name : String) : Prop :=
  ∃ values ∈ b.values, name ∉ b.columns ∨
    ∃ stored, ∃ table ∈ env.dataset.lookup stored, b.columns = table.columns ∧ values ∈ table.rows ∧
      name ∈ table.columns ∧ values.length ≤ table.columns.idxOf name

theorem Binding.Sourced.lacks {b : Binding} {name : String} (h : b.Sourced env) (hname : b.value? name = none) :
    b.Lacks env name := by
  obtain ⟨label, columns, values⟩ := b
  cases values with
  | none => cases hname
  | some values =>
    refine ⟨values, rfl, ?_⟩
    by_cases hmem : name ∈ columns
    · have hlt : columns.idxOf name < columns.length := idxOf_lt_length_iff.2 hmem
      have hle : values.length ≤ columns.idxOf name := by
        have hfind : columns.findIdx? (· == name) = some (columns.idxOf name) :=
          findIdx?_eq_some_iff_findIdx_eq.2 ⟨hlt, rfl⟩
        simpa only [value?, hfind, Option.bind_some, getElem?_eq_none_iff] using hname
      rcases h values rfl with hlen | ⟨stored, table, htable, rfl, hvalues⟩
      · exact absurd (hle.trans_lt hlt) hlen.not_lt
      · exact .inr ⟨stored, table, htable, rfl, hvalues, hmem, hle⟩
    · exact .inl hmem

def Row.Sourced (env : Environment) (row : Row) : Prop :=
  ∀ b ∈ row, b.Sourced env

section Rows

variable {env : Environment} {frames : Frames}

theorem nullRow_sourced (sources : List Alias) : Row.Sourced env (nullRow sources) := by
  intro b hb
  obtain ⟨a, _, rfl⟩ := mem_map.1 hb
  exact nofun

theorem Row.Sourced.append {x y : Row} (hx : Row.Sourced env x) (hy : Row.Sourced env y) :
    Row.Sourced env (x ++ y) := fun b hb =>
  (mem_append.1 hb).elim (hx b) (hy b)

theorem Tree.rows_sourced {t : Tree} (h : t.rows env frames = .ok rows) :
    ∀ row ∈ rows, Row.Sourced env row := by
  refine rows_induction (P := fun _ => Row.Sourced env) (fun a name r hr values hvalues => ?_)
    (fun s i frames delivered hdelivered p hp => ?_) (fun j i x y hx hy => ?_) h
  · refine forall_mem_singleton.2 ?_
    rintro _ ⟨⟩
    exact .inr ⟨name, r, hr, rfl, hvalues⟩
  · refine forall_mem_singleton.2 ?_
    rintro _ ⟨⟩
    exact .inl ((delivered_width hdelivered p hp).trans (length_map _).symm)
  · rcases hy with rfl | hy
    · exact hx.append (nullRow_sourced _)
    · exact hx.append hy

theorem optionRows_sourced {o : Option Tree} (h : optionRows env frames o = .ok rows) :
    ∀ row ∈ rows, Row.Sourced env row := by
  cases o with
  | none =>
    rw [← Except.ok.inj h]
    intro row hrow
    rw [mem_singleton.1 hrow]
    exact nofun
  | some t => exact rows_sourced h

end Rows

/-! ## Evaluation in scope -/

/-- The rows that a tree is evaluated in bind all that it needs, and so do they with each row of the group
in place of the current one. -/
structure Evaluation.Scoped (env : Environment) (x : Evaluation) : Prop where
  needs : ∀ c, x.tree.Needs c → x.frames.Binds c.label
  bounds : x.tree.BoundsApart
  sourced : ∀ row ∈ x.frames, Row.Sourced env row
  group : ∀ members ∈ x.group, ∀ row ∈ members, Row.Sourced env row ∧
    ∀ a, x.frames.Binds a → Frames.Binds (row :: x.frames.tail) a

structure Select.RowOf (env : Environment) (s : Select Tree) (row : Row) : Prop where
  labels : row.map Binding.label = s.sourceAliases
  sourced : Row.Sourced env row

section Steps

variable {env : Environment} {frames : Frames} {x y : Evaluation} {a : Tree} {s : Select Tree}

theorem optionRows_rowOf (h : optionRows env frames s.source = .ok rows) (hrow : row ∈ rows) :
    s.RowOf env row :=
  ⟨optionRows_labels h row hrow, optionRows_sourced h row hrow⟩

theorem Select.keptRows_rowOf (h : s.keptRows env frames = .ok rows) (hrow : row ∈ rows) :
    s.RowOf env row := by
  obtain ⟨all, hall, hkept, _⟩ := keptRows_eq_ok.1 h
  exact optionRows_rowOf hall (mem_of_filterRows hkept hrow)

theorem Select.contexts_rowOf {contexts : List Context} (h : s.contexts env frames = .ok contexts)
    {c : Context} (hc : c ∈ contexts) :
    ∃ row, c.frames = row :: frames ∧ s.RowOf env row ∧
      ∀ members ∈ c.group, ∀ other ∈ members, s.RowOf env other :=
  contexts_rows ⟨nullRow_labels _, nullRow_sourced _⟩ (fun _ h _ => optionRows_rowOf h) h hc

namespace Evaluation.Scoped

theorem child (h : x.Scoped env) (hgroup : ∀ members ∈ group, members ∈ x.group)
    (ha : ([], a) ∈ x.tree.bindings) : Scoped env ⟨x.frames, group, a⟩ where
  needs c hc := h.needs c (.child ha not_mem_nil hc)
  bounds := (every_iff.1 h.bounds).2 a (mem_children_of_bindings ha)
  sourced := h.sourced
  group members hmembers := h.group members (hgroup members hmembers)

theorem enter (h : x.Scoped env) (hrow : Row.Sourced env row)
    (hgroup : ∀ members ∈ group, ∀ other ∈ members,
      Row.Sourced env other ∧ other.map Binding.label = row.map Binding.label)
    (ha : (row.map Binding.label, a) ∈ x.tree.bindings) : Scoped env ⟨row :: x.frames, group, a⟩ where
  needs c hc := by
    by_cases hmem : c.label ∈ row.map Binding.label
    · exact Frames.binds_cons.2 (.inl hmem)
    · exact (h.needs c (.child ha hmem hc)).cons row
  bounds := (every_iff.1 h.bounds).2 a (mem_children_of_bindings ha)
  sourced := forall_mem_cons.2 ⟨hrow, h.sourced⟩
  group members hmembers other hother := by
    obtain ⟨hsourced, hlabels⟩ := hgroup members hmembers other hother
    refine ⟨hsourced, fun a ha => ?_⟩
    rwa [tail_cons, Frames.binds_cons, hlabels, ← Frames.binds_cons]

theorem clauses {group' : Option (List Row)} (h : Scoped env ⟨frames, group, .select s i⟩)
    (hrow : s.RowOf env row) (hgroup : ∀ members ∈ group', ∀ other ∈ members, s.RowOf env other) :
    (∀ a ∈ s.filter, Scoped env ⟨row :: frames, group', a⟩) ∧
      (∀ k ∈ s.order, Scoped env ⟨row :: frames, group', k.value⟩) ∧
      (∀ a ∈ s.group, Scoped env ⟨row :: frames, group', a⟩) ∧
      ∀ c ∈ s.columns, Scoped env ⟨row :: frames, group', c.value⟩ := by
  have hothers : ∀ a ∈ s.others, Scoped env ⟨row :: frames, group', a⟩ := by
    intro a ha
    refine h.enter hrow.sourced (fun members hmembers other hother => ?_) ?_
    · have hother := hgroup members hmembers other hother
      exact ⟨hother.sourced, hother.labels.trans hrow.labels.symm⟩
    · rw [hrow.labels]
      exact mem_append_right _ (mem_map_of_mem ha)
  obtain ⟨hfilter, horder, hgroup, -, -, -, hcolumns⟩ := forall_others.1 hothers
  exact ⟨hfilter, horder, hgroup, hcolumns⟩

theorem join {j : Join Tree} (h : Scoped env ⟨frames, group, .join j i⟩) (hy : j.Enters env frames y) :
    y.Scoped env := by
  cases hy with
  | left => exact h.child nofun mem_cons_self
  | right hkind => exact h.child nofun (by simp [Tree.bindings, hkind])
  | applied hkind hleft hx =>
    refine h.enter (rows_sourced hleft _ hx) (by simp) ?_
    rw [rows_labels hleft _ hx]
    simp [Tree.bindings, hkind]
  | condition hleft hx hright hy ha =>
    refine h.enter ((rows_sourced hleft _ hx).append (rows_sourced hright _ hy)) (by simp) ?_
    rw [map_append, rows_labels hleft _ hx, rows_labels hright _ hy]
    exact .tail _ (.tail _ (mem_map_of_mem (Option.mem_toList.2 ha)))

theorem select (h : Scoped env ⟨frames, group, .select s i⟩) (hy : s.Enters env frames y) : y.Scoped env := by
  cases hy with
  | source ha =>
    exact h.child nofun (mem_append_left _ (mem_map_of_mem (Option.mem_toList.2 ha)))
  | filter hrows hrow ha => exact (clauses h (optionRows_rowOf hrows hrow) (by nofun)).1 _ ha
  | key _ hrows hrow ha => exact (clauses h (keptRows_rowOf hrows hrow) (by nofun)).2.2.1 _ ha
  | number _ hrows hrow hc _ =>
    exact (clauses h (keptRows_rowOf hrows hrow) (by nofun)).2.2.2 _ hc
  | column hcontexts hcontext hc =>
    obtain ⟨row, hframes, hrow, hgroup⟩ := contexts_rowOf hcontexts hcontext
    rw [hframes]
    exact (clauses h hrow hgroup).2.2.2 _ hc
  | order hcontexts hcontext hk =>
    obtain ⟨row, hframes, hrow, hgroup⟩ := contexts_rowOf hcontexts hcontext
    rw [hframes]
    exact (clauses h hrow hgroup).2.1 _ hk
  | @bound a ha =>
    -- A bound is checked with the sources in scope and evaluated without them.
    have hothers : a ∈ s.others := mem_others.2 (mem_append_right _ ha)
    have hclause : a ∈ (select s i).children :=
      mem_children_of_bindings (p := (s.sourceAliases, a)) (mem_append_right _ (mem_map_of_mem hothers))
    refine ⟨fun c hc => h.needs c (needs_iff.2 (.inr ⟨fun hmem => ?_, a, hothers, hc⟩)),
      (every_iff.1 h.bounds).2 a hclause, h.sourced, nofun⟩
    exact h.bounds _ (mem_subtrees.2 (.inl rfl)) s rfl a ha _ hc.mem_referenced hmem

theorem step (h : x.Scoped env) (hxy : Enters env x y) : y.Scoped env := by
  cases hxy with
  | part ha => exact h.child (fun _ hm => hm) (mem_bindings_of_scalarParts ha)
  | subquery ha => exact h.child nofun (mem_bindings_of_subquery ha)
  | @argument frames members row kind a distinct type hrow =>
    -- A row of the group takes the place of the current row, and has the same aliases.
    obtain ⟨hsourced, hbinds⟩ := h.group members rfl row hrow
    have ha : ([], a) ∈ (aggregate kind (some a) distinct type).bindings := mem_cons_self
    refine ⟨fun c hc => hbinds _ (h.needs c (.child ha not_mem_nil hc)), ?_, ?_, nofun⟩
    · exact (every_iff.1 h.bounds).2 a (mem_children_of_bindings ha)
    · exact forall_mem_cons.2 ⟨hsourced, fun row hrow => h.sourced row (mem_of_mem_tail hrow)⟩
  | join hy => exact h.join hy
  | select hy => exact h.select hy

theorem run (h : x.Scoped env) (hxy : Relation.ReflTransGen (Enters env) x y) : y.Scoped env := by
  induction hxy with
  | refl => exact h
  | tail _ hstep ih => exact ih.step hstep

end Evaluation.Scoped

end Steps

/-! ## Accepted queries -/

theorem Select.scoped_of_accepted {s : Select Tree} (accepted : (select s i).checkScopes = .ok ())
    (bounds : (select s i).BoundsApart) : Evaluation.Scoped env ⟨[], none, .select s none⟩ where
  needs c hc := absurd (needs_iff.2 (needs_iff.1 hc)) (checkScopes_iff.1 accepted c)
  bounds := every_iff.2 (every_iff.1 bounds)
  sourced := nofun
  group := nofun

theorem Tree.query_scoped {t : Tree} (accepted : t.checkScopes = .ok ()) (bounds : t.BoundsApart)
    {s : Select Tree} (hs : s ∈ t.query?) : Evaluation.Scoped env ⟨[], none, .select s none⟩ := by
  rcases query_cases hs with ⟨i, rfl⟩ | ⟨j, shape, i, rfl⟩
  · exact scoped_of_accepted accepted bounds
  · rw [checkScopes, checkScopesIn, andThen_eq_ok] at accepted
    exact scoped_of_accepted accepted.1 (bounds.child mem_cons_self)

/-- In a query whose scopes are accepted and whose bounds refer to none of the sources of their select,
whatever the tables and arguments, some row around each evaluated column has the alias of the column. A run
misses a column only if the source that the alias stands for there has no such column, or is a stored table
with a row that ends before it. -/
theorem Tree.checkScopes_sound {t : Tree} (accepted : t.checkScopes = .ok ()) (bounds : t.BoundsApart)
    (env : Environment) :
    (∀ frames group c, t.Evaluates env ⟨frames, group, .column c⟩ → frames.Binds c.label) ∧
      ∀ a name, t.run env = .error (.unboundColumn a name) →
        ∃ frames group c b, t.Evaluates env ⟨frames, group, .column c⟩ ∧ c.label = a ∧ c.name = name ∧
          frames.binding? a = some b ∧ b.Lacks env name := by
  have hscoped : ∀ x, t.Evaluates env x → x.Scoped env := by
    rintro x ⟨s, hs, hx⟩
    exact (query_scoped accepted bounds hs).run hx
  refine ⟨fun frames group c hc => (hscoped _ hc).needs c .column, fun a name hrun => ?_⟩
  obtain ⟨⟨frames, group, _⟩, hx, c, rfl, rfl, rfl, hlookup⟩ := exists_raising hrun rfl
  have hc := hscoped _ hx
  obtain ⟨b, hb⟩ := (hc.needs c .column).exists_binding
  obtain ⟨row, hrow, hmem⟩ := Frames.mem_of_binding? hb
  refine ⟨frames, group, c, b, hx, rfl, rfl, hb, (hc.sourced row hrow b hmem).lacks ?_⟩
  rwa [Frames.lookup?_eq_bind, hb] at hlookup

/-- Customers, numbered by a town that some lack, each with the greatest rate of its orders. There are no rates. -/
def ratedOrders : Tree :=
  let rates : Select Tree :=
    { label := 3
      columns := [⟨"rate", .aggregate .max (some (stringColumn 2 "rate").value) false .string,
        ScalarType.string.columnType⟩, stringColumn 2 "place"]
      source := some (.table 2 "orders")
      filter := some (.binary .equal (stringColumn 2 "customer").value (stringColumn 0 "name").value) }
  .select
    { label := 4
      columns := [stringColumn 0 "name",
        ⟨"row", .rowNumber [⟨.ascending, (stringColumn 1 "town").value⟩], ScalarType.int64.columnType⟩,
        ⟨"rate", .scalarSubquery (.select rates none) .string, ScalarType.string.columnType⟩]
      source := some (.join ⟨.leftOuter, .table 0 "customers", .table 1 "towns",
        some (.binary .equal (stringColumn 1 "customer").value (stringColumn 0 "name").value)⟩ none) }
    none

/-- The first customer has no town and no order, the second one an order. -/
def orderTables : Environment where
  dataset := [("customers", ⟨["name"], [[.string "ann"], [.string "bob"]]⟩),
    ("towns", ⟨["customer", "town"], [[.string "bob", .string "ulm"]]⟩),
    ("orders", ⟨["customer", "place"], [[.string "bob", .string "shop"]]⟩)]
  arguments := []

theorem checkScopes_sound_ratedOrders :
    ratedOrders.checkScopes = .ok () ∧ ratedOrders.BoundsApart ∧
      ratedOrders.run orderTables = .error (.unboundColumn 2 "rate") ∧
      ∃ frames group c b, ratedOrders.Evaluates orderTables ⟨frames, group, .column c⟩ ∧ c.label = 2 ∧
        c.name = "rate" ∧ frames.Binds c.label ∧ frames.binding? 2 = some b ∧
        b.Lacks orderTables "rate" := by
  have accepted : ratedOrders.checkScopes = .ok () := by decide
  have bounds : ratedOrders.BoundsApart := by decide
  have missing : ratedOrders.run orderTables = .error (.unboundColumn 2 "rate") := by rfl
  obtain ⟨hbound, hmissing⟩ := checkScopes_sound accepted bounds orderTables
  obtain ⟨frames, group, c, b, hc, hlabel, hname, hb, hlacks⟩ := hmissing 2 "rate" missing
  exact ⟨accepted, bounds, missing, frames, group, c, b, hc, hlabel, hname, hbound frames group c hc, hb,
    hlacks⟩

/-- A stored row may be cut off before a column of its header, which then counts as not bound. -/
theorem run_cutOrders :
    let places : Tree := .select
      { label := 1, columns := [stringColumn 0 "place"], source := some (.table 0 "orders") } none
    let orders : Table := ⟨["customer", "place"], [[.string "bob"]]⟩
    places.checkScopes = .ok () ∧ places.BoundsApart ∧ "place" ∈ orders.columns ∧
      places.run ⟨[("orders", orders)], []⟩ = .error (.unboundColumn 0 "place") := by
  refine ⟨by decide, by decide, by decide, by rfl⟩

end HiveQuery
