import HiveQuery.Lower.Paging
import HiveQuery.Proofs.Agreement
import HiveQuery.Proofs.KeyRanges
import HiveQuery.Proofs.Traversal

/-!
# Refinement of trees

A tree refines another one if it is built in the same way from trees that do, apart from the changes that the
lowerings make. The relation is one of trees, so that refinements can be put one after the other where agreements
of runs cannot; that it implies agreement of the runs is a theorem about all of its rules at once.
-/

namespace HiveQuery

/-! ## What is compared -/

/-- Kinds of refinements. -/
structure Mode where
  /-- The right side has to give a result whenever the left one does. -/
  total : Bool
  /-- Sort keys of the left side are known to be comparable. -/
  sorted : Bool
  /-- Applies may become joins. Sorting is known to order the rows that a filter drops along with the others where
  the filter becomes the condition of the join. -/
  applies : Bool
  /-- Joins may be put into selects. -/
  wraps : Bool
  /-- Skipped rows may become row numbers. -/
  pages : Bool

/-- What is compared under which scope. A select at the top of its source may take over an order. -/
inductive Judgement where
  | scalar (μ : Reads) (t u : Tree)
  | clauses (μ : Reads) (ν : ColumnMatch) (s s' : Select Tree)
  | select (top : Bool) (μ : Reads) (s s' : Select Tree)
  | source (top : Bool) (μ : Reads) (ν : ColumnMatch) (t u : Tree)
  | side (μ : Reads) (ν : ColumnMatch) (t u : Tree)

/-- Trees that are neither scalars nor queries. -/
def Tree.isInert : Tree → Bool
  | .member _ _ | .record _ | .entity _ _ | .table _ _ | .join _ _ | .projection _ _ _ => true
  | _ => false

def Tree.isSource : Tree → Bool
  | .table _ _ | .select _ _ | .join _ _ => true
  | _ => false

def Tree.isJoin : Tree → Bool
  | .join _ _ => true
  | _ => false

def sameName : ColumnMatch := fun c d => d.name = c.name

/-- A column of a select that passes on what corresponds to a column below it. -/
def Select.passes (w : Select Tree) (ν : ColumnMatch) : ColumnMatch := fun c d =>
  ∃ col e, w.column? d.name = some col ∧ col.value = .column e ∧ e.label ∈ w.sourceAliases ∧ ν c e

/-- The scope of a filter that is pulled out of the right side of an apply: what it read from inside of
that side it reads from its columns. -/
def Reads.pulled (μ : Reads) (l l' : List Alias) (ν : ColumnMatch) (s s' : Select Tree)
    (ν₀ : ColumnMatch) : Reads where
  left := s.sourceAliases ++ (l ++ μ.left)
  right := (l' ++ [s'.label]) ++ μ.right
  rel c d :=
    (c.label ∈ s.sourceAliases ∧ d.label ∉ l' ∧ d.label = s'.label ∧ s'.passes ν₀ c d) ∨
      (c.label ∉ s.sourceAliases ∧ c.label ∈ l ∧ d.label ∈ l' ∧ ν c d) ∨
      (c.label ∉ s.sourceAliases ∧ c.label ∉ l ∧ d.label ∉ l' ∧ d.label ≠ s'.label ∧ μ.rel c d)

def Select.widen (s : Select Tree) (extra : List (Column Tree)) : Select Tree :=
  { s with columns := s.columns ++ extra }

abbrev Select.labelled (s : Select Tree) (label : Alias) : Select Tree :=
  { s with label := label }

abbrev Select.sortedBy (s : Select Tree) (order : List (SortKey Tree)) : Select Tree :=
  { s with order := order }

/-- Selects with the same clauses, apart from what stands in them and from the order. Skipping no rows
is as good as not skipping. -/
structure Select.SameForm (s s' : Select Tree) : Prop where
  source : s'.source.isSome = s.source.isSome
  filter : s'.filter.isSome = s.filter.isSome
  group : s'.group.length = s.group.length
  headers : s'.headers = s.headers
  grouped : s'.isGrouped = s.isGrouped
  distinct : s'.distinct = s.distinct
  reverse : s'.reverse = s.reverse
  skip : s'.skip.isSome = s.skip.isSome ∨ (∃ t, s.skip = some t ∧ t.isZero = true) ∧ s'.skip = none
  take : s'.take.isSome = s.take.isSome

/-- A select that does nothing but compute columns, one row for each row of its source. -/
structure Select.IsBare (s : Select Tree) : Prop where
  filter : s.filter = none
  order : s.order = []
  group : s.isGrouped = false
  distinct : s.distinct = false
  skip : s.skip = none
  take : s.take = none
  reverse : s.reverse = false
  columns : ∀ d ∈ s.columns, d.value.isRowNumber = false

/-- A select that is sorted by a row number. Row numbers are no sort keys, so it has no rows. -/
def Select.Unsortable (s : Select Tree) : Prop :=
  ∃ key ∈ s.order, key.value.isRowNumber = true

/-! ## Changes to one select -/

/-- A layer above finds the sort keys of the delivered rows in their columns. -/
structure Select.Delivers (env : Environment) (scope : List Alias) (s : Select Tree)
    (lifted : List (SortKey Tree)) : Prop where
  directions : lifted.map SortKey.direction = s.directions
  columns : ∀ k ∈ lifted, ∃ c : ColumnRef, k.value = .column c ∧ c.label = s.label
  keys : ∀ {frames : Frames} {rows : List (List Value × List Value)}, frames.Within scope →
    s.delivered env frames = .ok rows → ∀ p ∈ rows, ∀ group,
      keyValues env (sourceRow s.label s.headers p.1 :: frames) group lifted = .ok p.2

/-- A select with row numbers does what another one does by skipping, and has an order of its own. -/
structure Select.Numbers (env : Environment) (total : Bool) (scope : List Alias)
    (s n : Select Tree) : Prop where
  sound : ∀ {frames : Frames} {r : Relation}, frames.Within scope →
    n.run env frames = .ok r → s.run env frames = .ok r
  complete : total = true → ∀ {frames : Frames} {r : Relation}, frames.Within scope →
    s.run env frames = .ok r → ∃ r', n.run env frames = .ok r'
  sorted : ∀ {frames : Frames} {rows : List (List Value × List Value)}, frames.Within scope →
    n.delivered env frames = .ok rows → SortedKeys n.directions (rows.map Prod.snd)

/-- A select with row numbers has the rows of another one, at least when there are none. -/
structure Select.Empties (env : Environment) (total : Bool) (scope : List Alias)
    (s n : Select Tree) : Prop where
  headers : n.headers = s.headers
  sound : ∀ {frames : Frames} {rows : List (List Value × List Value)}, frames.Within scope →
    n.delivered env frames = .ok rows →
      ∃ contexts, s.contexts env frames = .ok contexts ∧ (contexts = [] → rows = [])
  complete : total = true → ∀ {frames : Frames}, frames.Within scope →
    s.contexts env frames = .ok [] → ∃ rows, n.delivered env frames = .ok rows

/-! ## The rules -/

inductive Refines (env : Environment) (k : Mode) : Judgement → Prop
  -- scalars
  | constant (μ : Reads) (v : Value) : Refines env k (.scalar μ (.constant v) (.constant v))
  | undefined (μ : Reads) (i j : Identity) :
      Refines env k (.scalar μ (.undefined i) (.undefined j))
  | parameter (μ : Reads) {p q : Parameter} (name : q.name = p.name) :
      Refines env k (.scalar μ (.parameter p) (.parameter q))
  | binary {μ : Reads} (op : BinaryOp) {l r l' r' : Tree} (left : Refines env k (.scalar μ l l'))
      (right : Refines env k (.scalar μ r r')) :
      Refines env k (.scalar μ (.binary op l r) (.binary op l' r'))
  | unary {μ : Reads} (op : UnaryOp) {t t' : Tree} (operand : Refines env k (.scalar μ t t')) :
      Refines env k (.scalar μ (.unary op t) (.unary op t'))
  | between {μ : Reads} {t l u t' l' u' : Tree} (item : Refines env k (.scalar μ t t'))
      (lower : Refines env k (.scalar μ l l')) (upper : Refines env k (.scalar μ u u')) :
      Refines env k (.scalar μ (.between t l u) (.between t' l' u'))
  | isNull {μ : Reads} {t t' : Tree} (operand : Refines env k (.scalar μ t t')) :
      Refines env k (.scalar μ (.isNull t) (.isNull t'))
  | outerJoined {μ : Reads} {test test' t t' : Tree}
      (aggregate : test'.hasAggregate = test.hasAggregate)
      (shape : Refines env k (.scalar μ t t')) :
      Refines env k (.scalar μ (.outerJoined test t) (.outerJoined test' t'))
  | inert (μ : Reads) {t u : Tree} (left : t.isInert = true) (right : u.isInert = true)
      (aggregate : u.hasAggregate = t.hasAggregate) : Refines env k (.scalar μ t u)
  | column {μ : Reads} {c d : ColumnRef} (links : μ.Links c d) :
      Refines env k (.scalar μ (.column c) (.column d))
  | query {top : Bool} {μ : Reads} {s s' : Select Tree} (i j : Option Identity)
      (select : Refines env k (.select top μ s s')) :
      Refines env k (.scalar μ (.select s i) (.select s' j))
  | scalarSubquery {μ : Reads} {q q' : Tree} (type type' : ScalarType)
      (query : Refines env k (.scalar μ q q')) :
      Refines env k (.scalar μ (.scalarSubquery q type) (.scalarSubquery q' type'))
  | existsSubquery {μ : Reads} {q q' : Tree} (query : Refines env k (.scalar μ q q')) :
      Refines env k (.scalar μ (.existsSubquery q) (.existsSubquery q'))
  | inSubquery {μ : Reads} {t q t' q' : Tree} (item : Refines env k (.scalar μ t t'))
      (query : Refines env k (.scalar μ q q')) :
      Refines env k (.scalar μ (.inSubquery t q) (.inSubquery t' q'))
  | count (μ : Reads) (kind : AggregateKind) (d d' : Bool) (type type' : ScalarType) :
      Refines env k (.scalar μ (.aggregate kind none d type) (.aggregate kind none d' type'))
  | aggregate {μ : Reads} (kind : AggregateKind) {t t' : Tree} (d : Bool) (type type' : ScalarType)
      (argument : Refines env k (.scalar μ t t')) :
      Refines env k
        (.scalar μ (.aggregate kind (some t) d type) (.aggregate kind (some t') d type'))
  | rowNumber {μ : Reads} {order order' : List (SortKey Tree)}
      (directions : order'.map SortKey.direction = order.map SortKey.direction)
      (keys : ∀ p ∈ order.zip order', Refines env k (.scalar μ p.1.value p.2.value)) :
      Refines env k (.scalar μ (.rowNumber order) (.rowNumber order'))
  -- selects
  | clauses {μ : Reads} {ν : ColumnMatch} {s s' : Select Tree} (form : s.SameForm s')
      (source : ∀ t u, s.source = some t → s'.source = some u →
        Refines env k (.source true μ ν t u))
      (filter : ∀ t u, s.filter = some t → s'.filter = some u →
        Refines env k (.scalar (μ.within s.sourceAliases s'.sourceAliases ν) t u))
      (group : ∀ p ∈ s.group.zip s'.group,
        Refines env k (.scalar (μ.within s.sourceAliases s'.sourceAliases ν) p.1 p.2))
      (columns : ∀ p ∈ s.columns.zip s'.columns,
        Refines env k
          (.scalar (μ.within s.sourceAliases s'.sourceAliases ν) p.1.value p.2.value))
      (skip : ∀ t u, s.skip = some t → s'.skip = some u → Refines env k (.scalar μ t u))
      (take : ∀ t u, s.take = some t → s'.take = some u → Refines env k (.scalar μ t u))
      (skips : k.pages = true ∨ s'.skip.isSome = s.skip.isSome) : Refines env k (.clauses μ ν s s')
  | ordered {top : Bool} {μ : Reads} {ν : ColumnMatch} {s s' : Select Tree}
      (clauses : Refines env k (.clauses μ ν s s')) (directions : s'.directions = s.directions)
      (keys : ∀ p ∈ s.order.zip s'.order,
        Refines env k
          (.scalar (μ.within s.sourceAliases s'.sourceAliases ν) p.1.value p.2.value)) :
      Refines env k (.select top μ s s')
  | lifted {μ : Reads} {ν : ColumnMatch} {s s' inner inner' : Select Tree} {i j : Option Identity}
      (pages : k.pages = true) (sorted : k.sorted = true)
      (clauses : Refines env k (.clauses μ ν s s')) (order : s.order = []) (group : s.group = [])
      (source : s.source = some (.select inner i)) (source' : s'.source = some (.select inner' j))
      (reverse : inner'.reverse = false) (delivers : inner'.Delivers env μ.right s'.order) :
      Refines env k (.select true μ s s')
  | emptied {top : Bool} {μ : Reads} {ν : ColumnMatch} {s s' n : Select Tree}
      (pages : k.pages = true) (skip : s.skip.isSome = true)
      (clauses : Refines env k (.clauses μ ν s s'))
      (unsortable : s.Unsortable)
      (empties : s'.Empties env k.total μ.right n) : Refines env k (.select top μ s n)
  | numbered {top : Bool} {μ : Reads} {s s' n : Select Tree} (pages : k.pages = true)
      (skip : s.skip.isSome = true) (select : Refines env k (.select true μ s s'))
      (numbers : s'.Numbers env k.total μ.right n) : Refines env k (.select top μ s n)
  -- sources
  | table (top : Bool) (μ : Reads) (a b : Alias) (name : String) :
      Refines env k (.source top μ sameName (.table a name) (.table b name))
  | notSource (top : Bool) (μ : Reads) {t u : Tree} (left : t.isSource = false)
      (right : u.isSource = false) : Refines env k (.source top μ sameName t u)
  | widened {top : Bool} {μ : Reads} {s s' : Select Tree} (extra : List (Column Tree))
      (i j : Option Identity) (select : Refines env k (.select top μ s s'))
      (pages : extra ≠ [] → k.pages = true ∧ top = true) (plain : extra ≠ [] → s'.distinct = false)
      (values : ∀ e ∈ extra, (e.value.isRowNumber = true → s'.Unsortable) ∧
        (e.value.hasAggregate = true → s'.isGrouped = true))
      (total : k.total = true → ∀ e ∈ extra, ∃ key ∈ s'.order, key.value = e.value) :
      Refines env k (.source top μ sameName (.select s i) (.select (s'.widen extra) j))
  | joined {top : Bool} {μ : Reads} {ν ν' : ColumnMatch} (kind : JoinKind) {l r l' r' : Tree}
      {c c' : Option Tree} (i j : Option Identity) (left : Refines env k (.side μ ν l l'))
      (right : Refines env k
        (.side (if kind.isApply then μ.within l.sources l'.sources ν else μ) ν' r r'))
      (form : c'.isSome = c.isSome)
      (condition : ∀ t u, c = some t → c' = some u →
        Refines env k (.scalar (μ.within (l.sources ++ r.sources) (l'.sources ++ r'.sources)
          (joinMatch l.sources l'.sources ν ν')) t u)) :
      Refines env k (.source top μ (joinMatch l.sources l'.sources ν ν')
        (.join ⟨kind, l, r, c⟩ i) (.join ⟨kind, l', r', c'⟩ j))
  | uncorrelated {top : Bool} {μ : Reads} {ν ν' : ColumnMatch} (kind : JoinKind) {l r l' r' : Tree}
      (i j : Option Identity) (applies : k.applies = true) (partly : k.total = false)
      (apply : kind.isApply = true) (left : Refines env k (.side μ ν l l'))
      (right : Refines env k (.side (μ.beyond l.sources) ν' r r')) :
      Refines env k (.source top μ (joinMatch l.sources l'.sources ν ν') (.join ⟨kind, l, r, none⟩ i)
        (.join ⟨(appliedJoin kind none).1, l', r', (appliedJoin kind none).2⟩ j))
  | applied {top : Bool} {μ : Reads} {ν ν₀ : ColumnMatch} (kind : JoinKind) {l l' : Tree}
      {s s' : Select Tree} {c : Option Tree} (columns extra : List (Column Tree))
      (i j i' j' : Option Identity) (applies : k.applies = true) (partly : k.total = false)
      (apply : kind.isApply = true) (left : Refines env k (.side μ ν l l'))
      (pulled : s.pullsFrom l.sources = true) (plain' : s'.isPlain = true) (filter : s'.filter = none)
      (reverse : s'.reverse = s.reverse) (split : s'.columns = columns ++ extra)
      (names : columns.map Column.name = s.headers)
      (unnumbered : ∀ d ∈ s.columns, d.value.isRowNumber = false)
      (unnumbered' : ∀ d ∈ s'.columns, d.value.isRowNumber = false)
      (form : s'.source.isSome = s.source.isSome)
      (source : ∀ t u, s.source = some t → s'.source = some u →
        Refines env k (.source true (μ.beyond l.sources) ν₀ t u))
      (values : ∀ p ∈ s.columns.zip columns,
        Refines env k (.scalar ((μ.beyond l.sources).within s.sourceAliases s'.sourceAliases ν₀)
          p.1.value p.2.value))
      (directions : s'.directions = s.directions)
      (keys : ∀ p ∈ s.order.zip s'.order,
        Refines env k (.scalar ((μ.beyond l.sources).within s.sourceAliases s'.sourceAliases ν₀)
          p.1.value p.2.value))
      (pulls : c.isSome = s.filter.isSome)
      (condition : ∀ t u, s.filter = some t → c = some u →
        Refines env k (.scalar (μ.pulled l.sources l'.sources ν s s' ν₀) t u)) :
      Refines env k (.source top μ (joinMatch l.sources l'.sources ν sameName)
        (.join ⟨kind, l, .select s i', none⟩ i)
        (.join ⟨(appliedJoin kind c).1, l', .select s' j', (appliedJoin kind c).2⟩ j))
  -- sides of a join
  | plain {μ : Reads} {ν : ColumnMatch} {t u : Tree}
      (source : Refines env k (.source false μ ν t u)) : Refines env k (.side μ ν t u)
  | wrapped {μ : Reads} {ν : ColumnMatch} {t u : Tree} {w : Select Tree} (i : Option Identity)
      (wraps : k.wraps = true) (partly : k.total = false) (join : t.isJoin = true)
      (source : Refines env k (.source false μ ν t u)) (reads : w.source = some u) (bare : w.IsBare) :
      Refines env k (.side μ (w.passes ν) t (.select w i))

/-! ## Nodes that stay -/

open List
variable {env : Environment} {k : Mode} {μ : Reads} {ν : ColumnMatch} {S R : Tree → Tree → Prop}
  {s s' : Select Tree}

/-- The clauses that see the sources of a select. -/
def Select.inner (s : Select Tree) : List Tree :=
  s.filter.toList ++ s.order.map SortKey.value ++ s.group ++ s.columns.map Column.value

def Select.bounds (s : Select Tree) : List Tree :=
  s.skip.toList ++ s.take.toList

theorem Tree.SameNode.hasAggregate {t u : Tree} (h : t.SameNode R u)
    (hR : ∀ a b, R a b → b.hasAggregate = a.hasAggregate) : u.hasAggregate = t.hasAggregate := by
  have hchildren : u.children.any Tree.hasAggregate = t.children.any Tree.hasAggregate :=
    any_eq_of_forall₂ h.children hR
  rw [hasAggregate_eq, hasAggregate_eq, hchildren]
  cases h <;> rfl

theorem Select.SameClauses.isGrouped (h : s.SameClauses S R s')
    (hR : ∀ a b, R a b → b.hasAggregate = a.hasAggregate) : s'.isGrouped = s.isGrouped := by
  have hfilter : s'.filter.any Tree.hasAggregate = s.filter.any Tree.hasAggregate := option_any_eq h.filter hR
  have horder : (s'.order.any fun k => k.value.hasAggregate) = s.order.any fun k => k.value.hasAggregate :=
    any_eq_of_forall₂ h.order fun _ _ h => hR _ _ h.2
  have hcolumns : (s'.columns.any fun c => c.value.hasAggregate) =
      s.columns.any fun c => c.value.hasAggregate :=
    any_eq_of_forall₂ h.columns fun _ _ h => hR _ _ h.2
  rw [Select.isGrouped, Select.isGrouped, Select.hasAggregates, Select.hasAggregates, hfilter, horder,
    hcolumns, isEmpty_eq_of_length_eq h.group.length_eq.symm]

theorem forall₂_keys {P : Tree → Tree → Prop} {order order' : List (SortKey Tree)}
    (directions : order'.map SortKey.direction = order.map SortKey.direction)
    (keys : ∀ p ∈ order.zip order', P p.1.value p.2.value) :
    Forall₂ (fun k k' => k'.direction = k.direction ∧ P k.value k'.value) order order' := by
  induction order generalizing order' with
  | nil =>
    rw [map_eq_nil_iff.1 directions]
    exact .nil
  | cons d order ih =>
    cases order' with
    | nil => cases directions
    | cons d' order' =>
      obtain ⟨hd, directions⟩ := cons.inj directions
      refine .cons ⟨hd, keys (d, d') mem_cons_self⟩ (ih directions fun p hp => ?_)
      exact keys p (.tail _ hp)

def Judgement.SameAggregates : Judgement → Prop
  | .scalar _ t u => u.hasAggregate = t.hasAggregate
  | _ => True

theorem Refines.sameAggregates {J : Judgement} (h : Refines env k J) : J.SameAggregates := by
  induction h with
  | binary op _ _ left right =>
    exact Tree.SameNode.hasAggregate (.binary op left right) fun _ _ h => h
  | unary op _ operand => exact Tree.SameNode.hasAggregate (.unary op operand) fun _ _ h => h
  | between _ _ _ item lower upper =>
    exact Tree.SameNode.hasAggregate (.between item lower upper) fun _ _ h => h
  | isNull _ operand => exact Tree.SameNode.hasAggregate (.isNull operand) fun _ _ h => h
  | outerJoined aggregate _ shape =>
    exact Tree.SameNode.hasAggregate (.outerJoined aggregate shape) fun _ _ h => h
  | inert _ _ _ aggregate => exact aggregate
  | rowNumber directions _ keys =>
    refine Tree.SameNode.hasAggregate (.rowNumber (forall₂_keys directions keys)) fun _ _ h => h
  | _ => trivial

theorem Tree.SameNode.isInert {t u : Tree} (h : t.SameNode R u) : u.isInert = t.isInert := by
  cases h <;> rfl

/-- A scalar is refined by the same node over refined children. -/
theorem Refines.scalar_of_sameNode {t u : Tree} (h : t.SameNode R u) (select : t.isSelect = false)
    (column : t.column? = none) (aggregates : ∀ a b, R a b → b.hasAggregate = a.hasAggregate)
    (children : t.isInert = false → ∀ a ∈ t.children, ∀ b, R a b → Refines env k (.scalar μ a b)) :
    Refines env k (.scalar μ t u) := by
  have haggregate := h.hasAggregate aggregates
  cases hinert : t.isInert with
  | true => exact .inert μ hinert (h.isInert.trans hinert) haggregate
  | false =>
    have same := h.imp fun a b ha hab => children hinert a ha b hab
    clear h
    cases same with
    | constant v => exact .constant μ v
    | undefined id => exact .undefined μ id id
    | parameter p => exact .parameter μ rfl
    | binary op hl hr => exact .binary op hl hr
    | unary op h => exact .unary op h
    | between ht hl hu => exact .between ht hl hu
    | isNull h => exact .isNull h
    | outerJoined htest h => exact .outerJoined htest.sameAggregates h
    | column c => simp [Tree.column?] at column
    | select => simp [Tree.isSelect] at select
    | scalarSubquery type h => exact .scalarSubquery type type h
    | existsSubquery h => exact .existsSubquery h
    | inSubquery ht hq => exact .inSubquery ht hq
    | aggregate kind distinct type h =>
      cases h with
      | none => exact .count μ kind distinct distinct type type
      | some h => exact .aggregate kind distinct type type h
    | rowNumber h =>
      refine .rowNumber (map_eq_of_forall₂ h fun _ _ h => h.1) fun p hp => ?_
      exact ((forall₂_iff_zip.1 h).2 hp).2
    | _ => cases hinert

theorem Select.SameClauses.sameForm (h : s.SameClauses S R s')
    (aggregates : ∀ a b, R a b → b.hasAggregate = a.hasAggregate) : s.SameForm s' where
  source := option_isSome_eq h.source
  filter := option_isSome_eq h.filter
  group := h.group.length_eq.symm
  headers := map_eq_of_forall₂ h.columns fun _ _ h => h.1
  grouped := h.isGrouped aggregates
  distinct := h.distinct
  reverse := h.reverse
  skip := .inl (option_isSome_eq h.skip)
  take := option_isSome_eq h.take

theorem Select.mem_inner_of_mem_order {d : SortKey Tree} (h : d ∈ s.order) : d.value ∈ s.inner := by
  simp only [inner, mem_append]
  exact .inl (.inl (.inr (mem_map_of_mem h)))

section Same

variable (h : s.SameClauses S R s') (aggregates : ∀ a b, R a b → b.hasAggregate = a.hasAggregate)
  (source : ∀ t u, s.source = some t → s'.source = some u → S t u →
    Refines env k (.source true μ ν t u))
  (inner : ∀ a ∈ s.inner, ∀ b ∈ s'.inner, R a b →
    Refines env k (.scalar (μ.within s.sourceAliases s'.sourceAliases ν) a b))
  (bounds : ∀ a ∈ s.bounds, ∀ b ∈ s'.bounds, R a b → Refines env k (.scalar μ a b))
include h aggregates source inner bounds

theorem Refines.clauses_of_same : Refines env k (.clauses μ ν s s') := by
  refine .clauses (h.sameForm aggregates) ?_ ?_ ?_ ?_ ?_ ?_ (.inr (option_isSome_eq h.skip))
  · exact fun t u ht hu => source t u ht hu (option_rel_of_some h.source ht hu)
  · intro t u ht hu
    exact inner t (by simp [Select.inner, ht]) u (by simp [Select.inner, hu])
      (option_rel_of_some h.filter ht hu)
  · intro p hp
    have hmem := of_mem_zip hp
    exact inner p.1 (by simp [Select.inner, hmem.1]) p.2 (by simp [Select.inner, hmem.2])
      ((forall₂_iff_zip.1 h.group).2 hp)
  · intro p hp
    have hmem := of_mem_zip hp
    exact inner p.1.value (mem_append_right _ (mem_map_of_mem hmem.1)) p.2.value
      (mem_append_right _ (mem_map_of_mem hmem.2))
      ((forall₂_iff_zip.1 h.columns).2 hp).2
  · intro t u ht hu
    exact bounds t (by simp [Select.bounds, ht]) u (by simp [Select.bounds, hu])
      (option_rel_of_some h.skip ht hu)
  · intro t u ht hu
    exact bounds t (by simp [Select.bounds, ht]) u (by simp [Select.bounds, hu])
      (option_rel_of_some h.take ht hu)

/-- A select is refined by one with refined clauses. -/
theorem Refines.select_of_same (top : Bool) : Refines env k (.select top μ s s') := by
  refine .ordered (.clauses_of_same h aggregates source inner bounds) ?_ fun p hp => ?_
  · exact map_eq_of_forall₂ h.order fun _ _ h => h.1
  · have hmem := of_mem_zip hp
    exact inner p.1.value (Select.mem_inner_of_mem_order hmem.1) p.2.value
      (Select.mem_inner_of_mem_order hmem.2) ((forall₂_iff_zip.1 h.order).2 hp).2

end Same

theorem Refines.source_of_select {top : Bool} (i j : Option Identity) (h : Refines env k (.select top μ s s')) :
    Refines env k (.source top μ sameName (.select s i) (.select s' j)) := by
  have hwiden : s'.widen [] = s' := by simp [Select.widen]
  have hsource := widened [] i j h (by simp) (by simp) (by simp) (by simp)
  rwa [hwiden] at hsource

end HiveQuery
