import HiveQuery.Lower.Apply
import HiveQuery.Proofs.Production

/-!
# What sort keys range over

The values that sort keys take while a query runs decide whether sorting orders the rows. Where the filter of a select
becomes the condition of a join, the rows that it drops are sorted along, and their values count as well.
-/

namespace HiveQuery

/-- The values of a key are nulls and values of one family. -/
def InOneFamily (values : List Value) : Prop :=
  ∃ f : Family, ∀ v ∈ values, v.InFamily f

instance (f : Family) (v : Value) : Decidable (v.InFamily f) :=
  inferInstanceAs (Decidable (_ ∨ _))

instance (values : List Value) : Decidable (InOneFamily values) :=
  decidable_of_iff (∃ f ∈ [Family.number, .string, .boolean, .timestamp], ∀ v ∈ values, v.InFamily f)
    ⟨fun ⟨f, _, h⟩ => ⟨f, h⟩, fun ⟨f, h⟩ => ⟨f, by cases f <;> simp, h⟩⟩

/-- Values that sorting orders. -/
def Sortable (values : List Value) : Prop :=
  ComparesOn Value.sortCompare (· ∈ values)

theorem InOneFamily.sortable {values : List Value} (h : InOneFamily values) : Sortable values := by
  obtain ⟨f, hf⟩ := h
  exact (Value.sortCompare_comparesOn f).mono hf

instance (values : List Value) : Decidable (Sortable values) :=
  decidable_of_iff
    ((∀ a ∈ values, ∀ b ∈ values, b.sortCompare a = (a.sortCompare b).swap) ∧
      ∀ a ∈ values, ∀ b ∈ values, ∀ c ∈ values, (a.sortCompare b).isLE = true →
        (b.sortCompare c).isLE = true → (a.sortCompare c).isLE = true)
    ⟨fun h => ⟨fun ha hb => h.1 _ ha _ hb, fun ha hb hc => h.2 _ ha _ hb _ hc⟩,
      fun h => ⟨fun _ ha _ hb => h.swap ha hb, fun _ ha _ hb _ hc => h.trans ha hb hc⟩⟩

/-- Does the filter of a select become the condition of a join when the select is applied to the rows of
the given sources? -/
def Select.pullsFrom (sources : List Alias) (s : Select Tree) : Bool :=
  s.filter.isSome && s.isPlain &&
    !(Tree.select { s with filter := none } none).referenced.any (sources.contains ·)

/-- The values that a sort key takes in a run of its select, or else on all rows of the source of a select
whose filter is pulled out. -/
structure KeyRange where
  unfiltered : Bool
  values : Run (List Value)

mutual

/-- The values that each sort key takes when a tree is computed in the given row. -/
def Tree.keyRanges (env : Environment) (unfiltered : Bool) (frames : Frames)
    (group : Option (List Row)) : Tree → List KeyRange
  | .binary _ l r =>
    l.keyRanges env unfiltered frames group ++ r.keyRanges env unfiltered frames group
  | .unary _ t => t.keyRanges env unfiltered frames group
  | .between t l u =>
    t.keyRanges env unfiltered frames group ++ l.keyRanges env unfiltered frames group ++
      u.keyRanges env unfiltered frames group
  | .isNull t => t.keyRanges env unfiltered frames group
  | .outerJoined _ t => t.keyRanges env unfiltered frames group
  | .select s _ => s.keyRanges env unfiltered frames
  | .join ⟨kind, l, r, c⟩ _ =>
    let left := (l.rows env frames).values
    let around : Row → Frames := fun row => if kind.isApply then row :: frames else frames
    l.keyRanges env unfiltered frames none ++
      (if kind.isApply then
        left.flatMap fun row =>
          (if unfiltered && c.isNone then r.unfilteredRanges env l.sources (row :: frames) else []) ++
            r.keyRanges env unfiltered (row :: frames) none
      else
        r.keyRanges env unfiltered frames none) ++
      left.flatMap fun x => (r.rows env (around x)).values.flatMap fun y =>
        optionRanges env unfiltered ((x ++ y) :: frames) none c
  | .scalarSubquery q _ => q.keyRanges env unfiltered frames none
  | .existsSubquery q => q.keyRanges env unfiltered frames none
  | .inSubquery t q =>
    t.keyRanges env unfiltered frames group ++
      match t.scalar env frames group with
      | .ok v => if v.isNull then [] else q.keyRanges env unfiltered frames none
      | .error _ => []
  | .aggregate _ t _ _ =>
    (group.getD []).flatMap fun row => optionRanges env unfiltered (row :: frames.tail) none t
  | .rowNumber order => sortRanges env unfiltered frames group order
  | .constant _ | .undefined _ | .parameter _ | .column _ => []
  | .member _ _ | .record _ | .entity _ _ | .table _ _ | .projection _ _ _ => []

/-- The values that the sort keys of the right side of an apply take on all rows of its source, if the filter
of that side is pulled out. -/
def Tree.unfilteredRanges (env : Environment) (sources : List Alias) (frames : Frames) :
    Tree → List KeyRange
  | .select ⟨label, columns, source, filter, order, group, distinct, skip, take, reverse, cluster⟩ _ =>
    let s : Select Tree :=
      ⟨label, columns, source, filter, order, group, distinct, skip, take, reverse, cluster⟩
    if s.pullsFrom sources then
      (optionRows env frames source).values.flatMap (fun row =>
        sortRanges env true (row :: frames) none order) ++
        order.map fun k => ⟨true, do
          let rows ← optionRows env frames source
          rows.mapM fun row => k.value.scalar env (row :: frames) none⟩
    else
      []
  | _ => []

/-- The values of the select's own sort keys, after those of the queries in its clauses. -/
def Select.keyRanges (env : Environment) (unfiltered : Bool) (frames : Frames) :
    Select Tree → List KeyRange
  | ⟨label, columns, source, filter, order, group, distinct, skip, take, reverse, cluster⟩ =>
    let s : Select Tree :=
      ⟨label, columns, source, filter, order, group, distinct, skip, take, reverse, cluster⟩
    optionRanges env unfiltered frames none source ++
      (optionRows env frames source).values.flatMap (fun row =>
        optionRanges env unfiltered (row :: frames) none filter) ++
      (s.keptRows env frames).values.flatMap (fun row =>
        listRanges env unfiltered (row :: frames) none group) ++
      (s.contexts env frames).values.flatMap (fun c =>
        columnRanges env unfiltered c.frames c.group columns ++
          sortRanges env unfiltered c.frames c.group order) ++
      optionRanges env unfiltered frames none skip ++
      optionRanges env unfiltered frames none take ++
      order.map fun k => ⟨false, do
        let contexts ← s.contexts env frames
        contexts.mapM fun c => k.value.scalar env c.frames c.group⟩

def optionRanges (env : Environment) (unfiltered : Bool) (frames : Frames)
    (group : Option (List Row)) : Option Tree → List KeyRange
  | none => []
  | some t => t.keyRanges env unfiltered frames group

def listRanges (env : Environment) (unfiltered : Bool) (frames : Frames)
    (group : Option (List Row)) : List Tree → List KeyRange
  | [] => []
  | t :: ts =>
    t.keyRanges env unfiltered frames group ++ listRanges env unfiltered frames group ts

def sortRanges (env : Environment) (unfiltered : Bool) (frames : Frames)
    (group : Option (List Row)) : List (SortKey Tree) → List KeyRange
  | [] => []
  | ⟨_, t⟩ :: ks =>
    t.keyRanges env unfiltered frames group ++ sortRanges env unfiltered frames group ks

def columnRanges (env : Environment) (unfiltered : Bool) (frames : Frames)
    (group : Option (List Row)) : List (Column Tree) → List KeyRange
  | [] => []
  | ⟨_, t, _⟩ :: cs =>
    t.keyRanges env unfiltered frames group ++ columnRanges env unfiltered frames group cs

end

/-- A key has values, and they come from one family. -/
def KeyRange.IsComparable (range : KeyRange) : Prop :=
  ∃ values, range.values = .ok values ∧ InOneFamily values

/-- A key has values, and sorting orders them. -/
def KeyRange.IsSortable (range : KeyRange) : Prop :=
  ∃ values, range.values = .ok values ∧ Sortable values

theorem KeyRange.IsComparable.sortable {range : KeyRange} (h : range.IsComparable) : range.IsSortable := by
  obtain ⟨values, hvalues, hfamily⟩ := h
  exact ⟨values, hvalues, hfamily.sortable⟩

def RangesComparable (ranges : List KeyRange) : Prop :=
  ∀ range ∈ ranges, range.IsComparable

/-- Every key of a select that is run as it stands has values, and they come from one family. -/
def FilteredComparable (ranges : List KeyRange) : Prop :=
  ∀ range ∈ ranges, range.unfiltered = false → range.IsComparable

/-- Every key of a select whose filter is pulled out has values on all rows of the source, and sorting orders
them. -/
def UnfilteredSortable (ranges : List KeyRange) : Prop :=
  ∀ range ∈ ranges, range.unfiltered = true → range.IsSortable

instance {p : List Value → Prop} [DecidablePred p] (values : Run (List Value)) :
    Decidable (∃ vs, values = .ok vs ∧ p vs) :=
  match values with
  | .ok vs => decidable_of_iff (p vs) ⟨fun h => ⟨vs, rfl, h⟩, fun ⟨_, e, h⟩ => Except.ok.inj e ▸ h⟩
  | .error _ => isFalse fun ⟨_, e, _⟩ => nomatch e

instance (range : KeyRange) : Decidable range.IsComparable :=
  inferInstanceAs (Decidable (∃ _, _ ∧ _))

instance (range : KeyRange) : Decidable range.IsSortable :=
  inferInstanceAs (Decidable (∃ _, _ ∧ _))

instance (ranges : List KeyRange) : Decidable (RangesComparable ranges) :=
  inferInstanceAs (Decidable (∀ range ∈ ranges, _))

instance (ranges : List KeyRange) : Decidable (FilteredComparable ranges) :=
  inferInstanceAs (Decidable (∀ range ∈ ranges, _ → _))

instance (ranges : List KeyRange) : Decidable (UnfilteredSortable ranges) :=
  inferInstanceAs (Decidable (∀ range ∈ ranges, _ → _))

end HiveQuery
