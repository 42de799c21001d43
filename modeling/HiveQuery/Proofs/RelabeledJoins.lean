import HiveQuery.Lower.Lookup
import HiveQuery.Proofs.Isolation
import HiveQuery.Proofs.RelabeledPages

/-!
# Joins under other aliases

The lowerings of joins draw aliases only for the selects into which cross joins are put.
-/

namespace HiveQuery
open List HiveQuery.Tree Isolation

variable {f : Alias → Alias}

/-! ## Applies -/

def growing (f : Alias → Alias) : Coupling (StateM (List (Column Tree))) :=
  .state fun cs cs' => cs.map (Column.relabel f) = cs'

section Applies

variable (hf : Function.Injective f)

include hf

theorem projectColumn_relabel (inner : List Alias) (label : Alias) (c : ColumnRef) :
    (growing f).rel (fun d d' => d.rename f = d') (projectColumn inner label c)
      (projectColumn (inner.map f) (f label) (c.rename f)) := by
  have hcontains : (inner.map f).contains (c.rename f).label = inner.contains c.label :=
    contains_map hf inner c.label
  rw [projectColumn, projectColumn, hcontains]
  split
  · refine .bind Coupling.state_get ?_
    rintro columns _ rfl
    have hfind : (columns.map (Column.relabel f)).find? (fun d => d.value.equal (.column (c.rename f))) =
        (columns.find? fun d => d.value.equal (.column c)).map (Column.relabel f) := by
      rw [find?_map]
      congr 2
      funext d
      exact equal_relabel hf d.value (.column c)
    rw [hfind]
    cases columns.find? fun d => d.value.equal (.column c) with
    | some d => exact .pure rfl
    | none =>
      have hnames : (columns.map (Column.relabel f)).map Column.name = columns.map Column.name := by
        rw [map_map]
        rfl
      dsimp only [Option.map_none]
      rw [hnames]
      refine .bind (Coupling.state_set ?_) fun _ _ _ => .pure rfl
      rw [map_append]
      rfl
  · exact .pure rfl

theorem projectFilter_relabel (inner : List Alias) (label : Alias) (t : Tree) :
    (growing f).rel (Relabels f) (projectFilter inner label t)
      (projectFilter (inner.map f) (f label) (t.relabel f)) := by
  refine bottomUp_relabel hf (fun u => ?_) t
  cases u with
  | column c =>
    exact .bind (projectColumn_relabel hf inner label c) fun _ _ h =>
      .pure (congrArg column h)
  | _ => exact .pure rfl

omit hf in
theorem Select.isPlain_relabel (s : Select Tree) : (s.relabel f).isPlain = s.isPlain := by
  simp [isPlain]

omit hf in
def Select.pulledFilter (s : Select Tree) : Option Tree × List (Column Tree) :=
  match s.filter with
  | some t =>
    let (t, columns) := (projectFilter ((s.source.map sources).getD []) s.label t).run s.columns
    (some t, columns)
  | none => (none, s.columns)

theorem Select.pulledFilter_relabel (s : Select Tree) : (s.relabel f).pulledFilter =
    (s.pulledFilter.1.map (Tree.relabel f), s.pulledFilter.2.map (Column.relabel f)) := by
  have hsources : ((s.relabel f).source.map Tree.sources).getD [] =
      ((s.source.map Tree.sources).getD []).map f := by
    rw [source_relabel]
    cases s.source with
    | none => rfl
    | some t => exact t.sources_relabel
  rw [Select.pulledFilter, Select.pulledFilter, hsources, Select.filter_relabel, Select.columns_relabel,
    Select.label_relabel]
  cases s.filter with
  | none => rfl
  | some t =>
    obtain ⟨ht, hcolumns⟩ :=
      projectFilter_relabel hf ((s.source.map sources).getD []) s.label t s.columns _ rfl
    exact congrArg₂ (fun u columns => (some u, columns)) ht.symm hcolumns.symm

omit hf in
theorem Join.lowerApply?_select (kind : JoinKind) (l : Tree) (s : Select Tree) (i : Option Identity)
    (c : Option Tree) : lowerApply? ⟨kind, l, .select s i, c⟩ =
      if !kind.isApply || c.isSome then none
      else if !s.isPlain ||
          (select { s with filter := none } none).referenced.any (l.sources.contains ·) then none
      else some ⟨(appliedJoin kind s.pulledFilter.1).1, l,
        .select { s with filter := none, columns := s.pulledFilter.2 } none,
        (appliedJoin kind s.pulledFilter.1).2⟩ :=
  rfl

theorem Join.lowerApply?_relabel (j : Join Tree) :
    (j.relabel f).lowerApply? = j.lowerApply?.map (Join.relabel f) := by
  obtain ⟨kind, l, r, c⟩ := j
  cases r with
  | table a name => cases kind <;> cases c <;> rfl
  | select s i =>
    have hunfiltered : Tree.select { s.relabel f with filter := none } none =
        (Tree.select ({ s with filter := none } : Select Tree) none).relabel f := by
      simp only [Tree.relabel, Select.relabel_eq, Option.map_none]
    have hreads : (Tree.select { s.relabel f with filter := none } none).referenced.any
          ((l.relabel f).sources.contains ·) =
        (Tree.select { s with filter := none } none).referenced.any (l.sources.contains ·) := by
      rw [hunfiltered, referenced_relabel hf, sources_relabel, any_map]
      congr 1
      funext a
      exact contains_map hf l.sources a
    simp only [Join.relabel, Tree.relabel]
    have hjoin (c : Option Tree) : appliedJoin kind (c.map (Tree.relabel f)) =
        ((appliedJoin kind c).1, (appliedJoin kind c).2.map (Tree.relabel f)) := by
      cases kind <;> cases c <;> rfl
    rw [Join.lowerApply?_select, Join.lowerApply?_select, Option.isSome_map, Select.isPlain_relabel, hreads,
      Select.pulledFilter_relabel hf, hjoin]
    split
    · rfl
    · split
      · rfl
      · simp only [Option.map_some, Join.relabel, Tree.relabel, Select.relabel_eq, Option.map_none]
  | _ => cases kind <;> cases c <;> rfl

theorem Tree.lowerApplyAt_relabel (t : Tree) : (t.relabel f).lowerApplyAt = t.lowerApplyAt.relabel f := by
  cases t with
  | join j i =>
    rw [relabel_join, lowerApplyAt, lowerApplyAt, Join.lowerApply?_relabel hf]
    cases j.lowerApply? with
    | none => exact (relabel_join j i).symm
    | some j' => exact (relabel_join j' none).symm
  | _ => rfl

/-- Applies become joins in the same places. -/
theorem Tree.lowerApplies_relabel (t : Tree) : (t.relabel f).lowerApplies = t.lowerApplies.relabel f := by
  have hlower : Coupling.plain.rel (Relabels f) (t.bottomUp fun u => pure u.lowerApplyAt)
      ((t.relabel f).bottomUp fun u => pure u.lowerApplyAt) :=
    bottomUp_relabel hf (fun u => (u.lowerApplyAt_relabel hf).symm) t
  exact hlower.symm

end Applies

/-! ## Lookups -/

def dropping (f : Alias → Alias) : Coupling (StateM (List (Alias × Alias))) :=
  .state fun d d' => d.map (Prod.map f f) = d'

section Lookups

variable (hf : Function.Injective f)

include hf

theorem Tree.similarLookup?_relabel (lookups : List Alias) (j : Join Tree) (t : Tree) :
    (t.relabel f).similarLookup? (lookups.map f) (j.relabel f) = (t.similarLookup? lookups j).map f := by
  induction t with
  | step t ih =>
    cases t with
    | join j' i =>
      obtain ⟨kind, l, r, c⟩ := j'
      have hl := ih l mem_cons_self
      have hr := ih r (.tail _ (.head _))
      have hpairs (a b : Alias) : equalOption (.ofPairs [(f a, f b)]) (c.map (relabel f))
            (j.condition.map (relabel f)) = equalOption (.ofPairs [(a, b)]) c j.condition :=
        equalOption_relabel (p := .ofPairs [(a, b)]) fun t _ => t.equalUnder_relabel hf
      simp only [relabel_join, Join.relabel, similarLookup?] at hl hr ⊢
      rw [hl, hr, Option.map_or, Option.map_or, label?_relabel, label?_relabel]
      congr 1
      cases r.label? with
      | none => rfl
      | some a =>
        cases j.right.label? with
        | none => rfl
        | some b =>
          simp only [Option.map_some, Option.bind_eq_bind, Option.bind_some, contains_map hf,
            equal_relabel hf, hpairs]
          split <;> rfl
    | _ => rfl

theorem dropRepeatedLookup_relabel (lookups : List Alias) (j : Join Tree) (i : Option Identity) :
    (dropping f).rel (Relabels f) (dropRepeatedLookup lookups j i)
      (dropRepeatedLookup (lookups.map f) (j.relabel f) i) := by
  have hkept : (dropping f).rel (Relabels f) (pure (.join j i)) (pure (.join (j.relabel f) i)) :=
    .pure (relabel_join j i)
  have hkind : (j.relabel f).kind = j.kind := rfl
  have hleft : (j.relabel f).left = j.left.relabel f := rfl
  have hright : (j.relabel f).right.label? = j.right.label?.map f := j.right.label?_relabel
  rw [dropRepeatedLookup, dropRepeatedLookup, hkind, hleft, hright]
  cases j.right.label? with
  | none => exact hkept
  | some label =>
    simp only [Option.map_some, contains_map hf, similarLookup?_relabel hf lookups j j.left]
    by_cases hlookup : (j.kind != .cross && lookups.contains label) = true
    · simp only [if_pos hlookup]
      cases j.left.similarLookup? lookups j with
      | none => exact hkept
      | some existing =>
        refine .bind (Coupling.state_modify ?_) fun _ _ _ => .pure rfl
        rintro dropped _ rfl
        rfl
    · simp only [if_neg hlookup]
      exact hkept

theorem Tree.dropRepeatedAt_relabel (lookups : List Alias) (t : Tree) :
    (dropping f).rel (Relabels f) (t.dropRepeatedAt lookups)
      ((t.relabel f).dropRepeatedAt (lookups.map f)) := by
  have hlookup (dropped : List (Alias × Alias)) (a : Alias) :
      (dropped.map (Prod.map f f)).lookup (f a) = (dropped.lookup a).map f := lookup_map hf f dropped a
  cases t with
  | join j i =>
    rw [relabel_join]
    exact dropRepeatedLookup_relabel hf lookups j i
  | column c =>
    refine .bind Coupling.state_get ?_
    rintro dropped _ rfl
    have hlabel : ((dropped.map (Prod.map f f)).lookup (f c.label)).getD (f c.label) =
        f ((dropped.lookup c.label).getD c.label) := by
      rw [hlookup, Option.getD_map]
    exact .pure (congrArg (fun a => column { c with label := a }) hlabel.symm)
  | _ =>
    refine .bind Coupling.state_get ?_
    rintro dropped _ rfl
    refine .pure (renewIf_relabel hf (fun c => ?_) _).symm
    show ((dropped.map (Prod.map f f)).lookup (f c.label) == some (f c.label)) = _
    rw [hlookup]
    exact beq_map (Option.map_injective hf) (dropped.lookup c.label) (some c.label)

/-- The same lookups are repeated. -/
theorem Tree.dropRepeatedLookups_relabel (lookups : List Alias) (t : Tree) :
    (t.relabel f).dropRepeatedLookups (lookups.map f) = (t.dropRepeatedLookups lookups).relabel f := by
  have hdropped : (dropping f).rel (Relabels f) (t.bottomUp (dropRepeatedAt lookups))
      ((t.relabel f).bottomUp (dropRepeatedAt (lookups.map f))) :=
    bottomUp_relabel hf (dropRepeatedAt_relabel hf lookups) t
  exact (hdropped [] [] rfl).1.symm

end Lookups

/-! ## Isolation -/

def Isolation.relabel (f : Alias → Alias) (st : Isolation) : Isolation where
  next := f st.next
  columns := st.columns.map (ColumnRef.rename f)
  replaced := st.replaced.map (Prod.map (ColumnRef.rename f) (ColumnRef.rename f))
  parent := st.parent

def isolating (f : Alias → Alias) (first : Alias) : Coupling (StateM Isolation) :=
  .state fun st st' => first ≤ st.next ∧ st.relabel f = st'

section Isolate

variable {first : Alias}

theorem columnsOf_relabel (hf : Function.Injective f) (sources : List Alias) (columns : List ColumnRef) :
    columnsOf (sources.map f) (columns.map (ColumnRef.rename f)) =
      (columnsOf sources columns).map (ColumnRef.rename f) := by
  rw [columnsOf, columnsOf, flatMap_map, map_flatMap]
  refine flatMap_congr fun a _ => ?_
  rw [filter_map]
  congr 2
  funext c
  exact beq_map hf c.label a

theorem followReplaced_relabel (hf : Function.Injective f) (replaced : List (ColumnRef × ColumnRef)) (n : Nat)
    (c : ColumnRef) :
    followReplaced (replaced.map (Prod.map (ColumnRef.rename f) (ColumnRef.rename f))) n (c.rename f) =
      (followReplaced replaced n c).rename f := by
  induction n generalizing c with
  | zero => rfl
  | succ n ih =>
    rw [followReplaced, followReplaced, lookup_map (ColumnRef.rename_injective hf)]
    cases replaced.lookup c with
    | none => rfl
    | some d => exact ih d

namespace Isolation

section

variable (hf : Function.Injective f) (st : Isolation) (u : Tree)
include hf st u

theorem named_relabel :
    (st.relabel f).named (u.relabel f) = (st.named u).map (Prod.map (ColumnRef.rename f) id) := by
  have hpicked : columnsOf (u.relabel f).sources (st.relabel f).columns =
      (columnsOf u.sources st.columns).map (ColumnRef.rename f) := by
    rw [sources_relabel]
    exact columnsOf_relabel hf u.sources st.columns
  rw [named, named, hpicked, map_map, zip_map_left]
  rfl

theorem wrapper_relabel :
    (st.relabel f).wrapper (u.relabel f) = (st.wrapper u).relabel f := by
  rw [Select.relabel_eq, wrapper, wrapper, named_relabel hf, map_map, map_map]
  rfl

theorem wrapping_relabel
    (succ : f (st.next + 1) = f st.next + 1) :
    (st.relabel f).wrapping (u.relabel f) = (st.wrapping u).relabel f := by
  have hnamed := named_relabel hf st u
  rw [wrapping, wrapping, hnamed, relabel, relabel]
  simp only [succ, map_append, map_map, map_reverse]
  rfl

end

end Isolation

theorem isolateJoin_relabel (hf : Renumbers f first) (t : Tree) :
    (isolating f first).rel (Relabels f) (isolateJoin t) (isolateJoin (t.relabel f)) := by
  rintro st _ ⟨hst, rfl⟩
  have hwrapper := wrapper_relabel hf.injective st t
  have hwrapping := wrapping_relabel hf.injective st t (hf.succ _ hst)
  rw [isolateJoin_run, isolateJoin_run, hwrapper, hwrapping]
  exact ⟨rfl, Nat.le_succ_of_le hst, rfl⟩

theorem Tree.readColumns_relabel (hf : Function.Injective f) (t : Tree) :
    (t.relabel f).readColumns = t.readColumns.map (ColumnRef.rename f) := by
  rw [readColumns, readColumns, ownColumns_relabel hf, allColumns_relabel hf,
    ← map_append, firstOccurrences_map (ColumnRef.rename_injective hf)]

theorem isolation_coupled (hf : Renumbers f first) : isolation.Coupled (isolating f first) f isolation := by
  refine ⟨fun t x y hxy => ?_, fun _ => .pure trivial⟩
  cases t with
  | select s i =>
    refine .bind Coupling.state_get ?_
    rintro saved _ ⟨hsaved, rfl⟩
    have hread := readColumns_relabel hf.injective (.select s i)
    refine .bind (Coupling.state_set ⟨hsaved, ?_⟩) fun _ _ _ => ?_
    · rw [hread]
      rfl
    refine .bind hxy ?_
    rintro u _ rfl
    refine .bind (Coupling.state_modify ?_) fun _ _ _ => .pure rfl
    rintro st _ ⟨hst, rfl⟩
    exact ⟨hst, rfl⟩
  | join j i =>
    rw [relabel_join]
    refine .bind Coupling.state_get ?_
    rintro saved _ ⟨hsaved, rfl⟩
    refine .bind (Coupling.state_set ⟨hsaved, rfl⟩) fun _ _ _ => ?_
    refine .bind hxy ?_
    rintro u _ rfl
    refine .bind (Coupling.state_modify ?_) fun _ _ _ => ?_
    · rintro st _ ⟨hst, rfl⟩
      exact ⟨hst, rfl⟩
    have hparent : mixes (j.relabel f).kind (saved.relabel f).parent = mixes j.kind saved.parent := rfl
    rw [hparent]
    split
    · exact isolateJoin_relabel hf u
    · exact .pure rfl
  | column c =>
    refine .bind Coupling.state_get ?_
    rintro st _ ⟨hst, rfl⟩
    have hfollow : followReplaced (st.relabel f).replaced ((st.relabel f).replaced.length + 1) (c.rename f) =
        (followReplaced st.replaced (st.replaced.length + 1) c).rename f := by
      rw [Isolation.relabel, length_map]
      exact followReplaced_relabel hf.injective st.replaced (st.replaced.length + 1) c
    exact .pure (congrArg Tree.column hfollow.symm)
  | _ => exact hxy

/-- The same joins are put into selects, which read the same columns. -/
theorem Tree.isolateCrossJoins_relabel (hf : Renumbers f first) (t : Tree) :
    (supplying f first).rel (Relabels f) t.isolateCrossJoins (t.relabel f).isolateCrossJoins := by
  rintro next _ ⟨hnext, rfl⟩
  have hvisit : (isolating f first).rel (Relabels f) (t.visit isolation) ((t.relabel f).visit isolation) :=
    visit_relabel hf.injective (isolation_coupled hf) t
  obtain ⟨ht, hst, hrelabel⟩ := hvisit ⟨next, [], [], none⟩ _ ⟨hnext, rfl⟩
  exact ⟨ht, hst, congrArg Isolation.next hrelabel⟩

end Isolate

end HiveQuery
