import HiveQuery.Proofs.IsolatedScopes
import HiveQuery.Proofs.KeptForms
import HiveQuery.Proofs.PagingScopes
import HiveQuery.Proofs.RepeatedLookups

/-!
# Lowerings keep references in scope

Where a lowering drops or wraps a source, the columns of that source are read from another source that is in scope
wherever they were.
-/

namespace HiveQuery

variable {d : ColumnRef}
open HiveQuery.Tree Select

variable {n : Alias} {t u : Tree}

/-! ## Applies -/

theorem Tree.Rerouted.label? {Q : ColumnRef → ColumnRef → Prop} (h : t.Rerouted Q u) :
    u.label? = t.label? := by
  cases h with
  | column => rfl
  | node _ same _ => exact same.label?

theorem Tree.Rerouted.needs {Q : ColumnRef → ColumnRef → Prop} (h : t.Rerouted Q u)
    (kept : ∀ c d, Q c d → c.label ∈ t.declared → d = c) (hd : u.Needs d) : ∃ c, t.Needs c ∧ Q c d := by
  induction t generalizing u with
  | step t ih =>
    cases h with
    | column hcd =>
      rw [needs_column.1 hd]
      exact ⟨_, .column, hcd⟩
    | node column same children =>
      obtain ⟨q, hq, hlabel, hd⟩ := hd.cases_node (same.column?.trans column)
      obtain ⟨p, hp, hscope, hrerouted⟩ := forall₂_mem_right ((same.of_children children).bindings
        (fun _ _ h => h.sources) fun _ _ h => h.label?) hq
      have hchild := mem_children_of_bindings hp
      obtain ⟨c, hc, hcd⟩ := ih p.2 hchild hrerouted (fun c d hcd hc => kept c d hcd
        ((declared_of_child hchild).subset hc)) hd
      refine ⟨c, .child hp (fun hmem => hlabel ?_) hc, hcd⟩
      rwa [hscope, kept c d hcd (mem_declared_of_bindings hp _ hmem)]

theorem FilterPulled.needs {s : Select Tree} {i : Option Identity} {c : Option Tree}
    {columns : List (Column Tree)} (h : FilterPulled s c columns) (nodup : (select s i).declared.Nodup)
    (hd : ∃ f ∈ c, f.Needs d) : d.label = s.label ∨ (select s i).Needs d := by
  obtain ⟨f', hf', hd⟩ := hd
  cases h with
  | none => cases hf'
  | @some f u columns filter run =>
    cases hf'
    have hothers : f ∈ s.others := by simp [others, clauses, filter]
    have hapart : ∀ a ∈ s.sourceAliases, a ∉ f.declared :=
      bindings_apart nodup (List.mem_append_right _ (List.mem_map_of_mem hothers))
    have hkept : ∀ c d, Projects s.sourceAliases s.label columns c d → c.label ∈ f.declared → d = c := by
      rintro c d (⟨-, rfl⟩ | ⟨hlabel, -⟩) hc
      · rfl
      · exact absurd hc (hapart _ hlabel)
    obtain ⟨c, hc, ⟨hlabel, rfl⟩ | ⟨-, hlabel, -⟩⟩ := (projectFilter_run run).2.needs hkept hd
    · exact .inr (needs_iff.2 (.inr ⟨hlabel, f, hothers, hc⟩))
    · exact .inl hlabel

theorem appliedJoin_needs {kind : JoinKind} {c : Option Tree} (h : ∃ f ∈ (appliedJoin kind c).2, f.Needs d) :
    ∃ f ∈ c, f.Needs d := by
  obtain ⟨f, hf, hd⟩ := h
  rcases mem_appliedJoin (Option.mem_toList.2 hf) with hf | rfl
  · exact ⟨f, Option.mem_toList.1 hf, hd⟩
  · obtain ⟨_, hp, -⟩ := hd.cases_node rfl
    cases hp

theorem LowersApply.covers (h : LowersApply t u) (nodup : t.declared.Nodup) : t.Covers n u := by
  have hdeclared : ∀ a ∈ u.declared, a ∈ t.declared ∨ n ≤ a := fun a ha =>
    .inl (h.declared.mem_iff.1 ha)
  have hlabel : u.label? = t.label? := by
    cases h <;> rfl
  refine ⟨h.sources, hlabel, fun x hx => .inr ?_, hdeclared⟩
  cases h with
  | kept => exact hx
  | table l a name i apply =>
    rcases needs_join_iff.1 hx with hx | ⟨-, hx⟩ | ⟨-, hx⟩
    · exact needs_join_iff.2 (.inl hx)
    · obtain ⟨_, hp, -⟩ := hx.cases_node rfl
      cases hp
    · obtain ⟨_, hf, -⟩ := appliedJoin_needs hx
      cases hf
  | @select kind l s c columns i j apply plain unread pulled =>
    have hright : Tree.select s j ∈ (Tree.join ⟨kind, l, .select s j, none⟩ i).children := .tail _ (.head _)
    have hnodup := nodup.sublist (declared_of_child hright)
    -- what the select needs without its filter does not refer to the left side
    have hneeds : ∀ x, (Tree.select s j).Needs x → x.label ∉ l.sources →
        (Tree.join ⟨kind, l, .select s j, none⟩ i).Needs x := fun x hx hl =>
      needs_join_iff.2 (.inr (.inl ⟨fun _ => hl, hx⟩))
    have hunfiltered : ∀ x, (Tree.select { s with filter := none } none).Needs x →
        (Tree.join ⟨kind, l, .select s j, none⟩ i).Needs x := by
      intro x hx
      refine hneeds x ?_ fun hmem => unread _ hmem hx.mem_referenced
      rcases needs_iff.1 hx with hx | ⟨hlabel, a, ha, hx⟩
      · exact needs_iff.2 (.inl hx)
      · refine needs_iff.2 (.inr ⟨hlabel, a, ?_, hx⟩)
        simp only [others, clauses, List.mem_append] at ha ⊢
        tauto
    rcases needs_join_iff.1 hx with hx | ⟨-, hx⟩ | ⟨hlabel, hx⟩
    · exact needs_join_iff.2 (.inl hx)
    · obtain ⟨extra, rfl, hextra⟩ := pulled.grow.split
      rcases needs_iff.1 hx with hx | ⟨hlabel, a, ha, hx⟩
      · exact hunfiltered x (needs_iff.2 (.inl hx))
      · have ha : a ∈ (({ s with filter := none } : Select Tree).widen extra).others := ha
        rcases mem_others_widen.1 ha with ha | ⟨e, he, rfl⟩
        · exact hunfiltered x (needs_iff.2 (.inr ⟨hlabel, a, ha, hx⟩))
        · obtain ⟨d, hd, hinner⟩ := hextra e he
          rw [hd] at hx
          rw [needs_column.1 hx] at hlabel
          exact absurd hinner hlabel
    · rw [List.mem_append, not_or] at hlabel
      rcases pulled.needs hnodup (appliedJoin_needs hx) with hx | hx
      · exact absurd (List.mem_singleton.2 hx) hlabel.2
      · exact hneeds x hx hlabel.1

/-- A tree without applies needs what the tree needs. -/
theorem Tree.lowerApplies_covers (nodup : t.declared.Nodup) : t.Covers n t.lowerApplies := by
  induction t with
  | step t ih =>
    obtain ⟨v, same, hlowers⟩ := t.lowerApplies_node
    have hsame : t.SameNode (fun a b => a.Covers n b ∧ b.declared.Perm a.declared) v :=
      same.imp fun a b ha hab => by
        subst hab
        exact ⟨ih a ha (nodup.sublist (declared_of_child ha)), a.lowerApplies_declared⟩
    have hv : v.declared.Perm t.declared := hsame.declared fun _ _ h => h.2
    exact (hsame.imp fun _ _ _ h => h.1).covers.trans (hlowers.covers (hv.nodup_iff.2 nodup))

/-! ## All lowerings -/

/-- A query that is accepted is accepted after every lowering that gives a result: applies that become
joins, lookups that are dropped, cross joins that are put into selects, skipped rows that are numbered or
cut off by nested orders, and folded constants. -/
theorem Tree.checkScopes_lowered {t : Tree} {next : Alias} (nodup : t.declared.Nodup)
    (below : ∀ a ∈ t.declared, a < next) (placed : t.JoinsInSources) (join : t.isJoin = false)
    (bounds : t.BoundsApart) (accepted : t.checkScopes = .ok ()) :
    t.lowerApplies.checkScopes = .ok () ∧
      (∀ lookups, (t.dropRepeatedLookups lookups).checkScopes = .ok ()) ∧
      (∀ u next', t.isolateCrossJoins.run next = (u, next') → u.checkScopes = .ok ()) ∧
      (∀ u next', t.lowerByRowNumber.Gives next u next' → u.checkScopes = .ok ()) ∧
      (∀ u next', t.lowerByNesting.Gives next u next' → u.checkScopes = .ok ()) ∧
      ∀ u, t.fold = .ok u → u.checkScopes = .ok () := by
  have hnone := checkScopes_iff.1 accepted
  have settled : t.Settled next := ⟨nodup, tidy_of_checkScopes accepted, fun c hc => absurd hc (hnone c), below⟩
  refine ⟨?_, fun lookups => ?_, fun u next' h => ?_, fun u next' h => ?_, fun u next' h => ?_, fun u h => ?_⟩
  · exact (lowerApplies_covers (n := next) nodup).checkScopes accepted
  · exact checkScopes_iff.2 fun c hc =>
      hnone c (dropRepeatedLookups_needs lookups nodup settled.tidy hc)
  · exact checkScopes_iff.2 fun c hc =>
      hnone c (isolateCrossJoins_needs settled placed join h hc)
  · exact (lowerSkips_covers numberRows_lowersWithin numberRows_ascends settled bounds
      le_rfl h).checkScopes accepted
  · exact (lowerSkips_covers nestOrders_lowersWithin nestOrders_ascends settled bounds
      le_rfl h).checkScopes accepted
  · exact (fold_covers (n := next) h).checkScopes accepted

/-- Items with the places and numbers of their sales, past the first one. The sales are looked up twice, next to a
cross join, and the stores are read from an apply. -/
def pagedSales : Tree :=
  let sold (sale : Alias) : Tree := .binary .and
    (.binary .equal (stringColumn 0 "city").value (stringColumn sale "place").value)
    (.binary .equal (stringColumn 1 "item").value (stringColumn sale "item").value)
  let named : Select Tree :=
    { label := 5, columns := [stringColumn 4 "name"], source := some (.table 4 "names")
      filter := some (.binary .equal (stringColumn 4 "city").value (stringColumn 0 "city").value) }
  .select
    { label := 6
      columns := [stringColumn 0 "city", stringColumn 2 "place", stringColumn 3 "number",
        stringColumn 5 "name"]
      source := some (.join ⟨.outerApply,
        .join ⟨.leftOuter,
          .join ⟨.leftOuter, .join ⟨.cross, .table 0 "stores", .table 1 "items", none⟩ none,
            .table 2 "sales", some (sold 2)⟩ none,
          .table 3 "sales", some (sold 3)⟩ none,
        .select named none, none⟩ none)
      order := [⟨.ascending, (stringColumn 1 "item").value⟩]
      skip := some (.int 1) }
    none

theorem checkScopes_lowered_pagedSales :
    pagedSales.declared.Nodup ∧ (∀ a ∈ pagedSales.declared, a < 7) ∧ pagedSales.JoinsInSources ∧
      pagedSales.isJoin = false ∧ pagedSales.BoundsApart ∧ pagedSales.checkScopes = .ok () ∧
      (∃ u next', pagedSales.lowerByRowNumber.Gives 7 u next' ∧ u.checkScopes = .ok ()) ∧
      (∃ u next', pagedSales.lowerByNesting.Gives 7 u next' ∧ u.checkScopes = .ok ()) ∧
      (∃ u, pagedSales.fold = .ok u ∧ u.checkScopes = .ok ()) := by
  have nodup : pagedSales.declared.Nodup := by decide
  have below : ∀ a ∈ pagedSales.declared, a < 7 := by decide
  have placed : pagedSales.JoinsInSources := by decide
  have bounds : pagedSales.BoundsApart := by decide
  have accepted : pagedSales.checkScopes = .ok () := by decide
  obtain ⟨w, hw⟩ : ∃ u, pagedSales.fold = .ok u := ⟨_, rfl⟩
  obtain ⟨-, -, -, hnumbered, hnested, hfolded⟩ := checkScopes_lowered nodup below placed rfl bounds accepted
  refine ⟨nodup, below, placed, rfl, bounds, accepted, ?_, ?_, w, hw, hfolded w hw⟩
  · exact Lowering.exists_gives_and (by decide +kernel) (hnumbered _ _)
  · exact Lowering.exists_gives_and (by decide +kernel) (hnested _ _)

end HiveQuery
