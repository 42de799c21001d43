import HiveQuery.Proofs.AppliedTrees
import HiveQuery.Proofs.DroppedLookups

/-!
# Results without repeated lookups

An outer join puts nulls in the place of its right side, so a lookup there does not stand in for one that is joined
further up.
-/

namespace HiveQuery
open List

variable {env : Environment} {lookups : List Alias} {dropped σ σ' : List (Alias × Alias)} {t u : Tree}

theorem Select.run_agree_of_dropRun {s : Select Tree} {i : Option Identity} {μ : Reads}
    {frames frames' : Frames} (h : (Tree.select s i).DropRun lookups dropped σ u σ')
    (nodup : (Tree.select s i).declared.Nodup) (tidy : (Tree.select s i).Tidy)
    (undropped : (Tree.select s i).Undropped σ) (replaceable : (Tree.select s i).Replaceable dropped)
    (hμ : μ.Reaches σ (.select s i)) (hframes : FramesMatch true μ frames frames')
    (unique : LookupsUnique env lookups (s.computedJoins env frames)) :
    ∃ s' j, u = .select s' j ∧ Run.Agree true Eq (s.run env frames) (s'.run env frames') := by
  obtain ⟨v, m, same, children, hstep⟩ := h.cases_node
  have hnodup : ∀ a ∈ s.clauses, a.declared.Nodup := fun a ha =>
    nodup.sublist (Tree.declared_of_child (t := .select s i) ha)
  have htidy : ∀ a ∈ s.clauses, a.Tidy := fun a ha => by
    obtain ⟨own, hp⟩ := Tree.exists_binding (t := .select s i) ha
    exact tidy.child nodup hp
  cases same with
  | @select _ s' _ j _ same =>
    obtain ⟨m', hdrops⟩ := drops_of_threaded same children (fun a ha _ _ _ hrun hundropped =>
      Tree.dropsTo_of_run hrun (hnodup a ha) (htidy a ha) hundropped) nodup undropped
    have hagree : Run.Agree true Eq (s.run env frames) (s'.run env frames') :=
      dropped_run_agree same hdrops nodup (fun a ha _ _ _ hrun hundropped =>
        Tree.dropsAlike_of_run hrun (hnodup a ha) (htidy a ha) hundropped
          (replaceable.child ha)) hμ hframes unique
    cases hstep with
    | kept _ hu =>
      rcases hu with rfl | rfl
      · exact ⟨s', j, rfl, hagree⟩
      · exact ⟨s', none, rfl, hagree⟩

theorem Reads.reaches_nil (t : Tree) : (same []).Reaches σ t :=
  ⟨fun _ hc => absurd hc not_mem_nil, fun _ _ => not_mem_nil, fun _ _ => not_mem_nil⟩

/-- Lookups match at most one row, each time that a query joins them. -/
def Tree.LookupsMatchOnce (env : Environment) (lookups : List Alias) (t : Tree) : Prop :=
  ∀ s ∈ t.query?, LookupsUnique env lookups (s.computedJoins env [])

instance (t : Tree) : Decidable (t.LookupsMatchOnce env lookups) :=
  inferInstanceAs (Decidable (∀ s ∈ t.query?, LookupsUnique env lookups (s.computedJoins env [])))

/-- A query gives the same relation without lookups that can be replaced. -/
theorem Tree.dropRepeatedLookups_agree (nodup : t.declared.Nodup) (tidy : t.Tidy)
    (replaceable : t.Replaceable (t.standIns lookups)) (unique : t.LookupsMatchOnce env lookups) :
    Run.Agree true Eq (t.run env) ((t.dropRepeatedLookups lookups).run env) := by
  have hframes : FramesMatch true (.same []) [] [] := .same true fun _ h => absurd h not_mem_nil
  have hrun := t.dropRepeatedLookups_dropRun lookups
  generalize t.dropRepeatedLookups lookups = u, t.standIns lookups = dropped at hrun replaceable
  cases t with
  | select s i =>
    obtain ⟨s', j, rfl, hagree⟩ := Select.run_agree_of_dropRun hrun nodup tidy (fun _ _ => rfl) replaceable
      (Reads.reaches_nil _) hframes (unique s rfl)
    exact hagree
  | projection q shape i =>
    cases q with
    | select s j =>
      have hq : select s j ∈ (projection (.select s j) shape i).children := mem_cons_self
      obtain ⟨own, hp⟩ := exists_binding hq
      obtain ⟨v, m, same, children, hstep⟩ := hrun.cases_node
      cases same with
      | projection =>
        cases children with
        | cons head _ =>
          obtain ⟨s', j', rfl, hagree⟩ := Select.run_agree_of_dropRun head
            (nodup.sublist (declared_of_child hq)) (tidy.child nodup hp) (fun _ _ => rfl)
            (replaceable.child hq) (Reads.reaches_nil _) hframes (unique s rfl)
          cases hstep with
          | kept _ hu =>
            rcases hu with rfl | rfl
            · exact hagree
            · exact hagree
    | _ => exact .of_error
  | _ => exact .of_error

/-! ## Joins that are nested on the left -/

/-- No join has a join on its right side. -/
def Tree.LeftDeep (t : Tree) : Prop :=
  t.Every fun u => ∀ j ∈ u.join?, j.right.isJoin = false

instance (t : Tree) : Decidable t.LeftDeep :=
  inferInstanceAs (Decidable (t.Every _))

theorem Tree.aliases_of_not_join (h : t.isJoin = false) : t.joinedAliases = [] ∧ t.extendedAliases = [] := by
  cases t with
  | join => cases h
  | _ => exact ⟨rfl, rfl⟩

theorem Tree.LeftDeep.extendedAliases (h : t.LeftDeep) : t.extendedAliases = [] := by
  induction t with
  | step t ih =>
    obtain ⟨hnode, hchildren⟩ := every_iff.1 h
    cases t with
    | join j i =>
      obtain ⟨kind, l, r, c⟩ := j
      obtain ⟨hjoined, hextended⟩ := aliases_of_not_join (hnode _ rfl)
      rw [Tree.extendedAliases, ih l mem_cons_self (hchildren l mem_cons_self), hjoined, hextended,
        ite_self, append_nil]
    | _ => rfl

theorem Tree.LeftDeep.replaceable (h : t.LeftDeep) (hexact : t.IsExact) : t.Replaceable dropped := by
  induction t with
  | step t ih =>
    have hchildren := (every_iff.1 h).2
    have hexact := (every_iff.1 hexact).2
    refine every_iff.2 ⟨fun j hj p _ _ => ?_, fun a ha => ih a ha (hchildren a ha) (hexact a ha)⟩
    cases t with
    | join j' i =>
      cases hj
      refine ⟨fun a ha => hexact a (.tail _ ha), ?_⟩
      rw [extendedAliases (hchildren _ mem_cons_self)]
      exact not_mem_nil
    | _ => cases hj

/-- Dropping the repeated lookups of a query whose joins are all nested on the left keeps its relation. -/
theorem Tree.dropRepeatedLookups_run_leftDeep (t : Tree) (nodup : t.declared.Nodup)
    (hchecks : t.checkScopes = .ok ()) (hexact : t.IsExact) (hdeep : t.LeftDeep) (lookups : List Alias)
    (env : Environment) (unique : t.LookupsMatchOnce env lookups) (r : Relation)
    (hrun : t.run env = .ok r) : (t.dropRepeatedLookups lookups).run env = .ok r := by
  have hagree := dropRepeatedLookups_agree nodup (tidy_of_checkScopes hchecks)
    (hdeep.replaceable hexact) unique
  exact hagree.ok_of_ok hrun

/-- Orders, the people who made them and what was ordered. The customer of the last order is not known. -/
def sampleShop : Environment where
  dataset :=
    [("orders", ⟨["id", "customer"], [[.int 1, .int 7], [.int 2, .int 8], [.int 3, .int 9]]⟩),
      ("customers", ⟨["id", "name"], [[.int 8, .string "Ada"], [.int 7, .string "Bob"]]⟩),
      ("items", ⟨["order", "item"],
        [[.int 1, .string "pen"], [.int 3, .string "ink"], [.int 1, .string "ink"]]⟩)]
  arguments := []

def matchingKeys (a : Alias) (column : String) (b : Alias) (column' : String) : Tree :=
  .binary .equal (intColumn a column).value (intColumn b column').value

/-- The items of orders whose customers made no other one. Customers are looked up twice. -/
def orderedItems : Tree :=
  .select
    { label := 6
      columns := [intColumn 0 "id", stringColumn 2 "item", stringColumn 3 "name"]
      source := some (.join
        { kind := .leftOuter
          left := .join
            { kind := .inner
              left := .join ⟨.leftOuter, .table 0 "orders", .table 1 "customers",
                some (matchingKeys 1 "id" 0 "customer")⟩ none
              right := .table 2 "items"
              condition := some (matchingKeys 2 "order" 0 "id") } none
          right := .table 3 "customers"
          condition := some (matchingKeys 3 "id" 0 "customer") } none)
      filter := some (.unary .not (.existsSubquery (.select
        { label := 5
          columns := []
          source := some (.table 4 "orders")
          filter := some (.binary .and (matchingKeys 4 "customer" 3 "id")
            (.unary .not (matchingKeys 4 "id" 0 "id"))) } none))) }
    none

theorem dropRepeatedLookups_run_orderedItems :
    orderedItems.declared.Nodup ∧ orderedItems.checkScopes = .ok () ∧ orderedItems.IsExact ∧
      orderedItems.LeftDeep ∧ orderedItems.LookupsMatchOnce sampleShop [1, 3] ∧
      orderedItems.standIns [1, 3] = [(3, 1)] ∧
      (orderedItems.dropRepeatedLookups [1, 3]).run sampleShop = .ok ⟨["id", "item", "name"],
        [[.int 1, .string "pen", .string "Bob"], [.int 1, .string "ink", .string "Bob"],
          [.int 3, .string "ink", .null]]⟩ := by
  have nodup : orderedItems.declared.Nodup := by decide
  have hexact : orderedItems.IsExact := by decide
  have hdeep : orderedItems.LeftDeep := by decide
  have unique : orderedItems.LookupsMatchOnce sampleShop [1, 3] := by decide
  exact ⟨nodup, rfl, hexact, hdeep, unique, rfl,
    Tree.dropRepeatedLookups_run_leftDeep orderedItems nodup rfl hexact hdeep [1, 3] sampleShop unique _ rfl⟩

/-! ## Joins that are nested on the right -/

/-- Dropping the repeated lookups of a query keeps its relation, where no lookup is read in place of
another one that an outer join extends by nulls. Each join has a condition of its own. -/
theorem Tree.dropRepeatedLookups_run_replaceable (t : Tree) (nodup : t.declared.Nodup)
    (hchecks : t.checkScopes = .ok ()) (lookups : List Alias)
    (replaceable : t.Replaceable (t.standIns lookups)) (env : Environment)
    (unique : t.LookupsMatchOnce env lookups) (r : Relation) (hrun : t.run env = .ok r) :
    (t.dropRepeatedLookups lookups).run env = .ok r := by
  have hagree := dropRepeatedLookups_agree nodup (tidy_of_checkScopes hchecks) replaceable unique
  exact hagree.ok_of_ok hrun

/-- Items with their customers, where a customer is looked up beside the order of an item and once more after both. -/
def customersOfItems : Tree :=
  .select
    { label := 6
      columns := [stringColumn 0 "item", stringColumn 3 "name", intColumn 5 "id"]
      source := some (.join
        { kind := .leftOuter
          left := .join
            { kind := .leftOuter
              left := .join
                { kind := .inner
                  left := .table 0 "items"
                  right := .join ⟨.leftOuter, .table 1 "orders", .table 2 "customers",
                    some (matchingKeys 2 "id" 1 "customer")⟩ none
                  condition := some (matchingKeys 1 "id" 0 "order") } none
              right := .join ⟨.leftOuter, .table 4 "customers", .table 5 "orders",
                some (matchingKeys 5 "customer" 4 "id")⟩ none
              condition := some (matchingKeys 4 "id" 0 "order") } none
          right := .table 3 "customers"
          condition := some (matchingKeys 3 "id" 1 "customer") } none) }
    none

theorem dropRepeatedLookups_run_customersOfItems :
    customersOfItems.declared.Nodup ∧ customersOfItems.checkScopes = .ok () ∧
      customersOfItems.standIns [2, 3, 5] = [(3, 2)] ∧
      customersOfItems.Replaceable (customersOfItems.standIns [2, 3, 5]) ∧
      customersOfItems.LookupsMatchOnce sampleShop [2, 3, 5] ∧
      (customersOfItems.dropRepeatedLookups [2, 3, 5]).run sampleShop = .ok ⟨["item", "name", "id"],
        [[.string "pen", .string "Bob", .null], [.string "ink", .null, .null],
          [.string "ink", .string "Bob", .null]]⟩ := by
  have nodup : customersOfItems.declared.Nodup := by decide
  have replaceable : customersOfItems.Replaceable (customersOfItems.standIns [2, 3, 5]) := by decide
  have unique : customersOfItems.LookupsMatchOnce sampleShop [2, 3, 5] := by decide
  exact ⟨nodup, rfl, rfl, replaceable, unique, Tree.dropRepeatedLookups_run_replaceable customersOfItems nodup
    rfl [2, 3, 5] replaceable sampleShop unique _ rfl⟩

/-- Orders, with an item of theirs and a customer. The outer join extends a lookup of the customer by nulls. -/
def customersBesideItems : Tree :=
  .select
    { label := 4
      columns := [intColumn 0 "id", stringColumn 3 "name"]
      source := some (.join
        { kind := .leftOuter
          left := .join
            { kind := .leftOuter
              left := .table 0 "orders"
              right := .join ⟨.leftOuter, .table 1 "items", .table 2 "customers",
                some (.binary .equal (intColumn 2 "id").value (.constant (.int 7)))⟩ none
              condition := some (matchingKeys 1 "order" 0 "id") } none
          right := .table 3 "customers"
          condition := some (.binary .equal (intColumn 3 "id").value (.constant (.int 7))) } none) }
    none

-- the lookup that stays is null for the second order
example : customersBesideItems.standIns [2, 3] = [(3, 2)] ∧
    ¬ customersBesideItems.Replaceable [(3, 2)] ∧
    (customersBesideItems.run sampleShop).toOption.map (·.rows) =
      some [[.int 1, .string "Bob"], [.int 1, .string "Bob"], [.int 2, .string "Bob"],
        [.int 3, .string "Bob"]] ∧
    ((customersBesideItems.dropRepeatedLookups [2, 3]).run sampleShop).toOption.map (·.rows) =
      some [[.int 1, .string "Bob"], [.int 1, .string "Bob"], [.int 2, .null], [.int 3, .string "Bob"]] :=
  ⟨rfl, by decide, rfl, rfl⟩

end HiveQuery
