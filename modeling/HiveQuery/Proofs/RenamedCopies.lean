import HiveQuery.Proofs.Relabeling
import HiveQuery.Proofs.Similarity

/-!
# Copies that differ in their aliases only

A copy with fresh aliases is the tree under other names, and nothing else differs.
-/

namespace HiveQuery
open List

variable {f : Alias → Alias} {p : Pairing} {scope names : List Alias} {t : Tree} {a : Alias}

/-! ## Equality up to aliases -/

structure Pairing.Renames (p : Pairing) (f : Alias → Alias) (scope : List Alias) : Prop where
  pairs : ∀ q ∈ p.pairs, q.2 = f q.1
  known : ∀ a ∈ scope, a ∈ p.pairs.map Prod.fst

namespace Pairing.Renames

theorem mono {scope' : List Alias} (h : p.Renames f scope) (sub : ∀ a ∈ scope', a ∈ scope) :
    p.Renames f scope' :=
  ⟨h.pairs, fun a ha => h.known a (sub a ha)⟩

theorem apply (h : p.Renames f scope) (ha : a ∈ scope ∨ f a = a) : p.matches a (f a) = true := by
  rw [Pairing.matches]
  cases hlookup : p.pairs.lookup a with
  | some b =>
    obtain ⟨before, after, hsplit, -⟩ := lookup_eq_some_iff.1 hlookup
    have hb : b = f a := h.pairs (a, b) (by rw [hsplit]; simp)
    exact beq_iff_eq.2 hb
  | none =>
    rcases ha with ha | ha
    · obtain ⟨q, hq, rfl⟩ := mem_map.1 (h.known a ha)
      exact absurd (lookup_eq_none_iff.1 hlookup q hq) (by simp)
    · exact beq_iff_eq.2 ha.symm

theorem extend (h : p.Renames f scope) (same : Bool) (t : Tree) :
    (p.extend same t (t.rename f)).Renames f (t.sources ++ scope) := by
  have hnew : t.sources.zip (t.rename f).sources = t.sources.map fun a => (a, f a) := by
    rw [(Renaming.rename f).sources, zip_map_right, zip_eq_zipWith, zipWith_self, map_map]
    rfl
  refine ⟨fun q hq => ?_, fun a ha => ?_⟩
  · rw [Pairing.extend, hnew, mem_append, mem_reverse] at hq
    rcases hq with hq | hq
    · obtain ⟨a, -, rfl⟩ := mem_map.1 hq
      rfl
    · exact h.pairs q hq
  · rw [Pairing.extend, hnew, map_append, map_reverse, map_map, mem_append, mem_reverse]
    exact (mem_append.1 ha).imp (fun ha => mem_map.2 ⟨a, ha, rfl⟩) (h.known a)

theorem extendOption (h : p.Renames f scope) (same : Bool) (s : Select Tree) :
    (p.extendOption same s.source (s.source.map (Tree.rename f))).Renames f (s.sourceAliases ++ scope) := by
  unfold Select.sourceAliases
  cases s.source with
  | none => exact h
  | some t => exact h.extend same t

end Pairing.Renames

/-- A renamed tree equals the tree under the pairs of old and new aliases. -/
theorem Tree.equalUnder_rename (defined : t.Every fun u => u.isUndefined = false) (hp : p.Renames f scope)
    (needs : ∀ c, t.Needs c → c.label ∈ scope ∨ f c.label = c.label) : t.equalUnder p (t.rename f) = true := by
  induction t generalizing p scope with
  | step t ih =>
    obtain ⟨hnode, hchildren⟩ := every_iff.1 defined
    have hchild : ∀ q ∈ t.bindings, ∀ {p' : Pairing}, p'.Renames f (q.1 ++ scope) →
        q.2.equalUnder p' (q.2.rename f) = true := by
      intro q hq p' hp'
      have hmem := mem_children_of_bindings hq
      refine ih q.2 hmem (hchildren q.2 hmem) hp' fun c hc => ?_
      by_cases hlabel : c.label ∈ q.1
      · exact .inl (mem_append_left _ hlabel)
      · exact (needs c (.child hq hlabel hc)).imp_left (mem_append_right _)
    obtain ⟨v, same, hrename⟩ := t.rename_node f
    rw [equalUnder_iff, hrename]
    have hordinary : t.bindings = t.children.map ([], ·) →
        t.SameNode (fun a b => a.equalUnder p b = true) v := fun hbindings => same.imp fun a b ha hab => by
      rw [hab]
      exact hchild ([], a) (hbindings ▸ mem_map_of_mem ha) hp
    cases same with
    | constant v => exact .constant (Value.beq_self hnode)
    | undefined => cases hnode
    | table a name => exact .table a (f a) name
    | column c => exact .column rfl (hp.apply (needs c .column))
    | aggregate kind distinct type h =>
      cases hordinary rfl with
      | aggregate _ _ _ h => exact .aggregate kind distinct type type h
    | @select s s' i j label clauses =>
      have hsource : s'.source = s.source.map (rename f) := by
        have hrel := clauses.source
        generalize s.source = o, s'.source = o' at hrel
        cases hrel with
        | none => rfl
        | some h => exact congrArg some h
      have hinner := hp.extendOption (sameQuery i none) s
      rw [← hsource] at hinner
      have hclauses := (clauses.imp (fun _ _ _ _ => trivial) fun _ _ _ _ => trivial).of_others
        (option_rel_imp clauses.source fun a b ha hab => hab ▸ hchild ([], a)
          (mem_append_left _ (mem_map_of_mem (Option.mem_toList.2 ha))) hp)
        (forall₂_imp_mem clauses.others fun a b ha hab => hab ▸ hchild (s.sourceAliases, a)
          (mem_append_right _ (mem_map_of_mem ha)) hinner)
      exact .select i none { hclauses with }
    | @join kind l r _ _ c c' i j hl hr hc =>
      subst hl hr
      refine .join kind i none (hchild ([], l) mem_cons_self hp)
        (hchild _ (.tail _ (.head _)) ?_) (option_rel_imp hc fun a b ha hab => hab ▸ hchild
          (l.sources ++ r.sources, a)
          (.tail _ (.tail _ (mem_map_of_mem (Option.mem_toList.2 ha)))) ?_)
      · cases kind.isApply with
        | false => exact hp
        | true => exact hp.extend _ l
      · refine ((hp.extend _ l).extend _ r).mono fun a ha => ?_
        simp only [mem_append] at ha ⊢
        tauto
    | @projection q x _ _ i j hq hx =>
      subst hq hx
      refine .projection i none (hchild ([], q) mem_cons_self hp)
        (hchild (q.label?.toList, x) (.tail _ (.head _)) ((hp.extend _ q).mono fun a ha => ?_))
      refine (mem_append.1 ha).elim (fun ha => mem_append_left _ ?_) (mem_append_right _)
      rw [sources_of_label (Option.mem_toList.1 ha)]
      exact mem_singleton_self a
    | _ => exact .ordinary rfl (hordinary rfl)

theorem Tree.equal_rename (defined : t.Every fun u => u.isUndefined = false)
    (free : ∀ c, t.Needs c → f c.label = c.label) : t.equal (t.rename f) = true := by
  have hp : (Pairing.ofPairs []).Renames f [] := ⟨nofun, nofun⟩
  exact equalUnder_rename defined hp fun c hc => .inr (free c hc)

/-! ## What a copy needs -/

/-- A renamed tree needs the renamed columns. -/
theorem Tree.Needs.rename {c : ColumnRef} (inj : Separates f names) (known : ∀ a ∈ t.declared, a ∈ names)
    (hc : c.label ∈ names) (h : t.Needs c) : (t.rename f).Needs (c.rename f) := by
  induction h with
  | column => exact .column
  | @child t p hp hlabel h ih =>
    refine .child (p := (p.1.map f, p.2.rename f)) ?_ ?_ (ih fun a ha => known a ?_)
    · rw [(Renaming.rename f).bindings]
      exact mem_map_of_mem hp
    · exact inj.not_mem_map (fun a ha => known a (mem_declared_of_bindings hp a ha)) hc hlabel
    · exact (declared_of_child (mem_children_of_bindings hp)).subset ha

theorem Separates.mono {names' : List Alias} (inj : Separates f names) (sub : names' ⊆ names) :
    Separates f names' :=
  fun a ha b hb => inj a (sub ha) b (sub hb)

/-- Aliases that were kept apart can be taken back. -/
theorem Separates.exists_back (inj : Separates f names) : ∃ g : Alias → Alias, ∀ a ∈ names, g (f a) = a := by
  refine ⟨fun b => (names.find? fun a => f a == b).getD b, fun a ha => ?_⟩
  show (names.find? fun x => f x == f a).getD (f a) = a
  cases hfind : names.find? fun x => f x == f a with
  | none => exact absurd (find?_eq_none.1 hfind a ha) (by simp)
  | some x => exact inj x (mem_of_find?_eq_some hfind) a ha (by simpa using find?_some hfind)

/-! ## Copies -/

section Copies

variable {e copy : Tree} {k k' : Alias}

theorem Separates.append {declared : List Alias} (inj : Separates f declared)
    (fixed : ∀ a, a ∉ declared → f a = a) (apart : ∀ a ∈ names, a ∉ declared.map f) :
    Separates f (declared ++ names) := by
  have hkept : ∀ a ∈ declared, ∀ b ∈ declared ++ names, b ∉ declared → f a ≠ f b := by
    intro a ha b hb hbd h
    rw [fixed b hbd] at h
    exact apart b ((mem_append.1 hb).resolve_left hbd) (mem_map.2 ⟨a, ha, h⟩)
  intro a ha b hb h
  by_cases had : a ∈ declared
  · by_cases hbd : b ∈ declared
    · exact inj a had b hbd h
    · exact absurd h (hkept a had b hb hbd)
  · by_cases hbd : b ∈ declared
    · exact absurd h.symm (hkept b hbd a ha had)
    · rwa [fixed a had, fixed b hbd] at h

theorem Select.run_rename_iff {s s' : Select Tree} {i j : Option Identity}
    (hs' : (Tree.select s i).rename f = .select s' j) (inj : Separates f ((Tree.select s i).aliases ++ scope))
    (fixed : ∀ a ∈ scope, f a = a) {env : Environment} {frames : Frames} (hframes : frames.Within scope)
    (r : Relation) : s.run env frames = .ok r ↔ s'.run env frames = .ok r := by
  have hforth : (Tree.select s i).Similar f (.select s' j) := hs' ▸ Tree.similar_rename f _
  obtain ⟨g, hg⟩ := inj.exists_back
  have hback : (Tree.select s' j).Similar g (.select s i) := hforth.symm fun w hw =>
    ⟨fun a ha => hg a (mem_append_left _ (Tree.mem_aliases.2 ⟨w, hw, .inl ha⟩)),
      fun c hc => hg _ (mem_append_left _ (Tree.mem_aliases.2 ⟨w, hw, .inr ⟨c, hc, rfl⟩⟩))⟩
  have himage : ∀ x ∈ (Tree.select s' j).declared ++ scope, f (g x) = x := by
    intro x hx
    rw [← hs', (Renaming.rename f).declared] at hx
    rcases mem_append.1 hx with hx | hx
    · obtain ⟨a, ha, rfl⟩ := mem_map.1 hx
      rw [hg a (mem_append_left _ (mem_append_left _ ha))]
    · have hgx := hg x (mem_append_right _ hx)
      rw [fixed x hx] at hgx
      rw [hgx, fixed x hx]
  constructor
  · obtain ⟨_, _, ⟨⟩, hrun⟩ := run_of_similar hforth
    exact hrun (inj.mono (append_subset.2
      ⟨fun _ ha => mem_append_left _ (mem_append_left _ ha), subset_append_right _ _⟩)) fixed hframes
  · obtain ⟨_, _, ⟨⟩, hrun⟩ := run_of_similar hback
    refine hrun (fun x hx y hy h => ?_) (fun a ha => ?_) hframes
    · rw [← himage x hx, h, himage y hy]
    · have hga := hg a (mem_append_right _ ha)
      rwa [fixed a ha] at hga

/-- A copy with fresh aliases, of a tree that does not declare what it needs, renames what the tree declares
and nothing else. It needs what the tree needs, equals the tree if no undefined number occurs in it, and has
the rows of the tree wherever the rows around bind none of the aliases that the two declare. -/
theorem Tree.duplicate_renames (tidy : e.Tidy) (below : ∀ a ∈ e.aliases, a < k)
    (h : e.duplicate.run k = (copy, k')) :
    ∃ f : Alias → Alias, copy.declared = e.declared.map f ∧ (∀ a ∈ copy.declared, k ≤ a ∧ a < k') ∧
      Separates f e.declared ∧ (∀ a, a ∉ e.declared → f a = a) ∧
      copy = e.rename f ∧ (∀ w ∈ e.subtrees, w.rename f = (w.mapNode f (rename f)).anonymous) ∧
      (∀ c, copy.Needs c ↔ e.Needs c) ∧
      ((e.Every fun w => w.isUndefined = false) → e.equal copy = true) ∧
      ∀ s i, e = .select s i → ∃ s' j, copy = .select s' j ∧ ∀ env frames scope, frames.Within scope →
        (∀ a ∈ scope, a ∉ e.declared ∧ a ∉ copy.declared) →
        ∀ r, s.run env frames = .ok r ↔ s'.run env frames = .ok r := by
  obtain ⟨f, rfl, -, hfresh, inj, hfixed⟩ := duplicate_gives h
  have hfresh : ∀ a ∈ e.declared.map f, k ≤ a ∧ a < k' := by
    intro b hb
    obtain ⟨a, ha, rfl⟩ := mem_map.1 hb
    exact hfresh a ha
  have hapart : ∀ scope : List Alias, (∀ a ∈ scope, a ∉ e.declared.map f) →
      Separates f (e.aliases ++ scope) := fun scope hscope => by
    rw [aliases, append_assoc]
    refine inj.append hfixed fun a ha => (mem_append.1 ha).elim (fun ha hmem => ?_) (hscope a)
    exact absurd (below a (mem_append_right _ ha)) (Nat.not_lt.2 (hfresh a hmem).1)
  have hkept : ∀ c, e.Needs c → c.rename f = c := fun c hc => by
    rw [ColumnRef.rename, hfixed _ (tidy c hc)]
  have hneeds : ∀ c, (e.rename f).Needs c ↔ e.Needs c := by
    refine fun c => ⟨fun h => ?_, fun h => ?_⟩
    · obtain ⟨d, hd, rfl⟩ := (Renaming.rename f).needs _ h
      rwa [hkept d hd]
    · have hlabel : c.label ∈ e.aliases := mem_aliases.2 ⟨.column c, h.mem_subtrees, .inr ⟨c, rfl, rfl⟩⟩
      have hrenamed := h.rename ((hapart [] (by simp)).mono (subset_append_left _ _))
        (fun a ha => mem_append_left _ ha) hlabel
      rwa [hkept c h] at hrenamed
  rw [(Renaming.rename f).declared]
  refine ⟨f, rfl, hfresh, inj, hfixed, rfl, fun w _ => w.rename_eq f, hneeds,
    fun defined => equal_rename defined fun c hc => hfixed _ (tidy c hc), ?_⟩
  rintro s i rfl
  obtain ⟨s', j, hs', -⟩ := Select.run_of_similar (similar_rename f (.select s i))
  exact ⟨s', j, hs', fun env frames scope hframes hscope => Select.run_rename_iff hs'
    (hapart scope fun a ha => (hscope a ha).2) (fun a ha => hfixed a (hscope a ha).1) hframes⟩

/-- The customers with their orders of a day that is known from around. -/
def ordersOfDay : Select Tree :=
  let column (label : Alias) (name : String) : Tree :=
    .column ⟨.int64, ScalarType.int64.columnType, label, name⟩
  let orders : Select Tree :=
    { label := 2, source := some (.table 1 "orders")
      columns := [⟨"price", column 1 "price", ScalarType.int64.columnType⟩]
      filter := some (.binary .and (.binary .equal (column 1 "customer") (column 0 "id"))
        (.binary .equal (column 1 "day") (column 9 "day"))) }
  { label := 3, source := some (.join ⟨.crossApply, .table 0 "customers", .select orders none, none⟩ (some 4))
    columns := [⟨"name", column 0 "name", ScalarType.int64.columnType⟩,
      ⟨"price", column 2 "price", ScalarType.int64.columnType⟩] }

theorem duplicate_renames_ordersOfDay : ∃ copy k', (Tree.select ordersOfDay none).duplicate.run 10 = (copy, k') ∧
    (Tree.select ordersOfDay none).equal copy = true ∧
    (∀ c, copy.Needs c ↔ (Tree.select ordersOfDay none).Needs c) ∧
    ∃ s' j, copy = .select s' j ∧ ∀ env frames, frames.Within [9] →
      ∀ r, ordersOfDay.run env frames = .ok r ↔ s'.run env frames = .ok r := by
  have htidy : (Tree.select ordersOfDay none).Tidy := fun c hc => by
    have hscope := Tree.checkScopesIn_iff.1
      (show (Tree.select ordersOfDay none).checkScopesIn [9] = .ok () by decide +kernel) c hc
    rw [mem_singleton.1 hscope]
    decide +kernel
  obtain ⟨f, hdeclared, hfresh, -, -, -, -, hneeds, hequal, hrun⟩ :=
    Tree.duplicate_renames (k := 10) htidy (by decide +kernel) rfl
  obtain ⟨s', j, hcopy, hrun⟩ := hrun _ _ rfl
  refine ⟨_, _, rfl, hequal (by decide +kernel), hneeds, s', j, hcopy, fun env frames hframes =>
    hrun env frames [9] hframes fun a ha => ?_⟩
  obtain rfl := mem_singleton.1 ha
  exact ⟨by decide +kernel, fun h => absurd (hfresh 9 h).1 (by decide)⟩

end Copies

end HiveQuery
