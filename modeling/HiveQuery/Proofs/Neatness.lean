import HiveQuery.Proofs.BoundMembers
import HiveQuery.Proofs.CompiledQueries

/-!
# Neat trees

In a neat tree the columns of every select have different names, and no source stands in a sort key or, as long as
rows are still to be skipped, in a bound. Such clauses can be copied without declaring an alias twice.
-/

namespace HiveQuery
open List HiveQuery.Tree

variable {name : String} {nav nav' : Navigation} {ts us : List Tree} {parent : Option JoinKind}
  {first : Alias}

variable {t u v : Tree} {n n' : Alias} {joins paged : Bool} {kinds : JoinKind → Bool}
  {R : Tree → Tree → Prop} {st st' : Isolation}

/-! ## Conditions -/

def Tree.isBare (kinds : JoinKind → Bool) (t : Tree) : Bool :=
  t.label?.isNone && t.join?.all fun j => kinds j.kind

/-- A tree declares no alias, and its joins are of some kinds. -/
def Tree.Bare (kinds : JoinKind → Bool) (t : Tree) : Prop :=
  t.Every fun u => u.isBare kinds = true

/-- The kinds of joins that one tree can hold, if cross joins do or do not stand next to other joins. -/
def joinKinds : Bool → List (JoinKind → Bool)
  | true => [fun _ => true]
  | false => [(· == .cross), (· != .cross)]

/-- A tree declares no alias and holds joins of kinds that may stand together. -/
def Tree.Plain (joins : Bool) (t : Tree) : Prop :=
  ∃ kinds ∈ joinKinds joins, t.Bare kinds

/-- The columns of a select have different names, and its sort keys are plain. So are its bounds if rows
can still be skipped. -/
structure Select.Neat (joins paged : Bool) (s : Select Tree) : Prop where
  headers : s.headers.Nodup
  order : ∀ k ∈ s.order, k.value.Plain joins
  bounds : paged = true → ∀ a ∈ s.bounds, a.Plain joins

def Tree.Neat (joins paged : Bool) (t : Tree) : Prop :=
  t.Every fun u => ∀ s ∈ u.select?, s.Neat joins paged

/-- All sort keys and bounds are plain. -/
def Tree.PagesPlain (joins : Bool) (t : Tree) : Prop :=
  t.Every fun u => ∀ s ∈ u.select?, ∀ a ∈ s.order.map SortKey.value ++ s.bounds, a.Plain joins

def Tree.ColumnsBelow (n : Alias) (t : Tree) : Prop :=
  t.Every fun u => ∀ c ∈ u.column?, c.label < n

instance (kinds : JoinKind → Bool) (t : Tree) : Decidable (t.Bare kinds) :=
  inferInstanceAs (Decidable (t.Every _))

instance (joins : Bool) (t : Tree) : Decidable (t.Plain joins) :=
  inferInstanceAs (Decidable (∃ kinds ∈ _, _))

instance (joins : Bool) (t : Tree) : Decidable (t.PagesPlain joins) :=
  inferInstanceAs (Decidable (t.Every _))

theorem Tree.neat_of_pagesPlain (names : t.NamesDistinct) (pages : t.PagesPlain joins) :
    t.Neat joins paged := by
  intro u hu s hs
  have hpages := pages u hu s hs
  rw [forall_mem_append] at hpages
  exact ⟨names u hu s hs, fun k hk => hpages.1 _ (mem_map_of_mem hk), fun _ => hpages.2⟩

theorem Tree.Plain.imp (h : t.Plain joins) (bare : ∀ kinds, t.Bare kinds → u.Bare kinds) : u.Plain joins := by
  obtain ⟨kinds, hkinds, ht⟩ := h
  exact ⟨kinds, hkinds, bare kinds ht⟩

theorem Tree.plain_true : t.Plain true ↔ t.Bare fun _ => true := by
  simp [Plain, joinKinds]

theorem Tree.columnsBelow_iff : t.ColumnsBelow n ↔ ∀ c, .column c ∈ t.subtrees → c.label < n := by
  constructor
  · exact fun h c hc => h _ hc c rfl
  · intro h u hu c hc
    cases u with
    | column d =>
      obtain rfl := Option.some.inj hc
      exact h d hu
    | _ => cases hc

theorem Tree.ColumnsBelow.mono (h : t.ColumnsBelow n) (hn : n ≤ n') : t.ColumnsBelow n' :=
  fun u hu c hc => (h u hu c hc).trans_le hn

theorem Tree.label?_of_isBare (h : t.isBare kinds = true) : t.label? = none := by
  rw [isBare, Bool.and_eq_true] at h
  exact Option.isNone_iff_eq_none.1 h.1

theorem Tree.Bare.declared (h : t.Bare kinds) : t.declared = [] := by
  induction t with
  | step t ih =>
    obtain ⟨hnode, hchildren⟩ := every_iff.1 h
    have hlabel : t.label? = none := label?_of_isBare hnode
    rw [declared_eq, hlabel, Option.toList_none, nil_append, flatMap_eq_nil_iff]
    exact fun a ha => ih a ha (hchildren a ha)

theorem Tree.Bare.neat (h : t.Bare kinds) : t.Neat joins paged := by
  intro u hu s hs
  cases u with
  | select => cases label?_of_isBare (h _ hu)
  | _ => cases hs

theorem Tree.Plain.joined (h : t.Plain joins) : t.Plain true := by
  obtain ⟨kinds, -, hbare⟩ := h
  refine plain_true.2 fun u hu => ?_
  simp [isBare, label?_of_isBare (hbare u hu)]

theorem Tree.Neat.joined (h : t.Neat joins paged) : t.Neat true paged := fun u hu s hs =>
  ⟨(h u hu s hs).headers, fun k hk => ((h u hu s hs).order k hk).joined,
    fun hpaged a ha => ((h u hu s hs).bounds hpaged a ha).joined⟩

theorem Tree.bare_column (c : ColumnRef) : (column c).Bare kinds := every_iff.2 ⟨rfl, nofun⟩

/-! ## Nodes -/

namespace Tree.SameNode

theorem isBare (h : t.SameNode R u) : u.isBare kinds = t.isBare kinds := by
  rw [Tree.isBare, Tree.isBare, h.label?]
  cases h <;> rfl

theorem neat (h : t.SameNode R u) (plain : ∀ a b, R a b → a.Plain joins → b.Plain joins)
    (ht : ∀ s ∈ t.select?, s.Neat joins paged) : ∀ s ∈ u.select?, s.Neat joins paged := by
  intro s' hs'
  obtain ⟨s, hs, same⟩ := h.exists_select hs'
  obtain ⟨hheaders, horder, hbounds⟩ := ht s hs
  refine ⟨?_, fun k hk => ?_, fun hpaged b hb => ?_⟩
  · have heq : s'.headers = s.headers := map_eq_of_forall₂ same.columns fun _ _ h => h.1
    exact heq ▸ hheaders
  · obtain ⟨k₀, hk₀, -, hvalue⟩ := forall₂_mem_right same.order hk
    exact plain _ _ hvalue (horder k₀ hk₀)
  · have hrelated : Forall₂ R s.bounds s'.bounds :=
      rel_append (optionRel_iff.1 same.skip) (optionRel_iff.1 same.take)
    obtain ⟨a, ha, hab⟩ := forall₂_mem_right hrelated hb
    exact plain a b hab (hbounds hpaged a ha)

end Tree.SameNode

/-! ## Members -/

/-- A tree of which parts were left out. -/
structure Tree.PrunedTo (t u : Tree) : Prop where
  declared : u.declared.Sublist t.declared
  columns : ∀ n, t.ColumnsBelow n → u.ColumnsBelow n
  bare : ∀ kinds, t.Bare kinds → u.Bare kinds
  neat : ∀ joins paged, t.Neat joins paged → u.Neat joins paged

namespace Tree.PrunedTo

theorem refl (t : Tree) : t.PrunedTo t := ⟨.refl _, fun _ h => h, fun _ h => h, fun _ _ h => h⟩

theorem trans (h : t.PrunedTo u) (h' : u.PrunedTo v) : t.PrunedTo v where
  declared := h'.declared.trans h.declared
  columns n ht := h'.columns n (h.columns n ht)
  bare kinds ht := h'.bare kinds (h.bare kinds ht)
  neat joins paged ht := h'.neat joins paged (h.neat joins paged ht)

theorem child {a : Tree} (ha : a ∈ t.children) : t.PrunedTo a where
  declared := declared_of_child ha
  columns _ h := h.child ha
  bare _ h := h.child ha
  neat _ _ h := h.child ha

theorem of_sameNode (h : t.SameNode PrunedTo u) : t.PrunedTo u where
  declared := by
    rw [declared_eq, declared_eq, h.label?]
    exact (List.Sublist.refl _).append (flatMap_rel .slnil .append (h.children.imp fun _ _ h => h.declared))
  columns n := h.every (fun ht => h.column? ▸ ht) fun _ _ hab => hab.columns n
  bare kinds := h.every (fun ht => h.isBare.trans ht) fun _ _ hab => hab.bare kinds
  neat joins paged := h.every (h.neat fun _ _ hab ha => ha.imp hab.bare) fun _ _ hab => hab.neat joins paged

end Tree.PrunedTo

theorem Tree.FieldOf.pruned {field : Tree} (h : t.FieldOf name field) : t.PrunedTo field := by
  induction h with
  | entity e _ ih => exact (Tree.PrunedTo.child mem_cons_self).trans ih
  | record h => exact .child (mem_map_of_mem h)
  | column test _ ih =>
    exact (Tree.PrunedTo.child (.tail _ (.head _))).trans ih
  | marked test _ ih => exact .of_sameNode (.outerJoined (.refl test) ih)

structure Navigation.Unjoined (nav nav' : Navigation) : Prop where
  sources : nav'.sources = nav.sources
  next : nav'.next = nav.next
  lookups : nav'.lookups = nav.lookups

theorem Navigation.Unjoined.trans {nav₁ : Navigation} (h : nav.Unjoined nav₁)
    (h' : nav₁.Unjoined nav') : nav.Unjoined nav' :=
  ⟨h'.sources.trans h.sources, h'.next.trans h.next, h'.lookups.trans h.lookups⟩

def Tree.Prunes (t : Tree) : Prop :=
  ∀ nav u nav', navigating.visits (Navigation.visitor []) t nav u nav' → nav.Unjoined nav' ∧ t.PrunedTo u

theorem Threaded.prunes
    (h : Threaded (navigating.visits (Navigation.visitor [])) ts nav us nav') (ih : ∀ a ∈ ts, a.Prunes) :
    nav.Unjoined nav' ∧ Forall₂ PrunedTo ts us := by
  induction h with
  | nil => exact ⟨⟨rfl, rfl, rfl⟩, .nil⟩
  | cons head _ rest =>
    obtain ⟨hhead, hpruned⟩ := ih _ mem_cons_self _ _ _ head
    obtain ⟨hrest, hall⟩ := rest fun a ha => ih a (.tail _ ha)
    exact ⟨hhead.trans hrest, .cons hpruned hall⟩

theorem Navigation.Resolved.prunes {source : Tree}
    (h : Resolved [] name nav source v nav') : nav.Unjoined nav' ∧ (member source name).PrunedTo v := by
  cases h with
  | kept => exact ⟨⟨rfl, rfl, rfl⟩, .refl _⟩
  | field h =>
    exact ⟨⟨rfl, rfl, rfl⟩, (Tree.PrunedTo.child mem_cons_self).trans (fieldOf h).pruned⟩
  | query h | lookup h => cases h

theorem Tree.prunes (t : Tree) : t.Prunes := by
  induction t with
  | step t ih =>
    intro nav u nav' hvisit
    cases Navigation.visited hvisit with
    | @member root _ _ name _ _ _ visited resolved =>
      obtain ⟨hunjoined, hpruned⟩ := ih root mem_cons_self _ _ _ visited
      obtain ⟨haccessed, hfield⟩ := resolved.prunes
      have hmember : (member root name).PrunedTo (.member _ name) := .of_sameNode (.member name hpruned)
      exact ⟨⟨haccessed.sources.trans hunjoined.sources, haccessed.next.trans hunjoined.next,
        haccessed.lookups.trans hunjoined.lookups⟩, hmember.trans hfield⟩
    | @select s s' i j _ nav₁ nav₂ label same source others =>
      rw [children, Select.clauses_eq, forall_mem_append] at ih
      obtain ⟨hjoined, hsource⟩ := source.prunes ih.1
      obtain ⟨hjoined', hothers⟩ := others.prunes ih.2
      have hsources : nav₂.sources = s'.source :: nav₁.sources := hjoined'.sources
      simp only [hsources, head?_cons, Option.join_some, tail_cons]
      exact ⟨⟨hjoined.sources, hjoined'.next.trans hjoined.next, hjoined'.lookups.trans hjoined.lookups⟩,
        .of_sameNode (.select i j label (same.of_others (optionRel_iff.2 hsource) hothers))⟩
    | node _ _ same children =>
      obtain ⟨hunjoined, hall⟩ := children.prunes ih
      exact ⟨hunjoined, .of_sameNode (same.of_children hall)⟩

/-- Without entities, members are fields. -/
theorem Tree.bindMembers_pruned {lookups : List Alias} (h : (t.bindMembers []).Gives n (u, lookups) n') :
    n' = n ∧ lookups = [] ∧ t.PrunedTo u := by
  obtain ⟨nav, hvisit, rfl, rfl⟩ := bindMembers_gives.1 h
  obtain ⟨hunjoined, hpruned⟩ := t.prunes _ _ _ hvisit
  exact ⟨hunjoined.next, hunjoined.lookups, hpruned⟩

/-! ## Joins -/

namespace Tree.Rerouted

variable {Q : ColumnRef → ColumnRef → Prop}

theorem bare (h : t.Rerouted Q u) (ht : t.Bare kinds) : u.Bare kinds :=
  h.every (fun _ => rfl) (fun _ _ same ha => same.isBare.trans ha) ht

theorem neat (h : t.Rerouted Q u) (ht : t.Neat joins paged) : u.Neat joins paged :=
  h.every (fun _ _ hs => nomatch hs) (fun _ _ same => same.neat fun _ _ h ha => ha.imp fun _ => h.bare) ht

theorem columnsBelow (h : t.Rerouted Q u) (below : ∀ c d, Q c d → c.label < n → d.label < n)
    (ht : t.ColumnsBelow n) : u.ColumnsBelow n := by
  refine columnsBelow_iff.2 fun d hd => ?_
  obtain ⟨c, hc, hcd⟩ := h.exists_left hd
  exact below c d hcd (columnsBelow_iff.1 ht c hc)

end Tree.Rerouted

theorem LowersApply.neat (h : LowersApply t u) (ht : t.Neat joins paged) : u.Neat joins paged := by
  have hroot : ∀ s ∈ u.select?, s.Neat joins paged := by
    cases h with
    | kept => exact (every_iff.1 ht).1
    | _ => exact nofun
  refine h.every hroot (fun _ _ hs => nomatch hs) nofun
    (fun _ _ _ same => same.neat fun _ _ h ha => ha.imp fun _ => h.bare) ?_ ht
  rintro s c columns i - pulled hs _ ⟨⟩
  obtain ⟨hheaders, horder, hbounds⟩ := hs s rfl
  exact ⟨pulled.grow.nodup hheaders, horder, hbounds⟩

theorem LowersApply.eq_of_bare (h : LowersApply t u) (ht : t.Bare kinds) : u = t := by
  have hright : ∀ {j : Join Tree} {i : Option Identity}, t = .join j i → j.right.label? = none := by
    rintro j i rfl
    exact label?_of_isBare (every_iff.1 (ht.child (by simp))).1
  cases h with
  | kept => rfl
  | table => cases hright rfl
  | select => cases hright rfl

theorem Tree.lowerApplies_neat (ht : t.Neat joins paged) : t.lowerApplies.Neat joins paged := by
  refine (lowerApplies_rel (R := fun a b => (∀ kinds, a.Bare kinds → b.Bare kinds) ∧
    (a.Neat joins paged → b.Neat joins paged)) (fun same hv => ⟨fun kinds ha => ?_, fun ha => ?_⟩) t).2 ht
  · have hbare := same.every same.isBare.trans (fun _ _ h => h.1 kinds) ha
    rwa [hv.eq_of_bare hbare]
  · exact hv.neat (same.every (same.neat fun _ _ h ha => ha.imp h.1) (fun _ _ h => h.2) ha)

theorem Tree.lowerApplies_columnsBelow (declared : ∀ a ∈ t.declared, a < n) (ht : t.ColumnsBelow n) :
    t.lowerApplies.ColumnsBelow n := by
  refine columnsBelow_iff.2 fun d hd => ?_
  by_cases hdeclared : d.label ∈ t.declared
  · exact declared _ hdeclared
  · exact columnsBelow_iff.1 ht d ((lowerApplies_columns hdeclared).1 hd)

theorem mixes_of_joinKinds {kind : JoinKind} (hkinds : kinds ∈ joinKinds false)
    (hkind : kinds kind = true) (hparent : parent.all kinds = true) : mixes kind parent = false := by
  cases parent with
  | none => rfl
  | some other =>
    rw [Option.all_some] at hparent
    simp only [joinKinds, mem_cons, not_mem_nil, or_false] at hkinds
    rcases hkinds with rfl | rfl
    · simp_all [mixes]
    · simp_all [mixes]

theorem Tree.IsolatesUnder.bare (hkinds : kinds ∈ joinKinds false)
    (h : t.IsolatesUnder parent u) (hparent : parent.all kinds = true) (ht : t.Bare kinds) : u.Bare kinds := by
  induction t generalizing u parent with
  | step t ih =>
    obtain ⟨hnode, hchildren⟩ := every_iff.1 ht
    have hkind : ∀ j ∈ t.join?, kinds j.kind = true := by
      intro j hj
      rw [isBare, Bool.and_eq_true, Option.mem_def.1 hj] at hnode
      exact hnode.2
    have haround : (t.around parent).all kinds = true := by
      cases t with
      | select => rfl
      | join j => exact hkind j rfl
      | _ => exact hparent
    cases h.node with
    | column c => exact bare_column _
    | node _ same =>
      refine every_iff.2 ⟨same.isBare.trans hnode, fun b hb => ?_⟩
      obtain ⟨a, ha, hab⟩ := forall₂_mem_right same.children hb
      exact ih a ha hab haround (hchildren a ha)
    | wrap m hj mixed =>
      rw [mixes_of_joinKinds hkinds (hkind _ hj) hparent] at mixed
      cases mixed

/-- Isolation keeps a tree neat. -/
theorem Tree.IsolatedAs.neat (h : t.IsolatedAs u) (ht : t.Neat false paged) : u.Neat false paged := by
  intro b hb
  rcases h.mem_subtrees hb with ⟨d, rfl⟩ | ⟨st, v, rfl⟩ | ⟨a, ha, parent, same⟩
  · exact nofun
  · rintro _ ⟨⟩
    exact ⟨st.headers_wrapper_nodup v, nofun, nofun⟩
  · intro s hs
    -- the clauses of a select stand outside of the joins around it
    obtain ⟨s₀, hs₀, -⟩ := same.exists_select hs
    refine same.neat (fun x y hxy hx => ?_) (ht a ha) s hs
    obtain ⟨kinds, hkinds, hbare⟩ := hx
    refine ⟨kinds, hkinds, hxy.bare hkinds ?_ hbare⟩
    cases a with
    | select => rfl
    | _ => cases hs₀

theorem Leads.label_lt {replaced : List (ColumnRef × ColumnRef)} {c d : ColumnRef} (h : Leads replaced c d)
    (pairs : ∀ p ∈ replaced, p.2.label < n) (hc : c.label < n) : d.label < n := by
  induction h with
  | stop => exact hc
  | step hlookup _ ih => exact ih (pairs _ (mem_of_lookup hlookup))

def Tree.IsolatesBelow (first : Alias) (t : Tree) : Prop :=
  ∀ st u st', t.IsolatesTo st u st' → st.Untouched first t.declared → t.ColumnsBelow st.next →
    u.ColumnsBelow st'.next

theorem Threaded.isolates_below (ih : ∀ t ∈ ts, t.IsolatesBelow first)
    (h : Threaded IsolatesTo ts st us st') (hst : st.Untouched first (ts.flatMap declared))
    (below : ∀ t ∈ ts, t.ColumnsBelow st.next) : ∀ u ∈ us, u.ColumnsBelow st'.next := by
  induction h with
  | nil => exact nofun
  | @cons t st m st' u ts us head rest hrest =>
    rw [flatMap_cons] at hst
    have hhead := hst.sublist (sublist_append_left _ _)
    have hisolated := keeps first t _ _ _ head hhead
    have hst' := hst.after hisolated.extends_declared
    have hnext := (rest.isolated (fun v _ => v.keeps first) hst').1.next
    rw [forall_mem_cons] at below ih ⊢
    refine ⟨(ih.1 _ _ _ head hhead below.1).mono hnext, hrest ih.2 hst' fun a ha => ?_⟩
    exact (below.2 a ha).mono hisolated.state.next

theorem JoinStep.below (h : JoinStep t st u st')
    (ih : ∀ a ∈ t.children, a.IsolatesBelow first) (hst : st.Untouched first t.declared)
    (below : t.ColumnsBelow st.next) : u.ColumnsBelow st'.next := by
  cases h with
  | @mk kind l r l' r' c c' i j _ m form children =>
    have hdeclared : (join ⟨kind, l, r, c⟩ i).declared =
        (l :: r :: c.toList).flatMap declared := declared_eq _
    rw [hdeclared] at hst
    have hall := children.isolates_below ih (hst.of_eq rfl rfl) fun a ha => below.child ha
    exact every_iff.2 ⟨nofun, hall⟩

theorem Tree.isolates_below (first : Alias) (t : Tree) : t.IsolatesBelow first := by
  induction t with
  | step t ih =>
    intro st u st' h hst below
    have hchildren := t.children_declared_sublist
    cases h.step with
    | column c =>
      refine every_iff.2 ⟨?_, nofun⟩
      rintro _ ⟨rfl⟩
      exact (hst.sound.leads c).label_lt (fun p hp => (hst.sound.pairs p hp).2.2)
        ((every_iff.1 below).1 c rfl)
    | @select s s' i j _ m label same clauses =>
      have hall := clauses.isolates_below ih ((hst.sublist hchildren).of_eq rfl rfl) fun a ha =>
        below.child ha
      exact every_iff.2 ⟨nofun, hall⟩
    | join step => exact step.below ih hst below
    | @wrap _ w _ m _ step =>
      have hw := step.below ih hst below
      have hsources : ∀ a ∈ w.sources, a < m.next := by
        have hisolated := step.isolated (fun v _ => v.keeps first) hst
        refine hisolated.sources.lt fun a ha => ?_
        exact (hst.lt_next a (t.sources_sublist.subset ha)).trans_le hisolated.state.next
      -- the select around a join refers to columns of the join
      refine every_iff.2 ⟨nofun, fun a ha => ?_⟩
      rcases mem_cons.1 ha with rfl | ha
      · exact hw.mono (Nat.le_succ _)
      · obtain ⟨d, hd, rfl⟩ := mem_map.1 ha
        obtain ⟨p, hp, rfl⟩ := mem_map.1 hd
        refine every_iff.2 ⟨?_, nofun⟩
        rintro _ ⟨rfl⟩
        exact (hsources _ (Isolation.mem_of_named hp).2).trans (Nat.lt_succ_self _)
    | node select join column same children =>
      refine every_iff.2 ⟨?_, ?_⟩
      · rw [same.column?, column]
        exact nofun
      · exact children.isolates_below ih (hst.sublist hchildren) fun a ha => below.child ha

end HiveQuery
