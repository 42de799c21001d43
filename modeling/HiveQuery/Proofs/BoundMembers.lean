import HiveQuery.Proofs.NavigationSteps
import HiveQuery.Proofs.Needs

/-!
# Scopes of bound members

A member that leads to one row is looked up next to the source of the innermost select whose source was visited.
What stands inside a further source, or in a shape, may see aliases that a lookup there must not read.
-/

namespace HiveQuery

variable {table : Alias} {inner : Option (List Alias)}
open List HiveQuery.Tree

variable {known : List Alias} {filter : Option Tree} {e : Entity} {query : Alias} {p : Projection}
  {s : Select Tree} {i : Option Identity}
variable {m : EntityMap} {t u : Tree} {nav nav' : Navigation} {d : ColumnRef} {entity name : String}
  {root : Tree}

/-! ## Where lookups reach -/

/-- The children of a tree with the aliases that came into their scopes after the innermost select with a
source was entered, if there is one. -/
def Tree.reaches (inner : Option (List Alias)) : Tree → List (Option (List Alias) × Tree)
  | .select s _ =>
    s.source.toList.map (inner, ·) ++ s.others.map (if s.source.isSome then some [] else none, ·)
  | t => t.bindings.map fun p => (inner.map (p.1 ++ ·), p.2)

/-- No relationship that leads to one row starts from an alias that came into scope after the innermost
select with a source was entered. -/
inductive Tree.LookupsReach (m : EntityMap) : Option (List Alias) → Tree → Prop
  | node {inner : Option (List Alias)} {t : Tree}
      (access : ∀ root name, t = .member root name → (∃ e, m.isSingleton e name = true) →
        ∀ i ∈ inner, ∀ c, root.Needs c → c.label ∉ i)
      (children : ∀ p ∈ t.reaches inner, LookupsReach m p.1 p.2) : LookupsReach m inner t

def Tree.NeedsBeyond (inner : Option (List Alias)) (t : Tree) (d : ColumnRef) : Prop :=
  t.Needs d ∧ ∀ i ∈ inner, d.label ∉ i

/-! ## The enclosing sources -/

def hasSource : List (Option Tree) → Bool
  | some _ :: _ => true
  | _ => false

def headSources : List (Option Tree) → List Alias
  | some t :: _ => t.sources
  | _ => []

/-- Lookups are joined to the innermost source one after the other. Each of them needs columns for which `P` holds,
or columns of the source. -/
inductive JoinsLookups (P : ColumnRef → Prop) : List (Option Tree) → List (Option Tree) → Prop
  | refl (sources : List (Option Tree)) : JoinsLookups P sources sources
  | joined {sources outer : List (Option Tree)} {source : Tree} {q : Select Tree} :
      JoinsLookups P sources (some source :: outer) →
      (∀ d, (Tree.select q none).Needs d → P d ∨ d.label ∈ source.sources) →
      JoinsLookups P sources (some (.join ⟨.outerApply, source, .select q none, none⟩ none) :: outer)

namespace JoinsLookups

variable {P Q : ColumnRef → Prop} {sources sources₁ sources' outer : List (Option Tree)}

theorem trans (h : JoinsLookups P sources sources₁) (h' : JoinsLookups P sources₁ sources') :
    JoinsLookups P sources sources' := by
  induction h' with
  | refl => exact h
  | joined _ hq ih => exact .joined ih hq

section

variable (h : JoinsLookups P sources sources')
include h

theorem hasSource_eq : hasSource sources' = hasSource sources := by
  induction h with
  | refl => rfl
  | joined _ _ ih => exact ih

theorem eq_of_not_hasSource (hs : hasSource sources = false) :
    sources' = sources := by
  cases h with
  | refl => rfl
  | joined h _ => cases h.hasSource_eq.trans hs

theorem mono (hPQ : hasSource sources = true → ∀ d, P d → Q d) :
    JoinsLookups Q sources sources' := by
  induction h with
  | refl => exact .refl _
  | joined h hq ih => exact .joined ih fun d hd => (hq d hd).imp_left (hPQ h.hasSource_eq.symm d)

theorem headSources_subset :
    ∀ a ∈ headSources sources, a ∈ headSources sources' := by
  induction h with
  | refl => exact fun _ ha => ha
  | joined _ _ ih => exact fun a ha => mem_append_left _ (ih a ha)

end

theorem cases_head {o : Option Tree} (h : JoinsLookups P (o :: outer) sources') :
    ∃ o', sources' = o' :: outer ∧ o'.isSome = o.isSome ∧
      ∀ u ∈ o', ∃ t ∈ o, ∀ d, u.Needs d → t.Needs d ∨ P d ∧ d.label ∉ t.sources := by
  generalize hsources : o :: outer = sources at h
  induction h with
  | refl =>
    subst hsources
    exact ⟨o, rfl, rfl, fun u hu => ⟨u, hu, fun d hd => .inl hd⟩⟩
  | @joined _ source q h hq ih =>
    obtain ⟨o', heq, hsome, hneeds⟩ := ih
    obtain ⟨rfl, rfl⟩ := cons.inj heq
    refine ⟨_, rfl, hsome, ?_⟩
    rintro u ⟨rfl⟩
    obtain ⟨t, ht, hneeds⟩ := hneeds source rfl
    refine ⟨t, ht, fun d hd => ?_⟩
    rcases needs_join_iff.1 hd with hd | ⟨happly, hd⟩ | ⟨-, c, hc, -⟩
    · exact hneeds d hd
    · have hsource : d.label ∉ source.sources := happly rfl
      refine .inr ⟨(hq d hd).resolve_right hsource, fun hmem => hsource ?_⟩
      subst hsources ht
      exact h.headSources_subset _ hmem
    · cases hc

end JoinsLookups

/-! ## Nodes -/

structure Tree.BoundTo (known : List Alias) (t u : Tree) : Prop where
  needs : ∀ d, u.Needs d → t.Needs d ∨ d.label ∈ known
  sources : ∀ a ∈ t.sources, a ∈ u.sources
  label : ∀ a, t.label? = some a → u.label? = some a

theorem Tree.SameNode.boundTo (h : t.SameNode (BoundTo known) u) :
    t.BoundTo known u := by
  refine ⟨fun d hd => ?_, ?_, fun a ha => h.label?.trans ha⟩
  · cases hcolumn : t.column? with
    | none =>
      obtain ⟨q, hq, hlabel, hd⟩ := hd.cases_node (h.column?.trans hcolumn)
      obtain ⟨p, hp, hscope, hbound⟩ := forall₂_mem_right
        (h.bindings_rel (S := fun X Y => ∀ a ∈ X, a ∈ Y) (fun _ h => h)
          (fun h h' => append_subset.2 ⟨fun a ha => mem_append_left _ (h a ha),
            fun a ha => mem_append_right _ (h' a ha)⟩)
          (fun _ _ h => h.sources)
          fun a b h x hx => Option.mem_toList.2 (h.label x (Option.mem_toList.1 hx))) hq
      exact (hbound.needs d hd).imp_left fun hd => .child hp (fun hmem => hlabel (hscope _ hmem)) hd
    | some c =>
      cases h with
      | column => exact .inl hd
      | _ => cases hcolumn
  · cases h with
    | select i j hlabel same =>
      rw [Tree.sources, Tree.sources, hlabel]
      exact fun _ h => h
    | join kind i j hl hr hc =>
      exact append_subset.2 ⟨fun a ha => mem_append_left _ (hl.sources a ha),
        fun a ha => mem_append_right _ (hr.sources a ha)⟩
    | table => exact fun _ h => h
    | _ => exact fun _ h => absurd h not_mem_nil

/-! ## Visits -/

def Tree.Binds (m : EntityMap) (inner : Option (List Alias)) (t : Tree) : Prop :=
  ∀ nav u nav', navigating.visits (Navigation.visitor m) t nav u nav' →
    (inner = none → hasSource nav.sources = false) →
    JoinsLookups (t.NeedsBeyond inner) nav.sources nav'.sources ∧ t.BoundTo (headSources nav'.sources) u

theorem Threaded.binds {P : ColumnRef → Prop} {ts us : List Tree}
    (h : Threaded (navigating.visits (Navigation.visitor m)) ts nav us nav')
    (ih : ∀ a ∈ ts, ∃ inner, a.Binds m inner ∧ (inner = none → hasSource nav.sources = false) ∧
      (hasSource nav.sources = true → ∀ d, a.NeedsBeyond inner d → P d)) :
    JoinsLookups P nav.sources nav'.sources ∧ Forall₂ (BoundTo (headSources nav'.sources)) ts us := by
  induction h with
  | nil => exact ⟨.refl _, .nil⟩
  | @cons a nav nav₁ nav' b ts us head _ rest =>
    obtain ⟨inner, hbinds, hinner, hP⟩ := ih a mem_cons_self
    obtain ⟨hjoins, hbound⟩ := hbinds _ _ _ head hinner
    have hjoins := hjoins.mono hP
    obtain ⟨hjoins', hall⟩ := rest fun b hb => by
      rw [hjoins.hasSource_eq]
      exact ih b (.tail _ hb)
    refine ⟨hjoins.trans hjoins', .cons { hbound with needs := fun d hd => ?_ } hall⟩
    exact (hbound.needs d hd).imp_right (hjoins'.headSources_subset d.label)

/-! ## Members -/

theorem Tree.needs_binary {op : BinaryOp} {l r : Tree} :
    (binary op l r).Needs d ↔ l.Needs d ∨ r.Needs d := by
  rw [needs_iff_children rfl rfl]
  simp

theorem Tree.needs_outerJoined {test : Tree} :
    (outerJoined test t).Needs d ↔ test.Needs d ∨ t.Needs d := by
  rw [needs_iff_children rfl rfl]
  simp

theorem Tree.FieldOf.needs {field : Tree} (h : t.FieldOf name field) (hd : field.Needs d) : t.Needs d := by
  induction h with
  | entity e _ ih => exact (needs_iff_children rfl rfl).2 ⟨_, mem_cons_self, ih hd⟩
  | record h => exact (needs_iff_children rfl rfl).2 ⟨_, mem_map_of_mem h, hd⟩
  | column test _ ih => exact needs_outerJoined.2 (.inr (ih hd))
  | marked test _ ih => exact needs_outerJoined.2 ((needs_outerJoined.1 hd).imp_right ih)

theorem keyCondition_needs {c : Tree} {target : Entity} {key : String × String}
    (h : keyCondition root entity target table key = .ok c) (hd : c.Needs d) :
    root.Needs d ∨ d.label = table := by
  obtain ⟨own, e, hown, rfl, rfl⟩ := keyCondition_eq_ok h
  rcases needs_binary.1 hd with hd | hd
  · exact .inl ((fieldOf hown).needs hd)
  · exact .inr (by rw [needs_column.1 hd])

theorem allOf_needs {conditions : List Tree} {filter : Tree} (h : filter ∈ allOf conditions)
    (hd : filter.Needs d) : ∃ c ∈ conditions, c.Needs d :=
  allOf_forall (P := fun f => f.Needs d → ∃ c ∈ conditions, c.Needs d) (fun c hc hd => ⟨c, hc, hd⟩)
    (fun hl hr hd => (needs_binary.1 hd).elim hl hr) filter h hd

theorem Entity.query_needs
    (h : (select (e.query table query filter).query none).Needs d) :
    d.label ≠ table ∧ ∃ f ∈ filter, f.Needs d := by
  rcases Select.needs_iff.1 h with ⟨a, ha, hd⟩ | ⟨hlabel, a, ha, hd⟩
  · cases ha
    obtain ⟨p, hp, -⟩ := hd.cases_node rfl
    cases hp
  · have hlabel : d.label ≠ table := fun heq => hlabel (mem_singleton.2 heq)
    refine ⟨hlabel, ?_⟩
    simp only [Select.others, Select.clauses, Entity.query, mem_append, Option.mem_toList,
      map_map, mem_map, Option.toList_none, map_nil, not_mem_nil, or_false, false_or] at ha
    rcases ha with ha | ⟨c, hc, rfl⟩
    · exact ⟨a, ha, hd⟩
    · rw [needs_column.1 hd] at hlabel
      exact absurd rfl hlabel

theorem Entity.shape_needs
    (h : (e.query table query filter).shape.Needs d) : d.label = query := by
  obtain ⟨a, ha, hd⟩ := (needs_iff_children rfl rfl).1 h
  cases mem_singleton.1 ha
  obtain ⟨a, ha, hd⟩ := (needs_iff_children rfl rfl).1 hd
  simp only [children, map_map, mem_map] at ha
  obtain ⟨c, hc, rfl⟩ := ha
  rw [needs_column.1 hd]
  rfl

theorem Projection.withTest_eq (p : Projection) :
    ∃ extra name, (∀ c ∈ extra, c.value = .constant testMark) ∧
      p.withTest = ⟨p.query.widen extra, .outerJoined
        (.column ⟨.int64, ScalarType.int64.columnType, p.query.label, name⟩) p.shape⟩ := by
  unfold withTest
  cases p.query.columns.find? isTest with
  | some c =>
    refine ⟨[], c.name, by simp, ?_⟩
    simp [Select.widen]
  | none =>
    let name := freeName p.query.headers "Test"
    exact ⟨[⟨name, .constant testMark, ScalarType.int64.columnType⟩], name, by simp, rfl⟩

theorem Projection.withTest_needs :
    p.withTest.query.label = p.query.label ∧
      ((select p.withTest.query none).Needs d → (select p.query none).Needs d) ∧
      (p.withTest.shape.Needs d → p.shape.Needs d ∨ d.label = p.query.label) := by
  obtain ⟨extra, name, hextra, heq⟩ := p.withTest_eq
  rw [heq]
  refine ⟨rfl, fun h => ?_, fun h => ?_⟩
  · rcases Select.needs_iff.1 h with h | ⟨hlabel, a, ha, hd⟩
    · exact Select.needs_iff.2 (.inl h)
    · rcases Select.mem_others_widen.1 ha with ha | ⟨c, hc, rfl⟩
      · exact Select.needs_iff.2 (.inr ⟨hlabel, a, ha, hd⟩)
      · rw [hextra c hc] at hd
        obtain ⟨_, hp, -⟩ := hd.cases_node rfl
        cases hp
  · rcases needs_outerJoined.1 h with h | h
    · rw [needs_column.1 h]
      exact .inr rfl
    · exact .inl h

theorem EntityMap.related_needs {r : Relationship} {next next' : Alias}
    (h : (m.related root entity r).Gives next p next') :
    (∀ d, (select p.query none).Needs d → root.Needs d) ∧
      ∀ d, p.shape.Needs d → d.label = p.query.label := by
  obtain ⟨target, conditions, -, hconditions, rfl, -⟩ := related_gives.1 h
  refine ⟨fun d hd => ?_, fun d hd => Entity.shape_needs hd⟩
  obtain ⟨hlabel, f, hf, hd⟩ := Entity.query_needs hd
  obtain ⟨c, hc, hd⟩ := allOf_needs hf hd
  obtain ⟨key, -, hkey⟩ := forall₂_mem_right (mapM_eq_ok.1 hconditions) hc
  exact (keyCondition_needs hkey hd).resolve_right hlabel

/-! ## Whole trees -/

theorem Navigation.Resolved.binds {origin v : Tree} {nav₁ : Navigation} (h : Resolved m name nav₁ root v nav')
    (hjoins : JoinsLookups (origin.NeedsBeyond inner) nav.sources nav₁.sources)
    (hbound : origin.BoundTo (headSources nav₁.sources) root)
    (access : (∃ e, m.isSingleton e name = true) → ∀ i ∈ inner, ∀ c, origin.Needs c → c.label ∉ i) :
    JoinsLookups ((member origin name).NeedsBeyond inner) nav.sources nav'.sources ∧
      (member origin name).BoundTo (headSources nav'.sources) v := by
  have hneeds : ∀ d, origin.Needs d → (member origin name).Needs d := fun d hd =>
    (needs_iff_children rfl rfl).2 ⟨origin, mem_cons_self, hd⟩
  have hjoins := hjoins.mono (Q := (member origin name).NeedsBeyond inner) fun _ d hd => ⟨hneeds d hd.1, hd.2⟩
  have hleaf : ∀ {known : List Alias}, (∀ d, v.Needs d → (member origin name).Needs d ∨ d.label ∈ known) →
      (member origin name).BoundTo known v := fun h =>
    ⟨h, fun _ ha => absurd ha not_mem_nil, fun _ ha => by cases ha⟩
  have hwithin : (∀ d, v.Needs d → root.Needs d) →
      (member origin name).BoundTo (headSources nav₁.sources) v := fun h =>
    hleaf fun d hd => (hbound.needs d (h d hd)).imp_left (hneeds d)
  cases h with
  | kept =>
    refine ⟨hjoins, hwithin fun d hd => ?_⟩
    simpa using (needs_iff_children rfl rfl).1 hd
  | field hfield => exact ⟨hjoins, hwithin fun d => (fieldOf hfield).needs⟩
  | query _ related =>
    obtain ⟨hquery, hshape⟩ := EntityMap.related_needs related
    refine ⟨hjoins, hwithin fun d hd => ?_⟩
    obtain ⟨b, hb, hlabel, hd⟩ := hd.cases_node rfl
    simp only [Projection.toTree, bindings, mem_cons, not_mem_nil, or_false] at hb
    rcases hb with rfl | rfl
    · exact hquery d hd
    · exact absurd (mem_singleton.2 (hshape d hd)) hlabel
  | @lookup e _ _ _ _ _ _ _ relationship related singleton sources =>
    obtain ⟨hquery, hshape⟩ := EntityMap.related_needs related
    have hsingleton : m.isSingleton e name = true := by
      rw [EntityMap.isSingleton, relationship]
      exact singleton
    rw [sources] at hjoins hbound
    refine ⟨hjoins.joined fun d hd => ?_, hleaf fun d hd => .inr ?_⟩
    · exact (hbound.needs d (hquery d (Projection.withTest_needs.2.1 hd))).imp_left fun hd =>
        ⟨hneeds d hd, fun i hi => access ⟨e, hsingleton⟩ i hi d hd⟩
    · refine mem_append_right _ (mem_singleton.2 ?_)
      rw [Projection.withTest_needs (d := d).1]
      exact (Projection.withTest_needs.2.2 hd).elim (hshape d) id

theorem Select.binds (source : ∀ a ∈ s.source, a.Binds m inner)
    (others : ∀ a ∈ s.others, a.Binds m (if s.source.isSome then some [] else none)) :
    (select s i).Binds m inner := by
  intro nav u nav' hvisit hinner
  cases Navigation.visited hvisit with
  | node _ select => cases select
  | @select _ s' _ j _ nav₂ nav₁ hlabel hsame hsource hothers =>
  -- the source, which is visited as a part of the selects around
  obtain ⟨hjoins, hbound⟩ := hsource.binds (P := (select s i).NeedsBeyond inner) fun a ha => by
    have ha := Option.mem_toList.1 ha
    exact ⟨inner, source a ha, hinner, fun _ d hd => ⟨needs_iff.2 (.inl ⟨a, ha, hd.1⟩), hd.2⟩⟩
  have hsome : s'.source.isSome = s.source.isSome := option_isSome_eq hsame.source
  have hentered : hasSource (s'.source :: nav₂.sources) = s.source.isSome := by
    rw [← hsome]
    cases s'.source <;> rfl
  -- the other clauses, from which lookups are joined to the source
  obtain ⟨hjoins', hbound'⟩ := hothers.binds (P := fun d => ∃ a ∈ s.others, a.Needs d) fun a ha => by
    refine ⟨_, others a ha, fun hnone => ?_, fun _ d hd => ⟨a, ha, hd.1⟩⟩
    show hasSource (s'.source :: nav₂.sources) = false
    rw [hentered]
    cases hs : s.source.isSome with
    | false => rfl
    | true => simp [hs] at hnone
  obtain ⟨o, hsources, hsome', hneeds⟩ := hjoins'.cases_head
  have hsource' : nav₁.sources.head?.join = o := by
    rw [hsources]
    rfl
  have hsources' : nav₁.sources.tail = nav₂.sources := by
    rw [hsources]
    rfl
  rw [hsource']
  show JoinsLookups _ _ nav₁.sources.tail ∧ BoundTo (headSources nav₁.sources.tail) _ _
  rw [hsources']
  -- what the select brings into scope is still there
  have hkept : ∀ t ∈ s.source, ∃ b ∈ s'.source, t.BoundTo (headSources nav₂.sources) b := fun t ht => by
    obtain ⟨b, hb, htb⟩ := forall₂_mem_left hbound (Option.mem_toList.2 ht)
    exact ⟨b, Option.mem_toList.1 hb, htb⟩
  have hgrow : ∀ a ∈ s.sourceAliases, a ∈ headSources nav₁.sources := by
    intro a ha
    obtain ⟨t, ht, ha⟩ := mem_sourceAliases.1 ha
    obtain ⟨b, hb, htb⟩ := hkept t ht
    refine hjoins'.headSources_subset a ?_
    show a ∈ headSources (s'.source :: nav₂.sources)
    rw [hb]
    exact htb.sources a ha
  have haliases : headSources nav₁.sources = ({ s' with source := o } : Select Tree).sourceAliases := by
    rw [hsources]
    cases o <;> rfl
  refine ⟨hjoins, fun d hd => ?_, fun a ha => ?_, fun a ha => ?_⟩
  · rcases needs_iff.1 hd with ⟨w, hw, hd⟩ | ⟨hfree, b, hb, hd⟩
    · obtain ⟨b, hb, hbd⟩ := hneeds w hw
      obtain ⟨t, ht, htb⟩ := forall₂_mem_right hbound (Option.mem_toList.2 hb)
      have ht := Option.mem_toList.1 ht
      rcases hbd d hd with hd | ⟨⟨a, ha, hd⟩, hfree⟩
      · exact (htb.needs d hd).imp_left fun hd => needs_iff.2 (.inl ⟨t, ht, hd⟩)
      · refine .inl (needs_iff.2 (.inr ⟨fun hmem => hfree ?_, a, ha, hd⟩))
        obtain ⟨t', ht', hmem⟩ := mem_sourceAliases.1 hmem
        cases ht.symm.trans ht'
        exact htb.sources _ hmem
    · rw [← haliases] at hfree
      obtain ⟨a, ha, hab⟩ := forall₂_mem_right hbound' hb
      refine .inl (needs_iff.2 (.inr ⟨fun hmem => hfree (hgrow _ hmem), a, ha, ?_⟩))
      exact (hab.needs d hd).resolve_right hfree
  · rw [sources, hlabel]
    exact ha
  · cases ha
    exact congrArg some hlabel

theorem Tree.binds (h : t.LookupsReach m inner) : t.Binds m inner := by
  induction h with
  | @node inner t access _ ih =>
    intro nav u nav' hvisit hinner
    cases Navigation.visited hvisit with
    | @member root _ _ name _ _ _ visited resolved =>
      have hroot := ih (inner.map ([] ++ ·), root) (by simp [reaches, bindings])
      have hroot : root.Binds m inner := by simpa using hroot
      obtain ⟨hjoins, hbound⟩ := hroot _ _ _ visited hinner
      exact resolved.binds hjoins hbound (access root name rfl)
    | select =>
      refine Select.binds (fun a ha => ih (inner, a) ?_) (fun a ha => ih (_, a) ?_) _ _ _ hvisit hinner
      · exact mem_append_left _ (mem_map_of_mem (Option.mem_toList.2 ha))
      · exact mem_append_right _ (mem_map_of_mem ha)
    | node _ select same children =>
      have hreaches : t.reaches inner = t.bindings.map fun p => (inner.map (p.1 ++ ·), p.2) := by
        cases t with
        | select => cases select
        | _ => rfl
      obtain ⟨hjoins, hbound⟩ := children.binds (P := t.NeedsBeyond inner) fun a ha => by
        obtain ⟨own, hp⟩ := exists_binding ha
        refine ⟨inner.map (own ++ ·), ih (inner.map (own ++ ·), a) ?_, fun hnone => ?_, fun hs d hd => ?_⟩
        · rw [hreaches]
          exact mem_map_of_mem hp
        · exact hinner (Option.map_eq_none_iff.1 hnone)
        · cases inner with
          | none => cases hs.symm.trans (hinner rfl)
          | some i =>
            have hlabel := hd.2 _ rfl
            rw [mem_append, not_or] at hlabel
            refine ⟨.child hp hlabel.1 hd.1, ?_⟩
            rintro _ ⟨rfl⟩
            exact hlabel.2
      exact ⟨hjoins, (same.of_children hbound).boundTo⟩

/-! ## Trees whose lookups reach their sources -/

namespace Tree.LookupsReach

variable {inner : Option (List Alias)}

theorem of_memberFree (h : t.MemberFree) (inner : Option (List Alias)) : t.LookupsReach m inner := by
  induction t generalizing inner with
  | step t ih =>
    obtain ⟨hmember, hchildren⟩ := every_iff.1 h
    refine .node (fun root name ht => ?_) fun p hp => ?_
    · subst ht
      cases hmember
    · have hmem : p.2 ∈ t.children := by
        cases t with
        | select s i =>
          rw [children, s.clauses_eq, mem_append]
          simp only [reaches, mem_append, mem_map] at hp
          rcases hp with ⟨a, ha, rfl⟩ | ⟨a, ha, rfl⟩
          · exact .inl ha
          · exact .inr ha
        | _ =>
          obtain ⟨q, hq, rfl⟩ := mem_map.1 hp
          exact mem_children_of_bindings hq
      exact ih p.2 hmem (hchildren p.2 hmem) p.1

theorem of_unbound (h : t.Every fun u => u.isSelect = false ∧ ∀ p ∈ u.bindings, p.1 = []) :
    t.LookupsReach m (some []) := by
  induction t with
  | step t ih =>
    obtain ⟨⟨hselect, hnode⟩, hchildren⟩ := every_iff.1 h
    refine .node (fun root name _ _ i hi c _ => ?_) fun p hp => ?_
    · cases hi
      exact not_mem_nil
    · have hp : p ∈ t.bindings.map fun p => ((some []).map (p.1 ++ ·), p.2) := by
        cases t with
        | select => cases hselect
        | _ => exact hp
      obtain ⟨q, hq, rfl⟩ := mem_map.1 hp
      have hmem := mem_children_of_bindings hq
      simp only [hnode q hq, Option.map_some, nil_append]
      exact ih q.2 hmem (hchildren q.2 hmem)

theorem select (source : ∀ a ∈ s.source, a.LookupsReach m inner)
    (others : ∀ a ∈ s.others, a.LookupsReach m (if s.source.isSome then some [] else none)) :
    (select s i).LookupsReach m inner := by
  refine .node (fun _ _ h => by cases h) fun p hp => ?_
  simp only [reaches, mem_append, mem_map] at hp
  rcases hp with ⟨a, ha, rfl⟩ | ⟨a, ha, rfl⟩
  · exact source a (Option.mem_toList.1 ha)
  · exact others a ha

end Tree.LookupsReach

/-! ## Queries -/

/-- A query that is accepted is accepted with its members bound, wherever its members are accessed, if no
lookup starts inside of the source or the shape that it would have to see. -/
theorem Tree.bindMembers_checkScopes {lookups : List Alias} {next next' : Alias}
    (reach : t.LookupsReach m none) (accepted : t.checkScopes = .ok ())
    (bound : (t.bindMembers m).Gives next (u, lookups) next') : u.checkScopes = .ok () := by
  obtain ⟨nav, hvisit, -, -⟩ := bindMembers_gives.1 bound
  obtain ⟨hjoins, hbound⟩ := binds reach _ _ _ hvisit fun _ => rfl
  have hsources : nav.sources = [] := hjoins.eq_of_not_hasSource rfl
  refine checkScopes_iff.2 fun c hc => ?_
  rcases hbound.needs c hc with hc | hmem
  · exact checkScopes_iff.1 accepted c hc
  · rw [hsources] at hmem
    cases hmem

def addressBook : EntityMap :=
  [{ name := "Customer", table := "customers", columns := [⟨"home", "address_id", .int64⟩]
     relationships := [⟨"address", "Address", [("home", "id")], true⟩] },
   { name := "Address", table := "addresses", columns := [⟨"id", "id", .int64⟩, ⟨"city", "city", .string⟩] }]

def customerCity (customer : Alias) : Tree :=
  let home : ColumnRef := ⟨.int64, ScalarType.int64.columnType, customer, "address_id"⟩
  .member (.member (.entity "Customer" (.record [("home", .column home)])) "address") "city"

/-- The cities in which more customers live: the second customer and the city of the first one are read
in a query of their own. -/
def sharedCities : Tree :=
  let other : Select Tree :=
    { label := 2, columns := [], source := some (.table 1 "customers")
      filter := some (.binary .equal (customerCity 1) (customerCity 0)) }
  .select
    { label := 3, columns := [⟨"city", customerCity 0, ScalarType.string.columnType⟩]
      source := some (.table 0 "customers"), filter := some (.existsSubquery (.select other none)) }
    none

theorem sharedCities_lookupsReach : sharedCities.LookupsReach addressBook none := by
  have hcity : ∀ customer, (customerCity customer).LookupsReach addressBook (some []) := fun customer =>
    .of_unbound (by simp [Every, customerCity, subtrees_eq, isSelect, bindings])
  have htable : ∀ a name inner, (table a name).LookupsReach addressBook inner := fun a name =>
    .of_memberFree (by simp [MemberFree, Every, subtrees_eq, isMember])
  have hequal : (binary .equal (customerCity 1) (customerCity 0)).LookupsReach addressBook (some []) := by
    refine .node (fun _ _ h => by cases h) fun p hp => ?_
    rcases mem_pair.1 hp with rfl | rfl
    · exact hcity 1
    · exact hcity 0
  refine .select ?_ fun a ha => ?_
  · rintro _ ⟨rfl⟩
    exact htable 0 "customers" none
  · rcases mem_pair.1 ha with rfl | rfl
    · refine .node (fun _ _ h => by cases h) fun p hp => ?_
      obtain rfl := mem_singleton.1 hp
      refine .select ?_ fun a ha => ?_
      · rintro _ ⟨rfl⟩
        exact htable 1 "customers" _
      · obtain rfl := mem_singleton.1 ha
        exact hequal
    · exact hcity 0

theorem bindMembers_checkScopes_sharedCities :
    sharedCities.LookupsReach addressBook none ∧ sharedCities.checkScopes = .ok () ∧
      ∃ u lookups next', (sharedCities.bindMembers addressBook).Gives 4 (u, lookups) next' ∧
        u.checkScopes = .ok () := by
  have accepted : sharedCities.checkScopes = .ok () := by decide
  obtain ⟨⟨u, lookups⟩, next', bound⟩ : ∃ p next', (sharedCities.bindMembers addressBook).Gives 4 p next' :=
    Lowering.exists_gives (by decide +kernel)
  exact ⟨sharedCities_lookupsReach, accepted, u, lookups, next', bound,
    bindMembers_checkScopes sharedCities_lookupsReach accepted bound⟩

end HiveQuery
