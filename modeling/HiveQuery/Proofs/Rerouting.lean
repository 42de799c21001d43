import HiveQuery.Proofs.NumberRows

/-!
# Trees with other columns

A tree whose aliases stay where they are refines the tree it comes from if each of its columns may be read for the
column in its place.
-/

namespace HiveQuery
open List HiveQuery.Tree
variable {n : Alias} {s s' : Select Tree} {t u : Tree} {replace : Tree → Lowering Tree} {R : Tree → Tree → Prop}

/-! ## Trees rebuilt from their leaves -/

theorem Threaded.forall₂ {α β : Type} {step : α → Alias → β → Alias → Prop} {as : List α} {bs : List β}
    {n' : Alias} (h : Threaded step as n bs n') (mono : ∀ a ∈ as, ∀ {m b m'}, step a m b m' → m ≤ m') :
    n ≤ n' ∧ Forall₂ (fun a b => a ∈ as ∧ ∃ m m', n ≤ m ∧ step a m b m') as bs := by
  induction h with
  | nil => exact ⟨le_refl _, .nil⟩
  | cons head _ ih =>
    have hhead := mono _ mem_cons_self head
    obtain ⟨hle, hrest⟩ := ih fun a ha => mono a (.tail _ ha)
    refine ⟨hhead.trans hle, .cons ⟨mem_cons_self, _, _, le_refl _, head⟩ ?_⟩
    refine hrest.imp fun a b hab => ?_
    obtain ⟨ha, m, m', hm, hstep⟩ := hab
    exact ⟨.tail _ ha, m, m', hhead.trans hm, hstep⟩

def Tree.RebuiltAs (replace : Tree → Lowering Tree) (n : Alias) (t u : Tree) : Prop :=
  ∃ m m', n ≤ m ∧ (t.bottomUp replace).Gives m u m'

theorem Tree.RebuiltAs.mono {m : Alias} {t : Tree} (h : t.RebuiltAs replace m u) (hle : n ≤ m) :
    t.RebuiltAs replace n u := by
  obtain ⟨k, k', hk, hgives⟩ := h
  exact ⟨k, k', hle.trans hk, hgives⟩

/-- One node of a lowering from the leaves up. -/
theorem Tree.bottomUp_gives (mono : ∀ {t u : Tree} {n n'}, (replace t).Gives n u n' → n ≤ n') (t : Tree)
    {n' : Alias} (h : (t.bottomUp replace).Gives n u n') :
    n ≤ n' ∧ ∃ v m, n ≤ m ∧ (replace v).Gives m u n' ∧
      t.SameNode (fun a b => a ∈ t.children ∧ a.RebuiltAs replace n b) v := by
  induction t generalizing u n n' with
  | step t ih =>
    obtain ⟨v, m, hsame, hchildren, hreplace, -⟩ := bottomUp_outcome lowering h
    obtain ⟨hle, hall⟩ := hchildren.forall₂ fun a ha {_ _ _} hstep => (ih a ha hstep).1
    exact ⟨hle.trans (mono hreplace), v, m, hle, hreplace, hsame.of_children hall⟩

theorem Tree.RebuiltAs.node (mono : ∀ {t u : Tree} {n n'}, (replace t).Gives n u n' → n ≤ n') {t : Tree}
    (h : t.RebuiltAs replace n u) :
    ∃ v m m', n ≤ m ∧ (replace v).Gives m u m' ∧
      t.SameNode (fun a b => a ∈ t.children ∧ a.RebuiltAs replace n b) v := by
  obtain ⟨k, k', hk, hgives⟩ := h
  obtain ⟨_, v, m, hm, hreplace, hsame⟩ := bottomUp_gives mono t hgives
  refine ⟨v, m, k', hk.trans hm, hreplace, ?_⟩
  exact hsame.imp fun a b _ hab => ⟨hab.1, hab.2.mono hk⟩

/-! ## What a node keeps -/

theorem Select.SameClauses.sourceAliases_map {S : Tree → Tree → Prop} {f : Alias → Alias}
    (h : s.SameClauses S R s') (hS : ∀ a b, S a b → b.sources = a.sources.map f) :
    s'.sourceAliases = s.sourceAliases.map f := by
  have hsource := h.source
  unfold sourceAliases
  generalize s.source = o, s'.source = o' at hsource
  cases hsource with
  | none => rfl
  | some hab => exact hS _ _ hab

theorem Select.SameClauses.sourceAliases {S : Tree → Tree → Prop} (h : s.SameClauses S R s')
    (hS : ∀ a b, S a b → b.sources = a.sources) : s'.sourceAliases = s.sourceAliases := by
  have haliases := h.sourceAliases_map (f := id) fun a b hab => by rw [hS a b hab, map_id]
  rwa [map_id] at haliases

theorem Select.SameClauses.clauseScopes (h : s.SameClauses R R s') (hR : ∀ a b, R a b → b.sources = a.sources)
    (scope : List Alias) :
    Forall₂ (fun p q => q.1 = p.1 ∧ R p.2 q.2) (s.clauseScopes scope) (s'.clauseScopes scope) := by
  have hscoped : ∀ {ts us : List Tree} (X : List Alias), Forall₂ R ts us →
      Forall₂ (fun p q => q.1 = p.1 ∧ R p.2 q.2) (ts.map (X, ·)) (us.map (X, ·)) := fun X h =>
    forall₂_map_iff.2 (h.imp fun _ _ h => ⟨rfl, h⟩)
  have hinner : Forall₂ R s.inner s'.inner :=
    rel_append (rel_append (rel_append (optionRel_iff.1 h.filter) h.keys) h.group) h.values
  have hbounds : Forall₂ R s.bounds s'.bounds := rel_append (optionRel_iff.1 h.skip) (optionRel_iff.1 h.take)
  unfold Select.clauseScopes
  rw [h.sourceAliases hR]
  exact rel_append (rel_append (rel_append (hscoped _ (optionRel_iff.1 h.source))
    (hscoped _ hinner)) (hscoped _ h.cluster)) (hscoped _ hbounds)

namespace Tree.SameNode

variable {R : Tree → Tree → Prop} {t u : Tree} {scope : List Alias}

section

variable (h : t.SameNode R u) (hR : ∀ a b, R a b → b.sources = a.sources)
include h hR

theorem sources : u.sources = t.sources := by
  cases h with
  | select id id' hlabel _ => simp [sources, hlabel]
  | join kind id id' hl hr _ => simp only [sources, hR _ _ hl, hR _ _ hr]
  | _ => rfl

theorem brings : u.brings = t.brings := by
  cases h with
  | select id id' _ same => exact same.sourceAliases hR
  | join kind id id' hl hr _ => simp only [brings, hR _ _ hl, hR _ _ hr]
  | _ => rfl

theorem childScopes (scope : List Alias) :
    Forall₂ (fun p q => q.1 = p.1 ∧ R p.2 q.2) (t.childScopes scope) (u.childScopes scope) := by
  have hchildren : Forall₂ (fun p q => q.1 = p.1 ∧ R p.2 q.2) (t.children.map (scope, ·))
      (u.children.map (scope, ·)) :=
    forall₂_map_left_iff.2 (forall₂_map_right_iff.2
      (h.children.imp fun _ _ h => ⟨rfl, h⟩))
  cases h with
  | select id id' _ same => exact same.clauseScopes hR scope
  | join kind id id' hl hr hc =>
    have hcondition := optionRel_iff.1 hc
    simp only [childScopes, hR _ _ hl, hR _ _ hr]
    refine .cons ⟨rfl, hl⟩ (.cons ⟨rfl, hr⟩ ?_)
    exact forall₂_map_left_iff.2 (forall₂_map_right_iff.2 (hcondition.imp fun _ _ h => ⟨rfl, h⟩))
  | _ => exact hchildren

theorem hygienic (ht : t.Hygienic scope)
    (children : ∀ X a b, (X, a) ∈ t.childScopes scope → R a b → b.Hygienic X) :
    u.Hygienic scope := by
  refine .node (h.brings hR ▸ ht.nodup) (h.brings hR ▸ ht.apart) fun q hq => ?_
  obtain ⟨p, hp, hscope, hab⟩ := forall₂_mem_right (h.childScopes hR scope) hq
  exact hscope ▸ children p.1 p.2 q.2 hp hab

end

theorem isExact (h : t.SameNode R u) (hR : ∀ a b, R a b → a.IsExact → b.IsExact) (ht : t.IsExact) :
    u.IsExact := by
  obtain ⟨hnode, hchildren⟩ := isExact_iff.1 ht
  refine isExact_iff.2 ⟨?_, fun b hb => ?_⟩
  · cases h <;> exact hnode
  · obtain ⟨a, ha, hab⟩ := forall₂_mem_right h.children hb
    exact hR a b hab (hchildren a ha)

end Tree.SameNode

/-! ## Aliases that stay -/

variable {a : Tree} {env : Environment} {k : Mode} {μ : Reads} {ν ν' : ColumnMatch} {i : Option Identity}

/-- Columns of the given sources correspond to the columns of the same name there. -/
def ColumnMatch.Keeps (ν : ColumnMatch) (aliases : List Alias) : Prop :=
  ∀ c d : ColumnRef, c.label ∈ aliases → d.label = c.label → d.name = c.name → ν c d

theorem ColumnMatch.Keeps.of_sameName (aliases : List Alias) : sameName.Keeps aliases :=
  fun _ _ _ _ hname => hname

theorem ColumnMatch.Keeps.join {l r : List Alias} (h : ν.Keeps l) (h' : ν'.Keeps r) :
    (joinMatch l l ν ν').Keeps (l ++ r) := by
  intro c d hc hlabel hname
  by_cases hl : c.label ∈ l
  · exact .inl ⟨hl, hlabel ▸ hl, h c d hl hlabel hname⟩
  · exact .inr ⟨hl, hlabel ▸ hl, h' c d ((mem_append.1 hc).resolve_left hl) hlabel hname⟩

structure Replaces (env : Environment) (k : Mode) (μ : Reads) (t u : Tree) : Prop where
  scalar : Refines env k (.scalar μ t u)
  source : ∃ ν : ColumnMatch, ν.Keeps t.sources ∧ ∀ top, Refines env k (.source top μ ν t u)

theorem Reads.within_nil (μ : Reads) (ν : ColumnMatch) : μ.within [] [] ν = μ := by
  simp [within]

/-- What holds of a scope and a tree holds of the trees below in the scopes in which they stand. -/
structure ScopedRule (H : Reads → Tree → Prop) : Prop where
  within : ∀ {μ t a} {new : List Alias} {ν : ColumnMatch}, H μ t → (new, a) ∈ t.childScopes [] → ν.Keeps new →
    H (μ.within new new ν) a

theorem Tree.apart_of_childScopes (nodup : t.declared.Nodup) {new : List Alias}
    (ha : (new, a) ∈ t.childScopes []) : ∀ x ∈ new, x ∈ t.declared ∧ x ∉ a.declared := fun x hx =>
  ⟨t.brings_sublist.subset ((mem_of_childScopes ha x hx).resolve_right not_mem_nil),
    ((childScopes_spec nodup ha).2 x hx).resolve_left not_mem_nil⟩

theorem Select.mem_childScopes (ha : a ∈ s.inner) :
    (s.sourceAliases, a) ∈ (select s i).childScopes [] := by
  simp [childScopes, clauseScopes, ha]

theorem Select.apart_of_inner (nodup : (select s i).declared.Nodup)
    (ha : a ∈ s.inner) : ∀ x ∈ s.sourceAliases, x ∈ (select s i).declared ∧ x ∉ a.declared :=
  apart_of_childScopes nodup (mem_childScopes ha)

section Join

variable {kind : JoinKind} {l r : Tree} {c : Option Tree} {i : Option Identity}

theorem Tree.apart_of_right (nodup : (join ⟨kind, l, r, c⟩ i).declared.Nodup) :
    ∀ x ∈ l.sources, x ∈ (join ⟨kind, l, r, c⟩ i).declared ∧ x ∉ r.declared := by
  have hdeclared := declared_join kind l r c i
  rw [hdeclared] at nodup ⊢
  intro x hx
  have hx := l.sources_sublist.subset hx
  refine ⟨mem_append_left _ hx, fun hx' => ?_⟩
  exact (nodup_append.1 nodup).2.2 x hx x (mem_append_left _ hx') rfl

theorem Tree.mem_childScopes_condition (ha : c = some a) :
    (l.sources ++ r.sources, a) ∈ (join ⟨kind, l, r, c⟩ i).childScopes [] := by
  simp [childScopes, ha]

end Join

namespace ScopedRule

variable {H : Reads → Tree → Prop} {R : Tree → Tree → Prop}

theorem child (hH : ScopedRule H) (hμ : H μ t) (ha : ([], a) ∈ t.childScopes []) : H μ a :=
  μ.within_nil sameName ▸ hH.within hμ ha (.of_sameName _)

theorem of_nodup (within : ∀ {μ t a} {new : List Alias} {ν : ColumnMatch}, H μ t → a ∈ t.children →
      (∀ x ∈ new, x ∈ t.declared ∧ x ∉ a.declared) → ν.Keeps new → H (μ.within new new ν) a) :
    ScopedRule fun μ t => t.declared.Nodup ∧ H μ t where
  within h ha hν := by
    have hchild := (childScopes_spec h.1 ha).1
    exact ⟨h.1.sublist (declared_of_child hchild), within h.2 hchild (apart_of_childScopes h.1 ha) hν⟩

theorem selectSource (hH : ScopedRule H) (source : Option.Rel R s.source s'.source)
    (children : ∀ a ∈ s.clauses, ∀ b, R a b → ∀ {μ}, H μ a → Replaces env k μ a b) (hμ : H μ (.select s i)) :
    ∃ ν : ColumnMatch, ν.Keeps s.sourceAliases ∧ ∀ t u, s.source = some t →
      s'.source = some u → Refines env k (.source true μ ν t u) := by
  unfold Select.sourceAliases
  cases ht : s.source with
  | none => exact ⟨sameName, .of_sameName _, by simp⟩
  | some t =>
    cases hu : s'.source with
    | none => exact ⟨sameName, .of_sameName _, by simp⟩
    | some u =>
      obtain ⟨ν, hν, hrefines⟩ := (children t (by simp [Select.clauses, ht]) u (option_rel_of_some source ht hu)
        (hH.child hμ (by simp [childScopes, Select.clauseScopes, ht]))).source
      refine ⟨ν, hν, ?_⟩
      rintro _ _ ⟨rfl⟩ ⟨rfl⟩
      exact hrefines true

variable (sources : ∀ a b, R a b → b.sources = a.sources)
  (aggregates : ∀ a b, R a b → b.hasAggregate = a.hasAggregate)

include sources in
theorem join (hH : ScopedRule H) {kind : JoinKind} {l r l' r' : Tree} {c c' : Option Tree}
    (j : Option Identity) (hl : R l l') (hr : R r r') (hc : Option.Rel R c c')
    (children : ∀ a ∈ (join ⟨kind, l, r, c⟩ i).children, ∀ b, R a b → ∀ {μ}, H μ a →
      Replaces env k μ a b)
    (hμ : H μ (.join ⟨kind, l, r, c⟩ i)) :
    ∃ ν : ColumnMatch, ν.Keeps (l.sources ++ r.sources) ∧ ∀ top, Refines env k
      (.source top μ ν (.join ⟨kind, l, r, c⟩ i) (.join ⟨kind, l', r', c'⟩ j)) := by
  obtain ⟨ν, hν, hleft⟩ := (children l mem_cons_self l' hl (hH.child hμ mem_cons_self)).source
  have hscope : (if kind.isApply then l.sources else [], r) ∈ (Tree.join ⟨kind, l, r, c⟩ i).childScopes [] := by
    simp [childScopes]
  have hμr : H (if kind.isApply then μ.within l.sources l'.sources ν else μ) r := by
    rw [sources l l' hl]
    split at hscope
    · next happly => exact if_pos happly ▸ hH.within hμ hscope hν
    · next happly => exact if_neg happly ▸ hH.child hμ hscope
  obtain ⟨ν', hν', hright⟩ := (children r (.tail _ (.head _)) r' hr hμr).source
  have hmatch := hν.join hν'
  refine ⟨joinMatch l.sources l'.sources ν ν', ?_, fun top => ?_⟩
  · rwa [sources l l' hl]
  · refine .joined kind i j (.plain (hleft false)) (.plain (hright false)) (option_isSome_eq hc) ?_
    intro a b ha hb
    refine (children a (by simp [ha]) b (option_rel_of_some hc ha hb) ?_).scalar
    rw [sources l l' hl, sources r r' hr]
    exact hH.within hμ (mem_childScopes_condition ha) hmatch

include sources aggregates

theorem select (hH : ScopedRule H) (same : s.SameClauses R R s')
    (children : ∀ a ∈ s.clauses, ∀ b, R a b → ∀ {μ}, H μ a → Replaces env k μ a b) (hμ : H μ (.select s i))
    (top : Bool) : Refines env k (.select top μ s s') := by
  obtain ⟨ν, hν, hsource⟩ := hH.selectSource same.source children hμ
  refine .select_of_same same aggregates (fun t u ht hu _ => hsource t u ht hu) ?_ ?_ top
  · rintro a ha b - hab
    refine (children a (s.mem_clauses_of_inner ha) b hab ?_).scalar
    rw [same.sourceAliases sources]
    exact hH.within hμ (Select.mem_childScopes ha) hν
  · rintro a ha b - hab
    exact (children a (s.mem_clauses_of_bounds ha) b hab
      (hH.child hμ (by simp [childScopes, Select.clauseScopes, ha]))).scalar

/-- A node is refined by the same node over refined children. -/
theorem replaces (hH : ScopedRule H) (same : t.SameNode R u) (column : t.column? = none)
    (children : ∀ a ∈ t.children, ∀ b, R a b → ∀ {μ}, H μ a → Replaces env k μ a b)
    (hμ : H μ t) : Replaces env k μ t u := by
  have hscalar : t.isSelect = false → Refines env k (.scalar μ t u) := by
    intro hselect
    refine .scalar_of_sameNode same hselect column aggregates fun hinert a ha b hab => ?_
    refine (children a ha b hab (hH.child hμ ?_)).scalar
    cases t with
    | select => cases hselect
    | join => cases hinert
    | _ => exact mem_map_of_mem ha
  have hother : t.isSource = false → u.isSource = false → t.isSelect = false →
      Replaces env k μ t u := fun ht hu hselect =>
    ⟨hscalar hselect, sameName, .of_sameName _, fun top => .notSource top μ ht hu⟩
  cases same with
  | select i j _ same =>
    have hselect := hH.select sources aggregates same children hμ
    exact ⟨.query i j (hselect true), sameName, .of_sameName _,
      fun top => .source_of_select i j (hselect top)⟩
  | join kind i j hl hr hc => exact ⟨hscalar rfl, hH.join sources j hl hr hc children hμ⟩
  | table a name => exact ⟨hscalar rfl, sameName, .of_sameName _, fun top => .table top μ a a name⟩
  | _ => exact hother rfl rfl rfl

end ScopedRule

/-! ## Columns that change -/

/-- Trees that differ in their columns only. -/
inductive Tree.Rerouted (Q : ColumnRef → ColumnRef → Prop) : Tree → Tree → Prop
  | column {c d : ColumnRef} (reads : Q c d) : Rerouted Q (.column c) (.column d)
  | node {t u : Tree} (column : t.column? = none) (same : t.SameNode (fun _ _ => True) u)
      (children : Forall₂ (Rerouted Q) t.children u.children) : Rerouted Q t u

/-- Other columns are read only for columns from outside of a tree, and none from inside of it. -/
structure Reads.Reroutes (Q : ColumnRef → ColumnRef → Prop) (μ : Reads) (t : Tree) : Prop where
  links : ∀ c d, .column c ∈ t.subtrees → Q c d → μ.Links c d
  kept : ∀ c d, .column c ∈ t.subtrees → Q c d → c.label ∈ t.declared → d = c
  apart : ∀ c d, .column c ∈ t.subtrees → Q c d → d.label ∈ t.declared → d = c

theorem Reads.reroutes_rule (Q : ColumnRef → ColumnRef → Prop) :
    ScopedRule fun μ t => t.declared.Nodup ∧ μ.Reroutes Q t := by
  refine .of_nodup fun {μ t a new ν} h ha hnew hν => ?_
  have hmem : ∀ c, .column c ∈ a.subtrees → .column c ∈ t.subtrees := fun c hc =>
    mem_subtrees.2 (.inr ⟨a, ha, hc⟩)
  have hdeclared := (declared_of_child ha).subset
  refine ⟨fun c d hc hcd hleft => ?_, fun c d hc hcd hl => h.kept c d (hmem c hc) hcd (hdeclared hl),
    fun c d hc hcd hl => h.apart c d (hmem c hc) hcd (hdeclared hl)⟩
  by_cases hcnew : c.label ∈ new
  · obtain rfl := h.kept c d (hmem c hc) hcd (hnew _ hcnew).1
    exact ⟨mem_append_left _ hcnew, .inl ⟨hcnew, hcnew, hν d d hcnew rfl rfl⟩⟩
  · have hdnew : d.label ∉ new := fun hdnew =>
      hcnew (h.apart c d (hmem c hc) hcd (hnew _ hdnew).1 ▸ hdnew)
    obtain ⟨hright, hrel⟩ := h.links c d (hmem c hc) hcd ((mem_append.1 hleft).resolve_left hcnew)
    exact ⟨mem_append_right _ hright, .inr ⟨hcnew, hdnew, hrel⟩⟩

namespace Tree.Rerouted

variable {Q : ColumnRef → ColumnRef → Prop}

theorem of_sameNode (hQ : ∀ c, Q c c) (same : t.SameNode (Rerouted Q) u) : t.Rerouted Q u := by
  have hnode := same.imp fun _ _ _ _ => trivial
  by_cases hcolumn : t.column? = none
  · exact .node hcolumn hnode same.children
  · cases same with
    | column c => exact .column (hQ c)
    | _ => exact absurd rfl hcolumn

theorem of_self (hQ : ∀ c, Q c c) (t : Tree) : t.Rerouted Q t := by
  induction t with
  | step t ih => exact .of_sameNode hQ (.of_self ih)

section

variable (h : t.Rerouted Q u)
include h

@[elab_as_elim]
theorem rel {R : Tree → Tree → Prop}
    (column : ∀ {c d}, Q c d → R (.column c) (.column d))
    (node : ∀ {a b}, a.column? = none → a.SameNode (Tree.Rerouted Q) b → a.SameNode R b → R a b) : R t u := by
  induction t generalizing u with
  | step t ih =>
    cases h with
    | column hcd => exact column hcd
    | node hcolumn same children =>
      exact node hcolumn (same.of_children children)
        (same.of_children (forall₂_imp_mem children fun a b ha hab => ih a ha hab))

theorem sources : u.sources = t.sources :=
  h.rel (fun _ => rfl) fun _ _ same => same.sources fun _ _ h => h

theorem declared : u.declared = t.declared := by
  refine h.rel (fun _ => rfl) fun {a b} _ _ same => ?_
  have hchildren : b.children.map Tree.declared = a.children.map Tree.declared :=
    map_eq_of_forall₂ same.children fun _ _ h => h
  rw [declared_eq, declared_eq, same.label?, flatMap_def, flatMap_def, hchildren]

theorem hasAggregate : u.hasAggregate = t.hasAggregate :=
  h.rel (fun _ => rfl) fun _ _ same => same.hasAggregate fun _ _ h => h

theorem exists_left {d : ColumnRef} :
    .column d ∈ u.subtrees → ∃ c, .column c ∈ t.subtrees ∧ Q c d := by
  refine h.rel (fun {c _} hcd hd => ?_) fun hcolumn _ same hd => ?_
  · cases mem_subtrees_column.1 hd
    exact ⟨c, mem_subtrees_column.2 rfl, hcd⟩
  · rcases mem_subtrees.1 hd with rfl | ⟨b, hb, hd⟩
    · cases same
      cases hcolumn
    · obtain ⟨a, ha, hab⟩ := forall₂_mem_right same.children hb
      obtain ⟨c, hc, hcd⟩ := hab hd
      exact ⟨c, mem_subtrees.2 (.inr ⟨a, ha, hc⟩), hcd⟩

theorem exists_right {c : ColumnRef} :
    .column c ∈ t.subtrees → ∃ d, .column d ∈ u.subtrees ∧ Q c d := by
  refine h.rel (fun {_ d} hcd hc => ?_) fun hcolumn _ same hc => ?_
  · cases mem_subtrees_column.1 hc
    exact ⟨d, mem_subtrees_column.2 rfl, hcd⟩
  · rcases mem_subtrees.1 hc with rfl | ⟨a, ha, hc⟩
    · cases hcolumn
    · obtain ⟨b, hb, hab⟩ := forall₂_mem_left same.children ha
      obtain ⟨d, hd, hcd⟩ := hab hc
      exact ⟨d, mem_subtrees.2 (.inr ⟨b, hb, hd⟩), hcd⟩

theorem replaces (nodup : t.declared.Nodup) (hμ : μ.Reroutes Q t) :
    Replaces env k μ t u := by
  induction t generalizing u μ with
  | step t ih =>
    cases h with
    | column hcd =>
      exact ⟨.column (hμ.links _ _ (mem_subtrees.2 (.inl rfl)) hcd), sameName, .of_sameName _,
        fun top => .notSource top μ rfl rfl⟩
    | node column same children =>
      exact (Reads.reroutes_rule Q).replaces (fun _ _ h => h.sources) (fun _ _ h => h.hasAggregate)
        (same.of_children children) column (fun a ha b hab _ hμ => ih a ha hab hμ.1 hμ.2) ⟨nodup, hμ⟩

end

end Tree.Rerouted

end HiveQuery
