import HiveQuery.Proofs.StandIns

/-!
# Queries without repeated lookups

A rebuilt tree is followed through the rebuilding: wherever it is computed, columns have the same values if they are
read from the sources that stand in for dropped ones.
-/

namespace HiveQuery

variable {existing label : Alias}
open List HiveQuery.Tree
variable {env : Environment} {lookups : List Alias} {dropped σ σ' : List (Alias × Alias)} {t u v : Tree}
  {ν : ColumnMatch} {frames frames' : Frames} {kind : JoinKind} {σ₁ σ₂ : List (Alias × Alias)}
  {c c' : Option Tree} {l l' r r' : Tree}

/-! ## What is left -/

structure Tree.Remains (t u : Tree) : Prop where
  label : u.label? = t.label?
  declared : u.declared.Sublist t.declared
  sources : u.sources.Sublist t.sources
  exact : t.IsExact → u.IsExact
  aggregate : u.hasAggregate = t.hasAggregate
  numbering : SameNumbering t u
  joined : u.joinedAliases ⊆ t.joinedAliases
  extended : u.extendedAliases ⊆ t.extendedAliases

theorem SameNumbering.trans (h : SameNumbering t u) (h' : SameNumbering u v) : SameNumbering t v := by
  refine ⟨h'.1.trans h.1, fun {order order'} ht hv => ?_⟩
  subst ht hv
  have hu : u.isRowNumber = true := h.1
  cases u with
  | rowNumber order₁ => exact (h'.2 rfl rfl).trans (h.2 rfl rfl)
  | _ => cases hu

namespace Tree.Remains

theorem trans (h : t.Remains u) (h' : u.Remains v) : t.Remains v where
  label := h'.label.trans h.label
  declared := h'.declared.trans h.declared
  sources := h'.sources.trans h.sources
  exact ht := h'.exact (h.exact ht)
  aggregate := h'.aggregate.trans h.aggregate
  numbering := h.numbering.trans h'.numbering
  joined := List.Subset.trans h'.joined h.joined
  extended := List.Subset.trans h'.extended h.extended

theorem of_sameNode (same : t.SameNode Remains v) : t.Remains v := by
  have hsources : v.sources.Sublist t.sources ∧ v.joinedAliases ⊆ t.joinedAliases ∧
      v.extendedAliases ⊆ t.extendedAliases ∧ v.isInexact = t.isInexact := by
    cases same with
    | select i j hlabel =>
      refine ⟨?_, List.Subset.refl _, List.Subset.refl _, rfl⟩
      rw [Tree.sources, Tree.sources, hlabel]
    | join kind i j hl hr hc =>
      refine ⟨hl.sources.append hr.sources, ?_, ?_, rfl⟩
      · intro a ha
        simp only [joinedAliases, mem_append, hr.label] at ha ⊢
        exact ha.imp_right (Or.imp (@hl.joined a) (@hr.joined a))
      · intro a ha
        simp only [extendedAliases, mem_append] at ha ⊢
        refine ha.imp (@hl.extended a) fun ha => ?_
        cases hkind : kind.keepsUnmatched with
        | true =>
          rw [hkind, if_pos rfl] at ha
          exact hr.joined ha
        | false =>
          rw [hkind, if_neg Bool.false_ne_true] at ha
          exact hr.extended ha
    | _ => exact ⟨.refl _, List.Subset.refl _, List.Subset.refl _, rfl⟩
  obtain ⟨hsources, hjoined, hextended, hinexact⟩ := hsources
  refine ⟨same.label?, ?_, hsources, fun ht => ?_, same.hasAggregate fun _ _ h => h.aggregate, same.numbering,
    hjoined, hextended⟩
  · rw [declared_eq, declared_eq t, same.label?]
    exact (List.Sublist.refl _).append
      (flatMap_rel .slnil .append (same.children.imp fun _ _ h => h.declared))
  · obtain ⟨hnode, hchildren⟩ := every_iff.1 ht
    refine every_iff.2 ⟨hinexact.trans hnode, fun b hb => ?_⟩
    obtain ⟨a, ha, hab⟩ := forall₂_mem_right same.children hb
    exact hab.exact (hchildren a ha)

theorem refl (t : Tree) : t.Remains t :=
  ⟨rfl, .refl _, .refl _, id, rfl, ⟨rfl, fun h h' => by cases h.symm.trans h'; rfl⟩, List.Subset.refl _,
    List.Subset.refl _⟩

theorem of_anonymous (t : Tree) : t.Remains t.anonymous :=
  .of_sameNode (.anonymous (.of_self fun a _ => .refl a))

end Tree.Remains

theorem Tree.hasAggregate_of_label {a : Alias} (h : t.label? = some a) : t.hasAggregate = false := by
  rw [hasAggregate_eq]
  cases t with
  | table | select => rfl
  | _ => cases h

theorem Tree.DropStep.remains (h : v.DropStep lookups σ u σ') : v.Remains u := by
  cases h with
  | @dropped j label existing i hright hkind hlookup hsimilar =>
    obtain ⟨kind, l, r, c⟩ := j
    obtain ⟨-, -, k, hrepeats, haggregate, -⟩ := similarLookup?_cases hsimilar hright
    have hl : l ∈ (join ⟨kind, l, r, c⟩ i).children := mem_cons_self
    have hjoin := (similarLookup?_spec hsimilar).1
    have hcondition : c.toList.any hasAggregate = k.condition.toList.any hasAggregate :=
      any_eq_of_forall₂ (optionRel_iff.1 (equalOption_iff.1 hrepeats.condition)) fun _ _ h =>
        hasAggregate_of_equalUnder h
    have hlabel : l.label? = none ∧ l.isRowNumber = false := by
      cases l with
      | join => exact ⟨rfl, rfl⟩
      | _ => cases hjoin
    refine ⟨hlabel.1, declared_of_child hl, sublist_append_left _ _,
      fun ht => ht.child hl, ?_, .of_not rfl hlabel.2, ?_, subset_append_left _ _⟩
    · rw [hasAggregate_join, hasAggregate_of_label hright, Bool.false_or, hcondition]
      cases hk : k.condition.toList.any hasAggregate with
      | false => rw [Bool.or_false]
      | true => rw [haggregate hk, Bool.true_or]
    · exact List.Subset.trans (subset_append_left _ _) (subset_append_right _ _)
  | column c =>
    have hexact : (Tree.column (c.rename (standIn σ))).IsExact := every_iff.2 ⟨rfl, nofun⟩
    exact ⟨rfl, .refl _, .refl _, fun _ => hexact, rfl, .of_not rfl rfl, List.Subset.refl _,
      List.Subset.refl _⟩
  | kept column same =>
    rcases same with rfl | rfl
    · exact .refl _
    · exact .of_anonymous _

theorem Tree.remains_of_run (h : t.DropRun lookups dropped σ u σ') : t.Remains u := by
  induction t generalizing u σ σ' with
  | step t ih =>
    obtain ⟨v, m, same, children, hstep⟩ := h.cases_node
    have hall : ∀ {ts us : List Tree} {τ τ' : List (Alias × Alias)},
        Threaded (DropRun lookups dropped) ts τ us τ' → (∀ a ∈ ts, a ∈ t.children) →
        Forall₂ Remains ts us := by
      intro ts us τ τ' hthreaded
      induction hthreaded with
      | nil => exact fun _ => .nil
      | cons head _ ihs =>
        intro hts
        exact .cons (ih _ (hts _ mem_cons_self) head) (ihs fun a ha => hts a (.tail _ ha))
    exact (Tree.Remains.of_sameNode (same.of_children (hall children fun _ h => h))).trans hstep.remains

/-! ## What columns are read from -/

/-- Every column in scope is read from the source that stands in for its own, and a tree declares nothing
that is in scope. -/
structure Reads.Reaches (σ : List (Alias × Alias)) (μ : Reads) (t : Tree) : Prop where
  links : ∀ c : ColumnRef, c.label ∈ μ.left →
    standIn σ c.label ∈ μ.right ∧ μ.rel c (c.rename (standIn σ))
  left : ∀ a ∈ t.declared, a ∉ μ.left
  right : ∀ a ∈ t.declared, a ∉ μ.right

namespace Reads.Reaches

variable {μ : Reads} {a : Tree} {τ : List (Alias × Alias)}

section

variable (h : μ.Reaches σ t) (ha : a ∈ t.children) (hτ : ∀ x ∉ t.declared, τ.lookup x = σ.lookup x)
include h ha hτ

theorem child : μ.Reaches τ a := by
  have hsub := (declared_of_child ha).subset
  refine ⟨fun c hc => ?_, fun x hx => h.left x (hsub hx), fun x hx => h.right x (hsub hx)⟩
  have hstand : standIn τ c.label = standIn σ c.label := standIn_eq_of_lookup (hτ _ fun hx => h.left _ hx hc)
  rw [ColumnRef.rename, hstand]
  exact h.links c hc

theorem within {new new' : List Alias} (hnew : ∀ x ∈ new, x ∈ t.declared ∧ x ∉ a.declared)
    (hsub : new' ⊆ new)
    (hν : ∀ c : ColumnRef, c.label ∈ new → standIn τ c.label ∈ new' ∧ ν c (c.rename (standIn τ))) :
    (μ.within new new' ν).Reaches τ a := by
  have hchild := h.child ha hτ
  refine ⟨fun c hc => ?_, fun x hx hmem => ?_, fun x hx hmem => ?_⟩
  · by_cases hc' : c.label ∈ new
    · obtain ⟨hstand, hrel⟩ := hν c hc'
      exact ⟨mem_append_left _ hstand, .inl ⟨hc', hstand, hrel⟩⟩
    · obtain ⟨hright, hrel⟩ := hchild.links c ((mem_append.1 hc).resolve_left hc')
      refine ⟨mem_append_right _ hright, .inr ⟨hc', fun hmem => ?_, hrel⟩⟩
      exact h.right _ (hnew _ (hsub hmem)).1 hright
  · exact (mem_append.1 hmem).elim (fun hmem => (hnew x hmem).2 hx) (hchild.left x hx)
  · exact (mem_append.1 hmem).elim (fun hmem => (hnew x (hsub hmem)).2 hx) (hchild.right x hx)

end

end Reads.Reaches

structure Tree.DropsAlike (env : Environment) (lookups : List Alias) (σ : List (Alias × Alias)) (t u : Tree)
    (σ' : List (Alias × Alias)) : Prop where
  scalar : ∀ {μ : Reads}, μ.Reaches σ t → t.Follows env lookups μ u
  rows : ∀ {μ : Reads} {frames frames' : Frames}, μ.Reaches σ t → FramesMatch true μ frames frames' →
    LookupsUnique env lookups (t.computedJoins env frames none) →
    Run.Agree true (Forall₂ (RowMatch true t.sources u.sources (readAs σ'))) (t.rows env frames)
      (u.rows env frames')

/-- A tree was rebuilt after others, from a state that agrees with another one on all aliases but those of
the others. -/
def Tree.FollowsFrom (env : Environment) (lookups : List Alias) (σ : List (Alias × Alias)) (own : List Alias)
    (a b : Tree) : Prop :=
  a.Remains b ∧ ∃ τ τ', (∀ x ∉ own, τ.lookup x = σ.lookup x) ∧ a.DropsAlike env lookups τ b τ'

section Nodes

variable {i j : Option Identity} {m : List (Alias × Alias)}

theorem Select.dropped_run_agree {s s' : Select Tree} {μ : Reads}
    (same : s.SameHead s') (h : s.Drops lookups dropped σ s' m σ')
    (nodup : (select s i).declared.Nodup)
    (ih : ∀ a ∈ s.clauses, a.Rebuilds lookups dropped (DropsAlike env lookups))
    (hμ : μ.Reaches σ (.select s i)) (hframes : FramesMatch true μ frames frames')
    (unique : LookupsUnique env lookups (s.computedJoins env frames)) :
    Run.Agree true Eq (s.run env frames) (s'.run env frames') := by
  have hsource := option_rel_imp h.source fun t u ht hu =>
    And.intro (remains_of_run hu.1) (ih t (mem_clauses.2 (.inl ht)) hu.1 hu.2.1)
  have hothers : Forall₂ (FollowsFrom env lookups m (s.others.flatMap declared)) s.others
      s'.others := by
    refine forall₂_imp_mem h.others fun a b ha hab => ?_
    obtain ⟨τ, τ', hτ, hrun, hundropped, -⟩ := hab
    exact ⟨remains_of_run hrun, τ, τ', hτ, ih a (mem_clauses.2 (.inr ha)) hrun hundropped⟩
  have hstate : ∀ {τ : List (Alias × Alias)}, (∀ x ∉ s.others.flatMap declared, τ.lookup x = m.lookup x) →
      ∀ x ∉ (select s i).declared, τ.lookup x = σ.lookup x := fun hτ x hx => by
    rw [hτ x fun hx' => ?_, h.after_of_not_mem hx]
    rw [s.declared_eq] at hx
    exact hx (.tail _ (mem_append_right _ hx'))
  have hsub : s'.sourceAliases ⊆ s.sourceAliases := by
    unfold sourceAliases
    generalize s.source = o, s'.source = o' at hsource
    cases hsource with
    | none => exact List.Subset.refl _
    | some h => exact h.1.sources.subset
  refine (same.of_others hsource hothers).run_agree (ν := readAs m) (fun _ _ h => h.1.aggregate)
    (fun _ _ h => h.1.numbering) ?_ ?_ ?_ hframes unique
  · exact fun t u ht _ htu hunique =>
      htu.2.rows (hμ.child (mem_clauses.2 (.inl ht)) fun _ _ => rfl) hframes hunique
  · rintro a ha b ⟨-, τ, τ', hτ, hab⟩
    refine hab.scalar (hμ.within (s.mem_clauses_of_inner ha) (hstate hτ) (apart_of_inner nodup ha) hsub
      fun c hc => ?_)
    have hstand : standIn τ c.label = standIn m c.label := standIn_eq_of_lookup (hτ _ (h.apart _ hc))
    exact ⟨hstand ▸ h.standIn_mem _ hc, hstand, rfl⟩
  · rintro a ha b ⟨-, τ, τ', hτ, hab⟩
    exact hab.scalar (hμ.child (s.mem_clauses_of_bounds ha) (hstate hτ))

structure Join.PartsAgree (env : Environment) (frames frames' : Frames) (ν ν' : ColumnMatch) (kind : JoinKind)
    (l r : Tree) (c : Option Tree) (l' r' : Tree) (c' : Option Tree) : Prop where
  left : Run.Agree true (Forall₂ (RowMatch true l.sources l'.sources ν)) (l.rows env frames)
    (l'.rows env frames')
  applied : kind.isApply = true → ∀ {x x'}, x ∈ (l.rows env frames).values →
    RowMatch true l.sources l'.sources ν x x' →
    Run.Agree true (Forall₂ (RowMatch true r.sources r'.sources ν')) (r.rows env (x :: frames))
      (r'.rows env (x' :: frames'))
  joined : kind.isApply = false →
    Run.Agree true (Forall₂ (RowMatch true r.sources r'.sources ν')) (r.rows env frames)
      (r'.rows env frames')
  condition : ∀ {x y z}, x ∈ (l.rows env frames).values →
    y ∈ (r.rows env (if kind.isApply then x :: frames else frames)).values →
    RowMatch true (l.sources ++ r.sources) (l'.sources ++ r'.sources) (joinMatch l.sources l'.sources ν ν')
      (x ++ y) z →
    Run.Agree true Eq (satisfies env ((x ++ y) :: frames) c) (satisfies env (z :: frames') c')

theorem Join.PartsAgree.matchesOnce {ν' : ColumnMatch}
    (h : PartsAgree env frames frames' ν ν' kind l r c l' r' c') {rows : List Row}
    (hrows : (join ⟨kind, l, r, c⟩ i).rows env frames = .ok rows)
    (once : MatchesOnce env frames ⟨kind, l, r, c⟩) :
    MatchesOnce env frames' ⟨kind, l', r', c'⟩ := by
  obtain ⟨left, joined, hleft, -, hjoined, -⟩ := rows_join_eq_ok.1 hrows
  intro x' hx'
  cases hleft' : l'.rows env frames' with
  | error e =>
    rw [hleft'] at hx'
    cases hx'
  | ok left' =>
    rw [hleft'] at hx'
    obtain ⟨x, hx, hm⟩ := forall₂_mem_right ((h.left left hleft).2 left' hleft') hx'
    have hx : x ∈ (l.rows env frames).values := by
      rw [hleft]
      exact hx
    have hright : Run.Agree true (Forall₂ (RowMatch true r.sources r'.sources ν'))
        (r.rows env (around ⟨kind, l, r, c⟩ frames x))
        (r'.rows env (around ⟨kind, l', r', c'⟩ frames' x')) := by
      unfold around
      cases hkind : kind.isApply with
      | true => exact h.applied hkind hx hm
      | false => exact h.joined hkind
    have hmatched : Run.Agree true _ (matched env frames ⟨kind, l, r, c⟩ x)
        (matched env frames' ⟨kind, l', r', c'⟩ x') :=
      matchRow_agree hm hright fun y z hy hz => h.condition hx hy hz
    obtain ⟨ws, -, kept, hkept, -⟩ := forall₂_mem_left hjoined (by rwa [hleft] at hx)
    have honce := once x hx
    rw [hkept] at honce
    cases hkept' : matched env frames' ⟨kind, l', r', c'⟩ x' with
    | error e => exact Nat.zero_le 1
    | ok kept' => exact ((hmatched kept hkept).2 kept' hkept').length_eq ▸ honce

theorem RowMatch.trans {new new' new'' : List Alias} {ν' ν'' : ColumnMatch} {row row' row'' : Row}
    (h : RowMatch true new new' ν row row') (h' : RowMatch true new' new'' ν' row' row'')
    (hν : ∀ c d : ColumnRef, c.label ∈ new → d.label ∈ new'' → ν'' c d →
      ∃ e : ColumnRef, e.label ∈ new' ∧ ν c e ∧ ν' e d) :
    RowMatch true new new'' ν'' row row'' := by
  refine ⟨h.labels, h'.labels', fun {c d} hc hd hcd v hv => ?_⟩
  obtain ⟨e, he, hce, hed⟩ := hν c d hc hd hcd
  obtain ⟨w, hw⟩ := (h.values hc he hce v hv).1 rfl
  obtain rfl := (h.values hc he hce v hv).2 w hw
  exact h'.values he hd hed v hw

namespace Join.Drops

variable (h : Join.Drops lookups dropped σ l r c l' r' c' σ₁ σ₂ σ')
include h

theorem partsAgree (nodup : (join ⟨kind, l, r, c⟩ i).declared.Nodup)
    (ih : ∀ a ∈ (join ⟨kind, l, r, c⟩ i).children, a.Rebuilds lookups dropped (DropsAlike env lookups))
    {μ : Reads} (hμ : μ.Reaches σ (.join ⟨kind, l, r, c⟩ i)) (hframes : FramesMatch true μ frames frames')
    (unique : LookupsUnique env lookups ((join ⟨kind, l, r, c⟩ i).computedJoins env frames none)) :
    PartsAgree env frames frames' (readAs σ₁) (readAs σ₂) kind l r c l' r' c' := by
  have hdeclared := declared_join kind l r c i
  simp only [computedJoins, lookupsUnique_append, lookupsUnique_cons] at unique
  obtain ⟨⟨⟨-, uniquel⟩, uniquer⟩, uniquec⟩ := unique
  have hl : l ∈ (join ⟨kind, l, r, c⟩ i).children := mem_cons_self
  have hr : r ∈ (join ⟨kind, l, r, c⟩ i).children := .tail _ (.head _)
  have hstate₁ : ∀ x ∉ (join ⟨kind, l, r, c⟩ i).declared, σ₁.lookup x = σ.lookup x := fun x hx => by
    rw [hdeclared, mem_append, not_or] at hx
    exact h.left.state x hx.1
  have hstate : ∀ {τ : List (Alias × Alias)}, (∀ x ∉ c.toList.flatMap declared,
      τ.lookup x = σ₂.lookup x) → ∀ x ∉ (join ⟨kind, l, r, c⟩ i).declared,
      τ.lookup x = σ.lookup x := fun hτ x hx => by
    have hx' := hx
    rw [hdeclared, mem_append, mem_append, not_or, not_or] at hx'
    rw [hτ x hx'.2.2, h.right.state x hx'.2.1, hstate₁ x hx]
  have hleft := ih l hl h.runl h.undroppedl
  have hright := ih r hr h.runr h.undroppedr
  have hsubl : l'.sources ⊆ l.sources := (remains_of_run h.runl).sources.subset
  have hsubr : r'.sources ⊆ r.sources := (remains_of_run h.runr).sources.subset
  refine ⟨hleft.rows (hμ.child hl fun _ _ => rfl) hframes uniquel, fun hkind x x' hx hm => ?_, fun hkind => ?_,
    fun {x y z} hx hy hz => ?_⟩
  · rw [hkind, if_pos rfl] at uniquer
    refine hright.rows (hμ.within hr hstate₁ (apart_of_right nodup) hsubl fun e he => ?_)
      (hframes.within hm) (uniquer.of_flatMap hx)
    exact ⟨h.left.sources _ he, rfl, rfl⟩
  · rw [hkind, if_neg Bool.false_ne_true] at uniquer
    exact hright.rows (hμ.child hr hstate₁) hframes uniquer
  · have hcondition := optionRel_iff.2 h.condition
    refine satisfies_agree (option_isSome_eq hcondition) fun a b ha hb => ?_
    obtain ⟨τ, τ', hτ, hrun, hundropped, -⟩ := option_rel_of_some hcondition ha hb
    have hmem : a ∈ (join ⟨kind, l, r, c⟩ i).children := .tail _ (.tail _ (Option.mem_toList.2 ha))
    have hunique := (uniquec.of_flatMap hx).of_flatMap hy
    rw [ha] at hunique
    refine (ih a hmem hrun hundropped).scalar (hμ.within hmem (hstate hτ)
      (apart_of_childScopes nodup (mem_childScopes_condition ha))
      (fun x hx => mem_append.2 ((mem_append.1 hx).imp (@hsubl x) (@hsubr x))) fun e he => ?_)
      (hframes.within hz) .none hunique
    by_cases hel : e.label ∈ l.sources
    · exact ⟨mem_append_left _ (h.mem_left hτ hel), .inl ⟨hel, h.mem_left hτ hel, h.standIn_left hτ hel, rfl⟩⟩
    · have her := (mem_append.1 he).resolve_left hel
      refine ⟨mem_append_right _ (h.mem_right hτ her),
        .inr ⟨hel, fun hmem => ?_, h.standIn_right hτ her, rfl⟩⟩
      exact (h.apartl _ (l.sources_sublist.subset (hsubl hmem))).1
        (r.sources_sublist.subset (hsubr (h.mem_right hτ her)))

theorem rows_agree (parts : PartsAgree env frames frames' (readAs σ₁) (readAs σ₂) kind l r c l' r' c') :
    Run.Agree true (Forall₂ (RowMatch true (l.sources ++ r.sources) (l'.sources ++ r'.sources) (readAs σ')))
      ((join ⟨kind, l, r, c⟩ i).rows env frames)
      ((join ⟨kind, l', r', c'⟩ j).rows env frames') := by
  have hsubl : l'.sources ⊆ l.sources := (remains_of_run h.runl).sources.subset
  have hsubr : r'.sources ⊆ r.sources := (remains_of_run h.runr).sources.subset
  refine (joined_agree kind i j parts.left parts.applied parts.joined parts.condition).imp
    fun _ _ _ _ hrows => hrows.imp fun row row' hm => hm.mono fun e d he hd hed => ?_
  by_cases hel : e.label ∈ l.sources
  · have hstand := h.standIn_left h.state hel
    exact .inl ⟨hel, hed.1 ▸ h.mem_left h.state hel, hed.1.trans hstand, hed.2⟩
  · have her := (mem_append.1 he).resolve_left hel
    refine .inr ⟨hel, fun hmem => ?_, hed.1.trans (h.standIn_right h.state her), hed.2⟩
    rw [hed.1] at hmem
    exact (h.apartl _ (l.sources_sublist.subset (hsubl hmem))).1
      (r.sources_sublist.subset (hsubr (h.mem_right h.state her)))

theorem remains : (join ⟨kind, l, r, c⟩ i).Remains (.join ⟨kind, l', r', c'⟩ j) := by
  refine .of_sameNode (.join kind i j (remains_of_run h.runl) (remains_of_run h.runr) ?_)
  refine option_rel_imp (optionRel_iff.2 h.condition) ?_
  rintro a b - ⟨τ, τ', -, hrun, -⟩
  exact remains_of_run hrun

theorem isExact (hexact : IsExact ⟨kind, l, r, c⟩) : IsExact ⟨kind, l', r', c'⟩ := by
  intro b hb
  rcases mem_cons.1 hb with rfl | hb
  · exact (remains_of_run h.runr).exact (hexact r mem_cons_self)
  · obtain ⟨a, ha, τ, τ', -, hrun, -⟩ := forall₂_mem_right h.condition hb
    exact (remains_of_run hrun).exact (hexact a (.tail _ ha))

theorem exists_readAs (hlabel : r'.label? = some label) {e d : ColumnRef}
    (he : e.label ∈ l.sources ++ r.sources) (hed : readAs ((label, existing) :: σ') e d) :
    ∃ f : ColumnRef, f.label ∈ l'.sources ++ [label] ∧ readAs σ' e f ∧ readAs [(label, existing)] f d := by
  have hlabel' : r.label? = some label := h.right.label.symm.trans hlabel
  have hmem : label ∈ r.declared := by
    rw [r.declared_eq, hlabel']
    exact mem_cons_self
  by_cases hel : e.label ∈ l.sources
  · have hne : ∀ {a : Alias}, a ∈ l.sources → a ≠ label := fun ha heq =>
      (h.apartl _ (l.sources_sublist.subset ha)).1 (heq ▸ hmem)
    have hstand := h.mem_left h.state hel
    have hstand' := (remains_of_run h.runl).sources.subset hstand
    refine ⟨e.rename (standIn σ'), mem_append_left _ hstand, ⟨rfl, rfl⟩, ?_, hed.2⟩
    rw [hed.1, standIn_cons_of_ne _ (hne hel)]
    exact (standIn_cons_of_ne [] (hne hstand')).symm
  · have her : e.label = label := by
      have hmem := (mem_append.1 he).resolve_left hel
      rw [sources_of_label hlabel'] at hmem
      exact mem_singleton.1 hmem
    have hstand : standIn σ' e.label = label := by
      have hmem := h.mem_right h.state ((mem_append.1 he).resolve_left hel)
      rw [sources_of_label hlabel] at hmem
      exact mem_singleton.1 hmem
    refine ⟨e, mem_append_right _ (mem_singleton.2 her), ⟨?_, rfl⟩, ?_, hed.2⟩
    · rw [hstand, her]
    · rw [hed.1, her, standIn_cons_self, standIn_cons_self]

theorem dropsAlike (nodup : (join ⟨kind, l, r, c⟩ i).declared.Nodup)
    (ih : ∀ a ∈ (join ⟨kind, l, r, c⟩ i).children, a.Rebuilds lookups dropped (DropsAlike env lookups))
    (hlabel : r'.label? = some label) (hlookup : label ∈ lookups)
    (hsimilar : l'.similarLookup? lookups ⟨kind, l', r', c'⟩ = some existing)
    (hexact : IsExact ⟨kind, l, r, c⟩) (exposed : existing ∉ l.extendedAliases) :
    (join ⟨kind, l, r, c⟩ i).DropsAlike env lookups σ l' ((label, existing) :: σ') := by
  refine ⟨fun _ _ _ _ _ _ _ _ => inert_agree rfl, fun {μ frames frames'} hμ hframes unique => ?_⟩
  have hremains : (join ⟨kind, l, r, c⟩ i).Remains (.join ⟨kind, l', r', c'⟩ none) := h.remains
  obtain ⟨-, -, k, hrepeats, -, hkept⟩ := similarLookup?_cases hsimilar hlabel
  have hkept : k.KeptIn l' := hkept fun hmem => exposed ((remains_of_run h.runl).extended hmem)
  have parts := h.partsAgree nodup ih hμ hframes unique
  have honce : MatchesOnce env frames ⟨kind, l, r, c⟩ := by
    simp only [computedJoins, lookupsUnique_append, lookupsUnique_cons] at unique
    exact unique.1.1.1 label (h.right.label.symm.trans hlabel) hlookup
  intro rows hrows
  have hagree := h.rows_agree (j := none) parts rows hrows
  obtain ⟨rows', hrows'⟩ := hagree.1 rfl
  obtain ⟨left, -, hleft, -⟩ := rows_join_eq_ok.1 hrows'
  have hadded := hrepeats.rows_forall₂ hkept (nodup.sublist hremains.declared) (h.isExact hexact)
    hframes.right (fun a ha => hμ.right a (hremains.declared.subset ha)) (parts.matchesOnce hrows honce)
    hleft hrows'
  refine ⟨fun _ => ⟨left, hleft⟩, fun left' hleft' => ?_⟩
  obtain rfl := Except.ok.inj (hleft.symm.trans hleft')
  have hrowMatch := hagree.2 rows' hrows'
  rw [sources_of_label hlabel] at hrowMatch
  exact forall₂_trans hrowMatch hadded fun _ _ _ hm hm' =>
    hm.trans hm' fun e d he _ hed => h.exists_readAs hlabel he hed

end Join.Drops

theorem Tree.SameNode.dropsAlike (same : t.SameHead u) (column : t.column? = none)
    (children : Threaded (DropRun lookups dropped) t.children σ u.children σ')
    (drops : ∀ a ∈ t.children, a.Rebuilds lookups dropped DropsTo)
    (ih : ∀ a ∈ t.children, a.Rebuilds lookups dropped (DropsAlike env lookups))
    (nodup : t.declared.Nodup) (undropped : t.Undropped σ) :
    t.DropsAlike env lookups σ u σ' := by
  have hscalar : t.isSelect = false → ∀ {μ : Reads}, μ.Reaches σ t → t.Follows env lookups μ u := by
    intro hselect μ hμ
    have hsub := t.children_declared_sublist
    obtain ⟨-, hall⟩ := children.dropsFrom (nodup.sublist hsub) (fun x hx => undropped x (hsub.subset hx)) drops
    have hchildren : Forall₂ (Follows env lookups μ) t.children u.children := by
      refine forall₂_imp_mem hall fun a b ha hab => ?_
      obtain ⟨τ, τ', hτ, hrun, hundropped, -⟩ := hab
      exact (ih a ha hrun hundropped).scalar (hμ.child ha fun x hx => hτ x fun hx' => hx (hsub.subset hx'))
    intro frames frames' group group' hframes hgroup unique
    exact (same.of_children hchildren).follows hselect column hframes hgroup unique
  have hother : t.isSource = false → t.isSelect = false → t.DropsAlike env lookups σ u σ' := by
    refine fun hsource hselect => ⟨hscalar hselect, fun {μ frames frames'} _ _ _ => ?_⟩
    cases t <;> first | exact .of_error | cases hsource
  cases same with
  | select i j hlabel same =>
    obtain ⟨m, hdrops⟩ := Select.drops_of_threaded same children drops nodup undropped
    refine ⟨fun hμ _ _ _ _ hframes _ unique =>
      query_agree i j (Select.dropped_run_agree same hdrops nodup ih hμ hframes unique),
      fun {μ frames frames'} hμ hframes unique => ?_⟩
    have hrun := Select.dropped_run_agree same hdrops nodup ih hμ hframes unique
    rw [rows, rows]
    refine hrun.bind fun r r' _ _ hr => .of_ok ?_
    subst hr
    exact sourceRows_match _ _ r.headers r.rows fun _ _ h => h.2
  | join kind i j =>
    obtain ⟨σ₁, σ₂, hdrops⟩ := Join.drops_of_threaded children drops nodup undropped
    exact ⟨hscalar rfl, fun hμ hframes unique =>
      hdrops.rows_agree (hdrops.partsAgree nodup ih hμ hframes unique)⟩
  | table a name =>
    refine ⟨hscalar rfl, fun {μ frames frames'} _ _ _ => ?_⟩
    rw [rows, rows]
    cases env.dataset.lookup name with
    | none => exact .of_error
    | some table => exact .of_ok (sourceRows_match a a table.columns table.rows fun _ _ h => h.2)
  | _ => exact hother rfl rfl

end Nodes

/-! ## Whole trees -/

/-- What stands in for a dropped lookup is not extended by nulls, and what is compared has no inexact constants. -/
def Join.Replaceable (dropped : List (Alias × Alias)) (j : Join Tree) : Prop :=
  ∀ p ∈ dropped, j.right.label? = some p.1 → j.IsExact ∧ p.2 ∉ j.left.extendedAliases

instance (j : Join Tree) : Decidable (j.Replaceable dropped) :=
  inferInstanceAs (Decidable (∀ p ∈ dropped, j.right.label? = some p.1 → j.IsExact ∧ p.2 ∉ _))

/-- The lookups that are dropped from a tree are those that others may stand in for. -/
def Tree.Replaceable (dropped : List (Alias × Alias)) (t : Tree) : Prop :=
  t.Every fun u => ∀ j ∈ u.join?, j.Replaceable dropped

instance (t : Tree) : Decidable (t.Replaceable dropped) :=
  inferInstanceAs (Decidable (t.Every _))

/-- A rebuilt tree computes what the tree computes. -/
theorem Tree.dropsAlike_of_run (h : t.DropRun lookups dropped σ u σ') (nodup : t.declared.Nodup)
    (tidy : t.Tidy) (undropped : t.Undropped σ) (replaceable : t.Replaceable dropped) :
    t.DropsAlike env lookups σ u σ' := by
  induction t generalizing u σ σ' with
  | step t ih =>
    obtain ⟨v, m, same, children, hstep⟩ := h.cases_node
    have hnodup : ∀ a ∈ t.children, a.declared.Nodup := fun a ha =>
      nodup.sublist (declared_of_child ha)
    have htidy : ∀ a ∈ t.children, a.Tidy := fun a ha => by
      obtain ⟨own, hp⟩ := exists_binding ha
      exact tidy.child nodup hp
    have drops : ∀ a ∈ t.children, a.Rebuilds lookups dropped DropsTo := fun a ha _ _ _ hrun hundropped =>
      dropsTo_of_run hrun (hnodup a ha) (htidy a ha) hundropped
    obtain ⟨hnode, hchildren⟩ := every_iff.1 replaceable
    have ih : ∀ a ∈ t.children, a.Rebuilds lookups dropped (DropsAlike env lookups) := fun a ha _ _ _ hrun hundropped =>
      ih a ha hrun (hnodup a ha) (htidy a ha) hundropped (hchildren a ha)
    cases hstep with
    | dropped j hright _ hlookup hsimilar =>
      cases same with
      | @join kind l r l' r' c c' i j =>
        obtain ⟨σ₁, σ₂, hdrops⟩ := Join.drops_of_threaded children drops nodup undropped
        obtain ⟨hexact, exposed⟩ := hnode _ rfl _ (h.2 mem_cons_self) (hdrops.right.label.symm.trans hright)
        exact hdrops.dropsAlike nodup ih hright hlookup hsimilar hexact exposed
    | column c =>
      cases same
      cases children
      exact ⟨fun hμ _ _ _ _ hframes _ _ => .column (fun hc => hμ.links c hc) hframes, fun _ _ _ => .of_error⟩
    | kept hcolumn hu =>
      have hcolumn' : t.column? = none := same.column?.symm.trans hcolumn
      rcases hu with rfl | rfl
      · exact same.dropsAlike hcolumn' children drops ih nodup undropped
      · rw [← v.children_anonymous] at children
        exact same.anonymous.dropsAlike hcolumn' children drops ih nodup undropped

end HiveQuery
