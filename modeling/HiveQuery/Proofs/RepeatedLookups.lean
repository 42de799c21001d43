import HiveQuery.Lower.Lookup
import HiveQuery.Proofs.Copies

/-!
# Repeated lookups that are dropped

While a tree is rebuilt, the state tells which source stands in for a dropped one. It only tells so about
sources that were met before, and these are not met again.
-/

namespace HiveQuery
open List HiveQuery.Tree

variable {x : Alias} {τ : List (Alias × Alias)}

def standIn (dropped : List (Alias × Alias)) (a : Alias) : Alias :=
  (dropped.lookup a).getD a

theorem standIn_eq_of_lookup {σ : List (Alias × Alias)} {a : Alias} (h : σ.lookup a = τ.lookup a) :
    standIn σ a = standIn τ a := by
  rw [standIn, standIn, h]

theorem standIn_of_none {σ : List (Alias × Alias)} {a : Alias} (h : σ.lookup a = none) : standIn σ a = a := by
  rw [standIn, h]
  rfl

variable {lookups : List Alias} {dropped σ σ' : List (Alias × Alias)} {t u v : Tree}

/-! ## One node -/

theorem Tree.similarLookup?_spec {j : Join Tree} {existing : Alias}
    (h : t.similarLookup? lookups j = some existing) : t.isJoin = true ∧ existing ∈ t.sources := by
  induction t with
  | step t ih =>
    cases t with
    | join j' i =>
      obtain ⟨kind, l, r, c⟩ := j'
      refine ⟨rfl, ?_⟩
      rw [similarLookup?] at h
      have hl := ih l mem_cons_self
      have hr := ih r (.tail _ (.head _))
      rcases Option.or_eq_some_iff.1 h with h | ⟨-, h⟩
      · -- found at this join
        obtain ⟨a, ha, h⟩ := Option.bind_eq_some_iff.1 h
        obtain ⟨b, -, h⟩ := Option.bind_eq_some_iff.1 h
        split at h
        · cases h
          refine mem_append_right _ ?_
          rw [sources_of_label ha]
          exact mem_cons_self
        · cases h
      · rcases Option.or_eq_some_iff.1 h with h | ⟨-, h⟩
        · exact mem_append_left _ (hl h).2
        · exact mem_append_right _ (hr h).2
    | _ => cases h

/-- What happens at a node whose children were rebuilt. -/
inductive Tree.DropStep (lookups : List Alias) (σ : List (Alias × Alias)) :
    Tree → Tree → List (Alias × Alias) → Prop
  | dropped {j : Join Tree} {label existing : Alias} (i : Option Identity)
      (right : j.right.label? = some label) (kind : j.kind ≠ .cross) (lookup : label ∈ lookups)
      (similar : j.left.similarLookup? lookups j = some existing) :
      DropStep lookups σ (.join j i) j.left ((label, existing) :: σ)
  | column (c : ColumnRef) : DropStep lookups σ (.column c) (.column (c.rename (standIn σ))) σ
  | kept {t u : Tree} (column : t.column? = none) (same : u = t ∨ u = t.anonymous) :
      DropStep lookups σ t u σ

theorem Tree.dropStep_of_run (h : (t.dropRepeatedAt lookups).run σ = (u, σ')) :
    t.DropStep lookups σ u σ' := by
  have hrenew : ∀ (anew : ColumnRef → Bool) (t : Tree), t.renewIf anew = t ∨ t.renewIf anew = t.anonymous := by
    intro anew t
    unfold renewIf
    split
    · exact .inr rfl
    · exact .inl rfl
  cases t with
  | join j i =>
    simp only [dropRepeatedAt, dropRepeatedLookup] at h
    split at h
    · next pair hpair =>
      obtain ⟨rfl, rfl⟩ := Prod.mk.inj h
      cases hlabel : j.right.label? with
      | none => simp [hlabel] at hpair
      | some label =>
        simp only [hlabel] at hpair
        split at hpair
        · next hkind =>
          obtain ⟨existing, hexisting, rfl⟩ := Option.map_eq_some_iff.1 hpair
          simp only [Bool.and_eq_true, bne_iff_ne, contains_iff_mem] at hkind
          exact .dropped i hlabel hkind.1 hkind.2 hexisting
        · cases hpair
    · obtain ⟨rfl, rfl⟩ := Prod.mk.inj h
      exact .kept rfl (.inl rfl)
  | column c =>
    obtain ⟨rfl, rfl⟩ := Prod.mk.inj h
    exact .column c
  | _ =>
    obtain ⟨rfl, rfl⟩ := Prod.mk.inj h
    exact .kept rfl (hrenew _ _)

/-! ## Whole trees -/

/-- A rebuilt tree: each source of the tree has one among those that are left, and what is needed is read from it. -/
structure Tree.DropsTo (σ : List (Alias × Alias)) (t u : Tree) (σ' : List (Alias × Alias)) : Prop where
  state : ∀ a, a ∉ t.declared → σ'.lookup a = σ.lookup a
  sources : ∀ a ∈ t.sources, standIn σ' a ∈ u.sources
  label : u.label? = t.label?
  needs : ∀ d, u.Needs d → ∃ c, t.Needs c ∧ d = c.rename (standIn σ)

def Tree.DropRun (lookups : List Alias) (dropped : List (Alias × Alias)) (t : Tree) (σ : List (Alias × Alias))
    (u : Tree) (σ' : List (Alias × Alias)) : Prop :=
  (t.bottomUp (dropRepeatedAt lookups)).run σ = (u, σ') ∧ σ' ⊆ dropped

/-- All that is dropped from a tree, with what stands in for it. -/
def Tree.standIns (lookups : List Alias) (t : Tree) : List (Alias × Alias) :=
  ((t.bottomUp (dropRepeatedAt lookups)).run []).2

theorem Tree.dropRepeatedLookups_dropRun (lookups : List Alias) (t : Tree) :
    t.DropRun lookups (t.standIns lookups) [] (t.dropRepeatedLookups lookups) (t.standIns lookups) :=
  ⟨rfl, List.Subset.refl _⟩

theorem Tree.DropStep.subset (h : t.DropStep lookups σ u σ') : σ ⊆ σ' := by
  cases h with
  | dropped => exact subset_cons_self _ _
  | column => exact List.Subset.refl _
  | kept => exact List.Subset.refl _

theorem Threaded.subset {α β γ : Type} {step : α → List γ → β → List γ → Prop} {as : List α} {bs : List β}
    {s s' : List γ} (h : Threaded step as s bs s')
    (grows : ∀ a ∈ as, ∀ {s b s'}, step a s b s' → s ⊆ s') : s ⊆ s' := by
  induction h with
  | nil => exact List.Subset.refl _
  | cons head _ ih =>
    exact List.Subset.trans (grows _ mem_cons_self head) (ih fun a ha => grows a (.tail _ ha))

theorem Tree.subset_of_run (h : (t.bottomUp (dropRepeatedAt lookups)).run σ = (u, σ')) : σ ⊆ σ' := by
  induction t generalizing u σ σ' with
  | step t ih =>
    obtain ⟨v, m, -, children, hstep, -⟩ := bottomUp_outcome (.state _) h
    exact List.Subset.trans (children.subset fun a ha _ _ _ hrun => ih a ha hrun)
      (dropStep_of_run hstep).subset

theorem Tree.DropRun.cases_node (h : t.DropRun lookups dropped σ u σ') :
    ∃ v m, t.SameHead v ∧
      Threaded (DropRun lookups dropped) t.children σ v.children m ∧ v.DropStep lookups m u σ' := by
  obtain ⟨v, m, same, children, hrun, -⟩ := bottomUp_outcome (.state _) h.1
  have hstep := dropStep_of_run hrun
  refine ⟨v, m, same, ?_, hstep⟩
  have hm : m ⊆ dropped := List.Subset.trans hstep.subset h.2
  clear h hrun hstep same
  generalize t.children = ts, v.children = us at children
  induction children with
  | nil => exact .nil _
  | cons head tail ih =>
    have hsub := tail.subset fun _ _ _ _ _ hrun => subset_of_run hrun
    exact .cons ⟨head, List.Subset.trans hsub hm⟩ (ih hm)

def Tree.Undropped (σ : List (Alias × Alias)) (t : Tree) : Prop :=
  ∀ a ∈ t.declared, σ.lookup a = none

def Tree.Rebuilds (lookups : List Alias) (dropped : List (Alias × Alias))
    (P : List (Alias × Alias) → Tree → Tree → List (Alias × Alias) → Prop) (t : Tree) : Prop :=
  ∀ {σ u σ'}, t.DropRun lookups dropped σ u σ' → t.Undropped σ → P σ t u σ'

/-- A tree was rebuilt after others, from a state that agrees with another one on all aliases but those
of the others. -/
def Tree.DropsFrom (lookups : List Alias) (dropped σ : List (Alias × Alias)) (own : List Alias) (a b : Tree) :
    Prop :=
  ∃ τ τ', (∀ x ∉ own, τ.lookup x = σ.lookup x) ∧ a.DropRun lookups dropped τ b τ' ∧ a.Undropped τ ∧
    a.DropsTo τ b τ'

theorem Threaded.dropsFrom {ts us : List Tree} (h : Threaded (DropRun lookups dropped) ts σ us σ')
    (nodup : (ts.flatMap declared).Nodup)
    (undropped : ∀ a ∈ ts.flatMap declared, σ.lookup a = none)
    (ih : ∀ a ∈ ts, a.Rebuilds lookups dropped DropsTo) :
    (∀ x ∉ ts.flatMap declared, σ'.lookup x = σ.lookup x) ∧
      Forall₂ (DropsFrom lookups dropped σ (ts.flatMap declared)) ts us := by
  induction h with
  | nil => exact ⟨fun _ _ => rfl, .nil⟩
  | @cons a σ σ₁ σ₂ b ts us head _ ihs =>
    rw [flatMap_cons] at nodup undropped ⊢
    obtain ⟨hnodup, hrest, hapart⟩ := nodup_append.1 nodup
    have hundropped : a.Undropped σ := fun x hx => undropped x (mem_append_left _ hx)
    have hhead := ih a mem_cons_self head hundropped
    have hafter : ∀ x ∈ ts.flatMap declared, σ₁.lookup x = none := by
      intro x hx
      have hx' : x ∉ a.declared := fun hmem => hapart x hmem x hx rfl
      rw [hhead.state x hx']
      exact undropped x (mem_append_right _ hx)
    obtain ⟨hstate, hall⟩ := ihs hrest hafter fun a ha => ih a (.tail _ ha)
    simp only [mem_append, not_or]
    refine ⟨fun x hx => (hstate x hx.2).trans (hhead.state x hx.1), ?_⟩
    refine .cons ⟨σ, σ₁, fun _ _ => rfl, head, hundropped, hhead⟩ (hall.imp ?_)
    rintro c d ⟨τ, τ', hτ, hdrops⟩
    refine ⟨τ, τ', fun x hx => ?_, hdrops⟩
    rw [mem_append, not_or] at hx
    exact (hτ x hx.2).trans (hhead.state x hx.1)

theorem Tree.DropsFrom.needs_of {own : List Alias} {a b : Tree} (h : a.DropsFrom lookups dropped σ own b)
    (bound bound' : List Alias) (hchild : ∀ c, a.Needs c → c.label ∉ bound → t.Needs c) (tidy : t.Tidy)
    (hown : ∀ x ∈ own, x ∈ t.declared)
    (hbound : ∀ τ, (∀ x ∉ own, τ.lookup x = σ.lookup x) → ∀ x ∈ bound, standIn τ x ∈ bound')
    {ρ : List (Alias × Alias)} (hρ : ∀ x ∉ t.declared, σ.lookup x = ρ.lookup x) {d : ColumnRef}
    (hlabel : d.label ∉ bound') (hd : b.Needs d) : ∃ c, t.Needs c ∧ d = c.rename (standIn ρ) := by
  obtain ⟨τ, τ', hτ, -, -, hdrops⟩ := h
  obtain ⟨c, hc, rfl⟩ := hdrops.needs d hd
  have hc : t.Needs c := hchild c hc fun hmem => hlabel (hbound τ hτ _ hmem)
  refine ⟨c, hc, ?_⟩
  have hout : c.label ∉ t.declared := tidy c hc
  have hstand : standIn τ c.label = standIn ρ c.label :=
    standIn_eq_of_lookup ((hτ _ fun hmem => hout (hown _ hmem)).trans (hρ _ hout))
  rw [ColumnRef.rename, ColumnRef.rename, hstand]

section Nodes

variable {i j : Option Identity}

structure Select.Drops (lookups : List Alias) (dropped σ : List (Alias × Alias)) (s s' : Select Tree)
    (m σ' : List (Alias × Alias)) : Prop where
  source : Option.Rel (fun t u => t.DropRun lookups dropped σ u m ∧ t.Undropped σ ∧ t.DropsTo σ u m)
    s.source s'.source
  others : Forall₂ (Tree.DropsFrom lookups dropped m (s.others.flatMap declared)) s.others s'.others
  after : ∀ x ∉ s.source.toList.flatMap declared, m.lookup x = σ.lookup x
  state : ∀ x ∉ s.others.flatMap declared, σ'.lookup x = m.lookup x
  apart : ∀ x ∈ s.sourceAliases, x ∉ s.others.flatMap declared

theorem Select.drops_of_threaded {s s' : Select Tree}
    (same : s.SameHead s')
    (clauses : Threaded (DropRun lookups dropped) s.clauses σ s'.clauses σ')
    (ih : ∀ a ∈ s.clauses, a.Rebuilds lookups dropped DropsTo)
    (nodup : (select s i).declared.Nodup) (undropped : (select s i).Undropped σ) :
    ∃ m, s.Drops lookups dropped σ s' m σ' := by
  have hmem : ∀ a, a ∈ s.clauses ↔ a ∈ s.source.toList ∨ a ∈ s.others := fun a => by
    rw [s.clauses_eq, mem_append]
  rw [Undropped, s.declared_eq] at undropped
  rw [s.declared_eq] at nodup
  obtain ⟨hnodup₁, hnodup₂, hapart⟩ := nodup_append.1 (nodup_cons.1 nodup).2
  obtain ⟨m, source, others⟩ := clauses.source same
  have hundropped : ∀ x ∈ s.source.toList.flatMap declared, σ.lookup x = none := fun x hx =>
    undropped x (.tail _ (mem_append_left _ hx))
  obtain ⟨hafter, -⟩ := source.dropsFrom hnodup₁ hundropped fun a ha => ih a ((hmem a).2 (.inl ha))
  have hundropped' : ∀ x ∈ s.others.flatMap declared, m.lookup x = none := fun x hx => by
    rw [hafter x fun hx' => hapart x hx' x hx rfl]
    exact undropped x (.tail _ (mem_append_right _ hx))
  obtain ⟨hstate, hothers⟩ := others.dropsFrom hnodup₂ hundropped' fun a ha => ih a ((hmem a).2 (.inr ha))
  refine ⟨m, ?_, hothers, hafter, hstate, fun x hx hx' => ?_⟩
  · have hih := fun a ha => @ih a ((hmem a).2 (.inl ha))
    have hsource := same.source
    generalize s.source = o, s'.source = o' at hsource source hih hundropped
    cases hsource with
    | none => exact .none
    | @some t u =>
      cases source with
      | cons head rest =>
        cases rest
        have ht : t.Undropped σ := fun x hx => hundropped x (by simpa using hx)
        exact .some ⟨head, ht, hih t (by simp) head ht⟩
  · obtain ⟨w, hw, hxw⟩ := mem_sourceAliases.1 hx
    exact hapart x (mem_flatMap.2 ⟨w, Option.mem_toList.2 hw, w.sources_sublist.subset hxw⟩) x hx' rfl

namespace Select.Drops

variable {s s' : Select Tree} {m : List (Alias × Alias)}

theorem standIn_mem (h : s.Drops lookups dropped σ s' m σ') :
    ∀ x ∈ s.sourceAliases, standIn m x ∈ s'.sourceAliases := by
  have hsource := h.source
  unfold sourceAliases
  generalize s.source = o, s'.source = o' at hsource
  cases hsource with
  | none => exact fun x hx => absurd hx not_mem_nil
  | some h => exact h.2.2.sources

theorem after_of_not_mem (h : s.Drops lookups dropped σ s' m σ') (hx : x ∉ (select s i).declared) :
    m.lookup x = σ.lookup x := by
  rw [s.declared_eq] at hx
  exact h.after x fun hx' => hx (.tail _ (mem_append_left _ hx'))

end Select.Drops

theorem Select.dropsTo {s s' : Select Tree} (hlabel : s'.label = s.label) {m : List (Alias × Alias)}
    (h : s.Drops lookups dropped σ s' m σ') (nodup : (select s i).declared.Nodup)
    (tidy : (select s i).Tidy) (undropped : (select s i).Undropped σ) :
    (select s i).DropsTo σ (.select s' j) σ' := by
  have hdeclared := s.declared_eq i
  rw [Undropped, hdeclared] at undropped
  rw [hdeclared] at nodup
  obtain ⟨hlabel', -⟩ := nodup_cons.1 nodup
  rw [mem_append, not_or] at hlabel'
  refine ⟨fun x hx => ?_, fun x hx => ?_, congrArg some hlabel, fun d hd => ?_⟩
  · rw [h.state x ?_, h.after_of_not_mem hx]
    rw [hdeclared] at hx
    exact fun hx' => hx (.tail _ (mem_append_right _ hx'))
  · -- the select itself is not dropped
    rw [mem_singleton.1 hx]
    have hnone : σ'.lookup s.label = none := by
      rw [h.state _ hlabel'.2, h.after _ hlabel'.1]
      exact undropped _ mem_cons_self
    rw [standIn_of_none hnone, ← hlabel]
    exact mem_singleton.2 rfl
  · rcases needs_iff.1 hd with ⟨b, hb, hd⟩ | ⟨hfree, b, hb, hd⟩
    · obtain ⟨a, ha, hab⟩ := forall₂_mem_right (optionRel_iff.1 h.source) (Option.mem_toList.2 hb)
      obtain ⟨c, hc, rfl⟩ := hab.2.2.needs d hd
      exact ⟨c, needs_iff.2 (.inl ⟨a, Option.mem_toList.1 ha, hc⟩), rfl⟩
    · obtain ⟨a, ha, hab⟩ := forall₂_mem_right h.others hb
      refine hab.needs_of s.sourceAliases s'.sourceAliases (t := .select s i)
        (fun c hc hfree => needs_iff.2 (.inr ⟨hfree, a, ha, hc⟩)) tidy (fun x hx => ?_)
        (fun τ hτ x hx => ?_) (fun x hx => h.after_of_not_mem hx) hfree hd
      · rw [hdeclared]
        exact .tail _ (mem_append_right _ hx)
      · rw [standIn_eq_of_lookup (hτ x (h.apart x hx))]
        exact h.standIn_mem x hx

structure Join.Drops (lookups : List Alias) (dropped σ : List (Alias × Alias)) (l r : Tree) (c : Option Tree)
    (l' r' : Tree) (c' : Option Tree) (σ₁ σ₂ σ' : List (Alias × Alias)) : Prop where
  runl : l.DropRun lookups dropped σ l' σ₁
  runr : r.DropRun lookups dropped σ₁ r' σ₂
  undroppedl : l.Undropped σ
  undroppedr : r.Undropped σ₁
  left : l.DropsTo σ l' σ₁
  right : r.DropsTo σ₁ r' σ₂
  condition : Forall₂ (Tree.DropsFrom lookups dropped σ₂ (c.toList.flatMap declared)) c.toList
    c'.toList
  state : ∀ x ∉ c.toList.flatMap declared, σ'.lookup x = σ₂.lookup x
  apartl : ∀ x ∈ l.declared, x ∉ r.declared ∧ x ∉ c.toList.flatMap declared
  apartr : ∀ x ∈ r.declared, x ∉ l.declared ∧ x ∉ c.toList.flatMap declared

theorem Join.drops_of_threaded {kind : JoinKind} {l r l' r' : Tree} {c c' : Option Tree}
    (children : Threaded (DropRun lookups dropped) (l :: r :: c.toList) σ (l' :: r' :: c'.toList) σ')
    (ih : ∀ a ∈ (join ⟨kind, l, r, c⟩ i).children, a.Rebuilds lookups dropped DropsTo)
    (nodup : (join ⟨kind, l, r, c⟩ i).declared.Nodup)
    (undropped : (join ⟨kind, l, r, c⟩ i).Undropped σ) :
    ∃ σ₁ σ₂, Drops lookups dropped σ l r c l' r' c' σ₁ σ₂ σ' := by
  cases children with
  | @cons _ _ σ₁ _ _ _ _ hl rest =>
  cases rest with
  | @cons _ _ σ₂ _ _ _ _ hr hc =>
  rw [declared_join] at nodup
  simp only [Undropped, declared_join, mem_append] at undropped
  obtain ⟨-, hnodup, hleft⟩ := nodup_append.1 nodup
  obtain ⟨-, hnodup', hright⟩ := nodup_append.1 hnodup
  have hundroppedl : l.Undropped σ := fun x hx => undropped x (.inl hx)
  have hdropsl : l.DropsTo σ l' σ₁ := ih l mem_cons_self hl hundroppedl
  have hapartl : ∀ x ∈ l.declared, x ∉ r.declared ∧ x ∉ c.toList.flatMap declared := fun x hx =>
    ⟨fun hx' => hleft _ hx _ (mem_append_left _ hx') rfl,
      fun hx' => hleft _ hx _ (mem_append_right _ hx') rfl⟩
  have hapartr : ∀ x ∈ r.declared, x ∉ l.declared ∧ x ∉ c.toList.flatMap declared := fun x hx =>
    ⟨fun hx' => (hapartl x hx').1 hx, fun hx' => hright _ hx _ hx' rfl⟩
  have hundroppedr : r.Undropped σ₁ := fun x hx => by
    rw [hdropsl.state x (hapartr x hx).1]
    exact undropped x (.inr (.inl hx))
  have hdropsr : r.DropsTo σ₁ r' σ₂ := ih r (.tail _ (.head _)) hr hundroppedr
  obtain ⟨hstate, hcondition⟩ := hc.dropsFrom hnodup' (fun x hx => by
    have hxl : x ∉ l.declared := fun hx' => (hapartl x hx').2 hx
    have hxr : x ∉ r.declared := fun hx' => (hapartr x hx').2 hx
    rw [hdropsr.state x hxr, hdropsl.state x hxl]
    exact undropped x (.inr (.inr hx)))
    fun a ha => ih a (.tail _ (.tail _ ha))
  exact ⟨σ₁, σ₂, hl, hr, hundroppedl, hundroppedr, hdropsl, hdropsr, hcondition, hstate, hapartl, hapartr⟩

namespace Join.Drops

variable {kind : JoinKind} {l r l' r' : Tree} {c c' : Option Tree} {σ₁ σ₂ : List (Alias × Alias)}

variable (h : Join.Drops lookups dropped σ l r c l' r' c' σ₁ σ₂ σ')
include h

section

variable (hτ : ∀ x ∉ c.toList.flatMap Tree.declared, τ.lookup x = σ₂.lookup x)
include hτ

theorem standIn_left (hx : x ∈ l.sources) : standIn τ x = standIn σ₁ x := by
  have hx' := h.apartl x (l.sources_sublist.subset hx)
  exact standIn_eq_of_lookup ((hτ x hx'.2).trans (h.right.state x hx'.1))

theorem standIn_right (hx : x ∈ r.sources) : standIn τ x = standIn σ₂ x :=
  standIn_eq_of_lookup (hτ x (h.apartr x (r.sources_sublist.subset hx)).2)

theorem mem_left (hx : x ∈ l.sources) : standIn τ x ∈ l'.sources := h.standIn_left hτ hx ▸ h.left.sources x hx

theorem mem_right (hx : x ∈ r.sources) : standIn τ x ∈ r'.sources :=
  h.standIn_right hτ hx ▸ h.right.sources x hx

end

theorem dropsTo (tidy : (join ⟨kind, l, r, c⟩ i).Tidy) :
    (join ⟨kind, l, r, c⟩ i).DropsTo σ (.join ⟨kind, l', r', c'⟩ j) σ' := by
  have hdeclared := declared_join kind l r c i
  refine ⟨fun x hx => ?_, fun x hx => ?_, rfl, fun d hd => ?_⟩
  · rw [hdeclared, mem_append, mem_append, not_or, not_or] at hx
    rw [h.state x hx.2.2, h.right.state x hx.2.1, h.left.state x hx.1]
  · rcases mem_append.1 hx with hx | hx
    · exact mem_append_left _ (h.mem_left h.state hx)
    · exact mem_append_right _ (h.mem_right h.state hx)
  · rcases needs_join_iff.1 hd with hd | ⟨happly, hd⟩ | ⟨hfree, b, hb, hd⟩
    · obtain ⟨e, he, rfl⟩ := h.left.needs d hd
      exact ⟨e, needs_join_iff.2 (.inl he), rfl⟩
    · have hfrom : r.DropsFrom lookups dropped σ₁ [] r' :=
        ⟨σ₁, σ₂, fun _ _ => rfl, h.runr, h.undroppedr, h.right⟩
      refine hfrom.needs_of (if kind.isApply then l.sources else [])
        (if kind.isApply then l'.sources else []) (t := .join ⟨kind, l, r, c⟩ i) (fun e he hfree => ?_) tidy
        (by simp) (fun τ hτ x hx => ?_) (fun x hx => ?_) ?_ hd
      · refine needs_join_iff.2 (.inr (.inl ⟨fun happly => ?_, he⟩))
        rwa [if_pos happly] at hfree
      · cases hkind : kind.isApply with
        | false => rw [hkind] at hx; cases hx
        | true =>
          rw [hkind] at hx
          rw [standIn_eq_of_lookup (hτ x not_mem_nil)]
          exact h.left.sources x hx
      · rw [hdeclared, mem_append, not_or] at hx
        exact h.left.state x hx.1
      · cases hkind : kind.isApply with
        | false => exact not_mem_nil
        | true => exact happly hkind
    · obtain ⟨a, ha, hab⟩ := forall₂_mem_right h.condition (Option.mem_toList.2 hb)
      refine hab.needs_of (l.sources ++ r.sources) (l'.sources ++ r'.sources)
        (t := .join ⟨kind, l, r, c⟩ i) (fun e he hfree => ?_) tidy (fun x hx => ?_) (fun τ hτ x hx => ?_)
        (fun x hx => ?_) hfree hd
      · exact needs_join_iff.2 (.inr (.inr ⟨hfree, a, Option.mem_toList.1 ha, he⟩))
      · rw [hdeclared]
        exact mem_append_right _ (mem_append_right _ hx)
      · rcases mem_append.1 hx with hx | hx
        · exact mem_append_left _ (h.mem_left hτ hx)
        · exact mem_append_right _ (h.mem_right hτ hx)
      · rw [hdeclared, mem_append, mem_append, not_or, not_or] at hx
        rw [h.right.state x hx.2.1, h.left.state x hx.1]

end Join.Drops

theorem Tree.projection_dropsTo {q shape q' shape' : Tree} {m : List (Alias × Alias)}
    (hq : q.DropRun lookups dropped σ q' m) (hshape : shape.DropRun lookups dropped m shape' σ')
    (ih : ∀ a ∈ (projection q shape i).children, a.Rebuilds lookups dropped DropsTo)
    (nodup : (projection q shape i).declared.Nodup) (tidy : (projection q shape i).Tidy)
    (undropped : (projection q shape i).Undropped σ) :
    (projection q shape i).DropsTo σ (.projection q' shape' j) σ' := by
  have hdeclared := declared_projection q shape i
  rw [hdeclared] at nodup
  simp only [Undropped, hdeclared, mem_append] at undropped
  obtain ⟨-, -, hapart⟩ := nodup_append.1 nodup
  have hdropsq : q.DropsTo σ q' m := ih q mem_cons_self hq fun x hx => undropped x (.inl hx)
  have hundropped : shape.Undropped m := fun x hx => by
    rw [hdropsq.state x fun hx' => hapart x hx' x hx rfl]
    exact undropped x (.inr hx)
  have hdrops : shape.DropsTo m shape' σ' := ih shape (.tail _ (.head _)) hshape hundropped
  have hstandIn : ∀ x ∈ q.label?.toList, standIn m x ∈ q'.label?.toList := by
    intro x hx
    have hlabel : q.label? = some x := Option.mem_toList.1 hx
    have hlabel' : q'.label? = some x := hdropsq.label.trans hlabel
    have hmem := hdropsq.sources x (by simp [sources_of_label hlabel])
    rw [sources_of_label hlabel'] at hmem
    rw [hlabel']
    exact hmem
  refine ⟨fun x hx => ?_, fun x hx => absurd hx not_mem_nil, rfl, fun d hd => ?_⟩
  · rw [hdeclared, mem_append, not_or] at hx
    rw [hdrops.state x hx.2, hdropsq.state x hx.1]
  · obtain ⟨p, hp, hfree, hd⟩ := hd.cases_node rfl
    simp only [bindings, mem_cons, not_mem_nil, or_false] at hp
    rcases hp with rfl | rfl
    · obtain ⟨e, he, rfl⟩ := hdropsq.needs d hd
      exact ⟨e, .child (p := ([], q)) mem_cons_self not_mem_nil he, rfl⟩
    · have hfrom : shape.DropsFrom lookups dropped m [] shape' :=
        ⟨m, σ', fun _ _ => rfl, hshape, hundropped, hdrops⟩
      refine hfrom.needs_of q.label?.toList q'.label?.toList (t := .projection q shape i)
        (fun e he hfree => ?_) tidy (by simp) (fun τ hτ x hx => ?_) (fun x hx => ?_) hfree hd
      · exact .child (.tail _ (.head _)) hfree he
      · rw [standIn_eq_of_lookup (hτ x not_mem_nil)]
        exact hstandIn x hx
      · rw [hdeclared, mem_append, not_or] at hx
        exact hdropsq.state x hx.1

theorem Tree.expression_dropsTo (label : v.label? = t.label?) (hcolumn : v.column? = none)
    (hsources : t.sources = []) (ht : t.bindings = t.children.map ([], ·))
    (hv : v.bindings = v.children.map ([], ·))
    (children : Threaded (DropRun lookups dropped) t.children σ v.children σ')
    (ih : ∀ a ∈ t.children, a.Rebuilds lookups dropped DropsTo)
    (nodup : t.declared.Nodup) (tidy : t.Tidy) (undropped : t.Undropped σ) : t.DropsTo σ v σ' := by
  have hsub := t.children_declared_sublist
  obtain ⟨hstate, hall⟩ := children.dropsFrom (nodup.sublist hsub) (fun x hx => undropped x (hsub.subset hx)) ih
  refine ⟨fun x hx => hstate x fun hx' => hx (hsub.subset hx'), by simp [hsources], label, fun d hd => ?_⟩
  obtain ⟨p, hp, -, hd⟩ := hd.cases_node hcolumn
  rw [hv] at hp
  obtain ⟨b, hb, rfl⟩ := mem_map.1 hp
  obtain ⟨a, ha, hab⟩ := forall₂_mem_right hall hb
  refine hab.needs_of [] [] (fun c hc _ => ?_) tidy hsub.subset (by simp) (fun _ _ => rfl) not_mem_nil hd
  refine .child (p := ([], a)) ?_ not_mem_nil hc
  rw [ht]
  exact mem_map_of_mem ha

theorem Tree.SameNode.dropsTo (same : t.SameHead v) (column : t.column? = none)
    (children : Threaded (DropRun lookups dropped) t.children σ v.children σ')
    (ih : ∀ a ∈ t.children, a.Rebuilds lookups dropped DropsTo)
    (nodup : t.declared.Nodup) (tidy : t.Tidy) (undropped : t.Undropped σ) : t.DropsTo σ v σ' := by
  have hlabel := same.label?
  have hcolumn := same.column?.trans column
  cases same with
  | select i j hlabel' same =>
    obtain ⟨m, hdrops⟩ := Select.drops_of_threaded same children ih nodup undropped
    exact Select.dropsTo hlabel' hdrops nodup tidy undropped
  | join kind i j =>
    obtain ⟨σ₁, σ₂, hdrops⟩ := Join.drops_of_threaded children ih nodup undropped
    exact hdrops.dropsTo tidy
  | projection i j =>
    cases children with
    | cons hq rest =>
      cases rest with
      | cons hshape rest =>
        cases rest
        exact projection_dropsTo hq hshape ih nodup tidy undropped
  | table a name =>
    cases children
    refine ⟨fun _ _ => rfl, fun x hx => ?_, rfl, fun d hd => ?_⟩
    · have hmem : a ∈ (Tree.table a name).declared := by
        rw [declared_eq]
        exact mem_cons_self
      rw [mem_singleton.1 hx, standIn_of_none (undropped a hmem)]
      exact mem_singleton.2 rfl
    · obtain ⟨p, hp, -⟩ := hd.cases_node rfl
      cases hp
  | column => cases column
  | _ => exact expression_dropsTo hlabel hcolumn rfl rfl rfl children ih nodup tidy undropped

end Nodes

theorem Tree.SameNode.anonymous {R : Tree → Tree → Prop} (h : t.SameNode R u) : t.SameNode R u.anonymous := by
  cases h with
  | select i j hlabel same => exact .select i none hlabel same
  | join kind i j hl hr hc => exact .join kind i none hl hr hc
  | projection i j hq ht => exact .projection i none hq ht
  | record h => exact .record h
  | rowNumber h => exact .rowNumber h
  | _ => constructor <;> assumption

theorem Tree.dropRepeatedLookups_every {P : Tree → Prop} (lookups : List Alias)
    (same : ∀ {a b : Tree}, a.SameHead b → P a → P b) (column : ∀ c, P (.column c))
    (ht : t.Every P) : (t.dropRepeatedLookups lookups).Every P := by
  have hgives : (Outcome.state _).gives (t.bottomUp (dropRepeatedAt lookups)) []
      (t.dropRepeatedLookups lookups) _ := rfl
  refine bottomUp_every _ same (fun {a b σ σ'} hnode ha hchildren => ?_) hgives ht
  cases dropStep_of_run hnode with
  | dropped => exact hchildren _ mem_cons_self
  | column c => exact every_iff.2 ⟨column _, nofun⟩
  | kept _ hkept =>
    rcases hkept with rfl | rfl
    · exact every_iff.2 ⟨ha, hchildren⟩
    · exact every_iff.2 ⟨same (.anonymous (.of_self fun _ _ => trivial)) ha, a.children_anonymous ▸ hchildren⟩

theorem Tree.DropsTo.of_join {kind : JoinKind} {l r l' r' : Tree} {c c' : Option Tree} {i j : Option Identity}
    (h : (join ⟨kind, l, r, c⟩ i).DropsTo σ (.join ⟨kind, l', r', c'⟩ j) σ')
    (hleft : ∀ x ∈ l.sources, standIn σ' x ∈ l'.sources) {label existing : Alias}
    (hright : r.label? = some label) (nodup : (join ⟨kind, l, r, c⟩ i).declared.Nodup)
    (hsimilar : l'.isJoin = true ∧ existing ∈ l'.sources) :
    (join ⟨kind, l, r, c⟩ i).DropsTo σ l' ((label, existing) :: σ') := by
  have hr : label ∈ r.declared := by
    rw [r.declared_eq, hright]
    exact mem_cons_self
  have hlabel : label ∈ (join ⟨kind, l, r, c⟩ i).declared := (declared_of_child (.tail _ (.head _))).subset hr
  have hl : label ∉ l.sources := by
    intro hmem
    rw [declared_join] at nodup
    refine (nodup_append.1 nodup).2.2 label ?_ label (mem_append_left _ hr) rfl
    exact l.sources_sublist.subset hmem
  have hother : ∀ {x : Alias}, x ≠ label → ((label, existing) :: σ').lookup x = σ'.lookup x := fun hx => by
    rw [lookup_cons, beq_false_of_ne hx]
  refine ⟨fun x hx => ?_, fun x hx => ?_, ?_, fun d hd => h.needs d (needs_join_iff.2 (.inl hd))⟩
  · have hne : x ≠ label := fun heq => hx (heq ▸ hlabel)
    rw [hother hne]
    exact h.state x hx
  · rcases mem_append.1 hx with hx | hx
    · have hne : x ≠ label := fun heq => hl (heq ▸ hx)
      rw [standIn_eq_of_lookup (hother hne)]
      exact hleft x hx
    · rw [sources_of_label hright] at hx
      rw [mem_singleton.1 hx, standIn, lookup_cons_self]
      exact hsimilar.2
  · cases l' with
    | join => rfl
    | _ => cases hsimilar.1

/-- Every tree is rebuilt with sources that stand in for the dropped ones. -/
theorem Tree.dropsTo_of_run (h : t.DropRun lookups dropped σ u σ') (nodup : t.declared.Nodup) (tidy : t.Tidy)
    (undropped : t.Undropped σ) : t.DropsTo σ u σ' := by
  induction t generalizing u σ σ' with
  | step t ih =>
    obtain ⟨v, m, same, children, hstep⟩ := h.cases_node
    have ih : ∀ a ∈ t.children, a.Rebuilds lookups dropped DropsTo := by
      intro a ha τ b τ' hrun hundropped
      obtain ⟨own, hp⟩ := exists_binding ha
      exact ih a ha hrun (nodup.sublist (declared_of_child ha)) (tidy.child nodup hp) hundropped
    cases hstep with
    | dropped j hright _ _ hsimilar =>
      cases same with
      | @join kind l r l' r' c c' i j =>
        obtain ⟨σ₁, σ₂, hdrops⟩ := Join.drops_of_threaded children ih nodup undropped
        exact (hdrops.dropsTo (j := none) tidy).of_join (fun x hx => hdrops.mem_left hdrops.state hx)
          (hdrops.right.label.symm.trans hright) nodup (similarLookup?_spec hsimilar)
    | column c =>
      cases same
      cases children
      refine ⟨fun _ _ => rfl, fun x hx => absurd hx not_mem_nil, rfl, fun d hd => ?_⟩
      exact ⟨c, .column, needs_column.1 hd⟩
    | kept hcolumn hu =>
      have hcolumn' : t.column? = none := same.column?.symm.trans hcolumn
      rcases hu with rfl | rfl
      · exact same.dropsTo hcolumn' children ih nodup tidy undropped
      · rw [← v.children_anonymous] at children
        exact same.anonymous.dropsTo hcolumn' children ih nodup tidy undropped

/-- Dropping lookups needs nothing that was not needed before. -/
theorem Tree.dropRepeatedLookups_needs (lookups : List Alias) (nodup : t.declared.Nodup) (tidy : t.Tidy)
    {c : ColumnRef} (hc : (t.dropRepeatedLookups lookups).Needs c) : t.Needs c := by
  have hdrops := dropsTo_of_run (t.dropRepeatedLookups_dropRun lookups) nodup tidy fun _ _ => rfl
  obtain ⟨d, hd, rfl⟩ := hdrops.needs c hc
  exact hd

end HiveQuery
