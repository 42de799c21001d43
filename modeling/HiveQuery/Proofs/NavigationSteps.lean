import HiveQuery.Lower.Lookup
import HiveQuery.Navigation
import HiveQuery.Proofs.Rerouting

/-!
# Steps of a navigation

What the visit that resolves members does at a node, and what the parts of it give.
-/

namespace HiveQuery
open List

variable {m : EntityMap} {t u v root : Tree} {nav nav' : Navigation} {name entity : String}

def Tree.isMember : Tree → Bool
  | .member _ _ => true
  | _ => false

/-! ## Fields and relationships -/

/-- The field behind a member. Under the marker of an outer join, a field that is no column is marked. -/
inductive Tree.FieldOf (name : String) : Tree → Tree → Prop
  | entity {t v : Tree} (e : String) : FieldOf name t v → FieldOf name (.entity e t) v
  | record {v : Tree} {fields : List (String × Tree)} : (name, v) ∈ fields → FieldOf name (.record fields) v
  | column {t : Tree} {c : ColumnRef} (test : Tree) : FieldOf name t (.column c) →
      FieldOf name (.outerJoined test t) (.column c)
  | marked {t v : Tree} (test : Tree) : FieldOf name t v →
      FieldOf name (.outerJoined test t) (.outerJoined test v)

theorem Tree.fieldOf (h : t.member? name = some v) : t.FieldOf name v := by
  induction t generalizing v with
  | step t ih =>
    cases t with
    | entity e a => exact .entity e (ih a mem_cons_self h)
    | record fields =>
      obtain ⟨before, after, rfl, _⟩ := lookup_eq_some_iff.1 h
      exact .record (mem_append_right _ mem_cons_self)
    | outerJoined test a =>
      obtain ⟨inside, hinside, rfl⟩ := Option.map_eq_some_iff.1 h
      have hfield := ih a (.tail _ (.head _)) hinside
      cases inside with
      | column c => exact .column test hfield
      | _ => exact .marked test hfield
    | _ => cases h

theorem keyCondition_eq_ok {c : Tree} {target : Entity} {table : Alias} {key : String × String}
    (h : keyCondition root entity target table key = .ok c) :
    ∃ own d, root.member? key.1 = some own ∧ d.label = table ∧ c = .binary .equal own (.column d) := by
  unfold keyCondition at h
  split at h
  · cases h
  · next hown =>
    split at h
    · next d _ =>
      cases h
      -- an access that stays is refused above
      cases hmember : root.member? key.1 with
      | none => exact absurd (by rw [Tree.memberOrAccess, hmember]; rfl) (hown root key.1)
      | some field => exact ⟨field, d.ref table, rfl, rfl, by rw [Tree.memberOrAccess, hmember]; rfl⟩
    · cases h

theorem allOf_forall {P : Tree → Prop} {conditions : List Tree} (h : ∀ c ∈ conditions, P c)
    (and : ∀ {c d}, P c → P d → P (.binary .and c d)) : ∀ f ∈ allOf conditions, P f := by
  cases conditions with
  | nil => exact nofun
  | cons c cs =>
    rintro _ ⟨rfl⟩
    exact foldlRecOn cs _ (h c mem_cons_self) fun _ hb d hd =>
      and hb (h d (mem_cons_of_mem c hd))

/-- What a relationship leads to. -/
theorem EntityMap.related_gives {r : Relationship} {p : Projection} {next next' : Alias} :
    (m.related root entity r).Gives next p next' ↔
      ∃ target conditions, m.known r.target = .ok target ∧
        keyConditions root entity target next r.keys = .ok conditions ∧
        p = target.query next (next + 1) (allOf conditions) ∧ next' = next + 2 := by
  rw [related]
  simp only [Lowering.gives_bind, Lowering.gives_except, Lowering.gives_fresh, Lowering.gives_pure]
  constructor
  · rintro ⟨target, _, ⟨htarget, rfl⟩, _, _, ⟨rfl, rfl⟩, conditions, _, ⟨hconditions, rfl⟩, _, _,
      ⟨rfl, rfl⟩, rfl, rfl⟩
    exact ⟨target, conditions, htarget, hconditions, rfl, rfl⟩
  · rintro ⟨target, conditions, htarget, hconditions, rfl, rfl⟩
    exact ⟨target, _, ⟨htarget, rfl⟩, _, _, ⟨rfl, rfl⟩, conditions, _, ⟨hconditions, rfl⟩, _, _,
      ⟨rfl, rfl⟩, rfl, rfl⟩

/-! ## Visits -/

def navigating : Outcome Navigating Navigation :=
  .except LoweringError Navigation

namespace Navigation

theorem run_bind {α β : Type} {x : Navigating α} {a : α} (h : x.run.run nav = (.ok a, nav'))
    (f : α → Navigating β) : (x >>= f).run.run nav = (f a).run.run nav' := by
  rw [exceptT_run_bind, h]

theorem get_run : (get : Navigating Navigation).run.run nav = (.ok nav, nav) := rfl

theorem lowering_run {α : Type} (x : Lowering α) (nav : Navigation) : (lowering x).run.run nav =
    ((x.run.run nav.next).1, { nav with next := (x.run.run nav.next).2 }) := by
  rcases hx : x.run.run nav.next with ⟨_ | a, next⟩
  all_goals
    rw [lowering, run_bind get_run, hx]
    rfl

/-- What access to a member of a visited tree becomes. -/
inductive Resolved (m : EntityMap) (name : String) (nav : Navigation) : Tree → Tree → Navigation → Prop
  | kept {root : Tree} (plain : ∀ e shape, root = .entity e shape → m.relationship? e name = none)
      (access : ∀ field, root.member? name = some field → isAccess name field = true) :
      Resolved m name nav root (.member root name) nav
  | field {root v : Tree} (field : root.member? name = some v) :
      Resolved m name nav root v { nav with changed := true }
  | query {e : String} {shape : Tree} {r : Relationship} {p : Projection} {next : Alias}
      (relationship : m.relationship? e name = some r)
      (related : (m.related (.entity e shape) e r).Gives nav.next p next) :
      Resolved m name nav (.entity e shape) p.toTree { nav with next := next, changed := true }
  | lookup {e : String} {shape source : Tree} {r : Relationship} {p : Projection} {next : Alias}
      {outer : List (Option Tree)} {lookups : List Alias} (relationship : m.relationship? e name = some r)
      (related : (m.related (.entity e shape) e r).Gives nav.next p next)
      (singleton : r.singleton = true) (sources : nav.sources = some source :: outer) :
      Resolved m name nav (.entity e shape) p.withTest.shape
        ⟨next, lookups, some (.join ⟨.outerApply, source, .select p.withTest.query none, none⟩ none) :: outer,
          true⟩

theorem follow_resolved {e : String} {shape : Tree} {r : Relationship} (hr : m.relationship? e name = some r)
    (h : navigating.gives (follow m (.entity e shape) e r) nav v nav') :
    Resolved m name nav (.entity e shape) v nav' := by
  obtain ⟨p, nav₁, hlowering, h₁⟩ := navigating.of_bind h
  obtain ⟨next, hp, rfl⟩ : ∃ next, (m.related (.entity e shape) e r).Gives nav.next p next ∧
      nav₁ = { nav with next := next } := by
    obtain ⟨hp, rfl⟩ := Prod.mk.inj ((lowering_run _ nav).symm.trans hlowering)
    exact ⟨_, Prod.ext hp rfl, rfl⟩
  obtain ⟨_, nav₂, htouch, h₂⟩ := navigating.of_bind h₁
  obtain ⟨-, rfl⟩ := Prod.mk.inj htouch
  obtain ⟨nav₃, nav₄, hget, h₃⟩ := navigating.of_bind h₂
  obtain ⟨hnav, rfl⟩ := Prod.mk.inj hget
  cases Except.ok.inj hnav
  split at h₃
  · next nav₅ hjoin =>
    obtain ⟨_, nav₆, hset, h₄⟩ := navigating.of_bind h₃
    obtain ⟨-, rfl⟩ := Prod.mk.inj hset
    obtain ⟨rfl, rfl⟩ := navigating.of_pure h₄
    split at hjoin
    · next hsingleton =>
      unfold joinLookup at hjoin
      split at hjoin
      · next source outer hsources =>
        cases hjoin
        exact .lookup hr hp hsingleton hsources
      · cases hjoin
    · cases hjoin
  · obtain ⟨rfl, rfl⟩ := navigating.of_pure h₃
    exact .query hr hp

theorem access_resolved (plain : ∀ e shape, root = .entity e shape → m.relationship? e name = none)
    (h : navigating.gives (access root name) nav v nav') : Resolved m name nav root v nav' := by
  obtain ⟨nav₁, nav₂, hget, h₁⟩ := navigating.of_bind h
  obtain ⟨hnav, rfl⟩ := Prod.mk.inj hget
  cases Except.ok.inj hnav
  split at h₁
  · next field hfield =>
    split at h₁
    · next hkept =>
      obtain ⟨rfl, rfl⟩ := navigating.of_pure h₁
      refine .kept plain fun v hv => ?_
      cases hfield.symm.trans hv
      exact (Bool.and_eq_true_iff.1 hkept).1
    · obtain ⟨_, nav₃, htouch, h₂⟩ := navigating.of_bind h₁
      obtain ⟨-, rfl⟩ := Prod.mk.inj htouch
      obtain ⟨rfl, rfl⟩ := navigating.of_pure h₂
      exact .field hfield
  · next hfield =>
    obtain ⟨rfl, rfl⟩ := navigating.of_pure h₁
    exact .kept plain fun v hv => absurd (hfield.symm.trans hv) nofun

theorem resolve_resolved (h : navigating.gives (resolve m root name) nav v nav') :
    Resolved m name nav root v nav' := by
  unfold resolve at h
  split at h
  · split at h
    · next hr => exact follow_resolved hr h
    · next hr =>
      refine access_resolved ?_ h
      rintro _ _ ⟨⟩
      exact hr
  · next hother => exact access_resolved (fun e shape heq => absurd heq (hother e shape)) h

/-- What a visit does at a node: it resolves a member, it enters a select after its source, and it rebuilds all
others. -/
inductive Visited (m : EntityMap) : Tree → Navigation → Tree → Navigation → Prop
  | member {root root' v : Tree} {name : String} {nav nav₁ nav₂ : Navigation}
      (visited : navigating.visits (visitor m) root { nav with changed := false } root' nav₁)
      (resolved : Resolved m name nav₁ root' v nav₂) :
      Visited m (.member root name) nav v { nav₂ with changed := nav.changed || nav₂.changed }
  | select {s s' : Select Tree} {i j : Option Identity} {nav nav₁ nav₂ : Navigation}
      (label : s'.label = s.label) (same : s.SameClauses (fun _ _ => True) (fun _ _ => True) s')
      (source : Threaded (navigating.visits (visitor m)) s.source.toList nav s'.source.toList nav₁)
      (others : Threaded (navigating.visits (visitor m)) s.others
        { nav₁ with sources := s'.source :: nav₁.sources } s'.others nav₂)
      (identity : j.isSome = true → s'.beq s = true ∧ beqOption nav₂.sources.head?.join s'.source = true) :
      Visited m (.select s i) nav (.select { s' with source := nav₂.sources.head?.join } j)
        { nav₂ with sources := nav₂.sources.tail }
  | node {t u : Tree} {nav nav' : Navigation} (member : t.isMember = false) (select : t.isSelect = false)
      (same : t.SameNode (fun _ _ => True) u)
      (children : Threaded (navigating.visits (visitor m)) t.children nav u.children nav')
      (identity : u.identity?.isSome = true → u.beq t = true) :
      Visited m t nav u nav'

theorem member_visited (h : navigating.visits (visitor m) (.member root name) nav u nav') :
    Visited m (.member root name) nav u nav' := by
  obtain ⟨rebuilt, heq, hgives⟩ := Tree.visit_gives navigating (visitor m) (.member root name)
    fun hs => absurd hs Bool.false_ne_true
  rw [Outcome.visits, heq] at h
  obtain ⟨nav₁, nav₂, hget, h₁⟩ := navigating.of_bind h
  obtain ⟨hnav, rfl⟩ := Prod.mk.inj hget
  cases Except.ok.inj hnav
  obtain ⟨_, nav₃, hmodify, h₂⟩ := navigating.of_bind h₁
  obtain ⟨-, rfl⟩ := Prod.mk.inj hmodify
  obtain ⟨v, nav₄, hrebuilt, h₃⟩ := navigating.of_bind h₂
  obtain ⟨same, children, -⟩ := hgives hrebuilt
  cases same with
  | @member _ _ root' =>
  cases children with
  | cons head rest =>
  cases rest
  obtain ⟨w, nav₅, hresolve, h₄⟩ := navigating.of_bind h₃
  obtain ⟨_, nav₆, hmodify, h₅⟩ := navigating.of_bind h₄
  obtain ⟨-, rfl⟩ := Prod.mk.inj hmodify
  obtain ⟨rfl, rfl⟩ := navigating.of_pure h₅
  exact .member head (resolve_resolved hresolve)

theorem select_visited {s : Select Tree} {i : Option Identity}
    (h : navigating.visits (visitor m) (.select s i) nav u nav') : Visited m (.select s i) nav u nav' := by
  obtain ⟨rebuilt, heq, hgives⟩ := Tree.visit_select navigating (visitor m) s i
  rw [Outcome.visits, heq] at h
  obtain ⟨v, nav₁, hv, hleave⟩ := navigating.of_bind h
  obtain ⟨s', rfl, hs⟩ := hgives hv
  obtain ⟨hlabel, hsame, nav₂, nav₃, hsource, hafter, hothers⟩ := Select.visit_gives navigating (visitor m) hs
  obtain ⟨-, rfl⟩ := Prod.mk.inj hafter
  obtain ⟨hu, rfl⟩ := Prod.mk.inj hleave
  cases Except.ok.inj hu
  refine .select hlabel hsame hsource hothers fun h => ?_
  obtain ⟨hsource, hkept⟩ := identity_kept h
  exact ⟨(identity_kept (hkept ▸ h)).1, hsource⟩

theorem visited (h : navigating.visits (visitor m) t nav u nav') : Visited m t nav u nav' := by
  have hother : t.isMember = false → t.isSelect = false →
      (∀ rebuilt, (visitor m).around t rebuilt = rebuilt) → Visited m t nav u nav' := by
    intro hmember hselect haround
    obtain ⟨rebuilt, heq, hgives⟩ := Tree.visit_gives navigating (visitor m) t
      fun hs => absurd (hselect.symm.trans hs) Bool.false_ne_true
    rw [Outcome.visits, heq, haround] at h
    obtain ⟨same, children, identity⟩ := hgives h
    exact .node hmember hselect same children identity
  cases t with
  | member root name => exact member_visited h
  | select s i => exact select_visited h
  | _ => exact hother rfl rfl fun _ => rfl

end Navigation

/-! ## Trees without members -/

def Tree.MemberFree (t : Tree) : Prop :=
  t.Every fun u => u.isMember = false

instance (t : Tree) : Decidable t.MemberFree :=
  inferInstanceAs (Decidable (t.Every _))

def Tree.StaysBound (m : EntityMap) (t : Tree) : Prop :=
  ∀ nav u nav', navigating.visits (Navigation.visitor m) t nav u nav' →
    nav' = nav ∧ t.Rerouted (fun c d => d = c) u

theorem Threaded.of_fixed {α β σ : Type} {step : α → σ → β → σ → Prop} {R : α → β → Prop}
    {as : List α} {bs : List β} {s s' : σ} (h : Threaded step as s bs s')
    (fixed : ∀ a ∈ as, ∀ b s', step a s b s' → s' = s ∧ R a b) : s' = s ∧ List.Forall₂ R as bs := by
  induction h with
  | nil => exact ⟨rfl, .nil⟩
  | cons head _ ih =>
    obtain ⟨rfl, hhead⟩ := fixed _ List.mem_cons_self _ _ head
    obtain ⟨rfl, htail⟩ := ih fun a ha => fixed a (.tail _ ha)
    exact ⟨rfl, .cons hhead htail⟩

theorem Tree.staysBound (h : t.MemberFree) : t.StaysBound m := by
  induction t with
  | step t ih =>
    obtain ⟨hmember, hchildren⟩ := every_iff.1 h
    have ih : ∀ a ∈ t.children, a.StaysBound m := fun a ha => ih a ha (hchildren a ha)
    intro nav u nav' hvisit
    cases Navigation.visited hvisit with
    | member => cases hmember
    | select label same source others =>
      obtain ⟨rfl, hsource⟩ := source.of_fixed fun a ha =>
        ih a (Select.mem_clauses.2 (.inl (Option.mem_toList.1 ha))) _
      obtain ⟨rfl, hothers⟩ := others.of_fixed fun a ha => ih a (Select.mem_clauses.2 (.inr ha)) _
      refine ⟨rfl, .node rfl (.select _ _ label same) ?_⟩
      simp only [children, Select.clauses_eq]
      exact List.rel_append hsource hothers
    | node _ _ same children =>
      obtain ⟨hnav, hall⟩ := children.of_fixed fun a ha => ih a ha _
      exact ⟨hnav, .of_sameNode (fun _ => rfl) (same.of_children hall)⟩

theorem Tree.bindMembers_gives {next next' : Alias} {lookups : List Alias} :
    (t.bindMembers m).Gives next (u, lookups) next' ↔
      ∃ nav, navigating.visits (Navigation.visitor m) t ⟨next, [], [], false⟩ u nav ∧
        nav.lookups = lookups ∧ nav.next = next' := by
  have hrun : (t.bindMembers m).run.run next = (fun p : Except LoweringError Tree × Navigation =>
      (p.1.map fun v => (v, p.2.lookups), p.2.next))
        ((t.visit (Navigation.visitor m)).run.run ⟨next, [], [], false⟩) := rfl
  show _ = _ ↔ ∃ nav, (t.visit (Navigation.visitor m)).run.run ⟨next, [], [], false⟩ = (.ok u, nav) ∧ _
  rw [hrun]
  rcases (t.visit (Navigation.visitor m)).run.run ⟨next, [], [], false⟩ with ⟨_ | v, nav⟩
  · constructor
    · intro h
      cases h
    · rintro ⟨nav, h, -⟩
      cases h
  · constructor
    · intro h
      cases h
      exact ⟨nav, rfl, rfl, rfl⟩
    · rintro ⟨_, h, rfl, rfl⟩
      cases h
      rfl

/-- A tree without members is bound to itself. -/
theorem Tree.bindMembers_memberFree (h : t.MemberFree) {next next' : Alias} {lookups : List Alias}
    (hbind : (t.bindMembers m).Gives next (u, lookups) next') :
    next' = next ∧ lookups = [] ∧ t.Rerouted (fun c d => d = c) u := by
  obtain ⟨nav, hvisit, rfl, rfl⟩ := bindMembers_gives.1 hbind
  obtain ⟨rfl, hrerouted⟩ := staysBound h _ _ _ hvisit
  exact ⟨rfl, rfl, hrerouted⟩

/-! ## No lookups -/

theorem Tree.renewIf_false (t : Tree) : t.renewIf (fun _ => false) = t := by
  have hany : (t.allColumns.any fun _ => false) = false := List.any_eq_false.2 fun _ _ => Bool.false_ne_true
  rw [renewIf, hany, Bool.and_false, if_neg Bool.false_ne_true]

theorem Tree.dropRepeatedAt_nil (t : Tree) : (t.dropRepeatedAt []).run [] = (t, []) := by
  have hrenew : (t.renewIf fun c => ([] : List (Alias × Alias)).lookup c.label == some c.label) = t :=
    t.renewIf_false
  cases t with
  | join j i =>
    cases hlabel : j.right.label? with
    | none => simp [dropRepeatedAt, dropRepeatedLookup, hlabel]; rfl
    | some a => simp [dropRepeatedAt, dropRepeatedLookup, hlabel]; rfl
  | column c => rfl
  | _ => exact congrArg (·, []) hrenew

theorem Tree.dropRepeatedLookups_nil (t : Tree) :
    t.Rerouted (fun c d => d = c) (t.dropRepeatedLookups []) := by
  suffices h : ∀ {u dropped}, (t.bottomUp (dropRepeatedAt [])).run [] = (u, dropped) →
      dropped = [] ∧ t.Rerouted (fun c d => d = c) u from (h rfl).2
  induction t with
  | step t ih =>
    intro u dropped hrun
    obtain ⟨v, dropped₁, same, children, hreplace, -⟩ := bottomUp_outcome (.state _) hrun
    obtain ⟨rfl, hchildren⟩ := children.of_fixed fun a ha b dropped' => ih a ha
    have hreplace : (v.dropRepeatedAt []).run [] = (u, dropped) := hreplace
    rw [dropRepeatedAt_nil] at hreplace
    cases hreplace
    exact ⟨rfl, .of_sameNode (fun _ => rfl) (same.of_children hchildren)⟩

end HiveQuery
