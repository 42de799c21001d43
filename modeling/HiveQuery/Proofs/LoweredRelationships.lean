import HiveQuery.Proofs.BoundMembers
import HiveQuery.Proofs.KeptForms
import HiveQuery.Proofs.Renewal

/-!
# Lowered relationships

A relationship is lowered where it is read from an entity. The shape of a row that was looked up is the marker of an
outer join around an entity, so a relationship that is read from it stays.
-/

namespace HiveQuery

variable {entity : String}
open List HiveQuery.Tree Select
variable {m : EntityMap} {t u v : Tree} {nav nav' : Navigation} {P : Tree → Prop} {name : String}
  {root : Tree}

/-! ## Outer-joined shapes -/

/-- An outer-joined shape can be reached through the members of a tree. It stands there, or a relationship
leads to at most one row. -/
inductive Tree.HoldsOuter (m : EntityMap) : Tree → Prop
  | outerJoined (test t : Tree) : HoldsOuter m (.outerJoined test t)
  | lookup {e name : String} (root : Tree) : m.isSingleton e name = true → HoldsOuter m (.member root name)
  | member {root : Tree} (name : String) : HoldsOuter m root → HoldsOuter m (.member root name)
  | entity {t : Tree} (e : String) : HoldsOuter m t → HoldsOuter m (.entity e t)
  | field {name : String} {t : Tree} {fields : List (String × Tree)} : (name, t) ∈ fields →
      HoldsOuter m t → HoldsOuter m (.record fields)

theorem Tree.HoldsOuter.of_field (h : t.FieldOf name v) (hv : v.HoldsOuter m) : t.HoldsOuter m := by
  induction h with
  | entity e _ ih => exact .entity e (ih hv)
  | record h => exact .field h hv
  | column test | marked test => exact .outerJoined test _

theorem Tree.Every.field (outer : ∀ test a, P (.outerJoined test a)) (h : t.FieldOf name v)
    (ht : t.Every P) : v.Every P := by
  induction h with
  | entity e _ ih => exact ih (ht.child mem_cons_self)
  | record h => exact ht.child (mem_map_of_mem h)
  | column test _ ih => exact ih (ht.child (.tail _ (.head _)))
  | marked test _ ih =>
    refine every_iff.2 ⟨outer _ _, ?_⟩
    simpa using ⟨ht.child mem_cons_self, ih (ht.child (.tail _ (.head _)))⟩

/-! ## What a relationship leads to -/

/-- What holds of all nodes other than members, row numbers and what has an identity. -/
def CoversPlain (P : Tree → Prop) : Prop :=
  ∀ v : Tree, v.isMember = false → v.isRowNumber = false → v.identity? = none → P v

section Related

variable (plain : CoversPlain P)

include plain

theorem keyCondition_every {c : Tree} {target : Entity} {table : Alias} {key : String × String}
    (hroot : root.Every P) (h : keyCondition root entity target table key = .ok c) : c.Every P := by
  obtain ⟨own, d, hown, -, rfl⟩ := keyCondition_eq_ok h
  refine every_iff.2 ⟨plain _ rfl rfl rfl, ?_⟩
  simpa using ⟨hroot.field (fun _ _ => plain _ rfl rfl rfl) (fieldOf hown),
    every_iff.2 ⟨plain (.column d) rfl rfl rfl, by simp⟩⟩

theorem EntityMap.related_every {r : Relationship} {p : Projection} {next next' : Alias}
    (hroot : root.Every P) (h : (m.related root entity r).Gives next p next') :
    ((select p.query none).Every P ∧ p.shape.Every P) ∧
      (select p.withTest.query none).Every P ∧ p.withTest.shape.Every P := by
  have hleaf : ∀ {v : Tree}, v.isMember = false → v.isRowNumber = false → v.identity? = none →
      v.children = [] → v.Every P := fun hmember hnumber hidentity hchildren =>
    every_iff.2 ⟨plain _ hmember hnumber hidentity, by rw [hchildren]; exact nofun⟩
  obtain ⟨target, conditions, -, hconditions, rfl, -⟩ := related_gives.1 h
  have hfilter : ∀ f ∈ allOf conditions, f.Every P := by
    refine allOf_forall (fun c hc => ?_) fun hc hd => every_iff.2 ⟨plain _ rfl rfl rfl, by simpa using ⟨hc, hd⟩⟩
    obtain ⟨key, -, hkey⟩ := forall₂_mem_right (mapM_eq_ok.1 hconditions) hc
    exact keyCondition_every plain hroot hkey
  have hshape : (target.query next (next + 1) (allOf conditions)).shape.Every P := by
    refine every_iff.2 ⟨plain _ rfl rfl rfl, fun a ha => ?_⟩
    cases mem_singleton.1 ha
    refine every_iff.2 ⟨plain _ rfl rfl rfl, fun a ha => ?_⟩
    simp only [children, map_map, mem_map] at ha
    obtain ⟨c, -, rfl⟩ := ha
    exact hleaf rfl rfl rfl rfl
  have hclauses : ∀ a ∈ (target.query next (next + 1) (allOf conditions)).query.clauses, a.Every P := by
    intro a ha
    simp only [clauses, Entity.query, mem_append, Option.mem_toList, Option.toList_none,
      map_map, mem_map, map_nil, not_mem_nil, or_false] at ha
    rcases ha with (ha | ha) | ⟨c, -, rfl⟩
    · cases ha
      exact hleaf rfl rfl rfl rfl
    · exact hfilter a ha
    · exact hleaf rfl rfl rfl rfl
  obtain ⟨extra, name, hextra, heq⟩ := (target.query next (next + 1) (allOf conditions)).withTest_eq
  rw [heq]
  refine ⟨⟨every_iff.2 ⟨plain _ rfl rfl rfl, hclauses⟩, hshape⟩,
    every_iff.2 ⟨plain _ rfl rfl rfl, fun a ha => ?_⟩, every_iff.2 ⟨plain _ rfl rfl rfl, ?_⟩⟩
  · rw [children, mem_clauses, mem_others_widen, ← or_assoc] at ha
    rcases ha with ha | ⟨c, hc, rfl⟩
    · exact hclauses a (mem_clauses.2 ha)
    · rw [hextra c hc]
      exact hleaf rfl rfl rfl rfl
  · simpa using ⟨hleaf rfl rfl rfl rfl, hshape⟩

end Related

/-! ## Nodes of bound trees -/

/-- Where a node of a bound tree comes from: row numbers and access to members were there before, what is read
from an entity is no relationship, what is read from an outer-joined shape was read from a tree that can become
one, and nothing but what is as it was has an identity. -/
structure Tree.BoundFrom (m : EntityMap) (t v : Tree) : Prop where
  numbers : v.isRowNumber = true → ∃ w ∈ t.subtrees, w.isRowNumber = true
  members : ∀ root name, v = .member root name →
    (∀ e shape, root = .entity e shape → m.relationship? e name = none) ∧
      ∃ origin, .member origin name ∈ t.subtrees ∧ ∀ test shape, root = .outerJoined test shape →
        origin.HoldsOuter m ∧ ∀ e shape, origin ≠ .entity e shape
  accesses : ∀ root name, v = .member root name →
    ∀ field, root.member? name = some field → Navigation.isAccess name field = true
  identity : v.identity?.isSome = true → v.Definite

theorem Tree.coversPlain_boundFrom (m : EntityMap) (t : Tree) : CoversPlain (t.BoundFrom m) := by
  intro v hmember hnumber hidentity
  refine ⟨fun h => by simp [hnumber] at h, ?_, ?_, fun h => by simp [hidentity] at h⟩ <;>
  · rintro root name rfl
    cases hmember

def Navigation.SourcesFrom (m : EntityMap) (t : Tree) (nav : Navigation) : Prop :=
  ∀ source, some source ∈ nav.sources → source.Every (t.BoundFrom m)

def Tree.BindsFrom (m : EntityMap) (t a : Tree) : Prop :=
  ∀ nav b nav', navigating.visits (Navigation.visitor m) a nav b nav' → nav.SourcesFrom m t →
    nav'.SourcesFrom m t ∧ b.Every (t.BoundFrom m) ∧ (b.HoldsOuter [] → a.HoldsOuter m)

theorem Threaded.bindsFrom {ts us : List Tree}
    (h : Threaded (navigating.visits (Navigation.visitor m)) ts nav us nav')
    (ih : ∀ a ∈ ts, t.BindsFrom m a) (sources : nav.SourcesFrom m t) :
    nav'.SourcesFrom m t ∧
      Forall₂ (fun a b => b.Every (t.BoundFrom m) ∧ (b.HoldsOuter [] → a.HoldsOuter m)) ts us := by
  induction h with
  | nil => exact ⟨sources, .nil⟩
  | cons head _ rest =>
    obtain ⟨hsources, hbound⟩ := ih _ mem_cons_self _ _ _ head sources
    obtain ⟨hsources', hall⟩ := rest (fun b hb => ih b (.tail _ hb)) hsources
    exact ⟨hsources', .cons hbound hall⟩

theorem Navigation.Resolved.boundFrom {origin : Tree} (h : Resolved m name nav root v nav')
    (access : .member origin name ∈ t.subtrees) (sources : nav.SourcesFrom m t)
    (hroot : root.Every (t.BoundFrom m)) (outer : root.HoldsOuter [] → origin.HoldsOuter m)
    (entity : ∀ e shape, origin = .entity e shape → ∃ shape', root = .entity e shape') :
    nav'.SourcesFrom m t ∧ v.Every (t.BoundFrom m) ∧
      (v.HoldsOuter [] → (member origin name).HoldsOuter m) := by
  have plain := t.coversPlain_boundFrom m
  cases h with
  | kept hplain haccess =>
    refine ⟨sources, every_iff.2 ⟨⟨nofun, ?_, ?_, nofun⟩, by simpa using hroot⟩, ?_⟩
    · rintro _ _ ⟨rfl, rfl⟩
      refine ⟨hplain, origin, access, ?_⟩
      rintro test shape rfl
      refine ⟨outer (.outerJoined test shape), fun e inside h => ?_⟩
      obtain ⟨_, h⟩ := entity e inside h
      cases h
    · rintro _ _ ⟨rfl, rfl⟩
      exact haccess
    · intro h
      cases h with
      | lookup _ h => cases h
      | member _ h => exact .member name (outer h)
  | field hfield =>
    exact ⟨sources, hroot.field (fun _ _ => plain _ rfl rfl rfl) (fieldOf hfield), fun h =>
      .member name (outer (h.of_field (fieldOf hfield)))⟩
  | query relationship related =>
    obtain ⟨⟨hquery, hshape⟩, -⟩ := EntityMap.related_every plain hroot related
    refine ⟨sources, every_iff.2 ⟨plain _ rfl rfl rfl, ?_⟩, fun h => by cases h⟩
    simpa [Projection.toTree] using ⟨hquery, hshape⟩
  | @lookup e shape source r _ _ outside _ relationship related singleton hsources =>
    obtain ⟨-, hquery, hshape⟩ := EntityMap.related_every plain hroot related
    refine ⟨fun joined hjoined => ?_, hshape, fun _ => .lookup (e := e) origin ?_⟩
    · rcases mem_cons.1 hjoined with h | h
      · cases h
        refine every_iff.2 ⟨plain _ rfl rfl rfl, ?_⟩
        simpa using ⟨sources source (by simp [hsources]), hquery⟩
      · exact sources joined (by simp [hsources, h])
    · simpa [EntityMap.isSingleton, relationship] using singleton

theorem Tree.bindsFrom {a : Tree} (part : ∀ w ∈ a.subtrees, w ∈ t.subtrees) : t.BindsFrom m a := by
  have plain := t.coversPlain_boundFrom m
  induction a with
  | step a ih =>
    have ih : ∀ c ∈ a.children, t.BindsFrom m c := fun c hc => ih c hc fun w hw =>
      part w (mem_subtrees.2 (.inr ⟨c, hc, hw⟩))
    have ha : a ∈ t.subtrees := part a (mem_subtrees.2 (.inl rfl))
    intro nav b nav' hvisit sources
    cases Navigation.visited hvisit with
    | @member root root' _ name _ nav₁ nav₂ visited resolved =>
      obtain ⟨hsources, hbound, houter⟩ := ih root mem_cons_self _ _ _ visited sources
      refine resolved.boundFrom ha hsources hbound houter ?_
      rintro e shape rfl
      cases Navigation.visited visited with
      | node _ _ same _ =>
        cases same
        exact ⟨_, rfl⟩
    | @select s s' i j _ nav₁ nav₂ label same source others identity =>
      obtain ⟨hsources, hsource⟩ := source.bindsFrom (fun c hc => ih c
        (mem_clauses.2 (.inl (Option.mem_toList.1 hc)))) sources
      have hentered : Navigation.SourcesFrom m t { nav₁ with sources := s'.source :: nav₁.sources } := by
        intro c hc
        rcases mem_cons.1 hc with hc | hc
        · obtain ⟨_, _, hc, -⟩ := forall₂_mem_right hsource (Option.mem_toList.2 hc.symm)
          exact hc
        · exact hsources c hc
      obtain ⟨hsources', hothers⟩ := others.bindsFrom (fun c hc => ih c (mem_clauses.2 (.inr hc))) hentered
      refine ⟨fun c hc => hsources' c (mem_of_mem_tail hc), every_iff.2 ⟨⟨nofun, nofun, nofun, fun hj =>
        every_iff.2 ⟨nofun, ?_⟩⟩, ?_⟩, fun h => by cases h⟩
      · obtain ⟨hselect, hsource⟩ := identity hj
        intro c hc
        rcases mem_clauses.1 hc with hc | hc
        · obtain ⟨_, -, hc⟩ := forall₂_mem_left (optionRel_iff.1 (beqOption_iff.1 hsource)) (Option.mem_toList.2 hc)
          exact definite_of_beq hc
        · obtain ⟨_, -, hc⟩ := forall₂_mem_left (Select.beq_iff.1 hselect).2.1.others hc
          exact definite_of_beq hc
      · intro c hc
        rcases mem_clauses.1 hc with hc | hc
        · exact hsources' c (mem_of_head? (Option.join_eq_some_iff.1 hc))
        · obtain ⟨_, _, hc, -⟩ := forall₂_mem_right hothers hc
          exact hc
    | node member select same children identity =>
      obtain ⟨hsources, hall⟩ := children.bindsFrom ih sources
      have same := same.of_children hall
      have hmember : ∀ {root name}, b ≠ .member root name := by
        rintro root name rfl
        cases same
        cases member
      refine ⟨hsources, every_iff.2 ⟨⟨fun h => ⟨a, ha, same.isRowNumber.symm.trans h⟩,
        fun _ _ h => absurd h hmember, fun _ _ h => absurd h hmember,
        fun h => definite_of_beq (identity h)⟩, ?_⟩, ?_⟩
      · intro c hc
        obtain ⟨_, _, hc, -⟩ := forall₂_mem_right hall hc
        exact hc
      · intro h
        cases h with
        | outerJoined =>
          cases same
          exact .outerJoined _ _
        | lookup _ h => cases h
        | member =>
          cases same
          cases member
        | entity _ h =>
          cases same with
          | entity _ hchild => exact .entity _ (hchild.2 h)
        | field hmem h =>
          cases same with
          | record hfields =>
            obtain ⟨f, hf, -, hchild⟩ := forall₂_mem_right hfields hmem
            exact Tree.HoldsOuter.field hf (hchild.2 h)

/-! ## Relationships that are left -/

/-- No relationship is read from an entity once members are bound. A relationship that is still read from
an outer-joined entity was read from a tree that can become an outer-joined shape, and not from an entity: so
none is left where all relationships are read from entities, or from trees that hold no such shape. -/
theorem Tree.bindMembers_relationships {lookups : List Alias} {next next' : Alias}
    (bound : (t.bindMembers m).Gives next (u, lookups) next') :
    (∀ e shape name, .member (.entity e shape) name ∈ u.subtrees → m.isRelationship e name = false) ∧
      ∀ test e shape name, .member (.outerJoined test (.entity e shape)) name ∈ u.subtrees →
        m.isRelationship e name = true →
        ∃ origin, .member origin name ∈ t.subtrees ∧ origin.HoldsOuter m ∧ ∀ f s, origin ≠ .entity f s := by
  obtain ⟨nav, hvisit, -, -⟩ := bindMembers_gives.1 bound
  obtain ⟨-, hbound, -⟩ := bindsFrom (fun _ hw => hw) _ _ _ hvisit nofun
  refine ⟨fun e shape name hmem => ?_, fun test e shape name hmem _ => ?_⟩
  · obtain ⟨hplain, -⟩ := (hbound _ hmem).members _ _ rfl
    rw [EntityMap.isRelationship, hplain e shape rfl]
    rfl
  · obtain ⟨-, origin, horigin, houter⟩ := (hbound _ hmem).members _ _ rfl
    obtain ⟨hholds, hentity⟩ := houter _ _ rfl
    exact ⟨origin, horigin, hholds, hentity⟩

/-- Customers, their addresses, and the towns of these. -/
def townBook : EntityMap :=
  [{ name := "Customer", table := "customers", columns := [⟨"home", "address_id", .int64⟩]
     relationships := [⟨"address", "Address", [("home", "id")], true⟩] },
   { name := "Address", table := "addresses"
     columns := [⟨"id", "address_id", .int64⟩, ⟨"place", "town_id", .int64⟩]
     relationships := [⟨"town", "Town", [("place", "id")], true⟩] },
   { name := "Town", table := "towns", columns := [⟨"id", "town_id", .int64⟩, ⟨"name", "name", .string⟩] }]

/-- The names of the towns in which customers live: each is two relationships away. -/
def customerTowns : Tree :=
  let home : ColumnRef := ⟨.int64, ScalarType.int64.columnType, 0, "address_id"⟩
  let address : Tree := .member (.entity "Customer" (.record [("home", .column home)])) "address"
  .select
    { label := 1, columns := [⟨"name", .member (.member address "town") "name", ScalarType.string.columnType⟩]
      source := some (.table 0 "customers") }
    none

/-- A relationship of the given name is read from an outer-joined entity. -/
def Tree.readsOuter (entity name : String) : Tree → Bool
  | .member (.outerJoined _ (.entity e _)) n => e == entity && n == name
  | _ => false

theorem Tree.exists_of_readsOuter (h : t.readsOuter entity name = true) :
    ∃ test shape, t = .member (.outerJoined test (.entity entity shape)) name := by
  unfold readsOuter at h
  split at h
  · simp only [Bool.and_eq_true, beq_iff_eq] at h
    obtain ⟨rfl, rfl⟩ := h
    exact ⟨_, _, rfl⟩
  · cases h

/-- The address is looked up, and its town stays a member of what was found. -/
theorem bindMembers_relationships_customerTowns :
    ∃ u lookups next', (customerTowns.bindMembers townBook).Gives 2 (u, lookups) next' ∧
      (∀ e shape name, .member (.entity e shape) name ∈ u.subtrees → townBook.isRelationship e name = false) ∧
      ∃ test shape, .member (.outerJoined test (.entity "Address" shape)) "town" ∈ u.subtrees ∧
        townBook.isRelationship "Address" "town" = true ∧
        ∃ origin, .member origin "town" ∈ customerTowns.subtrees ∧ origin.HoldsOuter townBook ∧
          ∀ f s, origin ≠ .entity f s := by
  have hleft : ((customerTowns.bindMembers townBook).run.run 2).1.toOption.any
      (fun p => p.1.subtrees.any (readsOuter "Address" "town")) = true := by decide +kernel
  obtain ⟨⟨u, lookups⟩, next', bound, hleft⟩ := Lowering.exists_gives_of hleft
  obtain ⟨w, hw, hreads⟩ := any_eq_true.1 hleft
  obtain ⟨test, shape, rfl⟩ := exists_of_readsOuter hreads
  obtain ⟨hentity, houter⟩ := bindMembers_relationships bound
  exact ⟨u, lookups, next', bound, hentity, test, shape, hw, rfl, houter test _ shape _ hw rfl⟩

end HiveQuery
