import HiveQuery.Proofs.ComputedJoins
import HiveQuery.Proofs.Copies

/-!
# Similar trees

Trees with the same nodes under other aliases compute the same, also if a part of one tree that has the same
value everywhere stands for such a part of the other one.
-/

namespace HiveQuery
open List

variable {env : Environment} {μ : Reads} {f g : Alias → Alias} {names : List Alias} {t u : Tree} {v : Value}
  {frames frames' : Frames}

/-- A tree is a scalar with one value, wherever it is computed. -/
structure Tree.Denotes (t : Tree) (v : Value) : Prop where
  scalar : ∀ env frames group, t.scalar env frames group = .ok v
  source : t.isSource = false
  number : t.isRowNumber = false
  aggregate : t.hasAggregate = false

/-- Trees that differ in their aliases, their identities, the types of columns, and parts with one value. -/
inductive Tree.Similar (f : Alias → Alias) : Tree → Tree → Prop
  | value {t u : Tree} {v : Value} (left : t.Denotes v) (right : u.Denotes v) : Similar f t u
  | table (a : Alias) (name : String) : Similar f (.table a name) (.table (f a) name)
  | column {c d : ColumnRef} (label : d.label = f c.label) (name : d.name = c.name) :
      Similar f (.column c) (.column d)
  | select {s s' : Select Tree} (i j : Option Identity) (label : s'.label = f s.label)
      (same : s.SameClauses (fun _ _ => True) (fun _ _ => True) s')
      (clauses : Forall₂ (Similar f) s.clauses s'.clauses) : Similar f (.select s i) (.select s' j)
  | node {t u : Tree} (label : t.label? = none) (column : t.column? = none)
      (same : t.SameNode (fun _ _ => True) u) (children : Forall₂ (Similar f) t.children u.children) :
      Similar f t u

theorem Tree.SameNode.similar (same : t.SameNode (Similar id) u) : t.Similar id u := by
  have htrue := same.imp fun _ _ _ _ => trivial
  have hchildren := same.children
  cases same with
  | table a name => exact .table a name
  | column c => exact .column rfl rfl
  | select i j label clauses =>
    exact .select i j label (clauses.imp (fun _ _ _ _ => trivial) fun _ _ _ _ => trivial) hchildren
  | _ => exact .node rfl rfl htrue hchildren

theorem Tree.similar_rename (f : Alias → Alias) (t : Tree) : t.Similar f (t.rename f) := by
  induction t with
  | step t ih =>
    obtain ⟨v, same, hnode⟩ := t.rename_node f
    have hchildren : Forall₂ (Similar f) t.children v.children :=
      forall₂_imp_mem same.children fun a b ha hab => hab ▸ ih a ha
    have htrue := same.imp fun _ _ _ _ => trivial
    rw [hnode]
    cases htrue with
    | table a name => exact .table a name
    | column c => exact .column rfl rfl
    | select i j label clauses =>
      exact .select i none (congrArg f label) ⟨clauses.source, clauses.filter, clauses.order, clauses.group,
        clauses.cluster, clauses.skip, clauses.take, clauses.columns, clauses.distinct, clauses.reverse⟩ hchildren
    | join kind i j hl hr hc => exact .node rfl rfl (.join kind i none hl hr hc) hchildren
    | projection i j hq hx => exact .node rfl rfl (.projection i none hq hx) hchildren
    | _ => exact .node rfl rfl (by constructor <;> assumption) hchildren

theorem Tree.Similar.symm (h : t.Similar f u)
    (back : t.Every fun v => (∀ a ∈ v.label?, g (f a) = a) ∧ ∀ c ∈ v.column?, g (f c.label) = c.label) :
    u.Similar g t := by
  induction t generalizing u with
  | step t ih =>
    obtain ⟨⟨hlabel, hcolumn⟩, hchildren⟩ := every_iff.1 back
    have hflip : ∀ {us}, Forall₂ (Similar f) t.children us →
        Forall₂ (Similar g) us t.children := fun h =>
      (forall₂_imp_mem h fun a b ha hab => ih a ha hab (hchildren a ha)).flip
    cases h with
    | value left right => exact .value right left
    | table a name =>
      have h := Similar.table (f := g) (f a) name
      rwa [hlabel a rfl] at h
    | column label name => exact .column (by rw [label, hcolumn _ rfl]) name.symm
    | select i j label same clauses =>
      exact .select j i (by rw [label, hlabel _ rfl]) same.symm (hflip clauses)
    | node label column same children =>
      refine .node (same.label?.trans label) ?_ same.symm (hflip children)
      cases same <;> first | rfl | cases column

/-! ## What similar trees compute -/

def renamed (f : Alias → Alias) : ColumnMatch := fun c d =>
  d.label = f c.label ∧ d.name = c.name

structure Reads.Renames (μ : Reads) (f : Alias → Alias) (names : List Alias) : Prop where
  known : ∀ a ∈ μ.left, a ∈ names
  right : μ.right = μ.left.map f
  rel : ∀ c d : ColumnRef, c.label ∈ μ.left → renamed f c d → μ.rel c d

namespace Reads.Renames

theorem links (h : μ.Renames f names) {c d : ColumnRef} (hcd : renamed f c d) : μ.Links c d := by
  intro hc
  rw [h.right, hcd.1]
  exact ⟨mem_map_of_mem hc, h.rel c d hc hcd⟩

theorem same {scope : List Alias} (known : ∀ a ∈ scope, a ∈ names) (fixed : ∀ a ∈ scope, f a = a) :
    (same scope).Renames f names where
  known := known
  right := (map_id scope).symm.trans (map_congr_left fun a ha => (fixed a ha).symm)
  rel _ _ hc hcd := ⟨hcd.1.trans (fixed _ hc), hcd.2⟩

theorem within (h : μ.Renames f names) (inj : Separates f names) {new : List Alias} {ν : ColumnMatch}
    (hnew : ∀ a ∈ new, a ∈ names) (hν : ∀ c d : ColumnRef, c.label ∈ new → renamed f c d → ν c d) :
    (μ.within new (new.map f) ν).Renames f names where
  known a ha := (mem_append.1 ha).elim (hnew a) (h.known a)
  right := by rw [Reads.within, h.right, map_append]
  rel c d hc hcd := by
    by_cases hmem : c.label ∈ new
    · exact .inl ⟨hmem, hcd.1 ▸ mem_map_of_mem hmem, hν c d hmem hcd⟩
    · have hleft : c.label ∈ μ.left := (mem_append.1 hc).resolve_left hmem
      exact .inr ⟨hmem, hcd.1 ▸ inj.not_mem_map hnew (h.known _ hleft) hmem, h.rel c d hleft hcd⟩

end Reads.Renames

theorem renamed_join (inj : Separates f names) {l r : List Alias} (hl : ∀ a ∈ l, a ∈ names)
    (hr : ∀ a ∈ r, a ∈ names) {c d : ColumnRef} (hc : c.label ∈ l ++ r) (hcd : renamed f c d) :
    joinMatch l (l.map f) (renamed f) (renamed f) c d := by
  by_cases hmem : c.label ∈ l
  · exact .inl ⟨hmem, hcd.1 ▸ mem_map_of_mem hmem, hcd⟩
  · have hright : c.label ∈ r := (mem_append.1 hc).resolve_left hmem
    exact .inr ⟨hmem, hcd.1 ▸ inj.not_mem_map hl (hr _ hright) hmem, hcd⟩

structure Tree.ComputesAlike (env : Environment) (f : Alias → Alias) (names : List Alias) (t u : Tree) :
    Prop where
  sources : u.sources = t.sources.map f
  aggregate : u.hasAggregate = t.hasAggregate
  numbering : SameNumbering t u
  scalar : ∀ {μ : Reads}, μ.Renames f names → t.Follows env [] μ u
  rows : ∀ {μ : Reads} {frames frames' : Frames}, μ.Renames f names → FramesMatch true μ frames frames' →
    Run.Agree true (Forall₂ (RowMatch true t.sources u.sources (renamed f))) (t.rows env frames)
      (u.rows env frames')

theorem lookupsUnique_nil (js : List (Frames × Join Tree)) : LookupsUnique env [] js :=
  fun _ _ _ _ h => nomatch h

theorem rows_agree_of_not_source {R : List Row → List Row → Prop} (h : t.isSource = false) :
    Run.Agree true R (t.rows env frames) (u.rows env frames') := by
  cases t <;> first | exact .of_error | cases h

theorem Tree.sources_of_not_source (h : t.isSource = false) : t.sources = [] := by
  cases t <;> first | rfl | cases h

namespace Tree.ComputesAlike

theorem of_denotes (left : t.Denotes v) (right : u.Denotes v) : t.ComputesAlike env f names u where
  sources := by rw [sources_of_not_source left.source, sources_of_not_source right.source, map_nil]
  aggregate := right.aggregate.trans left.aggregate.symm
  numbering := .of_not left.number right.number
  scalar _ _ _ _ _ _ _ _ := by
    refine .of_value ?_ left.number ?_
    · have hsource := left.source
      cases t <;> first | rfl | cases hsource
    · rw [left.scalar, right.scalar]
      exact .of_ok rfl
  rows _ _ := rows_agree_of_not_source left.source

theorem run_agree (inj : Separates f names) {s s' : Select Tree} (known : ∀ a ∈ s.sourceAliases, a ∈ names)
    (same : s.SameClauses (ComputesAlike env f names) (ComputesAlike env f names) s')
    (hμ : μ.Renames f names) (hframes : FramesMatch true μ frames frames') :
    Run.Agree true Eq (s.run env frames) (s'.run env frames') := by
  have haliases : s'.sourceAliases = s.sourceAliases.map f := same.sourceAliases_map fun _ _ h => h.sources
  refine same.run_agree (ν := renamed f) (fun _ _ h => h.aggregate) (fun _ _ h => h.numbering) ?_ ?_ ?_ hframes
    (lookupsUnique_nil _)
  · exact fun t u _ _ htu _ => htu.rows hμ hframes
  · intro a _ b hab
    rw [haliases]
    exact hab.scalar (hμ.within inj known fun _ _ _ h => h)
  · exact fun a _ b hab => hab.scalar hμ

theorem select (inj : Separates f names) {s s' : Select Tree} (i j : Option Identity)
    (known : ∀ a ∈ s.sourceAliases, a ∈ names) (label : s'.label = f s.label)
    (same : s.SameClauses (ComputesAlike env f names) (ComputesAlike env f names) s') :
    (select s i).ComputesAlike env f names (.select s' j) where
  sources := by rw [Tree.sources, Tree.sources, label, map_singleton]
  aggregate := by rw [hasAggregate_eq, hasAggregate_eq]; rfl
  numbering := .of_not rfl rfl
  scalar hμ _ _ _ _ hframes _ _ := query_agree i j (run_agree inj known same hμ hframes)
  rows hμ hframes := by
    rw [Tree.rows, Tree.rows]
    refine (run_agree inj known same hμ hframes).bind fun r r' _ _ hr => .of_ok ?_
    subst hr
    exact sourceRows_match _ _ r.headers r.rows fun _ _ h => h.2

theorem join (inj : Separates f names) (kind : JoinKind) {l r l' r' : Tree} {c c' : Option Tree}
    (i j : Option Identity) (hl : l.ComputesAlike env f names l') (hr : r.ComputesAlike env f names r')
    (hc : Option.Rel (ComputesAlike env f names) c c') (knownl : ∀ a ∈ l.sources, a ∈ names)
    (knownr : ∀ a ∈ r.sources, a ∈ names)
    (aggregate : (join ⟨kind, l', r', c'⟩ j).hasAggregate = (join ⟨kind, l, r, c⟩ i).hasAggregate) :
    (join ⟨kind, l, r, c⟩ i).ComputesAlike env f names (.join ⟨kind, l', r', c'⟩ j) where
  sources := by simp only [Tree.sources, hl.sources, hr.sources, map_append]
  aggregate := aggregate
  numbering := .of_not rfl rfl
  scalar _ _ _ _ _ _ _ _ := inert_agree rfl
  rows {μ frames frames'} hμ hframes := by
    have hmatch : ∀ c d : ColumnRef, c.label ∈ l.sources ++ r.sources → renamed f c d →
        joinMatch l.sources l'.sources (renamed f) (renamed f) c d := fun c d hc hcd => by
      rw [hl.sources]
      exact renamed_join inj knownl knownr hc hcd
    have hrows := joined_agree kind i j (hl.rows hμ hframes)
      (fun _ x x' _ hm => hr.rows ?_ (hframes.within hm)) (fun _ => hr.rows hμ hframes)
      fun {x y z} _ _ hz => satisfies_agree (option_isSome_eq hc) fun a b ha hb =>
        (option_rel_of_some hc ha hb).scalar ?_ (hframes.within hz) .none (lookupsUnique_nil _)
    · exact hrows.imp fun _ _ _ _ h => h.imp fun _ _ hm => hm.mono fun c d hc _ => hmatch c d hc
    · rw [hl.sources]
      exact hμ.within inj knownl fun _ _ _ h => h
    · have hwithin := hμ.within inj (fun a ha => (mem_append.1 ha).elim (knownl a) (knownr a)) hmatch
      rwa [map_append, ← hl.sources, ← hr.sources] at hwithin

end Tree.ComputesAlike

/-- Similar trees compute the same if no two aliases get the same name. -/
theorem Tree.Similar.computesAlike (inj : Separates f names) (h : t.Similar f u)
    (known : ∀ a ∈ t.declared, a ∈ names) : t.ComputesAlike env f names u := by
  induction t generalizing u with
  | step t ih =>
    have ih : ∀ {us}, Forall₂ (Similar f) t.children us →
        Forall₂ (ComputesAlike env f names) t.children us := fun h =>
      forall₂_imp_mem h fun a b ha hab =>
        ih a ha hab fun x hx => known x ((declared_of_child ha).subset hx)
    have hknown : ∀ a ∈ t.children, ∀ x ∈ a.sources, x ∈ names := fun a ha x hx =>
      known x ((declared_of_child ha).subset (a.sources_sublist.subset hx))
    cases h with
    | value left right => exact .of_denotes left right
    | table a name =>
      refine ⟨rfl, by rw [hasAggregate_eq, hasAggregate_eq]; rfl, .of_not rfl rfl,
        fun _ _ _ _ _ _ _ _ => inert_agree rfl, fun _ _ => ?_⟩
      rw [rows, rows]
      cases env.dataset.lookup name with
      | none => exact .of_error
      | some table => exact .of_ok (sourceRows_match _ _ table.columns table.rows fun _ _ h => h.2)
    | column label name =>
      exact ⟨rfl, rfl, .of_not rfl rfl, fun hμ _ _ _ _ hframes _ _ => .column (hμ.links ⟨label, name⟩) hframes,
        fun _ _ => rows_agree_of_not_source rfl⟩
    | select i j label same clauses =>
      exact .select inj i j (fun a ha => known a ((Tree.select _ i).brings_sublist.subset ha)) label
        (same.of_clauses (ih clauses))
    | node hlabel hcolumn same children =>
      have hsame := same.of_children (ih children)
      have haggregate : u.hasAggregate = t.hasAggregate := hsame.hasAggregate fun _ _ h => h.aggregate
      have hother : t.isSource = false → u.isSource = false → t.ComputesAlike env f names u := by
        intro ht hu
        have hselect : t.isSelect = false := by cases t <;> first | rfl | cases ht
        refine ⟨by rw [sources_of_not_source ht, sources_of_not_source hu, map_nil], haggregate, same.numbering,
          fun {μ} hμ => ?_, fun _ _ => rows_agree_of_not_source ht⟩
        have hfollows : t.SameNode (Follows env [] μ) u := hsame.imp fun _ _ _ h => h.scalar hμ
        intro _ _ _ _
        exact hfollows.follows hselect hcolumn
      cases same with
      | join kind i j =>
        cases hsame with
        | join _ _ _ hl hr hc =>
          exact .join inj kind i j hl hr hc (hknown _ (by simp))
            (hknown _ (by simp)) haggregate
      | select | table => cases hlabel
      | _ => exact hother rfl rfl

/-! ## Rows around that stay -/

theorem Tree.Similar.scalar {scope : List Alias} (h : t.Similar f u) (inj : Separates f (t.declared ++ scope))
    (fixed : ∀ a ∈ scope, f a = a) {group : Option (List Row)} (hframes : frames.Within scope)
    (hgroup : ∀ members ∈ group, ∀ row ∈ members, Frames.Within (row :: frames.tail) scope)
    (hv : t.scalar env frames group = .ok v) : u.scalar env frames group = .ok v := by
  have halike : t.ComputesAlike env f (t.declared ++ scope) u :=
    h.computesAlike inj fun a ha => mem_append_left _ ha
  have hgroups : GroupMatch true (.same scope) frames frames group group := by
    cases group with
    | none => exact .none
    | some members => exact .some (forall₂_same.2 fun row hrow => .same true (hgroup members rfl row hrow))
  exact (halike.scalar (.same (fun a ha => mem_append_right _ ha) fixed) (.same true hframes) hgroups
    (lookupsUnique_nil _)).value.ok_of_ok hv

/-- Similar selects give the same relation. -/
theorem Select.run_of_similar {s : Select Tree} {i : Option Identity} (h : (Tree.select s i).Similar f u) :
    ∃ s' j, u = .select s' j ∧ ∀ {scope : List Alias} {env : Environment} {frames : Frames} {r : Relation},
      Separates f ((Tree.select s i).declared ++ scope) → (∀ a ∈ scope, f a = a) → frames.Within scope →
      s.run env frames = .ok r → s'.run env frames = .ok r := by
  cases h with
  | value left => cases left.source
  | node label => cases label
  | @select _ s' _ j _ same clauses =>
    refine ⟨s', j, rfl, fun {scope env frames r} inj fixed hframes => (Tree.ComputesAlike.run_agree inj
      (fun a ha => mem_append_left _ ((Tree.select s i).brings_sublist.subset ha))
      (same.of_clauses (forall₂_imp_mem clauses fun a b ha hab => ?_))
      (.same (fun a ha => mem_append_right _ ha) fixed) (.same true hframes)).ok_of_ok⟩
    exact hab.computesAlike inj fun x hx =>
      mem_append_left _ ((Tree.declared_of_child ha).subset hx)

end HiveQuery
