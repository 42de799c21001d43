import HiveQuery.Proofs.Rerouting
import HiveQuery.Scope

/-!
# What a tree needs from around it

A column of a tree may refer to a source that the tree brings along, or to one around it. A tree needs the columns of
the second sort.
-/

namespace HiveQuery

variable {R : Tree → Tree → Prop}
open List Select

variable {c : ColumnRef} {p : List Alias × Tree} {t u : Tree}

/-! ## Needs -/

/-- All clauses of a select but its source see the aliases of the source. -/
def Select.bindings (s : Select Tree) : List (List Alias × Tree) :=
  s.source.toList.map ([], ·) ++ s.others.map (s.sourceAliases, ·)

/-- The children of a tree with the aliases that the tree brings into their scopes. -/
def Tree.bindings : Tree → List (List Alias × Tree)
  | .select s _ => s.bindings
  | .join ⟨kind, l, r, c⟩ _ =>
    ([], l) :: (if kind.isApply then l.sources else [], r) :: c.toList.map (l.sources ++ r.sources, ·)
  | .projection q t _ => [([], q), (q.label?.toList, t)]
  | t => t.children.map ([], ·)

/-- A column of a tree refers to a source that is not the tree's own. -/
inductive Tree.Needs (c : ColumnRef) : Tree → Prop
  | column : Needs c (.column c)
  | child {t : Tree} {p : List Alias × Tree} : p ∈ t.bindings → c.label ∉ p.1 → Needs c p.2 → Needs c t

theorem Tree.sources_of_label {a : Alias} (h : t.label? = some a) : t.sources = [a] := by
  cases t with
  | table | select =>
    cases h
    rfl
  | _ => cases h

theorem Tree.mem_children_of_bindings (h : p ∈ t.bindings) : p.2 ∈ t.children := by
  cases t with
  | select s i =>
    simp only [Tree.bindings, Select.bindings, mem_append, mem_map] at h
    rw [Tree.children, s.clauses_eq]
    rcases h with ⟨a, ha, rfl⟩ | ⟨a, ha, rfl⟩
    · exact mem_append_left _ ha
    · exact mem_append_right _ ha
  | join j i =>
    simp only [Tree.bindings, mem_cons, mem_map] at h
    rcases h with rfl | rfl | ⟨a, ha, rfl⟩
    · exact mem_cons_self
    · exact .tail _ (.head _)
    · exact .tail _ (.tail _ ha)
  | projection q shape i =>
    simp only [Tree.bindings, mem_cons, not_mem_nil, or_false] at h
    rcases h with rfl | rfl
    · exact mem_cons_self
    · exact .tail _ (.head _)
  | _ =>
    obtain ⟨a, ha, rfl⟩ := mem_map.1 h
    exact ha

theorem Tree.Needs.mem_subtrees (h : t.Needs c) : .column c ∈ t.subtrees := by
  induction h with
  | column => exact Tree.mem_subtrees.2 (.inl rfl)
  | child hp _ _ ih => exact Tree.mem_subtrees.2 (.inr ⟨_, mem_children_of_bindings hp, ih⟩)

theorem Tree.needs_column {d : ColumnRef} : (Tree.column d).Needs c ↔ c = d := by
  constructor
  · rintro (_ | ⟨hp, _, _⟩)
    · rfl
    · cases hp
  · rintro rfl
    exact .column

theorem Tree.Needs.cases_node (h : t.Needs c) (column : t.column? = none) :
    ∃ p ∈ t.bindings, c.label ∉ p.1 ∧ p.2.Needs c := by
  cases h with
  | column => cases column
  | child hp hlabel h => exact ⟨_, hp, hlabel, h⟩

theorem Tree.needs_iff_children (column : t.column? = none) (bindings : t.bindings = t.children.map ([], ·)) :
    t.Needs c ↔ ∃ a ∈ t.children, a.Needs c := by
  constructor
  · intro h
    obtain ⟨p, hp, -, h⟩ := h.cases_node column
    exact ⟨p.2, mem_children_of_bindings hp, h⟩
  · rintro ⟨a, ha, h⟩
    refine .child (p := ([], a)) ?_ not_mem_nil h
    rw [bindings]
    exact mem_map_of_mem ha

section Clauses

variable {s : Select Tree} {i : Option Identity} {a : Tree} {c : ColumnRef}

theorem Select.needs_iff : (Tree.select s i).Needs c ↔ (∃ a ∈ s.source, a.Needs c) ∨
      c.label ∉ s.sourceAliases ∧ ∃ a ∈ s.others, a.Needs c := by
  constructor
  · intro h
    obtain ⟨p, hp, hlabel, h⟩ := h.cases_node rfl
    simp only [Tree.bindings, bindings, mem_append, mem_map, Option.mem_toList] at hp
    rcases hp with ⟨a, ha, rfl⟩ | ⟨a, ha, rfl⟩
    · exact .inl ⟨a, ha, h⟩
    · exact .inr ⟨hlabel, a, ha, h⟩
  · rintro (⟨a, ha, h⟩ | ⟨hlabel, a, ha, h⟩)
    · refine .child (p := ([], a)) ?_ not_mem_nil h
      exact mem_append_left _ (mem_map_of_mem (Option.mem_toList.2 ha))
    · refine .child (p := (s.sourceAliases, a)) ?_ hlabel h
      exact mem_append_right _ (mem_map_of_mem ha)

theorem Select.mem_others_widen {s : Select Tree} {extra : List (Column Tree)} {a : Tree} :
    a ∈ (s.widen extra).others ↔ a ∈ s.others ∨ ∃ e ∈ extra, e.value = a := by
  simp only [others, clauses, widen, map_append, mem_append, mem_map]
  exact or_assoc.symm

variable {kind : JoinKind} {l r : Tree} {condition : Option Tree}

theorem Tree.needs_join_iff : (join ⟨kind, l, r, condition⟩ i).Needs c ↔ l.Needs c ∨
      (kind.isApply = true → c.label ∉ l.sources) ∧ r.Needs c ∨
      c.label ∉ l.sources ++ r.sources ∧ ∃ a ∈ condition, a.Needs c := by
  constructor
  · intro h
    obtain ⟨p, hp, hlabel, h⟩ := h.cases_node rfl
    simp only [bindings, mem_cons, mem_map, Option.mem_toList] at hp
    rcases hp with rfl | rfl | ⟨a, ha, rfl⟩
    · exact .inl h
    · refine .inr (.inl ⟨fun happly => ?_, h⟩)
      simpa only [happly, if_true] using hlabel
    · exact .inr (.inr ⟨hlabel, a, ha, h⟩)
  · rintro (h | ⟨happly, h⟩ | ⟨hlabel, a, ha, h⟩)
    · exact .child (p := ([], l)) mem_cons_self not_mem_nil h
    · refine .child (.tail _ (.head _)) ?_ h
      cases hkind : kind.isApply with
      | false => exact not_mem_nil
      | true => exact happly hkind
    · refine .child (p := (l.sources ++ r.sources, a)) ?_ hlabel h
      exact .tail _ (.tail _ (mem_map_of_mem (Option.mem_toList.2 ha)))

end Clauses

/-! ## The check -/

theorem andThen_eq_ok {x y : Except ScopeError Unit} :
    (x >>= fun _ => y) = .ok () ↔ x = .ok () ∧ y = .ok () := by
  rw [bind_eq_ok]
  exact ⟨fun ⟨_, h⟩ => h, fun h => ⟨(), h⟩⟩

section Check

variable {scope : List Alias}

theorem checkOption_eq_ok {o : Option Tree} :
    checkOption scope o = .ok () ↔ ∀ t ∈ o.toList, t.checkScopesIn scope = .ok () := by
  cases o <;> simp [checkOption]

theorem checkList_eq_ok {ts : List Tree} :
    checkList scope ts = .ok () ↔ ∀ t ∈ ts, t.checkScopesIn scope = .ok () := by
  induction ts with
  | nil => simp [checkList]
  | cons t ts ih => rw [checkList, andThen_eq_ok, ih, forall_mem_cons]

theorem checkKeys_eq_ok {ks : List (SortKey Tree)} :
    checkKeys scope ks = .ok () ↔ ∀ t ∈ ks.map SortKey.value, t.checkScopesIn scope = .ok () := by
  induction ks with
  | nil => simp [checkKeys]
  | cons k ks ih => rw [checkKeys, andThen_eq_ok, ih, map_cons, forall_mem_cons]

theorem checkColumns_eq_ok {cs : List (Column Tree)} :
    checkColumns scope cs = .ok () ↔ ∀ t ∈ cs.map Column.value, t.checkScopesIn scope = .ok () := by
  induction cs with
  | nil => simp [checkColumns]
  | cons c cs ih => rw [checkColumns, andThen_eq_ok, ih, map_cons, forall_mem_cons]

theorem checkFields_eq_ok {fs : List (String × Tree)} :
    checkFields scope fs = .ok () ↔ ∀ t ∈ fs.map Prod.snd, t.checkScopesIn scope = .ok () := by
  induction fs with
  | nil => simp [checkFields]
  | cons f fs ih => rw [checkFields, andThen_eq_ok, ih, map_cons, forall_mem_cons]

theorem Select.checkScopesIn_eq_ok {s : Select Tree} :
    s.checkScopesIn scope = .ok () ↔ ∀ p ∈ s.bindings, p.2.checkScopesIn (p.1 ++ scope) = .ok () := by
  cases s
  simp only [checkScopesIn, andThen_eq_ok, checkOption_eq_ok, checkList_eq_ok, checkKeys_eq_ok,
    checkColumns_eq_ok, bindings, others, clauses, sourceAliases,
    forall_mem_append, forall_mem_map, nil_append, Option.toList_none, and_assoc]

theorem Tree.checkScopesIn_eq_ok :
    t.checkScopesIn scope = .ok () ↔ (∀ c, t.column? = some c → c.label ∈ scope) ∧
      ∀ p ∈ t.bindings, p.2.checkScopesIn (p.1 ++ scope) = .ok () := by
  cases t with
  | select s i => simp [checkScopesIn, column?, bindings, checkScopesIn_eq_ok]
  | join j i =>
    obtain ⟨kind, l, r, c⟩ := j
    have happly : (if kind.isApply then l.sources else []) ++ scope =
        if kind.isApply then l.sources ++ scope else scope := by
      split <;> rfl
    simp [checkScopesIn, column?, bindings, andThen_eq_ok, checkOption_eq_ok, happly]
  | column c => simp [checkScopesIn, column?, bindings]
  | record fields =>
    simp only [checkScopesIn, checkFields_eq_ok, column?, bindings, children, forall_mem_map, nil_append]
    simp
  | _ =>
    simp [checkScopesIn, column?, bindings, andThen_eq_ok, checkOption_eq_ok, checkKeys_eq_ok]

/-- A tree is accepted where all that it needs is in scope. -/
theorem Tree.checkScopesIn_iff : t.checkScopesIn scope = .ok () ↔ ∀ c, t.Needs c → c.label ∈ scope := by
  induction t generalizing scope with
  | step t ih =>
    rw [checkScopesIn_eq_ok]
    constructor
    · rintro ⟨hcolumn, hchildren⟩ c hc
      cases hc with
      | column => exact hcolumn c rfl
      | child hp hlabel hc =>
        have hmem := (ih _ (mem_children_of_bindings hp)).1 (hchildren _ hp) c hc
        exact (mem_append.1 hmem).resolve_left hlabel
    · intro h
      refine ⟨fun c hc => ?_, fun p hp => ?_⟩
      · cases t with
        | column d =>
          cases hc
          exact h c .column
        | _ => cases hc
      · refine (ih _ (mem_children_of_bindings hp)).2 fun c hc => ?_
        by_cases hlabel : c.label ∈ p.1
        · exact mem_append_left _ hlabel
        · exact mem_append_right _ (h c (.child hp hlabel hc))

theorem Tree.checkScopes_iff : t.checkScopes = .ok () ↔ ∀ c, ¬ t.Needs c :=
  checkScopesIn_iff.trans (forall_congr' fun _ => by simp)

end Check

/-! ## Trees that need no more -/

/-- Next to aliases of its own scope, a tree needs only what another one needs; and what it declares the
other one declares, or it comes from the given alias on. -/
structure Tree.Spans (n : Alias) (own : List Alias) (t u : Tree) : Prop where
  needs : ∀ c, u.Needs c → c.label ∈ own ∨ t.Needs c
  declared : ∀ a ∈ u.declared, a ∈ t.declared ∨ n ≤ a

/-- A tree can be replaced by another one, which brings the same sources and needs no more. -/
structure Tree.Covers (n : Alias) (t u : Tree) : Prop where
  sources : u.sources = t.sources
  label : u.label? = t.label?
  spans : t.Spans n [] u

namespace Tree.Spans

variable {n : Alias} {own : List Alias} {t u v : Tree}

theorem refl (n : Alias) (own : List Alias) (t : Tree) : t.Spans n own t :=
  ⟨fun _ h => .inr h, fun _ h => .inl h⟩

theorem trans (h : t.Spans n own u) (h' : u.Spans n own v) : t.Spans n own v where
  needs c hc := (h'.needs c hc).elim .inl (h.needs c)
  declared a ha := (h'.declared a ha).elim (h.declared a) .inr

theorem needs_of_nil (h : t.Spans n [] u) (hc : u.Needs c) : t.Needs c :=
  (h.needs c hc).resolve_left not_mem_nil

theorem widen (h : t.Spans n [] u) (own : List Alias) : t.Spans n own u :=
  ⟨fun _ hc => .inr (h.needs_of_nil hc), h.declared⟩

theorem of_leaf (hchildren : u.children = []) (hcolumn : u.column? = none) (hlabel : u.label? = none) :
    t.Spans n own u where
  needs c hc := by
    obtain ⟨p, hp, -⟩ := hc.cases_node hcolumn
    have hmem := mem_children_of_bindings hp
    rw [hchildren] at hmem
    cases hmem
  declared a ha := by
    rw [declared_eq, hchildren, hlabel] at ha
    cases ha

theorem of_column (h : c.label ∈ own ∨ t.Needs c) : t.Spans n own (.column c) where
  needs d hd := by
    rw [needs_column.1 hd]
    exact h
  declared a ha := by
    rw [declared_eq] at ha
    cases ha

theorem of_children (hcolumn : u.column? = none) (hlabel : u.label? = none)
    (h : ∀ a ∈ u.children, t.Spans n own a) : t.Spans n own u where
  needs c hc := by
    obtain ⟨p, hp, -, hc⟩ := hc.cases_node hcolumn
    exact (h _ (mem_children_of_bindings hp)).needs c hc
  declared a ha := by
    rw [declared_eq, hlabel] at ha
    obtain ⟨b, hb, ha⟩ := mem_flatMap.1 ha
    exact (h b hb).declared a ha

variable {s : Select Tree} {i : Option Identity} {a : Tree}

theorem select (hlabel : s.label ∈ t.declared ∨ n ≤ s.label) (source : ∀ a ∈ s.source, t.Spans n [] a)
    (others : ∀ a ∈ s.others, t.Spans n s.sourceAliases a) : t.Spans n [] (.select s i) where
  needs c hc := by
    rcases needs_iff.1 hc with ⟨a, ha, hc⟩ | ⟨hmem, a, ha, hc⟩
    · exact (source a ha).needs c hc
    · exact .inr (((others a ha).needs c hc).resolve_left hmem)
  declared x hx := by
    rw [declared_eq] at hx
    rcases mem_append.1 hx with hx | hx
    · rw [mem_singleton.1 hx]
      exact hlabel
    · obtain ⟨a, ha, hx⟩ := mem_flatMap.1 hx
      rcases mem_clauses.1 ha with ha | ha
      · exact (source a ha).declared x hx
      · exact (others a ha).declared x hx

theorem of_source (ha : a ∈ s.source) : (Tree.select s i).Spans n [] a where
  needs _ hc := .inr (needs_iff.2 (.inl ⟨a, ha, hc⟩))
  declared _ hx := .inl ((declared_of_child (mem_clauses.2 (.inl ha))).subset hx)

theorem of_others (ha : a ∈ s.others) : (Tree.select s i).Spans n s.sourceAliases a where
  needs c hc := by
    by_cases hmem : c.label ∈ s.sourceAliases
    · exact .inl hmem
    · exact .inr (needs_iff.2 (.inr ⟨hmem, a, ha, hc⟩))
  declared _ hx := .inl ((declared_of_child (mem_clauses.2 (.inr ha))).subset hx)

end Tree.Spans

namespace Tree.Covers

variable {n : Alias} {t u v : Tree}

theorem refl (n : Alias) (t : Tree) : t.Covers n t := ⟨rfl, rfl, .refl n [] t⟩

theorem trans (h : t.Covers n u) (h' : u.Covers n v) : t.Covers n v :=
  ⟨h'.sources.trans h.sources, h'.label.trans h.label, h.spans.trans h'.spans⟩

theorem checkScopes (h : t.Covers n u) (ht : t.checkScopes = .ok ()) : u.checkScopes = .ok () :=
  checkScopes_iff.2 fun c hc => checkScopes_iff.1 ht c (h.spans.needs_of_nil hc)

end Tree.Covers

theorem Tree.SameNode.bindings_rel {S : List Alias → List Alias → Prop} (h : t.SameNode R u) (nil : S [] [])
    (append : ∀ {a b c d}, S a b → S c d → S (a ++ c) (b ++ d))
    (sources : ∀ a b, R a b → S a.sources b.sources)
    (label : ∀ a b, R a b → S a.label?.toList b.label?.toList) :
    Forall₂ (fun p q => S p.1 q.1 ∧ R p.2 q.2) t.bindings u.bindings := by
  have hscoped : ∀ {ts us : List Tree} {X Y : List Alias}, S X Y → Forall₂ R ts us →
      Forall₂ (fun p q => S p.1 q.1 ∧ R p.2 q.2) (ts.map (X, ·)) (us.map (Y, ·)) := fun hXY h =>
    forall₂_map_iff.2 (h.imp fun _ _ h => ⟨hXY, h⟩)
  have hchildren := hscoped nil h.children
  cases h with
  | @select s s' i j _ same =>
    have haliases : S s.sourceAliases s'.sourceAliases := by
      have hsource := same.source
      unfold sourceAliases
      generalize s.source = o, s'.source = o' at *
      cases hsource with
      | none => exact nil
      | some hab => exact sources _ _ hab
    exact rel_append (hscoped nil (optionRel_iff.1 same.source)) (hscoped haliases same.others)
  | @join kind l r l' r' c c' i j hl hr hc =>
    have happly : S (if kind.isApply then l.sources else []) (if kind.isApply then l'.sources else []) := by
      split
      · exact sources _ _ hl
      · exact nil
    refine .cons ⟨nil, hl⟩ (.cons ⟨happly, hr⟩ ?_)
    exact hscoped (append (sources _ _ hl) (sources _ _ hr)) (optionRel_iff.1 hc)
  | projection i j hq ht => exact .cons ⟨nil, hq⟩ (.cons ⟨label _ _ hq, ht⟩ .nil)
  | _ => exact hchildren

theorem Tree.SameNode.bindings (h : t.SameNode R u) (sources : ∀ a b, R a b → b.sources = a.sources)
    (label : ∀ a b, R a b → b.label? = a.label?) :
    Forall₂ (fun p q => q.1 = p.1 ∧ R p.2 q.2) t.bindings u.bindings :=
  h.bindings_rel (S := fun X Y => Y = X) rfl (fun h h' => by rw [h, h']) sources
    fun a b hab => by rw [label a b hab]

theorem Tree.SameNode.covers {n : Alias} (h : t.SameNode (Covers n) u) : t.Covers n u where
  sources := h.sources fun _ _ h => h.sources
  label := h.label?
  spans := by
    refine ⟨fun c hc => .inr ?_, fun a ha => ?_⟩
    · cases hcolumn : t.column? with
      | none =>
        obtain ⟨q, hq, hlabel, hc⟩ := hc.cases_node (h.column?.trans hcolumn)
        obtain ⟨p, hp, hscope, hcovers⟩ :=
          forall₂_mem_right (h.bindings (fun _ _ h => h.sources) fun _ _ h => h.label) hq
        exact .child hp (hscope ▸ hlabel) (hcovers.spans.needs_of_nil hc)
      | some d =>
        cases h with
        | column => exact hc
        | _ => cases hcolumn
    · rw [declared_eq, h.label?] at ha
      rw [declared_eq, mem_append, mem_flatMap]
      rcases mem_append.1 ha with ha | ha
      · exact .inl (.inl ha)
      · obtain ⟨b, hb, ha⟩ := mem_flatMap.1 ha
        obtain ⟨a', ha', hcovers⟩ := forall₂_mem_right h.children hb
        exact (hcovers.spans.declared a ha).imp_left fun h => .inr ⟨a', ha', h⟩

/-! ## Aliases that are not needed where they are declared -/

/-- A tree needs no column of an alias that it declares. -/
def Tree.Tidy (t : Tree) : Prop :=
  ∀ c, t.Needs c → c.label ∉ t.declared

theorem Tree.tidy_of_checkScopes (h : t.checkScopes = .ok ()) : t.Tidy :=
  fun c hc => absurd hc (checkScopes_iff.1 h c)

theorem Tree.bindings_apart (nodup : t.declared.Nodup) (h : p ∈ t.bindings) :
    ∀ a ∈ p.1, a ∉ p.2.declared := by
  have hnodup := nodup.sublist t.children_declared_sublist
  cases t with
  | select s i =>
    simp only [Tree.bindings, Select.bindings, mem_append, mem_map] at h
    rcases h with ⟨b, hb, rfl⟩ | ⟨b, hb, rfl⟩
    · exact fun a ha => absurd ha not_mem_nil
    · intro a ha hb'
      obtain ⟨w, hw, ha⟩ := mem_sourceAliases.1 ha
      rw [Tree.children, s.clauses_eq, flatMap_append] at hnodup
      refine (nodup_append.1 hnodup).2.2 a ?_ a (mem_flatMap.2 ⟨b, hb, hb'⟩) rfl
      exact mem_flatMap.2 ⟨w, Option.mem_toList.2 hw, w.sources_sublist.subset ha⟩
  | join j i =>
    obtain ⟨kind, l, r, c⟩ := j
    simp only [Tree.children, flatMap_cons, nodup_append] at hnodup
    obtain ⟨-, ⟨-, -, hright⟩, hleft⟩ := hnodup
    simp only [Tree.bindings, mem_cons, mem_map] at h
    rcases h with rfl | rfl | ⟨b, hb, rfl⟩
    · exact fun a ha => absurd ha not_mem_nil
    · intro a ha hr
      split at ha
      · exact hleft a (l.sources_sublist.subset ha) a (mem_append_left _ hr) rfl
      · cases ha
    · intro a ha hb'
      have hc := mem_flatMap.2 ⟨b, hb, hb'⟩
      rcases mem_append.1 ha with ha | ha
      · exact hleft a (l.sources_sublist.subset ha) a (mem_append_right _ hc) rfl
      · exact hright a (r.sources_sublist.subset ha) a hc rfl
  | projection q shape i =>
    simp only [Tree.children, flatMap_cons, flatMap_nil, append_nil, nodup_append] at hnodup
    simp only [Tree.bindings, mem_cons, not_mem_nil, or_false] at h
    rcases h with rfl | rfl
    · exact fun a ha => absurd ha not_mem_nil
    · intro a ha hshape
      refine hnodup.2.2 a ?_ a hshape rfl
      rw [q.declared_eq]
      exact mem_append_left _ ha
  | _ =>
    obtain ⟨b, _, rfl⟩ := mem_map.1 h
    exact fun a ha => absurd ha not_mem_nil

theorem Tree.Tidy.child (h : t.Tidy) (nodup : t.declared.Nodup) (hp : p ∈ t.bindings) : p.2.Tidy := by
  intro c hc hmem
  by_cases hlabel : c.label ∈ p.1
  · exact bindings_apart nodup hp _ hlabel hmem
  · refine h c (.child hp hlabel hc) ?_
    exact (declared_of_child (mem_children_of_bindings hp)).subset hmem

theorem Tree.exists_binding {a : Tree} (ha : a ∈ t.children) : ∃ own, (own, a) ∈ t.bindings := by
  cases t with
  | select s i =>
    rw [children, s.clauses_eq] at ha
    rcases mem_append.1 ha with ha | ha
    · exact ⟨_, mem_append_left _ (mem_map_of_mem ha)⟩
    · exact ⟨_, mem_append_right _ (mem_map_of_mem ha)⟩
  | join j i =>
    obtain ⟨kind, l, r, c⟩ := j
    simp only [children, mem_cons] at ha
    rcases ha with rfl | rfl | ha
    · exact ⟨_, mem_cons_self⟩
    · exact ⟨_, .tail _ (.head _)⟩
    · exact ⟨_, .tail _ (.tail _ (mem_map_of_mem ha))⟩
  | projection q shape i =>
    simp only [children, mem_cons, not_mem_nil, or_false] at ha
    rcases ha with rfl | rfl
    · exact ⟨_, mem_cons_self⟩
    · exact ⟨_, .tail _ (.head _)⟩
  | _ => exact ⟨_, mem_map_of_mem ha⟩

theorem Tree.mem_declared_of_bindings (h : p ∈ t.bindings) : ∀ a ∈ p.1, a ∈ t.declared := by
  intro a ha
  have hchild : ∀ {b : Tree}, b ∈ t.children → a ∈ b.declared → a ∈ t.declared := fun hb hmem =>
    (declared_of_child hb).subset hmem
  cases t with
  | select s i =>
    simp only [Tree.bindings, Select.bindings, mem_append, mem_map] at h
    rcases h with ⟨b, hb, rfl⟩ | ⟨b, hb, rfl⟩
    · cases ha
    · obtain ⟨w, hw, ha⟩ := mem_sourceAliases.1 ha
      exact hchild (mem_clauses.2 (.inl hw)) (w.sources_sublist.subset ha)
  | join j i =>
    obtain ⟨kind, l, r, c⟩ := j
    have hl : a ∈ l.sources → a ∈ (Tree.join ⟨kind, l, r, c⟩ i).declared := fun ha =>
      hchild mem_cons_self (l.sources_sublist.subset ha)
    have hr : a ∈ r.sources → a ∈ (Tree.join ⟨kind, l, r, c⟩ i).declared := fun ha =>
      hchild (.tail _ (.head _)) (r.sources_sublist.subset ha)
    simp only [Tree.bindings, mem_cons, mem_map] at h
    rcases h with rfl | rfl | ⟨b, hb, rfl⟩
    · cases ha
    · split at ha
      · exact hl ha
      · cases ha
    · exact (mem_append.1 ha).elim hl hr
  | projection q shape i =>
    simp only [Tree.bindings, mem_cons, not_mem_nil, or_false] at h
    rcases h with rfl | rfl
    · cases ha
    · refine hchild mem_cons_self ?_
      rw [q.declared_eq]
      exact mem_append_left _ ha
  | _ =>
    obtain ⟨b, _, rfl⟩ := mem_map.1 h
    cases ha

/-- Each alias of a tree is declared once, what the tree needs is declared elsewhere, and all of these
aliases are below a given one. -/
structure Tree.Settled (n : Alias) (t : Tree) : Prop where
  nodup : t.declared.Nodup
  tidy : t.Tidy
  needed : ∀ c, t.Needs c → c.label < n
  below : ∀ a ∈ t.declared, a < n

namespace Tree.Settled

variable {n : Alias} {t u a : Tree}

theorem child (h : t.Settled n) (ha : a ∈ t.children) : a.Settled n := by
  obtain ⟨own, hp⟩ := exists_binding ha
  have hsub := declared_of_child ha
  refine ⟨h.nodup.sublist hsub, h.tidy.child h.nodup hp, fun c hc => ?_,
    fun x hx => h.below x (hsub.subset hx)⟩
  by_cases hmem : c.label ∈ own
  · exact h.below _ (mem_declared_of_bindings hp _ hmem)
  · exact h.needed c (.child hp hmem hc)

theorem tidy_of_covers (h : t.Settled n) (hu : t.Covers n u) : u.Tidy := by
  intro c hc hmem
  have hc := hu.spans.needs_of_nil hc
  rcases hu.spans.declared _ hmem with hmem | hle
  · exact h.tidy c hc hmem
  · exact hle.not_gt (h.needed c hc)

end Tree.Settled

end HiveQuery
