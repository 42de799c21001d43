import HiveQuery.Proofs.Soundness

/-!
# The joins that a run computes

A join in a query is computed once for each combination of rows around it. What is asked of the joins of a
query is asked each time that one is computed.
-/

namespace HiveQuery
open List

variable {env : Environment} {frames frames' : Frames}

/-! ## One join -/

def Join.around (j : Join Tree) (frames : Frames) (row : Row) : Frames :=
  if j.kind.isApply then row :: frames else frames

def Join.matched (env : Environment) (frames : Frames) (j : Join Tree) (row : Row) : Run (List Row) :=
  matchRow (fun row => j.right.rows env (j.around frames row))
    (fun row => satisfies env (row :: frames) j.condition) row

def Join.extend (j : Join Tree) (row : Row) (matched : List Row) : List Row :=
  if matched.isEmpty && j.kind.keepsUnmatched then [row ++ nullRow j.right.sources] else matched

theorem Join.matched_eq_ok {j : Join Tree} {row : Row} {kept : List Row} :
    j.matched env frames row = .ok kept ↔ ∃ others, j.right.rows env (j.around frames row) = .ok others ∧
      filterRows (fun row => satisfies env (row :: frames) j.condition) (others.map (row ++ ·)) = .ok kept :=
  bind_eq_ok

/-- The rows of a join are those that match each left row. -/
theorem Tree.rows_join_eq_ok {j : Join Tree} {i : Option Identity} {rows : List Row} :
    (join j i).rows env frames = .ok rows ↔
      ∃ left joined, j.left.rows env frames = .ok left ∧
        (j.kind.isApply = false → ∃ right, j.right.rows env frames = .ok right) ∧
        Forall₂ (fun x ws => ∃ kept, j.matched env frames x = .ok kept ∧ ws = j.extend x kept) left joined ∧
        rows = joined.flatten := by
  obtain ⟨kind, l, r, c⟩ := j
  have hjoin : ∀ {right : Row → Run (List Row)} {left rows : List Row},
      (∀ x, right x = r.rows env (Join.around ⟨kind, l, r, c⟩ frames x)) →
      (joinRows kind left right (nullRow r.sources) (fun row => satisfies env (row :: frames) c) = .ok rows ↔
        ∃ joined, Forall₂ (fun x ws => ∃ kept, Join.matched env frames ⟨kind, l, r, c⟩ x = .ok kept ∧
          ws = Join.extend ⟨kind, l, r, c⟩ x kept) left joined ∧ rows = joined.flatten) := by
    intro right left rows hright
    obtain rfl : right = fun x => r.rows env (Join.around ⟨kind, l, r, c⟩ frames x) := funext hright
    simp only [joinRows_eq, bind_eq_ok, mapM_eq_ok, pure_eq_ok, joinRow]
    rfl
  cases hkind : kind.isApply with
  | true =>
    rw [rows_apply hkind, bind_eq_ok]
    simp only [hjoin fun x => by rw [Join.around, if_pos hkind]]
    constructor
    · rintro ⟨left, hleft, joined, h⟩
      exact ⟨left, joined, hleft, fun h => absurd h (by simp), h⟩
    · rintro ⟨left, joined, hleft, -, h⟩
      exact ⟨left, hleft, joined, h⟩
  | false =>
    have haround : ∀ x, Join.around ⟨kind, l, r, c⟩ frames x = frames := fun x => by
      rw [Join.around, if_neg (by simp [hkind])]
    rw [rows_join hkind, bind_eq_ok]
    simp only [bind_eq_ok (x := r.rows env frames)]
    constructor
    · rintro ⟨left, hleft, right, hright, h⟩
      obtain ⟨joined, h⟩ := (hjoin fun x => by rw [haround, hright]).1 h
      exact ⟨left, joined, hleft, fun _ => ⟨right, hright⟩, h⟩
    · rintro ⟨left, joined, hleft, hright, h⟩
      obtain ⟨right, hright⟩ := hright trivial
      exact ⟨left, hleft, right, hright, (hjoin fun x => by rw [haround, hright]).2 ⟨joined, h⟩⟩

/-- No row of the left side matches more than one row. -/
def Join.MatchesOnce (env : Environment) (frames : Frames) (j : Join Tree) : Prop :=
  ∀ row ∈ (j.left.rows env frames).values, (j.matched env frames row).values.length ≤ 1

instance (j : Join Tree) : Decidable (j.MatchesOnce env frames) :=
  inferInstanceAs (Decidable (∀ row ∈ _, _))

/-! ## All joins -/

mutual

/-- The joins that are computed when a tree is, each with the rows around it. -/
def Tree.computedJoins (env : Environment) (frames : Frames) (group : Option (List Row)) :
    Tree → List (Frames × Join Tree)
  | .binary _ l r => l.computedJoins env frames group ++ r.computedJoins env frames group
  | .unary _ t => t.computedJoins env frames group
  | .between t l u =>
    t.computedJoins env frames group ++ l.computedJoins env frames group ++
      u.computedJoins env frames group
  | .isNull t => t.computedJoins env frames group
  | .outerJoined _ t => t.computedJoins env frames group
  | .select s _ => s.computedJoins env frames
  | .join ⟨kind, l, r, c⟩ _ =>
    let j : Join Tree := ⟨kind, l, r, c⟩
    let left := (l.rows env frames).values
    (frames, j) :: l.computedJoins env frames none ++
      (if kind.isApply then
        left.flatMap fun x => r.computedJoins env (x :: frames) none
      else
        r.computedJoins env frames none) ++
      left.flatMap fun x => (r.rows env (j.around frames x)).values.flatMap fun y =>
        optionJoins env ((x ++ y) :: frames) c
  | .scalarSubquery q _ => q.computedJoins env frames none
  | .existsSubquery q => q.computedJoins env frames none
  | .inSubquery t q =>
    t.computedJoins env frames group ++
      match t.scalar env frames group with
      | .ok v => if v.isNull then [] else q.computedJoins env frames none
      | .error _ => []
  | .aggregate _ t _ _ => (group.getD []).flatMap fun row => optionJoins env (row :: frames.tail) t
  | .rowNumber order => keyJoins env frames group order
  | .constant _ | .undefined _ | .parameter _ | .column _ => []
  | .member _ _ | .record _ | .entity _ _ | .table _ _ | .projection _ _ _ => []

def Select.computedJoins (env : Environment) (frames : Frames) : Select Tree → List (Frames × Join Tree)
  | ⟨label, columns, source, filter, order, group, distinct, skip, take, reverse, cluster⟩ =>
    let s : Select Tree :=
      ⟨label, columns, source, filter, order, group, distinct, skip, take, reverse, cluster⟩
    optionJoins env frames source ++
      (optionRows env frames source).values.flatMap (fun row => optionJoins env (row :: frames) filter) ++
      (s.keptRows env frames).values.flatMap (fun row => listJoins env (row :: frames) none group) ++
      (s.contexts env frames).values.flatMap (fun c =>
        columnJoins env c.frames c.group columns ++ keyJoins env c.frames c.group order) ++
      optionJoins env frames skip ++ optionJoins env frames take

def optionJoins (env : Environment) (frames : Frames) : Option Tree → List (Frames × Join Tree)
  | none => []
  | some t => t.computedJoins env frames none

def listJoins (env : Environment) (frames : Frames) (group : Option (List Row)) :
    List Tree → List (Frames × Join Tree)
  | [] => []
  | t :: ts => t.computedJoins env frames group ++ listJoins env frames group ts

def keyJoins (env : Environment) (frames : Frames) (group : Option (List Row)) :
    List (SortKey Tree) → List (Frames × Join Tree)
  | [] => []
  | ⟨_, t⟩ :: ks => t.computedJoins env frames group ++ keyJoins env frames group ks

def columnJoins (env : Environment) (frames : Frames) (group : Option (List Row)) :
    List (Column Tree) → List (Frames × Join Tree)
  | [] => []
  | ⟨_, t, _⟩ :: cs => t.computedJoins env frames group ++ columnJoins env frames group cs

end

theorem Select.computedJoins_eq (s : Select Tree) :
    s.computedJoins env frames = optionJoins env frames s.source ++
      (optionRows env frames s.source).values.flatMap (fun row =>
        optionJoins env (row :: frames) s.filter) ++
      (s.keptRows env frames).values.flatMap (fun row => listJoins env (row :: frames) none s.group) ++
      (s.contexts env frames).values.flatMap (fun c =>
        columnJoins env c.frames c.group s.columns ++ keyJoins env c.frames c.group s.order) ++
      optionJoins env frames s.skip ++ optionJoins env frames s.take := by
  cases s
  rfl

theorem listJoins_eq (group : Option (List Row)) (ts : List Tree) :
    listJoins env frames group ts = ts.flatMap fun t => t.computedJoins env frames group := by
  induction ts with
  | nil => rfl
  | cons t ts ih => rw [listJoins, ih, flatMap_cons]

theorem keyJoins_eq (group : Option (List Row)) (ks : List (SortKey Tree)) :
    keyJoins env frames group ks = ks.flatMap fun k => k.value.computedJoins env frames group := by
  induction ks with
  | nil => rfl
  | cons k ks ih =>
    cases k
    rw [keyJoins, ih, flatMap_cons]

theorem columnJoins_eq (group : Option (List Row)) (cs : List (Column Tree)) :
    columnJoins env frames group cs = cs.flatMap fun c => c.value.computedJoins env frames group := by
  induction cs with
  | nil => rfl
  | cons c cs ih =>
    cases c
    rw [columnJoins, ih, flatMap_cons]

/-! ## Unique lookups -/

/-- Each of the given joins matches a row at most once if its right side is a lookup. -/
def LookupsUnique (env : Environment) (lookups : List Alias) (joins : List (Frames × Join Tree)) : Prop :=
  ∀ p ∈ joins, ∀ a ∈ p.2.right.label?, a ∈ lookups → p.2.MatchesOnce env p.1

instance (lookups : List Alias) (joins : List (Frames × Join Tree)) :
    Decidable (LookupsUnique env lookups joins) :=
  inferInstanceAs (Decidable (∀ p ∈ joins, ∀ a ∈ _, _ → _))

variable {lookups : List Alias}

theorem lookupsUnique_append {js js' : List (Frames × Join Tree)} :
    LookupsUnique env lookups (js ++ js') ↔ LookupsUnique env lookups js ∧ LookupsUnique env lookups js' :=
  forall_mem_append

theorem lookupsUnique_cons {p : Frames × Join Tree} {js : List (Frames × Join Tree)} :
    LookupsUnique env lookups (p :: js) ↔
      (∀ a ∈ p.2.right.label?, a ∈ lookups → p.2.MatchesOnce env p.1) ∧ LookupsUnique env lookups js :=
  forall_mem_cons

theorem LookupsUnique.of_flatMap {α : Type} {l : List α} {f : α → List (Frames × Join Tree)}
    (h : LookupsUnique env lookups (l.flatMap f)) {a : α} (ha : a ∈ l) : LookupsUnique env lookups (f a) :=
  fun p hp => h p (mem_flatMap.2 ⟨a, ha, hp⟩)

def Tree.Follows (env : Environment) (lookups : List Alias) (μ : Reads) (t u : Tree) : Prop :=
  ∀ {frames frames' group group'}, FramesMatch true μ frames frames' →
    GroupMatch true μ frames frames' group group' →
    LookupsUnique env lookups (t.computedJoins env frames group) →
    ScalarAgree env true frames frames' group group' t u

theorem Tree.SameNode.numbering {R : Tree → Tree → Prop} {t u : Tree} (h : t.SameNode R u) : SameNumbering t u := by
  cases h with
  | rowNumber keys =>
    refine ⟨rfl, ?_⟩
    rintro _ _ ⟨⟩ ⟨⟩
    exact map_eq_of_forall₂ keys fun _ _ h => h.1
  | _ => exact .of_not rfl rfl

/-- A tree follows another one if it is the same node over children that do. -/
theorem Tree.SameNode.follows {μ : Reads} {t u : Tree} (same : t.SameNode (Follows env lookups μ) u)
    (select : t.isSelect = false) (column : t.column? = none) : t.Follows env lookups μ u := by
  intro frames frames' group group' hframes hgroup unique
  cases same with
  | constant | undefined => exact .of_value rfl rfl (.of_ok rfl)
  | parameter => exact .of_value rfl rfl (.of_eq rfl)
  | binary op left right =>
    simp only [computedJoins, lookupsUnique_append] at unique
    exact .binary op (left hframes hgroup unique.1) (right hframes hgroup unique.2)
  | unary op operand => exact .unary op (operand hframes hgroup unique)
  | between item lower upper =>
    simp only [computedJoins, lookupsUnique_append] at unique
    exact .between (item hframes hgroup unique.1.1) (lower hframes hgroup unique.1.2)
      (upper hframes hgroup unique.2)
  | isNull operand => exact .isNull (operand hframes hgroup unique)
  | outerJoined _ shape => exact .outerJoined _ _ (shape hframes hgroup unique)
  | scalarSubquery type query => exact .scalarSubquery type type (query hframes .none unique)
  | existsSubquery query => exact .existsSubquery (query hframes .none unique)
  | inSubquery item query =>
    simp only [computedJoins, lookupsUnique_append] at unique
    refine .inSubquery (item hframes hgroup unique.1) fun v hv hnull => query hframes .none ?_
    have hquery := unique.2
    rw [hv] at hquery
    simpa only [hnull, Bool.false_eq_true, if_false] using hquery
  | aggregate kind distinct type argument =>
    rw [computedJoins] at unique
    cases argument with
    | none => exact .count kind distinct distinct type type hgroup
    | some argument =>
      exact .aggregate kind distinct type type hgroup fun hr hm =>
        argument hm .none (unique.of_flatMap hr)
  | rowNumber keys =>
    rw [computedJoins, keyJoins_eq] at unique
    exact .rowNumber (forall₂_imp_mem keys fun d d' hd h => h.2 hframes hgroup (unique.of_flatMap hd))
  | column => cases column
  | select => cases select
  | _ => exact inert_agree rfl

/-- Selects whose clauses agree where they are computed give the same relation. -/
theorem Select.SameClauses.run_agree {μ : Reads} {ν : ColumnMatch} {S R : Tree → Tree → Prop}
    {s s' : Select Tree} (same : s.SameClauses S R s')
    (aggregates : ∀ a b, R a b → b.hasAggregate = a.hasAggregate)
    (numbering : ∀ a b, R a b → SameNumbering a b)
    (source : ∀ t u, s.source = some t → s'.source = some u → S t u →
      LookupsUnique env lookups (t.computedJoins env frames none) →
      Run.Agree true (Forall₂ (RowMatch true t.sources u.sources ν)) (t.rows env frames)
        (u.rows env frames'))
    (inner : ∀ a ∈ s.inner, ∀ b, R a b →
      a.Follows env lookups (μ.within s.sourceAliases s'.sourceAliases ν) b)
    (bounds : ∀ a ∈ s.bounds, ∀ b, R a b → a.Follows env lookups μ b)
    (hframes : FramesMatch true μ frames frames')
    (unique : LookupsUnique env lookups (s.computedJoins env frames)) :
    Run.Agree true Eq (s.run env frames) (s'.run env frames') := by
  have form := same.sameForm aggregates
  have hcolumns : ∀ p ∈ s.columns.zip s'.columns, R p.1.value p.2.value := fun p hp =>
    ((forall₂_iff_zip.1 same.columns).2 hp).2
  have hinner : ∀ {a}, a ∈ s.filter.toList ∨ a ∈ s.order.map SortKey.value ∨ a ∈ s.group ∨
      a ∈ s.columns.map Column.value → a ∈ s.inner := fun h => by
    simpa only [Select.inner, mem_append, or_assoc] using h
  simp only [Select.computedJoins_eq, lookupsUnique_append] at unique
  obtain ⟨⟨⟨⟨⟨usource, ufilter⟩, ugroup⟩, ucontexts⟩, uskip⟩, utake⟩ := unique
  have ucontext : ∀ {c}, c ∈ (s.contexts env frames).values →
      LookupsUnique env lookups (columnJoins env c.frames c.group s.columns) ∧
        LookupsUnique env lookups (keyJoins env c.frames c.group s.order) := fun hc =>
    lookupsUnique_append.1 (ucontexts.of_flatMap hc)
  have hclauses : ClausesAgree env ⟨true, false, false, false, false⟩ frames frames'
      (μ.within s.sourceAliases s'.sourceAliases ν) s s' := by
    refine .of_scalars form ?_ ?_ ?_ (fun p hp => numbering _ _ (hcolumns p hp)) ?_ ?_ ?_ hframes
    · intro t u ht hu
      rw [ht] at usource
      refine ⟨source t u ht hu (option_rel_of_some same.source ht hu) usource, ?_⟩
      intro _ _ _ _ _ _ hsorted
      cases hsorted
    · intro t u ht hu row row' hrow hm
      have hunique := ufilter.of_flatMap hrow
      rw [ht] at hunique
      exact inner t (hinner (.inl (Option.mem_toList.2 ht))) u (option_rel_of_some same.filter ht hu)
        (hframes.within hm) .none hunique
    · intro p hp row row' hrow hm
      have hunique := ugroup.of_flatMap hrow
      rw [listJoins_eq] at hunique
      have hmem := (of_mem_zip hp).1
      exact inner p.1 (hinner (.inr (.inr (.inl hmem)))) p.2 ((forall₂_iff_zip.1 same.group).2 hp)
        (hframes.within hm) .none (hunique.of_flatMap hmem)
    · intro p hp c f' g' hc hf hg
      have hunique := (ucontext hc).1
      rw [columnJoins_eq] at hunique
      have hmem := (of_mem_zip hp).1
      exact inner _ (hinner (.inr (.inr (.inr (mem_map_of_mem hmem))))) _ (hcolumns p hp) hf hg
        (hunique.of_flatMap hmem)
    · intro t u ht hu
      rw [ht] at uskip
      exact bounds t (mem_append_left _ (Option.mem_toList.2 ht)) u
        (option_rel_of_some same.skip ht hu) hframes .none uskip
    · intro t u ht hu
      rw [ht] at utake
      exact bounds t (mem_append_right _ (Option.mem_toList.2 ht)) u
        (option_rel_of_some same.take ht hu) hframes .none utake
  have hdirections : s'.directions = s.directions := map_eq_of_forall₂ same.order fun _ _ h => h.1
  have hdelivered := hclauses.delivered form hdirections fun p hp {c c'} hc hm => by
    have hunique := (ucontext hc).2
    rw [keyJoins_eq] at hunique
    have hmem := (of_mem_zip hp).1
    exact inner _ (hinner (.inr (.inl (mem_map_of_mem hmem)))) _
      ((forall₂_iff_zip.1 same.order).2 hp).2 hm.frames hm.group (hunique.of_flatMap hmem)
  exact run_agree_of_delivered form.headers (hdelivered.imp fun _ _ _ _ h => by rw [h])

end HiveQuery
