import HiveQuery.Proofs.ComputedJoins
import HiveQuery.Proofs.RepeatedLookups

/-!
# Lookups that stand in for others

The rows of a join are part of every row of the join tree that it stands in, unless an outer join extends its side
by nulls. So a lookup that is joined once more in the same way can be read from the rows that are there.
-/

namespace HiveQuery
open List HiveQuery.Tree
variable {env : Environment} {frames : Frames} {existing label : Alias} {k : Join Tree} {scope : List Alias}
  {rows : List Row} {x : Row} {t : Tree}

/-! ## Rows that hold other rows -/

def Frames.FoundIn (f g : Frames) : Prop :=
  ∀ c v, f.lookup? c = some v → g.lookup? c = some v

theorem Frames.FoundIn.trans {f g h : Frames} (hfg : f.FoundIn g) (hgh : g.FoundIn h) : f.FoundIn h :=
  fun c v hv => hgh c v (hfg c v hv)

theorem Frames.Within.mem_scope {c : ColumnRef} {v : Value} (h : frames.Within scope)
    (hv : frames.lookup? c = some v) : c.label ∈ scope := by
  by_contra hc
  rw [h.lookup?_eq_none hc] at hv
  cases hv

section Append

variable {x y : Row} {c : ColumnRef}

theorem lookup?_append_of_left (h : c.label ∈ x.map Binding.label) :
    Frames.lookup? ((x ++ y) :: frames) c = Frames.lookup? (x :: frames) c := by
  have hmem : c.label ∈ (x ++ y).map Binding.label := by
    rw [map_append]
    exact mem_append_left _ h
  rw [lookup?_cons_of_mem hmem, lookup?_cons_of_mem h, rowLookup?_append_of_mem h]

theorem lookup?_append_of_not_left (h : c.label ∉ x.map Binding.label) :
    Frames.lookup? ((x ++ y) :: frames) c = Frames.lookup? (y :: frames) c := by
  by_cases hy : c.label ∈ y.map Binding.label
  · have hmem : c.label ∈ (x ++ y).map Binding.label := by
      rw [map_append]
      exact mem_append_right _ hy
    rw [lookup?_cons_of_mem hmem, lookup?_cons_of_mem hy, rowLookup?_append_of_not_mem h]
  · have hmem : c.label ∉ (x ++ y).map Binding.label := by
      rw [map_append, mem_append, not_or]
      exact ⟨h, hy⟩
    rw [lookup?_cons_of_not_mem hmem, lookup?_cons_of_not_mem hy]

theorem lookup?_append_of_not_right (h : c.label ∉ y.map Binding.label) :
    Frames.lookup? ((x ++ y) :: frames) c = Frames.lookup? (x :: frames) c := by
  by_cases hx : c.label ∈ x.map Binding.label
  · exact lookup?_append_of_left hx
  · rw [lookup?_append_of_not_left hx, lookup?_cons_of_not_mem h, lookup?_cons_of_not_mem hx]

end Append

theorem Frames.Within.foundIn_append {y : Row} (h : frames.Within scope)
    (apart : ∀ a ∈ y.map Binding.label, a ∉ scope) : Frames.FoundIn (x :: frames) ((x ++ y) :: frames) := by
  intro c v hv
  by_cases hx : c.label ∈ x.map Binding.label
  · rwa [lookup?_append_of_left hx]
  · rw [lookup?_cons_of_not_mem hx] at hv
    have hy : c.label ∉ y.map Binding.label := fun hy => apart _ hy (h.mem_scope hv)
    rwa [lookup?_append_of_not_left hx, lookup?_cons_of_not_mem hy]

theorem Frames.Within.append_source (h : Frames.Within (x :: frames) scope) (a : Alias)
    (headers : List String) (values : List Value) :
    Frames.Within ((x ++ sourceRow a headers values) :: frames) (a :: scope) := by
  intro row hrow b hb
  rcases mem_cons.1 hrow with rfl | hrow
  · rcases mem_append.1 hb with hb | hb
    · exact .tail _ (h x mem_cons_self b hb)
    · rw [mem_singleton.1 hb]
      exact mem_cons_self
  · exact .tail _ (h row (.tail _ hrow) b hb)

/-! ## Joins in a join tree -/

/-- A row of the left side of a join, and one of the rows that the join gives for it. -/
structure Join.Gives (env : Environment) (frames : Frames) (k : Join Tree) (z w : Row) : Prop where
  left : ∃ left, k.left.rows env frames = .ok left ∧ z ∈ left
  joined : ∃ kept, k.matched env frames z = .ok kept ∧ w ∈ k.extend z kept

theorem Tree.exists_gives {i : Option Identity} {w : Row} (h : (join k i).rows env frames = .ok rows)
    (hw : w ∈ rows) : ∃ z, k.Gives env frames z w := by
  obtain ⟨left, joined, hleft, -, hjoined, rfl⟩ := rows_join_eq_ok.1 h
  obtain ⟨ws, hws, hw⟩ := mem_flatten.1 hw
  obtain ⟨z, hz, kept, hkept, rfl⟩ := forall₂_mem_right hjoined hws
  exact ⟨z, ⟨left, hleft, hz⟩, kept, hkept, hw⟩

namespace Join.Gives

variable {k : Join Tree} {z w : Row}

theorem labels (h : k.Gives env frames z w) : z.map Binding.label = k.left.sources := by
  obtain ⟨left, hleft, hz⟩ := h.left
  exact rows_labels hleft z hz

theorem exists_right (h : k.Gives env frames z w) :
    ∃ y, w = z ++ y ∧ y.map Binding.label = k.right.sources ∧
      ((∃ right, k.right.rows env (k.around frames z) = .ok right ∧ y ∈ right) ∨
        k.kind.keepsUnmatched = true) := by
  obtain ⟨kept, hkept, hw⟩ := h.joined
  obtain ⟨right, hright, hfilter⟩ := matched_eq_ok.1 hkept
  unfold extend at hw
  split at hw
  · next hunmatched =>
    rw [Bool.and_eq_true] at hunmatched
    exact ⟨_, mem_singleton.1 hw, nullRow_labels _, .inr hunmatched.2⟩
  · obtain ⟨y, hy, rfl⟩ := mem_map.1 (mem_of_filterRows hfilter hw)
    exact ⟨y, rfl, rows_labels hright y hy, .inl ⟨right, hright, hy⟩⟩

end Join.Gives

theorem Join.around_spec (j : Join Tree) {y : Row} (hframes : frames.Within scope)
    (hx : ∀ a ∈ x.map Binding.label, a ∉ scope) (hy : ∀ a ∈ y.map Binding.label, a ∉ x.map Binding.label) :
    ∃ scope', (j.around frames x).Within scope' ∧ (∀ a ∈ scope', a ∈ scope ∨ a ∈ x.map Binding.label) ∧
      frames.FoundIn (j.around frames x) ∧
      Frames.FoundIn (y :: j.around frames x) ((x ++ y) :: frames) := by
  unfold around
  split
  · refine ⟨x.map Binding.label ++ scope, hframes.cons rfl, fun a ha => (mem_append.1 ha).symm,
      fun c v hv => ?_, fun c v hv => ?_⟩
    · rwa [lookup?_cons_of_not_mem fun hc => hx _ hc (hframes.mem_scope hv)]
    by_cases hc : c.label ∈ y.map Binding.label
    · rw [lookup?_append_of_not_left (hy _ hc), lookup?_cons_of_mem hc]
      rwa [lookup?_cons_of_mem hc] at hv
    · rw [lookup?_append_of_not_right hc]
      rwa [lookup?_cons_of_not_mem hc] at hv
  · refine ⟨scope, hframes, fun a ha => .inl ha, fun _ _ h => h, fun c v hv => ?_⟩
    by_cases hc : c.label ∈ x.map Binding.label
    · rw [lookup?_cons_of_not_mem fun hcy => hy _ hcy hc] at hv
      exact absurd (hframes.mem_scope hv) (hx _ hc)
    · rwa [lookup?_append_of_not_left hc]

/-- A join stands in a join tree, on no side that an outer join extends by nulls. -/
inductive Join.KeptIn (k : Join Tree) : Tree → Prop
  | here (i : Option Identity) : KeptIn k (.join k i)
  | left {kind : JoinKind} {l : Tree} (r : Tree) (c : Option Tree) (i : Option Identity) : KeptIn k l →
      KeptIn k (.join ⟨kind, l, r, c⟩ i)
  | right {kind : JoinKind} (l : Tree) {r : Tree} (c : Option Tree) (i : Option Identity) :
      kind.keepsUnmatched = false → KeptIn k r → KeptIn k (.join ⟨kind, l, r, c⟩ i)

theorem Join.KeptIn.declared (h : k.KeptIn t) : (join k none).declared.Sublist t.declared := by
  induction h with
  | here i => exact (declared_eq (.join k none) ▸ declared_eq (.join k i) ▸ .refl _)
  | left r c i _ ih => exact ih.trans (declared_of_child mem_cons_self)
  | right l c i _ _ ih =>
    exact ih.trans (declared_of_child (.tail _ (.head _)))

/-- A row of a join that is part of a row of the tree, in which all that the join sees is found. -/
structure Join.RowIn (env : Environment) (frames : Frames) (scope : List Alias) (k : Join Tree) (t : Tree)
    (x : Row) (g : Frames) (inner : List Alias) (z w : Row) : Prop where
  gives : k.Gives env g z w
  within : g.Within inner
  scope : ∀ a ∈ inner, a ∈ scope ∨ a ∈ t.declared ∧ a ∉ (Tree.join k none).declared
  around : frames.FoundIn g
  found : Frames.FoundIn (w :: g) (x :: frames)

/-- Every row of the tree holds a row of the join. -/
theorem Join.KeptIn.exists_row (h : k.KeptIn t) (nodup : t.declared.Nodup) (hframes : frames.Within scope)
    (apart : ∀ a ∈ t.declared, a ∉ scope) (hrows : t.rows env frames = .ok rows) (hx : x ∈ rows) :
    ∃ g inner z w, k.RowIn env frames scope t x g inner z w := by
  induction h generalizing frames scope rows x with
  | here i =>
    obtain ⟨z, hz⟩ := exists_gives hrows hx
    exact ⟨frames, scope, z, x, hz, hframes, fun a ha => .inl ha, fun _ _ h => h, fun _ _ h => h⟩
  | @left kind l r c i h ih =>
    obtain ⟨x, hgives⟩ := exists_gives hrows hx
    obtain ⟨left, hleft, hxl⟩ := hgives.left
    obtain ⟨y, rfl, hy, -⟩ := hgives.exists_right
    rw [declared_join] at nodup apart
    obtain ⟨g, inner, z, w, hrow⟩ := ih (nodup_append.1 nodup).1 hframes
      (fun a ha => apart a (mem_append_left _ ha)) hleft hxl
    refine ⟨g, inner, z, w, hrow.gives, hrow.within, fun a ha => ?_, hrow.around,
      hrow.found.trans (hframes.foundIn_append fun a ha => ?_)⟩
    · rw [declared_join]
      exact (hrow.scope a ha).imp_right (And.imp_left (mem_append_left _))
    · rw [hy] at ha
      exact apart a (mem_append_right _ (mem_append_left _ (r.sources_sublist.subset ha)))
  | @right kind l r c i hkind h ih =>
    obtain ⟨x, hgives⟩ := exists_gives hrows hx
    have hlabels := hgives.labels
    obtain ⟨y, rfl, hy, ⟨right, hright, hyr⟩ | hkept⟩ := hgives.exists_right
    · rw [declared_join] at nodup apart
      obtain ⟨-, hnodup, hdisjoint⟩ := nodup_append.1 nodup
      have hxscope : ∀ a ∈ x.map Binding.label, a ∈ l.declared ∧ a ∉ scope ∧ a ∉ r.declared := by
        intro a ha
        rw [hlabels] at ha
        have ha := l.sources_sublist.subset ha
        exact ⟨ha, apart a (mem_append_left _ ha), fun har => hdisjoint a ha a (mem_append_left _ har) rfl⟩
      obtain ⟨scope', hwithin, hscope, haround, hfound⟩ := around_spec ⟨kind, l, r, c⟩ hframes
        (fun a ha => (hxscope a ha).2.1)
        fun a ha hax => (hxscope a hax).2.2 (r.sources_sublist.subset (hy ▸ ha))
      have hapart : ∀ a ∈ r.declared, a ∉ scope' := by
        intro a ha ha'
        rcases hscope a ha' with ha' | ha'
        · exact apart a (mem_append_right _ (mem_append_left _ ha)) ha'
        · exact (hxscope a ha').2.2 ha
      obtain ⟨g, inner, z, w, hrow⟩ := ih (nodup_append.1 hnodup).1 hwithin hapart hright hyr
      refine ⟨g, inner, z, w, hrow.gives, hrow.within, fun a ha => ?_, haround.trans hrow.around,
        hrow.found.trans hfound⟩
      rw [declared_join]
      rcases hrow.scope a ha with ha | ⟨ha, hak⟩
      · refine (hscope a ha).imp_right fun ha => ⟨mem_append_left _ (hxscope a ha).1, fun hak => ?_⟩
        exact (hxscope a ha).2.2 (h.declared.subset hak)
      · exact .inr ⟨mem_append_right _ (mem_append_left _ ha), hak⟩
    · cases hkind.symm.trans hkept

namespace Join.RowIn

variable {k : Join Tree} {t : Tree} {scope inner : List Alias} {x z w : Row} {g : Frames}

section

variable (h : k.RowIn env frames scope t x g inner z w)
include h

theorem inner_apart (kept : k.KeptIn t)
    (apart : ∀ a ∈ t.declared, a ∉ scope) : ∀ a ∈ inner, a ∉ (join k none).declared := by
  intro a ha hak
  rcases h.scope a ha with hscope | hdeclared
  · exact apart a (kept.declared.subset hak) hscope
  · exact hdeclared.2 hak

theorem mem_of_inner :
    ∀ a ∈ inner, a ∈ t.declared ++ scope := fun a ha =>
  mem_append.2 ((h.scope a ha).symm.imp_left And.left)

theorem found_left (kept : k.KeptIn t)
    (apart : ∀ a ∈ t.declared, a ∉ scope) :
    Frames.FoundIn (z :: g) (x :: frames) := by
  have hinner := h.inner_apart kept apart
  obtain ⟨y, rfl, hy, -⟩ := h.gives.exists_right
  intro c v hv
  refine h.found c v ?_
  by_cases hz : c.label ∈ z.map Binding.label
  · rwa [lookup?_append_of_left hz]
  · rw [lookup?_append_of_not_right fun hc => ?_]
    · exact hv
    · rw [lookup?_cons_of_not_mem hz] at hv
      refine hinner _ (h.within.mem_scope hv) ?_
      rw [hy] at hc
      exact (declared_of_child (.tail _ (.head _))).subset (k.right.sources_sublist.subset hc)

end

end Join.RowIn

/-! ## Repeated lookups -/

/-- The sources on the right sides of the joins of a join tree. -/
def Tree.joinedAliases : Tree → List Alias
  | .join ⟨_, l, r, _⟩ _ => r.label?.toList ++ (l.joinedAliases ++ r.joinedAliases)
  | _ => []

/-- Those of them that stand on a side which an outer join extends by nulls. -/
def Tree.extendedAliases : Tree → List Alias
  | .join ⟨kind, l, r, _⟩ _ =>
    l.extendedAliases ++ if kind.keepsUnmatched then r.joinedAliases else r.extendedAliases
  | _ => []

/-- A join is made like another one, of the same kind and with a source that is equal under an equal
condition. -/
structure Join.Repeats (existing label : Alias) (k j : Join Tree) : Prop where
  kind : k.kind = j.kind
  stays : k.right.label? = some existing
  repeated : j.right.label? = some label
  right : k.right.equal j.right = true
  condition : equalOption (.ofPairs [(existing, label)]) k.condition j.condition = true

theorem Tree.hasAggregate_join (kind : JoinKind) (l r : Tree) (c : Option Tree) (i : Option Identity) :
    (join ⟨kind, l, r, c⟩ i).hasAggregate =
      (l.hasAggregate || (r.hasAggregate || c.toList.any hasAggregate)) :=
  hasAggregate_eq _

/-- A similar lookup is repeated. -/
theorem Tree.similarLookup?_cases {lookups : List Alias} {j : Join Tree}
    (h : t.similarLookup? lookups j = some existing) (hlabel : j.right.label? = some label) :
    existing ∈ t.joinedAliases ∧ existing ∈ lookups ∧ ∃ k : Join Tree, k.Repeats existing label j ∧
      (k.condition.toList.any hasAggregate = true → t.hasAggregate = true) ∧
      (existing ∉ t.extendedAliases → k.KeptIn t) := by
  induction t with
  | step t ih =>
    cases t with
    | join j' i =>
      obtain ⟨kind, l, r, c⟩ := j'
      rw [similarLookup?] at h
      simp only [joinedAliases, extendedAliases, mem_append, not_or, hasAggregate_join, Bool.or_eq_true]
      rcases Option.or_eq_some_iff.1 h with h | ⟨-, h⟩
      · -- found at this join
        obtain ⟨a, ha, h⟩ := Option.bind_eq_some_iff.1 h
        obtain ⟨b, hb, h⟩ := Option.bind_eq_some_iff.1 h
        split at h
        · next hsame =>
          cases h
          obtain rfl := Option.some.inj (hb.symm.trans hlabel)
          simp only [Bool.and_eq_true, beq_iff_eq, contains_iff_mem] at hsame
          obtain ⟨⟨⟨hkind, hmem⟩, hright⟩, hcondition⟩ := hsame
          exact ⟨.inl (Option.mem_toList.2 ha), hmem, _, ⟨hkind, ha, hlabel, hright, hcondition⟩,
            fun hc => .inr (.inr hc), fun _ => .here i⟩
        · cases h
      · rcases Option.or_eq_some_iff.1 h with h | ⟨-, h⟩
        · obtain ⟨hmem, hlookup, k, hrepeats, haggregate, hkept⟩ := ih l mem_cons_self h
          exact ⟨.inr (.inl hmem), hlookup, k, hrepeats, fun hc => .inl (haggregate hc),
            fun hextended => .left r c i (hkept hextended.1)⟩
        · obtain ⟨hmem, hlookup, k, hrepeats, haggregate, hkept⟩ := ih r (.tail _ (.head _)) h
          refine ⟨.inr (.inr hmem), hlookup, k, hrepeats, fun hc => .inr (.inl (haggregate hc)),
            fun hextended => ?_⟩
          cases hkind : kind.keepsUnmatched with
          | true =>
            rw [hkind, if_pos rfl] at hextended
            exact absurd hmem hextended.2
          | false =>
            rw [hkind, if_neg Bool.false_ne_true] at hextended
            exact .right l c i hkind (hkept hextended.2)
    | _ => cases h

theorem Tree.rows_of_equal {u : Tree} {a b : Alias} {μ : Reads} {frames' : Frames} (ht : t.label? = some a)
    (hu : u.label? = some b) (h : t.equal u = true) (hp : (Pairing.ofPairs []).Agrees μ)
    (hygienic : t.Hygienic μ.left) (hygienic' : u.Hygienic μ.right) (hexact : u.IsExact)
    (hframes : FramesMatch false μ frames frames') {rows' : List Row} (hrows : t.rows env frames = .ok rows)
    (hrows' : u.rows env frames' = .ok rows') :
    ∃ (headers : List String) (values : List (List Value)), rows = values.map (sourceRow a headers) ∧
      rows' = values.map (sourceRow b headers) := by
  cases t with
  | table a' name =>
    cases u with
    | table b' name' =>
      cases ht
      cases hu
      obtain rfl : name = name' := by simpa [equal, equalUnder] using h
      rw [Tree.rows] at hrows hrows'
      cases htable : env.dataset.lookup name with
      | none =>
        rw [htable] at hrows
        cases hrows
      | some table =>
        rw [htable] at hrows hrows'
        exact ⟨table.columns, table.rows, (Except.ok.inj hrows).symm, (Except.ok.inj hrows').symm⟩
    | _ => simp [equal, equalUnder] at h
  | select s i =>
    cases u with
    | select s' j =>
      cases ht
      cases hu
      have hrefines : Refines env ⟨false, false, false, false, false⟩ (.select true μ s s') :=
        select_refines_of_equalUnder (fun _ _ _ _ _ h hp ht hu hexact =>
          refines_of_equalUnder h hp ht hu hexact)
          (by simpa only [equal, equalUnder] using h) hp i j hygienic hygienic' hexact true
      have hfits : s.Fits env ⟨false, false, false, false, false⟩ frames :=
        Select.fits_of_keyRanges (.of_not_asked rfl rfl)
      rw [Tree.rows] at hrows hrows'
      obtain ⟨r, hr, hrows⟩ := bind_eq_ok.1 hrows
      obtain ⟨r', hr', hrows'⟩ := bind_eq_ok.1 hrows'
      obtain rfl : r = r' := ((hrefines.holds hframes hfits).run r hr).2 r' hr'
      exact ⟨r.headers, r.rows, pure_eq_ok.1 hrows, pure_eq_ok.1 hrows'⟩
    | _ => simp [equal, equalUnder] at h
  | _ => cases ht

theorem SameLookup.of_imp {x y : Option Value} (h : ∀ v, x = some v → y = some v) : SameLookup false x y :=
  fun v hv => ⟨nofun, fun _ hw => Option.some.inj ((h v hv).symm.trans hw)⟩

/-- The columns of a source are read from the source that stands in for it. -/
def readAs (dropped : List (Alias × Alias)) : ColumnMatch := fun c d =>
  d.label = standIn dropped c.label ∧ d.name = c.name

theorem standIn_cons_self (σ : List (Alias × Alias)) (label existing : Alias) :
    standIn ((label, existing) :: σ) label = existing := by
  rw [standIn, lookup_cons_self]
  rfl

theorem standIn_cons_of_ne (σ : List (Alias × Alias)) {a : Alias} (h : a ≠ label) :
    standIn ((label, existing) :: σ) a = standIn σ a := by
  rw [standIn, standIn, lookup_cons, beq_false_of_ne h]

theorem Pairing.matches_single {a b : Alias} (h : (ofPairs [(existing, label)]).matches a b = true) :
    a = existing ∧ b = label ∨ a ≠ existing ∧ b = a := by
  by_cases ha : a = existing
  · subst ha
    simp only [Pairing.matches, Pairing.ofPairs, lookup_cons_self, beq_iff_eq] at h
    exact .inl ⟨rfl, h.symm⟩
  · simp only [Pairing.matches, Pairing.ofPairs, lookup_cons, beq_false_of_ne ha, lookup_nil, beq_iff_eq] at h
    exact .inr ⟨ha, h.symm⟩

/-- What the conditions of two joins see: a lookup each, and what is around. -/
def conditionReads (existing label : Alias) (left right : List Alias) : Reads :=
  ⟨existing :: left, label :: right,
    fun c d => d.name = c.name ∧ (Pairing.ofPairs [(existing, label)]).matches c.label d.label = true⟩

def Join.IsExact (j : Join Tree) : Prop :=
  ∀ a ∈ j.right :: j.condition.toList, a.IsExact

instance (j : Join Tree) : Decidable j.IsExact :=
  inferInstanceAs (Decidable (∀ a ∈ _, _))

/-- A row of the left side of a join, and the row in it of a join that this one repeats. -/
structure Join.Recurs (env : Environment) (frames : Frames) (scope : List Alias) (existing label : Alias)
    (k j : Join Tree) (x : Row) (g : Frames) (inner : List Alias) (z w : Row) : Prop where
  repeats : k.Repeats existing label j
  kept : k.KeptIn j.left
  nodup : (Tree.join j none).declared.Nodup
  exact : j.IsExact
  within : frames.Within scope
  apart : ∀ a ∈ (Tree.join j none).declared, a ∉ scope
  labels : x.map Binding.label = j.left.sources
  row : k.RowIn env frames scope j.left x g inner z w

namespace Join.Recurs

variable {k j : Join Tree} {existing label : Alias} {scope inner : List Alias} {x z w : Row} {g : Frames}

section Scopes

variable (h : Join.Recurs env frames scope existing label k j x g inner z w)
include h

theorem left_apart : ∀ a ∈ j.left.declared, a ∉ scope := fun a ha =>
  h.apart a ((declared_of_child mem_cons_self).subset ha)

theorem inner_apart : ∀ a ∈ k.left.sources ++ inner,
    a ∉ k.right.declared ++ k.condition.toList.flatMap declared := by
  intro a ha hak
  rcases mem_append.1 ha with ha | ha
  · have hnodup := h.nodup.sublist (declared_of_child mem_cons_self)
    have hnodup := hnodup.sublist h.kept.declared
    rw [declared_join] at hnodup
    exact (nodup_append.1 hnodup).2.2 a (k.left.sources_sublist.subset ha) a hak rfl
  · refine h.row.inner_apart h.kept h.left_apart a ha ?_
    rw [declared_join]
    exact mem_append_right _ hak

theorem outer_apart : ∀ a ∈ j.left.declared ++ scope,
    a ∉ j.right.declared ++ j.condition.toList.flatMap declared := by
  intro a ha haj
  have hnodup := h.nodup
  have hapart := h.apart
  rw [declared_join] at hnodup hapart
  rcases mem_append.1 ha with ha | ha
  · exact (nodup_append.1 hnodup).2.2 a ha a haj rfl
  · exact hapart a (mem_append_right _ haj) ha

theorem mem_outer : ∀ a ∈ k.left.sources ++ inner, a ∈ j.left.declared ++ scope := by
  intro a ha
  rcases mem_append.1 ha with ha | ha
  · refine mem_append_left _ (h.kept.declared.subset ?_)
    rw [declared_join]
    exact mem_append_left _ (k.left.sources_sublist.subset ha)
  · exact h.row.mem_of_inner a ha

theorem inner_nodup : (k.right.declared ++ k.condition.toList.flatMap declared).Nodup := by
  have hnodup := h.nodup.sublist (declared_of_child mem_cons_self)
  have hnodup := hnodup.sublist h.kept.declared
  rw [declared_join] at hnodup
  exact (nodup_append.1 hnodup).2.1

theorem outer_nodup : (j.right.declared ++ j.condition.toList.flatMap declared).Nodup := by
  have hnodup := h.nodup
  rw [declared_join] at hnodup
  exact (nodup_append.1 hnodup).2.1

theorem existing_mem : existing ∈ k.right.declared := by
  rw [declared_eq, h.repeats.stays]
  exact mem_cons_self

theorem label_mem : label ∈ j.right.declared := by
  rw [declared_eq, h.repeats.repeated]
  exact mem_cons_self

theorem left_within : Frames.Within (z :: g) (k.left.sources ++ inner) := h.row.within.cons h.row.gives.labels

theorem right_within : Frames.Within (x :: frames) (j.left.declared ++ scope) := by
  intro r hr b hb
  rcases mem_append.1 (h.within.cons h.labels r hr b hb) with hmem | hmem
  · exact mem_append_left _ (j.left.sources_sublist.subset hmem)
  · exact mem_append_right _ hmem

theorem right_rows {rows' : List Row} (hrows : k.right.rows env (k.around g z) = .ok rows)
    (hrows' : j.right.rows env (j.around frames x) = .ok rows') :
    ∃ (headers : List String) (values : List (List Value)), rows = values.map (sourceRow existing headers) ∧
      rows' = values.map (sourceRow label headers) := by
  let μ : Reads :=
    ⟨k.left.sources ++ inner, j.left.declared ++ scope, fun c d => d.label = c.label ∧ d.name = c.name⟩
  have hmatch : FramesMatch false μ (k.around g z) (j.around frames x) := by
    unfold around
    rw [h.repeats.kind]
    split
    · refine ⟨h.left_within, h.right_within, fun {c d} _ _ hcd => .of_imp fun v hv => ?_⟩
      rw [lookup?_congr _ hcd.1 hcd.2]
      exact h.row.found_left h.kept h.left_apart c v hv
    · refine ⟨fun r hr => h.left_within r (.tail _ hr),
        fun r hr => h.right_within r (.tail _ hr),
        fun {c d} _ _ hcd v hv => ⟨nofun, fun w hw => ?_⟩⟩
      rw [lookup?_congr _ hcd.1 hcd.2] at hw
      exact Option.some.inj (hv.symm.trans (h.row.around c w hw))
  have hagrees : (Pairing.ofPairs []).Agrees μ := by
    intro c d hname hc hmatch
    obtain hlabel : c.label = d.label := by simpa [Pairing.ofPairs, Pairing.matches] using hmatch
    exact ⟨hlabel ▸ h.mem_outer _ hc, hlabel.symm, hname⟩
  refine rows_of_equal h.repeats.stays h.repeats.repeated h.repeats.right hagrees ?_ ?_ ?_ hmatch hrows hrows'
  · exact hygienic_of_nodup (nodup_append.1 h.inner_nodup).1 fun a ha hmem =>
      h.inner_apart a hmem (mem_append_left _ ha)
  · exact hygienic_of_nodup (nodup_append.1 h.outer_nodup).1 fun a ha hmem =>
      h.outer_apart a hmem (mem_append_left _ ha)
  · exact h.exact _ mem_cons_self

theorem existing_not_mem : existing ∉ z.map Binding.label := by
  rw [h.row.gives.labels]
  exact fun hmem => h.inner_apart _ (mem_append_left _ hmem) (mem_append_left _ h.existing_mem)

theorem label_not_mem : label ∉ j.left.declared ++ scope := fun hmem =>
  h.outer_apart _ hmem (mem_append_left _ h.label_mem)

theorem condition_framesMatch (headers : List String) (values : List Value) :
    FramesMatch false (conditionReads existing label (k.left.sources ++ inner) (j.left.declared ++ scope))
      ((z ++ sourceRow existing headers values) :: g) ((x ++ sourceRow label headers values) :: frames) := by
  refine ⟨h.left_within.append_source existing headers values,
    h.right_within.append_source label headers values, fun {c d} hc _ hcd => .of_imp fun v hv => ?_⟩
  rcases Pairing.matches_single hcd.2 with ⟨hce, hd⟩ | ⟨hce, hd⟩
  · -- a column of the lookup
    have hx : d.label ∉ x.map Binding.label := by
      rw [hd, h.labels]
      exact fun hmem => h.label_not_mem (mem_append_left _ (j.left.sources_sublist.subset hmem))
    rw [lookup?_append_of_not_left (hce ▸ h.existing_not_mem), lookup?_cons_of_mem (by simp [sourceRow, hce]),
      rowLookup?_sourceRow hce] at hv
    rw [lookup?_append_of_not_left hx, lookup?_cons_of_mem (by simp [sourceRow, hd]),
      rowLookup?_sourceRow hd, hcd.1]
    exact hv
  · have hc := h.mem_outer _ ((mem_cons.1 hc).resolve_left hce)
    have hcl : c.label ≠ label := fun heq => h.label_not_mem (heq ▸ hc)
    rw [lookup?_append_of_not_right (by simpa [sourceRow] using hce)] at hv
    rw [lookup?_append_of_not_right (by simpa [sourceRow, hd] using hcl), lookup?_congr _ hd hcd.1]
    exact h.row.found_left h.kept h.left_apart c v hv

theorem condition_refines {u : Tree} (ht : k.condition = some t) (hu : j.condition = some u) :
    EqualRefines env ⟨false, false, false, false, false⟩
      (conditionReads existing label (k.left.sources ++ inner) (j.left.declared ++ scope)) t u := by
  have hequal := option_rel_of_some (equalOption_iff.1 h.repeats.condition) ht hu
  have hagrees : (Pairing.ofPairs [(existing, label)]).Agrees
      (conditionReads existing label (k.left.sources ++ inner) (j.left.declared ++ scope)) := by
    intro c d hname hc hmatch
    refine ⟨?_, hname, hmatch⟩
    rcases Pairing.matches_single hmatch with ⟨-, hd⟩ | ⟨hce, hd⟩
    · exact hd ▸ mem_cons_self
    · rw [hd]
      exact .tail _ (h.mem_outer _ ((mem_cons.1 hc).resolve_left hce))
  have htk : ∀ a ∈ t.declared, a ∈ k.condition.toList.flatMap declared := fun a ha =>
    mem_flatMap.2 ⟨t, Option.mem_toList.2 ht, ha⟩
  have huj : ∀ a ∈ u.declared, a ∈ j.condition.toList.flatMap declared := fun a ha =>
    mem_flatMap.2 ⟨u, Option.mem_toList.2 hu, ha⟩
  obtain ⟨-, hnodup, hdisjoint⟩ := nodup_append.1 h.inner_nodup
  obtain ⟨-, hnodup', hdisjoint'⟩ := nodup_append.1 h.outer_nodup
  refine refines_of_equalUnder hequal hagrees ?_ ?_ ?_
  · refine hygienic_of_nodup (by simpa [ht] using hnodup) fun a ha hmem => ?_
    rcases mem_cons.1 hmem with rfl | hmem
    · exact hdisjoint a h.existing_mem a (htk a ha) rfl
    · exact h.inner_apart a hmem (mem_append_right _ (htk a ha))
  · refine hygienic_of_nodup (by simpa [hu] using hnodup') fun a ha hmem => ?_
    rcases mem_cons.1 hmem with rfl | hmem
    · exact hdisjoint' a h.label_mem a (huj a ha) rfl
    · exact h.outer_apart a hmem (mem_append_right _ (huj a ha))
  · exact h.exact u (.tail _ (Option.mem_toList.2 hu))

theorem matched_forall₂ {kept kept' : List Row} (hkept : k.matched env g z = .ok kept)
    (hkept' : j.matched env frames x = .ok kept') :
    ∃ headers, Forall₂ (fun v v' => ∃ values, v = z ++ sourceRow existing headers values ∧
      v' = x ++ sourceRow label headers values) kept kept' := by
  obtain ⟨rows, hrows, hfilter⟩ := matched_eq_ok.1 hkept
  obtain ⟨rows', hrows', hfilter'⟩ := matched_eq_ok.1 hkept'
  obtain ⟨headers, values, rfl, rfl⟩ := h.right_rows hrows hrows'
  have hjoined : Forall₂ (fun v v' => ∃ values, v = z ++ sourceRow existing headers values ∧
      v' = x ++ sourceRow label headers values) ((values.map (sourceRow existing headers)).map (z ++ ·))
      ((values.map (sourceRow label headers)).map (x ++ ·)) := by
    rw [map_map, map_map]
    refine forall₂_map_iff.2 (forall₂_same.2 ?_)
    exact fun values _ => ⟨values, rfl, rfl⟩
  have hagree : ∀ v v', (∃ values, v = z ++ sourceRow existing headers values ∧
      v' = x ++ sourceRow label headers values) → Run.Agree false Eq (satisfies env (v :: g) k.condition)
      (satisfies env (v' :: frames) j.condition) := by
    rintro _ _ ⟨values, rfl, rfl⟩
    exact satisfies_agree (option_isSome_eq (equalOption_iff.1 h.repeats.condition)) fun t u ht hu =>
      (h.condition_refines ht hu).scalar.holds (h.condition_framesMatch headers values) .none
        (.of_not_asked rfl rfl)
  exact ⟨headers, (Run.Agree.filterRows hjoined (fun v v' _ => hagree v v') kept hfilter).2 kept' hfilter'⟩

end Scopes

theorem exists_extend (h : Recurs env frames scope existing label k j x g inner z w)
    {kept' : List Row} (hkept' : j.matched env frames x = .ok kept') (once : kept'.length ≤ 1) :
    ∃ y, j.extend x kept' = [x ++ y] ∧ y.map Binding.label = [label] ∧
      ∀ {c d : ColumnRef} {v : Value}, c.label = label → d.label = existing → d.name = c.name →
        rowLookup? y c = some v → Frames.lookup? (x :: frames) d = some v := by
  obtain ⟨kept, hkept, hw⟩ := h.row.gives.joined
  obtain ⟨headers, hmatched⟩ := h.matched_forall₂ hkept hkept'
  have hsources := sources_of_label h.repeats.stays
  have hsources' := sources_of_label h.repeats.repeated
  cases hmatched with
  | nil =>
    -- neither lookup has a row, so that both are nulls
    cases hunmatched : j.kind.keepsUnmatched with
    | false =>
      rw [extend, h.repeats.kind, hunmatched] at hw
      cases hw
    | true =>
      refine ⟨nullRow [label], ?_, nullRow_labels _, fun {c d v} hc hd _ hv => h.row.found d v ?_⟩
      · rw [extend, hunmatched, hsources']
        rfl
      · rw [extend, h.repeats.kind, hunmatched, hsources] at hw
        rw [rowLookup?_nullRow (by simp [hc])] at hv
        rw [mem_singleton.1 hw, lookup?_append_of_not_left (hd ▸ h.existing_not_mem),
          lookup?_cons_of_mem (by simp [nullRow_labels, hd]), rowLookup?_nullRow (by simp [hd])]
        exact hv
  | cons hrow hrest =>
    obtain ⟨values, rfl, rfl⟩ := hrow
    cases hrest with
    | cons => simp at once
    | nil =>
      refine ⟨sourceRow label headers values, rfl, rfl, fun {c d v} hc hd hname hv => h.row.found d v ?_⟩
      have hw : w = z ++ sourceRow existing headers values := mem_singleton.1 hw
      rw [rowLookup?_sourceRow hc] at hv
      rw [hw, lookup?_append_of_not_left (hd ▸ h.existing_not_mem),
        lookup?_cons_of_mem (by simp [sourceRow, hd]), rowLookup?_sourceRow hd, hname]
      exact hv

theorem exists_rowMatch (h : Recurs env frames scope existing label k j x g inner z w)
    {matched : List Row} (hmatched : j.matched env frames x = .ok matched) (once : matched.length ≤ 1) :
    ∃ row, j.extend x matched = [row] ∧ RowMatch true (j.left.sources ++ [label]) j.left.sources
      (readAs [(label, existing)]) row x := by
  obtain ⟨y, hextend, hy, hvalues⟩ := h.exists_extend hmatched once
  refine ⟨x ++ y, hextend, by rw [map_append, h.labels, hy], h.labels, fun {c d} hc hd hcd v hv => ?_⟩
  have hfound : rowLookup? x d = some v := by
    by_cases hcl : c.label = label
    · have hd' := hcd.1
      rw [hcl, standIn_cons_self] at hd'
      have hx : c.label ∉ x.map Binding.label := by
        rw [hcl, h.labels]
        exact fun hmem => h.label_not_mem (mem_append_left _ (j.left.sources_sublist.subset hmem))
      rw [rowLookup?_append_of_not_mem hx] at hv
      rw [← lookup?_cons_of_mem (by rwa [h.labels])]
      exact hvalues hcl hd' hcd.2 hv
    · have hd' : d.label = c.label := by
        rw [hcd.1, standIn_cons_of_ne _ hcl]
        rfl
      have hx : c.label ∈ x.map Binding.label := by
        rw [h.labels]
        exact (mem_append.1 hc).resolve_right fun hmem => hcl (mem_singleton.1 hmem)
      rw [rowLookup?_append_of_mem hx] at hv
      rw [← hv, rowLookup?, rowLookup?, hd', hcd.2]
  exact ⟨fun _ => ⟨v, hfound⟩, fun u hu => Option.some.inj (hfound.symm.trans hu)⟩

end Join.Recurs

/-- A repeated lookup that is unique adds nothing to the rows. -/
theorem Join.Repeats.rows_forall₂ {j : Join Tree} {i : Option Identity} (h : k.Repeats existing label j)
    (kept : k.KeptIn j.left) (nodup : (join j none).declared.Nodup) (hexact : j.IsExact)
    (hframes : frames.Within scope) (apart : ∀ a ∈ (join j none).declared, a ∉ scope)
    (once : j.MatchesOnce env frames) {left : List Row} (hleft : j.left.rows env frames = .ok left)
    (hrows : (join j i).rows env frames = .ok rows) :
    Forall₂ (RowMatch true (j.left.sources ++ [label]) j.left.sources (readAs [(label, existing)]))
      rows left := by
  obtain ⟨left', joined, hleft', -, hjoined, rfl⟩ := rows_join_eq_ok.1 hrows
  obtain rfl := Except.ok.inj (hleft'.symm.trans hleft)
  have hnodup := nodup.sublist (declared_of_child mem_cons_self)
  have hapart : ∀ a ∈ j.left.declared, a ∉ scope := fun a ha =>
    apart a ((declared_of_child mem_cons_self).subset ha)
  have hone : ∀ x ∈ left', ∀ ws, (∃ matched, j.matched env frames x = .ok matched ∧ ws = j.extend x matched) →
      ∃ row, ws = [row] ∧ RowMatch true (j.left.sources ++ [label]) j.left.sources
        (readAs [(label, existing)]) row x := by
    rintro x hx _ ⟨matched, hmatched, rfl⟩
    obtain ⟨g, inner, z, w, hrow⟩ := kept.exists_row hnodup hframes hapart hleft hx
    have hrecurs : Recurs env frames scope existing label k j x g inner z w :=
      ⟨h, kept, nodup, hexact, hframes, apart, rows_labels hleft x hx, hrow⟩
    have honce := once x (by rw [hleft]; exact hx)
    rw [hmatched] at honce
    exact hrecurs.exists_rowMatch hmatched honce
  clear hleft hrows hleft' once
  induction hjoined with
  | nil => exact .nil
  | cons hws _ ih =>
    obtain ⟨row, rfl, hrow⟩ := hone _ mem_cons_self _ hws
    exact .cons hrow (ih fun x hx => hone x (.tail _ hx))

end HiveQuery
