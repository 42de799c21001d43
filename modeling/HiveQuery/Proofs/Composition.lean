import HiveQuery.Proofs.Soundness

/-!
# Refinements one after the other

Applies have to become joins first, and skipped rows have to become row numbers last. The induction is on the second
refinement: each of its rules determines by which rule the tree in the middle refines the first one.
-/

namespace HiveQuery
open List Select
variable {env : Environment} {k k₁ k₂ : Mode} {μ μ₁ μ₂ : Reads} {ν ν₁ ν₂ : ColumnMatch} {top : Bool}
  {ν₀ : ColumnMatch} {s s' s'' : Select Tree} {t u : Tree} {α : Type}

/-! ## Scopes -/

structure Reads.Composes (μ₁ μ₂ μ : Reads) : Prop where
  left : μ.left = μ₁.left
  middle : ∀ a ∈ μ₁.right, a ∈ μ₂.left
  right : μ.right = μ₂.right
  rel : ∀ c d e, μ₁.rel c d → μ₂.rel d e → μ.rel c e

def ColumnMatch.Composes (ν₁ ν₂ ν : ColumnMatch) : Prop :=
  ∀ c d e, ν₁ c d → ν₂ d e → ν c e

theorem ColumnMatch.composes_sameName : sameName.Composes sameName sameName :=
  fun _ _ _ hcd hde => hde.trans hcd

theorem ColumnMatch.Composes.join {l l' l'' : List Alias} {ν₁' ν₂' ν' : ColumnMatch}
    (h : ν₁.Composes ν₂ ν) (h' : ν₁'.Composes ν₂' ν') :
    (joinMatch l l' ν₁ ν₁').Composes (joinMatch l' l'' ν₂ ν₂') (joinMatch l l'' ν ν') := by
  rintro c d e (⟨hc, hd, hcd⟩ | ⟨hc, hd, hcd⟩) (⟨hd', he, hde⟩ | ⟨hd', he, hde⟩)
  · exact .inl ⟨hc, he, h c d e hcd hde⟩
  · exact absurd hd hd'
  · exact absurd hd' hd
  · exact .inr ⟨hc, he, h' c d e hcd hde⟩

namespace Reads.Composes

variable {new mid new' : List Alias}

theorem links (h : μ₁.Composes μ₂ μ) {c d e : ColumnRef} (hcd : μ₁.Links c d) (hde : μ₂.Links d e) :
    μ.Links c e := by
  intro hc
  obtain ⟨hd, hcd⟩ := hcd (h.left ▸ hc)
  obtain ⟨he, hde⟩ := hde (h.middle _ hd)
  exact ⟨h.right ▸ he, h.rel c d e hcd hde⟩

theorem within (h : μ₁.Composes μ₂ μ) (hν : ν₁.Composes ν₂ ν) :
    (μ₁.within new mid ν₁).Composes (μ₂.within mid new' ν₂) (μ.within new new' ν) where
  left := congrArg (new ++ ·) h.left
  middle a ha := by
    rcases mem_append.1 ha with ha | ha
    · exact mem_append_left _ ha
    · exact mem_append_right _ (h.middle a ha)
  right := congrArg (new' ++ ·) h.right
  rel := by
    rintro c d e (⟨hc, hd, hcd⟩ | ⟨hc, hd, hcd⟩) (⟨hd', he, hde⟩ | ⟨hd', he, hde⟩)
    · exact .inl ⟨hc, he, hν c d e hcd hde⟩
    · exact absurd hd hd'
    · exact absurd hd' hd
    · exact .inr ⟨hc, he, h.rel c d e hcd hde⟩

theorem beyond (h : μ₁.Composes μ₂ μ) (hidden : List Alias) :
    (μ₁.beyond hidden).Composes μ₂ (μ.beyond hidden) where
  left := congrArg (hidden ++ ·) h.left
  middle := h.middle
  right := h.right
  rel c d e hcd hde := ⟨hcd.1, h.rel c d e hcd.2 hde⟩

end Reads.Composes

/-- What two refinements in a row may do, and the composed one. -/
structure Mode.Composes (k₁ k₂ k : Mode) : Prop where
  first : k₁.pages = false
  second : k₂.applies = false
  partly : k.total = false
  partly₂ : k₂.total = false
  applies : k₁.applies = true → k.applies = true
  wraps : k₁.wraps = true → k.wraps = true
  wraps₂ : k₂.wraps = true → k.wraps = true
  pages : k₂.pages = true → k.pages = true
  sorted : k₂.sorted = true → k.sorted = true

/-! ## Reading a refinement -/

theorem Tree.isRowNumber_of_isInert (h : t.isInert = true) : t.isRowNumber = false := by
  cases t with
  | rowNumber => cases h
  | _ => rfl

namespace Refines

theorem isRowNumber (h : Refines env k (.scalar μ t u)) : u.isRowNumber = t.isRowNumber := by
  cases h with
  | inert _ left right =>
    rw [Tree.isRowNumber_of_isInert left, Tree.isRowNumber_of_isInert right]
  | _ => rfl

theorem isZero (h : Refines env k (.scalar μ t u)) (hu : u.isZero = true) : t.isZero = true := by
  cases h with
  | constant => exact hu
  | inert _ _ right => cases u <;> first | cases hu | cases right
  | _ => cases hu

/-- Unless rows are skipped, a select is refined clause by clause. -/
theorem ordered_cases (h : Refines env k (.select top μ s s'))
    (hk : k.pages = false ∨ s.skip = none ∧ top = false) :
    ∃ ν, Refines env k (.clauses μ ν s s') ∧ s'.directions = s.directions ∧
      ∀ p ∈ s.order.zip s'.order,
        Refines env k (.scalar (μ.within s.sourceAliases s'.sourceAliases ν) p.1.value p.2.value) := by
  cases h with
  | ordered clauses directions keys => exact ⟨_, clauses, directions, keys⟩
  | lifted pages =>
    rcases hk with hk | ⟨_, hk⟩
    · simp [pages] at hk
    · cases hk
  | emptied pages skip | numbered pages skip =>
    rcases hk with hk | ⟨hk, _⟩
    · simp [pages] at hk
    · simp [hk] at skip

theorem widen_nil (s : Select Tree) : s.widen [] = s := by
  simp [widen]

/-- A source that is refined by a select is a select. -/
theorem source_to_select {j : Option Identity} (h : Refines env k (.source top μ ν t (.select s' j)))
    (hk : k.pages = false ∨ top = false) :
    ν = sameName ∧ ∃ s i, t = .select s i ∧ Refines env k (.select top μ s s') := by
  cases h with
  | @widened _ _ s s' extra i _ select pages =>
    have hextra : extra = [] := by
      by_contra hextra
      have := pages hextra
      simp_all
    subst hextra
    rw [widen_nil]
    exact ⟨rfl, s, i, rfl, select⟩
  | notSource _ _ _ right => cases right

end Refines

/-! ## What a second refinement says -/

section After

variable (env : Environment) (k₁ k₂ k : Mode)

def ScalarAfter (μ₂ : Reads) (u v : Tree) : Prop :=
  ∀ {μ₁ μ t}, μ₁.Composes μ₂ μ → Refines env k₁ (.scalar μ₁ t u) → Refines env k (.scalar μ t v)

def SourceAfter (top : Bool) (μ₂ : Reads) (ν₂ : ColumnMatch) (u v : Tree) : Prop :=
  ∀ {top₁ μ₁ μ ν₁ t}, μ₁.Composes μ₂ μ → Refines env k₁ (.source top₁ μ₁ ν₁ t u) →
    ∃ ν, ν₁.Composes ν₂ ν ∧ Refines env k (.source top μ ν t v)

/-- The clauses of a select refine those of the middle one, and each of them refines what the middle one
refines. -/
structure ClausesAfter (μ₂ : Reads) (ν₂ : ColumnMatch) (s' s'' : Select Tree) : Prop where
  refines : Refines env k₂ (.clauses μ₂ ν₂ s' s'')
  form : s'.SameForm s''
  source : ∀ t u, s'.source = some t → s''.source = some u → SourceAfter env k₁ k true μ₂ ν₂ t u
  filter : ∀ t u, s'.filter = some t → s''.filter = some u →
    ScalarAfter env k₁ k (μ₂.within s'.sourceAliases s''.sourceAliases ν₂) t u
  group : ∀ p ∈ s'.group.zip s''.group,
    ScalarAfter env k₁ k (μ₂.within s'.sourceAliases s''.sourceAliases ν₂) p.1 p.2
  columns : ∀ p ∈ s'.columns.zip s''.columns,
    ScalarAfter env k₁ k (μ₂.within s'.sourceAliases s''.sourceAliases ν₂) p.1.value p.2.value
  skip : ∀ t u, s'.skip = some t → s''.skip = some u → ScalarAfter env k₁ k μ₂ t u
  take : ∀ t u, s'.take = some t → s''.take = some u → ScalarAfter env k₁ k μ₂ t u
  skips : k₂.pages = true ∨ s''.skip.isSome = s'.skip.isSome

structure OrderedAfter (μ₂ : Reads) (ν₂ : ColumnMatch) (s' s'' : Select Tree) : Prop where
  clauses : ClausesAfter env k₁ k₂ k μ₂ ν₂ s' s''
  directions : s''.directions = s'.directions
  keys : ∀ p ∈ s'.order.zip s''.order,
    ScalarAfter env k₁ k (μ₂.within s'.sourceAliases s''.sourceAliases ν₂) p.1.value p.2.value

/-- A select that refines the middle one. Where the middle one skips no rows and is not at the top of a
source it keeps its order. -/
structure SelectAfter (top : Bool) (μ₂ : Reads) (s' s'' : Select Tree) : Prop where
  trans : ∀ {top₁ μ₁ μ s}, μ₁.Composes μ₂ μ → Refines env k₁ (.select top₁ μ₁ s s') →
    Refines env k (.select top μ s s'')
  ordered : s'.skip = none → top = false → ∃ ν₂, OrderedAfter env k₁ k₂ k μ₂ ν₂ s' s''

structure SideAfter (μ₂ : Reads) (ν₂ : ColumnMatch) (u v : Tree) : Prop where
  trans : ∀ {μ₁ μ ν₁ t}, μ₁.Composes μ₂ μ → Refines env k₁ (.side μ₁ ν₁ t u) →
    ∃ ν, ν₁.Composes ν₂ ν ∧ Refines env k (.side μ ν t v)
  select : ∀ s' j, u = .select s' j → ν₂ = sameName ∧ ∃ s'' j', v = .select s'' j' ∧
    SelectAfter env k₁ k₂ k false μ₂ s' s''

/-- What a refinement of the middle tree says, whatever tree the middle one refines. -/
def Judgement.After : Judgement → Prop
  | .scalar μ₂ u v => ScalarAfter env k₁ k μ₂ u v
  | .clauses μ₂ ν₂ s' s'' => ClausesAfter env k₁ k₂ k μ₂ ν₂ s' s''
  | .select top μ₂ s' s'' => SelectAfter env k₁ k₂ k top μ₂ s' s''
  | .source top μ₂ ν₂ u v => SourceAfter env k₁ k top μ₂ ν₂ u v ∧
      (top = false → ∀ s' j, u = .select s' j → ν₂ = sameName ∧ ∃ s'' j', v = .select s'' j' ∧
        SelectAfter env k₁ k₂ k false μ₂ s' s'')
  | .side μ₂ ν₂ u v => SideAfter env k₁ k₂ k μ₂ ν₂ u v

end After

/-! ## Selects -/

section Selects

variable {s s' s'' : Select Tree}

theorem Select.SameForm.trans (h₁ : s.SameForm s') (h₂ : s'.SameForm s'')
    (skip : ∀ t u, s.skip = some t → s'.skip = some u → u.isZero = true → t.isZero = true) :
    s.SameForm s'' where
  source := h₂.source.trans h₁.source
  filter := h₂.filter.trans h₁.filter
  group := h₂.group.trans h₁.group
  headers := h₂.headers.trans h₁.headers
  grouped := h₂.grouped.trans h₁.grouped
  distinct := h₂.distinct.trans h₁.distinct
  reverse := h₂.reverse.trans h₁.reverse
  skip := by
    rcases h₁.skip with h₁ | ⟨hzero, hnone⟩ <;> rcases h₂.skip with h₂ | ⟨⟨u, hu, hzero'⟩, hnone'⟩
    · exact .inl (h₂.trans h₁)
    · rw [hu, Option.isSome_some, eq_comm, Option.isSome_iff_exists] at h₁
      obtain ⟨t, ht⟩ := h₁
      exact .inr ⟨⟨t, ht, skip t u ht hu hzero'⟩, hnone'⟩
    · refine .inr ⟨hzero, ?_⟩
      exact eq_none_of_isSome_eq h₂ hnone
    · rw [hnone] at hu
      cases hu
  take := h₂.take.trans h₁.take

theorem exists_between {as bs cs : List α} (hlength : as.length = bs.length) {p : α × α} (hp : p ∈ as.zip cs) :
    ∃ b, (p.1, b) ∈ as.zip bs ∧ (b, p.2) ∈ bs.zip cs := by
  obtain ⟨i, hi, rfl⟩ := mem_iff_getElem.1 hp
  rw [length_zip] at hi
  refine ⟨bs[i], mem_iff_getElem.2 ⟨i, ?_, ?_⟩, mem_iff_getElem.2 ⟨i, ?_, ?_⟩⟩ <;> simp <;> omega

theorem exists_zip_of_mem {as bs : List α} (hlength : bs.length = as.length) {b : α} (hb : b ∈ bs) :
    ∃ a ∈ as, (a, b) ∈ as.zip bs := by
  rw [← map_snd_zip (le_of_eq hlength)] at hb
  obtain ⟨p, hp, rfl⟩ := mem_map.1 hb
  exact ⟨p.1, (of_mem_zip hp).1, hp⟩

theorem exists_some_of_isSome_eq {β : Type} {o : Option α} {o' : Option β} {b : β} (h : o'.isSome = o.isSome)
    (hb : o' = some b) : ∃ a, o = some a := by
  rw [hb, Option.isSome_some] at h
  exact Option.isSome_iff_exists.1 h.symm

theorem Select.SameForm.exists_skip (h : s.SameForm s') (hu : s'.skip = some u) : ∃ t, s.skip = some t := by
  rcases h.skip with h | ⟨_, hnone⟩
  · exact exists_some_of_isSome_eq h hu
  · rw [hnone] at hu
    cases hu

theorem Refines.exists_skip (h : Refines env k (.clauses μ ν s s')) (hskip : s'.skip.isSome = true) :
    s.skip.isSome = true := by
  cases h with
  | clauses form =>
    obtain ⟨u, hu⟩ := Option.isSome_iff_exists.1 hskip
    obtain ⟨t, ht⟩ := form.exists_skip hu
    rw [ht]
    rfl

theorem option_after {o o' o'' : Option Tree} (hμ : μ₁.Composes μ₂ μ) (form : o''.isSome = o'.isSome)
    (first : ∀ t u, o = some t → o' = some u → Refines env k₁ (.scalar μ₁ t u))
    (second : ∀ u v, o' = some u → o'' = some v → ScalarAfter env k₁ k μ₂ u v) :
    ∀ t v, o = some t → o'' = some v → Refines env k (.scalar μ t v) := by
  intro t v ht hv
  obtain ⟨u, hu⟩ := exists_some_of_isSome_eq form hv
  exact second u v hu hv hμ (first t u ht hu)

theorem zip_after (value : α → Tree) {as bs cs : List α} (hμ : μ₁.Composes μ₂ μ)
    (hlength : bs.length = as.length)
    (first : ∀ p ∈ as.zip bs, Refines env k₁ (.scalar μ₁ (value p.1) (value p.2)))
    (second : ∀ p ∈ bs.zip cs, ScalarAfter env k₁ k μ₂ (value p.1) (value p.2)) :
    ∀ p ∈ as.zip cs, Refines env k (.scalar μ (value p.1) (value p.2)) := by
  intro p hp
  obtain ⟨d, hd, hd'⟩ := exists_between hlength.symm hp
  exact second _ hd' hμ (first _ hd)

theorem source_after {o o' o'' : Option Tree} (hμ : μ₁.Composes μ₂ μ) (form₁ : o'.isSome = o.isSome)
    (form₂ : o''.isSome = o'.isSome)
    (first : ∀ t u, o = some t → o' = some u → Refines env k₁ (.source true μ₁ ν₁ t u))
    (second : ∀ t u, o' = some t → o'' = some u → SourceAfter env k₁ k true μ₂ ν₂ t u) :
    ∃ ν, ν₁.Composes ν₂ ν ∧ ∀ t v, o = some t → o'' = some v → Refines env k (.source true μ ν t v) := by
  cases o with
  | none => exact ⟨fun _ _ => True, fun _ _ _ _ _ => trivial, fun t v ht => by cases ht⟩
  | some t =>
    obtain ⟨u, hu⟩ := exists_some_of_isSome_eq form₁.symm rfl
    obtain ⟨v, hv⟩ := exists_some_of_isSome_eq form₂.symm hu
    obtain ⟨ν, hν, hsource⟩ := second u v hu hv hμ (first t u rfl hu)
    refine ⟨ν, hν, ?_⟩
    rintro _ v' ⟨rfl⟩ hv'
    cases hv.symm.trans hv'
    exact hsource

theorem ClausesAfter.trans (hk : k₁.Composes k₂ k) (h₂ : ClausesAfter env k₁ k₂ k μ₂ ν₂ s' s'')
    (hμ : μ₁.Composes μ₂ μ) (h₁ : Refines env k₁ (.clauses μ₁ ν₁ s s')) :
    ∃ ν, ν₁.Composes ν₂ ν ∧ Refines env k (.clauses μ ν s s'') := by
  cases h₁ with
  | clauses form source filter group columns skip take skips =>
    obtain ⟨ν, hν, hsource⟩ := source_after hμ form.source h₂.form.source source h₂.source
    have hwithin : (μ₁.within s.sourceAliases s'.sourceAliases ν₁).Composes
        (μ₂.within s'.sourceAliases s''.sourceAliases ν₂)
        (μ.within s.sourceAliases s''.sourceAliases ν) := hμ.within hν
    refine ⟨ν, hν, .clauses (form.trans h₂.form fun t u ht hu => (skip t u ht hu).isZero) hsource
      ?_ ?_ ?_ ?_ ?_ ?_⟩
    · exact option_after hwithin h₂.form.filter filter h₂.filter
    · exact zip_after id hwithin form.group group h₂.group
    · exact zip_after Column.value hwithin (length_eq_of_map_eq form.headers) columns h₂.columns
    · intro t v ht hv
      obtain ⟨u, hu⟩ := h₂.form.exists_skip hv
      exact h₂.skip u v hu hv hμ (skip t u ht hu)
    · exact option_after hμ h₂.form.take take h₂.take
    · have hskips := skips.resolve_left (by simp [hk.first])
      exact h₂.skips.imp hk.pages fun h => h.trans hskips

theorem exists_column (hheaders : s''.headers = s'.headers) {name : String} {c : Column Tree}
    (hc : s'.column? name = some c) :
    ∃ c', s''.column? name = some c' ∧ (c, c') ∈ s'.columns.zip s''.columns := by
  unfold headers at hheaders
  unfold column? at hc ⊢
  generalize s'.columns = l, s''.columns = l' at *
  induction l generalizing l' with
  | nil => cases hc
  | cons d l ih =>
    cases l' with
    | nil => cases hheaders
    | cons d' l' =>
      obtain ⟨hname, hheaders⟩ := cons.inj hheaders
      rw [find?_cons] at hc ⊢
      rw [hname]
      split at hc
      · cases hc
        exact ⟨d', rfl, mem_cons_self⟩
      · obtain ⟨c', hc', hmem⟩ := ih l' hheaders hc
        exact ⟨c', hc', .tail _ hmem⟩

theorem ClausesAfter.passes (h₂ : ClausesAfter env k₁ k₂ k μ₂ ν₂ s' s'') (hν : ν₁.Composes ν₂ ν) :
    (s'.passes ν₁).Composes sameName (s''.passes ν) := by
  rintro c d e ⟨col, x, hcol, hx, hlabel, hcx⟩ hde
  obtain ⟨col', hcol', hmem⟩ := exists_column h₂.form.headers hcol
  cases h₂.refines with
  | clauses _ _ _ _ columns =>
    have hrefines := columns _ hmem
    simp only [hx] at hrefines
    generalize hv : col'.value = v at hrefines
    cases hrefines with
    | column links =>
      obtain ⟨-, hrel⟩ := links (mem_append_left _ hlabel)
      rcases hrel with ⟨_, hright, hxy⟩ | ⟨hnot, _, _⟩
      · exact ⟨col', _, hde ▸ hcol', hv, hright, hν c x _ hcx hxy⟩
      · exact absurd hlabel hnot
    | inert _ left => cases left

end Selects

/-! ## Sources -/

section Sources

variable {l r l' r' l'' r'' : Tree} {c' c'' : Option Tree} {ν₂' : ColumnMatch} {kind : JoinKind}
  {i j : Option Identity}

theorem appliedJoin_after {kind : JoinKind} {c c'' : Option Tree}
    (form : c''.isSome = (appliedJoin kind c).2.isSome)
    (condition : ∀ t u, (appliedJoin kind c).2 = some t → c'' = some u →
      Refines env k₂ (.scalar μ₂ t u)) :
    ∃ c₂, c₂.isSome = c.isSome ∧ c'' = (appliedJoin kind c₂).2 ∧
      (appliedJoin kind c₂).1 = (appliedJoin kind c).1 ∧
      ∀ u, c₂ = some u → c'' = some u ∧ c = (appliedJoin kind c).2 := by
  cases c with
  | none =>
    refine ⟨none, rfl, ?_, rfl, fun u hu => by cases hu⟩
    cases h : (appliedJoin kind none).2 with
    | none => exact eq_none_of_isSome_eq form h
    | some t =>
      obtain ⟨u, hu⟩ := exists_some_of_isSome_eq form.symm h
      have hrefines := condition t u h hu
      have ht : t = .constant (.boolean true) := by
        cases kind <;> cases h <;> rfl
      subst ht
      rw [hu]
      cases hrefines with
      | constant => rfl
      | inert _ left => cases left
  | some t =>
    have h : (appliedJoin kind (some t)).2 = some t := by cases kind <;> rfl
    obtain ⟨u, hu⟩ := exists_some_of_isSome_eq form.symm h
    refine ⟨some u, rfl, ?_, ?_, ?_⟩
    · rw [hu]
      cases kind <;> rfl
    · cases kind <;> rfl
    · rintro _ ⟨rfl⟩
      exact ⟨hu, h.symm⟩

theorem Select.SameForm.isPlain (h : s.SameForm s') (hs : s.isPlain = true) : s'.isPlain = true := by
  have hgrouped := h.grouped
  have hskip := h.skip
  have htake := h.take
  have hdistinct := h.distinct
  unfold isGrouped at hgrouped
  simp only [Select.isPlain, Bool.and_eq_true, Bool.not_eq_true', Option.isNone_iff_eq_none,
    List.isEmpty_iff] at hs ⊢
  obtain ⟨⟨⟨⟨hskip₀, htake₀⟩, hdistinct₀⟩, hgroup₀⟩, haggregates₀⟩ := hs
  rw [hgroup₀, haggregates₀] at hgrouped
  simp only [hskip₀, htake₀, Option.isSome_none, Option.isSome_eq_false_iff, Option.isNone_iff_eq_none,
    reduceCtorEq, false_and, exists_const, or_false] at hskip htake
  simp only [isEmpty_nil, Bool.not_true, Bool.or_false, Bool.or_eq_false_iff,
    Bool.not_eq_eq_eq_not, Bool.not_false, List.isEmpty_iff] at hgrouped
  exact ⟨⟨⟨⟨hskip, htake⟩, hdistinct.trans hdistinct₀⟩, hgrouped.1⟩, hgrouped.2⟩

theorem Reads.Composes.pulled {l l' l'' : List Alias} {ν₀' : ColumnMatch} (hμ : μ₁.Composes μ₂ μ)
    (hν : ν₁.Composes ν₂ ν) (hpasses : (s'.passes ν₀).Composes sameName (s''.passes ν₀')) :
    (μ₁.pulled l l' ν₁ s s' ν₀).Composes
      (μ₂.within (l' ++ [s'.label]) (l'' ++ [s''.label]) (joinMatch l' l'' ν₂ sameName))
      (μ.pulled l l'' ν s s'' ν₀') where
  left := congrArg (fun x => s.sourceAliases ++ (l ++ x)) hμ.left
  middle a ha := by
    rcases mem_append.1 ha with ha | ha
    · exact mem_append_left _ ha
    · exact mem_append_right _ (hμ.middle a ha)
  right := congrArg (l'' ++ [s''.label] ++ ·) hμ.right
  rel := by
    rintro c d e (⟨hc, hd, hlabel, hcd⟩ | ⟨hc, hc', hd, hcd⟩ | ⟨hc, hc', hd, hlabel, hcd⟩)
      (⟨hmid, he, hde⟩ | ⟨hmid, he, hde⟩)
    · rcases hde with ⟨hd', _, _⟩ | ⟨_, he', hde⟩
      · exact absurd hd' hd
      · have he := mem_singleton.1 ((mem_append.1 he).resolve_left he')
        exact .inl ⟨hc, he', he, hpasses c d e hcd hde⟩
    · exact absurd (mem_append_right _ (mem_singleton.2 hlabel)) hmid
    · rcases hde with ⟨_, he, hde⟩ | ⟨hd', _, _⟩
      · exact .inr (.inl ⟨hc, hc', he, hν c d e hcd hde⟩)
      · exact absurd hd hd'
    · exact absurd (mem_append_left _ hd) hmid
    · rcases mem_append.1 hmid with h | h
      · exact absurd h hd
      · exact absurd (mem_singleton.1 h) hlabel
    · refine .inr (.inr ⟨hc, hc', fun h => he (mem_append_left _ h), fun h => ?_, hμ.rel c d e hcd hde⟩)
      exact he (mem_append_right _ (mem_singleton.2 h))

theorem applied_after (hk : k₁.Composes k₂ k) (hμ : μ₁.Composes μ₂ μ) {c : Option Tree}
    {columns extra : List (Column Tree)} {i' j' : Option Identity} (applies : k₁.applies = true)
    (apply : kind.isApply = true) (left : Refines env k₁ (.side μ₁ ν₁ l l'))
    (h : PullsFilter (Refines env k₁) μ₁ l.sources l'.sources ν₁ ν₀ s s' c columns extra)
    (left₂ : SideAfter env k₁ k₂ k μ₂ ν₂ l' l'') (right₂ : SideAfter env k₁ k₂ k μ₂ ν₂' (.select s' j') r'')
    (form₂ : c''.isSome = (appliedJoin kind c).2.isSome)
    (refines₂ : ∀ t u, (appliedJoin kind c).2 = some t → c'' = some u →
      Refines env k₂ (.scalar (μ₂.within (l'.sources ++ [s'.label]) (l''.sources ++ r''.sources)
        (joinMatch l'.sources l''.sources ν₂ ν₂')) t u))
    (condition₂ : ∀ t u, (appliedJoin kind c).2 = some t → c'' = some u →
      ScalarAfter env k₁ k (μ₂.within (l'.sources ++ [s'.label]) (l''.sources ++ r''.sources)
        (joinMatch l'.sources l''.sources ν₂ ν₂')) t u) :
    ∃ ν, (joinMatch l.sources l'.sources ν₁ sameName).Composes (joinMatch l'.sources l''.sources ν₂ ν₂') ν ∧
      Refines env k (.source top μ ν (.join ⟨kind, l, .select s i', none⟩ i)
        (.join ⟨(appliedJoin kind c).1, l'', r'', c''⟩ j)) := by
  obtain ⟨rfl, s'', j'', rfl, hselect⟩ := right₂.select s' j' rfl
  obtain ⟨ν₀', hordered⟩ := hselect.ordered (isPlain_iff.1 h.plain').1 rfl
  have hform := hordered.clauses.form
  obtain ⟨νl, hνl, hleft⟩ := left₂.trans hμ left
  obtain ⟨ν₀'', hν₀, hsource⟩ := source_after (hμ.beyond l.sources) h.form hform.source h.source
    hordered.clauses.source
  obtain ⟨c₂, hc₂, hcondition, hkind, hcases⟩ := appliedJoin_after form₂ refines₂
  have hwithin : ((μ₁.beyond l.sources).within s.sourceAliases s'.sourceAliases ν₀).Composes
      (μ₂.within s'.sourceAliases s''.sourceAliases ν₀')
      ((μ.beyond l.sources).within s.sourceAliases s''.sourceAliases ν₀'') :=
    (hμ.beyond l.sources).within hν₀
  have hnames : (s''.columns.take columns.length).map Column.name = columns.map Column.name := by
    have htake := congrArg (take columns.length) hform.headers
    rw [headers, headers, h.split, map_append, ← map_take] at htake
    rw [htake, take_left' (length_map ..)]
  have hzip : ∀ p ∈ columns.zip (s''.columns.take columns.length), p ∈ s'.columns.zip s''.columns := by
    intro p hp
    rw [h.split, ← take_append_drop columns.length s''.columns, zip_append]
    · exact mem_append_left _ hp
    · exact (length_eq_of_map_eq hnames).symm
  refine ⟨_, hνl.join ColumnMatch.composes_sameName, ?_⟩
  rw [← hkind, hcondition]
  refine .applied kind (s''.columns.take columns.length) (s''.columns.drop columns.length) i j i' j''
    (hk.applies applies) hk.partly apply hleft h.pulled (hform.isPlain h.plain')
    (eq_none_of_isSome_eq hform.filter h.filter) (hform.reverse.trans h.reverse) (take_append_drop _ _).symm
    (hnames.trans h.names) h.unnumbered ?_ (hform.source.trans h.form) hsource ?_
    (hordered.directions.trans h.directions) ?_ (hc₂.trans h.pulls) ?_
  · intro d hd
    obtain ⟨d', hd', hmem⟩ := exists_zip_of_mem (length_eq_of_map_eq hform.headers) hd
    cases hordered.clauses.refines with
    | clauses _ _ _ _ columns₂ =>
      rw [(columns₂ _ hmem).isRowNumber]
      exact h.unnumbered' d' hd'
  · exact zip_after Column.value hwithin (length_eq_of_map_eq h.names) h.values fun p hp =>
      hordered.clauses.columns p (hzip p hp)
  · exact zip_after SortKey.value hwithin (length_eq_of_map_eq h.directions) h.keys hordered.keys
  · intro t u ht hu
    obtain ⟨hu'', hc⟩ := hcases u hu
    obtain ⟨u', hu'⟩ := exists_some_of_isSome_eq hc₂ hu
    refine condition₂ u' u (hc ▸ hu') hu'' (hμ.pulled hνl (hordered.clauses.passes hν₀)) ?_
    exact h.condition t u' ht hu'

theorem joined_after (hk : k₁.Composes k₂ k) (left₂ : SideAfter env k₁ k₂ k μ₂ ν₂ l' l'')
    (right₂ : SideAfter env k₁ k₂ k (if kind.isApply then μ₂.within l'.sources l''.sources ν₂ else μ₂)
      ν₂' r' r'')
    (form₂ : c''.isSome = c'.isSome)
    (conditions₂ : ∀ t u, c' = some t → c'' = some u →
      Refines env k₂ (.scalar (μ₂.within (l'.sources ++ r'.sources) (l''.sources ++ r''.sources)
        (joinMatch l'.sources l''.sources ν₂ ν₂')) t u))
    (condition₂ : ∀ t u, c' = some t → c'' = some u →
      ScalarAfter env k₁ k (μ₂.within (l'.sources ++ r'.sources) (l''.sources ++ r''.sources)
        (joinMatch l'.sources l''.sources ν₂ ν₂')) t u) :
    SourceAfter env k₁ k top μ₂ (joinMatch l'.sources l''.sources ν₂ ν₂')
      (.join ⟨kind, l', r', c'⟩ i) (.join ⟨kind, l'', r'', c''⟩ j) := by
  intro top₁ μ₁ μ ν₁ t hμ h₁
  cases h₁ with
  | @joined _ _ ν₁ ν₁' _ l r _ _ c _ i₀ _ left right form condition =>
    obtain ⟨ν, hν, hleft⟩ := left₂.trans hμ left
    obtain ⟨ν', hν', hright⟩ : ∃ ν', ν₁'.Composes ν₂' ν' ∧ Refines env k
        (.side (if kind.isApply then μ.within l.sources l''.sources ν else μ) ν' r r'') := by
      cases happly : kind.isApply <;> rw [happly] at right right₂
      · exact right₂.trans hμ right
      · exact right₂.trans (hμ.within hν) right
    refine ⟨_, hν.join hν', .joined kind i₀ j hleft hright (form₂.trans form) ?_⟩
    exact option_after (hμ.within (hν.join hν')) form₂ condition condition₂
  | notSource _ _ _ right => cases right
  | @uncorrelated _ _ ν₁ ν₁' kind₀ l r _ _ i₀ _ applies _ apply left right =>
    rw [appliedJoin_isApply] at right₂
    obtain ⟨ν, hν, hleft⟩ := left₂.trans hμ left
    obtain ⟨ν', hν', hright⟩ := right₂.trans (hμ.beyond l.sources) right
    obtain ⟨c₂, hc₂, hcondition, hkind, -⟩ := appliedJoin_after form₂ conditions₂
    obtain rfl := eq_none_of_isSome_eq hc₂ rfl
    refine ⟨_, hν.join hν', ?_⟩
    rw [hcondition]
    exact .uncorrelated kind₀ i₀ j (hk.applies applies) hk.partly apply hleft hright
  | applied kind₀ columns extra i₀ j₀ i' j' applies partly apply left pulled plain' filter reverse split names
      unnumbered unnumbered' form source values directions keys pulls condition =>
    rw [appliedJoin_isApply] at right₂
    exact applied_after hk hμ applies apply left
      { pulled, plain', filter, reverse, split, names, unnumbered, unnumbered', form, source, values,
        directions, keys, pulls, condition } left₂ right₂ form₂ conditions₂ condition₂

/-! ## Joins that stay joins -/

theorem Refines.source_of_join (h : Refines env k (.source top μ ν t u)) (join : t.isJoin = true)
    (top' : Bool) : Refines env k (.source top' μ ν t u) := by
  cases h with
  | joined kind i j left right form condition => exact .joined kind i j left right form condition
  | uncorrelated kind i j applies partly apply left right =>
    exact .uncorrelated kind i j applies partly apply left right
  | applied kind columns extra i j i' j' applies partly apply left pulled plain' filter reverse split
      names unnumbered unnumbered' form source values directions keys pulls condition =>
    exact .applied kind columns extra i j i' j' applies partly apply left pulled plain' filter reverse
      split names unnumbered unnumbered' form source values directions keys pulls condition
  | notSource _ _ left =>
    cases t with
    | join => cases left
    | _ => cases join
  | table | widened => cases join

theorem Refines.isJoin (h : Refines env k (.source top μ ν t u)) (join : u.isJoin = true) :
    t.isJoin = true := by
  cases h with
  | joined | uncorrelated | applied => rfl
  | notSource _ _ _ right =>
    cases u with
    | join => cases right
    | _ => cases join
  | table | widened => cases join

theorem OrderedAfter.isBare {w w'' : Select Tree} (h : OrderedAfter env k₁ k₂ k μ₂ ν₂ w w'')
    (bare : w.IsBare) : w''.IsBare := by
  have hform := h.clauses.form
  have hskip := hform.skip
  have htake := hform.take
  have hfilter := hform.filter
  simp only [bare.skip, bare.take, bare.filter, Option.isSome_none, Option.isSome_eq_false_iff,
    Option.isNone_iff_eq_none, reduceCtorEq, false_and, exists_const, or_false] at hskip htake hfilter
  refine ⟨hfilter, ?_, hform.grouped.trans bare.group, hform.distinct.trans bare.distinct, hskip, htake,
    hform.reverse.trans bare.reverse, fun d hd => ?_⟩
  · have hdirections := h.directions
    rw [Select.directions, Select.directions, bare.order] at hdirections
    exact map_eq_nil_iff.1 hdirections
  · obtain ⟨d', hd', hmem⟩ := exists_zip_of_mem (length_eq_of_map_eq hform.headers) hd
    cases h.clauses.refines with
    | clauses _ _ _ _ columns =>
      rw [(columns _ hmem).isRowNumber]
      exact bare.columns d' hd'

theorem wrapped_after (hk : k₁.Composes k₂ k) {w w'' : Select Tree} (hμ : μ₁.Composes μ₂ μ)
    (wraps : k₁.wraps = true) (join : t.isJoin = true) (source : Refines env k₁ (.source false μ₁ ν₁ t u))
    (reads : w.source = some u) (bare : w.IsBare) (select : SelectAfter env k₁ k₂ k false μ₂ w w'') :
    ∃ ν, (w.passes ν₁).Composes sameName ν ∧ Refines env k (.side μ ν t (.select w'' j)) := by
  obtain ⟨ν₂, hordered⟩ := select.ordered bare.skip rfl
  obtain ⟨v, hv⟩ := exists_some_of_isSome_eq hordered.clauses.form.source.symm reads
  obtain ⟨ν, hν, hsource⟩ := hordered.clauses.source u v reads hv hμ source
  exact ⟨_, hordered.clauses.passes hν, .wrapped j (hk.wraps wraps) hk.partly join
    (hsource.source_of_join join false) hv (hordered.isBare bare)⟩

end Sources

/-! ## All rules -/

theorem Refines.after (hk : k₁.Composes k₂ k) {J : Judgement} (h₂ : Refines env k₂ J) :
    J.After env k₁ k₂ k := by
  induction h₂ with
  | constant | undefined | binary | unary | between | isNull =>
    -- the same rule on both sides, part by part
    intro μ₁ μ t hμ h₁
    cases h₁ with
    | inert _ _ right => cases right
    | _ => constructor <;> grind [Judgement.After, ScalarAfter]
  | parameter μ₂ name =>
    intro μ₁ μ t hμ h₁
    cases h₁ with
    | parameter _ name₁ => exact .parameter μ (name.trans name₁)
    | inert _ _ right => cases right
  | outerJoined aggregate _ shape =>
    intro μ₁ μ t hμ h₁
    cases h₁ with
    | outerJoined aggregate₁ shape₁ =>
      exact .outerJoined (aggregate.trans aggregate₁) (shape hμ shape₁)
    | inert _ _ right => cases right
  | @inert μ₂ u v left right aggregate =>
    intro μ₁ μ t hμ h₁
    cases h₁ with
    | inert _ left₁ _ aggregate₁ => exact .inert μ left₁ right (aggregate.trans aggregate₁)
    | _ => cases left
  | column links =>
    intro μ₁ μ t hμ h₁
    cases h₁ with
    | column links₁ => exact .column (hμ.links links₁ links)
    | inert _ _ right => cases right
  | query i j _ select =>
    intro μ₁ μ t hμ h₁
    cases h₁ with
    | query i _ select₁ => exact .query i j (select.trans hμ select₁)
    | inert _ _ right => cases right
  | scalarSubquery type type' _ query =>
    intro μ₁ μ t hμ h₁
    cases h₁ with
    | scalarSubquery type _ query₁ => exact .scalarSubquery type type' (query hμ query₁)
    | inert _ _ right => cases right
  | existsSubquery _ query =>
    intro μ₁ μ t hμ h₁
    cases h₁ with
    | existsSubquery query₁ => exact .existsSubquery (query hμ query₁)
    | inert _ _ right => cases right
  | inSubquery _ _ item query =>
    intro μ₁ μ t hμ h₁
    cases h₁ with
    | inSubquery item₁ query₁ => exact .inSubquery (item hμ item₁) (query hμ query₁)
    | inert _ _ right => cases right
  | count μ₂ kind d d' type type' =>
    intro μ₁ μ t hμ h₁
    cases h₁ with
    | count _ _ d _ type => exact .count μ kind d d' type type'
    | inert _ _ right => cases right
  | aggregate kind d type type' _ argument =>
    intro μ₁ μ t hμ h₁
    cases h₁ with
    | aggregate _ _ type _ argument₁ => exact .aggregate kind d type type' (argument hμ argument₁)
    | inert _ _ right => cases right
  | rowNumber directions _ keys =>
    intro μ₁ μ t hμ h₁
    cases h₁ with
    | rowNumber directions₁ keys₁ =>
      exact .rowNumber (directions.trans directions₁)
        (zip_after SortKey.value hμ (length_eq_of_map_eq directions₁) keys₁ keys)
    | inert _ _ right => cases right
  | clauses form source filter group columns skip take skips sourceAfter filterAfter groupAfter
      columnsAfter skipAfter takeAfter =>
    exact ⟨.clauses form source filter group columns skip take skips, form,
      fun t u ht hu => (sourceAfter t u ht hu).1, filterAfter, groupAfter, columnsAfter, skipAfter,
      takeAfter, skips⟩
  | @ordered top μ₂ ν₂ s' s'' _ directions _ clauses keys =>
    refine ⟨fun {top₁ μ₁ μ s} hμ h₁ => ?_, fun _ _ => ⟨ν₂, clauses, directions, keys⟩⟩
    obtain ⟨ν₁, clauses₁, directions₁, keys₁⟩ := h₁.ordered_cases (.inl hk.first)
    obtain ⟨ν, hν, hclauses⟩ := clauses.trans hk hμ clauses₁
    exact .ordered hclauses (directions.trans directions₁)
      (zip_after SortKey.value (hμ.within hν) (length_eq_of_map_eq directions₁) keys₁ keys)
  | @lifted μ₂ ν₂ s' s'' inner inner' i j pages sorted _ order group source source' reverse delivers
      clauses =>
    refine ⟨fun {top₁ μ₁ μ s} hμ h₁ => ?_, fun _ h => by cases h⟩
    obtain ⟨ν₁, clauses₁, directions₁, -⟩ := h₁.ordered_cases (.inl hk.first)
    obtain ⟨ν, hν, hclauses⟩ := clauses.trans hk hμ clauses₁
    cases clauses₁ with
    | clauses form₁ source₁ =>
      obtain ⟨t, ht⟩ := exists_some_of_isSome_eq form₁.source source
      obtain ⟨-, inner₀, i₀, rfl, -⟩ := (source₁ t _ ht source).source_to_select (.inl hk.first)
      refine .lifted (hk.pages pages) (hk.sorted sorted) hclauses ?_ ?_ ht source' reverse
        (hμ.right ▸ delivers)
      · rw [directions, directions, order] at directions₁
        exact map_eq_nil_iff.1 directions₁.symm
      · have hgroup := form₁.group
        rw [group] at hgroup
        exact length_eq_zero_iff.1 hgroup.symm
  | @emptied top μ₂ ν₂ s' s'' n pages skip _ unsortable empties clauses =>
    refine ⟨fun {top₁ μ₁ μ s} hμ h₁ => ?_, fun hskip _ => by simp [hskip] at skip⟩
    obtain ⟨ν₁, clauses₁, directions₁, keys₁⟩ := h₁.ordered_cases (.inl hk.first)
    obtain ⟨ν, hν, hclauses⟩ := clauses.trans hk hμ clauses₁
    refine .emptied (hk.pages pages) (clauses₁.exists_skip skip) hclauses ?_ ?_
    · obtain ⟨key, hkey, hnumber⟩ := unsortable
      obtain ⟨key₀, hkey₀, hmem⟩ := exists_zip_of_mem (length_eq_of_map_eq directions₁) hkey
      exact ⟨key₀, hkey₀, (keys₁ _ hmem).isRowNumber ▸ hnumber⟩
    · rw [hk.partly, ← hk.partly₂, hμ.right]
      exact empties
  | @numbered top μ₂ s' s'' n pages skip _ numbers select =>
    refine ⟨fun {top₁ μ₁ μ s} hμ h₁ => ?_, fun hskip _ => by simp [hskip] at skip⟩
    obtain ⟨ν₁, clauses₁, -⟩ := h₁.ordered_cases (.inl hk.first)
    refine .numbered (hk.pages pages) (clauses₁.exists_skip skip) (select.trans hμ h₁) ?_
    rw [hk.partly, ← hk.partly₂, hμ.right]
    exact numbers
  | table top μ₂ b d name =>
    refine ⟨fun {top₁ μ₁ μ ν₁ t} hμ h₁ => ?_, fun _ s' j h => by cases h⟩
    cases h₁ with
    | table _ _ a => exact ⟨_, ColumnMatch.composes_sameName, .table top μ a d name⟩
    | notSource _ _ _ right => cases right
  | @notSource top μ₂ u v left right =>
    refine ⟨fun {top₁ μ₁ μ ν₁ t} hμ h₁ => ?_, fun _ s' j h => by rw [h] at left; cases left⟩
    cases h₁ with
    | notSource _ _ left₁ => exact ⟨_, ColumnMatch.composes_sameName, .notSource top μ left₁ right⟩
    | _ => cases left
  | @widened top μ₂ s' s'' extra i j _ pages plain values total select =>
    constructor
    · intro top₁ μ₁ μ ν₁ t hμ h₁
      obtain ⟨rfl, s, i₀, rfl, hselect⟩ := h₁.source_to_select (.inl hk.first)
      refine ⟨_, ColumnMatch.composes_sameName, .widened extra i₀ j (select.trans hμ hselect)
        (fun h => (pages h).imp_left hk.pages) plain values fun h => ?_⟩
      simp [hk.partly] at h
    · rintro rfl _ _ ⟨rfl, rfl⟩
      have hextra : extra = [] := by
        by_contra hextra
        cases (pages hextra).2
      subst hextra
      exact ⟨rfl, s'', j, by rw [widen_nil], select⟩
  | joined kind i j _ _ form condition leftAfter rightAfter conditionAfter =>
    refine ⟨joined_after hk leftAfter rightAfter form condition conditionAfter, fun _ s' j h => ?_⟩
    cases h
  | uncorrelated _ _ _ applies | applied _ _ _ _ _ _ _ applies =>
    rw [hk.second] at applies
    cases applies
  | @plain μ₂ ν₂ u v _ source =>
    refine ⟨fun {μ₁ μ ν₁ t} hμ h₁ => ?_, source.2 rfl⟩
    cases h₁ with
    | plain source₁ =>
      obtain ⟨ν, hν, hsource⟩ := source.1 hμ source₁
      exact ⟨ν, hν, .plain hsource⟩
    | @wrapped _ ν₁ t u w i wraps _ join source₁ reads bare =>
      obtain ⟨rfl, w'', j, rfl, hselect⟩ := source.2 rfl w i rfl
      exact wrapped_after hk hμ wraps join source₁ reads bare hselect
  | @wrapped μ₂ ν₂ u v w i wraps partly join _ reads bare source =>
    refine ⟨fun {μ₁ μ ν₁ t} hμ h₁ => ?_, fun s' j h => by rw [h] at join; cases join⟩
    cases h₁ with
    | plain source₁ =>
      obtain ⟨ν, hν, hsource⟩ := source.1 hμ source₁
      refine ⟨w.passes ν, ?_, .wrapped i (hk.wraps₂ wraps) hk.partly (source₁.isJoin join) hsource reads bare⟩
      rintro c d e hcd ⟨col, x, hcol, hx, hlabel, hdx⟩
      exact ⟨col, x, hcol, hx, hlabel, hν c d x hcd hdx⟩
    | wrapped => cases join

/-- Refinements compose. -/
theorem Refines.trans (hk : k₁.Composes k₂ k) (hμ : μ₁.Composes μ₂ μ) {top₁ : Bool}
    (h₁ : Refines env k₁ (.select top₁ μ₁ s s')) (h₂ : Refines env k₂ (.select top μ₂ s' s'')) :
    Refines env k (.select top μ s s'') :=
  (h₂.after hk).trans hμ h₁

end HiveQuery
