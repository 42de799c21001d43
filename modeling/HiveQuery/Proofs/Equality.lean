import HiveQuery.Proofs.Bindings
import HiveQuery.Proofs.Hygiene
import HiveQuery.Proofs.Soundness

/-!
# Trees that are equal up to aliases

Trees that are equal up to the choice of aliases compute the same, as long as scopes do not clash. Doubles and
decimals are left out: zeros of both signs are equal, and so are decimals of different scale.
-/

namespace HiveQuery
open List Select HiveQuery.Tree

variable {t u : Tree} {p : Pairing} {l l' : List Alias}

/-! ## Exact constants -/

def Value.isInexact : Value → Bool
  | .double _ | .decimal _ => true
  | _ => false

def Tree.isInexact : Tree → Bool
  | .constant v => v.isInexact
  | .undefined _ => true
  | _ => false

/-- No doubles and decimals occur among the constants of a tree. -/
def Tree.IsExact (t : Tree) : Prop :=
  t.Every fun u => u.isInexact = false

instance (t : Tree) : Decidable t.IsExact :=
  inferInstanceAs (Decidable (t.Every _))

theorem Value.eq_of_beq {x y : Value} (h : (x == y) = true) (hy : y.isInexact = false) : x = y := by
  have h : beq x y = true := h
  cases x <;> cases y <;> simp_all [beq, isInexact]

/-! ## Lists of equal trees -/

section Lists

variable {p : Pairing}

theorem equalOption_iff {o o' : Option Tree} :
    equalOption p o o' = true ↔ Option.Rel (fun t u => t.equalUnder p u = true) o o' := by
  cases o <;> cases o' <;> simp [equalOption]

theorem equalList_iff {ts us : List Tree} :
    equalList p ts us = true ↔ Forall₂ (fun t u => t.equalUnder p u = true) ts us := by
  induction ts generalizing us with
  | nil => cases us <;> simp [equalList]
  | cons t ts ih => cases us <;> simp [equalList, ih]

theorem equalKeys_iff {ks ks' : List (SortKey Tree)} : equalKeys p ks ks' = true ↔
    Forall₂ (fun k k' => k'.direction = k.direction ∧ k.value.equalUnder p k'.value = true) ks ks' := by
  induction ks generalizing ks' with
  | nil => cases ks' <;> simp [equalKeys]
  | cons k ks ih => cases ks' <;> simp [equalKeys, ih, eq_comm (a := k.direction)]

theorem equalColumns_iff {cs cs' : List (Column Tree)} : equalColumns p cs cs' = true ↔
    Forall₂ (fun c c' => c'.name = c.name ∧ c.value.equalUnder p c'.value = true) cs cs' := by
  induction cs generalizing cs' with
  | nil => cases cs' <;> simp [equalColumns]
  | cons c cs ih => cases cs' <;> simp [equalColumns, ih, eq_comm (a := c.name)]

theorem equalFields_iff {fs fs' : List (String × Tree)} : equalFields p fs fs' = true ↔
    Forall₂ (fun f f' => f'.1 = f.1 ∧ f.2.equalUnder p f'.2 = true) fs fs' := by
  induction fs generalizing fs' with
  | nil => cases fs' <;> simp [equalFields]
  | cons f fs ih => cases fs' <;> simp [equalFields, ih, eq_comm (a := f.1)]

theorem Select.equalUnder_iff {s s' : Select Tree} {same : Bool} : s.equalUnder p same s' = true ↔
    s.SameClauses (fun t u => t.equalUnder p u = true)
      (fun t u => t.equalUnder (p.extendOption same s.source s'.source) u = true) s' := by
  cases s
  simp only [equalUnder, Bool.and_eq_true, beq_iff_eq, equalOption_iff, equalKeys_iff, equalList_iff,
    equalColumns_iff]
  constructor
  · rintro ⟨source, ⟨⟨⟨⟨⟨⟨⟨⟨distinct, reverse⟩, filter⟩, order⟩, group⟩, cluster⟩, skip⟩, take⟩, columns⟩⟩
    exact ⟨source, filter, order, group, cluster, skip, take, columns, distinct.symm, reverse.symm⟩
  · rintro ⟨source, filter, order, group, cluster, skip, take, columns, distinct, reverse⟩
    exact ⟨source, ⟨⟨⟨⟨⟨⟨⟨⟨distinct.symm, reverse.symm⟩, filter⟩, order⟩, group⟩, cluster⟩, skip⟩, take⟩, columns⟩⟩

/-- Is a tree compared by its own data, and its children in its own scope? -/
def Tree.isOrdinary : Tree → Bool
  | .parameter _ | .binary .. | .unary .. | .between .. | .isNull _ | .member .. | .record _ | .entity ..
  | .outerJoined .. | .scalarSubquery .. | .existsSubquery _ | .inSubquery .. | .rowNumber _ => true
  | _ => false

/-- Two trees agree in all that equality up to aliases compares but their children, and these are related. -/
inductive Tree.EqualNode (R : Pairing → Tree → Tree → Prop) (p : Pairing) : Tree → Tree → Prop
  | ordinary {t u : Tree} (ordinary : t.isOrdinary = true) (same : t.SameNode (R p) u) : EqualNode R p t u
  | constant {x y : Value} (equal : (x == y) = true) : EqualNode R p (.constant x) (.constant y)
  | undefined (id : Identity) (copies : p.copies = true) : EqualNode R p (.undefined id) (.undefined id)
  | table (a b : Alias) (name : String) : EqualNode R p (.table a name) (.table b name)
  | column {c d : ColumnRef} (name : c.name = d.name) (label : p.matches c.label d.label = true) :
      EqualNode R p (.column c) (.column d)
  | aggregate (kind : AggregateKind) {x y : Option Tree} (distinct : Bool) (type type' : ScalarType)
      (argument : Option.Rel (R p) x y) :
      EqualNode R p (.aggregate kind x distinct type) (.aggregate kind y distinct type')
  | select {s s' : Select Tree} (i j : Option Identity) (clauses : s.SameClauses (R p)
      (R (p.extendOption (sameQuery i j) s.source s'.source)) s') :
      EqualNode R p (.select s i) (.select s' j)
  | join (kind : JoinKind) {l r l' r' : Tree} {c c' : Option Tree} (i j : Option Identity) (left : R p l l')
      (right : R (if kind.isApply then p.extend (sameQuery i j) l l' else p) r r')
      (condition : Option.Rel (R ((p.extend (sameQuery i j) l l').extend (sameQuery i j) r r')) c c') :
      EqualNode R p (.join ⟨kind, l, r, c⟩ i) (.join ⟨kind, l', r', c'⟩ j)
  | projection {query shape query' shape' : Tree} (i j : Option Identity) (left : R p query query')
      (right : R (p.extend (sameQuery i j) query query') shape shape') :
      EqualNode R p (.projection query shape i) (.projection query' shape' j)

theorem Tree.equalUnder_iff :
    t.equalUnder p u = true ↔ t.EqualNode (fun p a b => a.equalUnder p b = true) p u := by
  constructor
  · intro h
    cases t <;> cases u <;>
      simp only [equalUnder, Bool.and_eq_true, beq_iff_eq, Bool.false_eq_true, equalFields_iff,
        equalKeys_iff, equalOption_iff, equalUnder_iff] at h
    case select.select => exact .select _ _ h
    case aggregate.aggregate =>
      obtain ⟨⟨rfl, rfl⟩, h⟩ := h
      exact .aggregate _ _ _ _ h
    case join.join j _ j' _ =>
      obtain ⟨kind, l, r, c⟩ := j
      obtain ⟨⟨⟨rfl, hl⟩, hr⟩, hc⟩ := h
      exact .join _ _ _ hl hr hc
    case projection.projection => exact .projection _ _ h.1 h.2
    case constant.constant => exact .constant h
    case undefined.undefined =>
      obtain ⟨copies, rfl⟩ := h
      exact .undefined _ copies
    case table.table =>
      obtain rfl := h
      exact .table _ _ _
    case column.column => exact .column h.1 h.2
    all_goals
      refine .ordinary rfl ?_
      repeat cases ‹_ ∧ _›
      subst_vars
      constructor <;> assumption
  · intro h
    cases h with
    | ordinary ordinary same =>
      cases same <;> simp_all [equalUnder, isOrdinary, equalFields_iff, equalKeys_iff]
    | select i j clauses => exact equalUnder_iff.2 clauses
    | aggregate | join | projection => simp_all [equalUnder, equalOption_iff]
    | _ => simp_all [equalUnder]

theorem Tree.SameNode.isOrdinary {R : Tree → Tree → Prop} (h : t.SameNode R u) :
    u.isOrdinary = t.isOrdinary := by
  cases h <;> rfl

theorem Tree.scalar_of_isOrdinary (h : t.isOrdinary = true) :
    t.isSource = false ∧ t.isSelect = false ∧ t.isJoin = false ∧ t.column? = none := by
  cases t <;> first | cases h; done | exact ⟨rfl, rfl, rfl, rfl⟩

theorem Tree.EqualNode.children {R : Pairing → Tree → Tree → Prop} (h : t.EqualNode R p u) :
    Forall₂ (fun a b => ∃ q, R q a b) t.children u.children := by
  cases h with
  | ordinary _ same => exact same.children.imp fun _ _ h => ⟨p, h⟩
  | aggregate _ _ _ _ argument => exact (optionRel_iff.1 argument).imp fun _ _ h => ⟨p, h⟩
  | select i j clauses => exact (clauses.imp (fun _ _ _ h => ⟨_, h⟩) fun _ _ _ h => ⟨_, h⟩).clauses
  | join kind i j left right condition =>
    exact .cons ⟨_, left⟩ (.cons ⟨_, right⟩ ((optionRel_iff.1 condition).imp fun _ _ h => ⟨_, h⟩))
  | projection i j left right => exact .cons ⟨_, left⟩ (.cons ⟨_, right⟩ .nil)
  | _ => exact .nil

theorem Tree.hasAggregate_of_equalUnder (h : t.equalUnder p u = true) : u.hasAggregate = t.hasAggregate := by
  induction t generalizing u p with
  | step t ih =>
    have hnode := equalUnder_iff.1 h
    have hany : u.children.any hasAggregate = t.children.any hasAggregate := by
      refine any_eq_of_forall₂ (forall₂_imp_mem hnode.children fun a b ha hab => And.intro ha hab) ?_
      rintro a b ⟨ha, q, hab⟩
      exact ih a ha hab
    rw [hasAggregate_eq, hasAggregate_eq, hany]
    cases hnode with
    | ordinary _ same => cases same <;> rfl
    | _ => rfl

/-! ## Nodes that agree with one node -/

variable {s s' s'' : Select Tree} {v : Tree}

theorem optionRel_meet {R R' Q : Tree → Tree → Prop} {o o' o'' : Option Tree} (h : Option.Rel R o o')
    (h' : Option.Rel R' o o'') (hQ : ∀ a ∈ o, ∀ b ∈ o', ∀ c, R a b → R' a c → Q b c) : Option.Rel Q o' o'' :=
  optionRel_iff.2 (forall₂_meet (optionRel_iff.1 h) (optionRel_iff.1 h') fun a ha b hb =>
    hQ a (Option.mem_toList.1 ha) b (Option.mem_toList.1 hb))

theorem Select.SameClauses.meet {R R' S S' : Tree → Tree → Prop} (h : s.SameClauses S R s')
    (h' : s.SameClauses S' R' s'') : s'.SameHead s'' where
  source := optionRel_meet h.source h'.source fun _ _ _ _ _ _ _ => trivial
  filter := optionRel_meet h.filter h'.filter fun _ _ _ _ _ _ _ => trivial
  order := forall₂_meet h.order h'.order fun _ _ _ _ _ hk hk' => ⟨hk'.1.trans hk.1.symm, trivial⟩
  group := forall₂_meet h.group h'.group fun _ _ _ _ _ _ _ => trivial
  cluster := forall₂_meet h.cluster h'.cluster fun _ _ _ _ _ _ _ => trivial
  skip := optionRel_meet h.skip h'.skip fun _ _ _ _ _ _ _ => trivial
  take := optionRel_meet h.take h'.take fun _ _ _ _ _ _ _ => trivial
  columns := forall₂_meet h.columns h'.columns fun _ _ _ _ _ hc hc' => ⟨hc'.1.trans hc.1.symm, trivial⟩
  distinct := h'.distinct.trans h.distinct.symm
  reverse := h'.reverse.trans h.reverse.symm

theorem Tree.SameNode.meet {R R' : Tree → Tree → Prop} (h : t.SameNode R u) (h' : t.SameNode R' v)
    (ordinary : t.isOrdinary = true) : u.SameHead v := by
  cases h with
  | record hf =>
    cases h' with
    | record hf' => exact .record (forall₂_meet hf hf' fun _ _ _ _ _ h h' => ⟨h'.1.trans h.1.symm, trivial⟩)
  | rowNumber hk =>
    cases h' with
    | rowNumber hk' => exact .rowNumber (forall₂_meet hk hk' fun _ _ _ _ _ h h' => ⟨h'.1.trans h.1.symm, trivial⟩)
  | constant | undefined | table | column | select | join | aggregate | projection => cases ordinary
  | _ => cases h'; constructor <;> trivial

end Lists

/-! ## Paired aliases -/

/-- Paired aliases correspond in the scopes of two trees. -/
def Pairing.Agrees (p : Pairing) (μ : Reads) : Prop :=
  ∀ c d : ColumnRef, d.name = c.name → c.label ∈ μ.left → p.matches c.label d.label = true →
    d.label ∈ μ.right ∧ μ.rel c d

def ColumnMatch.Pairs (ν : ColumnMatch) (l l' : List Alias) : Prop :=
  ∀ c d : ColumnRef, d.name = c.name → (c.label, d.label) ∈ l.zip l' → ν c d

theorem exists_lookup_of_mem_zip (hlen : l'.length = l.length) {a : Alias} (ha : a ∈ l) :
    ∃ b, (l.zip l').reverse.lookup a = some b ∧ (a, b) ∈ l.zip l' := by
  have hsome : ((l.zip l').reverse.lookup a).isSome = true := by
    rw [← map_fst_zip hlen.ge] at ha
    obtain ⟨p, hp, rfl⟩ := mem_map.1 ha
    exact lookup_isSome_iff.2 ⟨p, mem_reverse.2 hp, by simp⟩
  obtain ⟨b, hb⟩ := Option.isSome_iff_exists.1 hsome
  obtain ⟨l₁, l₂, e, _⟩ := lookup_eq_some_iff.1 hb
  exact ⟨b, hb, mem_reverse.1 (e ▸ by simp)⟩

theorem lookup_eq_none_of_not_mem_zip {a : Alias} (ha : a ∉ l) : (l.zip l').reverse.lookup a = none := by
  refine lookup_eq_none_iff.2 fun p hp => bne_iff_ne.2 ?_
  rintro rfl
  exact ha (of_mem_zip (mem_reverse.1 hp)).1

theorem Pairing.Agrees.within {μ : Reads} {ν : ColumnMatch} (h : p.Agrees μ) (copies : Bool)
    (hlen : l'.length = l.length) (hν : ν.Pairs l l') (apart : ∀ a ∈ l', a ∉ μ.right) :
    Pairing.Agrees ⟨(l.zip l').reverse ++ p.pairs, copies⟩ (μ.within l l' ν) := by
  intro c d hname hc hmatch
  rw [Pairing.matches, lookup_append] at hmatch
  by_cases hl : c.label ∈ l
  · obtain ⟨b, hb, hmem⟩ := exists_lookup_of_mem_zip hlen hl
    rw [hb, Option.some_or] at hmatch
    obtain rfl : b = d.label := by simpa using hmatch
    have hd := (of_mem_zip hmem).2
    exact ⟨mem_append_left _ hd, .inl ⟨hl, hd, hν c d hname hmem⟩⟩
  · rw [lookup_eq_none_of_not_mem_zip hl, Option.none_or] at hmatch
    obtain ⟨hd, hrel⟩ := h c d hname ((mem_append.1 hc).resolve_left hl) hmatch
    exact ⟨mem_append_right _ hd, .inr ⟨hl, fun h => apart _ h hd, hrel⟩⟩

theorem Pairing.Agrees.beside {μ : Reads} (h : p.Agrees μ) (copies : Bool) (apart : ∀ a ∈ l, a ∉ μ.left) :
    Pairing.Agrees ⟨(l.zip l').reverse ++ p.pairs, copies⟩ μ := by
  intro c d hname hc hmatch
  have hl : c.label ∉ l := fun hl => apart _ hl hc
  rw [Pairing.matches, lookup_append, lookup_eq_none_of_not_mem_zip hl, Option.none_or] at hmatch
  exact h c d hname hc hmatch

theorem Pairing.extendOption_eq (p : Pairing) (same : Bool) (s s' : Select Tree)
    (h : s'.source.isSome = s.source.isSome) :
    ∃ copies, p.extendOption same s.source s'.source =
      ⟨(s.sourceAliases.zip s'.sourceAliases).reverse ++ p.pairs, copies⟩ := by
  unfold sourceAliases
  cases hs : s.source with
  | none => exact ⟨p.copies, by simp [extendOption]⟩
  | some t =>
    cases hs' : s'.source with
    | none => simp [hs, hs'] at h
    | some u => exact ⟨_, rfl⟩

theorem pairs_join {r r' : List Alias} {ν ν' : ColumnMatch} (hlen : l'.length = l.length) (hν : ν.Pairs l l')
    (hν' : ν'.Pairs r r') (nodup : (l ++ r).Nodup) (nodup' : (l' ++ r').Nodup) :
    (joinMatch l l' ν ν').Pairs (l ++ r) (l' ++ r') := by
  intro c d hname hmem
  rw [zip_append hlen.symm, mem_append] at hmem
  rcases hmem with hmem | hmem
  · obtain ⟨hc, hd⟩ := of_mem_zip hmem
    exact .inl ⟨hc, hd, hν c d hname hmem⟩
  · obtain ⟨hc, hd⟩ := of_mem_zip hmem
    refine .inr ⟨fun h => ?_, fun h => ?_, hν' c d hname hmem⟩
    · exact (nodup_append.1 nodup).2.2 _ h _ hc rfl
    · exact (nodup_append.1 nodup').2.2 _ h _ hd rfl

/-! ## Equal trees -/

section Refinement

variable {env : Environment} {k : Mode}

structure EqualRefines (env : Environment) (k : Mode) (μ : Reads) (t u : Tree) : Prop where
  scalar : Refines env k (.scalar μ t u)
  length : u.sources.length = t.sources.length
  source : ∃ ν : ColumnMatch, ν.Pairs t.sources u.sources ∧
    ∀ top, Refines env k (.source top μ ν t u)

theorem EqualRefines.of_scalar {μ : Reads} (ht : t.isSource = false) (hu : u.isSource = false)
    (h : Refines env k (.scalar μ t u)) : EqualRefines env k μ t u := by
  have hsources : ∀ v : Tree, v.isSource = false → v.sources = [] := by
    intro v hv
    cases v <;> first | rfl | simp [isSource] at hv
  refine ⟨h, by rw [hsources t ht, hsources u hu], sameName, ?_, fun top => .notSource top μ ht hu⟩
  rw [hsources t ht]
  exact fun _ _ _ hmem => absurd hmem not_mem_nil

theorem select_refines_of_equalUnder {μ : Reads} {s s' : Select Tree} {same : Bool}
    (ih : ∀ t ∈ s.clauses, ∀ {u : Tree} {p : Pairing} {μ : Reads}, t.equalUnder p u = true →
      p.Agrees μ → t.Hygienic μ.left → u.Hygienic μ.right → u.IsExact → EqualRefines env k μ t u)
    (h : s.equalUnder p same s' = true) (hp : p.Agrees μ) (i j : Option Identity)
    (hs : (select s i).Hygienic μ.left) (hs' : (select s' j).Hygienic μ.right)
    (hexact : (select s' j).IsExact) (top : Bool) : Refines env k (.select top μ s s') := by
  have hsame := equalUnder_iff.1 h
  have hchildren := (every_iff.1 hexact).2
  have hform : s'.source.isSome = s.source.isSome := option_isSome_eq hsame.source
  obtain ⟨copies, hinner⟩ := p.extendOption_eq same s s' hform
  rw [hinner] at hsame
  -- the sources pair up, and so do their columns
  obtain ⟨ν, hlen, hpairs, hsource⟩ : ∃ ν : ColumnMatch,
      s'.sourceAliases.length = s.sourceAliases.length ∧
      ν.Pairs s.sourceAliases s'.sourceAliases ∧
      ∀ t u, s.source = some t → s'.source = some u → Refines env k (.source true μ ν t u) := by
    cases ht : s.source with
    | none =>
      have haliases : s.sourceAliases = [] := by simp [sourceAliases, ht]
      have haliases' : s'.sourceAliases = [] := by
        simp [sourceAliases, eq_none_of_isSome_eq hform ht]
      rw [haliases, haliases']
      exact ⟨sameName, rfl, fun _ _ _ hmem => absurd hmem not_mem_nil, by simp⟩
    | some t =>
      obtain ⟨u, hu⟩ := Option.isSome_iff_exists.1 (hform.trans (by rw [ht]; rfl))
      have htu := option_rel_of_some (R := fun t u => t.equalUnder p u = true) hsame.source ht hu
      have hequal := ih t (by simp [clauses, ht]) htu hp (hs.source ht) (hs'.source hu)
        (hchildren u (by simp [clauses, hu]))
      obtain ⟨ν, hpairs, hsource⟩ := hequal.source
      rw [sourceAliases_of_source ht, sourceAliases_of_source hu]
      refine ⟨ν, hequal.length, hpairs, ?_⟩
      rintro _ u' ⟨⟩ hu'
      rw [hu] at hu'
      cases hu'
      exact hsource true
  have hwithin := hp.within copies hlen hpairs hs'.apart
  have hbeside : Pairing.Agrees ⟨(s.sourceAliases.zip s'.sourceAliases).reverse ++ p.pairs, copies⟩ μ :=
    hp.beside copies hs.apart
  refine Refines.select_of_same (ν := ν) hsame (fun a b => hasAggregate_of_equalUnder) ?_ ?_ ?_ top
  · exact fun t u ht hu _ => hsource t u ht hu
  · intro a ha b hb hab
    exact (ih a (s.mem_clauses_of_inner ha) hab hwithin (hs.inner ha) (hs'.inner hb)
      (hchildren b (s'.mem_clauses_of_inner hb))).scalar
  · intro a ha b hb hab
    exact (ih a (s.mem_clauses_of_bounds ha) hab hbeside (hs.bounds ha) (hs'.bounds hb)
      (hchildren b (s'.mem_clauses_of_bounds hb))).scalar

theorem join_refines_of_equalUnder {μ : Reads} {kind kind' : JoinKind} {l r l' r' : Tree} {c c' : Option Tree}
    {i j : Option Identity}
    (ih : ∀ t ∈ (join ⟨kind, l, r, c⟩ i).children, ∀ {u : Tree} {p : Pairing} {μ : Reads},
      t.equalUnder p u = true → p.Agrees μ → t.Hygienic μ.left → u.Hygienic μ.right → u.IsExact →
      EqualRefines env k μ t u)
    (h : (join ⟨kind, l, r, c⟩ i).equalUnder p (.join ⟨kind', l', r', c'⟩ j) = true) (hp : p.Agrees μ)
    (ht : (join ⟨kind, l, r, c⟩ i).Hygienic μ.left)
    (hu : (join ⟨kind', l', r', c'⟩ j).Hygienic μ.right)
    (hexact : (join ⟨kind', l', r', c'⟩ j).IsExact) :
    EqualRefines env k μ (.join ⟨kind, l, r, c⟩ i) (.join ⟨kind', l', r', c'⟩ j) := by
  have haggregate := hasAggregate_of_equalUnder h
  have hchildren := (every_iff.1 hexact).2
  simp only [Tree.equalUnder, Bool.and_eq_true, beq_iff_eq] at h
  obtain ⟨⟨⟨rfl, hl⟩, hr⟩, hc⟩ := h
  have hleft := ih l (by simp) hl hp ht.left hu.left (hchildren l' (by simp))
  obtain ⟨ν, hpairs, hsource⟩ := hleft.source
  have hapart := hu.apart
  have hpright : Pairing.Agrees (if kind.isApply then p.extend (sameQuery i j) l l' else p)
      (if kind.isApply then μ.within l.sources l'.sources ν else μ) := by
    split
    · exact hp.within _ hleft.length hpairs fun a ha =>
        hapart a (mem_append_left _ ha)
    · exact hp
  have hright := ih r (by simp) hr hpright
    (by rw [apply_ite Reads.left]; exact ht.right) (by rw [apply_ite Reads.right]; exact hu.right)
    (hchildren r' (by simp))
  obtain ⟨ν', hpairs', hsource'⟩ := hright.source
  have hjoined : (joinMatch l.sources l'.sources ν ν').Pairs (l.sources ++ r.sources)
      (l'.sources ++ r'.sources) := pairs_join hleft.length hpairs hpairs' ht.nodup hu.nodup
  have hlength : (l'.sources ++ r'.sources).length = (l.sources ++ r.sources).length := by
    rw [length_append, length_append, hleft.length, hright.length]
  have hcondition : Pairing.Agrees ((p.extend (sameQuery i j) l l').extend (sameQuery i j) r r')
      (μ.within (l.sources ++ r.sources) (l'.sources ++ r'.sources)
        (joinMatch l.sources l'.sources ν ν')) := by
    have h := hp.within ((p.extend (sameQuery i j) l l').extend (sameQuery i j) r r').copies
      hlength hjoined hapart
    rw [zip_append hleft.length.symm, reverse_append, append_assoc] at h
    exact h
  have hoption := equalOption_iff.1 hc
  refine ⟨.inert μ rfl rfl haggregate, hlength, _, hjoined, fun top => ?_⟩
  refine .joined kind i j (.plain (hsource false)) (.plain (hsource' false))
    (option_isSome_eq hoption) fun t u htc huc => ?_
  subst htc huc
  cases hoption with
  | some htu =>
    exact (ih t (by simp) htu hcondition (ht.condition rfl) (hu.condition rfl)
      (hchildren u (by simp))).scalar

/-- Equal trees refine each other. -/
theorem Tree.refines_of_equalUnder {μ : Reads} (h : t.equalUnder p u = true) (hp : p.Agrees μ)
    (ht : t.Hygienic μ.left) (hu : u.Hygienic μ.right) (hexact : u.IsExact) : EqualRefines env k μ t u := by
  induction t generalizing u p μ with
  | step t ih =>
    have haggregate := hasAggregate_of_equalUnder h
    obtain ⟨hnode, hchildren⟩ := every_iff.1 hexact
    cases equalUnder_iff.1 h with
    | ordinary ordinary same =>
      obtain ⟨hsource, hselect, hjoin, hcolumn⟩ := scalar_of_isOrdinary ordinary
      obtain ⟨hsource', hselect', hjoin', -⟩ := scalar_of_isOrdinary (same.isOrdinary.trans ordinary)
      have same' : t.SameNode (fun a b => a.equalUnder p b = true ∧ b ∈ u.children) u :=
        (same.imp fun _ _ _ _ => trivial).of_children
          (forall₂_imp_right same.children fun a b hb hab => ⟨hab, hb⟩)
      refine .of_scalar hsource hsource' (.scalar_of_sameNode same' hselect hcolumn
        (fun a b hab => hasAggregate_of_equalUnder hab.1) fun _ a ha b hab => ?_)
      exact (ih a ha hab.1 hp (ht.scalar hselect hjoin ha) (hu.scalar hselect' hjoin' hab.2)
        (hchildren b hab.2)).scalar
    | @constant v w equal =>
      obtain rfl := Value.eq_of_beq equal hnode
      exact .of_scalar rfl rfl (.constant μ v)
    | undefined id => exact .of_scalar rfl rfl (.undefined μ id id)
    | column name label => exact .of_scalar rfl rfl (.column fun hc => hp _ _ name.symm hc label)
    | table a b name =>
      exact ⟨.inert μ rfl rfl haggregate, rfl, sameName, fun _ _ hname _ => hname,
        fun top => .table top μ a b name⟩
    | @select s s' i j clauses =>
      have hs := fun top => select_refines_of_equalUnder ih (Select.equalUnder_iff.2 clauses) hp i j ht hu
        hexact top
      exact ⟨.query i j (hs true), rfl, sameName, fun _ _ hname _ => hname,
        fun top => .source_of_select i j (hs top)⟩
    | join => exact join_refines_of_equalUnder ih h hp ht hu hexact
    | aggregate kind distinct type type' argument =>
      cases argument with
      | none => exact .of_scalar rfl rfl (.count μ kind distinct distinct type type')
      | some hab =>
        refine .of_scalar rfl rfl (.aggregate kind distinct type type' ?_)
        exact (ih _ (by simp) hab hp (ht.scalar rfl rfl (by simp))
          (hu.scalar rfl rfl (by simp)) (hchildren _ (by simp))).scalar
    | projection => exact .of_scalar rfl rfl (.inert μ rfl rfl haggregate)

end Refinement

/-! ## Equal scalars -/

def Reads.same (scope : List Alias) : Reads :=
  ⟨scope, scope, fun c d => d.label = c.label ∧ d.name = c.name⟩

theorem lookup?_congr (frames : Frames) {c d : ColumnRef} (hlabel : d.label = c.label)
    (hname : d.name = c.name) : frames.lookup? d = frames.lookup? c := by
  induction frames with
  | nil => rfl
  | cons row frames ih => rw [Frames.lookup?, Frames.lookup?, hlabel, hname, ih]

theorem FramesMatch.same (total : Bool) {scope : List Alias} {frames : Frames}
    (h : frames.Within scope) : FramesMatch total (.same scope) frames frames where
  left := h
  right := h
  values _ _ hcd := by
    rw [lookup?_congr frames hcd.1 hcd.2]
    exact .refl _

theorem Pairing.agrees_same (scope : List Alias) : (Pairing.ofPairs []).Agrees (.same scope) := by
  intro c d hname hc hmatch
  obtain hlabel : c.label = d.label := by simpa [Pairing.ofPairs, Pairing.matches] using hmatch
  exact ⟨show d.label ∈ scope from hlabel ▸ hc, hlabel.symm, hname⟩

/-- Equal scalars have the same value. -/
theorem Tree.scalar_of_equal {env : Environment} {scope : List Alias} (h : t.equal u = true)
    (ht : t.Hygienic scope) (hu : u.Hygienic scope) (hexact : u.IsExact) {frames : Frames}
    {group : Option (List Row)} (hframes : frames.Within scope)
    (hgroup : ∀ members ∈ group, ∀ row ∈ members, Frames.Within (row :: frames.tail) scope) {v : Value}
    (hv : t.scalar env frames group = .ok v) : u.scalar env frames group = .ok v := by
  have hrefines : EqualRefines env ⟨true, false, false, false, false⟩ (.same scope) t u :=
    refines_of_equalUnder h (Pairing.agrees_same scope) ht hu hexact
  have hmatch : GroupMatch true (.same scope) frames frames group group := by
    cases group with
    | none => exact .none
    | some members =>
      exact .some (forall₂_same.2 fun row hrow => .same true (hgroup members rfl row hrow))
  have hagree := hrefines.scalar.holds (.same true hframes) hmatch (.of_not_asked rfl rfl)
  obtain ⟨w, hw⟩ := (hagree.value v hv).1 rfl
  rwa [← (hagree.value v hv).2 w hw] at hw

end HiveQuery
