import HiveQuery.Proofs.PagingScopes

/-!
# Equality up to aliases is an equivalence

Later pairs of a pairing hide earlier ones. If no tree declares an alias twice, or one that is free in a tree it is
compared with, then what two trees are paired with is paired up in turn, through every nested scope. So trees that
are equal to one tree are equal to each other, which is symmetry and transitivity in one.
-/

namespace HiveQuery

variable {i j k : Option Identity} {s s' s'' : Select Tree} {a b c : Tree}
open List Select HiveQuery.Tree

variable {t u v : Tree} {p q r : Pairing} {S T : List Alias}

/-! ## Constants -/

def Tree.isDouble : Tree → Bool
  | .constant (.double _) | .undefined _ => true
  | _ => false

def Tree.DoubleFree (t : Tree) : Prop :=
  t.Every fun u => u.isDouble = false

instance (t : Tree) : Decidable t.DoubleFree :=
  inferInstanceAs (Decidable (t.Every _))

theorem Tree.IsExact.doubleFree (h : t.IsExact) : t.DoubleFree := by
  intro u hu
  have hexact : u.isInexact = false := h u hu
  show u.isDouble = false
  unfold isDouble
  split
  · exact hexact
  · exact hexact
  · rfl

theorem Value.beq_euclid {x y z : Value} (hx : (constant x).isDouble = false) (hy : (x == y) = true)
    (hz : (x == z) = true) : (y == z) = true := by
  have hy : beq x y = true := hy
  have hz : beq x z = true := hz
  show beq y z = true
  cases x <;> cases y <;> cases z <;> simp_all [beq, isDouble, Decimal.compare_eq]

theorem Value.beq_refl_of_not_double {x : Value} (hx : (constant x).isDouble = false) : (x == x) = true := by
  show beq x x = true
  cases x <;> simp_all [beq, isDouble, Decimal.compare_eq]

/-! ## Reflexivity -/

theorem Pairing.matches_self (h : ∀ x ∈ p.pairs, x.1 = x.2) (a : Alias) : p.matches a a = true := by
  rw [Pairing.matches]
  cases hlookup : p.pairs.lookup a with
  | none => exact beq_self_eq_true a
  | some b =>
    obtain ⟨l₁, l₂, hpairs, -⟩ := lookup_eq_some_iff.1 hlookup
    exact beq_iff_eq.2 (h (a, b) (by simp [hpairs])).symm

theorem mem_zip_self {l : List Alias} {x : Alias × Alias} (h : x ∈ l.zip l) : x.1 = x.2 := by
  obtain ⟨n, hn, rfl⟩ := mem_iff_getElem.1 h
  rw [getElem_zip]

theorem Pairing.extend_self (h : ∀ x ∈ p.pairs, x.1 = x.2) (same : Bool) (a : Tree) :
    ∀ x ∈ (p.extend same a a).pairs, x.1 = x.2 := by
  intro x hx
  rcases mem_append.1 hx with hx | hx
  · exact mem_zip_self (mem_reverse.1 hx)
  · exact h x hx

theorem Tree.equalUnder_refl (h : ∀ x ∈ p.pairs, x.1 = x.2) (ht : t.DoubleFree) : t.equalUnder p t = true := by
  induction t generalizing p with
  | step t ih =>
    obtain ⟨hnode, hchildren⟩ := every_iff.1 ht
    have child : ∀ {q : Pairing}, (∀ x ∈ q.pairs, x.1 = x.2) → ∀ a ∈ t.children, a.equalUnder q a = true :=
      fun hq a ha => ih a ha hq (hchildren a ha)
    refine equalUnder_iff.2 ?_
    cases t with
    | constant x => exact .constant (Value.beq_refl_of_not_double hnode)
    | undefined => cases hnode
    | table a name => exact .table a a name
    | column c => exact .column rfl (Pairing.matches_self h c.label)
    | aggregate kind o distinct type =>
      exact .aggregate kind distinct type type (optionRel_iff.2 (forall₂_same.2 (child h)))
    | select s i =>
      have hinner : ∀ x ∈ (p.extendOption (sameQuery i i) s.source s.source).pairs, x.1 = x.2 := by
        cases s.source with
        | none => exact h
        | some a => exact Pairing.extend_self h _ a
      cases (SameNode.of_self fun _ _ => trivial : (select s i).SameHead _) with
      | select _ _ _ same =>
        exact .select i i (.of_others same
          (optionRel_iff.2 (forall₂_same.2 fun a ha => child h a (mem_clauses.2 (.inl (Option.mem_toList.1 ha)))))
          (forall₂_same.2 fun a ha => child hinner a (mem_clauses.2 (.inr ha))))
    | join w i =>
      obtain ⟨kind, l, r, c⟩ := w
      have hleft := Pairing.extend_self h (sameQuery i i) l
      refine .join kind i i (child h l (by simp)) (child ?_ r (by simp))
        (optionRel_iff.2 (forall₂_same.2 fun a ha =>
          child (Pairing.extend_self hleft (sameQuery i i) r) a (by simp_all)))
      split
      · exact hleft
      · exact h
    | projection query shape i =>
      exact .projection i i (child h query (by simp))
        (child (Pairing.extend_self h (sameQuery i i) query) shape (by simp))
    | _ => exact .ordinary rfl (.of_self (child h))

theorem Tree.equal_refl (ht : t.DoubleFree) : t.equal t = true := equalUnder_refl nofun ht

/-! ## Free aliases -/

/-- The children of a tree with the aliases that are paired up where they are compared. -/
def Tree.pairedScopes : Tree → List (List Alias × Tree)
  | .projection query shape _ => [([], query), (query.sources, shape)]
  | t => t.bindings

/-- A column reads an alias that is not paired up around it. -/
inductive Tree.Free (x : Alias) : Tree → Prop
  | column (c : ColumnRef) : c.label = x → Free x (.column c)
  | child {t : Tree} {p : List Alias × Tree} : p ∈ t.pairedScopes → x ∉ p.1 → Free x p.2 → Free x t

theorem Tree.Free.needs {x : Alias} (h : t.Free x) : ∃ c, c.label = x ∧ t.Needs c := by
  induction h with
  | column c hc => exact ⟨c, hc, .column⟩
  | @child t p hp hx _ ih =>
    obtain ⟨c, rfl, hc⟩ := ih
    refine ⟨c, rfl, ?_⟩
    cases t with
    | projection query shape i =>
      rcases mem_cons.1 hp with rfl | hp
      · exact .child mem_cons_self not_mem_nil hc
      · cases mem_singleton.1 hp
        refine .child (p := (query.label?.toList, shape)) (.tail _ (.head _)) (fun hl => hx ?_) hc
        simp [sources_of_label (Option.mem_toList.1 hl)]
    | _ => exact .child hp hx hc

theorem Tree.pairedScopes_apart (nodup : t.declared.Nodup) {p : List Alias × Tree} (hp : p ∈ t.pairedScopes) :
    p.2 ∈ t.children ∧ ∀ x ∈ p.1, x ∉ p.2.declared := by
  cases t with
  | projection query shape i =>
    rw [declared_projection, nodup_append] at nodup
    rcases mem_cons.1 hp with rfl | hp
    · exact ⟨mem_cons_self, fun x hx => absurd hx not_mem_nil⟩
    · cases mem_singleton.1 hp
      exact ⟨.tail _ (.head _), fun x hx hmem =>
        nodup.2.2 x (query.sources_sublist.subset hx) x hmem rfl⟩
  | _ => exact ⟨mem_children_of_bindings hp, bindings_apart nodup hp⟩

theorem Tree.pairedScopes_of_isOrdinary (h : t.isOrdinary = true) : t.pairedScopes = t.children.map ([], ·) := by
  cases t <;> first | rfl | cases h

/-! ## Pairings of three trees -/

/-- What an alias in `S` stands for is in `T`, and stands for whatever that alias stands for in a third tree. -/
def Pairing.Closes (p q r : Pairing) (S T : List Alias) : Prop :=
  ∀ x ∈ S, ∀ y, p.matches x y = true → y ∈ T ∧ ∀ z, q.matches x z = true → r.matches y z = true

theorem Pairing.Closes.mono (S' T' : List Alias) (h : p.Closes q r S T) (hS : ∀ a ∈ S', a ∈ S)
    (hT : ∀ a ∈ T, a ∈ T') : p.Closes q r S' T' :=
  fun x hx y hmatch => (h x (hS x hx) y hmatch).imp_left (hT y)

theorem lookup_zip_reverse {l l' : List Alias} (hlen : l'.length = l.length) (x : Alias) :
    (l.zip l').reverse.lookup x = l'.reverse[l.reverse.idxOf x]? := by
  have hzip : ∀ {m m' : List Alias}, m'.length = m.length → (m.zip m').lookup x = m'[m.idxOf x]? := by
    intro m
    induction m with
    | nil =>
      intro m' h
      rw [length_eq_zero_iff.1 h]
      rfl
    | cons y m ih =>
      rintro (_ | ⟨z, m'⟩) h
      · cases h
      · rw [zip_cons_cons, lookup_cons, idxOf_cons, ih (Nat.succ.inj h), BEq.comm]
        cases y == x <;> rfl
  rw [zip, reverse_zipWith hlen.symm]
  exact hzip (by simp [hlen])

/-- The sources in the same places of three trees can be paired up. -/
theorem Pairing.Closes.pair {l l' l'' : List Alias} (h : p.Closes q r S T) (x y z : Bool)
    (hlen : l'.length = l.length) (hlen' : l''.length = l.length) (nodup : l'.Nodup) (apart : ∀ a ∈ l', a ∉ T) :
    Closes ⟨(l.zip l').reverse ++ p.pairs, x⟩ ⟨(l.zip l'').reverse ++ q.pairs, y⟩
      ⟨(l'.zip l'').reverse ++ r.pairs, z⟩ (l ++ S) (l' ++ T) := by
  intro a ha b hmatch
  simp only [Pairing.matches, lookup_append] at hmatch ⊢
  by_cases hl : a ∈ l
  · -- all three have their aliases in the place of the last occurrence of `a`
    have hindex : l.reverse.idxOf a < l'.reverse.length := by
      rw [length_reverse, hlen, ← length_reverse]
      exact idxOf_lt_length_iff.2 (mem_reverse.2 hl)
    rw [lookup_zip_reverse hlen, getElem?_eq_getElem hindex, Option.some_or] at hmatch
    obtain rfl : l'.reverse[l.reverse.idxOf a] = b := by simpa using hmatch
    refine ⟨mem_append_left _ (mem_reverse.1 (getElem_mem hindex)), fun c hc => ?_⟩
    have hindex' : l.reverse.idxOf a < l''.reverse.length := by
      rwa [length_reverse, hlen', ← hlen, ← length_reverse]
    rw [lookup_zip_reverse hlen', getElem?_eq_getElem hindex'] at hc
    rwa [lookup_zip_reverse (hlen'.trans hlen.symm), (nodup_reverse.2 nodup).idxOf_getElem,
      getElem?_eq_getElem hindex']
  · rw [lookup_eq_none_of_not_mem_zip hl, Option.none_or] at hmatch
    obtain ⟨hb, hclose⟩ := h a ((mem_append.1 ha).resolve_left hl) b hmatch
    refine ⟨mem_append_right _ hb, fun c hc => ?_⟩
    rw [lookup_eq_none_of_not_mem_zip hl, Option.none_or] at hc
    rw [lookup_eq_none_of_not_mem_zip fun hmem => apart b hmem hb, Option.none_or]
    exact hclose c hc

theorem Tree.sources_length_of_equalUnder (h : t.equalUnder p u = true) :
    u.sources.length = t.sources.length := by
  induction t generalizing u p with
  | step t ih =>
    cases equalUnder_iff.1 h with
    | join kind i j left right =>
      rw [sources, sources, length_append, length_append, ih _ (by simp) left, ih _ (by simp) right]
    | ordinary ordinary same => cases same <;> first | rfl | cases ordinary
    | _ => rfl

section Extend

variable (i j k : Option Identity)

theorem Pairing.Closes.extend (h : p.Closes q r S T) {p' q' : Pairing} (equal : a.equalUnder p' b = true)
    (equal' : a.equalUnder q' c = true) (nodup : b.sources.Nodup) (apart : ∀ x ∈ b.sources, x ∉ T) :
    (p.extend (sameQuery i j) a b).Closes (q.extend (sameQuery i k) a c) (r.extend (sameQuery j k) b c)
      (a.sources ++ S) (b.sources ++ T) :=
  h.pair _ _ _ (sources_length_of_equalUnder equal) (sources_length_of_equalUnder equal') nodup apart

theorem Pairing.Closes.extendOption (h : p.Closes q r S T) (equal : equalOption p s.source s'.source = true)
    (equal' : equalOption q s.source s''.source = true) (nodup : s'.sourceAliases.Nodup)
    (apart : ∀ x ∈ s'.sourceAliases, x ∉ T) :
    (p.extendOption (sameQuery i j) s.source s'.source).Closes (q.extendOption (sameQuery i k) s.source s''.source)
      (r.extendOption (sameQuery j k) s'.source s''.source) (s.sourceAliases ++ S) (s'.sourceAliases ++ T) := by
  unfold sourceAliases at *
  generalize s.source = o, s'.source = o', s''.source = o'' at *
  cases equalOption_iff.1 equal with
  | none =>
    cases equalOption_iff.1 equal' with
    | none => exact h
  | some hab =>
    cases equalOption_iff.1 equal' with
    | some hac => exact h.extend i j k hab hac nodup apart

end Extend

/-! ## Trees that are equal to one tree -/

/-- The aliases that are free in the first tree stand for aliases of the second one, which declares only what is
new at its place. -/
structure Tree.Aligned (p q r : Pairing) (S T : List Alias) (t u : Tree) : Prop where
  closes : p.Closes q r S T
  free : ∀ x, t.Free x → x ∈ S
  nodup : u.declared.Nodup
  apart : ∀ x ∈ u.declared, x ∉ T
  doubles : t.DoubleFree

namespace Tree.Aligned

variable {p' q' r' : Pairing} {own own' : List Alias}

theorem child (h : Aligned p q r S T t u) (ha : (own, a) ∈ t.pairedScopes) (hmem : a ∈ t.children)
    (hb : (own', b) ∈ u.pairedScopes) (closes : p'.Closes q' r' (own ++ S) (own' ++ T)) :
    Aligned p' q' r' (own ++ S) (own' ++ T) a b where
  closes := closes
  free x hx := by
    by_cases hown : x ∈ own
    · exact mem_append_left _ hown
    · exact mem_append_right _ (h.free x (.child ha hown hx))
  nodup := h.nodup.sublist (declared_of_child (pairedScopes_apart h.nodup hb).1)
  apart x hx hmem := by
    obtain ⟨hchild, hapart⟩ := pairedScopes_apart h.nodup hb
    rcases mem_append.1 hmem with hmem | hmem
    · exact hapart x hmem hx
    · exact h.apart x ((declared_of_child hchild).subset hx) hmem
  doubles := h.doubles.child hmem

theorem childInScope (h : Aligned p q r S T t u) (ha : ([], a) ∈ t.pairedScopes) (hmem : a ∈ t.children)
    (hb : ([], b) ∈ u.pairedScopes) : Aligned p q r S T a b :=
  h.child ha hmem hb h.closes

end Tree.Aligned

def Tree.EqualEuclid (t : Tree) : Prop :=
  ∀ {u v : Tree} {p q r : Pairing} {S T : List Alias}, t.equalUnder p u = true → t.equalUnder q v = true →
    Tree.Aligned p q r S T t u → u.equalUnder r v = true

namespace Tree.Aligned

theorem select (h : Aligned p q r S T (.select s i) (.select s' j))
    (equal : (select s i).equalUnder p (.select s' j) = true)
    (equal' : (select s i).equalUnder q (.select s'' k) = true) (ih : ∀ a ∈ s.clauses, a.EqualEuclid) :
    (Tree.select s' j).equalUnder r (.select s'' k) = true := by
  have same := Select.equalUnder_iff.1 equal
  have same' := Select.equalUnder_iff.1 equal'
  have hbrings := brings_sublist (.select s' j)
  have hinner := h.closes.extendOption i j k (equalOption_iff.2 same.source)
    (equalOption_iff.2 same'.source) (h.nodup.sublist hbrings) fun x hx => h.apart x (hbrings.subset hx)
  refine Select.equalUnder_iff.2 (.of_others (same.meet same')
    (optionRel_meet same.source same'.source fun a ha b hb c hab hac => ?_)
    (forall₂_meet same.others same'.others fun a ha b hb c hab hac => ?_))
  · have hmem : a ∈ s.clauses := mem_clauses.2 (.inl ha)
    refine ih a hmem hab hac (h.childInScope ?_ hmem ?_)
    · exact mem_append_left _ (mem_map_of_mem (Option.mem_toList.2 ha))
    · exact mem_append_left _ (mem_map_of_mem (Option.mem_toList.2 hb))
  · have hmem : a ∈ s.clauses := mem_clauses.2 (.inr ha)
    exact ih a hmem hab hac (h.child
      (mem_append_right _ (mem_map_of_mem ha)) hmem (mem_append_right _ (mem_map_of_mem hb)) hinner)

theorem join {kind kind' kind'' : JoinKind} {l m l' m' l'' m'' : Tree} {c c' c'' : Option Tree}
    (h : Aligned p q r S T (.join ⟨kind, l, m, c⟩ i) (.join ⟨kind', l', m', c'⟩ j))
    (equal : (join ⟨kind, l, m, c⟩ i).equalUnder p (.join ⟨kind', l', m', c'⟩ j) = true)
    (equal' : (join ⟨kind, l, m, c⟩ i).equalUnder q (.join ⟨kind'', l'', m'', c''⟩ k) = true)
    (ih : ∀ a ∈ (join ⟨kind, l, m, c⟩ i).children, a.EqualEuclid) :
    (join ⟨kind', l', m', c'⟩ j).equalUnder r (.join ⟨kind'', l'', m'', c''⟩ k) = true := by
  simp only [equalUnder, Bool.and_eq_true, beq_iff_eq] at equal equal' ⊢
  obtain ⟨⟨⟨rfl, hl⟩, hr⟩, hc⟩ := equal
  obtain ⟨⟨⟨rfl, hl'⟩, hr'⟩, hc'⟩ := equal'
  have hbrings := brings_sublist (.join ⟨kind, l', m', c'⟩ j)
  obtain ⟨nodupl, nodupr, hdisjoint⟩ := nodup_append.1 (h.nodup.sublist hbrings)
  have hleft := h.closes.extend i j k hl hl' nodupl
    fun x hx => h.apart x (hbrings.subset (mem_append_left _ hx))
  have hright : Pairing.Closes (if kind.isApply then p.extend (sameQuery i j) l l' else p)
      (if kind.isApply then q.extend (sameQuery i k) l l'' else q)
      (if kind.isApply then r.extend (sameQuery j k) l' l'' else r)
      ((if kind.isApply then l.sources else []) ++ S) ((if kind.isApply then l'.sources else []) ++ T) := by
    split
    · exact hleft
    · exact h.closes
  have hboth := (hleft.extend i j k hr hr' nodupr fun x hx hmem => ?_).mono
    (l.sources ++ m.sources ++ S) (l'.sources ++ m'.sources ++ T) ?_ ?_
  · refine ⟨⟨⟨rfl, ih l (by simp) hl hl' (h.childInScope ?_ ?_ ?_)⟩,
      ih m (by simp) hr hr' (h.child ?_ ?_ ?_ hright)⟩,
      equalOption_iff.2 (optionRel_meet (equalOption_iff.1 hc) (equalOption_iff.1 hc')
        fun a ha b hb _ hab hac => ih a ?_ hab hac (h.child ?_ ?_ ?_ hboth))⟩
    all_goals simp_all [pairedScopes, bindings]
  · rcases mem_append.1 hmem with hmem | hmem
    · exact hdisjoint x hmem x hx rfl
    · exact h.apart x (hbrings.subset (mem_append_right _ hx)) hmem
  · simp only [mem_append]
    grind
  · simp only [mem_append]
    grind

theorem projection {query shape query' shape' query'' shape'' : Tree}
    (h : Aligned p q r S T (.projection query shape i) (.projection query' shape' j))
    (equal : (projection query shape i).equalUnder p (.projection query' shape' j) = true)
    (equal' : (projection query shape i).equalUnder q (.projection query'' shape'' k) = true)
    (ih : ∀ a ∈ (projection query shape i).children, a.EqualEuclid) :
    (projection query' shape' j).equalUnder r (.projection query'' shape'' k) = true := by
  simp only [equalUnder, Bool.and_eq_true] at equal equal' ⊢
  have hquery := declared_of_child (t := .projection query' shape' j) mem_cons_self
  have hinner := h.closes.extend i j k equal.1 equal'.1
    (h.nodup.sublist (query'.sources_sublist.trans hquery))
    fun x hx => h.apart x (hquery.subset (query'.sources_sublist.subset hx))
  refine ⟨ih query ?_ equal.1 equal'.1 (h.childInScope ?_ ?_ ?_),
    ih shape ?_ equal.2 equal'.2 (h.child ?_ ?_ ?_ hinner)⟩
  all_goals simp [pairedScopes]

end Tree.Aligned

/-- Trees that are equal to one tree are equal to each other. -/
theorem Tree.equalUnder_euclid (t : Tree) : t.EqualEuclid := by
  induction t with
  | step t ih =>
    intro u v p q r S T h h' aligned
    -- children that see what their parents see
    have plain : t.pairedScopes = t.children.map ([], ·) → u.pairedScopes = u.children.map ([], ·) →
        ∀ a ∈ t.children, ∀ b ∈ u.children, ∀ c, a.equalUnder p b = true → a.equalUnder q c = true →
          b.equalUnder r c = true :=
      fun ht hu a ha b hb c hab hac => ih a ha hab hac (aligned.childInScope
        (ht ▸ mem_map_of_mem ha) ha (hu ▸ mem_map_of_mem hb))
    cases equalUnder_iff.1 h with
    | ordinary ordinary same =>
      have hordinary := same.isOrdinary.trans ordinary
      cases equalUnder_iff.1 h' with
      | ordinary _ same' =>
        refine equalUnder_iff.2 (.ordinary hordinary
          (.of_children (same.meet same' ordinary) (forall₂_meet same.children same'.children ?_)))
        exact plain (pairedScopes_of_isOrdinary ordinary) (pairedScopes_of_isOrdinary hordinary)
      | _ => cases ordinary
    | constant equal =>
      cases equalUnder_iff.1 h' with
      | constant equal' =>
        exact equalUnder_iff.2 (.constant (Value.beq_euclid (every_iff.1 aligned.doubles).1 equal equal'))
      | ordinary ordinary => cases ordinary
    | undefined => cases (every_iff.1 aligned.doubles).1
    | table a b name =>
      cases equalUnder_iff.1 h' with
      | table _ c => exact equalUnder_iff.2 (.table b c name)
      | ordinary ordinary => cases ordinary
    | column name label =>
      cases equalUnder_iff.1 h' with
      | column name' label' =>
        exact equalUnder_iff.2 (.column (name.symm.trans name')
          ((aligned.closes _ (aligned.free _ (.column _ rfl)) _ label).2 _ label'))
      | ordinary ordinary => cases ordinary
    | aggregate kind distinct type type' argument =>
      cases equalUnder_iff.1 h' with
      | aggregate _ _ _ type'' argument' =>
        exact equalUnder_iff.2 (.aggregate kind distinct type' type''
          (optionRel_meet argument argument' fun a ha b hb =>
            plain rfl rfl a (Option.mem_toList.2 ha) b (Option.mem_toList.2 hb)))
      | ordinary ordinary => cases ordinary
    | select =>
      cases equalUnder_iff.1 h' with
      | select => exact aligned.select h h' ih
      | ordinary ordinary => cases ordinary
    | join =>
      cases equalUnder_iff.1 h' with
      | join => exact aligned.join h h' ih
      | ordinary ordinary => cases ordinary
    | projection =>
      cases equalUnder_iff.1 h' with
      | projection => exact aligned.projection h h' ih
      | ordinary ordinary => cases ordinary

theorem Tree.equal_euclid (h : t.equal u = true) (h' : t.equal v = true) (doubles : t.DoubleFree)
    (nodup : u.declared.Nodup) (free : ∀ x, t.Free x → x ∉ u.declared) : u.equal v = true := by
  let scope := (t.allColumns.map ColumnRef.label).filter fun a => a ∉ u.declared
  refine equalUnder_euclid t (S := scope) (T := scope) h h' ⟨fun x hx y hmatch => ?_, fun x hx => ?_, nodup,
    fun x hx hmem => ?_, doubles⟩
  · obtain rfl : x = y := by simpa [Pairing.ofPairs, Pairing.matches] using hmatch
    exact ⟨hx, fun _ => id⟩
  · obtain ⟨c, rfl, hc⟩ := hx.needs
    have hmem := mem_map_of_mem (f := ColumnRef.label) (mem_allColumns.2 hc.mem_subtrees)
    exact mem_filter.2 ⟨hmem, decide_eq_true (free _ hx)⟩
  · exact of_decide_eq_true (mem_filter.1 hmem).2 hx

theorem Tree.equal_symm (h : t.equal u = true) (doubles : t.DoubleFree) (nodup : u.declared.Nodup)
    (free : ∀ x, t.Free x → x ∉ u.declared) : u.equal t = true :=
  equal_euclid h (equal_refl doubles) doubles nodup free

/-- Equality up to aliases is an equivalence between trees without doubles, each of which declares every alias
once, and none of which declares an alias that is free in any of them. -/
theorem Tree.equal_equivalence (a b c : Tree) (doubles : ∀ t ∈ [a, b, c], t.DoubleFree)
    (nodup : ∀ t ∈ [a, b, c], t.declared.Nodup)
    (free : ∀ t ∈ [a, b, c], ∀ u ∈ [a, b, c], ∀ x, t.Free x → x ∉ u.declared) :
    a.equal a = true ∧ (a.equal b = true → b.equal a = true) ∧
      (a.equal b = true → b.equal c = true → a.equal c = true) := by
  have ha : a ∈ [a, b, c] := mem_cons_self
  have hb : b ∈ [a, b, c] := .tail _ (.head _)
  have symm : a.equal b = true → b.equal a = true := fun h =>
    equal_symm h (doubles a ha) (nodup b hb) (free a ha b hb)
  exact ⟨equal_refl (doubles a ha), symm, fun hab hbc =>
    equal_euclid (symm hab) hbc (doubles b hb) (nodup a ha) (free b hb a ha)⟩

/-- The ranks of the notes on a customer from outside, each note read a second time. -/
def customerRanks (note again query inner : Alias) : Select Tree :=
  let read (a : Alias) (name : String) : Tree := .column ⟨.int64, ScalarType.int64.columnType, a, name⟩
  let readAgain : Select Tree :=
    { label := inner, columns := [⟨"id", read again "id", ScalarType.int64.columnType⟩]
      source := some (.table again "notes"), filter := some (.binary .equal (read again "rank") (read note "rank")) }
  { label := query, columns := [⟨"rank", read note "rank", ScalarType.int64.columnType⟩]
    source := some (.table note "notes")
    filter := some (.binary .and (.binary .equal (read note "customer") (read 9 "id"))
      (.inSubquery (read note "id") (.select readAgain none)))
    order := [⟨.descending, read note "rank"⟩] }

/-- One query under three choices of aliases, for a customer from outside. -/
theorem equal_equivalence_customerRanks :
    let a := Tree.select (customerRanks 0 1 2 3) none
    let b := Tree.select (customerRanks 4 5 6 7) none
    let c := Tree.select (customerRanks 2 0 10 11) none
    a.equal a = true ∧ b.equal a = true ∧ a.equal c = true := by
  intro a b c
  have free : ∀ t ∈ [a, b, c], ∀ u ∈ [a, b, c], ∀ x, t.Free x → x ∉ u.declared := by
    intro t ht u hu x hx
    have houter : ∀ t ∈ [a, b, c], t.checkScopesIn [9] = .ok () := by decide
    have hinner : ∀ u ∈ [a, b, c], 9 ∉ u.declared := by decide
    obtain ⟨d, rfl, hd⟩ := hx.needs
    rw [mem_singleton.1 (Tree.checkScopesIn_iff.1 (houter t ht) d hd)]
    exact hinner u hu
  obtain ⟨hself, symm, trans⟩ := Tree.equal_equivalence a b c (by decide) (by decide) free
  exact ⟨hself, symm (by decide), trans (by decide) (by decide)⟩

/-! ## Equal trees compute the same -/

variable {env : Environment} {scope : List Alias} {frames : Frames}

theorem Select.run_of_equal (h : (select s i).equal (.select s' j) = true)
    (hs : (select s i).Hygienic scope) (hs' : (select s' j).Hygienic scope)
    (hexact : (select s' j).IsExact) (hframes : frames.Within scope) {r : Relation}
    (hr : s.run env frames = .ok r) : s'.run env frames = .ok r := by
  have hrefines : Refines env ⟨true, false, false, false, false⟩ (.select true (.same scope) s s') :=
    select_refines_of_equalUnder (fun _ _ => refines_of_equalUnder)
      (by simpa only [Tree.equal, Tree.equalUnder] using h) (Pairing.agrees_same scope) i j hs hs' hexact true
  have hfits : s.Fits env ⟨true, false, false, false, false⟩ frames :=
    fits_of_keyRanges (.of_not_asked rfl rfl)
  exact (hrefines.holds (.same true hframes) hfits).run.ok_of_ok hr

/-- Trees that are equal up to aliases compute the same, wherever none of the aliases that they declare is
bound: as scalars both fail or both have the same value, and as queries both fail or both have the same
headers and the same rows in the same order. -/
theorem Tree.equal_sound {env : Environment} {frames : Frames} {group : Option (List Row)}
    (equal : t.equal u = true) (exact : t.IsExact) (exact' : u.IsExact) (nodup : t.declared.Nodup)
    (nodup' : u.declared.Nodup) (free : ∀ c, t.Needs c → c.label ∉ u.declared)
    (unbound : ∀ row ∈ frames ++ group.getD [], ∀ b ∈ row, b.label ∉ t.declared ∧ b.label ∉ u.declared) :
    (∀ v, t.scalar env frames group = .ok v ↔ u.scalar env frames group = .ok v) ∧
      ∀ s i, t = .select s i → ∃ s' j, u = .select s' j ∧
        ∀ r, s.run env frames = .ok r ↔ s'.run env frames = .ok r := by
  have equal' : u.equal t = true := by
    refine equal_symm equal exact.doubleFree nodup' fun x hx => ?_
    obtain ⟨c, rfl, hc⟩ := hx.needs
    exact free c hc
  let scope := (frames ++ group.getD []).flatMap fun row => row.map Binding.label
  have hmem : ∀ row ∈ frames ++ group.getD [], ∀ b ∈ row, b.label ∈ scope := fun row hrow b hb =>
    List.mem_flatMap.2 ⟨row, hrow, List.mem_map_of_mem hb⟩
  have hframes : frames.Within scope := fun row hrow => hmem row (List.mem_append_left _ hrow)
  have hgroup : ∀ members ∈ group, ∀ row ∈ members, Frames.Within (row :: frames.tail) scope := by
    intro members hmembers row hrow r hr
    rcases List.mem_cons.1 hr with rfl | hr
    · exact hmem r (List.mem_append_right _ (by rw [hmembers]; exact hrow))
    · exact hframes r (List.mem_of_mem_tail hr)
  have hscope : ∀ a ∈ scope, a ∉ t.declared ∧ a ∉ u.declared := by
    intro a ha
    obtain ⟨row, hrow, ha⟩ := List.mem_flatMap.1 ha
    obtain ⟨b, hb, rfl⟩ := List.mem_map.1 ha
    exact unbound row hrow b hb
  have ht : t.Hygienic scope := hygienic_of_nodup nodup fun a ha hs => (hscope a hs).1 ha
  have hu : u.Hygienic scope := hygienic_of_nodup nodup' fun a ha hs => (hscope a hs).2 ha
  refine ⟨fun v => ⟨scalar_of_equal equal ht hu exact' hframes hgroup,
    scalar_of_equal equal' hu ht exact hframes hgroup⟩, ?_⟩
  rintro s i rfl
  cases u with
  | select s' j =>
    exact ⟨s', j, rfl, fun r => ⟨Select.run_of_equal equal ht hu exact' hframes,
      Select.run_of_equal equal' hu ht exact hframes⟩⟩
  | _ => simp [Tree.equal, Tree.equalUnder] at equal

/-- One query under two choices of aliases, for the customer with the number 7. -/
theorem equal_sound_customerRanks :
    let env : Environment :=
      ⟨[("notes", ⟨["id", "customer", "rank"], [[.int 1, .int 7, .int 4], [.int 2, .int 7, .int 5]]⟩)], []⟩
    let frames : Frames := [sourceRow 9 ["id"] [.int 7]]
    (Tree.select (customerRanks 0 1 2 3) none).equal (.select (customerRanks 4 5 6 7) none) = true ∧
      (Tree.select (customerRanks 4 5 6 7) none).scalar env frames none = .ok (.int 5) ∧
      (customerRanks 4 5 6 7).run env frames = .ok ⟨["rank"], [[.int 5], [.int 4]]⟩ := by
  intro env frames
  have equal : (Tree.select (customerRanks 0 1 2 3) none).equal (.select (customerRanks 4 5 6 7) none) = true := by
    decide
  have free : ∀ c, (Tree.select (customerRanks 0 1 2 3) none).Needs c →
      c.label ∉ (Tree.select (customerRanks 4 5 6 7) none).declared := by
    intro c hc
    have hall : ∀ d ∈ (Tree.select (customerRanks 0 1 2 3) none).allColumns,
        d.label ∉ (Tree.select (customerRanks 4 5 6 7) none).declared := by decide
    exact hall c (Tree.mem_allColumns.2 hc.mem_subtrees)
  have unbound : ∀ row ∈ frames ++ Option.getD none [], ∀ b ∈ row,
      b.label ∉ (Tree.select (customerRanks 0 1 2 3) none).declared ∧
        b.label ∉ (Tree.select (customerRanks 4 5 6 7) none).declared := by decide
  obtain ⟨hscalar, hselect⟩ := @Tree.equal_sound _ _ env frames none equal (by decide) (by decide)
    (by decide) (by decide) free unbound
  obtain ⟨s', j, hs', hrun⟩ := hselect _ _ rfl
  cases hs'
  exact ⟨equal, (hscalar _).1 rfl, (hrun _).1 rfl⟩

end HiveQuery
