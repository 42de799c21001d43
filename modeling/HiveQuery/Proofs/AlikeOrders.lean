import HiveQuery.Proofs.KeptForms
import HiveQuery.Proofs.RequiredOrder

/-!
# Orders of selects that are alike

Lifting an order looks for columns that are equal to sort keys. Where the keys hold no doubles and
decimals, identities and types of columns do not count in that.
-/

namespace HiveQuery

variable {E E' R : Tree → Tree → Prop}
open List

variable {Q : ColumnRef → ColumnRef → Prop}

/-! ## Lists of equal trees, the other way round -/

theorem forall₂_square {α α' β β' : Type} {R : α → α' → Prop} {E : α → β → Prop} {S : β → β' → Prop}
    {E' : α' → β' → Prop} {l : List α} {l' : List α'} {r : List β} {r' : List β'}
    (hR : Forall₂ R l l') (hE : Forall₂ E l r) (hS : Forall₂ S r r')
    (h : ∀ a ∈ l, ∀ b ∈ r, ∀ a' b', R a a' → E a b → S b b' → E' a' b') : Forall₂ E' l' r' := by
  -- the first two meet in the left list, and what they give meets the third in the right one
  refine forall₂_meet (forall₂_meet hE hR fun a ha b _ a' hab haa => (⟨a, ha, hab, haa⟩ : ∃ a ∈ l, E a b ∧ R a a'))
    hS fun b hb a' _ b' hleft hbb => ?_
  obtain ⟨a, ha, hab, haa⟩ := hleft
  exact h a ha b hb a' b' haa hab hbb

theorem find?_rel {α β : Type} {R : α → β → Prop} {p : α → Bool} {q : β → Bool} {l : List α}
    {l' : List β} (h : Forall₂ R l l') (same : ∀ a b, R a b → q b = p a) :
    Option.Rel R (l.find? p) (l'.find? q) := by
  induction h with
  | nil => exact .none
  | @cons a b _ _ hab _ ih =>
    rw [find?_cons, find?_cons, same a b hab]
    cases p a with
    | true => exact .some hab
    | false => exact ih

theorem option_square {o w o' w' : Option Tree} (ho : Option.Rel R o o') (h : Option.Rel E o w)
    (hw : Option.Rel R w w')
    (step : ∀ a ∈ o.toList, ∀ b ∈ w.toList, ∀ a' b', R a a' → E a b → R b b' → E' a' b') :
    Option.Rel E' o' w' :=
  optionRel_iff.2 (forall₂_square (optionRel_iff.1 ho) (optionRel_iff.1 h) (optionRel_iff.1 hw) step)

theorem Select.SameClauses.square {F F' : Tree → Tree → Prop} {s s' v v' : Select Tree}
    (hs : s.SameClauses R R v) (h : s.SameClauses E F s') (hs' : s'.SameClauses R R v')
    (source : ∀ a b a' b', s.source = some a → s'.source = some b → R a a' → E a b → R b b' → E' a' b')
    (clauses : ∀ a ∈ s.clauses, ∀ b ∈ s'.clauses, ∀ a' b', R a a' → F a b → R b b' → F' a' b') :
    v.SameClauses E' F' v' :=
  .of_others ((h.meet hs).meet hs')
    (option_square hs.source h.source hs'.source fun a ha b hb a' b' =>
      source a b a' b' (Option.mem_toList.1 ha) (Option.mem_toList.1 hb))
    (forall₂_square hs.others h.others hs'.others fun a ha b hb =>
      clauses a (mem_clauses.2 (.inr ha)) b (mem_clauses.2 (.inr hb)))

theorem Pairing.extend_alike {p p' : Pairing} {same same' : Bool} {a b a' b' : Tree} (ha : a.Rerouted Q a')
    (hb : b.Rerouted Q b') (pairs : p'.pairs = p.pairs) :
    (p'.extend same' a' b').pairs = (p.extend same a b).pairs := by
  simp only [extend, ha.sources, hb.sources, pairs]

theorem Pairing.extendOption_alike {p p' : Pairing} {same same' : Bool} {o w o' w' : Option Tree}
    (ho : Option.Rel (Tree.Rerouted Q) o o') (hw : Option.Rel (Tree.Rerouted Q) w w')
    (pairs : p'.pairs = p.pairs) : (p'.extendOption same' o' w').pairs = (p.extendOption same o w).pairs := by
  cases ho with
  | none => exact pairs
  | some ho =>
    cases hw with
    | none => exact pairs
    | some hw => exact extend_alike ho hw pairs

/-! ## Equal trees -/

namespace Tree

variable {t u t' u' : Tree} {p p' : Pairing}

theorem Rerouted.column_left {c : ColumnRef} (h : (Tree.column c).Rerouted Q u) :
    ∃ d, u = .column d ∧ Q c d := by
  cases h with
  | column h => exact ⟨_, rfl, h⟩
  | node h => cases h

theorem Rerouted.sameNode (h : t.Rerouted Q u) (column : t.column? = none) :
    t.SameNode (Rerouted Q) u := by
  cases h with
  | column => cases column
  | node _ same children => exact same.of_children children

theorem SameNode.square (ordinary : t.isOrdinary = true) (ht : t.SameNode R t') (h : t.SameNode E u)
    (hu : u.SameNode R u')
    (step : ∀ a ∈ t.children, ∀ b ∈ u.children, ∀ a' b', R a a' → E a b → R b b' → E' a' b') :
    t'.SameNode E' u' := by
  have hleft := h.meet ht ordinary
  exact of_children (hleft.meet hu (h.isOrdinary.trans ordinary))
    (forall₂_square ht.children h.children hu.children step)

theorem equalUnder_alike (ht : t.Rerouted SameRef t') (hu : u.Rerouted SameRef u')
    (exact : u.IsExact) (pairs : p'.pairs = p.pairs) (h : t.equalUnder p u = true) :
    t'.equalUnder p' u' = true := by
  induction t generalizing t' u u' p p' with
  | step t ih =>
    obtain ⟨hnode, hexact⟩ := every_iff.1 exact
    -- what holds of the children, in pairs
    have child : ∀ a ∈ t.children, ∀ b ∈ u.children, ∀ {q q' : Pairing}, q'.pairs = q.pairs →
        ∀ a' b', a.Rerouted SameRef a' → a.equalUnder q b = true → b.Rerouted SameRef b' →
          a'.equalUnder q' b' = true :=
      fun a ha b hb _ _ hq a' b' haa hab hbb => ih a ha haa hbb (hexact b hb) hq hab
    cases equalUnder_iff.1 h with
    | ordinary ordinary same =>
      have hsame := ht.sameNode (scalar_of_isOrdinary ordinary).2.2.2
      have hsame' := hu.sameNode (scalar_of_isOrdinary (same.isOrdinary.trans ordinary)).2.2.2
      exact equalUnder_iff.2 (.ordinary (hsame.isOrdinary.trans ordinary)
        (hsame.square ordinary same hsame' fun a ha b hb => child a ha b hb pairs))
    | undefined => cases hnode
    | constant | table =>
      cases ht.sameNode rfl
      cases hu.sameNode rfl
      exact h
    | column name label =>
      obtain ⟨d, rfl, hcd⟩ := ht.column_left
      obtain ⟨f, rfl, hef⟩ := hu.column_left
      simp only [equalUnder, Bool.and_eq_true, beq_iff_eq, Pairing.matches, pairs, hcd.1, hcd.2, hef.1,
        hef.2] at h ⊢
      exact h
    | aggregate kind distinct type type' argument =>
      cases ht.sameNode rfl with
      | aggregate _ _ _ hx =>
      cases hu.sameNode rfl with
      | aggregate _ _ _ hx' =>
      exact equalUnder_iff.2 (.aggregate _ _ _ _
        (option_square hx argument hx' fun a ha b hb => child a ha b hb pairs))
    | select i j clauses =>
      cases ht.sameNode rfl with
      | select _ i' _ hs =>
      cases hu.sameNode rfl with
      | select _ j' _ hs' =>
      refine equalUnder_iff.2 (.select i' j' (hs.square clauses hs' ?_ ?_))
      · intro a b a' b' ha hb
        exact child a (by simp [Select.clauses, ha]) b (by simp [Select.clauses, hb]) pairs
          a' b'
      · intro a ha b hb
        exact child a ha b hb (Pairing.extendOption_alike hs.source hs'.source pairs)
    | join kind i j left right condition =>
      cases ht.sameNode rfl with
      | join _ _ i' hl hr hc =>
      cases hu.sameNode rfl with
      | join _ _ j' hl' hr' hc' =>
      refine equalUnder_iff.2 (.join kind i' j' ?_ ?_ (option_square hc condition hc' fun a ha b hb => ?_))
      · exact child _ (by simp) _ (by simp) pairs _ _ hl left hl'
      · refine child _ (by simp) _ (by simp) ?_ _ _ hr right hr'
        split
        · exact Pairing.extend_alike hl hl' pairs
        · exact pairs
      · refine child a ?_ b ?_ (Pairing.extend_alike hr hr' (Pairing.extend_alike hl hl' pairs))
        · simp [Option.mem_toList.1 ha]
        · simp [Option.mem_toList.1 hb]
    | projection i j left right =>
      cases ht.sameNode rfl with
      | projection _ i' hq hx =>
      cases hu.sameNode rfl with
      | projection _ j' hq' hx' =>
      exact equalUnder_iff.2 (.projection i' j'
        (child _ (by simp) _ (by simp) pairs _ _ hq left hq')
        (child _ (by simp) _ (by simp) (Pairing.extend_alike hq hq' pairs) _ _ hx right
          hx'))

/-! ### The other way round -/

theorem Rerouted.symm (h : t.Rerouted SameRef u) : u.Rerouted SameRef t := by
  refine h.rel (fun h => .column ⟨h.1.symm, h.2.symm⟩) fun column same below => ?_
  exact .node (same.column?.trans column) (same.imp fun _ _ _ _ => trivial).symm below.children.flip

/-- Equality does not tell trees apart that are alike. -/
theorem equal_alike (ht : t.Rerouted SameRef t') (hu : u.Rerouted SameRef u') (exact : u.IsExact) :
    t'.equal u' = t.equal u := by
  refine Bool.eq_iff_iff.2 ⟨fun h => ?_, fun h => equalUnder_alike ht hu exact rfl h⟩
  exact equalUnder_alike ht.symm hu.symm (hu.alike.isExact exact) rfl h

end Tree

/-! ## Sort keys of selects that are alike -/

namespace Select

structure Resembles (s v : Select Tree) : Prop where
  label : v.label = s.label
  same : s.SameClauses (Tree.Rerouted SameRef) (Tree.Rerouted SameRef) v

def KeysAlike (ks ks' : List (SortKey Tree)) : Prop :=
  Forall₂ (fun k k' => k'.direction = k.direction ∧ k.value.Rerouted SameRef k'.value) ks ks'

variable {s v v' : Select Tree} {key key' : Tree} {lifted' : List (SortKey Tree)}

namespace Resembles

theorem ordered (h : s.Resembles v) {order order' : List (SortKey Tree)} (hkeys : KeysAlike order order') :
    Resembles (s.sortedBy order) (v.sortedBy order') :=
  ⟨h.label, { h.same with order := hkeys }⟩

theorem headers (h : s.Resembles v) : v.headers = s.headers := h.same.headers_eq

theorem delivered_eq (h : s.Resembles v) (env : Environment) (frames : Frames) :
    v.delivered env frames = s.delivered env frames :=
  (h.same.imp (fun _ _ _ h => h.sameMeaning) fun _ _ _ h => h.sameMeaning).delivered_eq

theorem sortColumnBase_eq (h : key.Rerouted SameRef key') : sortColumnBase key' = sortColumnBase key := by
  cases h with
  | column h => exact h.2
  | node column same => cases same <;> rfl

theorem sortColumn (h : s.Resembles v) (hkey : key.Rerouted SameRef key') (exact : key.IsExact)
    {k' : Tree} {c' : Column Tree} (hv : v.sortColumn key' = .ok (v', k', c')) :
    ∃ s' c, s.sortColumn key = .ok (s', key, c) ∧ s'.Resembles v' ∧ k' = key' ∧ c'.name = c.name := by
  have hfind : Option.Rel (fun c c' => c'.name = c.name ∧ c.value.Rerouted SameRef c'.value)
      (s.columns.find? fun c => c.value.equal key) (v.columns.find? fun c => c.value.equal key') := by
    refine find?_rel h.same.columns fun c c' hcc => ?_
    exact Tree.equal_alike hcc.2 hkey exact
  unfold Select.sortColumn at hv ⊢
  cases hs : s.columns.find? fun c => c.value.equal key with
  | some c =>
    cases hv' : v.columns.find? fun c => c.value.equal key' with
    | none => rw [hs, hv'] at hfind; cases hfind
    | some d =>
      rw [hs, hv'] at hfind
      rw [hv'] at hv
      cases hfind with
      | some hcd =>
      cases hv
      exact ⟨s, c, rfl, h, rfl, hcd.1⟩
  | none =>
    cases hv' : v.columns.find? fun c => c.value.equal key' with
    | some d => rw [hs, hv'] at hfind; cases hfind
    | none =>
      rw [hv'] at hv
      simp only [Tree.holdsIdentified_of_isExact (hkey.alike.isExact exact),
        Tree.holdsIdentified_of_isExact exact, h.same.distinct, h.headers, sortColumnBase_eq hkey,
        Bool.false_eq_true, if_false] at hv ⊢
      split at hv
      · cases hv
      · next hdistinct =>
        cases hv
        rw [if_neg hdistinct]
        refine ⟨_, _, rfl, ⟨h.label, ?_⟩, rfl, rfl⟩
        exact { h.same with columns := rel_append h.same.columns (.cons ⟨rfl, hkey⟩ .nil) }

theorem liftKey (h : s.Resembles v) {k k' k₁' l' : SortKey Tree} (direction : k'.direction = k.direction)
    (hkey : k.value.Rerouted SameRef k'.value) (exact : k.value.IsExact)
    (hv : v.liftKey k' = .ok (v', k₁', l')) :
    ∃ s' l, s.liftKey k = .ok (s', k, l) ∧ s'.Resembles v' ∧ k₁' = k' ∧ KeysAlike [l] [l'] := by
  obtain ⟨⟨v₁, t, c'⟩, hc, ⟨⟩⟩ := bind_eq_ok.1 hv
  obtain ⟨s₁, c, hs, hsv, rfl, hname⟩ := h.sortColumn hkey exact hc
  refine ⟨s₁, _, bind_eq_ok.2 ⟨_, hs, rfl⟩, hsv, rfl, .cons ⟨direction, .column ⟨hsv.label, ?_⟩⟩ .nil⟩
  exact (column?_getD_name _ c').trans (hname.trans (column?_getD_name _ c).symm)

theorem liftKeys (h : s.Resembles v) {ks ks' ks₁' : List (SortKey Tree)} (hkeys : KeysAlike ks ks')
    (exact : ∀ k ∈ ks, k.value.IsExact) (hv : v.liftKeys ks' = .ok (v', ks₁', lifted')) :
    ∃ s' lifted, s.liftKeys ks = .ok (s', ks, lifted) ∧ s'.Resembles v' ∧ ks₁' = ks' ∧
      KeysAlike lifted lifted' := by
  induction hkeys generalizing s v ks₁' lifted' with
  | nil =>
    cases hv
    exact ⟨s, [], rfl, h, rfl, .nil⟩
  | @cons k k' ks ks' hk _ ih =>
    obtain ⟨⟨v₁, k₁', l'⟩, h₁, hrest⟩ := bind_eq_ok.1 hv
    obtain ⟨⟨v₂, ks₂', ls'⟩, h₂, ⟨⟩⟩ := bind_eq_ok.1 hrest
    obtain ⟨s₁, l, hs₁, hsv₁, rfl, hl⟩ := h.liftKey hk.1 hk.2 (exact k mem_cons_self) h₁
    obtain ⟨s₂, ls, hs₂, hsv₂, rfl, hls⟩ := ih hsv₁ (fun k hk => exact k (.tail _ hk)) h₂
    exact ⟨s₂, l :: ls, bind_eq_ok.2 ⟨_, hs₁, bind_eq_ok.2 ⟨_, hs₂, rfl⟩⟩, hsv₂, rfl, rel_append hl hls⟩

theorem liftOrder (h : s.Resembles v) (exact : ∀ k ∈ s.order, k.value.IsExact)
    (hv : v.liftOrder = .ok (v', lifted')) :
    ∃ s' lifted, s.liftOrder = .ok (s', lifted) ∧ s'.Resembles v' ∧ KeysAlike lifted lifted' := by
  obtain ⟨⟨v₁, order', _⟩, hkeys, ⟨⟩⟩ := bind_eq_ok.1 hv
  obtain ⟨s₁, lifted, hs, hsv, rfl, hlifted⟩ := h.liftKeys h.same.order exact hkeys
  exact ⟨s₁.sortedBy s.order, lifted, bind_eq_ok.2 ⟨_, hs, rfl⟩, hsv.ordered h.same.order, hlifted⟩

end Resembles

theorem requireOrder_of_order (h : s.order ≠ []) : s.requireOrder = .ok (s, s.order) := by
  cases s
  rw [requireOrder, if_pos (by simpa using h)]

theorem requireOrder_of_source {t t' : Tree} {lifted : List (SortKey Tree)} (order : s.order = [])
    (group : s.group = []) (source : s.source = some t) (h : t.liftedOrder = .ok (t', lifted)) :
    s.requireOrder = .ok ({ s with source := some t' }, lifted) := by
  cases s
  cases order
  cases group
  cases source
  simp only [requireOrder, isEmpty_nil, Bool.not_true, Bool.false_eq_true, if_false, optionOrder, h]
  rfl

/-- Selects that are alike get their order in the same way. -/
theorem Resembles.requireOrder (h : s.Resembles v)
    (exact : ∀ b, s.OrderedBy b → ∀ key ∈ b.order, key.value.IsExact) {order' : List (SortKey Tree)}
    (hv : v.requireOrder = .ok (v', order')) :
    ∃ s' order, s.requireOrder = .ok (s', order) ∧ s'.Resembles v' ∧ KeysAlike order order' ∧
      ∀ key ∈ order, key.value.IsExact := by
  suffices hall : ∀ t : Tree, ∀ {s v v' i order'}, t = .select s i → s.Resembles v →
      (∀ b, s.OrderedBy b → ∀ key ∈ b.order, key.value.IsExact) →
      v.requireOrder = .ok (v', order') → ∃ s' order, s.requireOrder = .ok (s', order) ∧
        s'.Resembles v' ∧ KeysAlike order order' ∧ ∀ key ∈ order, key.value.IsExact from
    hall (.select s none) rfl h exact hv
  intro t
  induction t with
  | step t ih =>
    rintro s v v' i order' rfl h exact hv
    rcases requireOrder_cases hv with ⟨horder, rfl, rfl⟩ | ⟨horder, hgroup, b, b', hb, hlift, rfl⟩
    · have hne : s.order ≠ [] := fun hnil => horder (forall₂_nil_left_iff.1 (hnil ▸ h.same.order))
      exact ⟨s, s.order, requireOrder_of_order hne, h, h.same.order, exact s (.own hne)⟩
    · obtain ⟨inner', j', inner₁', keys', o', rfl, hrequire, hkeys, rfl⟩ := Tree.liftedOrder_cases hlift
      have horder : s.order = [] := forall₂_nil_right_iff.1 (horder ▸ h.same.order)
      have hgroup : s.group = [] := forall₂_nil_right_iff.1 (hgroup ▸ h.same.group)
      obtain ⟨inner, j, hsource, hinner⟩ : ∃ inner j, s.source = some (.select inner j) ∧
          inner.Resembles inner' := by
        obtain ⟨a, ha, hab⟩ := option_rel_exists h.same.source hb
        cases hab.symm.sameNode rfl with
        | select i j label same =>
          exact ⟨_, j, ha, label.symm, same.symm.imp (fun _ _ _ h => h.symm) fun _ _ _ h => h.symm⟩
      have hchild : Tree.select inner j ∈ (Tree.select s i).children := by
        simp [clauses, hsource]
      obtain ⟨inner₁, keys, hrequire₁, hinner₁, hkeys₁, hexact₁⟩ := ih _ hchild rfl hinner
        (fun b hb => exact b (.beneath horder hgroup hsource hb)) hrequire
      obtain ⟨o, lifted, hlifted, ho, hlifted'⟩ := (hinner₁.ordered hkeys₁).liftOrder hexact₁ hkeys
      have hlift₁ : (Tree.select inner j).liftedOrder = .ok (.select o none, lifted) := by
        simp only [Tree.liftedOrder, hrequire₁, bind, Except.bind, hlifted, pure, Except.pure]
      refine ⟨_, lifted, requireOrder_of_source horder hgroup hsource hlift₁, ⟨h.label, ?_⟩, hlifted',
        fun key hkey => ?_⟩
      · exact { h.same with
          source := .some (.of_sameNode (fun _ => ⟨rfl, rfl⟩) (.select none none ho.label ho.same)) }
      · obtain ⟨extra, -, hlifts⟩ := liftOrder_spec hexact₁ hlifted
        exact hlifts.forall_value (fun ref => (Tree.isLocal_column ref).exact) key hkey

end Select

end HiveQuery
