import HiveQuery.Proofs.Isolation
import Mathlib.Logic.Relation

/-!
# Where replaced columns lead to

While cross joins are isolated, each select that is put around a source takes over the columns of the one inside.
The selects around a source have ever greater aliases, so the way from a replaced column ends.
-/

namespace HiveQuery
open List Isolation HiveQuery.Tree

variable {first : Alias} {a w : Alias} {st m st' : Isolation} {t u : Tree}

/-! ## Which select reads from a source -/

/-- A select of the tree has the alias `w` and reads from the source `a`. -/
def Tree.Feeds (u : Tree) (a w : Alias) : Prop :=
  ∃ s i, .select s i ∈ u.subtrees ∧ s.label = w ∧ a ∈ s.sourceAliases

theorem Tree.feeds_iff : u.Feeds a w ↔
    (∃ s ∈ u.select?, s.label = w ∧ a ∈ s.sourceAliases) ∨ ∃ v ∈ u.children, v.Feeds a w := by
  constructor
  · rintro ⟨s, i, hs, hlabel, ha⟩
    rcases mem_subtrees.1 hs with rfl | ⟨v, hv, hs⟩
    · exact .inl ⟨s, rfl, hlabel, ha⟩
    · exact .inr ⟨v, hv, s, i, hs, hlabel, ha⟩
  · rintro (⟨s, hs, hlabel, ha⟩ | ⟨v, hv, s, i, hs, hlabel, ha⟩)
    · cases u with
      | select s' i =>
        cases hs
        exact ⟨s, i, mem_subtrees.2 (.inl rfl), hlabel, ha⟩
      | _ => cases hs
    · exact ⟨s, i, mem_subtrees.2 (.inr ⟨v, hv, hs⟩), hlabel, ha⟩

theorem Tree.select?_eq_some {s : Select Tree} (h : s ∈ u.select?) : ∃ i, u = .select s i := by
  cases u with
  | select s' i =>
    cases h
    exact ⟨i, rfl⟩
  | _ => cases h

theorem Tree.Feeds.declared (h : u.Feeds a w) : a ∈ u.children.flatMap declared ∧ w ∈ u.declared := by
  induction u with
  | step u ih =>
    rcases feeds_iff.1 h with ⟨s, hs, rfl, ha⟩ | ⟨v, hv, h⟩
    · obtain ⟨i, rfl⟩ := select?_eq_some hs
      obtain ⟨v, hv, ha⟩ := Select.mem_sourceAliases.1 ha
      refine ⟨mem_flatMap.2 ⟨v, Select.mem_clauses.2 (.inl hv), v.sources_sublist.subset ha⟩, ?_⟩
      rw [Select.declared_eq]
      exact mem_cons_self
    · obtain ⟨ha, hw⟩ := ih v hv h
      exact ⟨mem_flatMap.2 ⟨v, hv, v.children_declared_sublist.subset ha⟩, (declared_of_child hv).subset hw⟩

/-- A column `d` of a select of the tree passes on the column `c` of a source of that select. -/
def Tree.PassesOn (u : Tree) (c d : ColumnRef) : Prop :=
  ∃ s i, .select s i ∈ u.subtrees ∧ s.label = d.label ∧ c.label ∈ s.sourceAliases ∧
    ⟨d.name, .column c, d.columnType⟩ ∈ s.columns

theorem Tree.PassesOn.feeds {c d : ColumnRef} (h : u.PassesOn c d) : u.Feeds c.label d.label := by
  obtain ⟨s, i, hs, hlabel, hc, -⟩ := h
  exact ⟨s, i, hs, hlabel, hc⟩

theorem Tree.PassesOn.of_child {c d : ColumnRef} {v : Tree} (h : v.PassesOn c d) (hv : v ∈ u.children) :
    u.PassesOn c d :=
  h.imp fun _ => Exists.imp fun _ h => ⟨mem_subtrees.2 (.inr ⟨v, hv, h.1⟩), h.2⟩

/-! ## What is recorded -/

/-- A state before another one: what is replaced in between is replaced by columns of new selects. -/
structure Isolation.Before (m st' : Isolation) : Prop where
  next : m.next ≤ st'.next
  replaced : ∃ new, st'.replaced = new ++ m.replaced ∧ ∀ p ∈ new, m.next ≤ p.2.label

namespace Isolation.Before

theorem refl (st : Isolation) : st.Before st := ⟨le_rfl, [], rfl, by simp⟩

theorem trans (h : st.Before m) (h' : m.Before st') : st.Before st' := by
  obtain ⟨hnext, new, hnew, hlabel⟩ := h
  obtain ⟨hnext', new', hnew', hlabel'⟩ := h'
  refine ⟨hnext.trans hnext', new' ++ new, by rw [hnew', hnew, append_assoc], forall_mem_append.2 ⟨?_, hlabel⟩⟩
  exact fun p hp => hnext.trans (hlabel' p hp)

theorem subset (h : m.Before st') : ∀ p ∈ m.replaced, p ∈ st'.replaced := by
  obtain ⟨-, new, hnew, -⟩ := h
  rw [hnew]
  exact fun p hp => mem_append_right _ hp

theorem mem (h : m.Before st') {p : ColumnRef × ColumnRef} (hp : p ∈ st'.replaced) (hlt : p.2.label < m.next) :
    p ∈ m.replaced := by
  obtain ⟨-, new, hnew, hlabel⟩ := h
  rw [hnew] at hp
  exact (mem_append.1 hp).resolve_left fun hp => (hlabel p hp).not_gt hlt

end Isolation.Before

theorem Isolation.Extends.before {own : List Alias} (h : st.Extends own st') : st.Before st' := by
  obtain ⟨new, hnew, hlabel⟩ := h.replaced
  exact ⟨h.next, new, hnew, fun p hp => (hlabel p hp).2.2.1⟩

theorem Isolation.before_wrapping (m : Isolation) (u : Tree) : m.Before (m.wrapping u) := by
  refine ⟨Nat.le_succ _, _, rfl, fun p hp => ?_⟩
  obtain ⟨q, -, rfl⟩ := mem_map.1 (mem_reverse.1 hp)
  exact le_rfl

/-- What the state says after some trees were visited: a column is replaced by the column that passes it on, and
all columns of a new select are passed on in turn. -/
structure Isolation.Records (st : Isolation) (us : List Tree) (st' : Isolation) : Prop where
  passed : ∀ p ∈ st'.replaced, p ∈ st.replaced ∨ ∃ u ∈ us, u.PassesOn p.1 p.2
  exposed : ∀ p ∈ st'.replaced, ∀ u ∈ us, p.2.label ∈ u.sources → p.2 ∈ st'.columns
  carried : ∀ p ∈ st'.replaced, ∀ u ∈ us, ∀ w, st.next ≤ w → u.Feeds p.2.label w →
    ∃ q, (p.2, q) ∈ st'.replaced ∧ q.label = w

theorem Threaded.records {ts us : List Tree} (h : Threaded IsolatesTo ts st us st')
    (ih : ∀ t ∈ ts, ∀ st u st', t.IsolatesTo st u st' → st.Untouched first t.declared → st.Records [u] st')
    (hst : st.Untouched first (ts.flatMap declared)) : st.Records us st' := by
  induction h with
  | nil st => exact ⟨fun p hp => .inl hp, by simp, by simp⟩
  | @cons t st m st' u ts us head tail rest =>
    rw [flatMap_cons] at hst
    have ht := hst.sublist (sublist_append_left t.declared _)
    have hkeeps := keeps first t _ _ _ head ht
    have hm := hst.after hkeeps.extends_declared
    obtain ⟨hextends, hsupplied⟩ := tail.isolated (fun v _ => v.keeps first) hm
    have hbefore := hextends.before
    have hhead := ih t mem_cons_self _ _ _ head ht
    have hrest := rest (fun v hv => ih v (.tail _ hv)) hm
    have hlt : ∀ a ∈ u.declared, a < m.next := hkeeps.declared.lt fun a ha =>
      (ht.lt_next a ha).trans_le hkeeps.state.next
    refine ⟨fun p hp => ?_, fun p hp v hv hlabel => ?_, fun p hp v hv w hw hfeeds => ?_⟩
    · rcases hrest.passed p hp with hp | ⟨v, hv, hp⟩
      · exact (hhead.passed p hp).imp_right fun ⟨v, hv, hp⟩ => ⟨v, mem_cons.2 (.inl (mem_singleton.1 hv)), hp⟩
      · exact .inr ⟨v, .tail _ hv, hp⟩
    · rcases mem_cons.1 hv with rfl | hv
      · have hp := hbefore.mem hp (hlt _ (v.sources_sublist.subset hlabel))
        exact hextends.columns _ (hhead.exposed p hp v mem_cons_self hlabel)
      · exact hrest.exposed p hp v hv hlabel
    · rcases mem_cons.1 hv with rfl | hv
      · have hp := hbefore.mem hp (hlt _ (v.children_declared_sublist.subset hfeeds.declared.1))
        obtain ⟨q, hq, hlabel⟩ := hhead.carried p hp v mem_cons_self w hw hfeeds
        exact ⟨q, hbefore.subset _ hq, hlabel⟩
      · -- the select is new, so it was built after the head was visited
        refine hrest.carried p hp v hv w ?_ hfeeds
        have hmem := hsupplied.mem w (mem_flatMap.2 ⟨v, hv, hfeeds.declared.2⟩)
        refine hmem.elim (fun hold => absurd hw (not_le.2 ?_)) And.left
        exact hst.lt_next w (mem_append_right _ hold)

theorem Isolation.Records.node {columns : List ColumnRef} {parent : Option JoinKind}
    (h : Records ⟨st.next, columns, st.replaced, parent⟩ u.children m) (hfirst : first ≤ st.next)
    (hreplaced : st'.replaced = m.replaced) (hsound : st'.Sound first) (hown : ∀ a ∈ u.label?.toList, a < first)
    (hsources : (∀ a ∈ u.sources, a < first) ∨
      st'.columns = m.columns ∧ ∀ a ∈ u.sources, ∃ v ∈ u.children, a ∈ v.sources) :
    st.Records [u] st' where
  passed p hp := by
    rw [hreplaced] at hp
    exact (h.passed p hp).imp_right fun ⟨v, hv, hp⟩ => ⟨u, mem_cons_self, hp.of_child hv⟩
  exposed p hp v hv hlabel := by
    rw [mem_singleton.1 hv] at hlabel
    rcases hsources with hold | ⟨hcolumns, hchild⟩
    · exact absurd (hold _ hlabel) (not_lt.2 (hsound.pairs p hp).2.1)
    · obtain ⟨v, hv, hlabel⟩ := hchild _ hlabel
      rw [hreplaced] at hp
      exact hcolumns ▸ h.exposed p hp v hv hlabel
  carried p hp v hv w hw hfeeds := by
    rw [hreplaced] at hp ⊢
    rw [mem_singleton.1 hv] at hfeeds
    rcases feeds_iff.1 hfeeds with ⟨s, hs, rfl, -⟩ | ⟨v, hv, hfeeds⟩
    · obtain ⟨i, rfl⟩ := select?_eq_some hs
      exact absurd (hown _ mem_cons_self) (not_lt.2 (hfirst.trans hw))
    · exact h.carried p hp v hv w hw hfeeds

theorem Isolation.Records.wrap (h : st.Records [u] m) (hsound : m.Sound first) (hlt : ∀ a ∈ u.declared, a < m.next) :
    st.Records [.select (m.wrapper u) none] (m.wrapping u) := by
  have hbefore := m.before_wrapping u
  have hnew : ∀ p ∈ (m.wrapping u).replaced, p ∈ m.replaced ∨ ∃ q ∈ m.named u, p = (q.1, m.outer q) := by
    intro p hp
    refine (mem_append.1 hp).symm.imp_right fun hp => ?_
    obtain ⟨q, hq, rfl⟩ := mem_map.1 (mem_reverse.1 hp)
    exact ⟨q, hq, rfl⟩
  have hchild : u ∈ (select (m.wrapper u) none).children := Select.mem_clauses.2 (.inl rfl)
  refine ⟨fun p hp => ?_, fun p hp v hv hlabel => ?_, fun p hp v hv w hw hfeeds => ?_⟩
  · rcases hnew p hp with hp | ⟨q, hq, rfl⟩
    · exact (h.passed p hp).imp_right fun ⟨v, hv, hp⟩ =>
        ⟨_, mem_cons_self, hp.of_child (mem_singleton.1 hv ▸ hchild)⟩
    · exact .inr ⟨_, mem_cons_self, _, none, mem_subtrees.2 (.inl rfl), rfl, (mem_of_named hq).2, mem_map_of_mem hq⟩
  · rw [mem_singleton.1 hv] at hlabel
    rcases hnew p hp with hp | ⟨q, hq, rfl⟩
    · exact absurd (mem_singleton.1 hlabel) (hsound.pairs p hp).2.2.ne
    · exact mem_append_right _ (mem_map_of_mem hq)
  · rw [mem_singleton.1 hv] at hfeeds
    rcases feeds_iff.1 hfeeds with ⟨_, ⟨rfl⟩, rfl, hlabel⟩ | ⟨v, hv, hfeeds⟩
    · have hp := hbefore.mem hp (hlt _ (u.sources_sublist.subset hlabel))
      obtain ⟨q, hq, hlabel⟩ := exists_named (h.exposed p hp u mem_cons_self hlabel) hlabel
      exact ⟨m.outer q, mem_append_left _ (mem_reverse.2 (mem_map.2 ⟨q, hq, by rw [hlabel]⟩)), rfl⟩
    · rcases Select.mem_clauses.1 hv with hv | hv
      · obtain rfl : u = v := Option.some.inj hv
        have hp := hbefore.mem hp (hlt _ (u.children_declared_sublist.subset hfeeds.declared.1))
        obtain ⟨q, hq, hlabel⟩ := h.carried p hp u mem_cons_self w hw hfeeds
        exact ⟨q, hbefore.subset _ hq, hlabel⟩
      · obtain ⟨d, hd, rfl⟩ := mem_map.1 hv
        obtain ⟨q, -, rfl⟩ := mem_map.1 hd
        exact absurd hfeeds.declared.1 not_mem_nil

theorem JoinStep.records (h : JoinStep t st u st')
    (ih : ∀ v ∈ t.children, ∀ st u st', v.IsolatesTo st u st' → st.Untouched first v.declared → st.Records [u] st')
    (hst : st.Untouched first t.declared) : st.Records [u] st' := by
  have hsound := (h.isolated (fun v _ => v.keeps first) hst).state.sound hst.sound
  cases h with
  | @mk kind l r l' r' c c' i j _ m form children =>
    have hchildren : Untouched first { st with parent := some kind }
        ((join ⟨kind, l, r, c⟩ i).children.flatMap declared) :=
      (hst.sublist (children_declared_sublist _)).of_eq rfl rfl
    refine (children.records ih hchildren).node (u := .join ⟨kind, l', r', c'⟩ j) hst.sound.start rfl hsound nofun
      (.inr ⟨rfl, fun a ha => ?_⟩)
    rcases mem_append.1 ha with ha | ha
    · exact ⟨l', mem_cons_self, ha⟩
    · exact ⟨r', .tail _ (.head _), ha⟩

theorem Tree.records (first : Alias) (t : Tree) (st : Isolation) (u : Tree) (st' : Isolation)
    (h : t.IsolatesTo st u st') (hst : st.Untouched first t.declared) : st.Records [u] st' := by
  induction t generalizing st u st' with
  | step t ih =>
    have hfirst := hst.sound.start
    have hchildren := hst.sublist t.children_declared_sublist
    have hsound := (keeps first t _ _ _ h hst).state.sound hst.sound
    have hown : ∀ a ∈ t.label?.toList, a < first := fun a ha => hst.below a (by
      rw [t.declared_eq]
      exact mem_append_left _ ha)
    cases h.step with
    | column c =>
      have h : st.Records [] st := ⟨fun p hp => .inl hp, by simp, by simp⟩
      exact .node (u := .column _) h hfirst rfl hsound nofun (.inl nofun)
    | @select s s' i j _ m label same clauses =>
      have hlabel : ∀ a ∈ [s'.label], a < first := label ▸ hown
      have h := clauses.records ih (hchildren.of_eq rfl rfl)
      exact h.node (u := .select s' j) hfirst rfl hsound hlabel (.inl hlabel)
    | join step => exact step.records ih hst
    | @wrap _ v _ m _ step =>
      have hv := step.isolated (fun v _ => v.keeps first) hst
      exact (step.records ih hst).wrap (hv.state.sound hst.sound)
        (hv.declared.lt fun a ha => (hst.lt_next a ha).trans_le hv.state.next)
    | node select join column same children =>
      rw [← same.label?] at hown
      have hsources := sources_eq_label? (same.isJoin.trans join)
      exact (children.records ih hchildren).node hfirst rfl hsound hown (.inl (hsources ▸ hown))

/-! ## The states of a visit -/

/-- The state in which the children of a node are visited. -/
def Isolation.entering (st : Isolation) : Tree → Isolation
  | .select s i => { st with columns := (Tree.select s i).readColumns, parent := none }
  | .join j _ => { st with parent := some j.kind }
  | _ => st

/-- The state after some trees were visited one after the other. -/
def Isolation.after (st : Isolation) (ts : List Tree) : Isolation :=
  ts.foldl (fun st t => ((t.visit isolation).run st).2) st

/-- The states of a visit: the first one, the last one, and those of the visits of the children. -/
inductive Tree.Reaches : Tree → Isolation → Isolation → Prop
  | enter (t : Tree) (st : Isolation) : Reaches t st st
  | leave (t : Tree) (st : Isolation) : Reaches t st ((t.visit isolation).run st).2
  | child {t a : Tree} {before after : List Tree} {st m : Isolation} (place : t.children = before ++ a :: after)
      (visit : Reaches a ((st.entering t).after before) m) : Reaches t st m

theorem Tree.IsolatesTo.children (h : t.IsolatesTo st u st') :
    ∃ us m, Threaded IsolatesTo t.children (st.entering t) us m ∧ m.Before st' := by
  cases h.step with
  | column c => exact ⟨[], st, .nil st, .refl st⟩
  | select label same clauses => exact ⟨_, _, clauses, ⟨le_rfl, [], rfl, by simp⟩⟩
  | join step =>
    cases step with
    | mk _ children => exact ⟨_, _, children, ⟨le_rfl, [], rfl, by simp⟩⟩
  | wrap _ step =>
    cases step with
    | @mk _ _ _ _ _ _ _ _ _ _ m _ children =>
      have hwrapping := before_wrapping { m with parent := st.parent }
      exact ⟨_, _, children, ⟨(hwrapping _).next, (hwrapping _).replaced⟩⟩
  | node select join column same children =>
    have hentering : st.entering t = st := by
      cases t <;> simp_all [entering, isSelect, isJoin]
    exact ⟨_, _, hentering.symm ▸ children, .refl _⟩

theorem Threaded.after {before rest us : List Tree} (h : Threaded IsolatesTo (before ++ rest) st us st') :
    ∃ vs ws, Threaded IsolatesTo before st vs (st.after before) ∧
      Threaded IsolatesTo rest (st.after before) ws st' := by
  induction before generalizing st us with
  | nil => exact ⟨[], us, .nil st, h⟩
  | cons t before ih =>
    cases h with
    | @cons _ _ m _ u _ us head tail =>
      obtain rfl : ((t.visit isolation).run st).2 = m := congrArg Prod.snd head
      obtain ⟨vs, ws, hvs, hws⟩ := ih tail
      exact ⟨u :: vs, ws, .cons head hvs, hws⟩

theorem Tree.Reaches.before (h : t.Reaches st m) (hst : st.Untouched first t.declared) :
    m.Sound first ∧ m.Before ((t.visit isolation).run st).2 := by
  induction h with
  | enter t st => exact ⟨hst.sound, (keeps first t st _ _ rfl hst).state.before⟩
  | leave t st => exact ⟨(keeps first t st _ _ rfl hst).state.sound hst.sound, .refl _⟩
  | @child t a before after st m place visit ih =>
    have hvisit : t.IsolatesTo st _ _ := rfl
    obtain ⟨us, end', hchildren, hend⟩ := hvisit.children
    have hst₀ : (st.entering t).Untouched first (t.children.flatMap declared) :=
      (hst.sublist t.children_declared_sublist).of_eq (by cases t <;> rfl) (by cases t <;> rfl)
    rw [place] at hchildren
    rw [place, flatMap_append] at hst₀
    obtain ⟨vs, ws, hbefore, hrest⟩ := hchildren.after
    have hst₁ := hst₀.after (hbefore.isolated (fun v _ => v.keeps first) (hst₀.sublist (sublist_append_left _ _))).1
    rw [flatMap_cons] at hst₁
    have ha := hst₁.sublist (sublist_append_left a.declared _)
    obtain ⟨hsound, hm⟩ := ih ha
    refine ⟨hsound, hm.trans (.trans ?_ hend)⟩
    cases hrest with
    | cons head tail =>
      obtain rfl := congrArg Prod.snd head
      have hkeeps := (keeps first a _ _ _ head ha).extends_declared
      exact (tail.isolated (fun v _ => v.keeps first) (hst₁.after hkeeps)).1.before

/-! ## Where columns lead to -/

/-- One of the selects with aliases from `first` to below `next` reads from a source. -/
def Tree.WrappedBy (u : Tree) (first next a w : Alias) : Prop :=
  first ≤ w ∧ w < next ∧ u.Feeds a w

/-- The outermost of the selects with aliases from `first` to below `next` around a source: none of them is around
it in turn. -/
def Tree.Outermost (u : Tree) (first next a w : Alias) : Prop :=
  Relation.TransGen (u.WrappedBy first next) a w ∧ ∀ x, ¬ u.WrappedBy first next w x

theorem Leads.outermost {c d e : ColumnRef} {next : Alias} (h : Leads st.replaced d e)
    (hpairs : ∀ p ∈ st.replaced, u.WrappedBy first next p.1.label p.2.label) (hd : (c, d) ∈ st.replaced)
    (hcarried : ∀ p ∈ st.replaced, ∀ w, u.WrappedBy first next p.2.label w → st.replaced.lookup p.2 ≠ none) :
    u.Outermost first next c.label e.label := by
  induction h generalizing c with
  | @stop d hstop => exact ⟨.single (hpairs _ hd), fun w hw => hcarried _ hd w hw hstop⟩
  | @step d x e hx _ ih =>
    obtain ⟨hchain, hend⟩ := ih (mem_of_lookup hx)
    exact ⟨.head (hpairs _ hd) hchain, hend⟩

/-- In every state of the isolation of a tree whose aliases are declared once, with new aliases from `first` on, a
column is replaced by a column that passes it on, of a select with a new alias that is greater than its own. So the
way from any column ends where it is followed to, and from a column that is replaced it ends at a column of the
outermost select that was put around its source so far. -/
theorem Tree.isolateCrossJoins_leads (t : Tree) (first : Alias) (nodup : t.declared.Nodup)
    (below : ∀ a ∈ t.declared, a < first) (st : Isolation) (h : t.Reaches ⟨first, [], [], none⟩ st) :
    (∀ c d, (c, d) ∈ st.replaced → c.label < d.label ∧ first ≤ d.label ∧ d.label < st.next ∧
      (t.isolateCrossJoins first).1.PassesOn c d) ∧
    ∀ c, Leads st.replaced c (followReplaced st.replaced (st.replaced.length + 1) c) ∧
      (st.replaced.lookup c ≠ none → (t.isolateCrossJoins first).1.Outermost first st.next c.label
        (followReplaced st.replaced (st.replaced.length + 1) c).label) := by
  let start : Isolation := ⟨first, [], [], none⟩
  obtain ⟨u, st', hvisit⟩ : ∃ u st', t.IsolatesTo start u st' := ⟨_, _, rfl⟩
  have hu : (t.isolateCrossJoins first).1 = u := congrArg Prod.fst hvisit
  have hst' : ((t.visit isolation).run start).2 = st' := congrArg Prod.snd hvisit
  have hstart : start.Untouched first t.declared := ⟨⟨le_rfl, by simp [start]⟩, nodup, below, by simp [start]⟩
  have hrecords := t.records first start u st' hvisit hstart
  obtain ⟨hsound, hbefore⟩ := h.before hstart
  rw [hst'] at hbefore
  rw [hu]
  have hpasses : ∀ p ∈ st.replaced, u.PassesOn p.1 p.2 := fun p hp => by
    simpa [start] using hrecords.passed p (hbefore.subset p hp)
  have hpairs : ∀ p ∈ st.replaced, u.WrappedBy first st.next p.1.label p.2.label := fun p hp =>
    ⟨(hsound.pairs p hp).2.1, (hsound.pairs p hp).2.2, (hpasses p hp).feeds⟩
  refine ⟨fun c d hd => ⟨(hsound.pairs _ hd).1, (hsound.pairs _ hd).2.1, (hsound.pairs _ hd).2.2, hpasses _ hd⟩,
    fun c => ⟨hsound.leads c, fun hc => ?_⟩⟩
  have hcarried : ∀ p ∈ st.replaced, ∀ w, u.WrappedBy first st.next p.2.label w → st.replaced.lookup p.2 ≠ none := by
    rintro p hp w ⟨hfirst, hnext, hfeeds⟩
    obtain ⟨q, hq, rfl⟩ := hrecords.carried p (hbefore.subset p hp) u mem_cons_self w hfirst hfeeds
    rw [← Option.isSome_iff_ne_none, lookup_isSome_iff]
    exact ⟨_, hbefore.mem hq hnext, beq_self_eq_true _⟩
  have hleads := hsound.leads c
  generalize followReplaced st.replaced (st.replaced.length + 1) c = e at hleads ⊢
  cases hleads with
  | stop hnone => exact absurd hnone hc
  | step hd hrest => exact hrest.outermost hpairs (mem_of_lookup hd) hcarried

/-- Stock and its items in every store, joined with sales: a join in a cross join in a join. -/
def stockedStores : Tree :=
  let column (a : Alias) : Tree := .column ⟨.int64, default, a, "id"⟩
  let same (a b : Alias) : Option Tree := some (.binary .equal (column a) (column b))
  .select
    { label := 4
      columns := [⟨"id", column 0, default⟩]
      source := some (.join ⟨.inner, .join ⟨.cross, .join ⟨.inner, .table 0 "stock", .table 1 "items", same 0 1⟩ none,
        .table 2 "stores", none⟩ none, .table 3 "sales", same 2 3⟩ none) } none

theorem Tree.isolateCrossJoins_leads_stockedStores :
    let st := ((stockedStores.visit isolation).run ⟨5, [], [], none⟩).2
    let c : ColumnRef := ⟨.int64, default, 0, "id"⟩
    let d := followReplaced st.replaced (st.replaced.length + 1) c
    d.label = 6 ∧ st.replaced.lookup c ≠ none ∧ st.replaced.lookup c ≠ some d ∧
      (stockedStores.isolateCrossJoins 5).1.Outermost 5 st.next c.label d.label := by
  intro st c d
  have hc : st.replaced.lookup c ≠ none := by decide +kernel
  have hleads := isolateCrossJoins_leads stockedStores 5 (by decide +kernel) (by decide +kernel) st (.leave _ _)
  exact ⟨by decide +kernel, hc, by decide +kernel, (hleads.2 c).2 hc⟩

end HiveQuery
