import HiveQuery.Lower.Isolate
import HiveQuery.Proofs.LiftedOrder

/-!
# The state of isolation

A column that is replaced more than once leads through a chain of selects. What one visit adds to the state concerns
the aliases that it meets and those that it draws.
-/

namespace HiveQuery

variable {st' : Isolation} {replaced : List (ColumnRef × ColumnRef)}
open List Isolation HiveQuery.Tree

variable {first : Alias} {c : ColumnRef} {st : Isolation} {t u : Tree}

/-! ## Chains of replacements -/

/-- A column is replaced, step by step, until it is the other column, which is not. -/
inductive Leads (replaced : List (ColumnRef × ColumnRef)) : ColumnRef → ColumnRef → Prop
  | stop {c : ColumnRef} : replaced.lookup c = none → Leads replaced c c
  | step {c d e : ColumnRef} : replaced.lookup c = some d → Leads replaced d e → Leads replaced c e

theorem mem_of_lookup {d : ColumnRef} (h : replaced.lookup c = some d) : (c, d) ∈ replaced := by
  obtain ⟨before, after, rfl, _⟩ := lookup_eq_some_iff.1 h
  simp

theorem lookup_eq_none_of_label (h : ∀ p ∈ replaced, p.1.label ≠ c.label) : replaced.lookup c = none := by
  rw [lookup_eq_none_iff]
  intro p hp
  rw [bne_iff_ne]
  rintro rfl
  exact h p hp rfl

theorem followReplaced_leads (ascending : ∀ p ∈ replaced, p.1.label < p.2.label) {n : Nat}
    (h : (replaced.countP fun p => c.label ≤ p.1.label) ≤ n) :
    Leads replaced c (followReplaced replaced n c) := by
  induction n generalizing c with
  | zero =>
    refine .stop (lookup_eq_none_iff.2 fun p hp => ?_)
    have hp := countP_eq_zero.1 (Nat.le_zero.1 h) p hp
    rw [bne_iff_ne]
    rintro rfl
    simp at hp
  | succ n ih =>
    unfold followReplaced
    split
    · next d hd =>
      refine .step hd (ih ?_)
      have hlt : c.label < d.label := ascending _ (mem_of_lookup hd)
      obtain ⟨before, after, rfl, _⟩ := lookup_eq_some_iff.1 hd
      -- the replacement of `c` is counted for `c` but not for what replaces it
      have mono : ∀ l : List (ColumnRef × ColumnRef),
          (l.countP fun p => d.label ≤ p.1.label) ≤ l.countP fun p => c.label ≤ p.1.label :=
        fun l => countP_mono_left fun p _ hp => by
          rw [decide_eq_true_eq] at hp ⊢
          exact hlt.le.trans hp
      have hbefore := mono before
      have hafter := mono after
      rw [countP_append, countP_cons_of_pos (by simp)] at h
      rw [countP_append, countP_cons_of_neg (by simpa using hlt)]
      omega
    · next hnone => exact .stop hnone

namespace Leads

variable {old new : List (ColumnRef × ColumnRef)} {c d e : ColumnRef}

theorem unique (h : Leads old c d) (h' : Leads old c e) : d = e := by
  induction h with
  | stop hc =>
    cases h' with
    | stop => rfl
    | step hd _ => simp [hc] at hd
  | step hd _ ih =>
    cases h' with
    | stop hc => simp [hc] at hd
    | step hd' h' =>
      rw [hd, Option.some.injEq] at hd'
      subst hd'
      exact ih h'

theorem frame {own : Alias → Prop} (h : Leads old c e) (hc : ¬ own c.label)
    (hold : ∀ p ∈ old, ¬ own p.2.label) (hnew : ∀ p ∈ new, own p.1.label) :
    Leads (new ++ old) c e := by
  have hnone : ∀ x : ColumnRef, ¬ own x.label → new.lookup x = none := fun x hx =>
    lookup_eq_none_of_label fun p hp hlabel => hx (hlabel ▸ hnew p hp)
  induction h with
  | stop hx =>
    refine .stop ?_
    rw [lookup_append, hnone _ hc, hx]
    rfl
  | step hd _ ih =>
    refine .step ?_ (ih (hold _ (mem_of_lookup hd)))
    rw [lookup_append, hnone _ hc, hd]
    rfl

theorem extend {own : List Alias} (h : Leads old c d) (hold : ∀ p ∈ old, p.1.label ∉ own)
    (hnew : ∀ p ∈ new, p.1.label ∈ own) (hd : new.lookup d = some e)
    (he : (new ++ old).lookup e = none) : Leads (new ++ old) c e := by
  induction h with
  | stop _ => exact .step (by rw [lookup_append, hd]; rfl) (.stop he)
  | @step x y _ hy _ ih =>
    refine .step ?_ (ih hd)
    have hx : new.lookup x = none := lookup_eq_none_of_label fun p hp hlabel =>
      hold _ (mem_of_lookup hy) (hlabel ▸ hnew p hp)
    rw [lookup_append, hx, hy]
    rfl

end Leads

/-! ## What the state says -/

/-- Replacements lead to later selects, all of them new. -/
structure Isolation.Sound (first : Alias) (st : Isolation) : Prop where
  start : first ≤ st.next
  pairs : ∀ p ∈ st.replaced, p.1.label < p.2.label ∧ first ≤ p.2.label ∧ p.2.label < st.next

/-- A state after another one, with more replacements for the given aliases and for new ones. -/
structure Isolation.Extends (st : Isolation) (own : List Alias) (st' : Isolation) : Prop where
  next : st.next ≤ st'.next
  columns : ∀ c ∈ st.columns, c ∈ st'.columns
  parent : st'.parent = st.parent
  replaced : ∃ new, st'.replaced = new ++ st.replaced ∧
    ∀ p ∈ new, (p.1.label ∈ own ∨ st.next ≤ p.1.label) ∧ p.1.label < p.2.label ∧
      st.next ≤ p.2.label ∧ p.2.label < st'.next

theorem Isolation.Sound.leads (h : st.Sound first) (c : ColumnRef) :
    Leads st.replaced c (followReplaced st.replaced (st.replaced.length + 1) c) :=
  followReplaced_leads (fun p hp => (h.pairs p hp).1) (Nat.le_succ_of_le countP_le_length)

namespace Isolation.Extends

variable {first : Alias} {st m st' : Isolation} {own own' : List Alias}

theorem refl (st : Isolation) : st.Extends [] st where
  next := le_rfl
  columns _ hc := hc
  parent := rfl
  replaced := ⟨[], rfl, by simp⟩

theorem trans (h : st.Extends own m) (h' : m.Extends own' st') : st.Extends (own ++ own') st' where
  next := h.next.trans h'.next
  columns c hc := h'.columns c (h.columns c hc)
  parent := h'.parent.trans h.parent
  replaced := by
    obtain ⟨new, hm, hnew⟩ := h.replaced
    obtain ⟨new', hst', hnew'⟩ := h'.replaced
    refine ⟨new' ++ new, by rw [hst', hm, append_assoc], fun p hp => ?_⟩
    rcases mem_append.1 hp with hp | hp
    · obtain ⟨hlabel, hlt, hnext, hnext'⟩ := hnew' p hp
      exact ⟨hlabel.imp (mem_append_right _) h.next.trans, hlt, h.next.trans hnext, hnext'⟩
    · obtain ⟨hlabel, hlt, hnext, hnext'⟩ := hnew p hp
      exact ⟨hlabel.imp_left (mem_append_left _), hlt, hnext, hnext'.trans_le h'.next⟩

theorem mono (h : st.Extends own st') (hown : ∀ a ∈ own, a ∈ own' ∨ st.next ≤ a) : st.Extends own' st' :=
  { h with
    replaced := by
      obtain ⟨new, hst', hnew⟩ := h.replaced
      exact ⟨new, hst', fun p hp => ⟨(hnew p hp).1.elim (hown _) .inr, (hnew p hp).2⟩⟩ }

theorem sound (h : st.Extends own st') (hst : st.Sound first) : st'.Sound first where
  start := hst.start.trans h.next
  pairs := by
    intro p hp
    obtain ⟨new, hst', hnew⟩ := h.replaced
    rw [hst'] at hp
    rcases mem_append.1 hp with hp | hp
    · obtain ⟨-, hlt, hnext, hnext'⟩ := hnew p hp
      exact ⟨hlt, hst.start.trans hnext, hnext'⟩
    · obtain ⟨hlt, hstart, hnext⟩ := hst.pairs p hp
      exact ⟨hlt, hstart, hnext.trans_le h.next⟩

theorem leads (h : st.Extends own st') (hst : st.Sound first) (hown : ∀ a ∈ own, a < first) {d : ColumnRef}
    (hc : c.label ∉ own) (hlt : c.label < st.next) (hcd : Leads st.replaced c d) :
    Leads st'.replaced c d := by
  obtain ⟨new, hst', hnew⟩ := h.replaced
  rw [hst']
  let met : Alias → Prop := fun a => a ∈ own ∨ st.next ≤ a
  have hc : ¬ met c.label := by
    rintro (h | h)
    · exact hc h
    · exact h.not_gt hlt
  have hmet : ∀ p ∈ new, met p.1.label := fun p hp => (hnew p hp).1
  refine hcd.frame hc (fun p hp hlabel => ?_) hmet
  obtain ⟨-, hstart, hnext⟩ := hst.pairs p hp
  rcases hlabel with h | h
  · exact hstart.not_gt (hown _ h)
  · exact h.not_gt hnext

theorem unread (h : st.Extends own st') {aliases : List Alias}
    (hst : ∀ p ∈ st.replaced, p.1.label ∉ aliases) (hown : ∀ a ∈ own, a ∉ aliases)
    (hlt : ∀ a ∈ aliases, a < st.next) : ∀ p ∈ st'.replaced, p.1.label ∉ aliases := by
  intro p hp hmem
  obtain ⟨new, hst', hnew⟩ := h.replaced
  rw [hst'] at hp
  rcases mem_append.1 hp with hp | hp
  · rcases (hnew p hp).1 with h | h
    · exact hown _ h hmem
    · exact h.not_gt (hlt _ hmem)
  · exact hst p hp hmem

end Isolation.Extends

/-! ## Putting a join into a select -/

theorem freeNames_spec (bases : List String) :
    (freeNames bases).Nodup ∧ (freeNames bases).length = bases.length := by
  induction bases using reverseRecOn with
  | nil => exact ⟨nodup_nil, rfl⟩
  | append_singleton bases base ih =>
    have hlast : freeNames (bases ++ [base]) = (freeNames bases).concat (freeName (freeNames bases) base) := by
      rw [freeNames, foldl_append, concat_eq_append]
      rfl
    rw [hlast, nodup_concat, length_concat, ih.2, length_append]
    exact ⟨⟨freeName_not_mem _ base, ih.1⟩, rfl⟩

namespace Isolation

variable (st : Isolation) (u : Tree)

def named : List (ColumnRef × String) :=
  let picked := columnsOf u.sources st.columns
  picked.zip (freeNames (picked.map ColumnRef.name))

def outer (p : ColumnRef × String) : ColumnRef :=
  { p.1 with label := st.next, name := p.2 }

def wrapper : Select Tree where
  label := st.next
  columns := (st.named u).map fun p => ⟨p.2, .column p.1, p.1.columnType⟩
  source := some u

def wrapping : Isolation where
  next := st.next + 1
  columns := st.columns ++ (st.named u).map st.outer
  replaced := ((st.named u).map fun p => (p.1, st.outer p)).reverse ++ st.replaced
  parent := st.parent

theorem isolateJoin_run : (isolateJoin u).run st = (.select (st.wrapper u) none, st.wrapping u) := by
  have hpairs (as : List ColumnRef) (names : List String) :
      as.zip ((as.zip names).map st.outer) = (as.zip names).map fun p => (p.1, st.outer p) := by
    apply ext_getElem <;> simp
  unfold wrapping named
  rw [← hpairs]
  rfl

variable {st u}

theorem mem_columnsOf {sources : List Alias} {columns : List ColumnRef} :
    c ∈ columnsOf sources columns ↔ c ∈ columns ∧ c.label ∈ sources := by
  simp only [columnsOf, mem_flatMap, mem_filter, beq_iff_eq]
  constructor
  · rintro ⟨a, ha, hc, rfl⟩
    exact ⟨hc, ha⟩
  · exact fun h => ⟨c.label, h.2, h.1, rfl⟩

theorem mem_of_named {p : ColumnRef × String} (h : p ∈ st.named u) :
    p.1 ∈ st.columns ∧ p.1.label ∈ u.sources :=
  mem_columnsOf.1 (of_mem_zip h).1

theorem exists_named (hc : c ∈ st.columns) (hlabel : c.label ∈ u.sources) : ∃ p ∈ st.named u, p.1 = c := by
  have hlength : (columnsOf u.sources st.columns).length ≤
      (freeNames ((columnsOf u.sources st.columns).map ColumnRef.name)).length := by
    rw [(freeNames_spec _).2, length_map]
  have h : c ∈ (st.named u).map Prod.fst := by
    rw [named, map_fst_zip hlength]
    exact mem_columnsOf.2 ⟨hc, hlabel⟩
  obtain ⟨p, hp, rfl⟩ := mem_map.1 h
  exact ⟨p, hp, rfl⟩

theorem headers_wrapper_nodup (st : Isolation) (u : Tree) : (st.wrapper u).headers.Nodup := by
  have hheaders : (st.wrapper u).headers = (st.named u).map Prod.snd := by
    rw [Select.headers, wrapper, map_map]
    rfl
  rw [hheaders, named, map_snd_zip (by rw [(freeNames_spec _).2, length_map])]
  exact (freeNames_spec _).1

end Isolation

/-! ## Visits -/

def Tree.IsolatesTo (t : Tree) (st : Isolation) (u : Tree) (st' : Isolation) : Prop :=
  (Outcome.state Isolation).visits isolation t st u st'

inductive JoinStep : Tree → Isolation → Tree → Isolation → Prop
  | mk {kind : JoinKind} {l r l' r' : Tree} {c c' : Option Tree} {i j : Option Identity}
      {st m : Isolation} (form : c'.isSome = c.isSome)
      (children : Threaded Tree.IsolatesTo (l :: r :: c.toList) { st with parent := some kind }
        (l' :: r' :: c'.toList) m) :
      JoinStep (.join ⟨kind, l, r, c⟩ i) st (.join ⟨kind, l', r', c'⟩ j) { m with parent := st.parent }

/-- What a visit does at each kind of node. -/
inductive IsolationStep : Tree → Isolation → Tree → Isolation → Prop
  | column (c : ColumnRef) (st : Isolation) : IsolationStep (.column c) st
      (.column (followReplaced st.replaced (st.replaced.length + 1) c)) st
  | select {s s' : Select Tree} {i j : Option Identity} {st m : Isolation}
      (label : s'.label = s.label) (same : s.SameClauses (fun _ _ => True) (fun _ _ => True) s')
      (clauses : Threaded Tree.IsolatesTo s.clauses
        { st with columns := (Tree.select s i).readColumns, parent := none } s'.clauses m) :
      IsolationStep (.select s i) st (.select s' j) { m with columns := st.columns, parent := st.parent }
  | join {t u : Tree} {st st' : Isolation} (step : JoinStep t st u st')
      (unmixed : ∀ j ∈ t.join?, mixes j.kind st.parent = false) : IsolationStep t st u st'
  | wrap {t u : Tree} {st m : Isolation} (mixed : ∃ j ∈ t.join?, mixes j.kind st.parent = true)
      (step : JoinStep t st u m) :
      IsolationStep t st (.select (m.wrapper u) none) (m.wrapping u)
  | node {t u : Tree} {st st' : Isolation} (select : t.isSelect = false) (join : t.isJoin = false)
      (column : t.column? = none) (same : t.SameNode (fun _ _ => True) u)
      (children : Threaded Tree.IsolatesTo t.children st u.children st') : IsolationStep t st u st'

theorem Tree.IsolatesTo.step (h : t.IsolatesTo st u st') : IsolationStep t st u st' := by
  obtain ⟨rebuilt, hvisit, hrebuilt⟩ := visit_gives (.state Isolation) isolation t fun _ _ => rfl
  unfold IsolatesTo Outcome.visits at h
  rw [hvisit] at h
  cases t with
  | select s i =>
    rcases hrun : rebuilt.run { st with columns := (select s i).readColumns, parent := none } with
      ⟨v, m⟩
    have h : (v, { m with columns := st.columns, parent := st.parent }) = (u, st') := by
      rw [← h]
      show _ = (fun p : Tree × Isolation =>
        (p.1, { p.2 with columns := st.columns, parent := st.parent })) (rebuilt.run _)
      rw [hrun]
    obtain ⟨rfl, rfl⟩ := Prod.mk.inj h
    obtain ⟨hsame, hchildren, -⟩ := hrebuilt hrun
    cases hsame with
    | select _ j hlabel hsame => exact .select hlabel hsame hchildren
  | join j i =>
    rcases hrun : rebuilt.run { st with parent := some j.kind } with ⟨v, m⟩
    have h : (if mixes j.kind st.parent then isolateJoin v else return v).run
        { m with parent := st.parent } = (u, st') := by
      rw [← h]
      show _ = (fun p : Tree × Isolation =>
        (if mixes j.kind st.parent then isolateJoin p.1 else return p.1).run
          { p.2 with parent := st.parent }) (rebuilt.run _)
      rw [hrun]
    obtain ⟨hsame, hchildren, -⟩ := hrebuilt hrun
    cases hsame with
    | join kind _ i' _ _ hc =>
      have hstep := JoinStep.mk (i := i) (j := i') (option_isSome_eq hc) hchildren
      split at h
      · next hmixes =>
        rw [isolateJoin_run] at h
        obtain ⟨rfl, rfl⟩ := Prod.mk.inj h
        exact .wrap ⟨_, rfl, hmixes⟩ hstep
      · next hmixes =>
        obtain ⟨rfl, rfl⟩ := Prod.mk.inj h
        exact .join hstep fun _ hj => Option.some.inj hj ▸ Bool.eq_false_iff.2 hmixes
  | column c =>
    obtain ⟨rfl, rfl⟩ := Prod.mk.inj h
    exact .column c st
  | _ =>
    obtain ⟨hsame, hchildren, -⟩ := hrebuilt h
    exact .node rfl rfl rfl hsame hchildren

/-! ## What a visit keeps -/

/-- Aliases that are declared once and are older than all replacements. -/
structure Isolation.Untouched (first : Alias) (st : Isolation) (aliases : List Alias) : Prop where
  sound : st.Sound first
  nodup : aliases.Nodup
  below : ∀ a ∈ aliases, a < first
  unread : ∀ p ∈ st.replaced, p.1.label ∉ aliases

namespace Isolation.Untouched

variable {first : Alias} {st st' : Isolation} {aliases own rest : List Alias}

theorem lt_next (h : st.Untouched first aliases) : ∀ a ∈ aliases, a < st.next := fun a ha =>
  (h.below a ha).trans_le h.sound.start

theorem sublist (h : st.Untouched first aliases) (hsub : own.Sublist aliases) : st.Untouched first own where
  sound := h.sound
  nodup := h.nodup.sublist hsub
  below a ha := h.below a (hsub.subset ha)
  unread p hp hmem := h.unread p hp (hsub.subset hmem)

theorem of_eq (h : st.Untouched first aliases) (hnext : st'.next = st.next)
    (hreplaced : st'.replaced = st.replaced) : st'.Untouched first aliases where
  sound := ⟨hnext ▸ h.sound.start, fun p hp => by
    rw [hnext]
    exact h.sound.pairs p (hreplaced ▸ hp)⟩
  nodup := h.nodup
  below := h.below
  unread p hp := h.unread p (hreplaced ▸ hp)

theorem after (h : st.Untouched first (own ++ rest)) (hst : st.Extends own st') :
    st'.Untouched first rest where
  sound := hst.sound h.sound
  nodup := (nodup_append.1 h.nodup).2.1
  below a ha := h.below a (mem_append_right _ ha)
  unread :=
    hst.unread (h.sublist (sublist_append_right _ _)).unread
      (fun a ha ha' => (nodup_append.1 h.nodup).2.2 a ha a ha' rfl)
      fun a ha => h.lt_next a (mem_append_right _ ha)

end Isolation.Untouched

/-- Aliases that differ from each other: old ones, and new ones of the given range. -/
structure Supplied (n n' : Alias) (old new : List Alias) : Prop where
  nodup : new.Nodup
  mem : ∀ a ∈ new, a ∈ old ∨ (n ≤ a ∧ a < n')

namespace Supplied

variable {n m n' : Alias} {old old' new new' : List Alias}

theorem refl (n n' : Alias) (hnodup : old.Nodup) : Supplied n n' old old where
  nodup := hnodup
  mem _ ha := .inl ha

theorem lt (h : Supplied n n' old new) (hold : ∀ a ∈ old, a < n') : ∀ a ∈ new, a < n' := fun a ha =>
  (h.mem a ha).elim (hold a) And.right

theorem mono (h : Supplied n m old new) (hm : m ≤ n') : Supplied n n' old new where
  nodup := h.nodup
  mem a ha := (h.mem a ha).imp_right fun hrange => ⟨hrange.1, hrange.2.trans_le hm⟩

theorem append (h : Supplied n m old new) (h' : Supplied m n' old' new') (hn : n ≤ m) (hm : m ≤ n')
    (hdisjoint : (old ++ old').Nodup) (hlt : ∀ a ∈ old ++ old', a < n) :
    Supplied n n' (old ++ old') (new ++ new') where
  nodup := by
    refine nodup_append.2 ⟨h.nodup, h'.nodup, fun a ha b hb => ?_⟩
    rintro rfl
    rcases h.mem a ha with hold | ⟨hle, hlt'⟩ <;> rcases h'.mem a hb with hold' | ⟨hle', _⟩
    · exact (nodup_append.1 hdisjoint).2.2 a hold a hold' rfl
    · exact hle'.not_gt ((hlt a (mem_append_left _ hold)).trans_le hn)
    · exact hle.not_gt (hlt a (mem_append_right _ hold'))
    · exact hle'.not_gt hlt'
  mem a ha := by
    rcases mem_append.1 ha with ha | ha
    · exact (h.mem a ha).imp (mem_append_left _) fun h => ⟨h.1, h.2.trans_le hm⟩
    · exact (h'.mem a ha).imp (mem_append_right _) fun h => ⟨hn.trans h.1, h.2⟩

end Supplied

structure Tree.Isolated (t : Tree) (st : Isolation) (u : Tree) (st' : Isolation) : Prop where
  state : st.Extends (t.children.flatMap declared) st'
  live : ∀ p ∈ st'.replaced, p.1.label ∉ u.sources
  sources : Supplied st.next st'.next t.sources u.sources
  declared : Supplied st.next st'.next t.declared u.declared

def Tree.Keeps (first : Alias) (t : Tree) : Prop :=
  ∀ st u st', t.IsolatesTo st u st' → st.Untouched first t.declared → t.Isolated st u st'

theorem Threaded.isolated {ts us : List Tree} (ih : ∀ t ∈ ts, t.Keeps first)
    (h : Threaded IsolatesTo ts st us st') (hst : st.Untouched first (ts.flatMap declared)) :
    st.Extends (ts.flatMap declared) st' ∧
      Supplied st.next st'.next (ts.flatMap declared) (us.flatMap declared) := by
  induction h with
  | nil st => exact ⟨.refl st, .refl _ _ nodup_nil⟩
  | @cons t st m st' u ts us head _ rest =>
    rw [flatMap_cons] at hst ⊢
    have hhead := ih t mem_cons_self _ _ _ head (hst.sublist (sublist_append_left _ _))
    have hstate : st.Extends t.declared m :=
      hhead.state.mono fun a ha => .inl (t.children_declared_sublist.subset ha)
    obtain ⟨hrest, hsupplied⟩ := rest (fun v hv => ih v (.tail _ hv)) (hst.after hstate)
    refine ⟨hstate.trans hrest, ?_⟩
    rw [flatMap_cons]
    exact hhead.declared.append hsupplied hstate.next hrest.next hst.nodup hst.lt_next

namespace Tree.Isolated

variable {first : Alias} {t u : Tree} {st m st' : Isolation}

theorem extends_declared (h : t.Isolated st u st') : st.Extends t.declared st' :=
  h.state.mono fun _ ha => .inl (t.children_declared_sublist.subset ha)

theorem sources_lt (h : t.Isolated st u m) (hst : st.Untouched first t.declared) :
    ∀ a ∈ u.sources, a < m.next :=
  h.sources.lt fun a ha => (hst.lt_next a (t.sources_sublist.subset ha)).trans_le h.state.next

theorem live_after (h : t.Isolated st u m) {rest : List Alias}
    (hst : st.Untouched first (t.declared ++ rest)) (hm : m.Extends rest st') :
    ∀ p ∈ st'.replaced, p.1.label ∉ u.sources := by
  have hrest := hst.after h.extends_declared
  refine hm.unread h.live (fun a ha hnew => ?_) (h.sources_lt (hst.sublist (sublist_append_left _ _)))
  rcases h.sources.mem a hnew with hsource | hrange
  · exact (nodup_append.1 hst.nodup).2.2 a (t.sources_sublist.subset hsource) a ha rfl
  · exact hrange.1.not_gt (hst.lt_next a (mem_append_right _ ha))

theorem of_label (hlabel : u.label? = t.label?) (ht : t.sources = t.label?.toList)
    (hu : u.sources = u.label?.toList) (hst : st.Untouched first t.declared)
    (hstate : st.Extends (t.children.flatMap Tree.declared) st')
    (hsupplied : Supplied st.next st'.next (t.children.flatMap Tree.declared)
      (u.children.flatMap Tree.declared)) : t.Isolated st u st' := by
  rw [t.declared_eq] at hst
  have hsources := (nodup_append.1 hst.nodup).1
  refine ⟨hstate, ?_, ?_, ?_⟩
  · rw [hu, hlabel]
    refine hstate.unread (hst.sublist (sublist_append_left _ _)).unread ?_ ?_
    · exact fun a ha hmem => (nodup_append.1 hst.nodup).2.2 a hmem a ha rfl
    · exact fun a ha => hst.lt_next a (mem_append_left _ ha)
  · rw [ht, hu, hlabel]
    exact .refl _ _ hsources
  · rw [t.declared_eq, u.declared_eq, hlabel]
    exact (Supplied.refl st.next st.next hsources).append hsupplied le_rfl hstate.next hst.nodup hst.lt_next

end Tree.Isolated

theorem Isolation.wrapping_extends (h : ∀ a ∈ u.sources, a < st.next) :
    st.Extends u.sources (st.wrapping u) where
  next := Nat.le_succ _
  columns c hc := mem_append_left _ hc
  parent := rfl
  replaced := by
    refine ⟨_, rfl, fun p hp => ?_⟩
    obtain ⟨q, hq, rfl⟩ := mem_map.1 (mem_reverse.1 hp)
    have hq := (mem_of_named hq).2
    exact ⟨.inl hq, h _ hq, le_rfl, Nat.lt_succ_self _⟩

/-! ### Joins -/

structure JoinVisits (first : Alias) (st : Isolation) (l r : Tree) (c : Option Tree) (l' r' : Tree)
    (c' : Option Tree) (m₁ m₂ st' : Isolation) : Prop where
  untouched : st.Untouched first (l.declared ++ (r.declared ++ c.toList.flatMap declared))
  left : l.IsolatesTo st l' m₁
  keepsLeft : l.Isolated st l' m₁
  right : r.IsolatesTo m₁ r' m₂
  keepsRight : r.Isolated m₁ r' m₂
  condition : Threaded Tree.IsolatesTo c.toList m₂ c'.toList st'
  keepsCondition : m₂.Extends (c.toList.flatMap declared) st'

namespace JoinVisits

variable {l r l' r' : Tree} {c c' : Option Tree} {m₁ m₂ : Isolation}

theorem of_threaded (h : Threaded IsolatesTo (l :: r :: c.toList) st (l' :: r' :: c'.toList) st')
    (ih : ∀ v ∈ l :: r :: c.toList, v.Keeps first)
    (hst : st.Untouched first (l.declared ++ (r.declared ++ c.toList.flatMap declared))) :
    ∃ m₁ m₂, JoinVisits first st l r c l' r' c' m₁ m₂ st' := by
  simp only [forall_mem_cons] at ih
  obtain ⟨ihl, ihr, ihc⟩ := ih
  cases h with
  | cons left rest =>
    have hl := ihl _ _ _ left (hst.sublist (sublist_append_left _ _))
    have hst₁ := hst.after hl.extends_declared
    cases rest with
    | cons right condition =>
      have hr := ihr _ _ _ right (hst₁.sublist (sublist_append_left _ _))
      have hst₂ := hst₁.after hr.extends_declared
      exact ⟨_, _, hst, left, hl, right, hr, condition, (condition.isolated ihc hst₂).1⟩

variable (h : JoinVisits first st l r c l' r' c' m₁ m₂ st')
include h

theorem untouchedLeft : st.Untouched first l.declared := h.untouched.sublist (sublist_append_left _ _)

theorem untouchedRest : m₁.Untouched first (r.declared ++ c.toList.flatMap declared) :=
  h.untouched.after h.keepsLeft.extends_declared

theorem untouchedRight : m₁.Untouched first r.declared := h.untouchedRest.sublist (sublist_append_left _ _)

theorem untouchedCondition : m₂.Untouched first (c.toList.flatMap declared) :=
  h.untouchedRest.after h.keepsRight.extends_declared

theorem extendsSides : st.Extends (l.declared ++ r.declared) m₂ :=
  h.keepsLeft.extends_declared.trans h.keepsRight.extends_declared

theorem sources : Supplied st.next m₂.next (l.sources ++ r.sources) (l'.sources ++ r'.sources) := by
  have hsub : (l.sources ++ r.sources).Sublist
      (l.declared ++ (r.declared ++ c.toList.flatMap declared)) :=
    l.sources_sublist.append (r.sources_sublist.trans (sublist_append_left _ _))
  exact h.keepsLeft.sources.append h.keepsRight.sources h.keepsLeft.state.next h.keepsRight.state.next
    (h.untouched.nodup.sublist hsub) fun a ha => h.untouched.lt_next a (hsub.subset ha)

theorem apart : ∀ a ∈ l.sources, a ∉ r.declared := fun a ha ha' =>
  (nodup_append.1 h.untouched.nodup).2.2 a (l.sources_sublist.subset ha) a (mem_append_left _ ha') rfl

theorem apart_condition : ∀ a ∈ l.sources ++ r.sources, a ∉ c.toList.flatMap declared := by
  intro a ha hc
  rcases mem_append.1 ha with ha | ha
  · exact (nodup_append.1 h.untouched.nodup).2.2 a (l.sources_sublist.subset ha) a (mem_append_right _ hc) rfl
  · exact (nodup_append.1 h.untouchedRest.nodup).2.2 a (r.sources_sublist.subset ha) a hc rfl

theorem lt_next : ∀ a ∈ l.sources ++ r.sources, a < m₂.next := by
  intro a ha
  rcases mem_append.1 ha with ha | ha
  · exact (h.untouchedLeft.lt_next a (l.sources_sublist.subset ha)).trans_le h.extendsSides.next
  · exact (h.untouchedRight.lt_next a (r.sources_sublist.subset ha)).trans_le h.keepsRight.state.next

end JoinVisits

theorem JoinStep.isolated (h : JoinStep t st u st') (ih : ∀ v ∈ t.children, v.Keeps first)
    (hst : st.Untouched first t.declared) : t.Isolated st u st' := by
  cases h with
  | @mk kind l r l' r' c c' i j _ m form children =>
    have hdeclared := declared_join kind l r c i
    rw [hdeclared] at hst
    have hst' : Untouched first { st with parent := some kind }
        (l.declared ++ (r.declared ++ c.toList.flatMap declared)) := hst.of_eq rfl rfl
    obtain ⟨hstate, hsupplied⟩ := children.isolated ih hst'
    obtain ⟨m₁, m₂, visits⟩ := JoinVisits.of_threaded children ih hst'
    refine ⟨⟨hstate.next, hstate.columns, rfl, hstate.replaced⟩, ?_, ?_, ?_⟩
    · intro p hp hmem
      rcases mem_append.1 hmem with hmem | hmem
      · exact visits.keepsLeft.live_after hst'
          (visits.keepsRight.extends_declared.trans visits.keepsCondition) p hp hmem
      · exact visits.keepsRight.live_after visits.untouchedRest visits.keepsCondition p hp hmem
    · exact visits.sources.mono visits.keepsCondition.next
    · rw [hdeclared, declared_eq (.join ⟨kind, l', r', c'⟩ j)]
      exact hsupplied

theorem Tree.sources_eq_label? (h : t.isJoin = false) : t.sources = t.label?.toList := by
  cases t with
  | join => simp [isJoin] at h
  | _ => rfl

theorem Tree.SameNode.isJoin {R : Tree → Tree → Prop} (h : t.SameNode R u) : u.isJoin = t.isJoin := by
  cases h <;> rfl

theorem Isolation.declared_wrapper (m : Isolation) (u : Tree) :
    (select (m.wrapper u) none).declared = m.next :: u.declared := by
  have hcolumns : ((m.wrapper u).columns.map Column.value).flatMap declared = [] := by
    rw [flatMap_eq_nil_iff]
    intro v hv
    obtain ⟨col, hcol, rfl⟩ := mem_map.1 hv
    obtain ⟨p, _, rfl⟩ := mem_map.1 hcol
    rfl
  rw [declared_eq, children, Select.clauses, flatMap_append, hcolumns]
  simp [label?, wrapper]

theorem Tree.Isolated.wrap {m : Isolation} (h : t.Isolated st u m) (hst : st.Untouched first t.declared)
    (hlabel : t.label? = none) : t.Isolated st (.select (m.wrapper u) none) (m.wrapping u) := by
  have hwrapping := wrapping_extends (h.sources_lt hst)
  have hsound := hwrapping.sound (h.state.sound hst.sound)
  have hnew : ∀ old : List Alias, m.next ∈ old ∨ st.next ≤ m.next ∧ m.next < m.next + 1 := fun _ =>
    .inr ⟨h.state.next, Nat.lt_succ_self _⟩
  refine ⟨?_, fun p hp hmem => ?_, ⟨nodup_singleton _, fun a ha => ?_⟩, ⟨?_, fun a ha => ?_⟩⟩
  · refine (h.state.trans hwrapping).mono fun a ha => ?_
    rcases mem_append.1 ha with ha | ha
    · exact .inl ha
    · refine (h.sources.mem a ha).imp (fun ha => ?_) And.left
      have ha := t.sources_sublist.subset ha
      rwa [t.declared_eq, hlabel] at ha
  · have hp := hsound.pairs p hp
    rw [mem_singleton.1 hmem] at hp
    exact (hp.1.trans_le (Nat.lt_succ_iff.1 hp.2.2)).false
  · rw [mem_singleton.1 ha]
    exact hnew _
  · rw [declared_wrapper, nodup_cons]
    refine ⟨fun hmem => ?_, h.declared.nodup⟩
    exact (h.declared.lt (fun a ha => (hst.lt_next a ha).trans_le h.state.next) _ hmem).false
  · rw [declared_wrapper] at ha
    rcases mem_cons.1 ha with rfl | ha
    · exact hnew _
    · exact (h.declared.mono (Nat.le_succ _)).mem a ha

/-- What the visit of any tree keeps. -/
theorem Tree.keeps (first : Alias) (t : Tree) : t.Keeps first := by
  induction t with
  | step t ih =>
    intro st u st' h hst
    have hchildren := t.children_declared_sublist
    cases h.step with
    | column c => exact .of_label rfl rfl rfl hst (.refl _) (.refl _ _ nodup_nil)
    | @select s s' i j _ m label same clauses =>
      obtain ⟨hstate, hsupplied⟩ := clauses.isolated ih ((hst.sublist hchildren).of_eq rfl rfl)
      exact .of_label (congrArg some label) rfl rfl hst
        ⟨hstate.next, fun _ hc => hc, rfl, hstate.replaced⟩ hsupplied
    | join step => exact step.isolated ih hst
    | @wrap _ v _ m _ step =>
      have hlabel : t.label? = none := by cases step; rfl
      exact (step.isolated ih hst).wrap hst hlabel
    | node select join column same children =>
      obtain ⟨hstate, hsupplied⟩ := children.isolated ih (hst.sublist hchildren)
      exact .of_label same.label? (sources_eq_label? join)
        (sources_eq_label? (same.isJoin.trans join)) hst hstate hsupplied

end HiveQuery
