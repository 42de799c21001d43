import HiveQuery.Proofs.Neatness
import HiveQuery.Proofs.PagingScopes

/-!
# Aliases of compiled queries

Lowering skipped rows puts selects into layers and makes copies. Layers and copies get aliases from the supply, and
what is copied with its aliases declares none.
-/

namespace HiveQuery

variable {keys : List (SortKey Tree)} {window : Tree}
open List HiveQuery.Tree

variable {t u v : Tree} {n n' next next' : Alias}

/-! ## Trees to copy -/

def Tree.Copyable (n : Alias) (t : Tree) : Prop :=
  t.Every fun u => u.label? = none ∧ ∀ c ∈ u.column?, c.label < n

def Tree.Fit (n : Alias) (t : Tree) : Prop :=
  t.ColumnsBelow n ∧ t.Neat true false

theorem Tree.copyable_iff : t.Copyable n ↔ t.Plain true ∧ t.ColumnsBelow n := by
  rw [plain_true]
  exact ⟨fun h => ⟨fun u hu => by simp [isBare, (h u hu).1], fun u hu => (h u hu).2⟩,
    fun h u hu => ⟨label?_of_isBare (h.1 u hu), h.2 u hu⟩⟩

theorem Tree.Copyable.fit (h : t.Copyable n) : t.Fit n :=
  ⟨(copyable_iff.1 h).2, (plain_true.1 (copyable_iff.1 h).1).neat⟩

theorem Tree.Copyable.declared (h : t.Copyable n) : t.declared = [] :=
  (plain_true.1 (copyable_iff.1 h).1).declared

theorem Tree.Copyable.mono (h : t.Copyable n) (hn : n ≤ n') : t.Copyable n' := fun u hu =>
  ⟨(h u hu).1, fun c hc => ((h u hu).2 c hc).trans_le hn⟩

theorem Tree.Fit.mono (h : t.Fit n) (hn : n ≤ n') : t.Fit n' := ⟨h.1.mono hn, h.2⟩

theorem Tree.copyable_column {c : ColumnRef} (h : c.label < n) : (column c).Copyable n := by
  refine every_iff.2 ⟨⟨rfl, ?_⟩, nofun⟩
  rintro _ ⟨rfl⟩
  exact h

theorem Tree.copyable_constant (x : Value) : (constant x).Copyable n := every_iff.2 ⟨⟨rfl, nofun⟩, nofun⟩

theorem Tree.copyable_of_children (label : t.label? = none) (column : t.column? = none)
    (children : ∀ a ∈ t.children, a.Copyable n) : t.Copyable n :=
  every_iff.2 ⟨⟨label, by rw [column]; exact nofun⟩, children⟩

theorem Tree.fit_of_children (select : t.select? = none) (column : t.column? = none)
    (children : ∀ a ∈ t.children, a.Fit n) : t.Fit n :=
  ⟨every_iff.2 ⟨by rw [column]; exact nofun, fun a ha => (children a ha).1⟩,
    every_iff.2 ⟨by rw [select]; exact nofun, fun a ha => (children a ha).2⟩⟩

theorem Tree.SameNode.copyable {R : Tree → Tree → Prop} (h : t.SameNode R u)
    (ht : t.label? = none ∧ ∀ c ∈ t.column?, c.label < n) : u.label? = none ∧ ∀ c ∈ u.column?, c.label < n :=
  ⟨h.label?.trans ht.1, h.column? ▸ ht.2⟩

theorem Tree.fold_copyable (h : t.fold = .ok u) (ht : t.Copyable n) : u.Copyable n :=
  fold_every Tree.SameNode.copyable (fun _ => ⟨rfl, nofun⟩) h ht

theorem Tree.KeptKey.copyable (h : t.KeptKey u) (ht : t.Copyable n) : u.Copyable n :=
  h.every Tree.SameNode.copyable (fun _ => ⟨rfl, nofun⟩) ht

/-! ## Renamed trees -/

theorem Tree.rename_bare (f : Alias → Alias) {kinds : JoinKind → Bool} (ht : t.Bare kinds) :
    (t.rename f).Bare kinds := by
  induction t with
  | step t ih =>
    obtain ⟨hnode, hchildren⟩ := every_iff.1 ht
    refine every_iff.2 ⟨?_, (Renaming.rename f).children t ▸ forall_mem_map.2 fun a ha => ih a ha (hchildren a ha)⟩
    rw [rename_eq]
    cases t <;> exact hnode

theorem Tree.rename_fit {f : Alias → Alias} (hf : ∀ a < n, f a < n') (ht : t.Fit n) :
    (t.rename f).Fit n' := by
  induction t with
  | step t ih =>
    obtain ⟨hcolumn, hcolumns⟩ := every_iff.1 ht.1
    obtain ⟨hselect, hselects⟩ := every_iff.1 ht.2
    obtain ⟨v, same, heq⟩ := t.rename_node f
    have hchildren : ∀ b ∈ (t.rename f).children, b.Fit n' := (Renaming.rename f).children t ▸
      forall_mem_map.2 fun a ha => ih a ha ⟨hcolumns a ha, hselects a ha⟩
    refine ⟨every_iff.2 ⟨?_, fun b hb => (hchildren b hb).1⟩,
      every_iff.2 ⟨?_, fun b hb => (hchildren b hb).2⟩⟩
    · rw [(Renaming.rename f).column?]
      intro d hd
      obtain ⟨c, hc, rfl⟩ := Option.map_eq_some_iff.1 hd
      exact hf _ (hcolumn c hc)
    · have hneat := same.neat (fun a b hab ha => hab ▸ ha.imp fun _ => rename_bare f) hselect
      rw [heq]
      cases v with
      | select s i =>
        rintro _ ⟨rfl⟩
        exact { hneat s rfl with }
      | _ => exact nofun

/-! ## Aliases from the supply -/

structure Draws (n n' : Alias) (old new : List Alias) : Prop where
  next : n ≤ n'
  perm : ∃ fresh : List Alias, fresh.Nodup ∧ (∀ a ∈ fresh, n ≤ a ∧ a < n') ∧ new.Perm (fresh ++ old)

namespace Draws

variable {m : Alias} {old mid new : List Alias}

theorem refl (n : Alias) (old : List Alias) : Draws n n old old := ⟨le_rfl, [], nodup_nil, nofun, .refl _⟩

theorem one (n : Alias) (old : List Alias) : Draws n (n + 1) old (n :: old) := by
  refine ⟨Nat.le_succ n, [n], nodup_singleton n, fun a ha => ?_, .refl _⟩
  rw [mem_singleton.1 ha]
  exact ⟨le_rfl, Nat.lt_succ_self n⟩

theorem trans (h : Draws n m old mid) (h' : Draws m n' mid new) : Draws n n' old new := by
  obtain ⟨fresh, hnodup, hrange, hperm⟩ := h.perm
  obtain ⟨fresh', hnodup', hrange', hperm'⟩ := h'.perm
  refine ⟨h.next.trans h'.next, fresh' ++ fresh, ?_, fun a ha => ?_, ?_⟩
  · refine nodup_append.2 ⟨hnodup', hnodup, fun a ha b hb => ?_⟩
    rintro rfl
    exact ((hrange a hb).2.trans_le (hrange' a ha).1).false
  · rcases mem_append.1 ha with ha | ha
    · exact ⟨h.next.trans (hrange' a ha).1, (hrange' a ha).2⟩
    · exact ⟨(hrange a ha).1, (hrange a ha).2.trans_le h'.next⟩
  · rw [append_assoc]
    exact hperm'.trans (hperm.append_left fresh')

theorem cons (h : Draws n n' old new) (a : Alias) : Draws n n' (a :: old) (a :: new) := by
  obtain ⟨fresh, hnodup, hrange, hperm⟩ := h.perm
  exact ⟨h.next, fresh, hnodup, hrange, (hperm.cons a).trans perm_middle.symm⟩

theorem append (h : Draws n n' old new) (rest : List Alias) : Draws n n' (old ++ rest) (new ++ rest) := by
  obtain ⟨fresh, hnodup, hrange, hperm⟩ := h.perm
  refine ⟨h.next, fresh, hnodup, hrange, ?_⟩
  rw [← append_assoc]
  exact hperm.append_right rest

theorem of_perm (h : Draws n n' old mid) (hperm : new.Perm mid) : Draws n n' old new := by
  obtain ⟨fresh, hnodup, hrange, hmid⟩ := h.perm
  exact ⟨h.next, fresh, hnodup, hrange, hperm.trans hmid⟩

theorem supplied (h : Draws n n' old new) (nodup : old.Nodup) (below : ∀ a ∈ old, a < n) :
    Supplied n n' old new := by
  obtain ⟨fresh, hnodup, hrange, hperm⟩ := h.perm
  refine ⟨?_, fun a ha => ?_⟩
  · rw [hperm.nodup_iff]
    refine nodup_append.2 ⟨hnodup, nodup, fun a ha b hb => ?_⟩
    rintro rfl
    exact ((hrange a ha).1.trans_lt (below a hb)).false
  · rcases mem_append.1 (hperm.mem_iff.1 ha) with ha | ha
    · exact .inr (hrange a ha)
    · exact .inl ha

end Draws

theorem Supplied.trans {m : Alias} {old mid new : List Alias} (h : Supplied n m old mid)
    (h' : Supplied m n' mid new) (hn : n ≤ m) (hm : m ≤ n') : Supplied n n' old new where
  nodup := h'.nodup
  mem a ha := by
    rcases h'.mem a ha with ha | ha
    · exact (h.mem a ha).imp_right fun h => ⟨h.1, h.2.trans_le hm⟩
    · exact .inr ⟨hn.trans ha.1, ha.2⟩

/-! ## Layers -/

namespace Select

variable {s s' f o layer : Select Tree} {i : Option Identity} {skip : Tree} {take : Option Tree}
  {lifted : List (SortKey Tree)}

def within (s : Select Tree) : List Alias :=
  s.clauses.flatMap declared

theorem declared_eq_within : (Tree.select s i).declared = s.label :: s.within := Tree.declared_eq _

theorem flatMap_declared_nil {ts : List Tree} (h : ∀ a ∈ ts, a.Copyable n) : ts.flatMap Tree.declared = [] :=
  flatMap_eq_nil_iff.2 fun a ha => (h a ha).declared

structure Fit (n : Alias) (s : Select Tree) : Prop where
  headers : s.headers.Nodup
  order : ∀ a ∈ s.order.map SortKey.value, a.Copyable n
  source : ∀ a ∈ s.source.toList, a.Fit n
  filter : ∀ a ∈ s.filter.toList, a.Fit n
  group : ∀ a ∈ s.group, a.Fit n
  cluster : ∀ a ∈ s.cluster, a.Fit n
  skip : ∀ a ∈ s.skip.toList, a.Fit n
  take : ∀ a ∈ s.take.toList, a.Fit n
  columns : ∀ a ∈ s.columns.map Column.value, a.Fit n

theorem fit_iff : (select s i).Fit n ↔ s.Fit n := by
  have hclauses : (select s i).Fit n ↔ s.Neat true false ∧ ∀ a ∈ s.clauses, a.Fit n := by
    unfold Tree.Fit Tree.ColumnsBelow Tree.Neat
    rw [every_iff, every_iff]
    constructor
    · rintro ⟨⟨-, hcolumns⟩, hneat, hselects⟩
      exact ⟨hneat s rfl, fun a ha => ⟨hcolumns a ha, hselects a ha⟩⟩
    · rintro ⟨hneat, hfit⟩
      refine ⟨⟨nofun, fun a ha => (hfit a ha).1⟩, ?_, fun a ha => (hfit a ha).2⟩
      rintro _ ⟨rfl⟩
      exact hneat
  rw [hclauses, clauses]
  simp only [forall_mem_append]
  constructor
  · rintro ⟨⟨hheaders, horder, -⟩, ⟨⟨⟨⟨⟨⟨⟨hsource, hfilter⟩, hkeys⟩, hgroup⟩, hcluster⟩, hskip⟩, htake⟩,
      hcolumns⟩⟩
    refine ⟨hheaders, fun a ha => ?_, hsource, hfilter, hgroup, hcluster, hskip, htake, hcolumns⟩
    obtain ⟨k, hk, rfl⟩ := mem_map.1 ha
    exact copyable_iff.2 ⟨horder k hk, (hkeys _ ha).1⟩
  · intro h
    refine ⟨⟨h.headers, fun k hk => ?_, by simp⟩, ⟨⟨⟨⟨⟨⟨⟨h.source, h.filter⟩, fun a ha => (h.order a ha).fit⟩,
      h.group⟩, h.cluster⟩, h.skip⟩, h.take⟩, h.columns⟩⟩
    exact (copyable_iff.1 (h.order _ (mem_map_of_mem hk))).1

theorem Fit.mono (h : s.Fit n) (hn : n ≤ n') : s.Fit n' := fit_iff.1 ((fit_iff (i := none).2 h).mono hn)

theorem Fit.sorted (h : s.Fit n) (hkeys : ∀ a ∈ keys.map SortKey.value, a.Copyable n) :
    (s.sortedBy keys).Fit n ∧ (s.sortedBy keys).within = s.within := by
  refine ⟨{ h with order := hkeys }, ?_⟩
  simp only [within, clauses, flatMap_append, flatMap_declared_nil hkeys, flatMap_declared_nil h.order]

theorem Fit.unsorted (h : s.Fit n) : (s.sortedBy []).Fit n ∧ (s.sortedBy []).within = s.within :=
  h.sorted nofun

theorem liftOrder_fit (h : s.liftOrder = .ok (s', lifted)) (hs : s.Fit n) (label : s.label < n) :
    s'.Fit n ∧ s'.label = s.label ∧ s'.within = s.within ∧ ∀ a ∈ lifted.map SortKey.value, a.Copyable n := by
  obtain ⟨order, extra, hkept, rfl, hextra, -, hlifted, hnodup⟩ := liftOrder_cases h
  have horder : ∀ a ∈ order.map SortKey.value, a.Copyable n := by
    intro a ha
    obtain ⟨k, hk, rfl⟩ := mem_map.1 ha
    obtain ⟨k₀, hk₀, -, hvalue⟩ := forall₂_mem_right hkept hk
    exact hvalue.copyable (hs.order _ (mem_map_of_mem hk₀))
  have hextra : ∀ a ∈ extra.map Column.value, a.Copyable n := by
    intro a ha
    obtain ⟨e, he, rfl⟩ := mem_map.1 ha
    obtain ⟨k, hk, hvalue⟩ := hextra e he
    exact hvalue ▸ horder _ (mem_map_of_mem hk)
  refine ⟨{ hs with headers := hnodup hs.headers, order := horder, columns := ?_ }, rfl, ?_, fun a ha => ?_⟩
  · rw [map_append, forall_mem_append]
    exact ⟨hs.columns, fun a ha => (hextra a ha).fit⟩
  · simp only [within, clauses, flatMap_append, map_append, flatMap_declared_nil horder,
      flatMap_declared_nil hs.order, flatMap_declared_nil hextra, append_nil]
  · obtain ⟨l, hl, rfl⟩ := mem_map.1 ha
    obtain ⟨c, hc, hlabel⟩ := hlifted l hl
    rw [hc]
    exact copyable_column (hlabel ▸ label)

theorem OrderedAs.fit (h : s.OrderedAs o) (hs : s.Fit n) (below : ∀ a ∈ s.within, a < n) :
    o.Fit n ∧ o.label = s.label ∧ o.within = s.within := by
  induction h with
  | own s => exact ⟨hs, rfl, rfl⟩
  | @source s x y z k lifted order source _ lift ih =>
    have hx : select x k ∈ s.source.toList := Option.mem_toList.2 source
    have hbelow : ∀ a ∈ (select x k).declared, a < n := fun a ha =>
      below a (mem_flatMap.2 ⟨_, by simp [clauses, source], ha⟩)
    rw [declared_eq_within, forall_mem_cons] at hbelow
    obtain ⟨hy, hlabel, hwithin⟩ := ih (fit_iff.1 (hs.source _ hx)) hbelow.2
    obtain ⟨hz, hlabel', hwithin', hkeys⟩ := liftOrder_fit lift hy (hlabel ▸ hbelow.1)
    have hdeclared : (select z none).declared = (select x k).declared := by
      rw [declared_eq_within, declared_eq_within, hlabel', hlabel, hwithin', hwithin]
    refine ⟨{ hs with order := hkeys, source := ?_ }, rfl, ?_⟩
    · exact forall_mem_singleton.2 (fit_iff.2 hz)
    · simp only [within, clauses, flatMap_append, flatMap_declared_nil hkeys, order, source,
        Option.toList_some, flatMap_singleton, hdeclared, map_nil, flatMap_nil]

theorem above_fit {inner : Select Tree} (hs : s.headers.Nodup) (h : inner.Fit n) (label : inner.label < n) :
    (s.above inner).Fit n ∧ (s.above inner).within = inner.label :: inner.within ∧
      ∀ a ∈ (s.above inner).columns.map Column.value, a.Copyable n := by
  have hcolumns : ∀ a ∈ (s.above inner).columns.map Column.value, a.Copyable n := by
    intro a ha
    obtain ⟨d, hd, rfl⟩ := mem_map.1 ha
    obtain ⟨c, -, rfl⟩ := mem_map.1 hd
    obtain ⟨e, he, hlabel⟩ := passOn_column inner.label c
    rw [he]
    exact copyable_column (hlabel ▸ label)
  refine ⟨⟨?_, nofun, ?_, nofun, nofun, nofun, nofun, nofun, fun a ha => (hcolumns a ha).fit⟩, ?_, hcolumns⟩
  · have hheaders : (s.above inner).headers = s.headers := by
      simp only [headers, above, map_map]
      exact map_congr_left fun c _ => by cases c; rfl
    rw [hheaders]
    exact hs
  · exact forall_mem_singleton.2 (fit_iff.2 h)
  · have hwithin : (s.above inner).within = (select inner none).declared ++
        ((s.above inner).columns.map Column.value).flatMap declared := by
      simp [within, clauses, above]
    rw [hwithin, flatMap_declared_nil hcolumns, append_nil, declared_eq_within]

theorem Fit.labelled (h : s.Fit n) (a : Alias) :
    (s.labelled a).Fit n ∧ (s.labelled a).within = s.within :=
  ⟨{ h with }, rfl⟩

/-! ## Numbered rows -/

theorem NumberedOver.fit {base : Select Tree} {label : Alias} (h : o.NumberedOver next base keys label)
    (ho : o.unbounded.Fit next) :
    base.Fit label ∧ base.label = o.label ∧ Draws next label o.unbounded.within base.within ∧
      ∀ a ∈ keys.map SortKey.value, a.Copyable label := by
  cases h with
  | itself =>
    obtain ⟨hbase, hwithin⟩ := ho.unsorted
    refine ⟨hbase, rfl, ?_, ho.order⟩
    exact hwithin ▸ .refl _ _
  | @layer inner lifted lift =>
    have hunpaged := (ho.mono (Nat.le_succ next)).labelled next
    obtain ⟨hinner, hlabel, hwithin, hkeys⟩ := liftOrder_fit lift hunpaged.1 (Nat.lt_succ_self next)
    have hlabel : inner.label = next := hlabel
    have hwithin : inner.within = o.unbounded.within := hwithin.trans hunpaged.2
    obtain ⟨hsorted, hwithin'⟩ := hinner.unsorted
    obtain ⟨habove, hdeclared, -⟩ := above_fit (s := o) ho.headers hsorted (hlabel ▸ Nat.lt_succ_self _)
    refine ⟨habove, rfl, ?_, hkeys⟩
    rw [hdeclared, hwithin', hwithin]
    show Draws next (next + 1) _ (inner.label :: _)
    rw [hlabel]
    exact .one _ _

theorem window_fit {base : Select Tree} {label : Alias} {kept : Tree} {name : String} (hbase : base.Fit label)
    (hname : name ∉ base.headers) (hkeys : ∀ a ∈ keys.map SortKey.value, a.Copyable label)
    (hkept : kept.Copyable (label + 1)) :
    (base.window keys name label kept).Fit (label + 1) ∧
      (base.window keys name label kept).within = label :: base.within := by
  have hnumber : (rowNumber keys).Copyable label := copyable_of_children rfl rfl hkeys
  have hheaders : (base.addColumn ⟨name, .rowNumber keys, ScalarType.int32.columnType⟩).headers.Nodup := by
    simp only [headers, addColumn, map_append, map_cons, map_nil]
    refine nodup_append.2 ⟨hbase.headers, nodup_singleton _, fun a ha b hb => ?_⟩
    rw [mem_singleton.1 hb]
    rintro rfl
    exact hname ha
  have hnumbering : (base.numbering keys name label).Fit label := by
    refine { hbase with headers := hheaders, columns := ?_ }
    rw [numbering, addColumn, map_append, forall_mem_append]
    exact ⟨hbase.columns, forall_mem_singleton.2 hnumber.fit⟩
  have hwithin : (base.numbering keys name label).within = base.within := by
    simp only [within, numbering, addColumn, clauses, flatMap_append, map_append,
      map_cons, map_nil, flatMap_singleton, hnumber.declared, append_nil]
  obtain ⟨habove, hdeclared, hcolumns⟩ := above_fit hheaders (hnumbering.mono (Nat.le_succ label))
    (Nat.lt_succ_self label)
  have hcolumn : (column (numberRef label name)).Copyable (label + 1) :=
    copyable_column (Nat.lt_succ_self label)
  have hkeys' : ∀ a ∈ (base.window keys name label kept).order.map SortKey.value, a.Copyable (label + 1) :=
    forall_mem_singleton.2 hcolumn
  have hremaining : ∀ a ∈ (base.window keys name label kept).columns.map Column.value,
      a.Copyable (label + 1) := by
    intro a ha
    obtain ⟨c, hc, rfl⟩ := mem_map.1 ha
    exact hcolumns _ (mem_map_of_mem (mem_filter.1 hc).1)
  constructor
  · exact { habove with
      headers := habove.headers.sublist (filter_sublist.map _)
      order := hkeys'
      filter := forall_mem_singleton.2 hkept.fit
      columns := fun a ha => (hremaining a ha).fit }
  · have hlayer : (base.window keys name label kept).within =
        (select (base.numbering keys name label) none).declared ++ kept.declared ++
          ((base.window keys name label kept).order.map SortKey.value).flatMap declared ++
          ((base.window keys name label kept).columns.map Column.value).flatMap declared := by
      simp [within, clauses, window, wrap, above, removeColumn, numbering]
    rw [hlayer, flatMap_declared_nil hkeys', flatMap_declared_nil hremaining, hkept.declared,
      declared_eq_within, hwithin]
    simp [numbering]

theorem windowFilter_copyable {c : ColumnRef} (hc : c.label < n) (hskip : skip.Copyable n)
    (htake : ∀ a ∈ take, a.Copyable n) (h : (windowFilter (.column c) skip take).Gives next window next') :
    next' = next ∧ window.Copyable n := by
  have hsum : ∀ {a b t : Tree}, (binary .add a b).fold = .ok t → a.Copyable n → b.Copyable n →
      t.Copyable n := by
    intro a b t ht ha hb
    refine fold_copyable ht (copyable_of_children rfl rfl ?_)
    simp only [children, forall_mem_cons]
    exact ⟨ha, hb, nofun⟩
  have hcolumn := copyable_column hc
  obtain ⟨hnext, ⟨rfl, rfl⟩ | ⟨a, first, last, rfl, hfirst, hlast, rfl⟩⟩ := windowFilter_cases h
  · refine ⟨hnext, copyable_of_children rfl rfl ?_⟩
    simp only [children, forall_mem_cons]
    exact ⟨hcolumn, hskip, nofun⟩
  · have ha := htake a rfl
    refine ⟨hnext, copyable_of_children rfl rfl ?_⟩
    simp only [children, forall_mem_cons]
    exact ⟨hcolumn, hsum hfirst hskip (copyable_constant _), hsum hlast hskip ha, nofun⟩

def LowersDrawing (lower : SkipLowering) : Prop :=
  ∀ {s f : Select Tree} {skip : Tree} {take : Option Tree} {next next' : Alias},
    s.unbounded.Fit next → s.unbounded.within.Nodup → s.label ∉ s.unbounded.within → s.label < next →
    (∀ a ∈ s.unbounded.within, a < next) → skip.Copyable next → (∀ a ∈ take, a.Copyable next) →
    (lower s skip take).Gives next f next' →
    f.Fit next' ∧ f.label = s.label ∧ Draws next next' s.unbounded.within f.within

/-- Layers of row numbers declare what the select declares, and aliases from the supply. -/
theorem numberRows_drawn : LowersDrawing numberRows := by
  intro s f skip take next next' hs _ _ _ below hskip htake h
  obtain ⟨o, hordered, base, keys, label, hbase, window, hwindow, rfl⟩ := numberRows_cases h
  obtain ⟨ho, hlabel, hwithin⟩ := hordered.unbounded.fit hs below
  obtain ⟨hbase, hlabel', hdraws, hkeys⟩ := hbase.fit ho
  have hnext := hdraws.next.trans (Nat.le_succ label)
  obtain ⟨rfl, hkept⟩ := windowFilter_copyable (n := label + 1) (Nat.lt_succ_self label)
    (hskip.mono hnext) (fun a ha => (htake a ha).mono hnext) hwindow
  obtain ⟨hfit, hwithin'⟩ := window_fit hbase (freeName_not_mem _ _) hkeys hkept
  refine ⟨hfit, hlabel'.trans hlabel, ?_⟩
  rw [hwithin']
  exact (hwithin ▸ hdraws).trans (.one _ _)

/-! ## Nested orders -/

theorem LayeredAs.fit (h : s.LayeredAs n layer lifted) (hs : s.Fit n) :
    layer.Fit (n + 1) ∧ layer.label = s.label ∧ layer.within = n :: s.within ∧
      (layer.take = none ∧ layer.order = []) ∧ ∀ a ∈ lifted.map SortKey.value, a.Copyable (n + 1) := by
  obtain ⟨inner, hlift, rfl⟩ := h
  have hlabelled := (hs.mono (Nat.le_succ n)).labelled n
  obtain ⟨hinner, hlabel, hwithin, hkeys⟩ := liftOrder_fit hlift hlabelled.1 (Nat.lt_succ_self n)
  have hlabel : inner.label = n := hlabel
  obtain ⟨habove, hdeclared, -⟩ := above_fit (s := s) hs.headers hinner (hlabel ▸ Nat.lt_succ_self _)
  refine ⟨habove, rfl, ?_, ⟨rfl, rfl⟩, hkeys⟩
  rw [hdeclared, hlabel, hwithin, hlabelled.2]

theorem Fit.taken (h : s.Fit n) (htake : s.take = none) (hwindow : window.Fit n) :
    ({ s with take := some window } : Select Tree).Fit n ∧
      ({ s with take := some window } : Select Tree).within.Perm (window.declared ++ s.within) := by
  refine ⟨{ h with take := forall_mem_singleton.2 hwindow }, ?_⟩
  simp only [within, clauses, flatMap_append, htake, Option.toList_some, Option.toList_none,
    flatMap_singleton, append_nil]
  rw [← append_assoc window.declared]
  exact perm_append_comm.append_right _

theorem duplicate_drawn {copy : Tree} (nodup : t.declared.Nodup) (ht : t.Fit next)
    (h : t.duplicate.run next = (copy, next')) :
    copy.Fit next' ∧ Draws next next' [] copy.declared := by
  obtain ⟨f, rfl, hnext, hdrawn, inj, hfixed⟩ := duplicate_gives h
  refine ⟨rename_fit (fun a ha => ?_) ht, hnext, (t.rename f).declared, ?_, ?_, ?_⟩
  · by_cases hmem : a ∈ t.declared
    · exact (hdrawn a hmem).2
    · rw [hfixed a hmem]
      exact ha.trans_le hnext
  · rw [(Renaming.rename f).declared]
    exact nodup.map_on inj
  · rw [(Renaming.rename f).declared]
    intro b hb
    obtain ⟨a, ha, rfl⟩ := mem_map.1 hb
    exact hdrawn a ha
  · rw [append_nil]

theorem remainingRows_drawn (hs : s.Fit next) (nodup : (s.label :: s.within).Nodup)
    (hskip : skip.Copyable next) (h : (s.remainingRows skip).run next = (window, next')) :
    window.Fit next' ∧ Draws next next' [] window.declared := by
  obtain ⟨copy, m, hcopy, rfl, rfl⟩ := remainingRows_cases h
  obtain ⟨hunsorted, hwithin⟩ := hs.unsorted
  have hdeclared : (select (s.sortedBy []) none).declared = s.label :: s.within := by
    rw [declared_eq_within, hwithin]
  obtain ⟨hcopied, hdraws⟩ := duplicate_drawn (hdeclared ▸ nodup) (fit_iff.2 hunsorted) hcopy
  have hm : next ≤ m + 1 := hdraws.next.trans (Nat.le_succ m)
  have haggregate : (aggregate .count none false .int64).Copyable (m + 1) :=
    copyable_of_children rfl rfl nofun
  have hcount : (counting m copy).Fit (m + 1) :=
    ⟨nodup_singleton _, nofun, forall_mem_singleton.2 (hcopied.mono (Nat.le_succ m)), nofun, nofun,
      nofun, nofun, nofun, forall_mem_singleton.2 haggregate.fit⟩
  have hscalar : (scalarSubquery (.select (counting m copy) none) .int64).Fit (m + 1) :=
    fit_of_children rfl rfl (forall_mem_singleton.2 (fit_iff.2 hcount))
  have hdeclared : (binary .subtract (.scalarSubquery (.select (counting m copy) none) .int64)
      skip).declared = m :: copy.declared := by
    have hcounted : (select (counting m copy) none).declared = m :: copy.declared := by
      rw [declared_eq_within]
      simp [counting, within, clauses, haggregate.declared]
    simp only [Tree.declared_eq (.binary _ _ _), Tree.declared_eq (.scalarSubquery _ _), Tree.children,
      Tree.label?, flatMap_cons, flatMap_nil, hcounted, hskip.declared, Option.toList_none,
      nil_append, append_nil]
  refine ⟨fit_of_children rfl rfl ?_, ?_⟩
  · simp only [children, forall_mem_cons]
    exact ⟨hscalar, (hskip.mono hm).fit, by simp⟩
  · rw [hdeclared]
    exact hdraws.trans (.one _ _)

theorem FirstRows.drawn {first : Select Tree} (h : o.FirstRows skip next take first window next')
    (ho : o.unbounded.Fit next) (nodup : (o.label :: o.unbounded.within).Nodup) (hskip : skip.Copyable next)
    (htake : ∀ a ∈ take, a.Copyable next) :
    first.Fit next' ∧ first.label = o.label ∧ first.within.Perm o.unbounded.within ∧ window.Fit next' ∧
      Draws next next' [] window.declared := by
  cases h with
  | @taken _ limit _ sum =>
    obtain ⟨hsum, rfl⟩ := Lowering.gives_evaluating.1 sum
    have htake := htake window rfl
    have hlimit : limit.Copyable next' := by
      refine fold_copyable hsum (copyable_of_children rfl rfl ?_)
      simp only [children, forall_mem_cons]
      exact ⟨hskip, htake, nofun⟩
    obtain ⟨hfirst, hperm⟩ := ho.taken rfl hlimit.fit
    rw [hlimit.declared, nil_append] at hperm
    refine ⟨hfirst, rfl, hperm, htake.fit, ?_⟩
    rw [htake.declared]
    exact .refl _ _
  | counted count =>
    obtain ⟨hwindow, hdraws⟩ := remainingRows_drawn ho nodup hskip count
    exact ⟨ho.mono hdraws.next, rfl, .refl _, hwindow, hdraws⟩

theorem inverted_copyable (h : ∀ a ∈ lifted.map SortKey.value, a.Copyable n) :
    ∀ a ∈ (lifted.map SortKey.inverted).map SortKey.value, a.Copyable n := by
  have hinverted : (lifted.map SortKey.inverted).map SortKey.value = lifted.map SortKey.value := by
    simp [Function.comp_def, SortKey.inverted]
  rw [hinverted]
  exact h

/-- Layers of nested orders declare what the select declares, and aliases from the supply. -/
theorem nestOrders_drawn : LowersDrawing nestOrders := by
  intro s f skip take next next' hs nodup apart label below hskip htake h
  obtain ⟨o, hordered, first, window, m, hfirst, rfl, middle, lifted, outer, lifted', hmiddle, houter,
    rfl⟩ := nestOrders_cases h
  obtain ⟨ho, hlabel, hwithin⟩ := hordered.unbounded.fit hs below
  have hlabel : o.label = s.label := hlabel
  obtain ⟨hfirst, hlabel₁, hwithin₁, hwindow, hdraws⟩ := hfirst.drawn ho
    (by rw [hwithin, hlabel, nodup_cons]; exact ⟨apart, nodup⟩) hskip htake
  obtain ⟨hmiddle, hlabel₂, hwithin₂, ⟨htake₂, -⟩, hkeys⟩ := hmiddle.fit hfirst
  obtain ⟨hsorted, hwithin₃⟩ := hmiddle.sorted (inverted_copyable hkeys)
  obtain ⟨hlast, hperm⟩ := hsorted.taken htake₂ (hwindow.mono (Nat.le_succ m))
  obtain ⟨houter, hlabel₄, hwithin₄, -, hkeys'⟩ := houter.fit hlast
  obtain ⟨hfit, hwithin₅⟩ := houter.sorted (inverted_copyable hkeys')
  refine ⟨hfit, ?_, ?_⟩
  · exact hlabel₄.trans (hlabel₂.trans (hlabel₁.trans hlabel))
  · -- the aliases of the window, and one for each of the two layers
    have hfirst' : Draws next m s.unbounded.within (window.declared ++ first.within) :=
      (hdraws.append s.unbounded.within).of_perm (hwithin₁.append_left _ |>.trans (by rw [hwithin]))
    have hlast' : Draws next (m + 1) s.unbounded.within ((middle.lastRows lifted window).within) := by
      refine (hfirst'.trans (.one _ _)).of_perm (hperm.trans ?_)
      rw [hwithin₃, hwithin₂]
      exact perm_middle
    rw [hwithin₅, hwithin₄]
    exact hlast'.trans (.one _ _)

/-! ## Skipped rows -/

theorem Fit.unbound (h : s.Fit n) (hbounds : ∀ a ∈ s.bounds, a.Copyable n) :
    s.unbounded.Fit n ∧ s.unbounded.within = s.within := by
  refine ⟨{ h with skip := nofun, take := nofun }, ?_⟩
  rw [bounds, forall_mem_append] at hbounds
  simp only [within, unbounded, clauses, flatMap_append, flatMap_declared_nil hbounds.1,
    flatMap_declared_nil hbounds.2, Option.toList_none, flatMap_nil]

theorem lowerSkip_drawn {lower : SkipLowering}
    (hlower : LowersDrawing lower) (hskip : s.skip = some skip) (hs : s.Fit next)
    (hbounds : ∀ a ∈ s.bounds, a.Copyable next) (nodup : (select s i).declared.Nodup)
    (below : ∀ a ∈ (select s i).declared, a < next)
    (h : (s.lowerSkip lower skip).Gives next f next') :
    f.Fit next' ∧ Draws next next' (select s i).declared (select f none).declared := by
  obtain ⟨hunbounded, hwithin⟩ := hs.unbound hbounds
  rw [declared_eq_within] at nodup below ⊢
  rw [bounds, forall_mem_append] at hbounds
  obtain ⟨folded, hfolded, ⟨-, rfl, rfl⟩ | ⟨-, taken, htaken, hgives⟩⟩ := lowerSkip_cases h
  · refine ⟨{ hs with skip := by simp }, ?_⟩
    have hwithin' : ({ s with skip := none } : Select Tree).within = s.within := by
      simp only [within, clauses, flatMap_append, flatMap_declared_nil hbounds.1,
        Option.toList_none, flatMap_nil]
    rw [declared_eq_within, hwithin']
    exact .refl _ _
  · rw [nodup_cons] at nodup
    rw [forall_mem_cons] at below
    rw [← hwithin] at nodup below ⊢
    have hfolded' := fold_copyable hfolded (hbounds.1 skip (Option.mem_toList.2 hskip))
    have htaken' : ∀ b ∈ taken, b.Copyable next := by
      intro b hb
      obtain ⟨a, ha, hfold⟩ := forall₂_mem_right (optionRel_iff.1 htaken) (Option.mem_toList.2 hb)
      exact fold_copyable hfold (hbounds.2 a ha)
    obtain ⟨hf, hlabel, hdraws⟩ := hlower hunbounded nodup.2 nodup.1 below.1 below.2 hfolded' htaken' hgives
    refine ⟨hf, ?_⟩
    rw [declared_eq_within, hlabel]
    exact hdraws.cons _

end Select

section WholeTrees

variable {lower : SkipLowering}

structure Tree.DrawnTo (n n' : Alias) (t u : Tree) : Prop where
  next : n ≤ n'
  declared : Supplied n n' t.declared u.declared
  fit : u.Fit n'
  bare : ∀ kinds, t.Bare kinds → u.Bare kinds

def Tree.SkipsDrawn (lower : SkipLowering) (t : Tree) : Prop :=
  ∀ n u n', (t.lowerSkips lower).Gives n u n' → t.ColumnsBelow n → t.Neat true true → t.declared.Nodup →
    (∀ a ∈ t.declared, a < n) → t.DrawnTo n n' u

theorem Threaded.skipsDrawn {ts us : List Tree}
    (h : Threaded (fun a => lowering.gives (a.bottomUp (lowerSkipAt lower))) ts n us n')
    (ih : ∀ a ∈ ts, a.SkipsDrawn lower) (columns : ∀ a ∈ ts, a.ColumnsBelow n)
    (neat : ∀ a ∈ ts, a.Neat true true)
    (nodup : (ts.flatMap declared).Nodup) (below : ∀ a ∈ ts.flatMap declared, a < n) :
    n ≤ n' ∧ Supplied n n' (ts.flatMap declared) (us.flatMap declared) ∧
      Forall₂ (fun a b => b.Fit n' ∧ ∀ kinds, a.Bare kinds → b.Bare kinds) ts us := by
  induction h with
  | nil => exact ⟨le_rfl, .refl _ _ nodup_nil, .nil⟩
  | @cons t n m n' u ts us head _ rest =>
    rw [forall_mem_cons] at ih columns neat
    rw [flatMap_cons] at nodup below ⊢
    obtain ⟨hnodup, hnodup', -⟩ := nodup_append.1 nodup
    have hhead := ih.1 n u m head columns.1 neat.1 hnodup fun a ha => below a (mem_append_left _ ha)
    obtain ⟨hnext, hsupplied, hall⟩ := rest ih.2 (fun a ha => (columns.2 a ha).mono hhead.next) neat.2 hnodup'
      fun a ha => (below a (mem_append_right _ ha)).trans_le hhead.next
    refine ⟨hhead.next.trans hnext, ?_, .cons ⟨hhead.fit.mono hnext, hhead.bare⟩ hall⟩
    rw [flatMap_cons]
    exact hhead.declared.append hsupplied hhead.next hnext nodup below

theorem Tree.lowerSkipAt_drawn (hlower : Select.LowersDrawing lower)
    (h : (v.lowerSkipAt lower).Gives n u n') (hv : v.Fit n) (neat : ∀ s ∈ v.select?, s.Neat true true)
    (nodup : v.declared.Nodup) (below : ∀ a ∈ v.declared, a < n) : v.DrawnTo n n' u := by
  rcases lowerSkipAt_cases h with ⟨rfl, rfl, -⟩ | ⟨s, i, skip, f, rfl, hskip, rfl, hf⟩
  · exact ⟨le_rfl, .refl _ _ nodup, hv, fun _ h => h⟩
  · have hs := Select.fit_iff.1 hv
    have hbounds : ∀ a ∈ s.bounds, a.Copyable n := by
      intro a ha
      refine copyable_iff.2 ⟨(neat s rfl).bounds rfl a ha, ?_⟩
      rcases mem_append.1 ha with ha | ha
      · exact (hs.skip a ha).1
      · exact (hs.take a ha).1
    obtain ⟨hfit, hdraws⟩ := Select.lowerSkip_drawn hlower hskip hs hbounds nodup below hf
    exact ⟨hdraws.next, hdraws.supplied nodup below, Select.fit_iff.2 hfit, fun _ h =>
      nomatch label?_of_isBare (every_iff.1 h).1⟩

theorem Select.Neat.unpaged {s : Select Tree} (h : s.Neat true true) : s.Neat true false :=
  ⟨h.headers, h.order, nofun⟩

theorem Tree.lowerSkips_drawn (hlower : Select.LowersDrawing lower) (t : Tree) : t.SkipsDrawn lower := by
  induction t with
  | step t ih =>
    intro n u n' h columns neat nodup below
    obtain ⟨v, m, same, children, hreplace, -⟩ := bottomUp_outcome lowering h
    obtain ⟨hcolumn, hcolumns⟩ := every_iff.1 columns
    obtain ⟨hneat, hneats⟩ := every_iff.1 neat
    have hdeclared := t.declared_eq
    rw [hdeclared] at nodup below
    obtain ⟨hlabel, hnodup, -⟩ := nodup_append.1 nodup
    obtain ⟨hnext, hsupplied, hall⟩ := children.skipsDrawn ih hcolumns hneats hnodup fun a ha =>
      below a (mem_append_right _ ha)
    -- the node with its lowered children
    have hv : Supplied n m t.declared v.declared := by
      rw [hdeclared, v.declared_eq, same.label?]
      exact (Supplied.refl n n hlabel).append hsupplied le_rfl hnext nodup below
    have hsame := same.of_children hall
    have hneat' : ∀ s ∈ v.select?, s.Neat true true := hsame.neat (fun _ _ hab ha => ha.imp hab.2) hneat
    have hchildren : ∀ b ∈ v.children, b.Fit m := by
      intro b hb
      obtain ⟨a, -, hab⟩ := forall₂_mem_right hall hb
      exact hab.1
    have hfit : v.Fit m := by
      refine ⟨every_iff.2 ⟨?_, fun b hb => (hchildren b hb).1⟩,
        every_iff.2 ⟨fun s hs => (hneat' s hs).unpaged, fun b hb => (hchildren b hb).2⟩⟩
      rw [same.column?]
      exact fun c hc => (hcolumn c hc).trans_le hnext
    have hbelow : ∀ a ∈ v.declared, a < m := hv.lt fun a ha => (below a (hdeclared ▸ ha)).trans_le hnext
    have hdrawn := lowerSkipAt_drawn hlower hreplace hfit hneat' hv.nodup hbelow
    refine ⟨hnext.trans hdrawn.next, hv.trans hdrawn.declared hnext hdrawn.next, hdrawn.fit,
      fun kinds bare => hdrawn.bare kinds ?_⟩
    exact hsame.every (fun h => same.isBare.trans h) (fun _ _ hab => hab.2 kinds) bare

theorem Tree.lowerPaging_drawn {dialect : Dialect} (h : (t.lowerPaging dialect).Gives n u n')
    (columns : t.ColumnsBelow n) (neat : t.Neat true true) (nodup : t.declared.Nodup)
    (below : ∀ a ∈ t.declared, a < n) : t.DrawnTo n n' u := by
  unfold lowerPaging at h
  split at h
  · exact lowerSkips_drawn Select.numberRows_drawn t n u n' h columns neat nodup below
  · exact lowerSkips_drawn Select.nestOrders_drawn t n u n' h columns neat nodup below

end WholeTrees

/-! ## The lowerings together -/

variable {dialect : Dialect} {c : Config} {joins : Bool}

theorem lowerJoins_drawn (below : ∀ a ∈ t.declared, a < n)
    (columns : t.ColumnsBelow n) (neat : t.Neat joins true) :
    (lowerJoins c [] t).declared.Perm t.declared ∧ (lowerJoins c [] t).ColumnsBelow n ∧
      (lowerJoins c [] t).Neat joins true := by
  have happlied : (if c.lowerApplyJoins then t.lowerApplies else t).declared.Perm t.declared ∧
      (if c.lowerApplyJoins then t.lowerApplies else t).ColumnsBelow n ∧
      (if c.lowerApplyJoins then t.lowerApplies else t).Neat joins true := by
    split
    · exact ⟨t.lowerApplies_declared, lowerApplies_columnsBelow below columns, lowerApplies_neat neat⟩
    · exact ⟨.refl _, columns, neat⟩
  rw [lowerJoins]
  split
  · have hdropped := dropRepeatedLookups_nil (if c.lowerApplyJoins then t.lowerApplies else t)
    rw [hdropped.declared]
    exact ⟨happlied.1, hdropped.columnsBelow (fun _ _ h => h ▸ id) happlied.2.1, hdropped.neat happlied.2.2⟩
  · exact happlied

/-- All lowerings together declare each alias once. -/
theorem lower_drawn (nodup : t.declared.Nodup) (below : ∀ a ∈ t.declared, a < next)
    (columns : t.ColumnsBelow next) (neat : t.Neat (!c.isolates dialect) true)
    (h : (lower dialect [] c t).Gives next u next') :
    next ≤ next' ∧ Supplied next next' t.declared u.declared ∧ u.Fit next' := by
  obtain ⟨bound, lookups, m, isolated, m', hbind, hisolated, hpaged⟩ := lower_gives h
  obtain ⟨rfl, rfl, hpruned⟩ := bindMembers_pruned hbind
  obtain ⟨hperm, hcolumns, hneat⟩ := lowerJoins_drawn (c := c)
    (fun a ha => below a (hpruned.declared.subset ha)) (hpruned.columns m columns) (hpruned.neat _ _ neat)
  have hsupplied : Supplied m m t.declared (lowerJoins c [] bound).declared :=
    ⟨hperm.nodup_iff.2 (nodup.sublist hpruned.declared), fun a ha =>
      .inl (hpruned.declared.subset (hperm.mem_iff.1 ha))⟩
  have hwrapped : m ≤ m' ∧ Supplied m m' t.declared isolated.declared ∧ isolated.ColumnsBelow m' ∧
      isolated.Neat true true := by
    split at hisolated
    · next hisolates =>
      obtain ⟨st, hvisit, rfl⟩ := isolatesTo_of_run hisolated
      have hst := Isolation.untouched_start hsupplied.nodup (hsupplied.lt below)
      have hkept := keeps m _ _ _ _ hvisit hst
      rw [hisolates] at hneat
      exact ⟨hkept.state.next, hsupplied.trans hkept.declared le_rfl hkept.state.next,
        isolates_below m _ _ _ _ hvisit hst hcolumns, (Tree.IsolatedAs.neat ⟨_, _, hvisit⟩ hneat).joined⟩
    · cases hisolated
      exact ⟨le_rfl, hsupplied, hcolumns, hneat.joined⟩
  obtain ⟨hm, hsupplied', hcolumns', hneat'⟩ := hwrapped
  have hdrawn := lowerPaging_drawn hpaged hcolumns' hneat' hsupplied'.nodup
    (hsupplied'.lt fun a ha => (below a ha).trans_le hm)
  exact ⟨hm.trans hdrawn.next, hsupplied'.trans hdrawn.declared hm hdrawn.next, hdrawn.fit⟩

theorem Tree.columnsBelow_iff_referenced : t.ColumnsBelow n ↔ ∀ a ∈ t.referenced, a < n := by
  simp only [columnsBelow_iff, referenced, forall_mem_map, mem_allColumns]

/-- A compiled query declares each alias once and names the columns of every select apart. All of its
aliases were drawn from the supply, and those that the query did not declare were not drawn before. -/
theorem compile_aliases {q : CompiledQuery} (nodup : t.declared.Nodup)
    (below : ∀ a ∈ t.declared ++ t.referenced, a < next) (names : t.NamesDistinct)
    (pages : t.PagesPlain (!c.isolates dialect))
    (compiled : (compile dialect [] c t).run.run next = (.ok q, next')) :
    q.tree.declared.Nodup ∧ (∀ a ∈ q.tree.declared ++ q.tree.referenced, a < next') ∧
      (∀ a ∈ q.tree.declared, a ∉ t.declared → next ≤ a) ∧ q.tree.NamesDistinct := by
  rw [forall_mem_append] at below
  obtain ⟨hnext, hsupplied, hfit⟩ := lower_drawn nodup below.1 (columnsBelow_iff_referenced.2 below.2)
    (neat_of_pagesPlain names pages) (compile_gives compiled)
  refine ⟨hsupplied.nodup, forall_mem_append.2 ⟨?_, columnsBelow_iff_referenced.1 hfit.1⟩,
    fun a ha hold => ?_, fun u hu s hs => (hfit.2 u hu s hs).headers⟩
  · exact hsupplied.lt fun a ha => (below.1 a ha).trans_le hnext
  · exact ((hsupplied.mem a ha).resolve_left hold).1

/-- The pairs of customers who both have notes, from some page on. -/
def pairedNotes : Tree :=
  .select
    { label := 6
      columns := [intColumn 0 "id", intColumn 3 "rank"]
      source := some (.join
        { kind := .leftOuter
          left := .join ⟨.cross, .table 0 "customers", .table 1 "customers", none⟩ none
          right := .select
            { label := 3
              columns := [intColumn 2 "rank", intColumn 2 "customer"]
              source := some (.table 2 "notes")
              order := [⟨.ascending, (intColumn 2 "rank").value⟩]
              skip := some (.int 1) } none
          condition := some (.binary .equal (intColumn 3 "customer").value (intColumn 1 "id").value) } none)
      order := [⟨.descending, (intColumn 0 "id").value⟩]
      skip := some (.int 1) }
    none

theorem compile_aliases_pairedNotes :
    pairedNotes.declared.Nodup ∧ (∀ a ∈ pairedNotes.declared ++ pairedNotes.referenced, a < 7) ∧
      pairedNotes.NamesDistinct ∧ pairedNotes.PagesPlain (!({} : Config).isolates .hive) ∧
      ∃ q next', (compile .hive [] {} pairedNotes).run.run 7 = (.ok q, next') ∧
        q.tree.declared.Nodup ∧ (∀ a ∈ q.tree.declared ++ q.tree.referenced, a < next') ∧
        (∀ a ∈ q.tree.declared, a ∉ pairedNotes.declared → 7 ≤ a) ∧ q.tree.NamesDistinct := by
  have hnodup : pairedNotes.declared.Nodup := by decide
  have hbelow : ∀ a ∈ pairedNotes.declared ++ pairedNotes.referenced, a < 7 := by decide
  have hnames : pairedNotes.NamesDistinct := by decide
  have hpages : pairedNotes.PagesPlain (!({} : Config).isolates .hive) := by decide
  have hok : ((compile .hive [] {} pairedNotes).run.run 7).1.isOk = true := by decide +kernel
  obtain ⟨q, next', hcompiled⟩ := exists_result hok
  exact ⟨hnodup, hbelow, hnames, hpages, q, next', hcompiled,
    compile_aliases hnodup hbelow hnames hpages hcompiled⟩

/-- Customers sorted by a join of constants, which declares no alias but holds a cross join. -/
def joinSorted : Tree :=
  .select
    { label := 1
      columns := [intColumn 0 "id"]
      source := some (.table 0 "customers")
      order := [⟨.ascending, .join
        { kind := .inner
          left := .join ⟨.cross, .int 1, .int 2, none⟩ none
          right := .int 3
          condition := some (.constant (.boolean true)) } none⟩]
      skip := some (.int 1)
      take := some (.int 2) }
    none

/-- The select that isolates the cross join is copied with its sort key. -/
theorem compile_joinSorted_repeats :
    joinSorted.declared.Nodup ∧ (∀ a ∈ joinSorted.declared ++ joinSorted.referenced, a < 2) ∧
      joinSorted.NamesDistinct ∧ joinSorted.PagesPlain true ∧
      ∃ q next', (compile .hive [] {} joinSorted).run.run 2 = (.ok q, next') ∧ ¬ q.tree.declared.Nodup := by
  refine ⟨by decide, by decide, by decide, by decide, ?_⟩
  have hrepeats : (match (compile .hive [] {} joinSorted).run.run 2 with
      | (.ok q, _) => decide q.tree.declared.Nodup
      | (.error _, _) => true) = false := by decide +kernel
  revert hrepeats
  rcases (compile .hive [] {} joinSorted).run.run 2 with ⟨_ | q, next'⟩
  · exact nofun
  · exact fun hrepeats => ⟨q, next', rfl, of_decide_eq_false hrepeats⟩

end HiveQuery
