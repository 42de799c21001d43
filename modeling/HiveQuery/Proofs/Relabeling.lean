import HiveQuery.Entity.Member
import HiveQuery.Proofs.Copies
import HiveQuery.Sql.Text

/-!
# Trees under other aliases

Aliases tell sources apart and say nothing else. All that is read off a tree is read off the relabeled tree too, up to
aliases, and as long as different aliases stay different, comparisons come out the same.
-/

namespace HiveQuery
open List HiveQuery.Tree

mutual

def Tree.relabel (f : Alias → Alias) : Tree → Tree
  | .constant v => .constant v
  | .undefined id => .undefined id
  | .parameter p => .parameter p
  | .binary op l r => .binary op (l.relabel f) (r.relabel f)
  | .unary op t => .unary op (t.relabel f)
  | .between t l u => .between (t.relabel f) (l.relabel f) (u.relabel f)
  | .isNull t => .isNull (t.relabel f)
  | .member t name => .member (t.relabel f) name
  | .record fields => .record (relabelFields f fields)
  | .entity name t => .entity name (t.relabel f)
  | .outerJoined test t => .outerJoined (test.relabel f) (t.relabel f)
  | .table a name => .table (f a) name
  | .column c => .column (c.rename f)
  | .select s id => .select (s.relabel f) id
  | .join ⟨kind, l, r, c⟩ id => .join ⟨kind, l.relabel f, r.relabel f, relabelOption f c⟩ id
  | .scalarSubquery q type => .scalarSubquery (q.relabel f) type
  | .existsSubquery q => .existsSubquery (q.relabel f)
  | .inSubquery t q => .inSubquery (t.relabel f) (q.relabel f)
  | .aggregate kind t distinct type => .aggregate kind (relabelOption f t) distinct type
  | .rowNumber order => .rowNumber (relabelKeys f order)
  | .projection q t id => .projection (q.relabel f) (t.relabel f) id

def Select.relabel (f : Alias → Alias) : Select Tree → Select Tree
  | ⟨label, columns, source, filter, order, group, distinct, skip, take, reverse, cluster⟩ =>
    ⟨f label, relabelColumns f columns, relabelOption f source, relabelOption f filter,
      relabelKeys f order, relabelList f group, distinct, relabelOption f skip, relabelOption f take,
      reverse, relabelList f cluster⟩

def relabelOption (f : Alias → Alias) : Option Tree → Option Tree
  | none => none
  | some t => some (t.relabel f)

def relabelList (f : Alias → Alias) : List Tree → List Tree
  | [] => []
  | t :: ts => t.relabel f :: relabelList f ts

def relabelKeys (f : Alias → Alias) : List (SortKey Tree) → List (SortKey Tree)
  | [] => []
  | ⟨d, t⟩ :: ks => ⟨d, t.relabel f⟩ :: relabelKeys f ks

def relabelColumns (f : Alias → Alias) : List (Column Tree) → List (Column Tree)
  | [] => []
  | ⟨name, t, type⟩ :: cs => ⟨name, t.relabel f, type⟩ :: relabelColumns f cs

def relabelFields (f : Alias → Alias) : List (String × Tree) → List (String × Tree)
  | [] => []
  | (name, t) :: fs => (name, t.relabel f) :: relabelFields f fs

end

def SortKey.relabel (f : Alias → Alias) (k : SortKey Tree) : SortKey Tree :=
  ⟨k.direction, k.value.relabel f⟩

def Column.relabel (f : Alias → Alias) (c : Column Tree) : Column Tree :=
  ⟨c.name, c.value.relabel f, c.type⟩

def Join.relabel (f : Alias → Alias) (j : Join Tree) : Join Tree :=
  ⟨j.kind, j.left.relabel f, j.right.relabel f, j.condition.map (Tree.relabel f)⟩

section Parts

variable {f : Alias → Alias} {t u : Tree} {s : Select Tree}

@[simp] theorem relabelOption_eq (o : Option Tree) : relabelOption f o = o.map (relabel f) := by
  cases o <;> rfl

@[simp] theorem relabelList_eq (ts : List Tree) : relabelList f ts = ts.map (relabel f) := by
  induction ts with
  | nil => rfl
  | cons t ts ih => rw [relabelList, ih, map_cons]

@[simp] theorem relabelKeys_eq (ks : List (SortKey Tree)) :
    relabelKeys f ks = ks.map (SortKey.relabel f) := by
  induction ks with
  | nil => rfl
  | cons k ks ih => rw [relabelKeys, ih, map_cons, SortKey.relabel]

@[simp] theorem relabelColumns_eq (cs : List (Column Tree)) :
    relabelColumns f cs = cs.map (Column.relabel f) := by
  induction cs with
  | nil => rfl
  | cons c cs ih => rw [relabelColumns, ih, map_cons, Column.relabel]

@[simp] theorem relabelFields_eq (fs : List (String × Tree)) :
    relabelFields f fs = fs.map (Prod.map id (relabel f)) := by
  induction fs with
  | nil => rfl
  | cons p fs ih => rw [relabelFields, ih, map_cons, Prod.map, id]

theorem Select.relabel_eq (f : Alias → Alias) (s : Select Tree) :
    s.relabel f =
      { label := f s.label
        columns := s.columns.map (Column.relabel f)
        source := s.source.map (Tree.relabel f)
        filter := s.filter.map (Tree.relabel f)
        order := s.order.map (SortKey.relabel f)
        group := s.group.map (Tree.relabel f)
        distinct := s.distinct
        skip := s.skip.map (Tree.relabel f)
        take := s.take.map (Tree.relabel f)
        reverse := s.reverse
        cluster := s.cluster.map (Tree.relabel f) } := by
  cases s
  simp [relabel]

section

variable (s)

@[simp] theorem Select.label_relabel : (s.relabel f).label = f s.label := by
  cases s; rfl

@[simp] theorem Select.source_relabel :
    (s.relabel f).source = s.source.map (Tree.relabel f) := by
  rw [relabel_eq]

@[simp] theorem Select.filter_relabel :
    (s.relabel f).filter = s.filter.map (Tree.relabel f) := by
  rw [relabel_eq]

@[simp] theorem Select.order_relabel :
    (s.relabel f).order = s.order.map (SortKey.relabel f) := by
  rw [relabel_eq]

@[simp] theorem Select.group_relabel :
    (s.relabel f).group = s.group.map (Tree.relabel f) := by
  rw [relabel_eq]

@[simp] theorem Select.distinct_relabel : (s.relabel f).distinct = s.distinct := by
  cases s; rfl

@[simp] theorem Select.skip_relabel :
    (s.relabel f).skip = s.skip.map (Tree.relabel f) := by
  rw [relabel_eq]

@[simp] theorem Select.take_relabel :
    (s.relabel f).take = s.take.map (Tree.relabel f) := by
  rw [relabel_eq]

@[simp] theorem Select.columns_relabel :
    (s.relabel f).columns = s.columns.map (Column.relabel f) := by
  rw [relabel_eq]

end

@[simp] theorem Tree.relabel_join (j : Join Tree) (i : Option Identity) :
    (join j i).relabel f = .join (j.relabel f) i := by
  cases j
  simp [relabel, Join.relabel]

@[simp] theorem Tree.relabel_record (fields : List (String × Tree)) :
    (record fields).relabel f = .record (fields.map (Prod.map id (relabel f))) :=
  congrArg record (relabelFields_eq fields)

@[simp] theorem Tree.relabel_rowNumber (order : List (SortKey Tree)) :
    (rowNumber order).relabel f = .rowNumber (order.map (SortKey.relabel f)) :=
  congrArg rowNumber (relabelKeys_eq order)

@[simp] theorem Tree.relabel_aggregate (kind : AggregateKind) (o : Option Tree) (distinct : Bool)
    (type : ScalarType) : (aggregate kind o distinct type).relabel f =
      .aggregate kind (o.map (relabel f)) distinct type :=
  congrArg (aggregate kind · distinct type) (relabelOption_eq o)

/-! ## Parts -/

theorem Tree.relabel_node (f : Alias → Alias) (t : Tree) : t.relabel f = t.mapNode f (relabel f) := by
  cases t with
  | select s i => exact congrArg (Tree.select · i) (s.relabel_eq f)
  | join j i => exact relabel_join j i
  | record fields => exact relabel_record fields
  | rowNumber order => exact relabel_rowNumber order
  | aggregate kind o distinct type => exact relabel_aggregate kind o distinct type
  | _ => rfl

theorem Renaming.relabel (f : Alias → Alias) : Renaming f (relabel f) := fun t =>
  congrArg anonymous (t.relabel_node f)

theorem Tree.children_relabel (f : Alias → Alias) (t : Tree) :
    (t.relabel f).children = t.children.map (relabel f) :=
  (Renaming.relabel f).children t

section

variable (t)

@[simp] theorem Tree.label?_relabel : (t.relabel f).label? = t.label?.map f :=
  (Renaming.relabel f).label? t

@[simp] theorem Tree.column?_relabel :
    (t.relabel f).column? = t.column?.map (ColumnRef.rename f) :=
  (Renaming.relabel f).column? t

@[simp] theorem Tree.sources_relabel : (t.relabel f).sources = t.sources.map f :=
  (Renaming.relabel f).sources t

@[simp] theorem Tree.scalarType?_relabel : (t.relabel f).scalarType? = t.scalarType? := by
  induction t with
  | step t ih =>
    cases t with
    | binary op l r =>
      have hl := ih l mem_cons_self
      have hr := ih r (.tail _ (.head _))
      simp only [relabel, scalarType?, hl, hr]
    | unary op t =>
      have ht := ih t mem_cons_self
      cases op <;> simp only [relabel, scalarType?, ht]
    | outerJoined test t =>
      have ht := ih t (.tail _ (.head _))
      simp only [relabel, scalarType?, ht]
    | _ => rfl

@[simp] theorem Tree.isSelect_relabel : (t.relabel f).isSelect = t.isSelect := by
  cases t <;> rfl

@[simp] theorem Tree.isSubquery_relabel : (t.relabel f).isSubquery = t.isSubquery := by
  cases t <;> rfl

@[simp] theorem Tree.isAggregate_relabel : (t.relabel f).isAggregate = t.isAggregate := by
  cases t <;> rfl

@[simp] theorem Tree.constant?_relabel : (t.relabel f).constant? = t.constant? := by
  cases t <;> rfl

@[simp] theorem Tree.parameter?_relabel : (t.relabel f).parameter? = t.parameter? := by
  cases t <;> rfl

@[simp] theorem Tree.identity?_relabel : (t.relabel f).identity? = t.identity? := by
  cases t <;> rfl

@[simp] theorem Tree.anonymous_relabel :
    (t.relabel f).anonymous = t.anonymous.relabel f := by
  cases t <;> rfl

end

theorem Tree.relabel_id (t : Tree) : t.relabel id = t := by
  induction t with
  | step t ih =>
    calc t.relabel id = t.mapNode id (relabel id) := t.relabel_node id
      _ = t.mapNode id id := mapNode_congr (fun _ _ => rfl) (fun _ _ => rfl) ih
      _ = t := t.mapNode_id

theorem Tree.relabel_relabel (f g : Alias → Alias) (t : Tree) : (t.relabel f).relabel g = t.relabel (g ∘ f) := by
  induction t with
  | step t ih =>
    rw [relabel_node g, relabel_node f, mapNode_mapNode, relabel_node (g ∘ f)]
    exact mapNode_congr (fun _ _ => rfl) (fun _ _ => rfl) ih

/-! ## Walks -/

theorem Tree.walk_relabel {stop : Tree → Bool} (hstop : ∀ u, stop (u.relabel f) = stop u) (t : Tree) :
    (t.relabel f).walk stop = (t.walk stop).map (relabel f) := by
  induction t with
  | step t ih =>
    rw [walk_eq, t.walk_eq, hstop, children_relabel, map_cons]
    congr 1
    split
    · rfl
    · rw [flatMap_map, map_flatMap]
      exact flatMap_congr ih

theorem Tree.subtrees_relabel (t : Tree) : (t.relabel f).subtrees = t.subtrees.map (relabel f) :=
  t.walk_relabel fun _ => rfl

theorem Tree.parameters_relabel (t : Tree) : (t.relabel f).parameters = t.parameters := by
  have hgathered : (t.relabel f).subtrees.filterMap parameter? =
      t.subtrees.filterMap parameter? := by
    rw [subtrees_relabel, filterMap_map]
    exact filterMap_congr fun u _ => u.parameter?_relabel
  rw [parameters, parameters, hgathered]

theorem Tree.identities_relabel (t : Tree) : (t.relabel f).identities = t.identities := by
  rw [identities, identities, subtrees_relabel, filterMap_map]
  exact filterMap_congr fun u _ => u.identity?_relabel

@[simp] theorem Tree.freshIdentity_relabel (t : Tree) :
    (t.relabel f).freshIdentity = t.freshIdentity := by
  rw [freshIdentity, freshIdentity, identities_relabel]

@[simp] theorem Tree.holdsIdentified_relabel (t : Tree) :
    (t.relabel f).holdsIdentified = t.holdsIdentified := by
  rw [holdsIdentified, holdsIdentified, subtrees_relabel, any_map]
  congr 1
  funext u
  cases u <;> rfl

@[simp] theorem Tree.hasAggregate_relabel (t : Tree) : (t.relabel f).hasAggregate = t.hasAggregate := by
  rw [hasAggregate, hasAggregate, walk_relabel (fun u => by simp), any_map]
  congr 1
  funext u
  exact u.isAggregate_relabel

@[simp] theorem Select.hasAggregates_relabel (s : Select Tree) :
    (s.relabel f).hasAggregates = s.hasAggregates := by
  simp [hasAggregates, relabel_eq, SortKey.relabel, Column.relabel, Option.any_map,
    any_map, Function.comp_def]

theorem openFirstSelect_relabel (ts : List Tree) :
    openFirstSelect (ts.map (relabel f)) = (openFirstSelect ts).map (relabel f) := by
  induction ts with
  | nil => rfl
  | cons t ts ih =>
    cases t with
    | select s i =>
      have hinside : (s.relabel f).inside isSelect = (s.inside isSelect).map (relabel f) := by
        have hselect := (select s i).inside_eq isSelect
        have hrelabeled := ((select s i).relabel f).inside_eq isSelect
        rw [children_relabel, flatMap_map,
          flatMap_congr fun u _ => u.walk_relabel isSelect_relabel, ← map_flatMap,
          ← hselect] at hrelabeled
        exact hrelabeled
      simp only [map_cons, relabel, openFirstSelect, hinside, map_append]
    | _ => exact congrArg _ ih

end Parts

/-! ## Different aliases stay different -/

section Lists

variable {α β : Type} [BEq α] [LawfulBEq α] [BEq β] [LawfulBEq β] {g : α → β} (hg : Function.Injective g)

include hg

theorem beq_map (a b : α) : (g a == g b) = (a == b) := by
  rw [Bool.eq_iff_iff, beq_iff_eq, beq_iff_eq, hg.eq_iff]

theorem contains_map (l : List α) (a : α) : (l.map g).contains (g a) = l.contains a := by
  rw [Bool.eq_iff_iff, contains_iff_mem, contains_iff_mem, mem_map_of_injective hg]

theorem lookup_map {γ δ : Type} (h : γ → δ) (l : List (α × γ)) (a : α) :
    (l.map (Prod.map g h)).lookup (g a) = (l.lookup a).map h := by
  induction l with
  | nil => rfl
  | cons p l ih =>
    rw [map_cons, Prod.map, lookup_cons, lookup_cons, beq_map hg, ih]
    split <;> rfl

theorem firstOccurrences_map (l : List α) : firstOccurrences (l.map g) = (firstOccurrences l).map g := by
  induction l using reverseRecOn with
  | nil => rfl
  | append_singleton l a ih =>
    rw [map_append, map_singleton, firstOccurrences_concat, firstOccurrences_concat, ih, contains_map hg,
      apply_ite (map g), map_append, map_singleton]

end Lists

theorem ColumnRef.rename_injective {f : Alias → Alias} (hf : Function.Injective f) :
    Function.Injective (rename f) := by
  rintro ⟨type, columnType, label, name⟩ ⟨type', columnType', label', name'⟩ h
  simp only [rename, ColumnRef.mk.injEq] at h
  obtain ⟨rfl, rfl, hlabel, rfl⟩ := h
  rw [hf hlabel]

namespace Tree

variable {f : Alias → Alias} (hf : Function.Injective f)

include hf

theorem filterMap_column?_relabel (ts : List Tree) :
    firstOccurrences ((ts.map (relabel f)).filterMap column?) =
      (firstOccurrences (ts.filterMap column?)).map (ColumnRef.rename f) := by
  rw [← firstOccurrences_map (ColumnRef.rename_injective hf), filterMap_map, map_filterMap]
  congr 1
  exact filterMap_congr fun u _ => u.column?_relabel

theorem allColumns_relabel (t : Tree) : (t.relabel f).allColumns = t.allColumns.map (ColumnRef.rename f) := by
  rw [allColumns, subtrees_relabel, filterMap_column?_relabel hf]
  rfl

theorem referenced_relabel (t : Tree) : (t.relabel f).referenced = t.referenced.map f := by
  rw [referenced, allColumns_relabel hf, referenced, map_map, map_map]
  rfl

theorem ownColumns_relabel (t : Tree) : (t.relabel f).ownColumns = t.ownColumns.map (ColumnRef.rename f) := by
  rw [ownColumns, walk_relabel isSelect_relabel, openFirstSelect_relabel, filterMap_column?_relabel hf]
  rfl

theorem renewIf_relabel {anew anew' : ColumnRef → Bool} (h : ∀ c, anew' (c.rename f) = anew c)
    (t : Tree) : (t.relabel f).renewIf anew' = (t.renewIf anew).relabel f := by
  have hany : (t.relabel f).allColumns.any anew' = t.allColumns.any anew := by
    rw [allColumns_relabel hf, any_map]
    exact congrArg _ (funext h)
  rw [renewIf, renewIf, identity?_relabel, hany]
  split
  · exact t.anonymous_relabel
  · rfl

end Tree

/-! ## Comparisons -/

def Pairing.relabel (f : Alias → Alias) (p : Pairing) : Pairing :=
  ⟨p.pairs.map (Prod.map f f), p.copies⟩

section Comparisons

variable {f : Alias → Alias} {p : Pairing}

theorem Pairing.extend_relabel (p : Pairing) (same : Bool) (a b : Tree) :
    (p.relabel f).extend same (a.relabel f) (b.relabel f) = (p.extend same a b).relabel f := by
  simp [extend, relabel, zip_map]

theorem Pairing.extendOption_relabel (p : Pairing) (same : Bool) (a b : Option Tree) :
    (p.relabel f).extendOption same (a.map (Tree.relabel f)) (b.map (Tree.relabel f)) =
      (p.extendOption same a b).relabel f := by
  cases a with
  | none => rfl
  | some a =>
    cases b with
    | none => rfl
    | some b => exact p.extend_relabel same a b

theorem Pairing.matches_relabel (hf : Function.Injective f) (p : Pairing) (a b : Alias) :
    (p.relabel f).matches (f a) (f b) = p.matches a b := by
  rw [Pairing.matches, Pairing.matches, Pairing.relabel, lookup_map hf]
  cases p.pairs.lookup a with
  | none => exact beq_map hf a b
  | some c => exact beq_map hf c b

def Tree.ComparesAlike (f : Alias → Alias) (t : Tree) : Prop :=
  ∀ p u, (t.relabel f).equalUnder (p.relabel f) (u.relabel f) = t.equalUnder p u

theorem equalOption_relabel {o o' : Option Tree} (ih : ∀ t ∈ o.toList, t.ComparesAlike f) :
    equalOption (p.relabel f) (o.map (relabel f)) (o'.map (relabel f)) = equalOption p o o' := by
  cases o with
  | none => cases o' <;> rfl
  | some t =>
    cases o' with
    | none => rfl
    | some t' => exact ih t (mem_singleton_self t) p t'

theorem equalList_relabel {ts ts' : List Tree} (ih : ∀ t ∈ ts, t.ComparesAlike f) :
    equalList (p.relabel f) (ts.map (relabel f)) (ts'.map (relabel f)) = equalList p ts ts' := by
  induction ts generalizing ts' with
  | nil => cases ts' <;> rfl
  | cons t ts hts =>
    rw [forall_mem_cons] at ih
    cases ts' with
    | nil => rfl
    | cons t' ts' => simp only [map_cons, equalList, ih.1 p t', hts ih.2]

theorem equalKeys_relabel {ks ks' : List (SortKey Tree)} (ih : ∀ t ∈ ks.map SortKey.value, t.ComparesAlike f) :
    equalKeys (p.relabel f) (ks.map (SortKey.relabel f)) (ks'.map (SortKey.relabel f)) =
      equalKeys p ks ks' := by
  induction ks generalizing ks' with
  | nil => cases ks' <;> rfl
  | cons k ks hks =>
    rw [map_cons, forall_mem_cons] at ih
    cases ks' with
    | nil => rfl
    | cons k' ks' => simp only [map_cons, SortKey.relabel, equalKeys, ih.1 p k'.value, hks ih.2]

theorem equalColumns_relabel {cs cs' : List (Column Tree)} (ih : ∀ t ∈ cs.map Column.value, t.ComparesAlike f) :
    equalColumns (p.relabel f) (cs.map (Column.relabel f)) (cs'.map (Column.relabel f)) =
      equalColumns p cs cs' := by
  induction cs generalizing cs' with
  | nil => cases cs' <;> rfl
  | cons c cs hcs =>
    rw [map_cons, forall_mem_cons] at ih
    cases cs' with
    | nil => rfl
    | cons c' cs' => simp only [map_cons, Column.relabel, equalColumns, ih.1 p c'.value, hcs ih.2]

theorem equalFields_relabel {fs fs' : List (String × Tree)} (ih : ∀ t ∈ fs.map Prod.snd, t.ComparesAlike f) :
    equalFields (p.relabel f) (fs.map (Prod.map id (relabel f)))
      (fs'.map (Prod.map id (relabel f))) = equalFields p fs fs' := by
  induction fs generalizing fs' with
  | nil => cases fs' <;> rfl
  | cons q fs hfs =>
    rw [map_cons, forall_mem_cons] at ih
    cases fs' with
    | nil => rfl
    | cons q' fs' => simp only [map_cons, Prod.map, id, equalFields, ih.1 p q'.2, hfs ih.2]

theorem Select.equalUnder_relabel {s s' : Select Tree} {same : Bool}
    (ih : ∀ t ∈ s.clauses, t.ComparesAlike f) :
    (s.relabel f).equalUnder (p.relabel f) same (s'.relabel f) = s.equalUnder p same s' := by
  cases s
  simp only [clauses, forall_mem_append] at ih
  obtain ⟨⟨⟨⟨⟨⟨⟨source, filter⟩, order⟩, group⟩, cluster⟩, skip⟩, take⟩, columns⟩ := ih
  simp only [relabel_eq, equalUnder, Pairing.extendOption_relabel, equalOption_relabel source,
    equalOption_relabel filter, equalKeys_relabel order, equalList_relabel group, equalList_relabel cluster,
    equalOption_relabel skip, equalOption_relabel take, equalColumns_relabel columns]

/-- Trees compare as before if different aliases stay different. -/
theorem Tree.equalUnder_relabel (hf : Function.Injective f) (t : Tree) : t.ComparesAlike f := by
  induction t with
  | step t ih =>
    intro p u
    cases t with
    | select s i =>
      cases u with
      | select s' i' => exact Select.equalUnder_relabel ih
      | _ => rfl
    | join j i =>
      cases u with
      | join j' i' =>
        obtain ⟨kind, l, r, c⟩ := j
        obtain ⟨kind', l', r', c'⟩ := j'
        simp only [children, forall_mem_cons] at ih
        obtain ⟨hl, hr, hc⟩ := ih
        simp only [relabel_join, Join.relabel, equalUnder, hl p l', Pairing.extend_relabel,
          equalOption_relabel hc]
        congr 2
        split
        · exact hr _ r'
        · exact hr _ r'
      | _ => rfl
    | column c =>
      cases u with
      | column c' =>
        show ((c.rename f).name == (c'.rename f).name && (p.relabel f).matches (f c.label) (f c'.label)) = _
        rw [Pairing.matches_relabel hf]
        rfl
      | _ => rfl
    | record fields =>
      cases u with
      | record fields' => simpa [relabel, equalUnder] using equalFields_relabel ih
      | _ => rfl
    | rowNumber order =>
      cases u with
      | rowNumber order' => simpa [relabel, equalUnder] using equalKeys_relabel ih
      | _ => rfl
    | aggregate kind a distinct type =>
      cases u with
      | aggregate kind' a' distinct' type' =>
        simp only [relabel, equalUnder, relabelOption_eq, equalOption_relabel (o := a) ih]
      | _ => rfl
    | projection q a i =>
      cases u with
      | projection q' a' i' =>
        simp only [children, forall_mem_cons] at ih
        simp only [relabel, equalUnder, Pairing.extend_relabel, ih.1 p q', ih.2.1 _ a']
      | _ => rfl
    | unary _ a | isNull a | member a _ | entity _ a | scalarSubquery a _ | existsSubquery a =>
      have ha := ih a mem_cons_self
      cases u <;> simp only [relabel, equalUnder, ha p _]
    | binary _ a b | outerJoined a b | inSubquery a b =>
      have ha := ih a mem_cons_self
      have hb := ih b (.tail _ (.head _))
      cases u <;> simp only [relabel, equalUnder, ha p _, hb p _]
    | between a b c =>
      simp only [children, forall_mem_cons] at ih
      cases u <;> simp only [relabel, equalUnder, ih.1 p _, ih.2.1 p _, ih.2.2.1 p _]
    | constant | undefined | parameter | table => cases u <;> rfl

theorem Tree.equal_relabel (hf : Function.Injective f) (t u : Tree) :
    (t.relabel f).equal (u.relabel f) = t.equal u :=
  t.equalUnder_relabel hf (.ofPairs []) u

theorem Tree.beq_relabel_of (f : Alias → Alias) {t u : Tree} (h : t.beq u = true) :
    (t.relabel f).beq (u.relabel f) = true := by
  induction t generalizing u with
  | step t ih =>
    have htypes : ∀ v : Tree, (v.mapNode f (relabel f)).columnTypes = v.columnTypes := fun v => by
      cases v <;> simp [mapNode, columnTypes, Function.comp_def]
    rw [beq_iff, t.relabel_node, u.relabel_node]
    cases beq_iff.1 h with
    | constant equal => exact .constant equal
    | node constant same identity types =>
      refine .node (fun x hx => ?_) (same.mapNode f fun a b ha hab => ih a ha hab) ?_ ?_
      · cases t <;> cases hx
        exact constant x rfl
      · rw [← relabel_node, ← relabel_node, identity?_relabel, identity?_relabel, identity]
      · rw [htypes, htypes, types]

theorem Tree.beq_relabel (hf : Function.Injective f) (t u : Tree) : (t.relabel f).beq (u.relabel f) = t.beq u := by
  obtain ⟨g, hg⟩ := hf.hasLeftInverse
  have hback : ∀ v : Tree, (v.relabel f).relabel g = v := fun v => by
    rw [relabel_relabel, hg.comp_eq_id, relabel_id]
  refine Bool.eq_iff_iff.2 ⟨fun h => ?_, beq_relabel_of f⟩
  rw [← hback t, ← hback u]
  exact beq_relabel_of g h

theorem beqOption_relabel (hf : Function.Injective f) (o o' : Option Tree) :
    beqOption (o.map (relabel f)) (o'.map (relabel f)) = beqOption o o' := by
  cases o <;> cases o' <;> first | rfl | exact beq_relabel hf _ _

theorem Select.beq_relabel (hf : Function.Injective f) (s s' : Select Tree) :
    (s.relabel f).beq (s'.relabel f) = s.beq s' :=
  Tree.beq_relabel hf (.select s none) (.select s' none)

end Comparisons

/-! ## Which aliases count -/

def Tree.aliases (t : Tree) : List Alias :=
  t.declared ++ t.referenced

section Aliases

variable {f g : Alias → Alias} {t : Tree} {a : Alias}

theorem Tree.mem_aliases :
    a ∈ t.aliases ↔ ∃ u ∈ t.subtrees, u.label? = some a ∨ ∃ c ∈ u.column?, c.label = a := by
  simp only [aliases, declared, referenced, allColumns, mem_append, mem_filterMap,
    mem_map, mem_firstOccurrences, Option.mem_def]
  grind

/-- Only the aliases in a tree count. -/
theorem Tree.relabel_congr (h : ∀ a ∈ t.aliases, f a = g a) : t.relabel f = t.relabel g := by
  induction t with
  | step t ih =>
    have hroot : t ∈ t.subtrees := mem_subtrees.2 (.inl rfl)
    rw [t.relabel_node f, t.relabel_node g]
    refine mapNode_congr (fun a ha => h a (mem_aliases.2 ⟨t, hroot, .inl ha⟩))
      (fun c hc => h _ (mem_aliases.2 ⟨t, hroot, .inr ⟨c, hc, rfl⟩⟩)) fun u hu => ih u hu fun a ha => ?_
    obtain ⟨v, hv, hva⟩ := mem_aliases.1 ha
    exact h a (mem_aliases.2 ⟨v, mem_subtrees.2 (.inr ⟨u, hu, hv⟩), hva⟩)

theorem Tree.mem_aliases_relabel : a ∈ (t.relabel f).aliases ↔ ∃ b ∈ t.aliases, f b = a := by
  simp only [mem_aliases, subtrees_relabel]
  constructor
  · rintro ⟨v, hv, ha⟩
    obtain ⟨u, hu, rfl⟩ := mem_map.1 hv
    rw [label?_relabel, column?_relabel] at ha
    rcases ha with ha | ⟨d, hd, rfl⟩
    · obtain ⟨b, hb, rfl⟩ := Option.map_eq_some_iff.1 ha
      exact ⟨b, ⟨u, hu, .inl hb⟩, rfl⟩
    · obtain ⟨c, hc, rfl⟩ := Option.map_eq_some_iff.1 hd
      exact ⟨c.label, ⟨u, hu, .inr ⟨c, hc, rfl⟩⟩, rfl⟩
  · rintro ⟨b, ⟨u, hu, hb⟩, rfl⟩
    refine ⟨_, mem_map_of_mem hu, ?_⟩
    rw [label?_relabel, column?_relabel]
    rcases hb with hb | ⟨c, hc, rfl⟩
    · exact .inl (Option.map_eq_some_iff.2 ⟨b, hb, rfl⟩)
    · exact .inr ⟨_, Option.map_eq_some_iff.2 ⟨c, hc, rfl⟩, rfl⟩

end Aliases

end HiveQuery
