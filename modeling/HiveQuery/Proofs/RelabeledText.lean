import HiveQuery.Proofs.Coupling

/-!
# Scopes and text under other aliases

Sources are named in the order in which they are declared, so that the text of a tree does not depend on
its aliases.
-/

namespace HiveQuery
open List

variable {f : Alias → Alias}

/-! ## Scopes -/

/-- The same trees are accepted. -/
theorem Tree.checkScopesIn_relabel (hf : Function.Injective f) (t : Tree) (scope : List Alias) :
    (t.relabel f).checkScopesIn (scope.map f) = .ok () ↔ t.checkScopesIn scope = .ok () := by
  induction t generalizing scope with
  | step t ih =>
    rw [checkScopesIn_eq_ok, t.checkScopesIn_eq_ok, (Renaming.relabel f).bindings, forall_mem_map]
    refine and_congr ?_ (forall₂_congr fun p hp => ?_)
    · rw [column?_relabel]
      cases t.column? with
      | none => simp
      | some c => simp [ColumnRef.rename, hf.eq_iff]
    · rw [← map_append]
      exact ih p.2 (mem_children_of_bindings hp) (p.1 ++ scope)

/-! ## Text -/

def SqlError.relabel (f : Alias → Alias) : SqlError → SqlError
  | .undeclared label => .undeclared (f label)
  | e => e

/-- Texts are the same, and errors are the same up to aliases. -/
def spelling (f : Alias → Alias) : Coupling (Except SqlError) :=
  .fallible fun e e' => e.relabel f = e'

def Sql.Context.relabel (f : Alias → Alias) (cx : Sql.Context) : Sql.Context :=
  ⟨cx.dialect, cx.sources.map f⟩

section Text

variable {cx : Sql.Context}

theorem Sql.Context.name_relabel (hf : Function.Injective f) (cx : Context) (a : Alias) :
    (spelling f).rel Eq (cx.name a) ((cx.relabel f).name (f a)) := by
  have hfind : (cx.sources.map f).findIdx? (· == f a) = cx.sources.findIdx? (· == a) := by
    rw [findIdx?_map]
    congr 1
    funext b
    exact beq_map hf b a
  rw [name, name, relabel, hfind]
  cases cx.sources.findIdx? (· == a) with
  | none => exact .error rfl
  | some i => exact .ok rfl

structure Tree.SpelledAlike (f : Alias → Alias) (cx : Sql.Context) (t : Tree) : Prop where
  scalar : (spelling f).rel Eq (t.scalarSql cx) ((t.relabel f).scalarSql (cx.relabel f))
  source : (spelling f).rel Eq (t.sourceSql cx) ((t.relabel f).sourceSql (cx.relabel f))

theorem fromSql_relabel {o : Option Tree} (ih : ∀ t ∈ o.toList, t.SpelledAlike f cx) :
    (spelling f).rel Eq (fromSql cx o) (fromSql (cx.relabel f) (o.map (Tree.relabel f))) := by
  cases o with
  | none => exact .ok rfl
  | some t => exact .bind (ih t (mem_singleton_self t)).source fun _ _ h => .ok (congrArg _ h)

theorem conditionSql_relabel (word : String) {o : Option Tree} (ih : ∀ t ∈ o.toList, t.SpelledAlike f cx) :
    (spelling f).rel Eq (conditionSql cx word o) (conditionSql (cx.relabel f) word (o.map (Tree.relabel f))) := by
  cases o with
  | none => exact .ok rfl
  | some t => exact .bind (ih t (mem_singleton_self t)).scalar fun _ _ h => .ok (congrArg _ h)

theorem listSql_relabel {ts : List Tree} (ih : ∀ t ∈ ts, t.SpelledAlike f cx) :
    (spelling f).rel Eq (listSql cx ts) (listSql (cx.relabel f) (ts.map (Tree.relabel f))) := by
  induction ts with
  | nil => exact .ok rfl
  | cons t ts hts =>
    rw [forall_mem_cons] at ih
    exact .bind ih.1.scalar fun _ _ h => .bind (hts ih.2) fun _ _ h' =>
      .ok (congrArg₂ cons h h')

theorem keysSql_relabel (invert : Bool) {ks : List (SortKey Tree)}
    (ih : ∀ t ∈ ks.map SortKey.value, t.SpelledAlike f cx) :
    (spelling f).rel Eq (keysSql cx invert ks) (keysSql (cx.relabel f) invert (ks.map (SortKey.relabel f))) := by
  induction ks with
  | nil => exact .ok rfl
  | cons k ks hks =>
    rw [map_cons, forall_mem_cons] at ih
    exact .bind ih.1.scalar fun _ _ h => .bind (hks ih.2) fun _ _ h' =>
      .ok (congrArg₂ (fun text texts => Sql.directed (if invert then k.direction.inverted else k.direction) text
        :: texts) h h')

theorem columnsSql_relabel {cs : List (Column Tree)} (ih : ∀ t ∈ cs.map Column.value, t.SpelledAlike f cx) :
    (spelling f).rel Eq (columnsSql cx cs) (columnsSql (cx.relabel f) (cs.map (Column.relabel f))) := by
  induction cs with
  | nil => exact .ok rfl
  | cons c cs hcs =>
    rw [map_cons, forall_mem_cons] at ih
    refine .bind ih.1.scalar fun text _ h => .bind (hcs ih.2) fun texts _ h' => .ok ?_
    subst h h'
    refine congrArg (· :: texts) ?_
    obtain ⟨name, t, type⟩ := c
    cases t <;> rfl

theorem Sql.limitOf_relabel (o : Option Tree) :
    (spelling f).rel Eq (limitOf o) (limitOf (o.map (Tree.relabel f))) := by
  cases o with
  | none => exact .ok rfl
  | some t =>
    cases t with
    | constant v =>
      simp only [limitOf, Option.map_some, Tree.relabel]
      cases v.toInt64? with
      | none => exact .error rfl
      | some n => exact .ok rfl
    | _ => exact .error rfl

theorem Select.sql_relabel {s : Select Tree} (ih : ∀ t ∈ s.clauses, t.SpelledAlike f cx) :
    (spelling f).rel Eq (s.sql cx) ((s.relabel f).sql (cx.relabel f)) := by
  cases s
  simp only [clauses, forall_mem_append] at ih
  obtain ⟨⟨⟨⟨⟨⟨⟨source, filter⟩, order⟩, group⟩, cluster⟩, -⟩, -⟩, columns⟩ := ih
  simp only [relabel_eq, sql, Option.isSome_map, isEmpty_map]
  split
  · exact .error rfl
  · refine .bind (columnsSql_relabel columns) fun _ _ hcolumns => ?_
    refine .bind (fromSql_relabel source) fun _ _ hsource => ?_
    refine .bind (conditionSql_relabel _ filter) fun _ _ hfilter => ?_
    refine .bind (listSql_relabel group) fun _ _ hgroup => ?_
    refine .bind (listSql_relabel cluster) fun _ _ hcluster => ?_
    refine .bind (R := Eq) ?_ fun _ _ horder => ?_
    · split
      · exact .error rfl
      · exact keysSql_relabel _ order
    refine .bind (Sql.limitOf_relabel _) fun _ _ hlimit => ?_
    subst hcolumns hsource hfilter hgroup hcluster horder hlimit
    exact .ok rfl

theorem Tree.spelledAlike (hf : Function.Injective f) (cx : Sql.Context) (t : Tree) : t.SpelledAlike f cx := by
  induction t with
  | step t ih =>
    have hone {a : Tree} (text : String → String) (ha : a ∈ t.children) :
        (spelling f).rel Eq (do return text (← a.scalarSql cx))
          (do return text (← (a.relabel f).scalarSql (cx.relabel f))) :=
      .bind (ih a ha).scalar fun _ _ h => .ok (congrArg text h)
    have htwo {a b : Tree} (text : String → String → String) (ha : a ∈ t.children) (hb : b ∈ t.children) :
        (spelling f).rel Eq (do return text (← a.scalarSql cx) (← b.scalarSql cx))
          (do return text (← (a.relabel f).scalarSql (cx.relabel f)) (← (b.relabel f).scalarSql (cx.relabel f))) :=
      .bind (ih a ha).scalar fun _ _ h => .bind (ih b hb).scalar fun _ _ h' =>
        .ok (congrArg₂ text h h')
    cases t with
    | constant | undefined | parameter => exact ⟨.ok rfl, .error rfl⟩
    | member | record | entity | projection => exact ⟨.error rfl, .error rfl⟩
    | table a name =>
      exact ⟨.error rfl, .bind (cx.name_relabel hf a) fun _ _ h => .ok (congrArg (_ ++ " " ++ ·) h)⟩
    | column c =>
      exact ⟨.bind (cx.name_relabel hf c.label) fun _ _ h =>
        .ok (congrArg (· ++ "." ++ Sql.quoteIdent c.name) h), .error rfl⟩
    | select s i =>
      have hsql := Select.sql_relabel (s := s) ih
      refine ⟨.bind hsql fun _ _ h => .ok (congrArg (fun sql => "(" ++ sql ++ ")") h), ?_⟩
      refine .bind hsql fun sql _ h => ?_
      rw [Select.label_relabel]
      exact .bind (cx.name_relabel hf s.label) fun _ _ h' =>
        .ok (congrArg₂ (fun sql name => "(" ++ sql ++ ") " ++ name) h h')
    | join j i =>
      obtain ⟨kind, l, r, c⟩ := j
      simp only [children, forall_mem_cons] at ih
      refine ⟨.error rfl, ?_⟩
      simp only [relabel_join, Join.relabel, sourceSql]
      cases Sql.joinWords? kind with
      | none => exact .error rfl
      | some words =>
        refine .bind ih.1.source fun _ _ hl => .bind ih.2.1.source fun _ _ hr =>
          .bind (conditionSql_relabel " ON " ih.2.2) fun _ _ hc => .ok ?_
        subst hl hr hc
        rfl
    | outerJoined _ a => exact ⟨(ih a (.tail _ (.head _))).scalar, .error rfl⟩
    | scalarSubquery a => exact ⟨(ih a mem_cons_self).scalar, .error rfl⟩
    | unary op a =>
      refine ⟨?_, .error rfl⟩
      cases op with
      | not => exact hone (fun text => "(NOT " ++ text ++ ")") mem_cons_self
      | negate => exact hone (fun text => "(-" ++ text ++ ")") mem_cons_self
    | isNull a => exact ⟨hone (fun text => "(" ++ text ++ " IS NULL)") mem_cons_self, .error rfl⟩
    | existsSubquery a => exact ⟨hone (fun text => "EXISTS " ++ text) mem_cons_self, .error rfl⟩
    | binary op a b =>
      exact ⟨htwo (fun l r => "(" ++ l ++ " " ++ op.sqlOperator ++ " " ++ r ++ ")") mem_cons_self
        (.tail _ (.head _)), .error rfl⟩
    | inSubquery a b =>
      exact ⟨htwo (fun l r => "(" ++ l ++ " IN " ++ r ++ ")") mem_cons_self (.tail _ (.head _)), .error rfl⟩
    | between a b c =>
      simp only [children, forall_mem_cons] at ih
      refine ⟨.bind ih.1.scalar fun _ _ ha => .bind ih.2.1.scalar fun _ _ hb =>
        .bind ih.2.2.1.scalar fun _ _ hc => .ok ?_, .error rfl⟩
      subst ha hb hc
      rfl
    | aggregate kind o distinct type =>
      refine ⟨?_, .error rfl⟩
      rw [relabel_aggregate]
      have hargument : (spelling f).rel Eq (argumentSql cx o)
          (argumentSql (cx.relabel f) (o.map (relabel f))) := by
        cases o with
        | none => exact .ok rfl
        | some t => exact (ih t (mem_singleton_self t)).scalar
      exact .bind hargument fun _ _ h => .ok (congrArg (fun text =>
        kind.sqlName ++ "(" ++ (if distinct then "DISTINCT " else "") ++ text ++ ")") h)
    | rowNumber order =>
      refine ⟨?_, .error rfl⟩
      rw [relabel_rowNumber]
      simp only [scalarSql]
      show (spelling f).rel Eq _ (if cx.dialect.allowsRowNumber then _ else _)
      split
      · exact .bind (keysSql_relabel false ih) fun _ _ h => .ok (congrArg (fun keys =>
          "ROW_NUMBER() OVER (ORDER BY " ++ Sql.list keys ++ ")") h)
      · exact .error rfl

theorem Tree.introduces_relabel (t : Tree) : (t.relabel f).introduces = t.introduces.map f := by
  cases t with
  | select s i =>
    simp only [relabel, introduces, Select.source_relabel]
    cases s.source with
    | none => rfl
    | some u =>
      show (u.relabel f).label?.toList = u.label?.toList.map f
      rw [label?_relabel]
      cases u.label? <;> rfl
  | join j i =>
    simp only [relabel_join, Join.relabel, introduces, label?_relabel, map_append]
    cases j.left.label? <;> cases j.right.label? <;> rfl
  | _ => rfl

theorem Tree.sourceOrder_relabel (hf : Function.Injective f) (t : Tree) :
    (t.relabel f).sourceOrder = t.sourceOrder.map f := by
  rw [sourceOrder, sourceOrder, subtrees_relabel, flatMap_map, ← firstOccurrences_map hf, map_flatMap]
  congr 1
  exact flatMap_congr fun u _ => u.introduces_relabel

/-- A relabeled tree has the same text. -/
theorem Tree.toSql_relabel (hf : Function.Injective f) (dialect : Dialect) (t : Tree) :
    (spelling f).rel Eq (t.toSql dialect) ((t.relabel f).toSql dialect) := by
  cases t with
  | select s i =>
    have horder := sourceOrder_relabel hf (.select s i)
    simp only [relabel] at horder
    simp only [relabel, toSql, horder]
    let cx : Sql.Context := ⟨dialect, (select s i).sourceOrder⟩
    have halike : ∀ t ∈ s.clauses, t.SpelledAlike f cx := fun t _ => t.spelledAlike hf cx
    exact Select.sql_relabel halike
  | _ => exact .error rfl

end Text

end HiveQuery
