import HiveQuery.Proofs.Needs
import HiveQuery.Proofs.Renewal

/-!
# Copies with other aliases

A renamed tree is the tree with other aliases, where they are declared and where they are referred to. A
copy renames what the tree declares to aliases that are drawn for it, so that what the tree needs stays.
-/

namespace HiveQuery
open List HiveQuery.Tree

variable {f : Alias → Alias} {t : Tree}

/-- A node of a renamed tree is the renamed node over renamed children. -/
theorem Tree.rename_node (f : Alias → Alias) (t : Tree) :
    ∃ v, t.SameNode (fun a b => b = a.rename f) v ∧ t.rename f = v.renameNode f :=
  bottomUp_node (renameNode f) t

theorem Tree.rename_eq (f : Alias → Alias) (t : Tree) :
    t.rename f = (t.mapNode f (rename f)).anonymous := by
  have hnode : t.rename f = (t.rebuilt (rename f)).renameNode f := bottomUp_eq (renameNode f) t
  rw [hnode]
  cases t <;> rfl

/-! ## Other aliases -/

/-- Every node stays what it is under other aliases, but for its children and maybe its identity. -/
def Renaming (f : Alias → Alias) (F : Tree → Tree) : Prop :=
  ∀ t, (F t).anonymous = (t.mapNode f F).anonymous

namespace Renaming

variable {F : Tree → Tree} (h : Renaming f F) (t : Tree)

include h

theorem children : (F t).children = t.children.map F := by
  rw [← children_anonymous, h t, children_anonymous, children_mapNode]

theorem label? : (F t).label? = t.label?.map f := by
  have hlabel : ∀ u : Tree, u.anonymous.label? = u.label? := fun u => by cases u <;> rfl
  rw [← hlabel, h t, hlabel]
  cases t <;> rfl

theorem column? : (F t).column? = t.column?.map (ColumnRef.rename f) := by
  have hcolumn : ∀ u : Tree, u.anonymous.column? = u.column? := fun u => by cases u <;> rfl
  rw [← hcolumn, h t, hcolumn]
  cases t <;> rfl

theorem sources : (F t).sources = t.sources.map f := by
  have hsources : ∀ u : Tree, u.anonymous.sources = u.sources := fun u => by cases u <;> rfl
  induction t with
  | step t ih =>
    rw [← hsources, h t, hsources]
    cases t with
    | join j i =>
      simp only [Tree.children, forall_mem_cons] at ih
      simp only [Tree.mapNode, Tree.sources, ih.1, ih.2.1, map_append]
    | _ => rfl

theorem declared : (F t).declared = t.declared.map f := by
  induction t with
  | step t ih =>
    rw [declared_eq, t.declared_eq, h.label?, h.children, Option.toList_map, map_append, flatMap_map,
      map_flatMap]
    exact congrArg _ (flatMap_congr ih)

theorem bindings : (F t).bindings = t.bindings.map fun p => (p.1.map f, F p.2) := by
  have hbindings : ∀ u : Tree, u.anonymous.bindings = u.bindings := fun u => by cases u <;> rfl
  rw [← hbindings, h t, hbindings]
  cases t with
  | select s i =>
    simp only [mapNode, bindings, Select.bindings, Select.others, Select.clauses, Select.sourceAliases,
      Option.toList_map, Option.toList_none, nil_append, map_append, map_map, Option.map_map, Function.comp_def,
      h.sources]
    cases s.source <;> rfl
  | join j i =>
    obtain ⟨kind, l, r, c⟩ := j
    simp only [mapNode, bindings, h.sources, Option.toList_map, map_cons, map_map, Function.comp_def,
      map_append]
    split <;> rfl
  | projection q x i => simp [mapNode, bindings, h.label?, Option.toList_map]
  | _ => simp [mapNode, bindings, Option.toList_map, Function.comp_def]
theorem needs {d : ColumnRef} (hd : (F t).Needs d) : ∃ c, t.Needs c ∧ d = c.rename f := by
  induction t with
  | step t ih =>
    have hcolumn := h.column? t
    cases t with
    | column e =>
      cases hF : F (.column e) <;> rw [hF] at hcolumn hd <;> cases hcolumn
      exact ⟨e, .column, needs_column.1 hd⟩
    | _ =>
      obtain ⟨q, hq, hlabel, hd⟩ := hd.cases_node hcolumn
      rw [h.bindings] at hq
      obtain ⟨p, hp, rfl⟩ := mem_map.1 hq
      obtain ⟨c, hc, rfl⟩ := ih _ (mem_children_of_bindings hp) hd
      exact ⟨c, .child hp (fun hmem => hlabel (mem_map_of_mem hmem)) hc, rfl⟩

end Renaming

theorem Renaming.rename (f : Alias → Alias) : Renaming f (rename f) := fun t => by
  rw [rename_eq]
  cases t <;> rfl

/-! ## Fresh aliases -/

/-- No two aliases get the same name. -/
def Separates (f : Alias → Alias) (names : List Alias) : Prop :=
  ∀ a ∈ names, ∀ b ∈ names, f a = f b → a = b

theorem Separates.not_mem_map {names new : List Alias} (inj : Separates f names) (hnew : ∀ a ∈ new, a ∈ names)
    {a : Alias} (ha : a ∈ names) (h : a ∉ new) : f a ∉ new.map f := by
  intro himage
  obtain ⟨b, hb, hlabel⟩ := mem_map.1 himage
  exact h (inj b (hnew b hb) a ha hlabel ▸ hb)

def freshPairs (aliases : List Alias) (next : Alias) : List (Alias × Alias) :=
  aliases.zip (range' next aliases.length)

theorem drawn_run (aliases : List Alias) (next : Alias) :
    (aliases.mapM fun a => do
        let b ← fresh
        return (a, b)).run next = (freshPairs aliases next, next + aliases.length) := by
  induction aliases generalizing next with
  | nil => rfl
  | cons a aliases ih =>
    have hcons : freshPairs (a :: aliases) next = (a, next) :: freshPairs aliases (next + 1) := rfl
    have hstep : (do
        let b ← fresh
        return (a, b) : StateM Alias (Alias × Alias)).run next = ((a, next), next + 1) := rfl
    rw [mapM_cons, hcons, length_cons, Nat.add_comm aliases.length, ← Nat.add_assoc, StateT.run_bind, hstep]
    change (StateT.run (_ >>= _) (next + 1)) = _
    rw [StateT.run_bind, ih]
    rfl

section Replacement

variable {aliases : List Alias} {next : Alias} {a b : Alias}

theorem mem_freshPairs (h : (a, b) ∈ freshPairs aliases next) :
    a ∈ aliases ∧ next ≤ b ∧ b < next + aliases.length := by
  obtain ⟨ha, hb⟩ := of_mem_zip h
  rw [mem_range'_1] at hb
  exact ⟨ha, hb⟩

theorem replacement_freshPairs (ha : a ∈ aliases) :
    (a, replacement (freshPairs aliases next) a) ∈ freshPairs aliases next := by
  have hmem : a ∈ (freshPairs aliases next).map Prod.fst := by
    rwa [freshPairs, map_fst_zip (by simp)]
  obtain ⟨p, hp, rfl⟩ := mem_map.1 hmem
  cases h : (freshPairs aliases next).reverse.lookup p.1 with
  | none =>
    rw [lookup_eq_none_iff] at h
    exact absurd (h p (mem_reverse.2 hp)) (by simp)
  | some b =>
    obtain ⟨before, after, hsplit, -⟩ := lookup_eq_some_iff.1 h
    have hmem : (p.1, b) ∈ (freshPairs aliases next).reverse := by
      rw [hsplit]
      simp
    rw [replacement, h]
    exact mem_reverse.1 hmem

theorem replacement_of_not_mem (ha : a ∉ aliases) : replacement (freshPairs aliases next) a = a := by
  have hnone : (freshPairs aliases next).reverse.lookup a = none := by
    rw [lookup_eq_none_iff]
    rintro ⟨x, y⟩ hp
    rw [bne_iff_ne]
    rintro rfl
    exact ha (mem_freshPairs (mem_reverse.1 hp)).1
  rw [replacement, hnone]
  rfl

theorem replacement_injective (ha : a ∈ aliases) (hb : b ∈ aliases)
    (h : replacement (freshPairs aliases next) a = replacement (freshPairs aliases next) b) : a = b := by
  have hpa : (a, replacement (freshPairs aliases next) a) ∈ freshPairs aliases next :=
    replacement_freshPairs ha
  have hpb : (b, replacement (freshPairs aliases next) b) ∈ freshPairs aliases next :=
    replacement_freshPairs hb
  rw [← h] at hpb
  obtain ⟨i, hi, hia⟩ := mem_iff_getElem.1 hpa
  obtain ⟨j, hj, hjb⟩ := mem_iff_getElem.1 hpb
  simp only [freshPairs, getElem_zip, getElem_range', Prod.mk.injEq] at hia hjb
  have hij : i = j := by simpa using hia.2.trans hjb.2.symm
  subst hij
  exact hia.1.symm.trans hjb.1

end Replacement

/-- A copy is the tree with other aliases, which are drawn for all that the tree declares. -/
theorem Tree.duplicate_gives {copy : Tree} {next next' : Alias} (h : t.duplicate.run next = (copy, next')) :
    ∃ f, copy = t.rename f ∧ next ≤ next' ∧ (∀ a ∈ t.declared, next ≤ f a ∧ f a < next') ∧
      Separates f t.declared ∧ ∀ a, a ∉ t.declared → f a = a := by
  rw [duplicate, StateT.run_bind, drawn_run] at h
  obtain ⟨rfl, rfl⟩ := Prod.mk.inj h
  exact ⟨_, rfl, Nat.le_add_right _ _, fun a ha => (mem_freshPairs (replacement_freshPairs ha)).2,
    fun a ha b hb => replacement_injective ha hb, fun a ha => replacement_of_not_mem ha⟩

end HiveQuery
