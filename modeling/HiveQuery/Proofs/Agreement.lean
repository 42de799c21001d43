import HiveQuery.Proofs.Production

/-!
# Runs that agree

Two runs agree if they give related results whenever both give one. A total agreement says in addition
that the second run gives a result whenever the first one does.
-/

namespace HiveQuery
open List

variable {P : Row → Row → Prop} {rows rows' : List Row} {new new' scope : List Alias} {ν ν' : ColumnMatch}
  {row' : Row}

variable {c : ColumnRef} {frames : Frames} {row : Row}

/-! ## Agreement -/

/-- Whenever both runs give a result the results are related. If `total`, the second one gives a result
whenever the first one does. -/
def Run.Agree {α β : Type} (total : Bool) (R : α → β → Prop) (x : Run α) (y : Run β) : Prop :=
  ∀ a, x = .ok a → (total = true → ∃ b, y = .ok b) ∧ ∀ b, y = .ok b → R a b

namespace Run.Agree

variable {α β γ δ : Type} {total : Bool} {R : α → β → Prop} {S : γ → δ → Prop} {x : Run α} {y : Run β}

theorem of_ok {a : α} {b : β} (h : R a b) : Agree total R (.ok a) (.ok b) := by
  rintro _ ⟨⟩
  refine ⟨fun _ => ⟨b, rfl⟩, ?_⟩
  rintro _ ⟨⟩
  exact h

theorem of_error {e : ExecutionError} : Agree total R (.error e) y := by
  rintro _ ⟨⟩

theorem of_eq {y : Run α} (h : x = y) : Agree total Eq x y := by
  subst h
  rintro a rfl
  refine ⟨fun _ => ⟨a, rfl⟩, ?_⟩
  rintro _ ⟨⟩
  rfl

theorem ok_of_ok {y : Run α} (h : Agree true Eq x y) {a : α} (hx : x = .ok a) : y = .ok a := by
  obtain ⟨b, hb⟩ := (h a hx).1 rfl
  rw [hb, (h a hx).2 b hb]

theorem imp {R' : α → β → Prop} (h : Agree total R x y)
    (himp : ∀ a b, x = .ok a → y = .ok b → R a b → R' a b) : Agree total R' x y :=
  fun a ha => ⟨(h a ha).1, fun b hb => himp a b ha hb ((h a ha).2 b hb)⟩

theorem bind {f : α → Run γ} {g : β → Run δ} (h : Agree total R x y)
    (hf : ∀ a b, x = .ok a → y = .ok b → R a b → Agree total S (f a) (g b)) :
    Agree total S (x >>= f) (y >>= g) := by
  intro c hc
  obtain ⟨a, ha, hfa⟩ := bind_eq_ok.1 hc
  constructor
  · intro ht
    obtain ⟨b, hb⟩ := (h a ha).1 ht
    obtain ⟨d, hd⟩ := ((hf a b ha hb ((h a ha).2 b hb)) c hfa).1 ht
    exact ⟨d, bind_eq_ok.2 ⟨b, hb, hd⟩⟩
  · intro d hd
    obtain ⟨b, hb, hgb⟩ := bind_eq_ok.1 hd
    exact ((hf a b ha hb ((h a ha).2 b hb)) c hfa).2 d hgb

theorem mapM {P : γ → δ → Prop} {f : γ → Run α} {g : δ → Run β} {as : List γ} {bs : List δ}
    (h : Forall₂ P as bs) (hf : ∀ a b, a ∈ as → P a b → Agree total R (f a) (g b)) :
    Agree total (Forall₂ R) (as.mapM f) (bs.mapM g) := by
  induction h with
  | nil => exact of_ok .nil
  | cons hab _ ih =>
    rw [mapM_cons, mapM_cons]
    refine bind (hf _ _ mem_cons_self hab) fun a b _ _ hR => ?_
    refine bind (ih fun a b ha => hf a b (.tail _ ha)) fun as bs _ _ hs => ?_
    exact of_ok (.cons hR hs)

theorem mapM_eq {P : γ → δ → Prop} {f : γ → Run α} {g : δ → Run α} {as : List γ} {bs : List δ}
    (h : Forall₂ P as bs) (hf : ∀ a b, a ∈ as → P a b → Agree total Eq (f a) (g b)) :
    Agree total Eq (as.mapM f) (bs.mapM g) :=
  (mapM h hf).imp fun _ _ _ _ hs => by rwa [forall₂_eq_eq_eq] at hs

theorem filterRows {keep keep' : Row → Run Bool}
    (h : Forall₂ P rows rows')
    (hk : ∀ r r', r ∈ rows → P r r' → Agree total Eq (keep r) (keep' r')) :
    Agree total (Forall₂ P) (HiveQuery.filterRows keep rows) (HiveQuery.filterRows keep' rows') := by
  induction h with
  | nil => exact of_ok .nil
  | cons hr _ ih =>
    rw [HiveQuery.filterRows, HiveQuery.filterRows]
    refine bind (hk _ _ mem_cons_self hr) fun b b' _ _ hb => ?_
    refine bind (ih fun a b ha => hk a b (.tail _ ha)) fun as bs _ _ hs => ?_
    subst hb
    cases b
    · exact of_ok hs
    · exact of_ok (.cons hr hs)

end Run.Agree

/-! ## Scopes -/

/-- Which column is read on the right where a column is read on the left. -/
abbrev ColumnMatch := ColumnRef → ColumnRef → Prop

/-- The aliases that are in scope on both sides, and the columns of them that correspond. -/
structure Reads where
  left : List Alias
  right : List Alias
  rel : ColumnMatch

namespace Reads

/-- One column may be read for another. What is out of scope on the left has no value there, so that
anything may be read for it. -/
def Links (μ : Reads) (c d : ColumnRef) : Prop :=
  c.label ∈ μ.left → d.label ∈ μ.right ∧ μ.rel c d

def within (μ : Reads) (new new' : List Alias) (ν : ColumnMatch) : Reads where
  left := new ++ μ.left
  right := new' ++ μ.right
  rel c d :=
    (c.label ∈ new ∧ d.label ∈ new' ∧ ν c d) ∨ (c.label ∉ new ∧ d.label ∉ new' ∧ μ.rel c d)

def beyond (μ : Reads) (hidden : List Alias) : Reads where
  left := hidden ++ μ.left
  right := μ.right
  rel c d := c.label ∉ hidden ∧ μ.rel c d

end Reads

/-- Columns of two joins correspond if they do on the left sides, or else on the right sides. -/
def joinMatch (l l' : List Alias) (ν ν' : ColumnMatch) : ColumnMatch := fun c d =>
  (c.label ∈ l ∧ d.label ∈ l' ∧ ν c d) ∨ (c.label ∉ l ∧ d.label ∉ l' ∧ ν' c d)

/-! ## Rows -/

/-- The second value is the first one if both are there, and is there if the agreement is total. -/
def SameLookup (total : Bool) (x y : Option Value) : Prop :=
  ∀ v, x = some v → (total = true → ∃ w, y = some w) ∧ ∀ w, y = some w → v = w

theorem SameLookup.refl {total : Bool} (x : Option Value) : SameLookup total x x := by
  rintro v rfl
  exact ⟨fun _ => ⟨v, rfl⟩, fun w hw => Option.some.inj hw⟩

def rowLookup? (row : Row) (c : ColumnRef) : Option Value :=
  (row.find? fun b => b.label == c.label).bind fun b => b.value? c.name

theorem find?_eq_none_of_label {a : Alias} (h : a ∉ row.map Binding.label) :
    (row.find? fun b => b.label == a) = none := by
  rw [find?_eq_none]
  intro b hb e
  exact h (mem_map.2 ⟨b, hb, by simpa using e⟩)

theorem lookup?_cons_of_mem (h : c.label ∈ row.map Binding.label) :
    Frames.lookup? (row :: frames) c = rowLookup? row c := by
  obtain ⟨b, hb, e⟩ := mem_map.1 h
  rw [Frames.lookup?, rowLookup?]
  cases hf : row.find? fun b => b.label == c.label with
  | none => exact absurd (find?_eq_none.1 hf b hb) (by simp [e])
  | some b => rfl

theorem lookup?_cons_of_not_mem (h : c.label ∉ row.map Binding.label) :
    Frames.lookup? (row :: frames) c = Frames.lookup? frames c := by
  rw [Frames.lookup?, find?_eq_none_of_label h]

theorem rowLookup?_append_of_mem {x y : Row} (h : c.label ∈ x.map Binding.label) :
    rowLookup? (x ++ y) c = rowLookup? x c := by
  obtain ⟨b, hb, e⟩ := mem_map.1 h
  rw [rowLookup?, rowLookup?, find?_append]
  cases hf : x.find? fun b => b.label == c.label with
  | none => exact absurd (find?_eq_none.1 hf b hb) (by simp [e])
  | some b => rfl

theorem rowLookup?_append_of_not_mem {x y : Row} (h : c.label ∉ x.map Binding.label) :
    rowLookup? (x ++ y) c = rowLookup? y c := by
  rw [rowLookup?, rowLookup?, find?_append, find?_eq_none_of_label h, Option.none_or]

theorem nullRow_labels (sources : List Alias) : (nullRow sources).map Binding.label = sources := by
  rw [nullRow, map_map]
  exact map_id sources

theorem rowLookup?_nullRow {sources : List Alias} (h : c.label ∈ sources) :
    rowLookup? (nullRow sources) c = some .null := by
  rw [rowLookup?]
  cases hf : (nullRow sources).find? fun b => b.label == c.label with
  | none =>
    rw [← nullRow_labels sources, mem_map] at h
    obtain ⟨b, hb, e⟩ := h
    exact absurd (find?_eq_none.1 hf b hb) (by simp [e])
  | some b =>
    obtain ⟨a, _, rfl⟩ := mem_map.1 (mem_of_find?_eq_some hf)
    rfl

/-- Rows of corresponding sources, in which corresponding columns have the same value. -/
structure RowMatch (total : Bool) (new new' : List Alias) (ν : ColumnMatch) (row row' : Row) :
    Prop where
  labels : row.map Binding.label = new
  labels' : row'.map Binding.label = new'
  values : ∀ {c d : ColumnRef}, c.label ∈ new → d.label ∈ new' → ν c d →
    SameLookup total (rowLookup? row c) (rowLookup? row' d)

theorem RowMatch.null (total : Bool) (new new' : List Alias) (ν : ColumnMatch) :
    RowMatch total new new' ν (nullRow new) (nullRow new') where
  labels := nullRow_labels new
  labels' := nullRow_labels new'
  values hc hd _ := by
    rw [rowLookup?_nullRow hc, rowLookup?_nullRow hd]
    exact .refl _

theorem RowMatch.mono {total : Bool} {row : Row}
    (h : RowMatch total new new' ν row row')
    (himp : ∀ c d : ColumnRef, c.label ∈ new → d.label ∈ new' → ν' c d → ν c d) :
    RowMatch total new new' ν' row row' :=
  ⟨h.labels, h.labels', fun {c d} hc hd hcd => h.values hc hd (himp c d hc hd hcd)⟩

theorem RowMatch.append {total : Bool} {l l' r r' : List Alias}
    {x x' y y' : Row} (hx : RowMatch total l l' ν x x') (hy : RowMatch total r r' ν' y y') :
    RowMatch total (l ++ r) (l' ++ r') (joinMatch l l' ν ν') (x ++ y) (x' ++ y') where
  labels := by rw [map_append, hx.labels, hy.labels]
  labels' := by rw [map_append, hx.labels', hy.labels']
  values := by
    rintro c d hc hd (⟨hcl, hdl, h⟩ | ⟨hcl, hdl, h⟩)
    · rw [rowLookup?_append_of_mem (by rwa [hx.labels]),
        rowLookup?_append_of_mem (by rwa [hx.labels'])]
      exact hx.values hcl hdl h
    · rw [rowLookup?_append_of_not_mem (by rwa [hx.labels]),
        rowLookup?_append_of_not_mem (by rwa [hx.labels'])]
      exact hy.values ((mem_append.1 hc).resolve_left hcl) ((mem_append.1 hd).resolve_left hdl) h

/-! ## Frames -/

def Frames.Within (frames : Frames) (scope : List Alias) : Prop :=
  ∀ row ∈ frames, ∀ b ∈ row, b.label ∈ scope

theorem Frames.Within.cons (h : frames.Within scope)
    (hr : row.map Binding.label = new) : Frames.Within (row :: frames) (new ++ scope) := by
  intro r hr' b hb
  rw [mem_append]
  rcases mem_cons.1 hr' with rfl | hr'
  · exact .inl (hr ▸ mem_map_of_mem hb)
  · exact .inr (h r hr' b hb)

theorem Frames.Within.lookup?_eq_none (h : frames.Within scope) (hc : c.label ∉ scope) :
    frames.lookup? c = none := by
  induction frames with
  | nil => rfl
  | cons row frames ih =>
    rw [lookup?_cons_of_not_mem, ih fun r hr => h r (mem_cons_of_mem row hr)]
    intro hmem
    obtain ⟨b, hb, e⟩ := mem_map.1 hmem
    exact hc (e ▸ h row mem_cons_self b hb)

/-- The rows around two trees: they bind what is in scope, and corresponding columns have the same
value. -/
structure FramesMatch (total : Bool) (μ : Reads) (frames frames' : Frames) : Prop where
  left : frames.Within μ.left
  right : frames'.Within μ.right
  values : ∀ {c d : ColumnRef}, c.label ∈ μ.left → d.label ∈ μ.right → μ.rel c d →
    SameLookup total (frames.lookup? c) (frames'.lookup? d)

variable {total : Bool} {μ : Reads} {frames frames' : Frames}

theorem FramesMatch.lookup? (h : FramesMatch total μ frames frames') {d : ColumnRef} (hcd : μ.Links c d) :
    SameLookup total (frames.lookup? c) (frames'.lookup? d) := by
  by_cases hc : c.label ∈ μ.left
  · obtain ⟨hd, hrel⟩ := hcd hc
    exact h.values hc hd hrel
  · intro v hv
    rw [h.left.lookup?_eq_none hc] at hv
    exact absurd hv (by simp)

theorem FramesMatch.within
    (h : FramesMatch total μ frames frames') (hr : RowMatch total new new' ν row row') :
    FramesMatch total (μ.within new new' ν) (row :: frames) (row' :: frames') where
  left := h.left.cons hr.labels
  right := h.right.cons hr.labels'
  values := by
    rintro c d hc hd (⟨hcn, hdn, hcd⟩ | ⟨hcn, hdn, hcd⟩)
    · rw [lookup?_cons_of_mem (by rwa [hr.labels]), lookup?_cons_of_mem (by rwa [hr.labels'])]
      exact hr.values hcn hdn hcd
    · rw [lookup?_cons_of_not_mem (by rwa [hr.labels]),
        lookup?_cons_of_not_mem (by rwa [hr.labels'])]
      exact h.values ((mem_append.1 hc).resolve_left hcn) ((mem_append.1 hd).resolve_left hdn) hcd

theorem FramesMatch.beyond {hidden : List Alias} (h : FramesMatch total μ frames frames')
    (hr : row.map Binding.label = hidden) : FramesMatch total (μ.beyond hidden) (row :: frames) frames' where
  left := h.left.cons hr
  right := h.right
  values := by
    rintro c d hc hd ⟨hcn, hcd⟩
    rw [lookup?_cons_of_not_mem (by rwa [hr])]
    exact h.values ((mem_append.1 hc).resolve_left hcn) hd hcd

def GroupMatch (total : Bool) (μ : Reads) (frames frames' : Frames) :
    Option (List Row) → Option (List Row) → Prop :=
  Option.Rel (Forall₂ fun row row' =>
    FramesMatch total μ (row :: frames.tail) (row' :: frames'.tail))

structure ContextMatch (total : Bool) (μ : Reads) (c c' : Context) : Prop where
  frames : FramesMatch total μ c.frames c'.frames
  group : GroupMatch total μ c.frames c'.frames c.group c'.group
  numbers : c'.numbers = c.numbers

end HiveQuery
