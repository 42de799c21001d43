import Mathlib.Data.List.Forall2
import Mathlib.Data.List.Induction
import Mathlib.Data.Option.Basic

/-!
# Lists that are related element by element

With what computations that may fail give, one after the other.
-/

namespace HiveQuery
open List

variable {α β γ : Type}

theorem optionRel_iff {R : α → α → Prop} {o o' : Option α} :
    Option.Rel R o o' ↔ Forall₂ R o.toList o'.toList := by
  cases o <;> cases o' <;> simp

variable {R S : α → β → Prop} {l : List α} {l' : List β} {o : Option α} {o' : Option β} {p : α → Bool}
  {q : β → Bool}

theorem forall₂_of_append {l₁ l₂ : List α} {r₁ r₂ : List β} (hlen : l₁.length = r₁.length)
    (h : Forall₂ R (l₁ ++ l₂) (r₁ ++ r₂)) : Forall₂ R l₁ r₁ ∧ Forall₂ R l₂ r₂ := by
  have h₁ := forall₂_take_append _ _ _ h
  have h₂ := forall₂_drop_append _ _ _ h
  rw [← hlen] at h₁ h₂
  rw [take_left] at h₁
  rw [drop_left] at h₂
  exact ⟨h₁, h₂⟩

theorem flatMap_rel {f : α → List β} {r : List β → List β → Prop} (nil : r [] [])
    (append : ∀ {a b c d}, r a b → r c d → r (a ++ c) (b ++ d)) {as bs : List α}
    (h : Forall₂ (fun a b => r (f b) (f a)) as bs) : r (bs.flatMap f) (as.flatMap f) := by
  induction h with
  | nil => exact nil
  | cons head _ ih =>
    rw [flatMap_cons, flatMap_cons]
    exact append head ih

theorem forall₂_mem_left (h : Forall₂ R l l') {a : α} (ha : a ∈ l) : ∃ b ∈ l', R a b := by
  induction h with
  | nil => exact absurd ha not_mem_nil
  | cons hab _ ih =>
    rcases mem_cons.1 ha with rfl | ha
    · exact ⟨_, mem_cons_self, hab⟩
    · obtain ⟨b, hb, hR⟩ := ih ha
      exact ⟨b, .tail _ hb, hR⟩

theorem forall₂_mem_right (h : Forall₂ R l l') {b : β} (hb : b ∈ l') : ∃ a ∈ l, R a b := by
  obtain ⟨a, ha, hR⟩ := forall₂_mem_left h.flip hb
  exact ⟨a, ha, hR⟩

theorem forall₂_zip_right {S : α → γ → Prop} {bs : List β} {cs : List γ}
    (hR : Forall₂ R l bs) (hS : Forall₂ S l cs) :
    Forall₂ (fun a p => R a p.1 ∧ S a p.2) l (bs.zip cs) := by
  induction hR generalizing cs with
  | nil => exact .nil
  | cons h _ ih =>
    cases hS with
    | cons h' hS => exact .cons ⟨h, h'⟩ (ih hS)

theorem forall₂_imp_mem (h : Forall₂ R l l') (hRS : ∀ a b, a ∈ l → R a b → S a b) : Forall₂ S l l' :=
  ((forall₂_and_left l l').2 ⟨fun _ => id, h⟩).imp fun a b hab => hRS a b hab.1 hab.2

theorem forall₂_imp_right (h : Forall₂ R l l') (hRS : ∀ a b, b ∈ l' → R a b → S a b) : Forall₂ S l l' :=
  (forall₂_imp_mem h.flip fun b a hb hab => hRS a b hb hab).flip

theorem forall₂_map_iff {δ : Type} {R : γ → δ → Prop} {f : α → γ} {g : β → δ} :
    Forall₂ R (l.map f) (l'.map g) ↔ Forall₂ (fun a b => R (f a) (g b)) l l' := by
  rw [forall₂_map_left_iff, forall₂_map_right_iff]

theorem forall₂_exists {R : α → γ → Prop} {S : γ → β → Prop}
    (h : Forall₂ (fun a b => ∃ c, R a c ∧ S c b) l l') :
    ∃ cs, Forall₂ R l cs ∧ Forall₂ S cs l' := by
  induction h with
  | nil => exact ⟨[], .nil, .nil⟩
  | cons hab _ ih =>
    obtain ⟨c, hR, hS⟩ := hab
    obtain ⟨cs, hRs, hSs⟩ := ih
    exact ⟨c :: cs, .cons hR hRs, .cons hS hSs⟩

theorem map_eq_of_forall₂ {f : α → γ} {g : β → γ} (h : Forall₂ R l l')
    (hfg : ∀ a b, R a b → g b = f a) : l'.map g = l.map f := by
  induction h with
  | nil => rfl
  | cons hab _ ih => rw [map_cons, map_cons, hfg _ _ hab, ih]

theorem length_eq_of_map_eq {f : α → γ} {g : β → γ} (h : l'.map g = l.map f) : l'.length = l.length := by
  simpa using congrArg length h

theorem isEmpty_eq_of_length_eq (h : l'.length = l.length) : l'.isEmpty = l.isEmpty := by
  rw [Bool.eq_iff_iff, isEmpty_iff_length_eq_zero, isEmpty_iff_length_eq_zero, h]

theorem any_eq_of_forall₂ (h : Forall₂ R l l') (hpq : ∀ a b, R a b → q b = p a) : l'.any q = l.any p := by
  induction h with
  | nil => rfl
  | cons hab _ ih => rw [any_cons, any_cons, hpq _ _ hab, ih]

theorem option_isSome_eq (h : Option.Rel R o o') : o'.isSome = o.isSome := by
  cases h <;> rfl

theorem eq_none_of_isSome_eq (h : o'.isSome = o.isSome) (ho : o = none) : o' = none := by
  subst ho
  cases o' with
  | none => rfl
  | some b => cases h

theorem option_rel_of_some {a : α} {b : β} (h : Option.Rel R o o') (ha : o = some a) (hb : o' = some b) :
    R a b := by
  subst ha hb
  cases h with
  | some h => exact h

theorem option_rel_exists {b : β} (h : Option.Rel R o o') (hb : o' = some b) : ∃ a, o = some a ∧ R a b := by
  subst hb
  cases h with
  | some h => exact ⟨_, rfl, h⟩

theorem option_rel_imp (h : Option.Rel R o o') (hRS : ∀ a b, o = some a → R a b → S a b) :
    Option.Rel S o o' := by
  cases h with
  | none => exact .none
  | some h => exact .some (hRS _ _ rfl h)

theorem option_rel_map {R : γ → γ → Prop} {f : α → γ} {o o' : Option α}
    (h : Option.Rel (fun a b => R (f a) (f b)) o o') : Option.Rel R (o.map f) (o'.map f) := by
  cases h with
  | none => exact .none
  | some h => exact .some h

theorem option_any_eq (h : Option.Rel R o o') (hpq : ∀ a b, R a b → q b = p a) : o'.any q = o.any p := by
  cases h with
  | none => rfl
  | some h => exact hpq _ _ h

theorem forall₂_trans {S : β → γ → Prop} {T : α → γ → Prop} {as : List α} {bs : List β}
    {cs : List γ} (hR : Forall₂ R as bs) (hS : Forall₂ S bs cs) (h : ∀ a b c, R a b → S b c → T a c) :
    Forall₂ T as cs := by
  induction hR generalizing cs with
  | nil =>
    cases hS
    exact .nil
  | cons hab _ ih =>
    cases hS with
    | cons hbc hS => exact .cons (h _ _ _ hab hbc) (ih hS)

/-- What two lists have in common with a third one. -/
theorem forall₂_meet {S : α → γ → Prop} {T : β → γ → Prop} {l'' : List γ} (h : Forall₂ R l l')
    (h' : Forall₂ S l l'') (hT : ∀ a ∈ l, ∀ b ∈ l', ∀ c, R a b → S a c → T b c) : Forall₂ T l' l'' := by
  have hleft := forall₂_imp_mem h fun _ _ ha hab => And.intro ha hab
  have hboth := forall₂_imp_right hleft fun _ _ hb hab => And.intro hb hab
  exact forall₂_trans hboth.flip h' fun b a c hab => hT a hab.2.1 b hab.1 c hab.2.2

theorem exists_forall₂ (h : ∀ a ∈ l, ∃ b, R a b) : ∃ bs, Forall₂ R l bs := by
  induction l with
  | nil => exact ⟨[], .nil⟩
  | cons a l ih =>
    obtain ⟨b, hb⟩ := h a mem_cons_self
    obtain ⟨bs, hbs⟩ := ih fun a ha => h a (.tail _ ha)
    exact ⟨b :: bs, .cons hb hbs⟩

theorem zipIdx_forall₂ (h : Forall₂ R l l') (n : Nat) :
    Forall₂ (fun (p : α × Nat) (p' : β × Nat) => R p.1 p'.1 ∧ p'.2 = p.2) (l.zipIdx n) (l'.zipIdx n) := by
  induction h generalizing n with
  | nil => exact .nil
  | cons hr _ ih => exact .cons ⟨hr, rfl⟩ (ih (n + 1))

theorem zipIdx_forall₂_left (h : Forall₂ R l l') (n : Nat) :
    Forall₂ (fun (p : α × Nat) b => R p.1 b) (l.zipIdx n) l' := by
  rwa [← forall₂_map_left_iff, zipIdx_map_fst]

/-! ## Computations that may fail -/

variable {ε : Type}

theorem bind_eq_ok {x : Except ε α} {f : α → Except ε β} {b : β} :
    x >>= f = .ok b ↔ ∃ a, x = .ok a ∧ f a = .ok b := by
  cases x with
  | error e => simp [bind, Except.bind]
  | ok a => simp [bind, Except.bind]

theorem pure_eq_ok {a b : α} : (pure a : Except ε α) = .ok b ↔ b = a :=
  ⟨fun h => (Except.ok.inj h).symm, fun h => h ▸ rfl⟩

theorem mapM_eq_ok {f : α → Except ε β} {as : List α} {bs : List β} :
    as.mapM f = .ok bs ↔ Forall₂ (fun a b => f a = .ok b) as bs := by
  induction as generalizing bs with
  | nil => simp [pure_eq_ok]
  | cons a as ih =>
    rw [mapM_cons, bind_eq_ok, forall₂_cons_left_iff]
    constructor
    · rintro ⟨b, hb, h⟩
      obtain ⟨bs', hbs, h⟩ := bind_eq_ok.1 h
      exact ⟨b, bs', hb, ih.1 hbs, pure_eq_ok.1 h⟩
    · rintro ⟨b, bs', hb, hbs, rfl⟩
      exact ⟨b, hb, bind_eq_ok.2 ⟨bs', ih.2 hbs, rfl⟩⟩

end HiveQuery
