import Mathlib.Data.List.Forall2

/-!
# Results of computations that may fail

What a computation that did not fail has done: the parts of a sequence of steps, and what became of
each element of a list. Lists are compared element by element.
-/

namespace SsaOpt

/-! ## Lists, element by element -/

theorem forall₂_exists_left {α β : Type} {R : α → β → Prop} {l : List α} {l' : List β}
    (h : List.Forall₂ R l l') {y : β} (hy : y ∈ l') : ∃ x ∈ l, R x y := by
  induction h with
  | nil => simp at hy
  | cons hr _ ih =>
    rcases List.mem_cons.1 hy with rfl | hy
    · exact ⟨_, by simp, hr⟩
    · obtain ⟨x, hx, hr⟩ := ih hy
      exact ⟨x, by simp [hx], hr⟩

theorem forall₂_map_eq {α β γ : Type} {R : α → β → Prop} {l : List α} {l' : List β} {f : α → γ}
    {g : β → γ} (h : List.Forall₂ R l l') (hfg : ∀ x y, R x y → g y = f x) :
    l'.map g = l.map f := by
  induction h with
  | nil => rfl
  | cons hr _ ih => rw [List.map_cons, List.map_cons, hfg _ _ hr, ih]

theorem forall₂_filterMap_eq {α β : Type} {R : α → α → Prop} {l l' : List α} {f : α → Option β}
    (h : List.Forall₂ R l l') (hf : ∀ x y, R x y → f y = f x) :
    l'.filterMap f = l.filterMap f := by
  induction h with
  | nil => rfl
  | cons hr _ ih => rw [List.filterMap_cons, List.filterMap_cons, hf _ _ hr, ih]

theorem forall₂_find? {α β : Type} {R : α → β → Prop} {p : α → Bool} {q : β → Bool}
    (hpq : ∀ x y, R x y → q y = p x) {l : List α} {l' : List β} (h : List.Forall₂ R l l') {x : α}
    (hx : l.find? p = some x) : ∃ y, l'.find? q = some y ∧ R x y := by
  induction h with
  | nil => cases hx
  | @cons a b l l' hab _ ih =>
    rw [List.find?_cons] at hx ⊢
    rw [hpq a b hab]
    cases hp : p a with
    | true =>
      simp only [hp] at hx ⊢
      obtain rfl := Option.some.inj hx
      exact ⟨b, rfl, hab⟩
    | false =>
      simp only [hp] at hx ⊢
      exact ih hx

theorem forall₂_imp_of_mem {α β : Type} {R S : α → β → Prop} {l : List α} {l' : List β}
    (h : List.Forall₂ R l l') (hRS : ∀ x, ∀ y ∈ l', R x y → S x y) : List.Forall₂ S l l' := by
  induction h with
  | nil => exact .nil
  | cons hr _ ih =>
    exact .cons (hRS _ _ (by simp) hr) (ih fun x y hy => hRS x y (by simp [hy]))

theorem forall₂_trans {α : Type} {R : α → α → Prop} (hR : ∀ x y z, R x y → R y z → R x z)
    {l l' l'' : List α} (h : List.Forall₂ R l l') (h' : List.Forall₂ R l' l'') :
    List.Forall₂ R l l'' := by
  induction h generalizing l'' with
  | nil => exact h'
  | cons hr _ ih =>
    cases h' with
    | cons hr' hrest => exact .cons (hR _ _ _ hr hr') (ih hrest)

/-! ## Steps -/

section Steps

variable {ε α β : Type}

theorem exists_of_bind_eq_ok {x : Except ε α} {f : α → Except ε β} {b : β}
    (h : x >>= f = .ok b) : ∃ a, x = .ok a ∧ f a = .ok b := by
  cases x with
  | error e => cases h
  | ok a => exact ⟨a, rfl, h⟩

theorem exists_of_map_eq_ok {x : Except ε α} {f : α → β} {b : β}
    (h : x.map f = .ok b) : ∃ a, x = .ok a ∧ f a = b := by
  cases x with
  | error e => cases h
  | ok a => exact ⟨a, rfl, Except.ok.inj h⟩

theorem eq_ok_of_mapError_eq_ok {δ : Type} {x : Except ε α} {f : ε → δ} {a : α}
    (h : x.mapError f = .ok a) : x = .ok a := by
  cases x with
  | error e => cases h
  | ok b =>
    cases h
    rfl

end Steps

/-! ## The same step for each element -/

section Each

variable {ε α β : Type} {xs : List α} {ys : List β}

theorem forall₂_of_mapM_eq_some {f : α → Option β} (h : xs.mapM f = some ys) :
    List.Forall₂ (fun x y => f x = some y) xs ys := by
  induction xs generalizing ys with
  | nil =>
    obtain rfl := Option.some.inj h
    exact .nil
  | cons x xs ih =>
    rw [List.mapM_cons] at h
    obtain ⟨y, hy, h⟩ := Option.bind_eq_some_iff.1 h
    obtain ⟨ys, hys, h⟩ := Option.bind_eq_some_iff.1 h
    obtain rfl := Option.some.inj h
    exact .cons hy (ih hys)

theorem forall₂_of_mapM_eq_ok {f : α → Except ε β} (h : xs.mapM f = .ok ys) :
    List.Forall₂ (fun x y => f x = .ok y) xs ys := by
  induction xs generalizing ys with
  | nil =>
    obtain rfl := Except.ok.inj h
    exact .nil
  | cons x xs ih =>
    rw [List.mapM_cons] at h
    obtain ⟨y, hy, h⟩ := exists_of_bind_eq_ok h
    obtain ⟨ys, hys, h⟩ := exists_of_bind_eq_ok h
    obtain rfl := Except.ok.inj h
    exact .cons hy (ih hys)

theorem mapM_eq_pure {m : Type → Type} [Monad m] [LawfulMonad m] {f : α → m β}
    (h : List.Forall₂ (fun x y => f x = pure y) xs ys) : xs.mapM f = pure ys := by
  induction h with
  | nil => exact List.mapM_nil
  | cons hy _ ih => rw [List.mapM_cons, hy, pure_bind, ih, pure_bind]

end Each

end SsaOpt
