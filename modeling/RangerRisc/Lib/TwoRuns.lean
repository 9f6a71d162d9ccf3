import Mathlib.Data.List.Forall2

/-! Two runs of a computation that may fail, side by side: they stop with the same error, or they
end in related values. -/

namespace TwoRuns

variable {ε α β γ δ : Type}

def Alike (R : α → β → Prop) (x : Except ε α) (y : Except ε β) : Prop :=
  (∃ e, x = .error e ∧ y = .error e) ∨ ∃ a b, x = .ok a ∧ y = .ok b ∧ R a b

theorem alike_ok {R : α → β → Prop} {a : α} {b : β} (h : R a b) :
    Alike R (.ok a : Except ε α) (.ok b) := .inr ⟨a, b, rfl, rfl, h⟩

theorem alike_error {R : α → β → Prop} (e : ε) : Alike R (.error e) (.error e) :=
  .inl ⟨e, rfl, rfl⟩

/-- A run is like itself. -/
theorem alike_refl {R : α → α → Prop} (hR : ∀ a, R a a) (x : Except ε α) : Alike R x x := by
  cases x with
  | error e => exact alike_error e
  | ok a => exact alike_ok (hR a)

section Rules
variable {R : α → β → Prop} {Q : γ → δ → Prop} {x : Except ε α} {y : Except ε β}

theorem Alike.bind {f : α → Except ε γ} {g : β → Except ε δ} (h : Alike R x y)
    (hfg : ∀ a b, x = .ok a → R a b → Alike Q (f a) (g b)) : Alike Q (x >>= f) (y >>= g) := by
  rcases h with ⟨e, rfl, rfl⟩ | ⟨a, b, rfl, rfl, hab⟩
  · exact alike_error e
  · exact hfg a b rfl hab

/-- What does not tell related values apart gives the same for both runs. -/
theorem Alike.map_eq {f : α → γ} {g : β → γ} (h : Alike R x y) (hfg : ∀ a b, R a b → f a = g b) :
    x.map f = y.map g := by
  rcases h with ⟨e, rfl, rfl⟩ | ⟨a, b, rfl, rfl, hab⟩
  · rfl
  · exact congrArg Except.ok (hfg a b hab)

end Rules

theorem alike_mapM {R : α → β → Prop} {Q : γ → δ → Prop} {f : α → Except ε γ} {g : β → Except ε δ}
    {xs : List α} {ys : List β} (h : List.Forall₂ R xs ys)
    (hfg : ∀ x ∈ xs, ∀ y, R x y → Alike Q (f x) (g y)) :
    Alike (List.Forall₂ Q) (xs.mapM f) (ys.mapM g) := by
  induction h with
  | nil => exact alike_ok .nil
  | cons hxy _ ih =>
    rw [List.mapM_cons, List.mapM_cons]
    refine (hfg _ List.mem_cons_self _ hxy).bind fun c d _ hcd => ?_
    refine (ih fun x hx => hfg x (List.mem_cons_of_mem _ hx)).bind fun cs ds _ hall => ?_
    exact alike_ok (.cons hcd hall)

end TwoRuns
