import Mathlib.Logic.Function.Basic

/-!
# Facts about variables

An environment of facts describes a state when the fact of every tracked variable is true of its
value.  What a fact means may depend on the variable.  The rules say how the facts follow a write.
-/

namespace Dyn.Lib

variable {K A V : Type} {means : K → A → V → Prop} {tracked : K → Prop}

def Describes (means : K → A → V → Prop) (tracked : K → Prop) (ρ : K → A) (σ : K → V) : Prop :=
  ∀ k, tracked k → means k (ρ k) (σ k)

namespace Describes

variable {ρ ρ' : K → A} {σ σ' : K → V}

theorem of_top (htop : ∀ k, tracked k → ∀ v, means k (ρ k) v) : Describes means tracked ρ σ :=
  fun k hk => htop k hk (σ k)

/-- The facts after a step: each is true by itself, or unchanged as the value is. -/
theorem step (h : Describes means tracked ρ σ)
    (hstep : ∀ k, tracked k → means k (ρ' k) (σ' k) ∨ ρ' k = ρ k ∧ σ' k = σ k) : Describes means tracked ρ' σ' := by
  intro k hk
  obtain hnew | ⟨hfact, hvalue⟩ := hstep k hk
  · exact hnew
  · rw [hfact, hvalue]
    exact h k hk

theorem write [DecidableEq K] (h : Describes means tracked ρ σ) {x : K} {v : V} (hother : ∀ k, k ≠ x → ρ' k = ρ k)
    (hx : tracked x → means x (ρ' x) v) : Describes means tracked ρ' (Function.update σ x v) := by
  refine h.step fun k hk => ?_
  by_cases hkx : k = x
  · subst hkx
    exact .inl (by simpa using hx hk)
  · exact .inr ⟨hother k hkx, by simp [hkx]⟩

end Describes

end Dyn.Lib
