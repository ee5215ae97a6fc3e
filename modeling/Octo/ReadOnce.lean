/-
Boolean functions of disjoint sets of atoms.  A conjunction or a disjunction
of two such functions determines both of them, as soon as neither side is
constant.
-/
import Mathlib

namespace ReadOnce

variable {ι : Type*} {s t : Set ι}

open Classical in
theorem dependsOn_piecewise_left {f : (ι → Bool) → Bool} (hf : DependsOn f s)
    (ρ σ : ι → Bool) : f (s.piecewise ρ σ) = f ρ :=
  hf fun _ hi => Set.piecewise_eq_of_mem s ρ σ hi

open Classical in
theorem dependsOn_piecewise_right {f : (ι → Bool) → Bool} (hdisjoint : Disjoint s t)
    (hf : DependsOn f t) (ρ σ : ι → Bool) : f (s.piecewise ρ σ) = f σ :=
  hf fun _ hi => Set.piecewise_eq_of_notMem s ρ σ (Set.disjoint_right.mp hdisjoint hi)

/-- Two functions of disjoint atoms take any two of their values together. -/
theorem exists_both {f g : (ι → Bool) → Bool} (hdisjoint : Disjoint s t) (hf : DependsOn f s)
    (hg : DependsOn g t) (ρ σ : ι → Bool) : ∃ τ, f τ = f ρ ∧ g τ = g σ := by
  classical
  exact ⟨s.piecewise ρ σ, dependsOn_piecewise_left hf ρ σ,
    dependsOn_piecewise_right hdisjoint hg ρ σ⟩

section Cancel

variable {f₁ f₂ g₁ g₂ : (ι → Bool) → Bool}

section

variable (hdisjoint : Disjoint s t) (hf₁ : DependsOn f₁ s) (hg₁ : DependsOn g₁ s)
  (hf₂ : DependsOn f₂ t) (hg₂ : DependsOn g₂ t)
include hdisjoint hf₁ hg₁ hf₂ hg₂

/-- Equal conjunctions of functions of disjoint atoms have equal sides, if
the right hand sides can be satisfied. -/
theorem and_cancel (hsat₁ : ∃ ρ, g₁ ρ = true) (hsat₂ : ∃ ρ, g₂ ρ = true)
    (heq : ∀ ρ, (f₁ ρ && f₂ ρ) = (g₁ ρ && g₂ ρ)) : (∀ ρ, f₁ ρ = g₁ ρ) ∧ ∀ ρ, f₂ ρ = g₂ ρ := by
  classical
  obtain ⟨ρ₁, hρ₁⟩ := hsat₁
  obtain ⟨ρ₂, hρ₂⟩ := hsat₂
  have hsplit : ∀ ρ σ, (f₁ ρ && f₂ σ) = (g₁ ρ && g₂ σ) := by
    intro ρ σ
    have h := heq (s.piecewise ρ σ)
    rwa [dependsOn_piecewise_left hf₁, dependsOn_piecewise_left hg₁,
      dependsOn_piecewise_right hdisjoint hf₂, dependsOn_piecewise_right hdisjoint hg₂] at h
  have hboth := hsplit ρ₁ ρ₂
  simp only [hρ₁, hρ₂, Bool.and_self, Bool.and_eq_true] at hboth
  constructor
  · intro ρ
    simpa [hboth.2, hρ₂] using hsplit ρ ρ₂
  · intro ρ
    simpa [hboth.1, hρ₁] using hsplit ρ₁ ρ

/-- The dual of `and_cancel`. -/
theorem or_cancel (hsat₁ : ∃ ρ, g₁ ρ = false) (hsat₂ : ∃ ρ, g₂ ρ = false)
    (heq : ∀ ρ, (f₁ ρ || f₂ ρ) = (g₁ ρ || g₂ ρ)) : (∀ ρ, f₁ ρ = g₁ ρ) ∧ ∀ ρ, f₂ ρ = g₂ ρ := by
  have hnot : ∀ {f : (ι → Bool) → Bool} {u : Set ι}, DependsOn f u →
      DependsOn (fun ρ => !f ρ) u := by
    intro f u hf ρ σ hsame
    exact congrArg (!·) (hf hsame)
  have hcancel := and_cancel hdisjoint (hnot hf₁) (hnot hg₁) (hnot hf₂)
    (hnot hg₂) (by simpa using hsat₁) (by simpa using hsat₂) (by
      intro ρ
      rw [← Bool.not_or, ← Bool.not_or, heq ρ])
  simpa using hcancel

end

end Cancel

end ReadOnce
