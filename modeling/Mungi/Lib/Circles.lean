import Mathlib.Logic.Relation
import Mathlib.Order.Defs.LinearOrder
import Mathlib.Order.Nat

/-!
# Circles

Relations that lead nowhere back, and what one step more does to them: a relation in which each
element has the steps it had, but one that has a single new step.

## Main definitions

* `Acyclic r` — no element leads back to itself.

## Main results

* `Acyclic.mono`, `Acyclic.of_lt` — fewer steps, and steps that go up.
* `acyclic_iff_of_step` — **when a new step closes no circle.**
-/

namespace Circles

open Relation

variable {α : Type*} {r r' : α → α → Prop} {u v : α}

/-- No element leads back to itself. -/
def Acyclic (r : α → α → Prop) : Prop := ∀ a, ¬ TransGen r a a

/-- Fewer steps close no circle. -/
theorem Acyclic.mono (h : Acyclic r) (hsub : ∀ a b, r' a b → r a b) : Acyclic r' :=
  fun a ha => h a (TransGen.mono hsub a a ha)

/-- Steps that go up close no circle. -/
theorem Acyclic.of_lt (f : α → ℕ) (h : ∀ a b, r a b → f a < f b) : Acyclic r := by
  intro a ha
  have hlt : ∀ b, TransGen r a b → f a < f b := by
    intro b hb
    induction hb with
    | single hab => exact h _ _ hab
    | tail _ hbc ih => exact ih.trans (h _ _ hbc)
  exact (hlt a ha).false

/-- A way with the new step goes to its start, and on from its end. -/
theorem transGen_of_step (hstep : ∀ a b, r' a b → r a b ∨ a = u ∧ b = v)
    (hback : ¬ ReflTransGen r v u) {a b : α} (h : TransGen r' a b) :
    TransGen r a b ∨ ReflTransGen r a u ∧ ReflTransGen r v b := by
  induction h with
  | single hab =>
    rcases hstep _ _ hab with hab | ⟨rfl, rfl⟩
    · exact Or.inl (.single hab)
    · exact Or.inr ⟨.refl, .refl⟩
  | tail _ hbc ih =>
    rcases hstep _ _ hbc with hbc | ⟨rfl, rfl⟩
    · rcases ih with ih | ⟨hau, hvb⟩
      · exact Or.inl (ih.tail hbc)
      · exact Or.inr ⟨hau, hvb.tail hbc⟩
    · rcases ih with ih | ⟨-, hvu⟩
      · exact Or.inr ⟨ih.to_reflTransGen, .refl⟩
      · exact absurd hvu hback

/-- A way to an element needs none of its own steps. -/
theorem reflTransGen_of_step (hkeep : ∀ a b, a ≠ u → r a b → r' a b) {a : α}
    (h : TransGen r a u) : ReflTransGen r' a u := by
  induction h using TransGen.head_induction_on with
  | @single a hau =>
    by_cases hu : a = u
    · rw [hu]
    · exact .single (hkeep _ _ hu hau)
  | @head a _ hac _ ih =>
    by_cases hu : a = u
    · rw [hu]
    · exact .head (hkeep _ _ hu hac) ih

/-- **When a new step closes no circle.** -/
theorem acyclic_iff_of_step (h : Acyclic r)
    (hstep : ∀ a b, r' a b ↔ a ≠ u ∧ r a b ∨ a = u ∧ b = v) :
    Acyclic r' ↔ v ≠ u ∧ ¬ TransGen r v u := by
  have hnew : r' u v := (hstep u v).mpr (Or.inr ⟨rfl, rfl⟩)
  constructor
  · intro h'
    refine ⟨?_, fun hvu => ?_⟩
    · rintro rfl
      exact h' v (.single hnew)
    · refine h' u (TransGen.head' hnew (reflTransGen_of_step (fun a b hau hab => ?_) hvu))
      exact (hstep a b).mpr (Or.inl ⟨hau, hab⟩)
  · rintro ⟨hne, hvu⟩ a ha
    have hback : ¬ ReflTransGen r v u := by
      intro hway
      rcases reflTransGen_iff_eq_or_transGen.mp hway with heq | hway
      · exact hne heq.symm
      · exact hvu hway
    have hsub : ∀ a b, r' a b → r a b ∨ a = u ∧ b = v := fun a b hab =>
      ((hstep a b).mp hab).imp_left And.right
    rcases transGen_of_step hsub hback ha with ha | ⟨hau, hva⟩
    · exact h a ha
    · exact hback (hva.trans hau)

end Circles
