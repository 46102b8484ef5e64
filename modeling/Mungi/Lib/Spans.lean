import Mathlib.Data.List.Nodup
import Mathlib.Data.List.Perm.Basic
import Mathlib.Data.List.Range
import Mathlib.Tactic.Common

/-!
# Spans of addresses

Half-open spans of natural numbers, and lists of them that cover the same numbers
as often.  A list that amounts to one span tiles it: its spans do not overlap, lie
in it and leave nothing out.

## Main definitions

* `Span`, `Span.points` — spans and the numbers in them.
* `Same` — two lists of spans that cover the same numbers as often.

## Main results

* `same_split` — a span cut in two.
* `Same.tiles` — **what it means to tile a span.**
-/

namespace Spans

/-- The numbers from `lo` on and below `hi`. -/
structure Span where
  lo : ℕ
  hi : ℕ
  deriving DecidableEq

/-- The numbers in a span, in order. -/
def Span.points (s : Span) : List ℕ := List.range' s.lo (s.hi - s.lo)

/-- A number lies in a span. -/
def Span.Has (s : Span) (x : ℕ) : Prop := s.lo ≤ x ∧ x < s.hi

theorem Span.mem_points {s : Span} {x : ℕ} : x ∈ s.points ↔ s.Has x := by
  unfold Span.points Span.Has
  rw [List.mem_range'_1]
  omega

/-- Two lists of spans cover the same numbers as often. -/
def Same (l l' : List Span) : Prop := (l.flatMap Span.points).Perm (l'.flatMap Span.points)

theorem Same.refl (l : List Span) : Same l l := List.Perm.refl _

theorem Same.symm {l l' : List Span} (h : Same l l') : Same l' l := List.Perm.symm h

theorem Same.trans {l l' l'' : List Span} (h : Same l l') (h' : Same l' l'') : Same l l'' :=
  List.Perm.trans h h'

theorem same_of_perm {l l' : List Span} (h : l.Perm l') : Same l l' := h.flatMap_right _

theorem Same.append {l₁ l₁' l₂ l₂' : List Span} (h₁ : Same l₁ l₁') (h₂ : Same l₂ l₂') :
    Same (l₁ ++ l₂) (l₁' ++ l₂') := by
  unfold Same
  rw [List.flatMap_append, List.flatMap_append]
  exact List.Perm.append h₁ h₂

theorem Same.cons {l l' : List Span} (h : Same l l') (s : Span) : Same (s :: l) (s :: l') :=
  (Same.refl [s]).append h

/-- A span cut in two. -/
theorem same_split {a b c : ℕ} (h₁ : a ≤ b) (h₂ : b ≤ c) (l : List Span) :
    Same (⟨a, c⟩ :: l) (⟨a, b⟩ :: ⟨b, c⟩ :: l) := by
  unfold Same
  rw [List.flatMap_cons, List.flatMap_cons, List.flatMap_cons, ← List.append_assoc]
  refine List.Perm.append_right _ (List.Perm.of_eq ?_)
  unfold Span.points
  have h : List.range' a (b - a) ++ List.range' (a + 1 * (b - a)) (c - b)
      = List.range' a (b - a + (c - b)) := List.range'_append
  rw [Nat.one_mul, show a + (b - a) = b by omega, show b - a + (c - b) = c - a by omega] at h
  exact h.symm

/-- A span of no numbers does not count. -/
theorem same_empty (a : ℕ) (l : List Span) : Same (⟨a, a⟩ :: l) l := by
  unfold Same Span.points
  rw [List.flatMap_cons]
  simp

theorem same_swap (s t : Span) (l : List Span) : Same (s :: t :: l) (t :: s :: l) :=
  same_of_perm (List.Perm.swap ..)

/-- **What it means to tile a span**: no overlaps, nothing outside, and nothing left
out. -/
theorem Same.tiles {l : List Span} {lo hi : ℕ} (h : Same l [⟨lo, hi⟩]) :
    l.Pairwise (fun s t => ∀ x, s.Has x → ¬ t.Has x) ∧
      ∀ x, (∃ s ∈ l, s.Has x) ↔ (lo ≤ x ∧ x < hi) := by
  unfold Same at h
  rw [List.flatMap_singleton] at h
  constructor
  · have hnodup : (l.flatMap Span.points).Nodup := h.nodup_iff.mpr List.nodup_range'
    refine (List.nodup_flatMap.mp hnodup).2.imp fun {s t} hdis x hs ht => ?_
    exact hdis (Span.mem_points.mpr hs) (Span.mem_points.mpr ht)
  · intro x
    have hmem := h.mem_iff (a := x)
    rw [List.mem_flatMap, Span.mem_points] at hmem
    change _ ↔ Span.Has ⟨lo, hi⟩ x
    rw [← hmem]
    exact exists_congr fun s => and_congr_right fun _ => Span.mem_points.symm

end Spans
