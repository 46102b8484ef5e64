import Mungi.Lib.Spans
import Mathlib.Tactic.Common

/-!
# Owners of addresses

A map that says to whom an address belongs, if to anyone.  An owner is given a span of addresses
in place of those it had, or gives up what it has.

## Main definitions

* `clear m o` — `o` owns nothing any more.
* `place m o s` — `o` owns the span `s`, and nothing else.
* `First m o x` — the addresses of `o` begin at `x`.

## Main results

* `clear_eq_some`, `place_eq_some` — who owns an address then.
-/

namespace Owners

open Spans

variable {O : Type*}

/-- The addresses of an owner begin here. -/
def First (m : ℕ → Option O) (o : O) (x : ℕ) : Prop := m x = some o ∧ ∀ y, m y = some o → x ≤ y

/-- Two maps that say the same of every owner are the same. -/
theorem ext_owner {m m' : ℕ → Option O} (h : ∀ x p, m x = some p ↔ m' x = some p) : m = m' :=
  funext fun x => Option.ext fun p => h x p

variable [DecidableEq O]

/-- An owner gives up its addresses. -/
def clear (m : ℕ → Option O) (o : O) (x : ℕ) : Option O := if m x = some o then none else m x

/-- An owner takes the addresses of a span, in place of those it had. -/
def place (m : ℕ → Option O) (o : O) (s : Span) (x : ℕ) : Option O :=
  if s.lo ≤ x ∧ x < s.hi then some o else clear m o x

variable {m : ℕ → Option O} {o p : O} {s : Span} {x : ℕ}

theorem clear_eq_some : clear m o x = some p ↔ p ≠ o ∧ m x = some p := by
  unfold clear
  split_ifs with h
  · simp only [false_iff, not_and]
    intro hne hm
    exact hne (Option.some.inj (hm.symm.trans h))
  · refine ⟨fun hm => ⟨?_, hm⟩, fun hm => hm.2⟩
    rintro rfl
    exact h hm

theorem place_eq_some :
    place m o s x = some p ↔ p = o ∧ s.Has x ∨ p ≠ o ∧ ¬ s.Has x ∧ m x = some p := by
  unfold place
  split_ifs with h
  · have hx : s.Has x := h
    simp [hx, eq_comm]
  · have hx : ¬ s.Has x := h
    rw [clear_eq_some]
    simp [hx]

end Owners
