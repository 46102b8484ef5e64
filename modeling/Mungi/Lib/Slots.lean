import Mathlib.Data.List.Nodup
import Mathlib.Data.List.Perm.Basic
import Mathlib.Logic.Function.Basic
import Mathlib.Tactic.Common

/-!
# Tables of slots

The first `n` places of an array, where 0 marks a place that is free.

## Main definitions

* `used n f` — what the places in use hold.

## Main results

* `used_put`, `used_clear` — a place is taken, or given back.
* `length_used_lt` — when a place is free.
* `used_inj` — what is there once is in one place.
-/

namespace Slots

variable {n i j a : ℕ} {f : ℕ → ℕ}

/-- What the places in use hold. -/
def used (n : ℕ) (f : ℕ → ℕ) : List ℕ := ((List.range n).map f).filter (· ≠ 0)

theorem mem_used : a ∈ used n f ↔ a ≠ 0 ∧ ∃ i < n, f i = a := by
  simp only [used, List.mem_filter, List.mem_map, List.mem_range, decide_eq_true_eq]
  exact and_comm

/-- The places before one and behind it. -/
theorem used_split (f : ℕ → ℕ) (hi : i < n) : ∃ l l', ∀ a,
    used n (Function.update f i a) = l ++ (if a = 0 then [] else [a]) ++ l' := by
  obtain ⟨k, k', hk⟩ := List.append_of_mem (List.mem_range.mpr hi)
  have hnodup : (k ++ i :: k').Nodup := hk ▸ List.nodup_range
  rw [List.nodup_middle, List.nodup_cons, List.mem_append, not_or] at hnodup
  have hsame : ∀ a, ∀ m : List ℕ, i ∉ m → m.map (Function.update f i a) = m.map f := fun a m hm =>
    List.map_congr_left fun x hx => Function.update_of_ne (fun heq : x = i => hm (heq ▸ hx)) ..
  refine ⟨(k.map f).filter (· ≠ 0), (k'.map f).filter (· ≠ 0), fun a => ?_⟩
  unfold used
  rw [hk, List.map_append, List.map_cons, List.filter_append, hsame a k hnodup.1.1,
    hsame a k' hnodup.1.2, Function.update_self, List.append_assoc]
  by_cases ha : a = 0
  · rw [List.filter_cons_of_neg (by simpa using ha), if_pos ha, List.nil_append]
  · rw [List.filter_cons_of_pos (by simpa using ha), if_neg ha, List.singleton_append]

/-- A free place is taken. -/
theorem used_put (hi : i < n) (hfree : f i = 0) (ha : a ≠ 0) :
    (used n (Function.update f i a)).Perm (a :: used n f) := by
  obtain ⟨l, l', hl⟩ := used_split f hi
  have hf := hl (f i)
  rw [Function.update_eq_self, hfree, if_pos rfl, List.append_nil] at hf
  rw [hl, hf, if_neg ha, List.append_assoc, List.singleton_append]
  exact List.perm_middle

/-- A place is given back. -/
theorem used_clear (hi : i < n) (hbusy : f i ≠ 0) :
    (f i :: used n (Function.update f i 0)).Perm (used n f) := by
  have hput := used_put (f := Function.update f i 0) hi (Function.update_self ..) hbusy
  rw [Function.update_idem, Function.update_eq_self] at hput
  exact hput.symm

/-- There is a free place when not all are in use. -/
theorem length_used_lt : (used n f).length < n ↔ ∃ i < n, f i = 0 := by
  have hlen : ((List.range n).map f).length = n := by simp
  have hiff : (used n f).length < ((List.range n).map f).length ↔ _ :=
    List.length_filter_lt_length_iff_exists
  rw [hlen] at hiff
  simpa using hiff

/-- What is there once is in one place. -/
theorem used_inj (h : (used n f).Nodup) (hi : i < n) (hj : j < n) (hbusy : f i ≠ 0)
    (heq : f i = f j) : i = j := by
  by_contra hne
  have hperm := (used_clear hi hbusy).nodup_iff.mpr h
  refine (List.nodup_cons.mp hperm).1 (mem_used.mpr ⟨hbusy, j, hj, ?_⟩)
  rw [Function.update_of_ne (Ne.symm hne), heq]

end Slots
