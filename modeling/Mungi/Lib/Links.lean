import Mathlib.Algebra.Order.Group.Nat
import Mathlib.Data.Finset.Card
import Mathlib.Logic.Function.Basic

/-!
# Links in an array

Links between the entries of an array, each of which holds the number of the next one; the number
of no entry marks the end.  To follow links is safe when they come to the end by way of entries
that may be looked at, and then it takes no more steps than there are such entries.

## Main definitions

* `EndsIn next stop P k i` — from `i` the links come to `stop` after `k` entries, all with `P`.
* `Ends next stop P i` — they come to `stop`.
* `Visits next go i j` — following links from `i` as long as `go` comes to `j`.

## Main results

* `EndsIn.le_of_lt` — there are no more steps than entries.
* `Ends.change` — **links that are changed still end** when the changed ones lead to the end.
* `Ends.visits` — where links are followed to.
-/

namespace Links

/-- From `i` the links come to `stop` after `k` entries, all of them with `P`. -/
inductive EndsIn (next : ℕ → ℕ) (stop : ℕ) (P : ℕ → Prop) : ℕ → ℕ → Prop where
  | stop : EndsIn next stop P 0 stop
  | next {k i : ℕ} (hi : i ≠ stop) (hP : P i) (h : EndsIn next stop P k (next i)) :
      EndsIn next stop P (k + 1) i

/-- From `i` the links come to `stop`, by way of entries with `P`. -/
def Ends (next : ℕ → ℕ) (stop : ℕ) (P : ℕ → Prop) (i : ℕ) : Prop :=
  ∃ k, EndsIn next stop P k i

/-- The entries that links are followed to from `i`, as long as `go`. -/
inductive Visits (next : ℕ → ℕ) (go : ℕ → Prop) (i : ℕ) : ℕ → Prop where
  | start : Visits next go i i
  | next {j : ℕ} (h : Visits next go i j) (hgo : go j) : Visits next go i (next j)

variable {next next' : ℕ → ℕ} {stop i j k k' n : ℕ} {P P' go : ℕ → Prop}

/-- The number of steps is determined. -/
theorem EndsIn.unique (h : EndsIn next stop P k i) (h' : EndsIn next stop P k' i) : k = k' := by
  induction h generalizing k' with
  | stop =>
    cases h' with
    | stop => rfl
    | next hi => exact absurd rfl hi
  | next hi _ _ ih =>
    cases h' with
    | stop => exact absurd rfl hi
    | next _ _ h' => rw [ih h']

/-- On the way there is an entry for each number of steps left. -/
theorem EndsIn.exists_of_lt (h : EndsIn next stop P k i) : ∀ m < k, ∃ j, P j ∧
    EndsIn next stop P (m + 1) j := by
  induction h with
  | stop => exact fun m hm => absurd hm (Nat.not_lt_zero m)
  | @next k i hi hP h ih =>
    intro m hm
    rcases Nat.eq_or_lt_of_le (Nat.lt_succ_iff.mp hm) with rfl | hlt
    · exact ⟨i, hP, .next hi hP h⟩
    · exact ih m hlt

/-- **There are no more steps than entries.** -/
theorem EndsIn.le_of_lt (h : EndsIn next stop P k i) (hP : ∀ j, P j → j < n) : k ≤ n := by
  choose! entry hentry hleft using h.exists_of_lt
  have hcard := Finset.card_le_card_of_injOn (s := Finset.range k) (t := Finset.range n) entry
    (fun m hm => Finset.mem_coe.mpr (Finset.mem_range.mpr
      (hP _ (hentry m (Finset.mem_range.mp (Finset.mem_coe.mp hm))))))
    fun m hm m' hm' heq => by
      have hm := hleft m (Finset.mem_range.mp (Finset.mem_coe.mp hm))
      rw [heq] at hm
      exact Nat.succ.inj (hm.unique (hleft m' (Finset.mem_range.mp (Finset.mem_coe.mp hm'))))
  simpa using hcard

theorem Ends.refl : Ends next stop P stop := ⟨0, .stop⟩

theorem Ends.step (hi : i ≠ stop) (hP : P i) (h : Ends next stop P (next i)) :
    Ends next stop P i := by
  obtain ⟨k, hk⟩ := h
  exact ⟨k + 1, .next hi hP hk⟩

/-- What is before the end is an entry, and the links go on from it. -/
theorem Ends.cases_on (h : Ends next stop P i) : i = stop ∨ P i ∧ Ends next stop P (next i) := by
  obtain ⟨k, hk⟩ := h
  cases hk with
  | stop => exact Or.inl rfl
  | next _ hP hk => exact Or.inr ⟨hP, _, hk⟩

/-- **Links that are changed still end** when the changed ones do, if the old ones would. -/
theorem Ends.change (h : Ends next stop P i) (hchange : ∀ j, P j →
    P' j ∧ (Ends next' stop P' (next j) → Ends next' stop P' (next' j))) :
    Ends next' stop P' i := by
  obtain ⟨k, hk⟩ := h
  induction hk with
  | stop => exact .refl
  | next hj hP _ ih => exact .step hj (hchange _ hP).1 ((hchange _ hP).2 ih)

/-- Links that lead from higher to lower entries end. -/
theorem Ends.of_rank {Q : ℕ → Prop} (rank : ℕ → ℕ) (hi : Q i) (h : ∀ j, j ≠ stop → Q j →
    P j ∧ (next j = stop ∨ Q (next j) ∧ rank (next j) < rank j)) : Ends next stop P i := by
  induction hn : rank i using Nat.strongRecOn generalizing i with
  | _ n ih =>
    by_cases hstop : i = stop
    · rw [hstop]
      exact .refl
    · obtain ⟨hP, heq | ⟨hQ, hlt⟩⟩ := h i hstop hi
      · refine .step hstop hP ?_
        rw [heq]
        exact .refl
      · exact .step hstop hP (ih _ (hn ▸ hlt) hQ rfl)

/-- **Where links are followed to** before the end. -/
theorem Ends.visits (h : Ends next stop P i) (hgo : ∀ j, go j → j ≠ stop)
    (hj : Visits next go i j) : Ends next stop P j := by
  induction hj with
  | start => exact h
  | @next j hj hgoj ih => exact (ih.cases_on.resolve_left (hgo j hgoj)).2

end Links
