import Mathlib.Algebra.GroupWithZero.Nat
import Mathlib.Algebra.Order.BigOperators.Group.List
import Mathlib.Algebra.Order.Group.Nat
import Mathlib.Data.List.Infix
import Mathlib.Tactic.Common

/-!
# Paths

A path is a string with a separator between its components; components are not empty, however many
separators there are.  To resolve a path is to read its components from left to right, pass over
those that stand for the place itself and go back one for those that stand for the place before.

## Main definitions

* `pieces sep s`, `components sep s` — what is between separators, and what of it is not empty.
* `join sep l`, `render sep l` — components with separators between them, and an absolute path.
* `resolve isDot isUp l` — what is left of components.

## Main results

* `components_render` — **an absolute path has the components that it was made of.**
* `resolve_of_plain`, `plain_of_mem_resolve` — what is resolved is not resolved further.
* `length_join_components` — no components are longer than the path that they come from.
-/

namespace Paths

variable {α : Type*} {sep : α} {s t : List α} {l l' : List (List α)}

/-! ### Joining -/

/-- Components with separators between them. -/
def join (sep : α) : List (List α) → List α
  | [] => []
  | [c] => c
  | c :: c' :: l => c ++ sep :: join sep (c' :: l)

/-- An absolute path. -/
def render (sep : α) (l : List (List α)) : List α := sep :: join sep l

@[simp] theorem join_nil : join sep [] = [] := rfl

theorem join_cons {c : List α} (h : l ≠ []) : join sep (c :: l) = c ++ sep :: join sep l := by
  cases l with
  | nil => exact absurd rfl h
  | cons c' l => rfl

/-- A component is put behind the others with a separator. -/
theorem join_concat (l : List (List α)) (c : List α) : join sep (l ++ [c]) =
    (if l ≠ [] then join sep l ++ [sep] else join sep l) ++ c := by
  induction l with
  | nil => rfl
  | cons d l ih =>
    rw [List.cons_append, join_cons (by simp), ih, if_pos (List.cons_ne_nil d l)]
    by_cases hl : l = []
    · subst hl
      simp [join]
    · rw [if_pos hl, join_cons hl]
      simp

/-- How long components with separators between them are. -/
theorem length_join (l : List (List α)) :
    (join sep l).length = (l.map List.length).sum + (l.length - 1) := by
  induction l with
  | nil => rfl
  | cons c l ih =>
    by_cases hl : l = []
    · rw [hl]
      simp [join]
    · have hpos := List.length_pos_of_ne_nil hl
      rw [join_cons hl, List.length_append, List.length_cons, ih, List.map_cons, List.sum_cons,
        List.length_cons]
      omega

/-- Fewer components are no longer. -/
theorem length_join_le (h : l.Sublist l') : (join sep l).length ≤ (join sep l').length := by
  have hsum : (l.map List.length).sum ≤ (l'.map List.length).sum :=
    (h.map List.length).sum_le_sum fun _ _ => Nat.zero_le _
  have hlen := h.length_le
  rw [length_join, length_join]
  omega

variable [DecidableEq α]

/-! ### Components -/

/-- What is between the separators of a string, empty or not. -/
def pieces (sep : α) : List α → List (List α)
  | [] => [[]]
  | a :: s =>
    if a = sep then [] :: pieces sep s
    else
      match pieces sep s with
      | [] => [[a]]
      | p :: l => (a :: p) :: l

/-- The components of a path. -/
def components (sep : α) (s : List α) : List (List α) := (pieces sep s).filter (· ≠ [])

@[simp] theorem pieces_nil : pieces sep [] = [[]] := rfl

theorem pieces_sep (s : List α) : pieces sep (sep :: s) = [] :: pieces sep s := if_pos rfl

theorem pieces_ne_nil (s : List α) : pieces sep s ≠ [] := by
  cases s with
  | nil => exact List.cons_ne_nil _ _
  | cons a s =>
    rw [pieces]
    split
    · exact List.cons_ne_nil _ _
    · split
      · exact List.cons_ne_nil _ _
      · exact List.cons_ne_nil _ _

/-- A piece goes on up to the next separator. -/
theorem pieces_append (s t : List α) :
    pieces sep (s ++ sep :: t) = pieces sep s ++ pieces sep t := by
  induction s with
  | nil => exact pieces_sep t
  | cons a s ih =>
    rw [List.cons_append, pieces, pieces, ih]
    by_cases ha : a = sep
    · rw [if_pos ha, if_pos ha]
      rfl
    · rw [if_neg ha, if_neg ha]
      cases hp : pieces sep s with
      | nil => exact absurd hp (pieces_ne_nil s)
      | cons p l => rfl

/-- A string without separators is one piece. -/
theorem pieces_of_not_mem (h : sep ∉ s) : pieces sep s = [s] := by
  induction s with
  | nil => rfl
  | cons a s ih =>
    rw [List.mem_cons, not_or] at h
    rw [pieces, if_neg (Ne.symm h.1), ih h.2]

theorem not_mem_of_mem_pieces {p : List α} (h : p ∈ pieces sep s) : sep ∉ p := by
  induction s generalizing p with
  | nil =>
    rw [List.mem_singleton.mp h]
    exact List.not_mem_nil
  | cons a s ih =>
    rw [pieces] at h
    split at h
    · rcases List.mem_cons.mp h with rfl | h
      · exact List.not_mem_nil
      · exact ih h
    · next ha =>
      split at h
      · rw [List.mem_singleton.mp h, List.mem_singleton]
        exact Ne.symm ha
      · next q l hq =>
        rw [hq] at ih
        rcases List.mem_cons.mp h with rfl | h
        · rw [List.mem_cons, not_or]
          exact ⟨Ne.symm ha, ih List.mem_cons_self⟩
        · exact ih (List.mem_cons_of_mem q h)

@[simp] theorem components_nil : components sep [] = [] := rfl

theorem components_append (s t : List α) :
    components sep (s ++ sep :: t) = components sep s ++ components sep t := by
  unfold components
  rw [pieces_append, List.filter_append]

theorem components_sep (s : List α) : components sep (sep :: s) = components sep s :=
  components_append [] s

theorem components_of_not_mem (h : sep ∉ s) (hs : s ≠ []) : components sep s = [s] := by
  unfold components
  rw [pieces_of_not_mem h, List.filter_cons_of_pos (by simpa using hs), List.filter_nil]

theorem not_mem_of_mem_components {p : List α} (h : p ∈ components sep s) : sep ∉ p :=
  not_mem_of_mem_pieces (List.mem_of_mem_filter h)

theorem ne_nil_of_mem_components {p : List α} (h : p ∈ components sep s) : p ≠ [] := by
  simpa using (List.mem_filter.mp h).2

/-! ### Components of what was joined -/

/-- Pieces are found again. -/
theorem pieces_join (hl : l ≠ []) (h : ∀ c ∈ l, sep ∉ c) : pieces sep (join sep l) = l := by
  induction l with
  | nil => exact absurd rfl hl
  | cons c l ih =>
    have hc := pieces_of_not_mem (h c List.mem_cons_self)
    by_cases hne : l = []
    · rw [hne]
      exact hc
    · rw [join_cons hne, pieces_append, hc, ih hne fun d hd => h d (List.mem_cons_of_mem c hd)]
      rfl

/-- **An absolute path has the components that it was made of.** -/
theorem components_render (h : ∀ c ∈ l, c ≠ [] ∧ sep ∉ c) : components sep (render sep l) = l := by
  unfold render
  rw [components_sep]
  by_cases hl : l = []
  · rw [hl]
    rfl
  · unfold components
    rw [pieces_join hl fun c hc => (h c hc).2, List.filter_eq_self]
    intro c hc
    simpa using (h c hc).1

/-- A string is as long as its pieces with the separators between them. -/
theorem join_pieces (s : List α) : join sep (pieces sep s) = s := by
  induction s with
  | nil => rfl
  | cons a s ih =>
    rw [pieces]
    split
    · next ha =>
      rw [join_cons (pieces_ne_nil s), ih, ha]
      rfl
    · split
      · next h => exact absurd h (pieces_ne_nil s)
      · next p l h =>
        rw [h] at ih
        by_cases hl : l = []
        · rw [hl] at ih ⊢
          exact congrArg (a :: ·) ih
        · rw [join_cons hl] at ih ⊢
          exact congrArg (a :: ·) ih

/-- What is in a piece is in the string. -/
theorem mem_of_mem_pieces {p : List α} {a : α} (h : p ∈ pieces sep s) (ha : a ∈ p) : a ∈ s := by
  have hjoin : ∀ l : List (List α), p ∈ l → a ∈ join sep l := by
    intro l
    induction l with
    | nil => exact fun h => absurd h List.not_mem_nil
    | cons c l ih =>
      intro h
      by_cases hl : l = []
      · rw [hl, List.mem_singleton] at h
        rw [hl, ← h]
        exact ha
      · rw [join_cons hl]
        rcases List.mem_cons.mp h with rfl | h
        · exact List.mem_append_left _ ha
        · exact List.mem_append_right _ (List.mem_cons_of_mem sep (ih h))
  have hjoined : join sep (pieces sep s) = s := join_pieces s
  rw [← hjoined]
  exact hjoin _ h

/-- **No components are longer than the path that they come from.** -/
theorem length_join_components (s : List α) :
    (join sep (components sep s)).length ≤ s.length := by
  refine (length_join_le (List.filter_sublist (p := (· ≠ [])))).trans (le_of_eq ?_)
  rw [join_pieces]

/-! ### Resolving -/

section Resolve
variable {β : Type*} {isDot isUp : β → Bool} {st m : List β} {c : β}

/-- Components are read with those before them on a stack. -/
def resolveFrom (isDot isUp : β → Bool) : List β → List β → List β
  | st, [] => st.reverse
  | st, c :: l =>
    if isDot c then resolveFrom isDot isUp st l
    else if isUp c then resolveFrom isDot isUp st.tail l
    else resolveFrom isDot isUp (c :: st) l

/-- What is left of components. -/
def resolve (isDot isUp : β → Bool) (l : List β) : List β := resolveFrom isDot isUp [] l

/-- Components that stand for nothing but themselves stay. -/
theorem resolveFrom_of_plain (h : ∀ c ∈ m, isDot c = false ∧ isUp c = false) :
    resolveFrom isDot isUp st m = st.reverse ++ m := by
  induction m generalizing st with
  | nil => exact (List.append_nil _).symm
  | cons c m ih =>
    obtain ⟨hdot, hup⟩ := h c List.mem_cons_self
    rw [resolveFrom, if_neg (by simp [hdot]), if_neg (by simp [hup]),
      ih fun d hd => h d (List.mem_cons_of_mem c hd), List.reverse_cons, List.append_assoc]
    rfl

theorem resolve_of_plain (h : ∀ c ∈ m, isDot c = false ∧ isUp c = false) :
    resolve isDot isUp m = m := resolveFrom_of_plain h

theorem resolveFrom_sublist : (resolveFrom isDot isUp st m).Sublist (st.reverse ++ m) := by
  induction m generalizing st with
  | nil =>
    rw [List.append_nil]
    exact List.Sublist.refl _
  | cons c m ih =>
    rw [resolveFrom]
    split_ifs
    · exact ih.trans ((List.sublist_cons_self c m).append_left _)
    · refine ih.trans (List.Sublist.append ?_ (List.sublist_cons_self c m))
      exact List.reverse_sublist.mpr (List.tail_sublist st)
    · refine ih.trans ?_
      rw [List.reverse_cons, List.append_assoc]
      exact List.Sublist.refl _

/-- Resolving leaves components out. -/
theorem resolve_sublist (m : List β) : (resolve isDot isUp m).Sublist m := resolveFrom_sublist

theorem plain_of_mem_resolveFrom (hst : ∀ c ∈ st, isDot c = false ∧ isUp c = false)
    (h : c ∈ resolveFrom isDot isUp st m) : isDot c = false ∧ isUp c = false := by
  induction m generalizing st with
  | nil => exact hst c (List.mem_reverse.mp h)
  | cons d m ih =>
    rw [resolveFrom] at h
    split_ifs at h with hdot hup
    · exact ih hst h
    · exact ih (fun c hc => hst c (List.mem_of_mem_tail hc)) h
    · refine ih (fun c hc => ?_) h
      rcases List.mem_cons.mp hc with rfl | hc
      · exact ⟨by simpa using hdot, by simpa using hup⟩
      · exact hst c hc

/-- What is left stands for nothing but itself. -/
theorem plain_of_mem_resolve (h : c ∈ resolve isDot isUp m) : isDot c = false ∧ isUp c = false :=
  plain_of_mem_resolveFrom (fun _ h => absurd h List.not_mem_nil) h

end Resolve

end Paths
