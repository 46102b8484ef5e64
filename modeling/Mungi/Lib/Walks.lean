import Mathlib.Data.List.Infix
import Mathlib.Logic.Function.Basic
import Mathlib.Tactic.Common

/-!
# Walks along names

At every place there are entries under names, and an entry may lead to another place.  To walk along
a list of names is to go from place to place by the entries under them.  As long as no place is
reached along two lists, what is under a list of names can be changed at the last of them, and
nothing changes under other lists but those that go on from it.

## Main definitions

* `walk g child r l` — the place that is reached from `r` along `l`.
* `under g child r l` — the entry under the last name of `l`.
* `Unshared` — no place is reached along two lists.
* `relabel g d n v` — the graph with another entry at one place.

## Main results

* `walk_relabel_elsewhere`, `under_relabel_elsewhere` — **nothing changes elsewhere.**
* `under_relabel_dead`, `under_relabel_same`, `under_relabel_graft`, `under_relabel_fresh` — what is
  found afterwards, for an entry that leads nowhere, where the old one does, to a place that is
  apart, or to one that is new.
-/

namespace Walks

variable {ι κ ε : Type*}

/-- The place that is reached along names. -/
def walk (g : ι → κ → Option ε) (child : ε → Option ι) : ι → List κ → Option ι
  | d, [] => some d
  | d, n :: l => ((g d n).bind child).bind fun c => walk g child c l

/-- The entry under the last of the names. -/
def under (g : ι → κ → Option ε) (child : ε → Option ι) (r : ι) (l : List κ) : Option ε :=
  l.getLast?.bind fun n => (walk g child r l.dropLast).bind fun d => g d n

/-- No place is reached from `r` along two lists of names. -/
def Unshared (g : ι → κ → Option ε) (child : ε → Option ι) (r : ι) : Prop :=
  ∀ p q d, walk g child r p = some d → walk g child r q = some d → p = q

/-- The entry under one name at one place is another one. -/
def relabel [DecidableEq ι] [DecidableEq κ] (g : ι → κ → Option ε) (d : ι) (n : κ)
    (v : Option ε) : ι → κ → Option ε :=
  fun x m => if x = d ∧ m = n then v else g x m

section
variable {g g' : ι → κ → Option ε} {child : ε → Option ι} {r d : ι} {p q : List κ} {n m : κ}
  {v : Option ε}

@[simp] theorem walk_nil : walk g child r [] = some r := rfl

theorem walk_append (p q : List κ) :
    walk g child r (p ++ q) = (walk g child r p).bind fun d => walk g child d q := by
  induction p generalizing r with
  | nil => rfl
  | cons n p ih =>
    rw [List.cons_append, walk, walk]
    cases (g r n).bind child with
    | none => rfl
    | some c => exact ih

theorem walk_concat (p : List κ) (n : κ) :
    walk g child r (p ++ [n]) = (walk g child r p).bind fun d => (g d n).bind child := by
  rw [walk_append]
  congr 1
  funext d
  rw [walk]
  exact Option.bind_fun_some _

@[simp] theorem under_nil : under g child r [] = none := rfl

theorem under_concat (p : List κ) (n : κ) :
    under g child r (p ++ [n]) = (walk g child r p).bind fun d => g d n := by
  unfold under
  rw [List.getLast?_concat, List.dropLast_concat, Option.bind_some]

/-- What is walked to is where the entry leads. -/
theorem walk_eq_under (p : List κ) (n : κ) :
    walk g child r (p ++ [n]) = (under g child r (p ++ [n])).bind child := by
  rw [walk_concat, under_concat, Option.bind_assoc]

/-- Only what leads on has something under it. -/
theorem under_eq_none_of_walk (h : walk g child r p = none) (q : List κ) :
    under g child r (p ++ q ++ [n]) = none := by
  rw [under_concat, walk_append, h]
  rfl

/-- A place without entries leads nowhere. -/
theorem walk_of_empty (hempty : ∀ m, g r m = none) {l : List κ} (hl : l ≠ []) :
    walk g child r l = none := by
  obtain ⟨m, l, rfl⟩ := List.exists_cons_of_ne_nil hl
  rw [walk, hempty]
  rfl

/-- A new place without entries is apart. -/
theorem apart_of_empty {c : ι} (hc : ∀ q, walk g child r q ≠ some c) (hempty : ∀ m, g c m = none) :
    ∀ q l x, walk g child r q = some x → walk g child c l ≠ some x := by
  intro q l x hx hl
  by_cases hnil : l = []
  · rw [hnil] at hl
    obtain rfl := Option.some.inj hl
    exact hc q hx
  · rw [walk_of_empty hempty hnil] at hl
    cases hl

/-- Walks depend on where entries lead only. -/
theorem walk_congr (h : ∀ x m, (g' x m).bind child = (g x m).bind child) :
    ∀ (l : List κ) (r : ι), walk g' child r l = walk g child r l := by
  intro l
  induction l with
  | nil => exact fun _ => rfl
  | cons n l ih =>
    intro r
    rw [walk, walk, h]
    congr 1
    funext c
    exact ih c

end

section Relabel
variable [DecidableEq ι] [DecidableEq κ] {g : ι → κ → Option ε} {child : ε → Option ι} {r d c : ι}
  {p q : List κ} {n m : κ} {v : Option ε}

theorem relabel_self : relabel g d n v d n = v := if_pos ⟨rfl, rfl⟩

theorem relabel_of_ne {x : ι} (h : ¬ (x = d ∧ m = n)) : relabel g d n v x m = g x m := if_neg h

variable (hg : Unshared g child r) (hp : walk g child r p = some d)
include hg hp

/-- **Walks that do not go through the entry stay as they are.** -/
theorem walk_relabel_elsewhere : ∀ {q : List κ}, ¬ (p ++ [n]) <+: q →
    walk (relabel g d n v) child r q = walk g child r q := by
  intro q
  induction q using List.reverseRecOn with
  | nil => exact fun _ => rfl
  | append_singleton q m ih =>
    intro h
    rw [walk_concat, walk_concat, ih fun hpre => h (hpre.trans (List.prefix_append q [m]))]
    cases hx : walk g child r q with
    | none => rfl
    | some x =>
      rw [Option.bind_some, Option.bind_some, relabel_of_ne]
      -- the place is reached along `p` only
      rintro ⟨rfl, rfl⟩
      rw [hg p q x hp hx] at h
      exact h (List.prefix_refl _)

/-- The place itself is reached as before. -/
theorem walk_relabel_self : walk (relabel g d n v) child r p = some d := by
  rw [walk_relabel_elsewhere hg hp, hp]
  intro h
  have hlen := h.length_le
  rw [List.length_append, List.length_singleton] at hlen
  omega

theorem under_relabel_self : under (relabel g d n v) child r (p ++ [n]) = v := by
  rw [under_concat, walk_relabel_self hg hp, Option.bind_some, relabel_self]

/-- **What is under other lists of names stays as it is.** -/
theorem under_relabel_elsewhere (h : ¬ (p ++ [n]) <+: q) :
    under (relabel g d n v) child r q = under g child r q := by
  induction q using List.reverseRecOn with
  | nil => rfl
  | append_singleton q m =>
    rw [under_concat, under_concat, walk_relabel_elsewhere hg hp fun hpre =>
      h (hpre.trans (List.prefix_append q [m]))]
    cases hx : walk g child r q with
    | none => rfl
    | some x =>
      rw [Option.bind_some, Option.bind_some, relabel_of_ne]
      rintro ⟨rfl, rfl⟩
      rw [hg p q x hp hx] at h
      exact h (List.prefix_refl _)

/-- The walk through the entry. -/
theorem walk_relabel_through (l : List κ) : walk (relabel g d n v) child r (p ++ [n] ++ l) =
    (v.bind child).bind fun c => walk (relabel g d n v) child c l := by
  rw [walk_append, walk_concat, walk_relabel_self hg hp, Option.bind_some, relabel_self]

/-- **Under an entry that leads nowhere there is nothing.** -/
theorem under_relabel_dead (hv : v.bind child = none) (q : List κ) :
    under (relabel g d n v) child r q =
      if q = p ++ [n] then v else if (p ++ [n]) <+: q then none else under g child r q := by
  by_cases heq : q = p ++ [n]
  · rw [if_pos heq, heq, under_relabel_self hg hp]
  · rw [if_neg heq]
    by_cases hpre : (p ++ [n]) <+: q
    · rw [if_pos hpre]
      obtain ⟨l, rfl⟩ := hpre
      rcases List.eq_nil_or_concat l with rfl | ⟨l, m, rfl⟩
      · exact absurd (List.append_nil _) heq
      · rw [List.concat_eq_append, ← List.append_assoc]
        refine under_eq_none_of_walk ?_ l
        rw [walk_concat, walk_relabel_self hg hp, Option.bind_some, relabel_self, hv]
    · rw [if_neg hpre, under_relabel_elsewhere hg hp hpre]

/-- An entry that leads nowhere makes no place shared. -/
theorem Unshared.relabel_dead (hv : v.bind child = none) :
    Unshared (relabel g d n v) child r := by
  have hwalk : ∀ q x, walk (relabel g d n v) child r q = some x → walk g child r q = some x := by
    intro q x hx
    by_cases hpre : (p ++ [n]) <+: q
    · obtain ⟨l, rfl⟩ := hpre
      rw [walk_relabel_through hg hp, hv] at hx
      cases hx
    · rwa [walk_relabel_elsewhere hg hp hpre] at hx
  exact fun q q' x hx hx' => hg q q' x (hwalk q x hx) (hwalk q' x hx')

omit hg hp in
/-- An entry that leads where the old one did leaves all walks. -/
theorem walk_relabel_same (hv : v.bind child = (g d n).bind child) (l : List κ) (r : ι) :
    walk (relabel g d n v) child r l = walk g child r l := by
  refine walk_congr (fun x m => ?_) l r
  by_cases h : x = d ∧ m = n
  · obtain ⟨rfl, rfl⟩ := h
    rw [relabel_self, hv]
  · rw [relabel_of_ne h]

/-- **With an entry that leads where the old one did, nothing else changes.** -/
theorem under_relabel_same (hv : v.bind child = (g d n).bind child) (q : List κ) :
    under (relabel g d n v) child r q = if q = p ++ [n] then v else under g child r q := by
  by_cases heq : q = p ++ [n]
  · rw [if_pos heq, heq, under_relabel_self hg hp]
  · rw [if_neg heq]
    induction q using List.reverseRecOn with
    | nil => rfl
    | append_singleton q m =>
      rw [under_concat, under_concat, walk_relabel_same hv]
      cases hx : walk g child r q with
      | none => rfl
      | some x =>
        rw [Option.bind_some, Option.bind_some, relabel_of_ne]
        rintro ⟨rfl, rfl⟩
        exact heq (by rw [hg p q x hp hx])

omit hp in
theorem Unshared.relabel_same (hv : v.bind child = (g d n).bind child) :
    Unshared (relabel g d n v) child r := by
  intro q q' x hx hx'
  rw [walk_relabel_same hv] at hx hx'
  exact hg q q' x hx hx'

omit hg hp in
/-- Walks that do not come by stay as they are. -/
theorem walk_relabel_apart (h : ∀ l, walk g child c l ≠ some d) (l : List κ) :
    walk (relabel g d n v) child c l = walk g child c l := by
  induction l using List.reverseRecOn with
  | nil => rfl
  | append_singleton l m ih =>
    rw [walk_concat, walk_concat, ih]
    cases hx : walk g child c l with
    | none => rfl
    | some x =>
      rw [Option.bind_some, Option.bind_some, relabel_of_ne]
      rintro ⟨rfl, rfl⟩
      exact h l hx

omit hg hp in
theorem under_relabel_apart (h : ∀ l, walk g child c l ≠ some d) (l : List κ) :
    under (relabel g d n v) child c l = under g child c l := by
  induction l using List.reverseRecOn with
  | nil => rfl
  | append_singleton l m =>
    rw [under_concat, under_concat, walk_relabel_apart h]
    cases hx : walk g child c l with
    | none => rfl
    | some x =>
      rw [Option.bind_some, Option.bind_some, relabel_of_ne]
      rintro ⟨rfl, rfl⟩
      exact h l hx

section Graft
variable (hv : v.bind child = some c)
  (hapart : ∀ q l x, walk g child r q = some x → walk g child c l ≠ some x)
include hv hapart

/-- **Behind an entry that leads to another place there is what is behind that place.** -/
theorem walk_relabel_graft (l : List κ) :
    walk (relabel g d n v) child r (p ++ [n] ++ l) = walk g child c l := by
  rw [walk_relabel_through hg hp, hv, Option.bind_some, walk_relabel_apart fun l => hapart p l d hp]

theorem under_relabel_graft (l : List κ) (hl : l ≠ []) :
    under (relabel g d n v) child r (p ++ [n] ++ l) = under g child c l := by
  rcases List.eq_nil_or_concat l with rfl | ⟨l, m, rfl⟩
  · exact absurd rfl hl
  · rw [← under_relabel_apart (fun l => hapart p l d hp), List.concat_eq_append, ← List.append_assoc,
      under_concat, under_concat, walk_relabel_through hg hp, hv]
    rfl

/-- **No place is shared if none was on either side.** -/
theorem Unshared.relabel_graft (hc : Unshared g child c) :
    Unshared (relabel g d n v) child r := by
  -- a walk goes through the entry or not, and that decides on which side it ends
  have hside : ∀ q x, walk (relabel g d n v) child r q = some x →
      (∃ l, q = p ++ [n] ++ l ∧ walk g child c l = some x) ∨ walk g child r q = some x := by
    intro q x hx
    by_cases hpre : (p ++ [n]) <+: q
    · obtain ⟨l, rfl⟩ := hpre
      rw [walk_relabel_graft hg hp hv hapart] at hx
      exact Or.inl ⟨l, rfl, hx⟩
    · rw [walk_relabel_elsewhere hg hp hpre] at hx
      exact Or.inr hx
  intro q q' x hx hx'
  rcases hside q x hx with ⟨l, rfl, hl⟩ | hq
  · rcases hside q' x hx' with ⟨l', rfl, hl'⟩ | hq'
    · rw [hc l l' x hl hl']
    · exact absurd hl (hapart q' l x hq')
  · rcases hside q' x hx' with ⟨l', rfl, hl'⟩ | hq'
    · exact absurd hl' (hapart q l' x hq)
    · exact hg q q' x hq hq'

end Graft

section Fresh
variable (hv : v.bind child = some c) (hc : ∀ q, walk g child r q ≠ some c)
  (hempty : ∀ m, g c m = none)
include hg hp hv hc hempty

/-- **With an entry that leads to a new place, nothing else changes** where there was no other
place. -/
theorem under_relabel_fresh (hold : (g d n).bind child = none) (q : List κ) :
    under (relabel g d n v) child r q = if q = p ++ [n] then v else under g child r q := by
  by_cases heq : q = p ++ [n]
  · rw [if_pos heq, heq, under_relabel_self hg hp]
  · rw [if_neg heq]
    by_cases hpre : (p ++ [n]) <+: q
    · obtain ⟨l, rfl⟩ := hpre
      have hl : l ≠ [] := by
        rintro rfl
        exact heq (List.append_nil _)
      rw [under_relabel_graft hg hp hv (apart_of_empty hc hempty) l hl]
      rcases List.eq_nil_or_concat l with rfl | ⟨l, m, rfl⟩
      · exact absurd rfl hl
      · rw [List.concat_eq_append, ← List.append_assoc, under_eq_none_of_walk, under_concat]
        · by_cases hnil : l = []
          · rw [hnil]
            exact hempty m
          · rw [walk_of_empty hempty hnil]
            rfl
        · rw [walk_concat, hp]
          exact hold
    · rw [under_relabel_elsewhere hg hp hpre]

theorem Unshared.relabel_fresh : Unshared (relabel g d n v) child r := by
  refine Unshared.relabel_graft hg hp hv (apart_of_empty hc hempty) fun l l' x hl hl' => ?_
  by_cases hnil : l = []
  · by_cases hnil' : l' = []
    · rw [hnil, hnil']
    · rw [walk_of_empty hempty hnil'] at hl'
      cases hl'
  · rw [walk_of_empty hempty hnil] at hl
    cases hl

end Fresh

end Relabel

end Walks
