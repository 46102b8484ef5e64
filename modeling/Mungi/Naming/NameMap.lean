import Mungi.Naming.NameHash

/-!
# Mounted names

`nm_find_trees` looks for the trees that a path is in: it takes the absolute name and shortens it at
its end until there is an entry for it in the name hash.  From a name at the root it goes on with
the root, and from the root with the empty string, which `nh_find` takes for the current directory.

## Main definitions

* `nmFindTrees` — the function of `namemap.c`.
* `NmMeant` — what it is meant to find.

## Main results

* `nmFindTrees_outcome` — what it finds.
* `nmFindTrees_iff` — **it finds what it is meant to if and only if a mounted name is a prefix of
  the path or the current directory is not mounted.**
-/

namespace Mungi.Naming

open Paths Runs

/-! ### The code -/

/-- `strrchr(path, SLASH)`, as a position. -/
def lastSlash (path : List Char) : Option ℕ :=
  if slash ∈ path then some (path.length - 1 - path.reverse.idxOf slash) else none

/-- The name is shortened by one item; none when there is nothing left to check. -/
def shorten (path : List Char) : Option (List Char) :=
  (lastSlash path).map fun ch =>
    if ch = 0 then
      -- the leading slash stays, unless it is all there is
      if path.length = 1 then path.take ch else path.take (ch + 1)
    else path.take ch

/-- What `nm_find_trees` returns: `NM_OK`, `NM_FAIL` or `NM_MEM`, which are as those of the name
hash, and the trees with the relative name. -/
abbrev NmAnswer := NhCode × Option (ℕ × List Char)

/-- The loop of `nm_find_trees`. -/
def nmFindLoop (fuel : ℕ) (map : NameHash) (absolute cwd : List Char) :
    ℕ → List Char → Option NmAnswer
  | 0, _ => none
  | n + 1, path =>
    (nhFind fuel map path cwd).bind fun r =>
      match r with
      | (.mem, _) => some (.mem, none)
      | (.ok, tree) => some (.ok, tree.map fun tree => (tree, absolute.drop path.length))
      | (.fail, _) =>
        match shorten path with
        | none => some (.fail, none)
        | some path => nmFindLoop fuel map absolute cwd n path

/-- `nm_find_trees`.  Every turn shortens the path. -/
def nmFindTrees (fuel : ℕ) (map : NameHash) (orgPath cwd : List Char) : Option NmAnswer :=
  (nhAbsolute orgPath cwd).bind fun absolute =>
    nmFindLoop fuel map absolute.name cwd (absolute.name.length + 2) absolute.name

/-! ### What it is meant to find -/

/-- **The trees of the longest mounted name that is a prefix of the components**, with the rest of
the path after it, and a failure when there is none. -/
def NmMeant (m : NameMap) (cs : List (List Char)) (r : NmAnswer) : Prop :=
  (∀ p t, p <+: cs → m (render slash p) = some t →
    (∀ q, q <+: cs → m (render slash q) ≠ none → q.length ≤ p.length) →
      r = (.ok, some (t, (render slash cs).drop (render slash p).length))) ∧
  ((∀ p, p <+: cs → m (render slash p) = none) → r.1 = .fail)

/-! ### Shortening -/

theorem lastSlash_append {s c : List Char} (hc : slash ∉ c) :
    lastSlash (s ++ slash :: c) = some s.length := by
  unfold lastSlash
  rw [if_pos (by simp), List.reverse_append, List.reverse_cons, List.append_assoc,
    List.idxOf_append_of_notMem (by simpa using hc)]
  simp

/-- A name is shortened by its last component. -/
theorem shorten_render {p : List (List Char)} {c : List Char} (hp : ∀ d ∈ p, Plain d)
    (hc : Plain c) : shorten (render slash (p ++ [c])) = some (render slash p) := by
  obtain ⟨hne, hslash, -⟩ := hc
  have hlen : c.length ≠ 0 := fun h => hne (List.length_eq_zero_iff.mp h)
  unfold shorten
  by_cases hnil : p = []
  · subst hnil
    have hlast : lastSlash (render slash ([] ++ [c])) = some 0 := lastSlash_append (s := []) hslash
    rw [hlast, Option.map_some, if_pos rfl, if_neg]
    · rfl
    · simpa [render, join] using hne
  · have hrender : render slash (p ++ [c]) = render slash p ++ slash :: c := by
      unfold render
      rw [join_concat, if_pos hnil]
      simp
    rw [hrender, lastSlash_append hslash, Option.map_some, if_neg, List.take_left]
    exact Nat.succ_ne_zero _

/-! ### The loop -/

variable {fuel : ℕ} {nh : NameHash} {l : ℕ → List ℕ} {m : NameMap} {absolute cwd : List Char}

/-- `nh_find` looks the absolute name up. -/
theorem nhFind_eq (h : nh.Holds l m) (hfuel : ∀ b, (l b).length < fuel) (name cwd : List Char) :
    nhFind fuel nh name cwd = some (match m (absoluteName name cwd) with
      | some v => (.ok, some v)
      | none => (.fail, none)) := by
  obtain ⟨r, nh', -, hcall, hr, -⟩ := nhCall_holds (c := ⟨.find, name, cwd⟩) h hfuel nofun
  obtain ⟨a, ha, heq⟩ := Option.map_eq_some_iff.mp hcall
  obtain ⟨rfl, -⟩ := Prod.mk.inj heq
  rw [ha, hr]
  simp only [NameMap.call]
  cases m (absoluteName name cwd) <;> rfl

/-- What the loop does with a name that has no entry, and with one that has. -/
theorem nmFindLoop_succ (h : nh.Holds l m) (hfuel : ∀ b, (l b).length < fuel) (n : ℕ)
    (path : List Char) : nmFindLoop fuel nh absolute cwd (n + 1) path =
      match m (absoluteName path cwd) with
      | some t => some (.ok, some (t, absolute.drop path.length))
      | none =>
        match shorten path with
        | none => some (.fail, none)
        | some path => nmFindLoop fuel nh absolute cwd n path := by
  rw [nmFindLoop, nhFind_eq h hfuel]
  cases m (absoluteName path cwd) <;> rfl

/-- What the loop finds, from components on: the longest prefix with an entry, or, where there is
none, what there is for the current directory. -/
theorem nmFindLoop_outcome (h : nh.Holds l m) (hfuel : ∀ b, (l b).length < fuel)
    (p : List (List Char)) : (∀ c ∈ p, Plain c) → ∀ n, p.length + 2 ≤ n →
      (∃ q t, q <+: p ∧ m (render slash q) = some t ∧
        (∀ q', q' <+: p → m (render slash q') ≠ none → q'.length ≤ q.length) ∧
          nmFindLoop fuel nh absolute cwd n (render slash p) =
            some (.ok, some (t, absolute.drop (render slash q).length))) ∨
      ((∀ q, q <+: p → m (render slash q) = none) ∧
        nmFindLoop fuel nh absolute cwd n (render slash p) =
          some (match m (absoluteName [] cwd) with
            | some t => (.ok, some (t, absolute))
            | none => (.fail, none))) := by
  -- the name gets shorter at its end
  induction p using List.reverseRecOn with
  | nil =>
    intro _ n hn
    obtain ⟨n, rfl⟩ : ∃ k, n = k + 2 := ⟨n - 2, by simp at hn; omega⟩
    have hroot : absoluteName (render slash []) cwd = render slash [] :=
      (canonical_render fun _ hc => absurd hc List.not_mem_nil).absoluteName_eq cwd
    rw [nmFindLoop_succ h hfuel, hroot]
    cases hm : m (render slash []) with
    | some t =>
      left
      refine ⟨[], t, List.prefix_rfl, hm, fun q' hq' _ => ?_, rfl⟩
      rw [List.prefix_nil.mp hq']
    | none =>
      right
      refine ⟨fun q hq => List.prefix_nil.mp hq ▸ hm, ?_⟩
      change nmFindLoop fuel nh absolute cwd (n + 1) [] = _
      rw [nmFindLoop_succ h hfuel]
      cases m (absoluteName [] cwd) <;> rfl
  | append_singleton p c ih =>
    intro hplain n hn
    rw [List.length_append, List.length_singleton] at hn
    obtain ⟨n, rfl⟩ : ∃ k, n = k + 1 := ⟨n - 1, by omega⟩
    have hp : ∀ d ∈ p, Plain d := fun d hd => hplain d (List.mem_append_left [c] hd)
    have hself : absoluteName (render slash (p ++ [c])) cwd = render slash (p ++ [c]) :=
      (canonical_render hplain).absoluteName_eq cwd
    rw [nmFindLoop_succ h hfuel, hself]
    cases hm : m (render slash (p ++ [c])) with
    | some t =>
      left
      exact ⟨p ++ [c], t, List.prefix_rfl, hm, fun q' hq' _ => hq'.length_le, rfl⟩
    | none =>
      rw [shorten_render hp (hplain c (by simp))]
      rcases ih hp n (by omega) with ⟨q, t, hq, hqm, hmax, hloop⟩ | ⟨hnone, hloop⟩
      · left
        refine ⟨q, t, hq.trans (List.prefix_append p [c]), hqm, fun q' hq' hq'm => ?_, hloop⟩
        rcases List.prefix_concat_iff.mp hq' with rfl | hq'
        · exact absurd hm hq'm
        · exact hmax q' hq' hq'm
      · right
        refine ⟨fun q hq => ?_, hloop⟩
        rcases List.prefix_concat_iff.mp hq with rfl | hq
        · exact hm
        · exact hnone q hq

/-- **What `nm_find_trees` finds**: the longest mounted prefix of the path, or, where there is none,
what there is for the current directory. -/
theorem nmFindTrees_outcome (h : nh.Holds l m) (hfuel : ∀ b, (l b).length < fuel)
    (path cwd : List Char) :
    (∃ q t, q <+: absoluteComponents path cwd ∧ m (render slash q) = some t ∧
      (∀ q', q' <+: absoluteComponents path cwd → m (render slash q') ≠ none →
        q'.length ≤ q.length) ∧
        nmFindTrees fuel nh path cwd =
          some (.ok, some (t, (absoluteName path cwd).drop (render slash q).length))) ∨
    ((∀ q, q <+: absoluteComponents path cwd → m (render slash q) = none) ∧
      nmFindTrees fuel nh path cwd = some (match m (absoluteName [] cwd) with
        | some t => (.ok, some (t, absoluteName path cwd))
        | none => (.fail, none))) := by
  obtain ⟨a, ha, hname, -, -⟩ := nhAbsolute_eq path cwd
  have hlen : (absoluteComponents path cwd).length + 2 ≤ (absoluteName path cwd).length + 2 := by
    change _ ≤ (join slash (absoluteComponents path cwd)).length + 1 + 2
    rw [length_join]
    omega
  have hfind : nmFindTrees fuel nh path cwd = nmFindLoop fuel nh (absoluteName path cwd) cwd
      ((absoluteName path cwd).length + 2) (render slash (absoluteComponents path cwd)) := by
    unfold nmFindTrees
    rw [ha, Option.bind_some, hname]
    rfl
  rw [hfind]
  exact nmFindLoop_outcome h hfuel _ (fun c hc => plain_of_mem_absoluteComponents hc) _ hlen

/-- **`nm_find_trees` finds what it is meant to if and only if a mounted name is a prefix of the
path or the current directory is not mounted.** -/
theorem nmFindTrees_meant_iff (h : nh.Holds l m) (hfuel : ∀ b, (l b).length < fuel)
    (path cwd : List Char) : ∃ r, nmFindTrees fuel nh path cwd = some r ∧
      (NmMeant m (absoluteComponents path cwd) r ↔
        (∃ p, p <+: absoluteComponents path cwd ∧ m (render slash p) ≠ none) ∨
          m (absoluteName [] cwd) = none) := by
  rcases nmFindTrees_outcome h hfuel path cwd with ⟨q, t, hq, hqm, hmax, hfind⟩ | ⟨hnone, hfind⟩
  · have hmounted : m (render slash q) ≠ none := by
      rw [hqm]
      exact Option.some_ne_none t
    refine ⟨_, hfind, iff_of_true ⟨fun p t' hp hpm hpmax => ?_, fun hnone => ?_⟩ ?_⟩
    · have hlen : p.length = q.length := by
        refine le_antisymm (hmax p hp ?_) (hpmax q hq hmounted)
        rw [hpm]
        exact Option.some_ne_none t'
      obtain rfl : p = q := (List.prefix_of_prefix_length_le hp hq hlen.le).eq_of_length hlen
      obtain rfl : t = t' := Option.some.inj (hqm.symm.trans hpm)
      rfl
    · exact absurd (hnone q hq) hmounted
    · exact Or.inl ⟨q, hq, hmounted⟩
  · refine ⟨_, hfind, ?_⟩
    have hno : ¬ ∃ p, p <+: absoluteComponents path cwd ∧ m (render slash p) ≠ none := by
      rintro ⟨p, hp, hpm⟩
      exact hpm (hnone p hp)
    cases hcwd : m (absoluteName [] cwd) with
    | none =>
      refine iff_of_true ⟨fun p t hp hpm _ => ?_, fun _ => rfl⟩ (Or.inr rfl)
      rw [hnone p hp] at hpm
      cases hpm
    | some t =>
      refine iff_of_false ?_ ?_
      · rintro ⟨-, hfail⟩
        cases hfail hnone
      · rintro (hsome | hnone)
        · exact hno hsome
        · cases hnone

/-- **The same after any calls of the name hash.** -/
theorem nmFindTrees_iff {entries : ℕ} (hentries : 0 < entries) (ents : Heap HashEnt)
    (calls : List NhCall) {fuel : ℕ} (hfuel : calls.length < fuel)
    (hsupply : Along (nhStep fuel) Supplied (nhInit entries ents) calls) (path cwd : List Char) :
    ∃ nh r, run (nhStep fuel) (nhInit entries ents) calls = some nh ∧
      nmFindTrees fuel nh path cwd = some r ∧
        (NmMeant (NameMap.after (fun _ => none) calls) (absoluteComponents path cwd) r ↔
          (∃ p, p <+: absoluteComponents path cwd ∧
            NameMap.after (fun _ => none) calls (render slash p) ≠ none) ∨
              NameMap.after (fun _ => none) calls (absoluteName [] cwd) = none) := by
  obtain ⟨nh, l, hrun, hholds, hlen⟩ := nhRun_holds hentries calls hfuel hsupply
  obtain ⟨r, hfind, hiff⟩ :=
    nmFindTrees_meant_iff hholds (fun b => (hlen b).trans_lt hfuel) path cwd
  exact ⟨nh, r, hrun, hfind, hiff⟩

/-- Something is mounted on "/a". -/
def mountCall : NhCall := ⟨.insert 5 1, ['/', 'a'], []⟩

theorem nmFindTrees_iff_mount : ∃ nh r,
    run (nhStep 2) (nhInit 100 emptyEnts) [mountCall] = some nh ∧
      nmFindTrees 2 nh ['b'] ['/', 'a'] = some r ∧
        (NmMeant (NameMap.after (fun _ => none) [mountCall])
            (absoluteComponents ['b'] ['/', 'a']) r ↔
          (∃ p, p <+: absoluteComponents ['b'] ['/', 'a'] ∧
            NameMap.after (fun _ => none) [mountCall] (render slash p) ≠ none) ∨
              NameMap.after (fun _ => none) [mountCall] (absoluteName [] ['/', 'a']) = none) :=
  nmFindTrees_iff (by decide) emptyEnts [mountCall] (by decide) (by decide +kernel) ['b'] ['/', 'a']

/-- **A path in no mounted tree**: it is found in the tree of the current directory. -/
theorem nmFindTrees_not_meant : ∃ nh r,
    run (nhStep 2) (nhInit 100 emptyEnts) [mountCall] = some nh ∧
      nmFindTrees 2 nh ['/', 'b'] ['/', 'a'] = some r ∧
        ¬ NmMeant (NameMap.after (fun _ => none) [mountCall])
          (absoluteComponents ['/', 'b'] ['/', 'a']) r := by
  have hrun : ((run (nhStep 2) (nhInit 100 emptyEnts) [mountCall]).bind fun nh =>
      nmFindTrees 2 nh ['/', 'b'] ['/', 'a']) = some (.ok, some (5, ['/', 'b'])) := by
    decide +kernel
  obtain ⟨nh, hnh, hfind⟩ := Option.bind_eq_some_iff.mp hrun
  refine ⟨nh, _, hnh, hfind, fun hmeant => ?_⟩
  have hfail := hmeant.2 fun p hp => ?_
  · cases hfail
  · rcases List.prefix_concat_iff.mp (show p <+: [] ++ [['b']] from hp) with rfl | hp
    · decide +kernel
    · rw [List.prefix_nil.mp hp]
      decide +kernel

end Mungi.Naming
