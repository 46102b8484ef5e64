import Mathlib.Data.List.TakeWhile
import Mungi.Lib.Paths
import Mungi.Lib.Walks
import Mungi.Naming.Directory

/-!
# The tree of directories

A name space is a tree of directories, each in memory of its own; the entry of a directory has the
address of its tree.  A path is looked up from left to right.  What is between two slashes has to be
the name of a directory; what is behind the last slash is looked up, too, where an entry is asked
for, and left to the caller where its parent is.  Nothing behind the last slash stands for the
directory itself.

## Main definitions

* `NsSpace` — directories in memory.
* `nsFindR` — `ns_find_r`.
* `pathDirs`, `pathBase` — what is in front of the last slash of a path, and what is behind it.
* `NsSpace.entry` — the entries of the directories, under their names.
* `NsOk` — the name spaces that there are.

## Main results

* `nsFindR_parent`, `nsFindR_item` — **a path is a walk along its names.**
-/

namespace Mungi.Naming

open Paths Walks

/-! ### The code -/

/-- `SLASH` -/
def slashByte : BitVec 8 := 0x2f#8

/-- Where `nsentflag_t` has its fields: the bit of `dat.treedat.dir`, and the bits of
`dat.userdat`. -/
structure FlagLayout where
  dirBit : Fin 64
  user : BitVec 64
  apart : user.getLsbD dirBit = false

/-- The layout where the first field has the lowest bits. -/
def FlagLayout.little : FlagLayout := ⟨0, 0xffffffff00000000#64, by decide⟩

/-- The layout where it has the highest. -/
def FlagLayout.big : FlagLayout := ⟨63, 0x00000000ffffffff#64, by decide⟩

/-- `flags.dat.treedat.dir` -/
def FlagLayout.isDir (L : FlagLayout) (flags : BitVec 64) : Bool := flags.getLsbD L.dirBit

/-- `flags.dat.treedat.dir = b` -/
def FlagLayout.setDir (L : FlagLayout) (flags : BitVec 64) (b : Bool) : BitVec 64 :=
  if b then flags ||| BitVec.twoPow 64 L.dirBit else flags &&& ~~~BitVec.twoPow 64 L.dirBit

/-- `flags.dat.userdat = new.dat.userdat` -/
def FlagLayout.setUser (L : FlagLayout) (flags new : BitVec 64) : BitVec 64 :=
  (flags &&& ~~~L.user) ||| (new &&& L.user)

/-- The trees of directories by their addresses, and the address of the root directory's. -/
structure NsSpace where
  dirs : ℕ → Option (NsTree ItemChain)
  root : ℕ

/-- What is assigned to a tree. -/
def NsSpace.setDir (s : NsSpace) (d : ℕ) (t : Option (NsTree ItemChain)) : NsSpace :=
  { s with dirs := Function.update s.dirs d t }

/-- Why there is nothing to go on with: `FIND_NOTFOUND`, or an assertion that fails. -/
inductive NsStop where
  | notFound
  | abort

/-- `ITYPE_ITEM` and `ITYPE_PARENT`. -/
inductive NsType where
  | item
  | parent
  deriving DecidableEq

/-- What `ns_find_r` leaves: `*tree`, `*data` with the directory that it is in, and `*path_name`. -/
structure NsWalk where
  tree : Option ℕ
  data : Option (ℕ × NsFound)
  rest : List (BitVec 8)

section Code
variable (L : FlagLayout) (s : NsSpace)

/-- The last turn of the loop of `ns_find_r`, where no slash is left. -/
def nsFindEnd (type : NsType) (tree : ℕ) (data : Option (ℕ × NsFound)) (cur : List (BitVec 8)) :
    Except NsStop NsWalk :=
  if type = .parent ∨ cur = [] then .ok ⟨some tree, data, cur⟩
  else
    match s.dirs tree with
    | none => .error .abort
    | some t =>
      match nsFindItem t cur with
      | none => .error .notFound
      | some f => .ok ⟨f.ent.child, some (tree, f), cur⟩

/-- The loop of `ns_find_r`; there are no more turns than slashes. -/
def nsFindLoop (type : NsType) : ℕ → ℕ → Option (ℕ × NsFound) → List (BitVec 8) →
    Except NsStop NsWalk
  | 0, _, _, _ => .error .abort
  | fuel + 1, tree, data, cur =>
    let cur := cur.dropWhile (· = slashByte)
    let name := cur.takeWhile (· ≠ slashByte)
    if slashByte ∉ cur then nsFindEnd s type tree data cur
    else
      match s.dirs tree with
      | none => .error .abort
      | some t =>
        match nsFindItem t name with
        | none => .error .notFound
        | some f =>
          if L.isDir f.ent.flags = false then .error .notFound
          else
            match f.ent.child with
            | none => .error .abort
            | some child => nsFindLoop type fuel child (some (tree, f)) (cur.drop (name.length + 1))

/-- `ns_find_r`, called by `ns_findparent` and by `ns_find`, when there is memory for the copy of the
path or there is not. -/
def nsFindR (type : NsType) (copied : Bool) (path : List (BitVec 8)) : Except NsStop NsWalk :=
  if copied = false then .error .notFound
  else nsFindLoop L s type (path.length + 1) s.root none path

end Code

/-! ### Flags -/

theorem FlagLayout.isDir_setDir (L : FlagLayout) (flags : BitVec 64) (b : Bool) :
    L.isDir (L.setDir flags b) = b := by
  unfold isDir setDir
  cases b <;> simp

theorem FlagLayout.isDir_setUser (L : FlagLayout) (flags new : BitVec 64) :
    L.isDir (L.setUser flags new) = L.isDir flags := by
  unfold isDir setUser
  rw [BitVec.getLsbD_or, BitVec.getLsbD_and, BitVec.getLsbD_and, BitVec.getLsbD_not, L.apart]
  simp

/-- The bit is what it was. -/
theorem FlagLayout.setDir_isDir (L : FlagLayout) (flags : BitVec 64) :
    L.setDir flags (L.isDir flags) = flags := by
  unfold isDir setDir
  cases hbit : flags.getLsbD L.dirBit with
  | true =>
    rw [if_pos rfl]
    refine BitVec.eq_of_getLsbD_eq fun i hi => ?_
    rw [BitVec.getLsbD_or, BitVec.getLsbD_twoPow]
    by_cases heq : (L.dirBit : ℕ) = i
    · rw [← heq, hbit, Bool.true_or]
    · simp [heq]
  | false =>
    rw [if_neg (by simp)]
    refine BitVec.eq_of_getLsbD_eq fun i hi => ?_
    rw [BitVec.getLsbD_and, BitVec.getLsbD_not, BitVec.getLsbD_twoPow]
    by_cases heq : (L.dirBit : ℕ) = i
    · rw [← heq, hbit, Bool.false_and]
    · simp [heq, hi]

/-! ### Paths -/

/-- The names in front of the last slash of a path. -/
def pathDirs (path : List (BitVec 8)) : List (List (BitVec 8)) :=
  (pieces slashByte path).dropLast.filter (· ≠ [])

/-- What is behind the last slash. -/
def pathBase (path : List (BitVec 8)) : List (BitVec 8) :=
  (pieces slashByte path).getLast (pieces_ne_nil path)

section Split
variable {s name : List (BitVec 8)}

theorem pathDirs_slash (s : List (BitVec 8)) : pathDirs (slashByte :: s) = pathDirs s := by
  unfold pathDirs
  rw [pieces_sep, List.dropLast_cons_of_ne_nil (pieces_ne_nil s)]
  simp

theorem pathBase_slash (s : List (BitVec 8)) : pathBase (slashByte :: s) = pathBase s := by
  unfold pathBase
  simp only [pieces_sep]
  exact List.getLast_cons (pieces_ne_nil s)

/-- Slashes at the beginning are passed over. -/
theorem path_dropWhile (s : List (BitVec 8)) :
    pathDirs (s.dropWhile (· = slashByte)) = pathDirs s ∧
      pathBase (s.dropWhile (· = slashByte)) = pathBase s := by
  induction s with
  | nil => exact ⟨rfl, rfl⟩
  | cons a s ih =>
    rw [List.dropWhile_cons]
    by_cases ha : a = slashByte
    · rw [if_pos (by simpa using ha), ha, pathDirs_slash, pathBase_slash]
      exact ih
    · rw [if_neg (by simpa using ha)]
      exact ⟨rfl, rfl⟩

theorem path_of_not_mem (h : slashByte ∉ s) : pathDirs s = [] ∧ pathBase s = s := by
  unfold pathDirs pathBase
  simp only [pieces_of_not_mem h]
  exact ⟨rfl, rfl⟩

/-- A name with a slash behind it is the first one. -/
theorem path_append (h : slashByte ∉ name) (hne : name ≠ []) (s : List (BitVec 8)) :
    pathDirs (name ++ slashByte :: s) = name :: pathDirs s ∧
      pathBase (name ++ slashByte :: s) = pathBase s := by
  unfold pathDirs pathBase
  simp only [pieces_append, pieces_of_not_mem h, List.singleton_append]
  rw [List.dropLast_cons_of_ne_nil (pieces_ne_nil s), List.getLast_cons (pieces_ne_nil s)]
  exact ⟨by simp [hne], rfl⟩

/-- The components of a path are the names in front of the last slash and, if there is one, that
behind it. -/
theorem components_eq (path : List (BitVec 8)) : components slashByte path =
    if pathBase path = [] then pathDirs path else pathDirs path ++ [pathBase path] := by
  have hsplit : components slashByte path = pathDirs path ++ [pathBase path].filter (· ≠ []) :=
    calc components slashByte path
        = ((pieces slashByte path).dropLast ++ [pathBase path]).filter (· ≠ []) :=
          congrArg (List.filter _) (List.dropLast_append_getLast _).symm
      _ = _ := List.filter_append _ _
  rw [hsplit]
  by_cases h : pathBase path = []
  · simp [h]
  · simp [h]

theorem takeWhile_slash (h : slashByte ∈ s) : s = s.takeWhile (· ≠ slashByte) ++
    slashByte :: s.drop ((s.takeWhile (· ≠ slashByte)).length + 1) := by
  induction s with
  | nil => exact absurd h List.not_mem_nil
  | cons a s ih =>
    rw [List.takeWhile_cons]
    by_cases ha : a = slashByte
    · rw [if_neg (by simpa using ha), ha]
      rfl
    · rw [if_pos (by simpa using ha)]
      rcases List.mem_cons.mp h with h | h
      · exact absurd h.symm ha
      · exact congrArg (a :: ·) (ih h)

/-- Behind slashes that are passed over there is a name. -/
theorem takeWhile_ne_nil (h : slashByte ∈ s.dropWhile (· = slashByte)) :
    (s.dropWhile (· = slashByte)).takeWhile (· ≠ slashByte) ≠ [] := by
  induction s with
  | nil => exact absurd h List.not_mem_nil
  | cons a s ih =>
    rw [List.dropWhile_cons] at h ⊢
    by_cases ha : a = slashByte
    · rw [if_pos (by simpa using ha)] at h ⊢
      exact ih h
    · rw [if_neg (by simpa using ha), List.takeWhile_cons, if_pos (by simpa using ha)]
      exact List.cons_ne_nil _ _

theorem not_mem_takeWhile (s : List (BitVec 8)) : slashByte ∉ s.takeWhile (· ≠ slashByte) := by
  intro h
  have hne := List.mem_takeWhile_imp h
  simp at hne

end Split

/-! ### Entries under names -/

/-- **The entries of the directories, under their names.** -/
def NsSpace.entry (s : NsSpace) (d : ℕ) (n : List (BitVec 8)) : Option NsItem :=
  (s.dirs d).bind fun t => (t.bucket (hashpjw n)).find? fun e => e.name = n

theorem NsSpace.entry_eq {s : NsSpace} {d : ℕ} {t : NsTree ItemChain} (h : s.dirs d = some t)
    (n : List (BitVec 8)) :
    s.entry d n = (t.bucket (hashpjw n)).find? fun e => e.name = n := by
  unfold NsSpace.entry
  rw [h]
  rfl

/-- A directory whose entries have different names, and that knows which of them are directories. -/
structure NsDirOk (L : FlagLayout) (t : NsTree ItemChain) : Prop extends DirOk t where
  distinct : ∀ h, ((t.bucket h).map fun e => e.name).Nodup
  dir : ∀ h, ∀ e ∈ t.bucket h, L.isDir e.flags = e.child.isSome

/-- The place that names lead to. -/
def NsSpace.at (s : NsSpace) (p : List (List (BitVec 8))) : Option ℕ :=
  walk s.entry NsItem.child s.root p

/-- The entry that names lead to. -/
def NsSpace.under (s : NsSpace) (p : List (List (BitVec 8))) : Option NsItem :=
  Walks.under s.entry NsItem.child s.root p

/-- **The name spaces that there are**: all directories that are reached are in memory, and by one
list of names only. -/
structure NsOk (L : FlagLayout) (s : NsSpace) : Prop where
  dir : ∀ p d, s.at p = some d → ∃ t, s.dirs d = some t ∧ NsDirOk L t
  unshared : Unshared s.entry NsItem.child s.root

/-- What is found under a name is in the directory. -/
def NsSpace.FoundAt (s : NsSpace) (d : ℕ) (n : List (BitVec 8)) (f : NsFound) : Prop :=
  ∃ t, s.dirs d = some t ∧ chainFind n [] (t.bucket (hashpjw n)) = some f

theorem chainFind_ent {name : List (BitVec 8)} {l : List NsItem} (pre : List NsItem) :
    (chainFind name pre l).map NsFound.ent = l.find? fun e => e.name = name := by
  induction l generalizing pre with
  | nil => rfl
  | cons e l ih =>
    rw [chainFind, List.find?_cons]
    by_cases h : e.name = name
    · simp [h]
    · rw [if_neg h, ih]
      simp [h]

section Found
variable {L : FlagLayout} {s : NsSpace} {d : ℕ} {n : List (BitVec 8)} {f : NsFound}
  {t : NsTree ItemChain}

theorem NsSpace.FoundAt.entry (h : s.FoundAt d n f) : s.entry d n = some f.ent := by
  obtain ⟨t, ht, hfind⟩ := h
  rw [NsSpace.entry_eq ht, ← chainFind_ent [], hfind]
  rfl

/-- What is found is in the chain of its hash. -/
theorem NsSpace.FoundAt.mem (h : s.FoundAt d n f) (ht : s.dirs d = some t) :
    f.ent ∈ t.bucket (hashpjw n) := by
  obtain ⟨t', ht', hfind⟩ := h
  obtain rfl : t' = t := Option.some.inj (ht'.symm.trans ht)
  obtain ⟨l₁, -, hlist, -⟩ := chainFind_some hfind
  rw [hlist]
  simp

/-- A directory has a place to go on from. -/
theorem NsDirOk.child_iff (ht : NsDirOk L t) (hdir : s.dirs d = some t) (h : s.FoundAt d n f) :
    L.isDir f.ent.flags = f.ent.child.isSome := ht.dir _ _ (h.mem hdir)

/-- `ns_find_item` in a directory that is in memory. -/
theorem nsFindItem_cases (ht : DirOk t) (hdir : s.dirs d = some t) (n : List (BitVec 8)) :
    (nsFindItem t n = none ∧ s.entry d n = none) ∨
      ∃ f, nsFindItem t n = some f ∧ s.FoundAt d n f := by
  rw [nsFindItem_eq ht]
  cases hfind : chainFind n [] (t.bucket (hashpjw n)) with
  | none =>
    refine Or.inl ⟨rfl, ?_⟩
    rw [NsSpace.entry_eq hdir, ← chainFind_ent [], hfind]
    rfl
  | some f => exact Or.inr ⟨f, rfl, t, hdir, hfind⟩

end Found

/-! ### Looking paths up -/

section Find
variable {L : FlagLayout} {s : NsSpace} {type : NsType}

/-- **The loop of `ns_find_r` is a walk along the names in front of the last slash**, and ends with
what is behind it. -/
theorem nsFindLoop_eq (hs : NsOk L s) (type : NsType) :
    ∀ {fuel d : ℕ} {cur : List (BitVec 8)} {p : List (List (BitVec 8))} {data : Option (ℕ × NsFound)},
      cur.length < fuel → s.at p = some d →
      (s.at (p ++ pathDirs cur) = none ∧
          nsFindLoop L s type fuel d data cur = .error .notFound) ∨
        ∃ d' data', s.at (p ++ pathDirs cur) = some d' ∧
          nsFindLoop L s type fuel d data cur = nsFindEnd s type d' data' (pathBase cur) ∧
          (pathDirs cur = [] → data' = data) ∧
          ∀ q n, pathDirs cur = q ++ [n] →
            ∃ x f, s.at (p ++ q) = some x ∧ s.FoundAt x n f ∧ data' = some (x, f) := by
  intro fuel
  induction fuel with
  | zero => exact fun hlen => absurd hlen (Nat.not_lt_zero _)
  | succ fuel ih =>
    intro d cur p data hlen hp
    obtain ⟨hdirs, hbase⟩ := path_dropWhile cur
    have hshort : (cur.dropWhile (· = slashByte)).length ≤ cur.length := List.length_dropWhile_le _ _
    have hname := takeWhile_ne_nil (s := cur)
    rw [nsFindLoop, ← hdirs, ← hbase]
    generalize cur.dropWhile (· = slashByte) = cur at hshort hname ⊢
    by_cases hslash : slashByte ∉ cur
    · -- what is left is behind the last slash
      obtain ⟨hnil, hself⟩ := path_of_not_mem hslash
      rw [if_pos hslash, hnil, hself, List.append_nil]
      refine Or.inr ⟨d, data, hp, rfl, fun _ => rfl, fun q n h => ?_⟩
      exact absurd h (by simp)
    · rw [if_neg hslash]
      rw [not_not] at hslash
      have hcur := takeWhile_slash hslash
      have hno := not_mem_takeWhile cur
      specialize hname hslash
      generalize cur.takeWhile (· ≠ slashByte) = name at hcur hno hname ⊢
      generalize cur.drop (name.length + 1) = rest at hcur ⊢
      obtain ⟨hpd, hpb⟩ := path_append hno hname rest
      rw [hcur, hpd, hpb]
      obtain ⟨t, ht, hok⟩ := hs.dir p d hp
      rw [ht]
      dsimp only
      have hat : ∀ l, s.at (p ++ name :: l) =
          ((s.entry d name).bind NsItem.child).bind fun c => walk s.entry NsItem.child c l := by
        intro l
        unfold NsSpace.at at hp ⊢
        rw [walk_append, hp]
        rfl
      rcases nsFindItem_cases hok.toDirOk ht name with ⟨hnone, hentry⟩ | ⟨f, hfind, hfound⟩
      · rw [hnone]
        refine Or.inl ⟨?_, rfl⟩
        rw [hat, hentry]
        rfl
      · rw [hfind]
        dsimp only
        have hdir := hok.child_iff ht hfound
        cases hchild : f.ent.child with
        | none =>
          -- no directory
          have hno : L.isDir f.ent.flags = false := by
            rw [hdir, hchild]
            rfl
          rw [if_pos hno]
          refine Or.inl ⟨?_, rfl⟩
          rw [hat, hfound.entry, Option.bind_some, hchild]
          rfl
        | some child =>
          rw [if_neg (by rw [hdir, hchild]; simp)]
          have hlen' : rest.length < fuel := by
            rw [hcur, List.length_append, List.length_cons] at hshort
            omega
          have hchild' : s.at (p ++ [name]) = some child := by
            rw [hat, hfound.entry, Option.bind_some, hchild]
            rfl
          have hgo := @ih child rest (p ++ [name]) (some (d, f)) hlen' hchild'
          rw [List.append_assoc, List.singleton_append] at hgo
          refine hgo.imp_right ?_
          rintro ⟨d', data', hat', hend, hnil, hlast⟩
          refine ⟨d', data', hat', hend, fun h => absurd h (List.cons_ne_nil _ _), fun q n h => ?_⟩
          cases q with
          | nil =>
            obtain ⟨rfl, hrest⟩ := List.cons.inj h
            exact ⟨d, f, by rw [List.append_nil]; exact hp, hfound, hnil hrest⟩
          | cons m q =>
            obtain ⟨rfl, hrest⟩ := List.cons.inj h
            obtain ⟨x, f', hx, hf', hdata⟩ := hlast q n hrest
            refine ⟨x, f', ?_, hf', hdata⟩
            rwa [List.append_assoc, List.singleton_append] at hx

/-- **`ns_findparent` walks along the names in front of the last slash.** -/
theorem nsFindR_parent (hs : NsOk L s) (path : List (BitVec 8)) :
    (s.at (pathDirs path) = none ∧ nsFindR L s .parent true path = .error .notFound) ∨
      ∃ d data, s.at (pathDirs path) = some d ∧
        nsFindR L s .parent true path = .ok ⟨some d, data, pathBase path⟩ := by
  unfold nsFindR
  rw [if_neg (by simp)]
  have hroot : s.at [] = some s.root := rfl
  have hloop := @nsFindLoop_eq L s hs .parent (path.length + 1) s.root path [] none
    (Nat.lt_succ_self _) hroot
  rw [List.nil_append] at hloop
  refine hloop.imp_right ?_
  rintro ⟨d, data, hat, heq, -⟩
  exact ⟨d, data, hat, by rw [heq, nsFindEnd, if_pos (Or.inl rfl)]⟩

/-- **`ns_find` walks along the components of the path**, and what it finds is under the last of
them; a slash at the end asks for a directory. -/
theorem nsFindR_item (hs : NsOk L s) (path : List (BitVec 8)) :
    (components slashByte path = [] ∧ ∃ w, nsFindR L s .item true path = .ok w ∧ w.data = none) ∨
      (components slashByte path ≠ [] ∧ (s.under (components slashByte path) = none ∨
          pathBase path = [] ∧ s.at (components slashByte path) = none) ∧
        nsFindR L s .item true path = .error .notFound) ∨
      ∃ q n x f w, components slashByte path = q ++ [n] ∧ s.at q = some x ∧ s.FoundAt x n f ∧
        (pathBase path = [] → s.at (components slashByte path) ≠ none) ∧
        nsFindR L s .item true path = .ok w ∧ w.data = some (x, f) := by
  have hroot : s.at [] = some s.root := rfl
  have hloop := @nsFindLoop_eq L s hs .item (path.length + 1) s.root path [] none
    (Nat.lt_succ_self _) hroot
  have hres : nsFindR L s .item true path = nsFindLoop L s .item (path.length + 1) s.root none path := by
    unfold nsFindR
    rw [if_neg (by simp)]
  rw [List.nil_append] at hloop
  rw [hres, components_eq]
  by_cases hbase : pathBase path = []
  · -- what is asked for is the last directory
    rw [if_pos hbase]
    rcases hloop with ⟨hat, heq⟩ | ⟨d, data, hat, heq, hnil, hlast⟩
    · refine Or.inr (Or.inl ⟨?_, Or.inr ⟨hbase, hat⟩, heq⟩)
      intro h
      rw [h, hroot] at hat
      cases hat
    · have hend : nsFindEnd s .item d data (pathBase path) = .ok ⟨some d, data, []⟩ := by
        rw [hbase, nsFindEnd, if_pos (Or.inr rfl)]
      rw [heq, hend]
      rcases List.eq_nil_or_concat (pathDirs path) with h | ⟨q, n, h⟩
      · exact Or.inl ⟨h, _, rfl, hnil h⟩
      · rw [List.concat_eq_append] at h
        obtain ⟨x, f, hx, hfound, hdata⟩ := hlast q n h
        refine Or.inr (Or.inr ⟨q, n, x, f, _, h, hx, hfound, fun _ => ?_, rfl, hdata⟩)
        rw [hat]
        exact Option.some_ne_none d
  · rw [if_neg hbase]
    rcases hloop with ⟨hat, heq⟩ | ⟨d, data, hat, heq, -, -⟩
    · refine Or.inr (Or.inl ⟨by simp, Or.inl ?_, heq⟩)
      unfold NsSpace.under
      unfold NsSpace.at at hat
      rw [under_concat, hat]
      rfl
    · obtain ⟨t, ht, hok⟩ := hs.dir _ d hat
      rw [heq, nsFindEnd, if_neg (by simp [hbase]), ht]
      dsimp only
      rcases nsFindItem_cases hok.toDirOk ht (pathBase path) with ⟨hnone, hentry⟩ |
        ⟨f, hfind, hfound⟩
      · rw [hnone]
        refine Or.inr (Or.inl ⟨by simp, Or.inl ?_, rfl⟩)
        unfold NsSpace.under
        unfold NsSpace.at at hat
        rw [under_concat, hat]
        exact hentry
      · rw [hfind]
        exact Or.inr (Or.inr ⟨_, _, d, f, _, rfl, hat, hfound, fun h => absurd h hbase, rfl, rfl⟩)

end Find

end Mungi.Naming
