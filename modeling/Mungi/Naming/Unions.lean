import Mathlib.Data.Nat.Find
import Mungi.Naming.NameMap

/-!
# Union mounts

Behind a mounted name there is a list of trees.  `nm_map` replaces the list by a new entry, puts the
entry before it or after it; `nm_mount` replaces, and the append form of `nm_bind` puts all trees
that a path is in after those of a name.

Where the name is mounted already, `nm_map` asserts of its pointer `cur` that it is not `NULL`, and
has just set it to `NULL`; and where it is to append, it follows the list until `cur` is `NULL`
again, and writes through it.

## Main definitions

* `nmMap`, `nmMount`, `nmBind` — the functions of `namemap.c`.
* `UnionMap`, `UnionMap.call` — the lists that there are meant to be.
* `MountMap.Stands` — a table stands for the lists.

## Main results

* `nmMap_first`, `nmMap_replace`, `nmMap_before`, `nmMap_after` — what each branch does.
* `nmUnion_iff` — **the lists are kept if and only if nothing is appended to a mounted name, and no
  assertion fails if and only if no mounted name is mapped again.**
-/

namespace Mungi.Naming

open Chain Paths Runs

/-! ### The code -/

/-- `nment_t` -/
structure NmEnt where
  tree : ℕ
  path : List Char
  flags : ℕ
  next : ℕ

/-- The name hash, the entries behind it, and whether all assertions have held. -/
structure MountMap where
  map : NameHash
  ents : Heap NmEnt
  asserted : Bool

/-- What `nh_alloc` returns to `nm_map`, and to `nh_insert`. -/
structure NmBlocks where
  newent : ℕ
  enew : ℕ

/-- `NMT_REPLACE` -/
def nmtReplace : ℕ := 0

/-- `NMT_BEFORE` -/
def nmtBefore : ℕ := 1

/-- `NMT_AFTER` -/
def nmtAfter : ℕ := 2

/-- `NMT_TYPES` -/
def nmtTypes : ℕ := nmtReplace ||| nmtBefore ||| nmtAfter

/-- `NMF_NOREAD` -/
def nmfNoread : ℕ := 32

/-- `NMF_NOWRITE` -/
def nmfNowrite : ℕ := 64

/-- `NMF_FLAGS` -/
def nmfFlags : ℕ := nmfNoread ||| nmfNowrite

namespace MountMap

def next (s : MountMap) (p : ℕ) : ℕ := (s.ents.cell p).next

/-- An assertion. -/
def check (s : MountMap) (b : Bool) : MountMap := { s with asserted := s.asserted && b }

/-- `p->next = x`, which `NULL` cannot take. -/
def setNext (s : MountMap) (p x : ℕ) : Option MountMap :=
  if p = 0 then none else some { s with ents := s.ents.modify p fun e => { e with next := x } }

/-- `*ent = *newent`, and what was behind `ent` is deleted. -/
def replace (fuel : ℕ) (s : MountMap) (ent newent : ℕ) : Option MountMap :=
  let cur := s.next ent
  let ents := s.ents.modify ent fun _ => s.ents.cell newent
  (walk (fun p => (ents.cell p).next) fuel cur).map fun old =>
    { s with ents := (old.foldl Heap.free ents).free newent }

end MountMap

variable (fuel : ℕ) (s : MountMap)

/-- `nm_map` from where the name is mounted. -/
def nmMapMounted (new : List Char) (type : ℕ) (cwd : List Char) (ent newent : ℕ) :
    Option (NhCode × MountMap) :=
  -- `cur` is still `NULL`
  let s := s.check false
  if type = nmtReplace then (s.replace fuel ent newent).map fun s => (.ok, s)
  else
    let s := s.check (type = nmtBefore ∨ type = nmtAfter)
    if type = nmtBefore then
      (s.setNext newent ent).bind fun s =>
        (nhModify fuel s.map new newent cwd).map fun (_, map) => (.ok, { s with map := map })
    else
      let s := s.check (type = nmtAfter)
      -- the loop ends with `cur` as `NULL`
      (walk s.next fuel ent).bind fun _ => (s.setNext 0 newent).map fun s => (.ok, s)

/-- `nm_map`.  `NM_OK`, `NM_FAIL` and `NM_MEM` are as those of the name hash. -/
def nmMap (new path : List Char) (tree typeP : ℕ) (cwd : List Char) (b : NmBlocks) :
    Option (NhCode × MountMap) :=
  let s := s.check (tree ≠ 0)
  (nhFind fuel s.map new cwd).bind fun (r, ent) =>
    if r = .mem ∨ b.newent = 0 then some (.mem, s)
    else
      let newent := { tree := tree, path := path, flags := typeP &&& nmfFlags, next := 0 }
      (s.ents.alloc b.newent newent).bind fun ents =>
        let s := { s with ents := ents }
        if r = .fail then
          (nhInsert fuel s.map new b.newent cwd b.enew).map fun (r, map) =>
            (r, { s with map := map })
        else ent.bind fun ent => nmMapMounted fuel s new (typeP &&& nmtTypes) cwd ent b.newent

/-- `nm_mount` -/
def nmMount (new : List Char) (tree type : ℕ) (cwd : List Char) (b : NmBlocks) :
    Option (NhCode × MountMap) :=
  (nhAbsolute new cwd).bind fun absolute =>
    nmMap fuel s absolute.name [slash] tree (type &&& nmfFlags ||| nmtReplace) cwd b

/-- The loop of `nm_bind`, with what there is for each entry. -/
def nmBindLoop (new rel : List Char) (flags : ℕ) (cwd : List Char) :
    ℕ → (ℕ → NmBlocks) → MountMap → ℕ → Option (NhCode × MountMap)
  | 0, _, _, _ => none
  | n + 1, b, s, trees =>
    if trees = 0 then some (.ok, s)
    else
      (nmMap fuel s new rel (s.ents.cell trees).tree (nmtAfter ||| flags) cwd (b 0)).bind
        fun (r, s) =>
          if r ≠ .ok then some (.fail, s)
          else nmBindLoop new rel flags cwd n (fun i => b (i + 1)) s (s.next trees)

/-- `nm_bind` -/
def nmBind (new old : List Char) (typeP : ℕ) (cwd : List Char) (b : ℕ → NmBlocks) :
    Option (NhCode × MountMap) :=
  let type := typeP &&& nmtTypes
  (nmFindTrees fuel s.map old cwd).bind fun r =>
    match r with
    | (.ok, some (trees, rel)) =>
      if type = nmtReplace ∨ type = nmtBefore then some (.ok, s.check false)
      else nmBindLoop fuel new rel (typeP &&& nmfFlags) cwd fuel b s trees
    | (r, _) => some (r, s)

/-- A call. -/
inductive UnionCall where
  | map (new path : List Char) (tree typeP : ℕ) (cwd : List Char) (b : NmBlocks)
  | mount (new : List Char) (tree type : ℕ) (cwd : List Char) (b : NmBlocks)
  | bind (new old : List Char) (typeP : ℕ) (cwd : List Char) (b : ℕ → NmBlocks)

/-- The table after a call. -/
def unionStep : UnionCall → Option MountMap
  | .map new path tree typeP cwd b => (nmMap fuel s new path tree typeP cwd b).map Prod.snd
  | .mount new tree type cwd b => (nmMount fuel s new tree type cwd b).map Prod.snd
  | .bind new old typeP cwd b => (nmBind fuel s new old typeP cwd b).map Prod.snd

/-- Memory is available: the blocks are blocks, and not in use. -/
def NmBlocks.Free (b : NmBlocks) : Prop :=
  (b.newent ≠ 0 ∧ s.ents.live b.newent = false) ∧ b.enew ≠ 0 ∧ s.map.ents.live b.enew = false

instance (b : NmBlocks) : Decidable (b.Free s) := inferInstanceAs (Decidable (_ ∧ _))

/-- There is a tree, memory is available, and a tree is bound in the append form. -/
def UnionCall.Given : UnionCall → Prop
  | .map _ _ tree _ _ b => tree ≠ 0 ∧ b.Free s
  | .mount _ tree _ _ b => tree ≠ 0 ∧ b.Free s
  | .bind _ _ typeP _ b =>
    (typeP &&& nmtTypes ≠ nmtReplace ∧ typeP &&& nmtTypes ≠ nmtBefore) ∧ ∀ i < fuel, (b i).Free s

instance : ∀ c : UnionCall, Decidable (c.Given fuel s)
  | .map _ _ tree _ _ b => inferInstanceAs (Decidable (tree ≠ 0 ∧ b.Free s))
  | .mount _ tree _ _ b => inferInstanceAs (Decidable (tree ≠ 0 ∧ b.Free s))
  | .bind _ _ typeP _ b => inferInstanceAs (Decidable
    ((typeP &&& nmtTypes ≠ nmtReplace ∧ typeP &&& nmtTypes ≠ nmtBefore) ∧ ∀ i < fuel, (b i).Free s))

/-- `nm_init`, as far as the table goes. -/
def nmInit (entries : ℕ) (hashents : Heap HashEnt) (ents : Heap NmEnt) : MountMap where
  map := nhInit entries hashents
  ents := ents
  asserted := true

/-! ### The lists that there are meant to be -/

/-- What there is of a tree in a list. -/
structure Mounted where
  tree : ℕ
  path : List Char
  flags : ℕ
  deriving DecidableEq

/-- The trees of each name; none where it is not mounted. -/
abbrev UnionMap := List Char → List Mounted

namespace UnionMap

variable (u : UnionMap)

/-- **An entry is put in**: alone, as the first or as the last. -/
def put (type : ℕ) (name : List Char) (e : Mounted) : UnionMap :=
  Function.update u name <|
    if type = nmtReplace then [e] else if type = nmtBefore then e :: u name else u name ++ [e]

/-- How many components the longest mounted prefix has. -/
def depth (cs : List (List Char)) : ℕ :=
  Nat.findGreatest (fun n => u (render slash (cs.take n)) ≠ []) cs.length

/-- The name that a path is found under, with the relative name: the longest mounted prefix, or the
current directory where no prefix is mounted. -/
def source (path cwd : List Char) : Option (List Char × List Char) :=
  let cs := absoluteComponents path cwd
  let name := render slash (cs.take (u.depth cs))
  if u name ≠ [] then some (name, (absoluteName path cwd).drop name.length)
  else if u (absoluteName [] cwd) ≠ [] then some (absoluteName [] cwd, absoluteName path cwd)
  else none

/-- **What a call is meant to make of the lists.** -/
def call : UnionCall → UnionMap
  | .map new path tree typeP cwd _ =>
    u.put (typeP &&& nmtTypes) (absoluteName new cwd)
      { tree := tree, path := path, flags := typeP &&& nmfFlags }
  | .mount new tree type cwd _ =>
    u.put nmtReplace (absoluteName new cwd)
      { tree := tree, path := [slash], flags := type &&& nmfFlags }
  | .bind new old typeP cwd _ =>
    match u.source old cwd with
    | none => u
    | some (name, rel) =>
      Function.update u (absoluteName new cwd) <| u (absoluteName new cwd) ++
        (u name).map fun e => { tree := e.tree, path := rel, flags := typeP &&& nmfFlags }

/-- The lists after calls. -/
def after (calls : List UnionCall) : UnionMap := calls.foldl call u

/-- Nothing is appended to a name that is mounted: not by `nm_map`, and by `nm_bind` only one tree
to a name that is not. -/
def Appendable : UnionCall → Prop
  | .map new _ _ typeP cwd _ => typeP &&& nmtTypes = nmtReplace ∨ typeP &&& nmtTypes = nmtBefore ∨
      u (absoluteName new cwd) = []
  | .mount .. => True
  | .bind new old _ cwd _ =>
    ∀ src ∈ u.source old cwd, u (absoluteName new cwd) = [] ∧ (u src.1).length = 1

/-- No mounted name is mapped again. -/
def First : UnionCall → Prop
  | .map new _ _ _ cwd _ => u (absoluteName new cwd) = []
  | .mount new _ _ cwd _ => u (absoluteName new cwd) = []
  | .bind new old _ cwd _ =>
    ∀ src ∈ u.source old cwd, u (absoluteName new cwd) = [] ∧ (u src.1).length = 1

end UnionMap

namespace MountMap

/-- The data of an entry. -/
def entry (p : ℕ) : Mounted :=
  { tree := (s.ents.cell p).tree, path := (s.ents.cell p).path, flags := (s.ents.cell p).flags }

/-- The trees behind a name, as they are found. -/
def trees (name cwd : List Char) : Option (List Mounted) :=
  (nhFind fuel s.map name cwd).bind fun (_, ent) =>
    (walk s.next fuel (ent.getD 0)).map fun ps => ps.map s.entry

/-- Each name has its list. -/
def Lists (u : UnionMap) : Prop :=
  ∀ name cwd, s.trees fuel name cwd = some (u (absoluteName name cwd))

/-- **A table stands for lists.**  The entries of a name are `ps name`; no list is longer than
`k`. -/
structure Stands (s : MountMap) (k : ℕ) (l : ℕ → List ℕ) (m : NameMap) (ps : List Char → List ℕ)
    (u : UnionMap) : Prop where
  map : s.map.Holds l m
  chain : ∀ name, IsChain s.next ((m name).getD 0) (ps name)
  mounted : ∀ name v, m name = some v → v ≠ 0
  live : ∀ name, ∀ p ∈ ps name, s.ents.live p = true
  apart : ∀ a b, ∀ p ∈ ps a, p ∈ ps b → a = b
  entries : ∀ name, u name = (ps name).map s.entry
  trees : ∀ name, ∀ e ∈ u name, e.tree ≠ 0
  short : (∀ b, (l b).length ≤ k) ∧ ∀ name, (ps name).length ≤ k

variable {fuel s} {s' : MountMap} {k ent newent type flags : ℕ} {l l' : ℕ → List ℕ} {m : NameMap}
  {ps : List Char → List ℕ} {u : UnionMap} {name new path cwd : List Char} {b : NmBlocks}

theorem check_true : s.check true = s := by
  simp [check]

/-- A name has no entry where its list is empty. -/
theorem Stands.none_iff (h : s.Stands k l m ps u) : m name = none ↔ u name = [] := by
  have hchain := h.chain name
  rw [h.entries, List.map_eq_nil_iff]
  cases hm : m name with
  | none =>
    rw [hm, Option.getD_none] at hchain
    refine iff_of_true rfl ?_
    cases hps : ps name with
    | nil => rfl
    | cons p rest =>
      rw [hps] at hchain
      exact absurd hchain.1.symm hchain.2.1
  | some v =>
    rw [hm, Option.getD_some] at hchain
    refine iff_of_false nofun fun hps => h.mounted name v hm ?_
    rw [hps] at hchain
    exact hchain

/-- The entries of a name start with the one in the hash. -/
theorem Stands.head (h : s.Stands k l m ps u) (hm : m name = some ent) :
    ent ≠ 0 ∧ ∃ rest, ps name = ent :: rest ∧ IsChain s.next (s.next ent) rest := by
  have hchain := h.chain name
  rw [hm, Option.getD_some] at hchain
  refine ⟨h.mounted name ent hm, ?_⟩
  cases hps : ps name with
  | nil =>
    rw [hps] at hchain
    exact absurd hchain (h.mounted name ent hm)
  | cons p rest =>
    rw [hps] at hchain
    obtain ⟨rfl, -, hrest⟩ := hchain
    exact ⟨rest, rfl, hrest⟩

/-- **What stands for lists has them.** -/
theorem Stands.lists (h : s.Stands k l m ps u) (hk : k < fuel) : s.Lists fuel u := by
  intro name cwd
  have hwalk := (h.chain (absoluteName name cwd)).walk_eq ((h.short.2 _).trans_lt hk)
  unfold MountMap.trees
  rw [nhFind_eq h.map (fun b => (h.short.1 b).trans_lt hk), h.entries]
  cases hm : m (absoluteName name cwd) with
  | none =>
    rw [hm] at hwalk
    simp only [Option.bind_some, hwalk, Option.map_some]
  | some v =>
    rw [hm] at hwalk
    simp only [Option.bind_some, hwalk, Option.map_some]

/-- **One list is changed, and the entries of the others are not.** -/
theorem Stands.put (h : s.Stands k l m ps u) {v : ℕ} {L : List ℕ} {es : List Mounted}
    (hmap : s'.map.Holds l' (Function.update m name (some v))) (hv : v ≠ 0)
    (hchain : IsChain s'.next v L)
    (hL : ∀ p ∈ L, s'.ents.live p = true ∧ ∀ a, a ≠ name → p ∉ ps a)
    (hother : ∀ a, a ≠ name → ∀ p ∈ ps a,
      s'.ents.live p = true ∧ s'.ents.cell p = s.ents.cell p)
    (hes : es = L.map s'.entry) (htrees : ∀ e ∈ es, e.tree ≠ 0)
    (hshort : (∀ b, (l' b).length ≤ k + 1) ∧ L.length ≤ k + 1) :
    s'.Stands (k + 1) l' (Function.update m name (some v)) (Function.update ps name L)
      (Function.update u name es) := by
  refine ⟨hmap, fun a => ?_, fun a w hw => ?_, fun a p hp => ?_, fun a c p ha hc => ?_,
    fun a => ?_, fun a e he => ?_, hshort.1, fun a => ?_⟩
  · by_cases ha : a = name
    · subst ha
      simpa using hchain
    · rw [Function.update_of_ne ha, Function.update_of_ne ha]
      exact (h.chain a).congr fun p hp => congrArg NmEnt.next (hother a ha p hp).2
  · by_cases ha : a = name
    · subst ha
      rw [Function.update_self] at hw
      exact Option.some.inj hw ▸ hv
    · rw [Function.update_of_ne ha] at hw
      exact h.mounted a w hw
  · by_cases ha : a = name
    · subst ha
      rw [Function.update_self] at hp
      exact (hL p hp).1
    · rw [Function.update_of_ne ha] at hp
      exact (hother a ha p hp).1
  · by_cases ha' : a = name <;> by_cases hc' : c = name
    · rw [ha', hc']
    · subst ha'
      rw [Function.update_self] at ha
      rw [Function.update_of_ne hc'] at hc
      exact absurd hc ((hL p ha).2 c hc')
    · subst hc'
      rw [Function.update_self] at hc
      rw [Function.update_of_ne ha'] at ha
      exact absurd ha ((hL p hc).2 a ha')
    · rw [Function.update_of_ne ha'] at ha
      rw [Function.update_of_ne hc'] at hc
      exact h.apart a c p ha hc
  · by_cases ha : a = name
    · subst ha
      simpa using hes
    · rw [Function.update_of_ne ha, Function.update_of_ne ha, h.entries]
      refine List.map_congr_left fun p hp => ?_
      simp only [entry, (hother a ha p hp).2]
  · by_cases ha : a = name
    · subst ha
      rw [Function.update_self] at he
      exact htrees e he
    · rw [Function.update_of_ne ha] at he
      exact h.trees a e he
  · by_cases ha : a = name
    · subst ha
      rw [Function.update_self]
      exact hshort.2
    · rw [Function.update_of_ne ha]
      exact (h.short.2 a).trans (Nat.le_succ k)

/-- An entry is made: it is in no list, and all else is as it was. -/
theorem Stands.alloc (h : s.Stands k l m ps u) {e : NmEnt} {ents : Heap NmEnt}
    (halloc : s.ents.alloc newent e = some ents) :
    { s with ents := ents }.Stands k l m ps u ∧ ∀ a, newent ∉ ps a := by
  have hold : ∀ a, ∀ p ∈ ps a, p ≠ newent ∧ ents.live p = true ∧ ents.cell p = s.ents.cell p :=
    fun a p hp => Heap.alloc_live halloc (h.live a p hp)
  refine ⟨{ h with chain := fun a => ?_, live := fun a p hp => (hold a p hp).2.1,
                   entries := fun a => ?_ }, fun a hp => (hold a newent hp).1 rfl⟩
  · exact (h.chain a).congr fun p hp => congrArg NmEnt.next (hold a p hp).2.2
  · rw [h.entries]
    refine List.map_congr_left fun p hp => ?_
    simp only [entry, (hold a p hp).2.2]

end MountMap

/-! ### The branches of `nm_map` -/

variable {fuel s} {s' : MountMap} {k ent newent type typeP tree : ℕ} {l l' : ℕ → List ℕ}
  {m : NameMap} {ps : List Char → List ℕ} {u : UnionMap} {name new path cwd : List Char}
  {b : NmBlocks}

open MountMap

/-- A call that sets a name in the hash; it returns no more than the code. -/
theorem nhCall_puts {nh : NameHash} {c : NhCall} {m' : NameMap}
    {f : Option (NhCode × NameHash)} (h : nh.Holds l m) (hfuel : ∀ b, (l b).length < fuel)
    (hsupply : Supplied nh c) (hf : nhCall fuel nh c = f.map fun r => ((r.1, none), r.2))
    (hputs : m.call c = ((.ok, none), m')) :
    ∃ nh' l', f = some (.ok, nh') ∧ nh'.Holds l' m' ∧
      ∀ b, (l' b).length ≤ (l b).length + 1 := by
  obtain ⟨r, nh', l', hcall, hr, hholds, -, hlen⟩ := nhCall_holds h hfuel hsupply
  rw [hputs] at hr hholds
  obtain ⟨a, ha, heq⟩ := Option.map_eq_some_iff.mp (hf.symm.trans hcall)
  obtain ⟨rfl, rfl⟩ := Prod.mk.inj heq
  have hok : a = (.ok, a.2) := Prod.ext (Prod.mk.inj hr).1 rfl
  exact ⟨a.2, l', ha.trans (congrArg some hok), hholds, hlen⟩

/-- A name that is not in the hash is put in. -/
theorem nhInsert_new {nh : NameHash} (h : nh.Holds l m) (hfuel : ∀ b, (l b).length < fuel)
    (hm : m (absoluteName name cwd) = none) (value : ℕ) {enew : ℕ}
    (henew : enew ≠ 0 ∧ nh.ents.live enew = false) :
    ∃ nh' l', nhInsert fuel nh name value cwd enew = some (.ok, nh') ∧
      nh'.Holds l' (Function.update m (absoluteName name cwd) (some value)) ∧
        ∀ b, (l' b).length ≤ (l b).length + 1 := by
  apply nhCall_puts (c := ⟨.insert value enew, name, cwd⟩) h hfuel
  · intro e he
    exact Option.some.inj he ▸ henew
  · rfl
  · simp only [NameMap.call, hm]

/-- The pointer of a name that is in the hash is set. -/
theorem nhModify_old {nh : NameHash} (h : nh.Holds l m) (hfuel : ∀ b, (l b).length < fuel)
    (hm : m (absoluteName name cwd) = some ent) (value : ℕ) :
    ∃ nh' l', nhModify fuel nh name value cwd = some (.ok, nh') ∧
      nh'.Holds l' (Function.update m (absoluteName name cwd) (some value)) ∧
        ∀ b, (l' b).length ≤ (l b).length + 1 := by
  apply nhCall_puts (c := ⟨.modify value, name, cwd⟩) h hfuel
  · exact nofun
  · rfl
  · simp only [NameMap.call, hm]

/-- **A mounted name is replaced**: its first entry takes the data of the new one, and the others
are deleted with the new one. -/
theorem nmMapMounted_replace (new cwd : List Char) (h : s.Stands k l m ps u) (hk : k < fuel)
    (hm : m name = some ent) (hnew : ∀ a, newent ∉ ps a) (hnext : s.next newent = 0)
    (htree : (s.entry newent).tree ≠ 0) :
    ∃ s', nmMapMounted fuel s new nmtReplace cwd ent newent = some (.ok, s') ∧
      s'.Stands (k + 1) l (Function.update m name (some ent)) (Function.update ps name [ent])
        (u.put nmtReplace name (s.entry newent)) ∧ s'.asserted = false := by
  obtain ⟨hent, rest, hps, hrest⟩ := h.head hm
  have hmem : ent ∈ ps name := by
    simp [hps]
  have hnot : ent ∉ rest := by
    have hnodup := (h.chain name).nodup
    rw [hps] at hnodup
    exact (List.nodup_cons.mp hnodup).1
  set ents := s.ents.modify ent fun _ => s.ents.cell newent with hents
  have hcell : ∀ p, p ≠ ent → ents.cell p = s.ents.cell p := fun p hp => Heap.cell_modify_of_ne hp
  have hself : ents.cell ent = s.ents.cell newent := Heap.cell_modify_self
  -- the rest is still a list when the first entry has been written over
  have hwalk : walk (fun p => (ents.cell p).next) fuel (s.next ent) = some rest := by
    refine IsChain.walk_eq (hrest.congr fun p hp => congrArg NmEnt.next (hcell p ?_)) ?_
    · rintro rfl
      exact hnot hp
    · have hlen := (h.short.2 name).trans_lt hk
      rw [hps, List.length_cons] at hlen
      omega
  have hreplace : (s.check false).replace fuel ent newent = some
      { s.check false with ents := (rest.foldl Heap.free ents).free newent } := by
    unfold replace
    exact congrArg (Option.map _) hwalk
  have hlive : ∀ p, p ∉ rest → p ≠ newent →
      ((rest.foldl Heap.free ents).free newent).live p = s.ents.live p := fun p hp hne => by
    rw [Heap.live_free_of_ne hne, Heap.live_foldl_free hp, hents, Heap.live_modify]
  have hall : ∀ p, ((rest.foldl Heap.free ents).free newent).cell p = ents.cell p := fun p => by
    rw [Heap.cell_free, Heap.cell_foldl_free]
  refine ⟨{ s.check false with ents := (rest.foldl Heap.free ents).free newent }, ?_, ?_, ?_⟩
  · unfold nmMapMounted
    rw [if_pos rfl, hreplace, Option.map_some]
  · unfold UnionMap.put
    rw [if_pos rfl]
    refine h.put ?_ hent ⟨rfl, hent, ?_⟩ (fun p hp => ?_) (fun a ha p hp => ?_) ?_ ?_ ⟨?_, ?_⟩
    · rw [← hm, Function.update_eq_self]
      exact h.map
    · simp only [next, hall, hself]
      exact hnext
    · obtain rfl := List.mem_singleton.mp hp
      refine ⟨?_, fun a ha hp => ha (h.apart a name p hp hmem)⟩
      refine (hlive p hnot ?_).trans (h.live name p hmem)
      rintro rfl
      exact hnew name hmem
    · have hp' : p ∉ ps name := fun hp' => ha (h.apart a name p hp hp')
      rw [hps, List.mem_cons, not_or] at hp'
      refine ⟨(hlive p hp'.2 ?_).trans (h.live a p hp), (hall p).trans (hcell p hp'.1)⟩
      rintro rfl
      exact hnew a hp
    · simp only [List.map_cons, List.map_nil, entry, hall, hself]
    · intro e he
      rw [List.mem_singleton.mp he]
      exact htree
    · exact fun b => (h.short.1 b).trans (Nat.le_succ k)
    · simp
  · simp [check]

theorem nmtBefore_ne : nmtBefore ≠ nmtReplace := one_ne_zero

/-- **A mounted name gets a new first entry.** -/
theorem nmMapMounted_before (h : s.Stands k l m ps u) (hk : k < fuel)
    (hm : m (absoluteName new cwd) = some ent) (hnew : ∀ a, newent ∉ ps a) (hne : newent ≠ 0)
    (hlive : s.ents.live newent = true) (htree : (s.entry newent).tree ≠ 0) :
    ∃ s' l', nmMapMounted fuel s new nmtBefore cwd ent newent = some (.ok, s') ∧
      s'.Stands (k + 1) l' (Function.update m (absoluteName new cwd) (some newent))
        (Function.update ps (absoluteName new cwd) (newent :: ps (absoluteName new cwd)))
        (u.put nmtBefore (absoluteName new cwd) (s.entry newent)) ∧ s'.asserted = false := by
  obtain ⟨nh, l', hmodify, hholds, hlen⟩ :=
    nhModify_old h.map (fun b => (h.short.1 b).trans_lt hk) hm newent
  set name := absoluteName new cwd
  set ents := s.ents.modify newent fun e => { e with next := ent } with hents
  have hcell : ∀ p, p ≠ newent → ents.cell p = s.ents.cell p :=
    fun p hp => Heap.cell_modify_of_ne hp
  have hother : ∀ a, ∀ p ∈ ps a, ents.cell p = s.ents.cell p := fun a p hp => hcell p <| by
    rintro rfl
    exact hnew a hp
  have hchain := h.chain name
  rw [hm, Option.getD_some] at hchain
  refine ⟨{ map := nh, ents := ents, asserted := false }, l', ?_, ?_, rfl⟩
  · simp only [nmMapMounted, if_neg nmtBefore_ne, if_pos, setNext, if_neg hne, Option.bind_some,
      check, hmodify, Option.map_some, Bool.and_false, Bool.false_and, ← hents]
  · unfold UnionMap.put
    rw [if_neg nmtBefore_ne, if_pos rfl]
    refine h.put hholds hne ⟨rfl, hne, ?_⟩ (fun p hp => ?_) (fun a _ p hp => ⟨h.live a p hp,
      hother a p hp⟩) ?_ ?_ ⟨fun b => (hlen b).trans (Nat.succ_le_succ (h.short.1 b)), ?_⟩
    · have hfirst : (ents.cell newent).next = ent := by
        rw [hents, Heap.cell_modify_self]
      simp only [next, hfirst]
      exact hchain.congr fun p hp => congrArg NmEnt.next (hother name p hp)
    · rcases List.mem_cons.mp hp with rfl | hp
      · exact ⟨hlive, fun a _ => hnew a⟩
      · exact ⟨h.live name p hp, fun a ha hp' => ha (h.apart a name p hp' hp)⟩
    · rw [h.entries, List.map_cons]
      refine congrArg₂ List.cons ?_ (List.map_congr_left fun p hp => ?_)
      · simp only [entry, hents, Heap.cell_modify_self]
      · simp only [entry, hother name p hp]
    · intro e he
      rcases List.mem_cons.mp he with rfl | he
      · exact htree
      · exact h.trees name e he
    · rw [List.length_cons]
      exact Nat.succ_le_succ (h.short.2 name)

/-- **Nothing is appended to a mounted name**: at the end of the list `NULL` is followed. -/
theorem nmMapMounted_after (hreplace : type ≠ nmtReplace) (hbefore : type ≠ nmtBefore) :
    nmMapMounted fuel s new type cwd ent newent = none := by
  unfold nmMapMounted
  rw [if_neg hreplace, if_neg hbefore]
  simp [setNext]

/-! ### `nm_map` -/

/-- What is put in for a call. -/
def mounted (tree typeP : ℕ) (path : List Char) : Mounted :=
  { tree := tree, path := path, flags := typeP &&& nmfFlags }

/-- What `nm_map` comes to once there is memory for the entry. -/
theorem nmMap_eq (h : s.Stands k l m ps u) (hk : k < fuel) (htree : tree ≠ 0) (hne : b.newent ≠ 0) :
    nmMap fuel s new path tree typeP cwd b =
      (s.ents.alloc b.newent
        { tree := tree, path := path, flags := typeP &&& nmfFlags, next := 0 }).bind fun ents =>
          match m (absoluteName new cwd) with
          | none => (nhInsert fuel s.map new b.newent cwd b.enew).map fun r =>
              (r.1, { s with map := r.2, ents := ents })
          | some ent => nmMapMounted fuel { s with ents := ents } new (typeP &&& nmtTypes) cwd ent
              b.newent := by
  have hcheck : s.check (decide (tree ≠ 0)) = s := by
    rw [decide_eq_true htree, check_true]
  unfold nmMap
  rw [hcheck]
  dsimp only
  rw [nhFind_eq h.map fun b => (h.short.1 b).trans_lt hk]
  cases m (absoluteName new cwd) with
  | none => simp [hne]
  | some ent => simp [hne]

/-- **The first tree of a name.** -/
theorem nmMap_first (path : List Char) (typeP : ℕ) (h : s.Stands k l m ps u) (hk : k < fuel)
    (htree : tree ≠ 0) (hb : b.Free s) (hu : u (absoluteName new cwd) = []) :
    ∃ s' l', nmMap fuel s new path tree typeP cwd b = some (.ok, s') ∧
      s'.Stands (k + 1) l' (Function.update m (absoluteName new cwd) (some b.newent))
        (Function.update ps (absoluteName new cwd) [b.newent])
        (Function.update u (absoluteName new cwd) [mounted tree typeP path]) ∧
          s'.asserted = s.asserted := by
  obtain ⟨⟨hne, hfree⟩, henew⟩ := hb
  have hm : m (absoluteName new cwd) = none := h.none_iff.mpr hu
  obtain ⟨nh, l', hinsert, hholds, hlen⟩ :=
    nhInsert_new h.map (fun b => (h.short.1 b).trans_lt hk) hm b.newent henew
  obtain ⟨ents, halloc⟩ : ∃ ents, s.ents.alloc b.newent
      { tree := tree, path := path, flags := typeP &&& nmfFlags, next := 0 } = some ents :=
    ⟨_, Heap.alloc_eq_some.mpr ⟨hfree, rfl⟩⟩
  have hcell := Heap.cell_alloc_self halloc
  obtain ⟨hold, hnew⟩ := h.alloc halloc
  refine ⟨{ s with map := nh, ents := ents }, l', ?_, ?_, rfl⟩
  · rw [nmMap_eq h hk htree hne, halloc, Option.bind_some, hm]
    simp only [hinsert, Option.map_some]
  · refine hold.put hholds hne ⟨rfl, hne, ?_⟩ (fun p hp => ?_) (fun a _ p hp => ?_) ?_ ?_
      ⟨fun b => (hlen b).trans (Nat.succ_le_succ (h.short.1 b)), by simp⟩
    · exact congrArg NmEnt.next hcell
    · obtain rfl := List.mem_singleton.mp hp
      exact ⟨Heap.live_alloc_self halloc, fun a _ => hnew a⟩
    · exact ⟨hold.live a p hp, rfl⟩
    · simp only [List.map_cons, List.map_nil, entry, hcell, mounted]
    · intro e he
      rw [List.mem_singleton.mp he]
      exact htree

/-- **What `nm_map` does** where it does not append to a mounted name. -/
theorem nmMap_spec (new path : List Char) (typeP : ℕ) (cwd : List Char)
    (h : s.Stands k l m ps u) (hk : k < fuel) (htree : tree ≠ 0) (hb : b.Free s)
    (hok : typeP &&& nmtTypes = nmtReplace ∨ typeP &&& nmtTypes = nmtBefore ∨
      u (absoluteName new cwd) = []) :
    ∃ s' l' m' ps', nmMap fuel s new path tree typeP cwd b = some (.ok, s') ∧
      s'.Stands (k + 1) l' m' ps'
        (u.put (typeP &&& nmtTypes) (absoluteName new cwd) (mounted tree typeP path)) ∧
          (s'.asserted = true ↔ s.asserted = true ∧ u (absoluteName new cwd) = []) := by
  by_cases hu : u (absoluteName new cwd) = []
  · obtain ⟨s', l', hmap, hstands, hassert⟩ :=
      nmMap_first path typeP h hk htree hb hu
    have hput : u.put (typeP &&& nmtTypes) (absoluteName new cwd) (mounted tree typeP path) =
        Function.update u (absoluteName new cwd) [mounted tree typeP path] := by
      unfold UnionMap.put
      rw [hu, List.nil_append, ite_self, ite_self]
    rw [hput, and_iff_left hu]
    exact ⟨s', l', _, _, hmap, hstands, by rw [hassert]⟩
  · obtain ⟨⟨hne, hfree⟩, -⟩ := hb
    obtain ⟨ent, hm⟩ := Option.ne_none_iff_exists'.mp (mt h.none_iff.mp hu)
    obtain ⟨ents, halloc⟩ : ∃ ents, s.ents.alloc b.newent
        { tree := tree, path := path, flags := typeP &&& nmfFlags, next := 0 } = some ents :=
      ⟨_, Heap.alloc_eq_some.mpr ⟨hfree, rfl⟩⟩
    have hcell := Heap.cell_alloc_self halloc
    obtain ⟨hold, hnew⟩ := h.alloc halloc
    set s₁ : MountMap := { s with ents := ents } with hs₁
    have hentry : s₁.entry b.newent = mounted tree typeP path := by
      simp only [hs₁, entry, hcell, mounted]
    have htree₁ : (s₁.entry b.newent).tree ≠ 0 := by
      rw [hentry]
      exact htree
    have hmap : nmMap fuel s new path tree typeP cwd b =
        nmMapMounted fuel s₁ new (typeP &&& nmtTypes) cwd ent b.newent := by
      rw [nmMap_eq h hk htree hne, halloc, Option.bind_some, hm]
    rw [hmap, ← hentry]
    rcases hok with htype | htype | hnil
    · rw [htype]
      obtain ⟨s', hcall, hstands, hassert⟩ :=
        nmMapMounted_replace new cwd hold hk hm hnew (congrArg NmEnt.next hcell) htree₁
      refine ⟨s', l, _, _, hcall, hstands, ?_⟩
      rw [hassert]
      exact iff_of_false Bool.false_ne_true fun hand => hu hand.2
    · rw [htype]
      obtain ⟨s', l', hcall, hstands, hassert⟩ :=
        nmMapMounted_before hold hk hm hnew hne (Heap.live_alloc_self halloc) htree₁
      refine ⟨s', l', _, _, hcall, hstands, ?_⟩
      rw [hassert]
      exact iff_of_false Bool.false_ne_true fun hand => hu hand.2
    · exact absurd hnil hu

/-- `nm_map` does not come back where it is to append to a mounted name. -/
theorem nmMap_after (h : s.Stands k l m ps u) (hk : k < fuel) (htree : tree ≠ 0)
    (hne : b.newent ≠ 0) (hreplace : typeP &&& nmtTypes ≠ nmtReplace)
    (hbefore : typeP &&& nmtTypes ≠ nmtBefore) (hu : u (absoluteName new cwd) ≠ []) :
    nmMap fuel s new path tree typeP cwd b = none := by
  obtain ⟨ent, hm⟩ := Option.ne_none_iff_exists'.mp (mt h.none_iff.mp hu)
  rw [nmMap_eq h hk htree hne, hm]
  simp only [nmMapMounted_after hreplace hbefore]
  exact Option.bind_fun_none _

/-! ### `nm_bind` -/

/-- **Where a path is found**, in terms of the lists. -/
theorem nmFindTrees_source (h : s.Stands k l m ps u) (hk : k < fuel) (path cwd : List Char) :
    nmFindTrees fuel s.map path cwd = some (match u.source path cwd with
      | some (name, rel) => (.ok, (m name).map fun t => (t, rel))
      | none => (.fail, none)) := by
  set cs := absoluteComponents path cwd with hcs
  rcases nmFindTrees_outcome h.map (fun b => (h.short.1 b).trans_lt hk) path cwd with
    ⟨q, t, hq, hqm, hmax, hfind⟩ | ⟨hnone, hfind⟩
  · have hmounted : ∀ q, u (render slash q) ≠ [] ↔ m (render slash q) ≠ none :=
      fun q => not_congr h.none_iff.symm
    have hne : u (render slash q) ≠ [] := by
      rw [hmounted, hqm]
      exact Option.some_ne_none t
    have htake : cs.take q.length = q := (List.prefix_iff_eq_take.mp hq).symm
    have hdepth : u.depth cs = q.length := by
      unfold UnionMap.depth
      refine Nat.findGreatest_eq_iff.mpr ⟨hq.length_le, fun _ => ?_, fun n hn hle hbad => ?_⟩
      · rw [htake]
        exact hne
      · have hlen := hmax (cs.take n) (List.take_prefix n cs) ((hmounted _).mp hbad)
        rw [List.length_take, min_eq_left hle] at hlen
        omega
    have hsource : u.source path cwd =
        some (render slash q, (absoluteName path cwd).drop (render slash q).length) := by
      unfold UnionMap.source
      dsimp only
      rw [← hcs, hdepth, htake, if_pos hne]
    rw [hfind, hsource]
    simp only [hqm, Option.map_some]
  · have hnil : ¬ u (render slash (cs.take (u.depth cs))) ≠ [] := by
      rw [not_not, ← h.none_iff]
      exact hnone _ (List.take_prefix _ cs)
    unfold UnionMap.source
    dsimp only
    rw [hfind, if_neg hnil]
    cases hm : m (absoluteName [] cwd) with
    | none =>
      rw [if_neg (not_not.mpr (h.none_iff.mp hm))]
    | some t =>
      rw [if_pos fun hu => ?_]
      · simp only [hm, Option.map_some]
      · rw [h.none_iff.mpr hu] at hm
        cases hm

/-- A path is found under a mounted name. -/
theorem UnionMap.source_mounted {src : List Char × List Char} (h : u.source path cwd = some src) :
    u src.1 ≠ [] := by
  unfold UnionMap.source at h
  dsimp only at h
  split_ifs at h with h₁ h₂
  · rwa [← Option.some.inj h]
  · rwa [← Option.some.inj h]

/-- The type and the flags that `nm_bind` gives to `nm_map`. -/
theorem nmtAfter_or (typeP : ℕ) : (nmtAfter ||| typeP &&& nmfFlags) &&& nmtTypes = nmtAfter ∧
    (nmtAfter ||| typeP &&& nmfFlags) &&& nmfFlags = typeP &&& nmfFlags := by
  rw [Nat.and_or_distrib_right, Nat.and_or_distrib_right, Nat.and_assoc, Nat.and_assoc]
  have htypes : nmfFlags &&& nmtTypes = 0 := by decide
  have hflags : nmtAfter &&& nmfFlags = 0 := by decide
  have hafter : nmtAfter &&& nmtTypes = nmtAfter := by decide
  rw [htypes, hflags, hafter, Nat.and_self, Nat.and_zero, Nat.or_zero, Nat.zero_or]
  exact ⟨rfl, rfl⟩

variable {old rel : List Char} {bs : ℕ → NmBlocks} {n : ℕ}

/-- One turn of the loop of `nm_bind`. -/
theorem nmBindLoop_succ {flags p : ℕ} (hp : p ≠ 0) :
    nmBindLoop fuel new rel flags cwd (n + 1) bs s p =
      (nmMap fuel s new rel (s.entry p).tree (nmtAfter ||| flags) cwd (bs 0)).bind fun (r, s) =>
        if r ≠ .ok then some (.fail, s)
        else nmBindLoop fuel new rel flags cwd n (fun i => bs (i + 1)) s (s.next p) := by
  rw [nmBindLoop, if_neg hp]
  rfl

/-- **One tree is bound to a name that is not mounted**; with more trees, or where the name is
mounted, `nm_bind` does not come back. -/
theorem nmBindLoop_eq (rel : List Char) (typeP : ℕ) (h : s.Stands k l m ps u) (hk : k + 1 < fuel)
    (hbs : ∀ i < fuel, (bs i).Free s)
    {src : List Char} (hsrc : u src ≠ []) (hm : m src = some ent) :
    (u (absoluteName new cwd) = [] ∧ (u src).length = 1 →
      ∃ s' l' m' ps', nmBindLoop fuel new rel (typeP &&& nmfFlags) cwd fuel bs s ent =
          some (.ok, s') ∧
        s'.Stands (k + 1) l' m' ps' (Function.update u (absoluteName new cwd)
          (u (absoluteName new cwd) ++ (u src).map fun e => mounted e.tree typeP rel)) ∧
            s'.asserted = s.asserted) ∧
    (¬ (u (absoluteName new cwd) = [] ∧ (u src).length = 1) →
      nmBindLoop fuel new rel (typeP &&& nmfFlags) cwd fuel bs s ent = none) := by
  obtain ⟨n, rfl⟩ : ∃ n, fuel = n + 2 := ⟨fuel - 2, by omega⟩
  obtain ⟨hent, rest, hps, hrest⟩ := h.head hm
  obtain ⟨htype, hflags⟩ := nmtAfter_or typeP
  have hfirst : u src = s.entry ent :: rest.map s.entry := by
    rw [h.entries, hps, List.map_cons]
  have htree : (s.entry ent).tree ≠ 0 := by
    refine h.trees src _ ?_
    rw [hfirst]
    exact List.mem_cons_self
  have hblock := hbs 0 (Nat.succ_pos _)
  rw [nmBindLoop_succ hent]
  by_cases hu : u (absoluteName new cwd) = []
  · obtain ⟨s', l', hmap, hstands, hassert⟩ := nmMap_first rel (nmtAfter ||| typeP &&& nmfFlags) h
      (Nat.lt_of_succ_lt hk) htree hblock hu
    have hne : src ≠ absoluteName new cwd := by
      rintro rfl
      exact hsrc hu
    have hchain := hstands.chain src
    rw [Function.update_of_ne hne, Function.update_of_ne hne, hm, hps] at hchain
    obtain ⟨-, -, hrest'⟩ := hchain
    rw [hmap, Option.bind_some]
    dsimp only
    rw [if_neg (not_not.mpr rfl)]
    cases rest with
    | nil =>
      rw [isChain_nil] at hrest'
      have hlist : u (absoluteName new cwd) ++ (u src).map (fun e => mounted e.tree typeP rel) =
          [mounted (s.entry ent).tree (nmtAfter ||| typeP &&& nmfFlags) rel] := by
        rw [hu, hfirst, List.nil_append, List.map_nil, List.map_singleton]
        unfold mounted
        rw [hflags]
      rw [hlist, hrest', nmBindLoop, if_pos rfl]
      refine ⟨fun _ => ⟨s', l', _, _, rfl, hstands, hassert⟩, fun hnot => absurd ⟨hu, ?_⟩ hnot⟩
      rw [hfirst]
      rfl
    | cons q rest =>
      -- the second tree is to be put after the first one
      refine ⟨fun hone => ?_, fun _ => ?_⟩
      · have hlen := hone.2
        rw [hfirst] at hlen
        simp at hlen
      · obtain ⟨hq, hq0, -⟩ := hrest'
        rw [hq, nmBindLoop_succ hq0]
        have hmounted : Function.update u (absoluteName new cwd)
            [mounted (s.entry ent).tree (nmtAfter ||| typeP &&& nmfFlags) rel]
              (absoluteName new cwd) ≠ [] := by
          simp
        have htree' : (s'.entry q).tree ≠ 0 := by
          refine hstands.trees src _ ?_
          rw [hstands.entries, Function.update_of_ne hne, hps]
          simp
        rw [nmMap_after hstands hk htree' (hbs 1 (by omega)).1.1 ?_ ?_ hmounted]
        · rfl
        · rw [htype]
          decide
        · rw [htype]
          decide
  · refine ⟨fun hone => absurd hone.1 hu, fun _ => ?_⟩
    rw [nmMap_after h (Nat.lt_of_succ_lt hk) htree hblock.1.1 ?_ ?_ hu]
    · rfl
    · rw [htype]
      decide
    · rw [htype]
      decide

/-! ### Calls -/

/-- **A call that appends nothing to a mounted name** makes of the lists what it is meant to, and
breaks an assertion if it maps a mounted name. -/
theorem unionStep_spec (h : s.Stands k l m ps u) (hk : k + 1 < fuel) {c : UnionCall}
    (hc : c.Given fuel s) (hok : u.Appendable c) :
    ∃ s' l' m' ps', unionStep fuel s c = some s' ∧ s'.Stands (k + 1) l' m' ps' (u.call c) ∧
      (s'.asserted = true ↔ s.asserted = true ∧ u.First c) := by
  cases c with
  | map new path tree typeP cwd b =>
    obtain ⟨s', l', m', ps', hmap, hstands, hassert⟩ :=
      nmMap_spec new path typeP cwd h (Nat.lt_of_succ_lt hk) hc.1 hc.2 hok
    exact ⟨s', l', m', ps', congrArg (Option.map Prod.snd) hmap, hstands, hassert⟩
  | mount new tree type cwd b =>
    obtain ⟨a, ha, hname, -, -⟩ := nhAbsolute_eq new cwd
    have hself : absoluteName (absoluteName new cwd) cwd = absoluteName new cwd :=
      (canonical_absoluteName new cwd).absoluteName_eq cwd
    have htype : (type &&& nmfFlags ||| nmtReplace) &&& nmtTypes = nmtReplace := by
      rw [nmtReplace, Nat.or_zero, Nat.and_assoc]
      exact Nat.and_zero type
    have hflags : (type &&& nmfFlags ||| nmtReplace) &&& nmfFlags = type &&& nmfFlags := by
      rw [nmtReplace, Nat.or_zero, Nat.and_assoc, Nat.and_self]
    obtain ⟨s', l', m', ps', hmap, hstands, hassert⟩ :=
      nmMap_spec (absoluteName new cwd) [slash] (type &&& nmfFlags ||| nmtReplace) cwd h
        (Nat.lt_of_succ_lt hk) hc.1 hc.2 (Or.inl htype)
    unfold mounted at hstands
    rw [htype, hflags, hself] at hstands
    rw [hself] at hassert
    refine ⟨s', l', m', ps', ?_, hstands, hassert⟩
    unfold unionStep nmMount
    dsimp only
    rw [ha, Option.bind_some, hname, hmap, Option.map_some]
  | bind new old typeP cwd bs =>
    obtain ⟨⟨hreplace, hbefore⟩, hbs⟩ := hc
    have hfind := nmFindTrees_source h (Nat.lt_of_succ_lt hk) old cwd
    unfold unionStep nmBind UnionMap.call UnionMap.First
    dsimp only
    rw [hfind, Option.bind_some]
    cases hsource : u.source old cwd with
    | none =>
      refine ⟨s, l, m, ps, rfl, { h with short := ⟨fun b => ?_, fun a => ?_⟩ },
        (and_iff_left nofun).symm⟩
      · exact (h.short.1 b).trans (Nat.le_succ k)
      · exact (h.short.2 a).trans (Nat.le_succ k)
    | some src =>
      have hsrc := UnionMap.source_mounted hsource
      obtain ⟨ent, hm⟩ := Option.ne_none_iff_exists'.mp (mt h.none_iff.mp hsrc)
      have hone := hok src hsource
      obtain ⟨s', l', m', ps', hloop, hstands, hassert⟩ :=
        (nmBindLoop_eq src.2 typeP h hk hbs hsrc hm).1 hone
      refine ⟨s', l', m', ps', ?_, hstands, ?_⟩
      · simp only [hm, Option.map_some]
        rw [if_neg (not_or.mpr ⟨hreplace, hbefore⟩), hloop, Option.map_some]
      · rw [hassert, and_iff_left]
        rintro src' ⟨⟩
        exact hone

/-- A call that appends to a mounted name does not come back. -/
theorem unionStep_none (h : s.Stands k l m ps u) (hk : k + 1 < fuel) {c : UnionCall}
    (hc : c.Given fuel s) (hbad : ¬ u.Appendable c) : unionStep fuel s c = none := by
  cases c with
  | map new path tree typeP cwd b =>
    simp only [UnionMap.Appendable, not_or] at hbad
    obtain ⟨hreplace, hbefore, hu⟩ := hbad
    unfold unionStep
    dsimp only
    rw [nmMap_after h (Nat.lt_of_succ_lt hk) hc.1 hc.2.1.1 hreplace hbefore hu, Option.map_none]
  | mount => exact absurd trivial hbad
  | bind new old typeP cwd bs =>
    obtain ⟨⟨hreplace, hbefore⟩, hbs⟩ := hc
    have hfind := nmFindTrees_source h (Nat.lt_of_succ_lt hk) old cwd
    simp only [UnionMap.Appendable, not_forall] at hbad
    obtain ⟨src, hsource, hbad⟩ := hbad
    have hsrc := UnionMap.source_mounted hsource
    obtain ⟨ent, hm⟩ := Option.ne_none_iff_exists'.mp (mt h.none_iff.mp hsrc)
    have hloop := (nmBindLoop_eq src.2 typeP h hk hbs hsrc hm).2 hbad
    unfold unionStep nmBind
    dsimp only
    rw [hfind, Option.bind_some, hsource]
    simp only [hm, Option.map_some]
    rw [if_neg (not_or.mpr ⟨hreplace, hbefore⟩), hloop, Option.map_none]

theorem UnionMap.First.appendable {c : UnionCall} (h : u.First c) : u.Appendable c := by
  cases c with
  | map => exact Or.inr (Or.inr h)
  | mount => exact trivial
  | bind => exact h

/-- The lists after a call, as a system that does not stop. -/
def UnionMap.step (u : UnionMap) (c : UnionCall) : Option UnionMap := some (u.call c)

/-- **What runs do**, from a table that stands for lists. -/
theorem unionRun_iff (calls : List UnionCall) : ∀ (s : MountMap) (k : ℕ) (l : ℕ → List ℕ)
    (m : NameMap) (ps : List Char → List ℕ) (u : UnionMap), s.Stands k l m ps u →
      k + calls.length < fuel → Along (unionStep fuel) (fun s c => c.Given fuel s) s calls →
        ((∃ s', run (unionStep fuel) s calls = some s' ∧ s'.Lists fuel (u.after calls)) ↔
          Along UnionMap.step UnionMap.Appendable u calls) ∧
        ((∃ s', run (unionStep fuel) s calls = some s' ∧ s'.Lists fuel (u.after calls) ∧
            s'.asserted = true) ↔
          s.asserted = true ∧ Along UnionMap.step UnionMap.First u calls) := by
  induction calls with
  | nil =>
    intro s k l m ps u h hk _
    have hlists : s.Lists fuel u := h.lists hk
    refine ⟨iff_of_true ⟨s, rfl, hlists⟩ trivial, ?_⟩
    constructor
    · rintro ⟨s', hs', -, hassert⟩
      cases hs'
      exact ⟨hassert, trivial⟩
    · rintro ⟨hassert, -⟩
      exact ⟨s, rfl, hlists, hassert⟩
  | cons c calls ih =>
    intro s k l m ps u h hk hgiven
    rw [List.length_cons] at hk
    have hnext : ∀ G : UnionMap → UnionCall → Prop, Along UnionMap.step G u (c :: calls) ↔
        G u c ∧ Along UnionMap.step G (u.call c) calls := fun G =>
      and_congr_right fun _ =>
        ⟨fun hall => hall _ rfl, fun hall u' hu' => Option.some.inj hu' ▸ hall⟩
    rw [hnext, hnext]
    by_cases hok : u.Appendable c
    · obtain ⟨s₁, l', m', ps', hstep, hstands, hassert⟩ := unionStep_spec h (by omega) hgiven.1 hok
      have hrun : run (unionStep fuel) s (c :: calls) = run (unionStep fuel) s₁ calls := by
        rw [run, hstep, Option.bind_some]
      obtain ⟨hlists, hflag⟩ := ih s₁ (k + 1) l' m' ps' (u.call c) hstands (by omega)
        (hgiven.2 s₁ hstep)
      rw [hrun]
      refine ⟨hlists.trans (and_iff_right hok).symm, hflag.trans ?_⟩
      rw [hassert, and_assoc]
    · have hrun : run (unionStep fuel) s (c :: calls) = none := by
        rw [run, unionStep_none h (by omega) hgiven.1 hok, Option.bind_none]
      rw [hrun]
      constructor
      · refine iff_of_false ?_ fun hand => hok hand.1
        rintro ⟨_, hs', _⟩
        cases hs'
      · refine iff_of_false ?_ fun hand => hok hand.2.1.appendable
        rintro ⟨_, hs', _⟩
        cases hs'

/-- A new table stands for no lists. -/
theorem stands_nmInit {entries : ℕ} (hentries : 0 < entries) (hashents : Heap HashEnt)
    (ents : Heap NmEnt) : (nmInit entries hashents ents).Stands 0 (fun _ => []) (fun _ => none)
      (fun _ => []) fun _ => [] where
  map := holds_nhInit hentries hashents
  chain _ := rfl
  mounted _ _ hm := nomatch hm
  live _ _ hp := absurd hp List.not_mem_nil
  apart _ _ _ hp := absurd hp List.not_mem_nil
  entries _ := rfl
  trees _ _ he := absurd he List.not_mem_nil
  short := ⟨fun _ => le_rfl, fun _ => le_rfl⟩

/-- No entries at all. -/
def emptyNments : Heap NmEnt where
  cell _ := { tree := 0, path := [], flags := 0, next := 0 }
  live _ := false

/-- A tree is mounted on "/a". -/
def mountA (tree p : ℕ) : UnionCall := .mount ['/', 'a'] tree 0 ['/'] ⟨p, p⟩

/-- What is in "/a" is bound to the name. -/
def bindTo (new : List Char) (p : ℕ) : UnionCall := .bind new ['/', 'a'] 2 ['/'] fun _ => ⟨p, p⟩

end Mungi.Naming
