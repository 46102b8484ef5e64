import Mungi.Lib.Simulation
import Mungi.Naming.Space

/-!
# The name tree

`ns_add`, `ns_del`, `ns_lookup` and `ns_modify` find what a path names and do to its directory what
is to be done.  Memory is asked of the heap, which may refuse it: its answers are part of each call.

A rename takes the entry out of the root directory, whatever directory it is in.  Where that is
another one, an assertion fails, or an entry of the root directory with the same name goes instead
and the renamed one is linked twice; that is no tree any more, and the model ends there.

## Main definitions

* `nsAdd`, `nsDel`, `nsLookup`, `nsModify` — the functions of `nstree.c`.
* `Files`, `filesStep` — what they are for: a map from paths to entries.

## Main results

* `insert_effect`, `delete_effect`, `assign_effect` — what becomes of the entries of a directory.
* `files_same`, `files_removed` — what becomes of the map.
-/

namespace Mungi.Naming

open Paths Walks Runs

/-! ### The code -/

/-- A path or a name, as a string. -/
structure NsPath where
  chars : List (BitVec 8)
  noNul : 0#8 ∉ chars

/-- What the heap answers in a call. -/
structure NsMem where
  /-- There is memory for the copies of paths, one after another. -/
  path : ℕ → Bool
  /-- There is memory for a new entry. -/
  ent : Bool
  /-- There is memory for its name. -/
  copy : Bool
  /-- What memory for another name of an entry reads as: the old name, if that is copied. -/
  realloc : Option NsPath
  /-- How many pages there is memory for. -/
  pages : ℕ
  /-- The address of a new directory. -/
  db : Option ℕ
  /-- There is memory for its pool. -/
  pool : Bool

/-- An empty tree. -/
def emptyTree : NsTree ItemChain := ⟨.null, 0⟩

/-- `strcpy` goes up to the end of the string. -/
def cString (s : List (BitVec 8)) : List (BitVec 8) := s.takeWhile (· ≠ 0#8)

theorem cString_noNul (s : List (BitVec 8)) : 0#8 ∉ cString s := by
  intro h
  have hne := List.mem_takeWhile_imp h
  simp at hne

/-- The new entry of `ns_add`. -/
def newItem (flags value : BitVec 64) (name : List (BitVec 8)) : NsItem where
  value := value
  flags := flags
  name := cString name
  hash := hashpjw (cString name)
  noNul := cString_noNul name
  child := none

/-- The name of an entry. -/
def NsItem.path (ent : NsItem) : NsPath := ⟨ent.name, ent.noNul⟩

/-- The entry with its name in other memory. -/
def NsItem.buffer (ent : NsItem) (name : NsPath) : NsItem :=
  { ent with name := name.chars, noNul := name.noNul }

/-- The entry under another name. -/
def NsItem.rename (ent : NsItem) (name : List (BitVec 8)) : NsItem where
  value := ent.value
  flags := ent.flags
  name := cString name
  hash := hashpjw (cString name)
  noNul := cString_noNul name
  child := ent.child

/-- `ns_create`: the root directory at an address. -/
def nsCreate (a : ℕ) : NsSpace := ⟨Function.update (fun _ => none) a (some emptyTree), a⟩

/-- The directory that was found, with its tree. -/
def NsWalk.dir (w : NsWalk) (s : NsSpace) : Option (ℕ × NsTree ItemChain) :=
  w.tree.bind fun d => (s.dirs d).map fun t => (d, t)

/-- What is returned where nothing was found. -/
def stopped (s : NsSpace) : NsStop → Option (NsCode × NsSpace)
  | .notFound => some (.fail, s)
  | .abort => none

section Code
variable (L : FlagLayout) (s : NsSpace) (m : NsMem)

/-- `ns_add` -/
def nsAdd (path : NsPath) (flags value : BitVec 64) : Option (NsCode × NsSpace) :=
  match nsFindR L s .parent (m.path 0) path.chars with
  | .error e => stopped s e
  | .ok w =>
    if m.ent = false then some (.fail, s)
    else if m.copy = false then some (.fail, s)
    else
      (w.dir s).bind fun x =>
        (nsInsertEnt x.2 (newItem flags value w.rest) m.pages).map fun r =>
          (r.1, s.setDir x.1 (some r.2))

/-- `ns_del` -/
def nsDel (path : NsPath) : Option (NsCode × NsSpace) :=
  match nsFindR L s .parent (m.path 0) path.chars with
  | .error e => stopped s e
  | .ok w =>
    (w.dir s).bind fun x =>
      (nsDeleteEnt x.2 w.rest).map fun r => (r.1, s.setDir x.1 (some r.2.1))

/-- `ns_lookup`: its code, and `*data`, which is null for the root directory. -/
def nsLookup (path : NsPath) : Option (NsCode × Option NsItem) :=
  match nsFindR L s .item (m.path 0) path.chars with
  | .error .abort => none
  | .error .notFound => some (.fail, none)
  | .ok w => some (.ok, w.data.map fun x => x.2.ent)

/-- `BTEmpty` for a tree. -/
def nsBtEmpty (t : NsTree ItemChain) : BTRet :=
  match t.root with
  | .null => .notFound
  | _ => .ok

/-- What `ns_modify` does about the flag of a directory: the entry that it leaves, or the code that
it returns at once. -/
def nsModifyDir (ent : NsItem) (flags : BitVec 64) : Option (Except NsCode (NsSpace × NsItem)) :=
  if L.isDir ent.flags = L.isDir flags then some (.ok (s, ent))
  else if L.isDir flags then
    match m.db with
    | none => some (.error .fail)
    | some db =>
      -- `return NULL` is `NST_OK`
      if m.pool = false then some (.error .ok)
      else some (.ok (s.setDir db (some emptyTree),
        { ent with child := some db, flags := L.setDir ent.flags true }))
  else
    match ent.child with
    -- `BTEmpty` returns `BT_INVALID`
    | none => some (.error .fail)
    | some c =>
      match s.dirs c with
      | none => none
      | some t =>
        if nsBtEmpty t ≠ .notFound then some (.error .fail)
        else some (.ok (s.setDir c none,
          { ent with child := none, flags := L.setDir ent.flags false }))

/-- What `ns_modify` does to an entry before it renames it.  The name is in other memory then, and is
the one that is there. -/
def nsModifyData (d : ℕ) (f : NsFound) (name : NsPath) (flags value : BitVec 64) :
    Option (Except NsCode (NsSpace × NsItem)) :=
  match nsModifyDir L s m (f.ent.buffer name) flags with
  | none => none
  | some (.error code) => some (.error code)
  | some (.ok r) =>
    let ent := { r.2 with flags := L.setUser r.2.flags flags, value := value }
    (r.1.dirs d).map fun t =>
      .ok (r.1.setDir d (some (nsAssign t f.ent.hash (f.before ++ ent :: f.after))), ent)

/-- The checks of `ns_modify` before it renames: the directory of the new name and the memory for it,
or the code that it returns at once. -/
def nsRenameTo (newname : NsPath) : Option (Except NsCode (NsWalk × NsPath)) :=
  match nsFindR L s .item (m.path 1) newname.chars with
  | .error .abort => none
  | .ok _ => some (.error .fail)
  | .error .notFound =>
    match nsFindR L s .parent (m.path 2) newname.chars with
    | .error .abort => none
    | .error .notFound => some (.error .fail)
    | .ok w =>
      match m.realloc with
      | none => some (.error .fail)
      | some name => some (.ok (w, name))

/-- The rename of `ns_modify`. -/
def nsMove (name : NsPath) (d : ℕ) (ent : NsItem) (w : NsWalk) : Option NsSpace :=
  match nsFindR L s .parent (m.path 3) name.chars with
  | .error _ => none
  | .ok _ =>
    -- the entry is taken for one of the root directory
    if d ≠ s.root then none
    else
      (s.dirs s.root).bind fun t =>
        match nsDeleteEnt t ent.name with
        | some (.ok, t', _) =>
          let s := s.setDir s.root (some t')
          (w.dir s).bind fun x =>
            match nsInsertEnt x.2 (ent.rename w.rest) m.pages with
            | some (.ok, t'') => some (s.setDir x.1 (some t''))
            | _ => none
        | _ => none

/-- The name of an entry is in other memory. -/
def nsBuffer (d : ℕ) (f : NsFound) (name : NsPath) : Option NsSpace :=
  (s.dirs d).map fun t =>
    s.setDir d (some (nsAssign t f.ent.hash (f.before ++ f.ent.buffer name :: f.after)))

/-- `ns_modify` -/
def nsModify (name : NsPath) (flags value : BitVec 64) (newname : Option NsPath) :
    Option (NsCode × NsSpace) :=
  match nsFindR L s .item (m.path 0) name.chars with
  | .error e => stopped s e
  | .ok w =>
    match w.data with
    | none => none
    | some x =>
      match newname.filter (fun n => n.chars ≠ name.chars) with
      | none =>
        (nsModifyData L s m x.1 x.2 x.2.ent.path flags value).map fun r =>
          match r with
          | .error code => (code, s)
          | .ok r => (.ok, r.1)
      | some newname =>
        (nsRenameTo L s m newname).bind fun r =>
          match r with
          | .error code => some (code, s)
          | .ok dest =>
            (nsModifyData L s m x.1 x.2 dest.2 flags value).bind fun r =>
              match r with
              | .error code => (nsBuffer s x.1 x.2 dest.2).map fun s => (code, s)
              | .ok r => (nsMove L r.1 m name x.1 r.2 dest.1).map fun s => (.ok, s)

end Code

/-! ### Calls -/

/-- Calls of the interface. -/
inductive NsOp where
  | add (path : NsPath) (flags value : BitVec 64)
  | del (path : NsPath)
  | lookup (path : NsPath)
  | modify (name : NsPath) (flags value : BitVec 64) (newname : Option NsPath)

/-- A call, with what the heap answers in it. -/
structure NsCall where
  op : NsOp
  mem : NsMem

/-- The value and the flags of an entry. -/
structure NsNode where
  value : BitVec 64
  flags : BitVec 64

/-- The node of an entry. -/
def NsItem.node (e : NsItem) : NsNode := ⟨e.value, e.flags⟩

/-- What a call returns: its code, and what `*data` leads to for a lookup that finds something; that
is nothing for the root directory. -/
structure NsReply where
  code : NsCode
  data : Option NsNode

/-- A call; none when an assertion fails or no tree is left. -/
def nsStep (L : FlagLayout) (s : NsSpace) (a : NsCall) : Option (NsSpace × NsReply) :=
  match a.op with
  | .add path flags value => (nsAdd L s a.mem path flags value).map fun r => (r.2, ⟨r.1, none⟩)
  | .del path => (nsDel L s a.mem path).map fun r => (r.2, ⟨r.1, none⟩)
  | .lookup path =>
    (nsLookup L s a.mem path).map fun r => (s, ⟨r.1, r.2.map NsItem.node⟩)
  | .modify name flags value newname =>
    (nsModify L s a.mem name flags value newname).map fun r => (r.2, ⟨r.1, none⟩)

/-! ### What it is for -/

/-- **Entries by their paths.** -/
def Files : Type := List (List (BitVec 8)) → Option NsNode

/-- The path is that of a directory. -/
def Files.IsDir (L : FlagLayout) (fs : Files) (p : List (List (BitVec 8))) : Prop :=
  p = [] ∨ ∃ n, fs p = some n ∧ L.isDir n.flags = true

/-- The path of an entry that is to be made or taken out. -/
def NsPath.target (path : NsPath) : List (List (BitVec 8)) :=
  pathDirs path.chars ++ [pathBase path.chars]

/-- The path of what is looked up. -/
def NsPath.names (path : NsPath) : List (List (BitVec 8)) := components slashByte path.chars

/-- An entry gets a node. -/
def Files.set (fs : Files) (p : List (List (BitVec 8))) (n : NsNode) : Files :=
  fun q => if q = p then some n else fs q

/-- An entry goes, with all below it. -/
def Files.remove (fs : Files) (p : List (List (BitVec 8))) : Files :=
  fun q => if p <+: q then none else fs q

/-- An entry moves, with all below it. -/
def Files.move (fs : Files) (p p' : List (List (BitVec 8))) : Files :=
  fun q => if p' <+: q then fs (p ++ q.drop p'.length) else fs.remove p q

open Classical in
/-- What a path leads to: nothing, the root directory or an entry. -/
noncomputable def Files.find (L : FlagLayout) (fs : Files) (path : NsPath) :
    Option (Option NsNode) :=
  if path.names = [] then some none
  else if pathBase path.chars = [] ∧ ¬ fs.IsDir L path.names then none
  else (fs path.names).map some

/-- The new name can be given. -/
def Files.CanName (L : FlagLayout) (fs : Files) (m : NsMem) (newname : NsPath) : Prop :=
  fs.find L newname = none ∧ fs.IsDir L (pathDirs newname.chars) ∧ m.realloc ≠ none

/-- The flag of a directory cannot be changed: there is no memory, or something below it. -/
def Files.Stuck (L : FlagLayout) (fs : Files) (m : NsMem) (p : List (List (BitVec 8)))
    (n : NsNode) (flags : BitVec 64) : Prop :=
  L.isDir n.flags ≠ L.isDir flags ∧
    (L.isDir flags = true ∧ m.db = none ∨ L.isDir flags = false ∧ ∃ x, fs (p ++ [x]) ≠ none)

open Classical in
/-- **How calls are to be answered.** -/
noncomputable def filesStep (L : FlagLayout) (fs : Files) (a : NsCall) : Files × NsReply :=
  match a.op with
  | .add path flags value =>
    if a.mem.path 0 = true ∧ a.mem.ent = true ∧ a.mem.copy = true ∧
        fs.IsDir L (pathDirs path.chars) ∧ fs path.target = none then
      (fs.set path.target ⟨value, flags⟩, ⟨.ok, none⟩)
    else (fs, ⟨.fail, none⟩)
  | .del path =>
    if a.mem.path 0 = true ∧ fs path.target ≠ none then (fs.remove path.target, ⟨.ok, none⟩)
    else (fs, ⟨.fail, none⟩)
  | .lookup path =>
    match (if a.mem.path 0 = true then fs.find L path else none) with
    | none => (fs, ⟨.fail, none⟩)
    | some data => (fs, ⟨.ok, data⟩)
  | .modify name flags value newname =>
    match (if a.mem.path 0 = true then fs.find L name else none) with
    | some (some n) =>
      let newname := newname.filter fun w => w.chars ≠ name.chars
      if (∃ w, newname = some w ∧ ¬ fs.CanName L a.mem w) ∨
          fs.Stuck L a.mem name.names n flags then
        (fs, ⟨.fail, none⟩)
      else
        let fs := fs.set name.names
          ⟨value, L.setUser (L.setDir n.flags (L.isDir flags)) flags⟩
        match newname with
        | none => (fs, ⟨.ok, none⟩)
        | some w => (fs.move name.names w.target, ⟨.ok, none⟩)
    | _ => (fs, ⟨.fail, none⟩)

/-! ### What becomes of the entries -/

/-- The entries by their paths. -/
def NsSpace.files (s : NsSpace) : Files := fun p => (s.under p).map NsItem.node

section Views
variable {L : FlagLayout} {s : NsSpace} {d : ℕ} {n : List (BitVec 8)} {t t' : NsTree ItemChain}
  {items : List NsItem} {v : Option NsItem} {p : List (List (BitVec 8))}

theorem NsSpace.setDir_self (s : NsSpace) (d : ℕ) (x : Option (NsTree ItemChain)) :
    (s.setDir d x).dirs d = x := Function.update_self ..

theorem NsSpace.setDir_of_ne {d' : ℕ} (h : d' ≠ d) (s : NsSpace) (x : Option (NsTree ItemChain)) :
    (s.setDir d x).dirs d' = s.dirs d' := Function.update_of_ne h ..

@[simp] theorem NsSpace.setDir_root (s : NsSpace) (d : ℕ) (x : Option (NsTree ItemChain)) :
    (s.setDir d x).root = s.root := rfl

/-- A directory with other entries under the hash of a name, of which only those with this name
differ. -/
theorem entry_setDir (ht : s.dirs d = some t)
    (hb : t'.bucket = Function.update t.bucket (hashpjw n) items)
    (hv : (items.find? fun e => e.name = n) = v)
    (hother : ∀ m, m ≠ n → hashpjw m = hashpjw n →
      (items.find? fun e => e.name = m) = (t.bucket (hashpjw n)).find? fun e => e.name = m) :
    (s.setDir d (some t')).entry = relabel s.entry d n v := by
  funext x m
  by_cases hx : x = d
  · subst hx
    rw [NsSpace.entry_eq (s.setDir_self x (some t')), hb]
    by_cases hm : m = n
    · rw [hm, Function.update_self, relabel_self, hv]
    · rw [relabel_of_ne fun h => hm h.2, NsSpace.entry_eq ht]
      by_cases hhash : hashpjw m = hashpjw n
      · rw [hhash, Function.update_self, hother m hm hhash]
      · rw [Function.update_of_ne hhash]
  · rw [relabel_of_ne fun h => hx h.1]
    unfold NsSpace.entry
    rw [NsSpace.setDir_of_ne hx]

/-- A directory without entries, or no directory, where there were no entries. -/
theorem entry_setDir_empty (hd : ∀ m, s.entry d m = none) {x : Option (NsTree ItemChain)}
    (hx : ∀ t, x = some t → ∀ h, t.bucket h = []) : (s.setDir d x).entry = s.entry := by
  funext y m
  by_cases hy : y = d
  · rw [hy, hd]
    unfold NsSpace.entry
    rw [NsSpace.setDir_self]
    cases x with
    | none => rfl
    | some t =>
      rw [Option.bind_some, hx t rfl]
      rfl
  · unfold NsSpace.entry
    rw [NsSpace.setDir_of_ne hy]

/-- Only places that are reached count. -/
theorem NsOk.setDir_unreached (hs : NsOk L s) (hd : ∀ p, s.at p ≠ some d)
    {x : Option (NsTree ItemChain)} (hentry : (s.setDir d x).entry = s.entry) :
    NsOk L (s.setDir d x) := by
  have hat : (s.setDir d x).at = s.at := by
    unfold NsSpace.at
    rw [hentry]
    rfl
  refine ⟨fun p d' hp => ?_, ?_⟩
  · rw [hat] at hp
    have hne : d' ≠ d := fun h => hd p (hp.trans (congrArg some h))
    rw [NsSpace.setDir_of_ne hne]
    exact hs.dir p d' hp
  · rw [hentry]
    exact hs.unshared

/-- A directory that is assigned to, when all that is reached afterwards was reached before. -/
theorem NsOk.setDir (ht' : NsDirOk L t')
    (hentry : (s.setDir d (some t')).entry = relabel s.entry d n v)
    (hun : Unshared (relabel s.entry d n v) NsItem.child s.root)
    (hdirs : ∀ q x, walk (relabel s.entry d n v) NsItem.child s.root q = some x → x ≠ d →
      ∃ t, s.dirs x = some t ∧ NsDirOk L t) : NsOk L (s.setDir d (some t')) := by
  refine ⟨fun q x hx => ?_, ?_⟩
  · unfold NsSpace.at at hx
    rw [hentry] at hx
    by_cases hxd : x = d
    · exact ⟨t', by rw [hxd, NsSpace.setDir_self], ht'⟩
    · rw [NsSpace.setDir_of_ne hxd]
      exact hdirs q x hx hxd
  · rw [hentry]
    exact hun

/-- A directory in which the entries with a hash are others. -/
theorem NsDirOk.of_bucket (ht : NsDirOk L t) (hok : DirOk t') {h : ℕ}
    (hb : t'.bucket = Function.update t.bucket h items)
    (hdistinct : (items.map fun e => e.name).Nodup)
    (hdir : ∀ e ∈ items, L.isDir e.flags = e.child.isSome) : NsDirOk L t' := by
  refine ⟨hok, fun h' => ?_, fun h' e he => ?_⟩
  · rw [hb]
    by_cases heq : h' = h
    · rw [heq, Function.update_self]
      exact hdistinct
    · rw [Function.update_of_ne heq]
      exact ht.distinct h'
  · rw [hb] at he
    by_cases heq : h' = h
    · rw [heq, Function.update_self] at he
      exact hdir e he
    · rw [Function.update_of_ne heq] at he
      exact ht.dir h' e he

variable (hok : NsDirOk L t) (ht : s.dirs d = some t)
include hok ht

/-- **An entry put in**, unless the name is there. -/
theorem insert_effect {ent : NsItem} {pages : ℕ} (hhash : hashpjw ent.name = ent.hash)
    (hdir : L.isDir ent.flags = ent.child.isSome) (hpages : t.depth < pages)
    (hins : Inserts itemConf t ⟨ent, []⟩)
    (hlast : ∀ e, (t.bucket ent.hash).getLast? = some e → e.name ≠ ent.name) :
    (s.entry d ent.name ≠ none ∧ nsInsertEnt t ent pages = some (.fail, t)) ∨
      (s.entry d ent.name = none ∧ ∃ t', nsInsertEnt t ent pages = some (.ok, t') ∧ NsDirOk L t' ∧
        (s.setDir d (some t')).entry = relabel s.entry d ent.name (some ent)) := by
  have hfind : s.entry d ent.name = (t.bucket ent.hash).find? fun e => e.name = ent.name := by
    rw [NsSpace.entry_eq ht, hhash]
  -- the loop does not see the last entry of the chain
  have hholds : chainHolds ent.name (t.bucket ent.hash) = false ↔ s.entry d ent.name = none := by
    rw [hfind, List.find?_eq_none, ← Bool.not_eq_true, chainHolds_iff]
    simp only [decide_eq_true_eq, not_exists, not_and]
    refine ⟨fun h e he => ?_, fun h e he => h e (List.mem_of_mem_dropLast he)⟩
    have hne := List.ne_nil_of_mem he
    rw [← List.dropLast_append_getLast hne] at he
    rcases List.mem_append.mp he with he | he
    · exact h e he
    · rw [List.mem_singleton.mp he]
      exact hlast _ (List.getLast?_eq_some_getLast hne)
  rcases nsInsertEnt_spec hok.toDirOk hhash hpages hins with ⟨hyes, hres⟩ | ⟨hno, t', hres, hok', hb⟩
  · refine Or.inl ⟨fun h => ?_, hres⟩
    rw [hholds.mpr h] at hyes
    cases hyes
  · have hnone := hholds.mp hno
    have habsent := hfind.symm.trans hnone
    refine Or.inr ⟨hnone, t', hres, hok.of_bucket hok' hb ?_ ?_, ?_⟩
    · rw [List.map_append, List.nodup_append]
      refine ⟨hok.distinct _, List.nodup_singleton _, ?_⟩
      intro a ha b hb heq
      obtain ⟨e, he, rfl⟩ := List.mem_map.mp ha
      have hne := List.find?_eq_none.mp habsent e he
      rw [List.map_singleton, List.mem_singleton] at hb
      exact hne (by simpa using heq.trans hb)
    · intro e he
      rcases List.mem_append.mp he with he | he
      · exact hok.dir _ e he
      · rw [List.mem_singleton.mp he]
        exact hdir
    · rw [← hhash] at hb
      refine entry_setDir ht hb ?_ fun m hm _ => ?_
      · rw [hhash, List.find?_append, habsent]
        simp
      · rw [List.find?_append]
        simp [Ne.symm hm]

variable {f : NsFound} (hfound : s.FoundAt d n f)
include hfound

omit hok in
theorem found_bucket : t.bucket (hashpjw n) = f.before ++ f.ent :: f.after ∧ f.ent.name = n ∧
    ∀ e ∈ f.before, e.name ≠ n := by
  obtain ⟨t₀, ht₀, hfind⟩ := hfound
  obtain rfl : t₀ = t := Option.some.inj (ht₀.symm.trans ht)
  obtain ⟨l₁, hbefore, hlist, hname, hnone⟩ := chainFind_some hfind
  rw [List.nil_append] at hbefore
  rw [hbefore]
  exact ⟨hlist, hname, hnone⟩

/-- **An entry taken out.** -/
theorem delete_effect
    (hover : f.before = [] → f.after = [] → nsOverruns itemConf (hashpjw n) t.root = false) :
    ∃ t', nsDeleteEnt t n = some (.ok, t', some f.ent) ∧ NsDirOk L t' ∧
      (s.setDir d (some t')).entry = relabel s.entry d n none := by
  obtain ⟨hlist, hname, hbefore⟩ := found_bucket ht hfound
  obtain ⟨t₀, ht₀, hfind⟩ := hfound
  obtain rfl : t₀ = t := Option.some.inj (ht₀.symm.trans ht)
  obtain ⟨t', hres, hok', hb⟩ := nsDeleteEnt_spec hok.toDirOk hfind hover
  have hdistinct := hok.distinct (hashpjw n)
  rw [hlist, List.map_append, List.map_cons, List.nodup_append, List.nodup_cons] at hdistinct
  obtain ⟨hd₁, ⟨hafter, hd₂⟩, hd₁₂⟩ := hdistinct
  refine ⟨t', hres, hok.of_bucket hok' hb ?_ ?_, entry_setDir ht hb ?_ fun m hm _ => ?_⟩
  · rw [List.map_append, List.nodup_append]
    exact ⟨hd₁, hd₂, fun a ha b hb => hd₁₂ a ha b (List.mem_cons_of_mem _ hb)⟩
  · intro e he
    refine hok.dir (hashpjw n) e ?_
    rw [hlist]
    simp only [List.mem_append, List.mem_cons] at he ⊢
    tauto
  · rw [List.find?_eq_none]
    intro e he
    rw [decide_eq_true_eq]
    rcases List.mem_append.mp he with he | he
    · exact hbefore e he
    · rw [← hname]
      exact fun heq => hafter (heq ▸ List.mem_map_of_mem he)
  · rw [hlist, List.find?_append, List.find?_append, List.find?_cons, hname,
      decide_eq_false (Ne.symm hm)]

/-- **An entry assigned to.** -/
theorem assign_effect {ent : NsItem} (hname : ent.name = n) (hhash : ent.hash = f.ent.hash)
    (hdir : L.isDir ent.flags = ent.child.isSome) :
    NsDirOk L (nsAssign t f.ent.hash (f.before ++ ent :: f.after)) ∧
      (s.setDir d (some (nsAssign t f.ent.hash (f.before ++ ent :: f.after)))).entry =
        relabel s.entry d n (some ent) := by
  obtain ⟨hlist, hname', hbefore⟩ := found_bucket ht hfound
  have hmem : f.ent ∈ t.bucket (hashpjw n) := by
    rw [hlist]
    simp
  obtain ⟨hhash', -⟩ := hok.of_mem_bucket hmem
  rw [hhash']
  have hall : ∀ e ∈ f.before ++ ent :: f.after, e.hash = hashpjw n ∧ hashpjw e.name = hashpjw n := by
    intro e he
    by_cases heq : e = ent
    · rw [heq, hname, hhash, hhash']
      exact ⟨rfl, rfl⟩
    · refine hok.of_mem_bucket ?_
      rw [hlist]
      simp only [List.mem_append, List.mem_cons] at he ⊢
      tauto
  obtain ⟨hok', hb⟩ := nsAssign_spec hok.toDirOk (List.ne_nil_of_mem hmem) (by simp) hall
  refine ⟨hok.of_bucket hok' hb ?_ ?_, entry_setDir ht hb ?_ fun m hm _ => ?_⟩
  · have hdistinct := hok.distinct (hashpjw n)
    rw [hlist] at hdistinct
    simpa [hname, hname'] using hdistinct
  · intro e he
    by_cases heq : e = ent
    · rw [heq]
      exact hdir
    · refine hok.dir (hashpjw n) e ?_
      rw [hlist]
      simp only [List.mem_append, List.mem_cons] at he ⊢
      tauto
  · have hnone : (f.before.find? fun e => e.name = n) = none :=
      List.find?_eq_none.mpr fun e he => by simpa using hbefore e he
    rw [List.find?_append, hnone, List.find?_cons, decide_eq_true hname]
    rfl
  · rw [hlist, List.find?_append, List.find?_append, List.find?_cons, List.find?_cons, hname, hname',
      decide_eq_false (Ne.symm hm)]

end Views

/-! ### What becomes of the map -/

section Maps
variable {L : FlagLayout} {s : NsSpace} {d : ℕ} {n : List (BitVec 8)} {t t' : NsTree ItemChain}
  {v : Option NsItem} {ent : NsItem} {p q : List (List (BitVec 8))}

theorem files_concat (hq : s.at q = some d) (n : List (BitVec 8)) :
    s.files (q ++ [n]) = (s.entry d n).map NsItem.node := by
  unfold NsSpace.at at hq
  unfold NsSpace.files NsSpace.under
  rw [under_concat, hq]
  rfl

theorem files_concat_none (hq : s.at q = none) (n : List (BitVec 8)) : s.files (q ++ [n]) = none := by
  unfold NsSpace.at at hq
  unfold NsSpace.files NsSpace.under
  rw [under_concat, hq]
  rfl

/-- The entry under names is in the directory that the names in front lead to. -/
theorem NsOk.under_mem (hs : NsOk L s) (h : s.under (q ++ [n]) = some ent) :
    ∃ x t, s.at q = some x ∧ s.dirs x = some t ∧ NsDirOk L t ∧ s.entry x n = some ent ∧
      ent ∈ t.bucket (hashpjw n) := by
  unfold NsSpace.under at h
  rw [under_concat] at h
  obtain ⟨x, hx, hent⟩ := Option.bind_eq_some_iff.mp h
  obtain ⟨t, ht, hok⟩ := hs.dir q x hx
  refine ⟨x, t, hx, ht, hok, hent, ?_⟩
  rw [NsSpace.entry_eq ht] at hent
  exact List.mem_of_find?_eq_some hent

/-- Directories are the places that there are. -/
theorem NsOk.isDir_iff (hs : NsOk L s) (p : List (List (BitVec 8))) :
    s.files.IsDir L p ↔ s.at p ≠ none := by
  unfold Files.IsDir
  rcases List.eq_nil_or_concat p with rfl | ⟨q, n, rfl⟩
  · exact iff_of_true (Or.inl rfl) (Option.some_ne_none s.root)
  · rw [List.concat_eq_append, or_iff_right (by simp)]
    have hat : s.at (q ++ [n]) = (s.under (q ++ [n])).bind NsItem.child := walk_eq_under q n
    rw [hat]
    unfold NsSpace.files
    cases hunder : s.under (q ++ [n]) with
    | none => simp
    | some ent =>
      obtain ⟨x, t, -, -, hok, -, hmem⟩ := hs.under_mem hunder
      have hdir := hok.dir _ ent hmem
      rw [Option.bind_some, Option.ne_none_iff_isSome, ← hdir]
      simp [NsItem.node]

variable (hs : NsOk L s) (hp : s.at p = some d) (ht' : NsDirOk L t')
  (hentry : (s.setDir d (some t')).entry = relabel s.entry d n v)
include hs hp hentry

omit hs hp in
/-- The map after an assignment. -/
theorem files_setDir (q : List (List (BitVec 8))) : (s.setDir d (some t')).files q =
    (Walks.under (relabel s.entry d n v) NsItem.child s.root q).map NsItem.node := by
  unfold NsSpace.files NsSpace.under
  rw [hentry]
  rfl

/-- **An entry that leads where the old one did.** -/
theorem files_same (hv : v = some ent) (hsame : v.bind NsItem.child =
    (s.entry d n).bind NsItem.child) :
    (s.setDir d (some t')).files = s.files.set (p ++ [n]) ent.node := by
  funext q
  rw [files_setDir hentry, under_relabel_same hs.unshared hp hsame]
  unfold Files.set NsSpace.files NsSpace.under
  by_cases hq : q = p ++ [n]
  · rw [if_pos hq, if_pos hq, hv]
    rfl
  · rw [if_neg hq, if_neg hq]

include ht' in
omit hp in
theorem NsOk.same (hsame : v.bind NsItem.child = (s.entry d n).bind NsItem.child) :
    NsOk L (s.setDir d (some t')) := by
  refine NsOk.setDir ht' hentry (hs.unshared.relabel_same hsame) fun q x hx _ => ?_
  rw [walk_relabel_same hsame] at hx
  exact hs.dir q x hx

/-- **An entry that is taken out.** -/
theorem files_removed (hv : v = none) :
    (s.setDir d (some t')).files = s.files.remove (p ++ [n]) := by
  funext q
  rw [files_setDir hentry, under_relabel_dead hs.unshared hp (by rw [hv]; rfl)]
  unfold Files.remove NsSpace.files NsSpace.under
  by_cases hq : q = p ++ [n]
  · rw [if_pos hq, hv, hq, if_pos (List.prefix_refl _)]
    rfl
  · rw [if_neg hq]
    split <;> rfl

include ht' in
theorem NsOk.dead (hv : v.bind NsItem.child = none) : NsOk L (s.setDir d (some t')) := by
  refine NsOk.setDir ht' hentry (Unshared.relabel_dead hs.unshared hp hv) fun q x hx _ => ?_
  by_cases hpre : (p ++ [n]) <+: q
  · obtain ⟨l, rfl⟩ := hpre
    rw [walk_relabel_through hs.unshared hp, hv] at hx
    cases hx
  · rw [walk_relabel_elsewhere hs.unshared hp hpre] at hx
    exact hs.dir q x hx

end Maps

end Mungi.Naming
