import Mungi.Naming.Unions
import Mungi.Posix.Descriptors
import Mungi.Posix.ObjectFiles

/-!
# Opening files

`open` looks a name up, creates an object with a name where there is none, and opens the object
(`posix.c`).  A name is looked up in the first of the trees behind it that may be read and has it,
and created in the first one that may be written and does not (`namemap.c`).

`open` fails for `O_CREAT` with `O_EXCL` where the name does not exist, instead of where it does.
As `O_RDONLY` is 0, `_objfile_open` finds it in all flags.

Name trees and objects are finite maps here.

## Main definitions

* `nmStat`, `nmAddname`, `posixOpen` — the functions.
* `Opened` — `open` does what it is meant to.
* `Openable` — what it does right.

## Main results

* `nmStat_nmAddname` — when a name that is created is found.
* `posixOpen_iff` — **`open` does what it is meant to, if and only if the call is one that it does
  right.**
-/

namespace Mungi.Posix

open Naming Slots

/-! ### The code -/

/-- What a tree has for a name. -/
structure NsValue where
  value : ℕ
  flags : ℕ
  deriving DecidableEq

/-- The mounted trees, the current directory, and the trees as finite maps. -/
structure NameSpace where
  mounts : UnionMap
  cwd : List Char
  tree : ℕ → List Char → Option NsValue

/-- `nm_stat_t` -/
structure NmStat where
  stDev : ℕ
  stFlags : ℕ
  stIno : ℕ
  deriving DecidableEq

/-- What `nm_find_trees` finds: the trees behind the path, and the relative name. -/
def NameSpace.trees (n : NameSpace) (path : List Char) : Option (List Mounted × List Char) :=
  (n.mounts.source path n.cwd).map fun src => (n.mounts src.1, src.2)

/-- What `nm_stat` does with a tree: it is left out if it may not be read. -/
def NameSpace.look (n : NameSpace) (rel : List Char) (m : Mounted) : Option NmStat :=
  if m.flags &&& nmfNoread ≠ 0 then none
  else (n.tree m.tree rel).map fun e => { stDev := m.tree, stFlags := e.flags, stIno := e.value }

/-- `nm_stat` -/
def nmStat (n : NameSpace) (path : List Char) : Option NmStat :=
  (n.trees path).bind fun (trees, rel) => trees.findSome? (n.look rel)

/-- The tree that `nm_addname` takes, with the relative name: `int_create` fails where the tree has
the name. -/
def NameSpace.target (n : NameSpace) (path : List Char) : Option (ℕ × List Char) :=
  (n.trees path).bind fun (trees, rel) =>
    (trees.find? fun m => m.flags &&& nmfNowrite = 0 ∧ n.tree m.tree rel = none).map fun m =>
      (m.tree, rel)

/-- `nm_addname` -/
def nmAddname (n : NameSpace) (path : List Char) (value flags : ℕ) : NhCode × NameSpace :=
  match n.target path with
  | none => (.fail, n)
  | some (tree, rel) => (.ok, { n with
      tree := Function.update n.tree tree
        (Function.update (n.tree tree) rel (some { value := value, flags := flags })) })

/-- An object, as a file: whether it is one, and what `ObjInfo` finds, 0 where that fails. -/
structure FileObj where
  magic : Bool
  length : ℕ
  file : ObjFile

/-- The name space, the objects that can be read and written, and the table of open files. -/
structure World where
  names : NameSpace
  objs : ℕ → Option FileObj
  table : DescTable (ℕ × ObjFdesc)

/-- What `open` finds when it is called: what `ObjCreate` returns, whether its capability is added,
what is in a new object, what is on the stack for `ret.st_ino` and for the flags, and what `malloc`
returns. -/
structure OpenEnv where
  addr : ℕ
  capped : Bool
  data : ℕ → BitVec 8
  ino : ℕ
  stack : ObjFlags
  new : ℕ

/-- `DEFAULT_FILE_SIZE` -/
def defaultFileSize : ℕ := 1024 * 1024

variable (w : World) (e : OpenEnv)

/-- A new object, which becomes a file when its capability is added. -/
def newFile : FileObj where
  magic := e.capped
  length := defaultFileSize + pageSize
  file := { stSize := 0, data := e.data }

/-- `_objfile_create` -/
def objfileCreate : ℕ × World :=
  if e.addr = 0 then (0, w)
  else (if e.capped then e.addr else 0,
    { w with objs := Function.update w.objs e.addr (some (newFile e)) })

/-- `is_objfile`, with what it finds. -/
def World.fileAt (addr : ℕ) : Option FileObj :=
  (w.objs addr).bind fun obj => if obj.magic then some obj else none

/-- `_objfile_delete` -/
def objfileDelete (addr : ℕ) : World :=
  match w.fileAt addr with
  | none => w
  | some _ => { w with objs := Function.update w.objs addr none }

/-- `_objfile_open` -/
def objfileOpenAt (addr oflags : ℕ) : Option (ℤ × World) :=
  match w.fileAt addr with
  | none => some (-1, w)
  | some obj =>
    let r := objfileOpen obj.magic obj.length oflags e.stack obj.file
    let w := { w with objs := Function.update w.objs addr (some { obj with file := r.1 }) }
    match r.2 with
    | none => some (-1, w)
    | some desc =>
      (oftAdd w.table { refCount := 0, type := ftUfile, data := (addr, desc) } e.new).map
        fun (r, table) => (r, { w with table := table })

/-- A file is created where there is no name: what is in `ret.st_ino` then, and whether `open` gives
up. -/
def createNamed (path : List Char) (oExcl : Bool) : World × ℕ × Bool :=
  let (fileAddr, w) := objfileCreate w e
  let w := { w with names := (nmAddname w.names path fileAddr 0).2 }
  let stIno := ((nmStat w.names path).map NmStat.stIno).getD e.ino
  if stIno ≠ fileAddr then (objfileDelete w fileAddr, stIno, oExcl) else (w, stIno, false)

/-- `open` -/
def posixOpen (path : List Char) (oflag : ℕ) : Option (ℤ × World) :=
  let creat := hasFlag oflag oCreat
  let excl := hasFlag oflag oExcl
  let r := nmStat w.names path
  if r = none ∧ creat = false then some (-1, w)
  else if r = none ∧ creat = true ∧ excl = true then some (-1, w)
  else
    let (w, stIno, stop) :=
      match r with
      | some ret => (w, ret.stIno, false)
      | none => createNamed w e path excl
    if stop then some (-1, w)
    else if stIno = 0 then some (-1, w)
    else objfileOpenAt w e stIno oflag

/-! ### What `open` is meant to do -/

/-- `O_ACCMODE` -/
def oAccmode : ℕ := 3

/-- A descriptor permits what it was opened for. -/
def FlagsRight (oflag : ℕ) (flags : ObjFlags) : Prop :=
  (flags.read = true ↔ oflag &&& oAccmode = oRdonly ∨ oflag &&& oAccmode = oRdwr) ∧
  (flags.write = true ↔ oflag &&& oAccmode = oWronly ∨ oflag &&& oAccmode = oRdwr) ∧
  (flags.append = true ↔ hasFlag oflag oAppend = true)

/-- The file that a name has, if it can be opened. -/
def World.named (path : List Char) : Option FileObj :=
  (nmStat w.names path).bind fun st =>
    if st.stIno = 0 then none
    else (w.fileAt st.stIno).bind fun obj => if obj.length = 0 then none else some obj

/-- **`open` does what it is meant to**: it succeeds where it has to and only there, the descriptor
is one of the object that has the name and had it if there was one, and where it fails no name is
created and no file cut off. -/
structure Opened (w w' : World) (path : List Char) (oflag : ℕ) (r : ℤ) : Prop where
  existing : hasFlag oflag oCreat = false → 0 ≤ r → nmStat w.names path ≠ none
  exclusive : hasFlag oflag oCreat = true → hasFlag oflag oExcl = true →
    (0 ≤ r ↔ nmStat w.names path = none)
  creating : hasFlag oflag oCreat = true → hasFlag oflag oExcl = false →
    (nmStat w.names path = none ∨ w.named path ≠ none) → 0 ≤ r
  success : 0 ≤ r → ∃ st p desc, nmStat w'.names path = some st ∧
    w'.table.view r.toNat = some (p, ftUfile, st.stIno, desc) ∧ FlagsRight oflag desc.flags ∧
      ∀ st₀, nmStat w.names path = some st₀ → st = st₀
  failure : r < 0 → w'.names = w.names ∧
    ∀ a obj, w.objs a = some obj → ∃ obj', w'.objs a = some obj' ∧
      obj'.file.stSize = obj.file.stSize

/-- What a name that is created is found by: one of the trees that may be read is the one it is
created in. -/
def NameSpace.Visible (n : NameSpace) (path : List Char) : Prop :=
  ∃ trees rel tree, n.trees path = some (trees, rel) ∧ n.target path = some (tree, rel) ∧
    ∃ m ∈ trees, m.tree = tree ∧ m.flags &&& nmfNoread = 0

/-- What a descriptor takes to be right: it is opened for reading only, the bit for appending is not
set by what is on the stack, and there is a descriptor and memory for it. -/
def World.Plain (oflag : ℕ) : Prop :=
  oflag &&& oAccmode = oRdonly ∧ (e.stack.append = true → hasFlag oflag oAppend = true) ∧
    (used oftSize w.table.oftab).length < oftSize ∧ e.new ≠ 0

/-- **What `open` does right.**  An existing file is opened plainly, and not with `O_CREAT` and
`O_EXCL`; one that has no length is not cut off; and a file is created plainly, without `O_EXCL`, in
a tree that it is found in. -/
def Openable (path : List Char) (oflag : ℕ) : Prop :=
  match nmStat w.names path with
  | some st => st.stIno ≠ 0 → ∀ obj ∈ w.fileAt st.stIno,
      if obj.length = 0 then hasFlag oflag oTrunc = true → obj.file.stSize = 0
      else ¬ (hasFlag oflag oCreat = true ∧ hasFlag oflag oExcl = true) ∧ w.Plain e oflag
  | none => hasFlag oflag oCreat = false ∨ (hasFlag oflag oExcl = false ∧
      (e.addr ≠ 0 ∧ e.capped = true) ∧ w.names.Visible path ∧ w.Plain e oflag)

/-! ### Names -/

variable {w e} {w' : World} {n : NameSpace} {path : List Char} {oflag addr value flags : ℕ}
  {obj : FileObj} {stack : ObjFlags}

theorem NameSpace.look_eq_some {rel : List Char} {m : Mounted} {st : NmStat} :
    n.look rel m = some st ↔ m.flags &&& nmfNoread = 0 ∧ ∃ v, n.tree m.tree rel = some v ∧
      st = { stDev := m.tree, stFlags := v.flags, stIno := v.value } := by
  unfold look
  by_cases hread : m.flags &&& nmfNoread ≠ 0
  · rw [if_pos hread]
    exact iff_of_false nofun fun hand => hread hand.1
  · rw [if_neg hread, Option.map_eq_some_iff, and_iff_right (not_not.mp hread)]
    exact exists_congr fun v => and_congr_right fun _ => eq_comm

/-- A name is found in one of the trees behind it. -/
theorem nmStat_eq_some {st : NmStat} (h : nmStat n path = some st) :
    ∃ trees rel, n.trees path = some (trees, rel) ∧ ∃ m ∈ trees, n.look rel m = some st := by
  obtain ⟨⟨trees, rel⟩, htrees, hfind⟩ := Option.bind_eq_some_iff.mp h
  exact ⟨trees, rel, htrees, List.exists_of_findSome?_eq_some hfind⟩

/-- A name that is in none of the trees. -/
theorem look_eq_none {trees : List Mounted} {rel : List Char} (h : nmStat n path = none)
    (htrees : n.trees path = some (trees, rel)) : ∀ m ∈ trees, n.look rel m = none := by
  unfold nmStat at h
  rw [htrees, Option.bind_some] at h
  exact List.findSome?_eq_none_iff.mp h

/-- **When a name that is created is found**, and with which value. -/
theorem nmStat_nmAddname (h : nmStat n path = none) (value flags : ℕ) :
    (∀ st, nmStat (nmAddname n path value flags).2 path = some st →
      n.Visible path ∧ st.stIno = value) ∧
    (n.Visible path → nmStat (nmAddname n path value flags).2 path ≠ none) := by
  cases htarget : n.target path with
  | none =>
    have hsame : nmAddname n path value flags = (.fail, n) := by
      unfold nmAddname
      rw [htarget]
    rw [hsame]
    refine ⟨fun st hst => ?_, fun ⟨_, _, _, _, hvisible, _⟩ => ?_⟩
    · rw [h] at hst
      cases hst
    · rw [htarget] at hvisible
      cases hvisible
  | some target =>
    obtain ⟨tree, rel⟩ := target
    set n' : NameSpace := { n with
      tree := Function.update n.tree tree
        (Function.update (n.tree tree) rel (some { value := value, flags := flags })) } with hn'
    have hadd : nmAddname n path value flags = (.ok, n') := by
      unfold nmAddname
      rw [htarget]
    have htrees' : n'.trees path = n.trees path := rfl
    obtain ⟨trees, htrees⟩ : ∃ trees, n.trees path = some (trees, rel) := by
      obtain ⟨⟨trees, rel'⟩, htrees, hfind⟩ := Option.bind_eq_some_iff.mp htarget
      obtain ⟨m, -, hm⟩ := Option.map_eq_some_iff.mp hfind
      obtain ⟨-, rfl⟩ := Prod.mk.inj hm
      exact ⟨trees, htrees⟩
    have hself : n'.tree tree rel = some { value := value, flags := flags } := by
      simp [hn']
    have hother : ∀ t, t ≠ tree → n'.tree t rel = n.tree t rel := fun t ht => by
      simp [hn', ht]
    rw [hadd]
    refine ⟨fun st hst => ?_, fun ⟨trees', rel', tree', htr, htg, m, hm, hmtree, hread⟩ hnone => ?_⟩
    · obtain ⟨trees', rel', htr, m, hm, hlook⟩ := nmStat_eq_some hst
      rw [htrees', htrees] at htr
      obtain ⟨rfl, rfl⟩ := Prod.mk.inj (Option.some.inj htr)
      obtain ⟨hread, v, hv, rfl⟩ := NameSpace.look_eq_some.mp hlook
      -- another tree would have had the name before
      have hmtree : m.tree = tree := by
        by_contra hne
        rw [hother m.tree hne] at hv
        have hbefore := look_eq_none h htrees m hm
        rw [NameSpace.look_eq_some.mpr ⟨hread, v, hv, rfl⟩] at hbefore
        cases hbefore
      rw [hmtree, hself] at hv
      obtain rfl := Option.some.inj hv
      exact ⟨⟨trees, rel, tree, htrees, htarget, m, hm, hmtree, hread⟩, rfl⟩
    · rw [htrees] at htr
      rw [htarget] at htg
      obtain ⟨rfl, rfl⟩ := Prod.mk.inj (Option.some.inj htr)
      obtain ⟨rfl, -⟩ := Prod.mk.inj (Option.some.inj htg)
      have hlook := look_eq_none hnone (htrees'.trans htrees) m hm
      rw [← hmtree] at hself
      rw [NameSpace.look_eq_some.mpr ⟨hread, _, hself, rfl⟩] at hlook
      cases hlook

/-! ### Opening an object -/

/-- **A descriptor is always one for reading only.** -/
theorem objfileFlags_mode (oflags : ℕ) (stack : ObjFlags) :
    (objfileFlags oflags stack).read = true ∧ (objfileFlags oflags stack).write = false := by
  have hrdonly : hasFlag oflags oRdonly = true := by
    simp [hasFlag, oRdonly]
  unfold objfileFlags
  rw [hrdonly]
  generalize hasFlag oflags oWronly = wr, hasFlag oflags oRdwr = rw, hasFlag oflags oAppend = a
  cases wr <;> cases rw <;> cases a <;> exact ⟨rfl, rfl⟩

/-- When the flags of a descriptor are right. -/
theorem flagsRight_iff : FlagsRight oflag (objfileFlags oflag stack) ↔
    oflag &&& oAccmode = oRdonly ∧ (stack.append = true → hasFlag oflag oAppend = true) := by
  obtain ⟨hread, hwrite⟩ := objfileFlags_mode oflag stack
  unfold FlagsRight
  rw [hread, hwrite, append_objfileFlags, ← and_assoc]
  refine and_congr ?_ ?_
  · simp only [true_iff, Bool.false_eq_true, false_iff, not_or]
    constructor
    · rintro ⟨hro | hrw, -, hnrw⟩
      · exact hro
      · exact absurd hrw hnrw
    · intro hro
      rw [hro]
      exact ⟨Or.inl rfl, by decide, by decide⟩
  · rw [Bool.or_eq_true]
    exact ⟨fun h hstack => h.mp (Or.inr hstack), fun h => ⟨fun hor => hor.elim id h, Or.inl⟩⟩

theorem objfileOpenAt_none (h : w.fileAt addr = none) :
    objfileOpenAt w e addr oflag = some (-1, w) := by
  unfold objfileOpenAt
  rw [h]

theorem World.magic_of_fileAt (h : w.fileAt addr = some obj) :
    w.objs addr = some obj ∧ obj.magic = true := by
  obtain ⟨obj', hobj, hmagic⟩ := Option.bind_eq_some_iff.mp h
  split_ifs at hmagic with hm
  obtain rfl := Option.some.inj hmagic
  exact ⟨hobj, hm⟩

/-- A file that `ObjInfo` fails for has been cut off by then. -/
theorem objfileOpenAt_empty (h : w.fileAt addr = some obj) (hlength : obj.length = 0) :
    objfileOpenAt w e addr oflag = some (-1, { w with objs := Function.update w.objs addr (some
      { obj with file := { obj.file with
          stSize := if hasFlag oflag oTrunc then 0 else obj.file.stSize } }) }) := by
  obtain ⟨-, hmagic⟩ := w.magic_of_fileAt h
  unfold objfileOpenAt objfileOpen
  rw [h]
  dsimp only
  rw [if_neg (by rw [hmagic]; decide), if_pos hlength]
  by_cases htrunc : hasFlag oflag oTrunc = true
  · rw [if_pos htrunc, if_pos htrunc]
  · rw [if_neg htrunc, if_neg htrunc]

/-- The descriptor that a file is opened with. -/
def descOf (e : OpenEnv) (obj : FileObj) (oflag : ℕ) : ObjFdesc :=
  { offset := 0, objsize := obj.length, flags := objfileFlags oflag e.stack }

/-- **What opening a file comes to**: a descriptor, if there is one left, that names the file if
there was memory. -/
theorem objfileOpenAt_file (oflag : ℕ) (hbound : w.table.Bounded)
    (hnew : w.table.files.live e.new = false) (h : w.fileAt addr = some obj)
    (hlength : obj.length ≠ 0) :
    ((used oftSize w.table.oftab).length < oftSize → objfileOpenAt w e addr oflag ≠ none) ∧
    ∀ r w', objfileOpenAt w e addr oflag = some (r, w') →
      (used oftSize w.table.oftab).length < oftSize ∧ 0 ≤ r ∧ w'.names = w.names ∧
        w'.table.view r.toNat =
          if e.new = 0 then none else some (e.new, ftUfile, addr, descOf e obj oflag) := by
  obtain ⟨-, hmagic⟩ := w.magic_of_fileAt h
  have hopen : ∃ objs, objfileOpenAt w e addr oflag =
      (oftAdd w.table { refCount := 0, type := ftUfile, data := (addr, descOf e obj oflag) }
        e.new).map fun r => (r.1, { w with objs := objs, table := r.2 }) := by
    unfold objfileOpenAt
    rw [h]
    dsimp only
    rw [hmagic, objfileOpen_eq hlength]
    exact ⟨_, rfl⟩
  obtain ⟨objs, hopen⟩ := hopen
  rw [hopen]
  by_cases hroom : (used oftSize w.table.oftab).length < oftSize
  · obtain ⟨hpos, hfree, -⟩ := findFreeHandle_spec hbound (length_used_lt.mp hroom) 0
    by_cases hzero : e.new = 0
    · rw [hzero, oftAdd_zero hbound hroom, Option.map_some]
      refine ⟨fun _ => Option.some_ne_none _, ?_⟩
      rintro r w' ⟨⟩
      refine ⟨hroom, Int.natCast_nonneg _, rfl, ?_⟩
      rw [if_pos rfl, Int.toNat_natCast]
      unfold DescTable.view
      rw [DescTable.oftab_cover, if_pos hfree]
    · obtain ⟨t', files, hcall, halloc, hoftab, hfiles, -⟩ := oftAdd_eq hbound hroom hzero hnew
        { refCount := 0, type := ftUfile, data := (addr, descOf e obj oflag) }
      rw [hcall, Option.map_some]
      refine ⟨fun _ => Option.some_ne_none _, ?_⟩
      rintro r w' ⟨⟩
      refine ⟨hroom, Int.natCast_nonneg _, rfl, ?_⟩
      rw [if_neg hzero, Int.toNat_natCast]
      unfold DescTable.view
      rw [hoftab, Function.update_self, if_neg hzero, hfiles, Heap.cell_alloc_self halloc]
  · rw [oftAdd_full hbound hroom, Option.map_none]
    exact ⟨fun h => absurd h hroom, nofun⟩

/-! ### Names that exist -/

theorem posixOpen_existing {st : NmStat} (h : nmStat w.names path = some st) :
    posixOpen w e path oflag =
      if st.stIno = 0 then some (-1, w) else objfileOpenAt w e st.stIno oflag := by
  unfold posixOpen
  rw [h]
  dsimp only
  rw [if_neg fun hand => Option.some_ne_none _ hand.1,
    if_neg fun hand => Option.some_ne_none _ hand.1, if_neg Bool.false_ne_true]

/-- `open` may fail for a name that has no file that can be opened. -/
theorem opened_failed (hst : nmStat w.names path ≠ none) (hnamed : w.named path = none)
    (hnames : w'.names = w.names) (hsizes : ∀ a obj, w.objs a = some obj →
      ∃ obj', w'.objs a = some obj' ∧ obj'.file.stSize = obj.file.stSize) :
    Opened w w' path oflag (-1) where
  existing _ hr := absurd hr (by decide)
  exclusive _ _ := iff_of_false (by decide) hst
  creating _ _ hor := absurd hor (not_or.mpr ⟨hst, not_not.mpr hnamed⟩)
  success hr := absurd hr (by decide)
  failure _ := ⟨hnames, hsizes⟩

/-- **When a name that exists is opened as it is meant to be.** -/
theorem opened_existing_iff (hbound : w.table.Bounded) (hnew : w.table.files.live e.new = false)
    {st : NmStat} (h : nmStat w.names path = some st) :
    (∃ r w', posixOpen w e path oflag = some (r, w') ∧ Opened w w' path oflag r) ↔
      Openable w e path oflag := by
  have hst : nmStat w.names path ≠ none := by
    rw [h]
    exact Option.some_ne_none st
  unfold Openable
  rw [posixOpen_existing h, h]
  dsimp only
  by_cases hino : st.stIno = 0
  · rw [if_pos hino]
    refine iff_of_true ⟨-1, w, rfl, opened_failed hst ?_ rfl fun a obj hobj => ⟨obj, hobj, rfl⟩⟩
      fun hne => absurd hino hne
    unfold World.named
    rw [h, Option.bind_some, if_pos hino]
  rw [if_neg hino]
  generalize hfile : w.fileAt st.stIno = file
  cases file with
  | none =>
    rw [objfileOpenAt_none hfile]
    refine iff_of_true ⟨-1, w, rfl, opened_failed hst ?_ rfl fun a obj hobj => ⟨obj, hobj, rfl⟩⟩
      fun _ => nofun
    unfold World.named
    rw [h, Option.bind_some, if_neg hino, hfile, Option.bind_none]
  | some obj =>
    have hone : ∀ {P : FileObj → Prop},
        (st.stIno ≠ 0 → ∀ o ∈ some obj, P o) ↔ P obj := fun {P} =>
      ⟨fun hall => hall hino obj rfl, fun hP _ o ho => Option.some.inj ho ▸ hP⟩
    rw [hone]
    by_cases hlength : obj.length = 0
    · have hobjs := (w.magic_of_fileAt hfile).1
      rw [if_pos hlength, objfileOpenAt_empty hfile hlength]
      constructor
      · rintro ⟨r, w', heq, hopened⟩ htrunc
        obtain ⟨rfl, rfl⟩ := Prod.mk.inj (Option.some.inj heq)
        obtain ⟨obj', hobj', hsize⟩ := (hopened.failure (by decide)).2 _ obj hobjs
        dsimp only at hobj'
        rw [Function.update_self] at hobj'
        obtain rfl := Option.some.inj hobj'
        simpa [htrunc] using hsize.symm
      · intro hsize
        refine ⟨_, _, rfl, opened_failed hst ?_ rfl fun a o ho => ?_⟩
        · unfold World.named
          rw [h, Option.bind_some, if_neg hino, hfile, Option.bind_some, if_pos hlength]
        · by_cases ha : a = st.stIno
          · subst ha
            obtain rfl := Option.some.inj (hobjs.symm.trans ho)
            refine ⟨_, Function.update_self .., ?_⟩
            dsimp only
            split_ifs with htrunc
            · exact (hsize htrunc).symm
            · rfl
          · exact ⟨o, (Function.update_of_ne ha ..).trans ho, rfl⟩
    · obtain ⟨hgo, hwhat⟩ := objfileOpenAt_file oflag hbound hnew hfile hlength
      rw [if_neg hlength]
      constructor
      · rintro ⟨r, w', hcall, hopened⟩
        obtain ⟨hroom, hr, -, hview⟩ := hwhat r w' hcall
        obtain ⟨st', p, desc, -, hdesc, hflags, -⟩ := hopened.success hr
        rw [hview] at hdesc
        split_ifs at hdesc with hzero
        obtain ⟨-, hdata⟩ := Prod.mk.inj (Option.some.inj hdesc)
        obtain ⟨-, hdata⟩ := Prod.mk.inj hdata
        obtain ⟨-, rfl⟩ := Prod.mk.inj hdata
        obtain ⟨hmode, happend⟩ := flagsRight_iff.mp hflags
        refine ⟨fun hand => ?_, hmode, happend, hroom, hzero⟩
        exact hst ((hopened.exclusive hand.1 hand.2).mp hr)
      · rintro ⟨hexcl, hmode, happend, hroom, hzero⟩
        obtain ⟨⟨r, w'⟩, hcall⟩ := Option.ne_none_iff_exists'.mp (hgo hroom)
        obtain ⟨-, hr, hnames, hview⟩ := hwhat r w' hcall
        rw [if_neg hzero] at hview
        refine ⟨r, w', hcall, ⟨fun _ _ => hst, fun hc he => absurd ⟨hc, he⟩ hexcl, fun _ _ _ => hr,
          fun _ => ⟨st, e.new, descOf e obj oflag, ?_, hview, flagsRight_iff.mpr ⟨hmode, happend⟩,
            fun st₀ hst₀ => ?_⟩, fun hneg => absurd hr (not_le.mpr hneg)⟩⟩
        · rw [hnames, h]
        · rw [h] at hst₀
          exact Option.some.inj hst₀

/-! ### Names that do not exist -/

theorem createNamed_names (path : List Char) (excl : Bool) :
    (createNamed w e path excl).1.names =
      (nmAddname w.names path (objfileCreate w e).1 0).2 := by
  have hsame : (objfileCreate w e).2.names = w.names := by
    unfold objfileCreate
    split <;> rfl
  have hdelete : ∀ (v : World) a, (objfileDelete v a).names = v.names := fun v a => by
    unfold objfileDelete
    split <;> rfl
  unfold createNamed
  dsimp only
  split_ifs
  · rw [hdelete, hsame]
  · rw [hsame]

theorem createNamed_stop (path : List Char) : (createNamed w e path false).2.2 = false := by
  unfold createNamed
  dsimp only
  split_ifs <;> rfl

/-- A file that is found under its new name is kept. -/
theorem createNamed_eq {st : NmStat} (excl : Bool)
    (h : nmStat (nmAddname w.names path (objfileCreate w e).1 0).2 path = some st)
    (hst : st.stIno = (objfileCreate w e).1) :
    createNamed w e path excl = ({ (objfileCreate w e).2 with
      names := (nmAddname w.names path (objfileCreate w e).1 0).2 }, (objfileCreate w e).1,
        false) := by
  have hsame : (objfileCreate w e).2.names = w.names := by
    unfold objfileCreate
    split <;> rfl
  unfold createNamed
  dsimp only
  rw [hsame, h, Option.map_some, Option.getD_some, hst, if_neg (not_not.mpr rfl)]

theorem posixOpen_creating (h : nmStat w.names path = none) (hcreat : hasFlag oflag oCreat = true)
    (hexcl : hasFlag oflag oExcl = false) :
    posixOpen w e path oflag =
      if (createNamed w e path false).2.1 = 0 then some (-1, (createNamed w e path false).1)
      else
        objfileOpenAt (createNamed w e path false).1 e (createNamed w e path false).2.1 oflag := by
  unfold posixOpen
  rw [h, hcreat, hexcl]
  dsimp only
  rw [if_neg (by simp), if_neg (by simp), createNamed_stop, if_neg Bool.false_ne_true]

theorem names_objfileOpenAt {r : ℤ} (h : objfileOpenAt w e addr oflag = some (r, w')) :
    w'.names = w.names := by
  unfold objfileOpenAt at h
  split at h
  · obtain ⟨-, rfl⟩ := Prod.mk.inj (Option.some.inj h)
    rfl
  · dsimp only at h
    split at h
    · obtain ⟨-, rfl⟩ := Prod.mk.inj (Option.some.inj h)
      rfl
    · obtain ⟨a, -, ha⟩ := Option.map_eq_some_iff.mp h
      obtain ⟨-, rfl⟩ := Prod.mk.inj ha
      rfl

theorem objfileCreate_eq (haddr : e.addr ≠ 0) (hcapped : e.capped = true) : objfileCreate w e =
    (e.addr, { w with objs := Function.update w.objs e.addr (some (newFile e)) }) := by
  unfold objfileCreate
  rw [if_neg haddr, hcapped]
  rfl

/-- What `_objfile_create` returns is 0 unless there is an object and its capability is added. -/
theorem objfileCreate_fst_ne_zero : (objfileCreate w e).1 ≠ 0 ↔ e.addr ≠ 0 ∧ e.capped = true := by
  unfold objfileCreate
  by_cases haddr : e.addr = 0
  · simp [haddr]
  · simp [haddr]

/-- **When a file is created as it is meant to be.** -/
theorem opened_creating_iff (hbound : w.table.Bounded) (hnew : w.table.files.live e.new = false)
    (h : nmStat w.names path = none) (hcreat : hasFlag oflag oCreat = true)
    (hexcl : hasFlag oflag oExcl = false) :
    (∃ r w', posixOpen w e path oflag = some (r, w') ∧ Opened w w' path oflag r) ↔
      (e.addr ≠ 0 ∧ e.capped = true) ∧ w.names.Visible path ∧ w.Plain e oflag := by
  obtain ⟨hfound, hvisible⟩ := nmStat_nmAddname h (objfileCreate w e).1 0
  have hopen := posixOpen_creating (e := e) h hcreat hexcl
  have hnames := createNamed_names (w := w) (e := e) path false
  -- what is opened when there is a file, and it is found by its new name
  have hkept : ∀ st, nmStat (nmAddname w.names path (objfileCreate w e).1 0).2 path = some st →
      e.addr ≠ 0 → e.capped = true → st.stIno = e.addr ∧
        ∃ w₁ : World, posixOpen w e path oflag = objfileOpenAt w₁ e e.addr oflag ∧
          w₁.names = (nmAddname w.names path (objfileCreate w e).1 0).2 ∧ w₁.table = w.table ∧
            w₁.fileAt e.addr = some (newFile e) := by
    intro st hst haddr hcapped
    have hino := (hfound st hst).2
    have heq := createNamed_eq false hst hino
    rw [objfileCreate_eq haddr hcapped] at hino heq hst ⊢
    rw [heq] at hopen
    dsimp only at hopen
    rw [if_neg haddr] at hopen
    refine ⟨hino, _, hopen, rfl, rfl, ?_⟩
    unfold World.fileAt
    dsimp only
    rw [Function.update_self, Option.bind_some]
    exact if_pos hcapped
  have hlength : (newFile e).length ≠ 0 := by
    change 1024 * 1024 + 4096 ≠ 0
    decide
  constructor
  · rintro ⟨r, w', hcall, hopened⟩
    have hr : 0 ≤ r := hopened.creating hcreat hexcl (Or.inl h)
    obtain ⟨st, p, desc, hst, hdesc, hflags, -⟩ := hopened.success hr
    have hnames' : w'.names = (nmAddname w.names path (objfileCreate w e).1 0).2 := by
      rw [← hnames]
      rw [hopen] at hcall
      split_ifs at hcall with hzero
      · obtain ⟨-, rfl⟩ := Prod.mk.inj (Option.some.inj hcall)
        rfl
      · exact names_objfileOpenAt hcall
    rw [hnames'] at hst
    obtain ⟨hvis, hino⟩ := hfound st hst
    have hne : (objfileCreate w e).1 ≠ 0 := by
      intro hzero
      rw [hopen, createNamed_eq false hst hino] at hcall
      dsimp only at hcall
      rw [if_pos hzero] at hcall
      obtain ⟨rfl, -⟩ := Prod.mk.inj (Option.some.inj hcall)
      exact absurd hr (by decide)
    obtain ⟨haddr, hcapped⟩ := objfileCreate_fst_ne_zero.mp hne
    obtain ⟨-, w₁, hcall₁, -, htable, hfile⟩ := hkept st hst haddr hcapped
    rw [← htable] at hbound hnew
    obtain ⟨hroom, -, -, hview⟩ :=
      (objfileOpenAt_file oflag hbound hnew hfile hlength).2 r w' (hcall₁.symm.trans hcall)
    rw [hview] at hdesc
    split_ifs at hdesc with hzero
    obtain ⟨-, hdata⟩ := Prod.mk.inj (Option.some.inj hdesc)
    obtain ⟨-, hdata⟩ := Prod.mk.inj hdata
    obtain ⟨-, rfl⟩ := Prod.mk.inj hdata
    obtain ⟨hmode, happend⟩ := flagsRight_iff.mp hflags
    exact ⟨⟨haddr, hcapped⟩, hvis, hmode, happend, htable ▸ hroom, hzero⟩
  · rintro ⟨⟨haddr, hcapped⟩, hvis, hmode, happend, hroom, hzero⟩
    obtain ⟨st, hst⟩ := Option.ne_none_iff_exists'.mp (hvisible hvis)
    obtain ⟨hino, w₁, hcall₁, hnames₁, htable, hfile⟩ := hkept st hst haddr hcapped
    rw [← htable] at hbound hnew hroom
    obtain ⟨hgo, hwhat⟩ := objfileOpenAt_file oflag hbound hnew hfile hlength
    obtain ⟨⟨r, w'⟩, hcall⟩ := Option.ne_none_iff_exists'.mp (hgo hroom)
    obtain ⟨-, hr, hnames', hview⟩ := hwhat r w' hcall
    rw [if_neg hzero] at hview
    refine ⟨r, w', hcall₁.trans hcall, ⟨fun hno => ?_, fun _ hyes => ?_, fun _ _ _ => hr, fun _ =>
      ⟨st, e.new, descOf e (newFile e) oflag, ?_, ?_, flagsRight_iff.mpr ⟨hmode, happend⟩,
        fun st₀ hst₀ => ?_⟩, fun hneg => absurd hr (not_le.mpr hneg)⟩⟩
    · rw [hcreat] at hno
      cases hno
    · rw [hexcl] at hyes
      cases hyes
    · rw [hnames', hnames₁, hst]
    · rw [hview, hino]
    · rw [h] at hst₀
      cases hst₀

/-! ### All calls -/

/-- **When `open` does what it is meant to.**  It succeeds where it has to and only there, with a
descriptor that permits what it was opened for, and fails without effect, if and only if it is
called for a name that does not exist, without `O_CREAT`; for one that has no file; for a file for
reading only, without `O_CREAT` and `O_EXCL`, where nothing on the stack sets the bit for appending
and there is a descriptor left; or for a new name in the same way, without `O_EXCL`, where the name
is found in the tree that it is created in. -/
theorem posixOpen_iff (hbound : w.table.Bounded) (hnew : w.table.files.live e.new = false)
    (path : List Char) (oflag : ℕ) :
    (∃ r w', posixOpen w e path oflag = some (r, w') ∧ Opened w w' path oflag r) ↔
      Openable w e path oflag := by
  cases hst : nmStat w.names path with
  | some st => exact opened_existing_iff hbound hnew hst
  | none =>
    unfold Openable
    rw [hst]
    dsimp only
    cases hcreat : hasFlag oflag oCreat with
    | false =>
      have hcall : posixOpen w e path oflag = some (-1, w) := by
        unfold posixOpen
        rw [hst, hcreat]
        exact if_pos ⟨rfl, rfl⟩
      refine iff_of_true ⟨-1, w, hcall, ⟨fun _ hr => ?_, fun hno => ?_, fun hno => ?_, fun hr => ?_,
        fun _ => ⟨rfl, fun a obj hobj => ⟨obj, hobj, rfl⟩⟩⟩⟩ (Or.inl rfl)
      · exact absurd hr (by decide)
      · rw [hcreat] at hno
        cases hno
      · rw [hcreat] at hno
        cases hno
      · exact absurd hr (by decide)
    | true =>
      rw [or_iff_right (by decide)]
      cases hexcl : hasFlag oflag oExcl with
      | false =>
        rw [and_iff_right rfl]
        exact opened_creating_iff hbound hnew hst hcreat hexcl
      | true =>
        -- it fails where it is the only way to succeed
        have hcall : posixOpen w e path oflag = some (-1, w) := by
          unfold posixOpen
          rw [hst, hcreat, hexcl]
          dsimp only
          rw [if_neg (by simp), if_pos ⟨rfl, rfl, rfl⟩]
        refine iff_of_false ?_ fun hand => absurd hand.1 (by decide)
        rintro ⟨r, w', heq, hopened⟩
        obtain ⟨rfl, -⟩ := Prod.mk.inj (Option.some.inj (hcall.symm.trans heq))
        exact absurd ((hopened.exclusive hcreat hexcl).mpr hst) (by decide)

/-- A tree on "/" that has one file, named "f". -/
def oneFile : World where
  names :=
    { mounts := fun name => if name = ['/'] then [⟨1, ['/'], 0⟩] else []
      cwd := ['/']
      tree := fun _ rel => if rel = ['f'] then some ⟨5, 0⟩ else none }
  objs addr := if addr = 5 then some ⟨true, 8192, ⟨3, fun _ => 0⟩⟩ else none
  table := noneOpen fun _ => ⟨0, 0, 0, 0, 0, ⟨false, false, false⟩⟩

/-- There is memory, and nothing on the stack. -/
def plainEnv : OpenEnv where
  addr := 6
  capped := true
  data _ := 0
  ino := 0
  stack := ⟨false, false, false⟩
  new := 1

theorem posixOpen_iff_oneFile :
    (∃ r w', posixOpen oneFile plainEnv ['g'] oCreat = some (r, w') ∧
      Opened oneFile w' ['g'] oCreat r) ↔ Openable oneFile plainEnv ['g'] oCreat :=
  posixOpen_iff (kept_noneOpen _).bounded rfl ['g'] oCreat

/-- **Calls that `open` does wrong**: it does not create a file that has to be new, and opens one
that is not, and a file that is opened for writing cannot be written. -/
theorem posixOpen_wrong :
    (¬ ∃ r w', posixOpen oneFile plainEnv ['g'] (oCreat ||| oExcl) = some (r, w') ∧
      Opened oneFile w' ['g'] (oCreat ||| oExcl) r) ∧
    (¬ ∃ r w', posixOpen oneFile plainEnv ['f'] (oCreat ||| oExcl) = some (r, w') ∧
      Opened oneFile w' ['f'] (oCreat ||| oExcl) r) ∧
    ¬ ∃ r w', posixOpen oneFile plainEnv ['f'] oRdwr = some (r, w') ∧
      Opened oneFile w' ['f'] oRdwr r := by
  have hcreat : hasFlag (oCreat ||| oExcl) oCreat = true := by decide
  have hexcl : hasFlag (oCreat ||| oExcl) oExcl = true := by decide
  refine ⟨?_, ?_, ?_⟩
  · rintro ⟨r, w', hcall, hopened⟩
    have hfail : (posixOpen oneFile plainEnv ['g'] (oCreat ||| oExcl)).map Prod.fst =
        some (-1) := by
      decide +kernel
    rw [hcall] at hfail
    obtain rfl := Option.some.inj hfail
    exact absurd ((hopened.exclusive hcreat hexcl).mpr (by decide +kernel)) (by decide)
  · rintro ⟨r, w', hcall, hopened⟩
    have hgo : (posixOpen oneFile plainEnv ['f'] (oCreat ||| oExcl)).map Prod.fst = some 0 := by
      decide +kernel
    rw [hcall] at hgo
    obtain rfl := Option.some.inj hgo
    exact absurd ((hopened.exclusive hcreat hexcl).mp le_rfl) (by decide +kernel)
  · rintro ⟨r, w', hcall, hopened⟩
    have hgo : (posixOpen oneFile plainEnv ['f'] oRdwr).map (fun a =>
        (a.1, (a.2.table.view 0).map fun d => d.2.2.2.flags.write)) = some (0, some false) := by
      decide +kernel
    rw [hcall] at hgo
    obtain ⟨rfl, hwrite⟩ := Prod.mk.inj (Option.some.inj hgo)
    obtain ⟨st, p, desc, -, hdesc, hflags, -⟩ := hopened.success le_rfl
    rw [Int.toNat_zero] at hdesc
    dsimp only at hwrite
    rw [hdesc] at hwrite
    have hfalse : desc.flags.write = false := Option.some.inj hwrite
    rw [hflags.2.1.mpr (Or.inr (by decide))] at hfalse
    cases hfalse

end Mungi.Posix
