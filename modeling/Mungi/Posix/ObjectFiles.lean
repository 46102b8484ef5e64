import Mathlib.Data.BitVec
import Mungi.Lib.Bytes
import Mungi.Lib.Runs

/-!
# Object files

A file is an object of its own: a page with a header, which has its size, and the data behind that
(`objfile.c`).  A descriptor has an offset, and the flags that it was opened with; these are set in
a record on the stack that is not cleared, and the bit for appending is set but never reset.
Reading asserts that the offset is not behind the end of the file, and computes what is left
without a sign.

## Main definitions

* `objfileOpen`, `objfileWrite`, `objfileRead` — the functions.
* `ArrayFile`, `ArrayFile.call` — what files are meant to be: an array with a size, and descriptors.
* `ObjCall.Served` — a call does to the file what it is meant to do to the array.

## Main results

* `objfileWrite_eq`, `objfileRead_eq` — what writing and reading come to.
* `objectFiles_iff` — **all calls of a run do what they are meant to, if and only if nothing is
  appended through a descriptor that was not opened for it, and nothing is read from behind the end
  or with a count that overflows.**
-/

namespace Mungi.Posix

open Bytes Runs

/-! ### The code -/

/-- `PAGESIZE` -/
def pageSize : ℕ := 4096

/-- The flags of `open`. -/
def oRdonly : ℕ := 0x0000
def oWronly : ℕ := 0x0001
def oRdwr : ℕ := 0x0002
def oAppend : ℕ := 0x0008
def oCreat : ℕ := 0x0200
def oTrunc : ℕ := 0x0400
def oExcl : ℕ := 0x0800

/-- `(oflags & flag) == flag` -/
def hasFlag (oflags flag : ℕ) : Bool := oflags &&& flag = flag

/-- The bits of `flags`. -/
structure ObjFlags where
  read : Bool
  write : Bool
  append : Bool
  deriving DecidableEq

/-- `struct obj_fdesc`, without the file. -/
structure ObjFdesc where
  offset : ℕ
  objsize : ℕ
  flags : ObjFlags
  deriving DecidableEq

/-- An object with a file: `st_size`, and the bytes behind the header. -/
structure ObjFile where
  stSize : ℕ
  data : ℕ → BitVec 8

/-- The flags that `_objfile_open` sets, over what is on the stack. -/
def objfileFlags (oflags : ℕ) (stack : ObjFlags) : ObjFlags :=
  let (flags, flagSet) :=
    if hasFlag oflags oWronly then ({ stack with read := false, write := true }, true)
    else (stack, false)
  let (flags, flagSet) :=
    if hasFlag oflags oRdwr then ({ flags with read := false, write := true }, false)
    else (flags, flagSet)
  let flags :=
    if hasFlag oflags oRdonly ∨ flagSet = false then { flags with read := true, write := false }
    else flags
  if hasFlag oflags oAppend then { flags with append := true } else flags

/-- `_objfile_open` up to the table of open files: the file, and the descriptor unless it fails.
`valid` is what `is_objfile` finds, and `length` what `ObjInfo` does, 0 where that fails. -/
def objfileOpen (valid : Bool) (length oflags : ℕ) (stack : ObjFlags) (file : ObjFile) :
    ObjFile × Option ObjFdesc :=
  if valid = false then (file, none)
  else
    let file := if hasFlag oflags oTrunc then { file with stSize := 0 } else file
    if length = 0 then (file, none)
    else (file, some { offset := 0, objsize := length, flags := objfileFlags oflags stack })

/-- `nbyte`, as the functions return it. -/
def intOf (nbyte : ℕ) : ℤ := (BitVec.ofNat 32 nbyte).toInt

/-- `_objfile_write`.  Files do not grow: there is nothing behind the object. -/
def objfileWrite (desc : ObjFdesc) (file : ObjFile) (buf : List (BitVec 8)) :
    Option (ℤ × ObjFdesc × ObjFile) :=
  let nbyte := buf.length
  let offset := if desc.flags.append then file.stSize else desc.offset
  let last := (offset + nbyte) % 2 ^ 64
  if desc.objsize < (offset + nbyte + pageSize) % 2 ^ 64 then none
  else some (intOf nbyte, { desc with offset := last }, {
    stSize := if file.stSize < last then last else file.stSize
    data := copy file.data offset nbyte fun i => buf.getD i 0 })

/-- What `_objfile_read` returns: a number and the bytes in the buffer, and whether its assertion
held. -/
structure ObjAnswer where
  ret : ℤ
  bytes : List (BitVec 8)
  asserted : Bool

/-- The bytes from `off` on. -/
def bytesFrom (data : ℕ → BitVec 8) (off n : ℕ) : List (BitVec 8) :=
  (List.range n).map fun i => data (off + i)

/-- `_objfile_read`, from an object of the length. -/
def objfileRead (length : ℕ) (desc : ObjFdesc) (file : ObjFile) (nbyte : ℕ) :
    Option (ObjAnswer × ObjFdesc) :=
  let asserted := decide (desc.offset ≤ file.stSize)
  let nbyte :=
    if file.stSize < (desc.offset + nbyte) % 2 ^ 64 then
      (2 ^ 64 + file.stSize - desc.offset) % 2 ^ 64
    else nbyte
  if nbyte = 0 then some ({ ret := 0, bytes := [], asserted := asserted }, desc)
  else if length < desc.offset + nbyte + pageSize then none
  else some ({ ret := intOf nbyte, bytes := bytesFrom file.data desc.offset nbyte,
               asserted := asserted }, { desc with offset := desc.offset + nbyte })

/-! ### A file and its descriptors -/

/-- A file, the length of its object, its descriptors, and the flags that each was opened with,
which the code does not keep. -/
structure ObjSystem where
  file : ObjFile
  length : ℕ
  descs : ℕ → Option ObjFdesc
  opened : ℕ → ℕ

/-- A call; the file is opened with what there is on the stack. -/
inductive ObjCall where
  | opened (p oflags : ℕ) (stack : ObjFlags)
  | write (p : ℕ) (buf : List (BitVec 8))
  | read (p nbyte : ℕ)

variable (s : ObjSystem)

/-- A call is made. -/
def objCall : ObjCall → Option (ObjAnswer × ObjSystem)
  | .opened p oflags stack =>
    let r := objfileOpen true s.length oflags stack s.file
    some ({ ret := 0, bytes := [], asserted := true }, { s with
      file := r.1
      descs := Function.update s.descs p r.2
      opened := Function.update s.opened p oflags })
  | .write p buf => (s.descs p).bind fun desc =>
    (objfileWrite desc s.file buf).map fun (ret, desc, file) =>
      ({ ret := ret, bytes := [], asserted := true },
        { s with file := file, descs := Function.update s.descs p (some desc) })
  | .read p nbyte => (s.descs p).bind fun desc =>
    (objfileRead s.length desc s.file nbyte).map fun (answer, desc) =>
      (answer, { s with descs := Function.update s.descs p (some desc) })

/-- The system after a call. -/
def objStep (c : ObjCall) : Option ObjSystem := (objCall s c).map Prod.snd

/-! ### What a file is meant to be -/

/-- An array with a size; a descriptor has an offset, and may append.  What is cut off stays in the
array. -/
structure ArrayFile where
  bytes : ℕ → BitVec 8
  size : ℕ
  fds : ℕ → Option (ℕ × Bool)

/-- **What a call is meant to read, and to make of the array.** -/
def ArrayFile.call (a : ArrayFile) : ObjCall → List (BitVec 8) × ArrayFile
  | .opened p oflags _ => ([], { a with
      size := if hasFlag oflags oTrunc then 0 else a.size
      fds := Function.update a.fds p (some (0, hasFlag oflags oAppend)) })
  | .write p buf =>
    match a.fds p with
    | none => ([], a)
    | some (off, append) =>
      let start := if append then a.size else off
      ([], { bytes := copy a.bytes start buf.length fun i => buf.getD i 0
             size := max a.size (start + buf.length)
             fds := Function.update a.fds p (some (start + buf.length, append)) })
  | .read p nbyte =>
    match a.fds p with
    | none => ([], a)
    | some (off, append) =>
      let n := min (off + nbyte) a.size - off
      (bytesFrom a.bytes off n, { a with fds := Function.update a.fds p (some (off + n, append)) })

/-- The array that the file is. -/
def ObjSystem.view : ArrayFile where
  bytes := s.file.data
  size := s.file.stSize
  fds p := (s.descs p).map fun desc => (desc.offset, hasFlag (s.opened p) oAppend)

namespace ObjCall

/-- A descriptor is new, or there is one, and what is written fits into the object where it is meant
to be written. -/
def Given : ObjCall → Prop
  | opened p _ _ => s.descs p = none
  | write p buf => ∃ desc ∈ s.descs p,
      (if hasFlag (s.opened p) oAppend then s.file.stSize else desc.offset) + buf.length +
        pageSize ≤ s.length
  | read p nbyte => s.descs p ≠ none ∧ nbyte < 2 ^ 64

instance : ∀ c : ObjCall, Decidable (c.Given s)
  | opened p _ _ => inferInstanceAs (Decidable (s.descs p = none))
  | write p buf => inferInstanceAs (Decidable (∃ desc ∈ s.descs p,
      (if hasFlag (s.opened p) oAppend then s.file.stSize else desc.offset) + buf.length +
        pageSize ≤ s.length))
  | read p nbyte => inferInstanceAs (Decidable (s.descs p ≠ none ∧ nbyte < 2 ^ 64))

/-- **A call does what it is meant to**, with no assertion failing. -/
def Served (c : ObjCall) : Prop :=
  ∃ r s', objCall s c = some (r, s') ∧ r.asserted = true ∧ (r.bytes, s'.view) = s.view.call c ∧
    ∀ p nbyte, c = read p nbyte → r.ret = r.bytes.length

/-- What is written goes where it is meant to, as the descriptor has the flag that it was opened
with or is at the end; and what is read is not from behind the end, with a count that neither
overflows nor is too large for the answer. -/
def Fits : ObjCall → Prop
  | opened .. => True
  | write p _ => ∀ desc ∈ s.descs p,
      desc.flags.append = hasFlag (s.opened p) oAppend ∨ desc.offset = s.file.stSize
  | read p nbyte => ∀ desc ∈ s.descs p,
      desc.offset ≤ s.file.stSize ∧ desc.offset + nbyte < 2 ^ 64 ∧
        min (desc.offset + nbyte) s.file.stSize - desc.offset < 2 ^ 31

end ObjCall

/-- What holds between calls: the file and the offsets are in the object, and a descriptor that is
opened for appending does. -/
structure ObjSystem.Kept : Prop where
  length : s.length < 2 ^ 64
  size : s.file.stSize + pageSize ≤ s.length
  descs : ∀ p, ∀ desc ∈ s.descs p, desc.objsize = s.length ∧ desc.offset + pageSize ≤ s.length ∧
    (hasFlag (s.opened p) oAppend = true → desc.flags.append = true)

/-! ### The functions -/

variable {s} {p nbyte length oflags : ℕ} {stack : ObjFlags} {desc : ObjFdesc} {file : ObjFile}
  {buf : List (BitVec 8)}

@[simp] theorem length_bytesFrom (data : ℕ → BitVec 8) (off n : ℕ) :
    (bytesFrom data off n).length = n := by
  simp [bytesFrom]

/-- A number is returned as it is when it fits an `int`. -/
theorem intOf_eq_iff {n : ℕ} : intOf n = n ↔ n < 2 ^ 31 := by
  unfold intOf
  constructor
  · intro h
    have hlt := BitVec.two_mul_toInt_lt (x := BitVec.ofNat 32 n)
    rw [h] at hlt
    norm_cast at hlt
    omega
  · intro hn
    have hnat : (BitVec.ofNat 32 n).toNat = n := by
      rw [BitVec.toNat_ofNat]
      exact Nat.mod_eq_of_lt (by omega)
    rw [BitVec.toInt_eq_toNat_of_lt (by rw [hnat]; omega), hnat]

/-- The bit for appending is what is on the stack where `O_APPEND` is not given. -/
theorem append_objfileFlags (oflags : ℕ) (stack : ObjFlags) :
    (objfileFlags oflags stack).append = (hasFlag oflags oAppend || stack.append) := by
  unfold objfileFlags
  generalize hasFlag oflags oWronly = w, hasFlag oflags oRdwr = r, hasFlag oflags oRdonly = d,
    hasFlag oflags oAppend = a
  cases w <;> cases r <;> cases d <;> cases a <;> rfl

theorem objfileOpen_eq (hlength : length ≠ 0) (oflags : ℕ) (stack : ObjFlags) (file : ObjFile) :
    objfileOpen true length oflags stack file =
      ({ file with stSize := if hasFlag oflags oTrunc then 0 else file.stSize },
        some { offset := 0, objsize := length, flags := objfileFlags oflags stack }) := by
  unfold objfileOpen
  rw [if_neg (by decide)]
  dsimp only
  rw [if_neg hlength]
  by_cases htrunc : hasFlag oflags oTrunc = true
  · rw [if_pos htrunc, if_pos htrunc]
  · rw [if_neg htrunc, if_neg htrunc]

/-- **What is written**, within the object. -/
theorem objfileWrite_eq {start : ℕ}
    (hstart : (if desc.flags.append then file.stSize else desc.offset) = start)
    (hfits : start + buf.length + pageSize ≤ desc.objsize) (hsize : desc.objsize < 2 ^ 64) :
    objfileWrite desc file buf = some (intOf buf.length, { desc with offset := start + buf.length },
      { stSize := max file.stSize (start + buf.length)
        data := copy file.data start buf.length fun i => buf.getD i 0 }) := by
  have hlast : (start + buf.length) % 2 ^ 64 = start + buf.length := Nat.mod_eq_of_lt (by omega)
  have hend : (start + buf.length + pageSize) % 2 ^ 64 = start + buf.length + pageSize :=
    Nat.mod_eq_of_lt (by omega)
  unfold objfileWrite
  dsimp only
  rw [hstart, hend, if_neg (not_lt.mpr hfits), hlast]
  by_cases hgrow : file.stSize < start + buf.length
  · rw [if_pos hgrow, max_eq_right hgrow.le]
  · rw [if_neg hgrow, max_eq_left (not_lt.mp hgrow)]

/-- **What is read**, from before the end, with a count that does not overflow. -/
theorem objfileRead_eq (hoff : desc.offset ≤ file.stSize) (hcount : desc.offset + nbyte < 2 ^ 64)
    (hlength : file.stSize + pageSize ≤ length) {n : ℕ}
    (hn : min (desc.offset + nbyte) file.stSize - desc.offset = n) :
    objfileRead length desc file nbyte = some
      ({ ret := intOf n, bytes := bytesFrom file.data desc.offset n, asserted := true },
        { desc with offset := desc.offset + n }) := by
  have hleft : (if file.stSize < (desc.offset + nbyte) % 2 ^ 64 then
      (2 ^ 64 + file.stSize - desc.offset) % 2 ^ 64 else nbyte) = n := by
    rw [Nat.mod_eq_of_lt hcount]
    by_cases hend : file.stSize < desc.offset + nbyte
    · rw [if_pos hend, ← hn, min_eq_right hend.le]
      omega
    · rw [if_neg hend, ← hn, min_eq_left (not_lt.mp hend)]
      omega
  have hinside : ¬ length < desc.offset + n + pageSize := by
    have hmin := min_le_right (desc.offset + nbyte) file.stSize
    omega
  unfold objfileRead
  dsimp only
  rw [hleft, decide_eq_true hoff, if_neg hinside]
  by_cases hzero : n = 0
  · rw [if_pos hzero, hzero]
    rfl
  · rw [if_neg hzero]

/-- What `_objfile_read` comes back from. -/
theorem objfileRead_fits {r : ObjAnswer × ObjFdesc}
    (hcall : objfileRead length desc file nbyte = some r)
    (hasserted : r.1.asserted = true) (hlength : file.stSize + pageSize ≤ length)
    (hlarge : length < 2 ^ 64) (hnbyte : nbyte < 2 ^ 64) :
    desc.offset ≤ file.stSize ∧ desc.offset + nbyte < 2 ^ 64 := by
  have hoff : desc.offset ≤ file.stSize := by
    unfold objfileRead at hcall
    dsimp only at hcall
    split_ifs at hcall with h₁ h₂ h₃
    all_goals
      obtain rfl := Option.some.inj hcall
      exact of_decide_eq_true hasserted
  refine ⟨hoff, ?_⟩
  by_contra hover
  -- the sum is small again, and the whole count is copied
  have hsum : (desc.offset + nbyte) % 2 ^ 64 ≤ file.stSize := by
    omega
  have hout : length < desc.offset + nbyte + pageSize := by
    omega
  have hnone : objfileRead length desc file nbyte = none := by
    unfold objfileRead
    dsimp only
    rw [if_neg (not_lt.mpr hsum), if_neg (by omega), if_pos hout]
  rw [hnone] at hcall
  cases hcall

/-! ### Calls -/

namespace ObjSystem

/-- A descriptor of a system. -/
theorem view_fds {desc : ObjFdesc} (h : s.descs p = some desc) :
    s.view.fds p = some (desc.offset, hasFlag (s.opened p) oAppend) := by
  simp only [view, h, Option.map_some]

/-- The array when one descriptor is changed. -/
theorem view_update (file : ObjFile) (desc : ObjFdesc) :
    ({ s with file := file, descs := Function.update s.descs p (some desc) } : ObjSystem).view =
      { bytes := file.data, size := file.stSize
        fds := Function.update s.view.fds p
          (some (desc.offset, hasFlag (s.opened p) oAppend)) } := by
  unfold view
  congr 1
  funext q
  by_cases hq : q = p
  · simp [hq]
  · simp [hq]

/-- What stays when one descriptor is changed. -/
theorem Kept.update (h : s.Kept) {old desc : ObjFdesc} {file : ObjFile}
    (hold : s.descs p = some old)
    (hsize : file.stSize + pageSize ≤ s.length) (hobjsize : desc.objsize = old.objsize)
    (hflags : desc.flags = old.flags) (hoffset : desc.offset + pageSize ≤ s.length) :
    ({ s with file := file, descs := Function.update s.descs p (some desc) } : ObjSystem).Kept := by
  refine ⟨h.length, hsize, fun q d hd => ?_⟩
  by_cases hq : q = p
  · subst hq
    simp only [Function.update_self, Option.mem_def, Option.some.injEq] at hd
    subst hd
    obtain ⟨hlen, -, happend⟩ := h.descs q old hold
    exact ⟨hobjsize.trans hlen, hoffset, fun hflag => hflags ▸ happend hflag⟩
  · simp only [Function.update_of_ne hq] at hd
    exact h.descs q d hd

end ObjSystem

open ObjSystem

/-- A file is opened. -/
theorem opened_served (h : s.Kept) (p oflags : ℕ) (stack : ObjFlags) :
    (ObjCall.opened p oflags stack).Served s ∧
      ∀ r s', objCall s (.opened p oflags stack) = some (r, s') → s'.Kept := by
  have hpos : s.length ≠ 0 := by
    have hsize := h.size
    unfold pageSize at hsize
    omega
  have hopen := objfileOpen_eq hpos oflags stack s.file
  constructor
  · refine ⟨_, _, rfl, rfl, ?_, nofun⟩
    rw [hopen]
    refine Prod.ext rfl ?_
    unfold ObjSystem.view ArrayFile.call
    dsimp only
    congr 1
    funext q
    by_cases hq : q = p
    · simp [hq]
    · simp [hq]
  · rintro r s' hcall
    obtain ⟨-, rfl⟩ := Prod.mk.inj (Option.some.inj hcall)
    rw [hopen]
    refine ⟨h.length, ?_, fun q d hd => ?_⟩
    · have hsize := h.size
      dsimp only
      split_ifs
      · omega
      · exact hsize
    · by_cases hq : q = p
      · subst hq
        simp only [Function.update_self, Option.mem_def, Option.some.injEq] at hd ⊢
        subst hd
        refine ⟨rfl, ?_, fun hflag => ?_⟩
        · have hsize := h.size
          dsimp only
          omega
        · rw [append_objfileFlags, hflag, Bool.true_or]
      · simp only [Function.update_of_ne hq] at hd ⊢
        exact h.descs q d hd

/-- **Which writes go where they are meant to.** -/
theorem write_served_iff (h : s.Kept) (hc : (ObjCall.write p buf).Given s) :
    ((ObjCall.write p buf).Served s ↔ (ObjCall.write p buf).Fits s) ∧
      ((ObjCall.write p buf).Fits s →
        ∀ r s', objCall s (.write p buf) = some (r, s') → s'.Kept) := by
  obtain ⟨desc, hdesc, hcapacity⟩ := hc
  obtain ⟨hobjsize, hoffset, happend⟩ := h.descs p desc hdesc
  have hsize := h.size
  have hlength := h.length
  have hfds := view_fds hdesc
  have hfits : (ObjCall.write p buf).Fits s ↔
      desc.flags.append = hasFlag (s.opened p) oAppend ∨ desc.offset = s.file.stSize :=
    ⟨fun hall => hall desc hdesc, fun hone d hd => Option.some.inj (hdesc.symm.trans hd) ▸ hone⟩
  rw [hfits]
  -- where it is written, as far as it is where it is meant to be
  have hstart : desc.flags.append = hasFlag (s.opened p) oAppend ∨ desc.offset = s.file.stSize →
      (if desc.flags.append then s.file.stSize else desc.offset) =
        if hasFlag (s.opened p) oAppend then s.file.stSize else desc.offset := by
    rintro (hflag | hend)
    · rw [hflag]
    · rw [hend, ite_self, ite_self]
  set start := if hasFlag (s.opened p) oAppend then s.file.stSize else desc.offset with hstartdef
  have hcall : desc.flags.append = hasFlag (s.opened p) oAppend ∨ desc.offset = s.file.stSize →
      objCall s (.write p buf) = some ({ ret := intOf buf.length, bytes := [], asserted := true },
        { s with
          file := { stSize := max s.file.stSize (start + buf.length)
                    data := copy s.file.data start buf.length fun i => buf.getD i 0 }
          descs := Function.update s.descs p
            (some { desc with offset := start + buf.length }) }) := by
    intro hone
    have hdesc' : s.descs p = some desc := hdesc
    unfold objCall
    dsimp only
    rw [hdesc', Option.bind_some, objfileWrite_eq (hstart hone) (by omega) (by omega),
      Option.map_some]
  refine ⟨⟨?_, fun hone => ?_⟩, fun hone r s' hcall' => ?_⟩
  · rintro ⟨r, s', hserved, -, hview, -⟩
    by_contra hnot
    obtain ⟨hflag, hend⟩ := not_or.mp hnot
    -- the bit is set, but the descriptor was not opened for appending
    have hfalse : hasFlag (s.opened p) oAppend = false := by
      by_contra htrue
      rw [Bool.not_eq_false] at htrue
      exact hflag ((happend htrue).trans htrue.symm)
    have htrue : desc.flags.append = true := by
      rw [hfalse] at hflag
      simpa using hflag
    obtain ⟨r', hwrite, heq⟩ : ∃ r', objfileWrite desc s.file buf = some r' ∧
        s' = { s with file := r'.2.2, descs := Function.update s.descs p (some r'.2.1) } := by
      have hdesc' : s.descs p = some desc := hdesc
      unfold objCall at hserved
      dsimp only at hserved
      rw [hdesc', Option.bind_some] at hserved
      obtain ⟨r', hr', heq⟩ := Option.map_eq_some_iff.mp hserved
      exact ⟨r', hr', (congrArg Prod.snd heq).symm⟩
    have hoff : r'.2.1.offset = (s.file.stSize + buf.length) % 2 ^ 64 := by
      unfold objfileWrite at hwrite
      dsimp only at hwrite
      rw [if_pos htrue] at hwrite
      split_ifs at hwrite
      all_goals
        obtain rfl := Option.some.inj hwrite
        rfl
    have hfd := congrArg (fun a => (a.2.fds p).map Prod.fst) hview
    rw [heq, view_update] at hfd
    simp only [ArrayFile.call, hfds, Function.update_self, Option.map_some, hoff, hfalse,
      Bool.false_eq_true, if_false, Option.some.injEq] at hfd
    rw [hstartdef, hfalse, if_neg Bool.false_ne_true] at hcapacity
    omega
  · refine ⟨_, _, hcall hone, rfl, ?_, nofun⟩
    rw [view_update]
    simp only [ArrayFile.call, hfds]
    rfl
  · obtain ⟨-, rfl⟩ := Prod.mk.inj (Option.some.inj ((hcall hone).symm.trans hcall'))
    refine h.update hdesc ?_ rfl rfl ?_
    · dsimp only
      omega
    · dsimp only
      omega

/-- **Which reads give what they are meant to.** -/
theorem read_served_iff (h : s.Kept) (hc : (ObjCall.read p nbyte).Given s) :
    ((ObjCall.read p nbyte).Served s ↔ (ObjCall.read p nbyte).Fits s) ∧
      ((ObjCall.read p nbyte).Fits s →
        ∀ r s', objCall s (.read p nbyte) = some (r, s') → s'.Kept) := by
  obtain ⟨hsome, hnbyte⟩ := hc
  obtain ⟨desc, hdesc⟩ := Option.ne_none_iff_exists'.mp hsome
  obtain ⟨hobjsize, hoffset, happend⟩ := h.descs p desc hdesc
  have hsize := h.size
  have hlength := h.length
  have hfds := view_fds hdesc
  set n := min (desc.offset + nbyte) s.file.stSize - desc.offset with hn
  set desc' : ObjFdesc := { desc with offset := desc.offset + n }
  have hfits : (ObjCall.read p nbyte).Fits s ↔
      desc.offset ≤ s.file.stSize ∧ desc.offset + nbyte < 2 ^ 64 ∧ n < 2 ^ 31 :=
    ⟨fun hall => hall desc hdesc, fun hone d hd => Option.some.inj (hdesc.symm.trans hd) ▸ hone⟩
  rw [hfits]
  have hread : objCall s (.read p nbyte) = (objfileRead s.length desc s.file nbyte).map fun r =>
      (r.1, { s with descs := Function.update s.descs p (some r.2) }) := by
    unfold objCall
    dsimp only
    rw [hdesc, Option.bind_some]
  have hcall : desc.offset ≤ s.file.stSize → desc.offset + nbyte < 2 ^ 64 →
      objCall s (.read p nbyte) = some
        ({ ret := intOf n, bytes := bytesFrom s.file.data desc.offset n, asserted := true },
          { s with descs := Function.update s.descs p (some desc') }) := by
    intro hoff hcount
    rw [hread, objfileRead_eq hoff hcount hsize hn.symm, Option.map_some]
  refine ⟨⟨?_, ?_⟩, ?_⟩
  · rintro ⟨r, s', hserved, hasserted, -, hret⟩
    rw [hread] at hserved
    obtain ⟨r', hr', heq⟩ := Option.map_eq_some_iff.mp hserved
    obtain ⟨rfl, -⟩ := Prod.mk.inj heq
    obtain ⟨hoff, hcount⟩ := objfileRead_fits hr' hasserted hsize hlength hnbyte
    rw [objfileRead_eq hoff hcount hsize hn.symm] at hr'
    obtain rfl := Option.some.inj hr'
    have hint := hret p nbyte rfl
    rw [length_bytesFrom] at hint
    exact ⟨hoff, hcount, intOf_eq_iff.mp hint⟩
  · rintro ⟨hoff, hcount, hint⟩
    refine ⟨_, _, hcall hoff hcount, rfl, ?_, fun q m _ => ?_⟩
    · rw [view_update]
      simp only [ArrayFile.call, hfds]
      rfl
    · rw [length_bytesFrom]
      exact intOf_eq_iff.mpr hint
  · rintro ⟨hoff, hcount, -⟩ r s' hcall'
    obtain ⟨-, rfl⟩ := Prod.mk.inj (Option.some.inj ((hcall hoff hcount).symm.trans hcall'))
    refine h.update hdesc hsize rfl rfl ?_
    change desc.offset + n + pageSize ≤ s.length
    omega

/-- **Which calls do what they are meant to.** -/
theorem objCall_served_iff (h : s.Kept) {c : ObjCall} (hc : c.Given s) :
    (c.Served s ↔ c.Fits s) ∧ (c.Fits s → ∀ s', objStep s c = some s' → s'.Kept) := by
  have hstep : (c.Fits s → ∀ r s', objCall s c = some (r, s') → s'.Kept) →
      c.Fits s → ∀ s', objStep s c = some s' → s'.Kept := by
    intro hkept hfits s' hs'
    obtain ⟨r, hr, rfl⟩ := Option.map_eq_some_iff.mp hs'
    exact hkept hfits r.1 r.2 hr
  cases c with
  | opened p oflags stack =>
    obtain ⟨hserved, hkept⟩ := opened_served h p oflags stack
    exact ⟨iff_of_true hserved trivial, hstep fun _ => hkept⟩
  | write p buf => exact ⟨(write_served_iff h hc).1, hstep (write_served_iff h hc).2⟩
  | read p nbyte => exact ⟨(read_served_iff h hc).1, hstep (read_served_iff h hc).2⟩

/-! ### Runs -/

/-- A file that is not open, in an object of the length. -/
def closedFile (file : ObjFile) (length : ℕ) : ObjSystem where
  file := file
  length := length
  descs _ := none
  opened _ := 0

/-- **When object files behave as byte arrays.**  In a run of calls through any descriptors of a
file all calls do to it what they are meant to do to the array, and no assertion of `_objfile_read`
fails, if and only if each write is through a descriptor with the bit for appending as it was opened
or at the end of the file, and each read from before the end, with a count that neither overflows
nor is too large for the answer. -/
theorem objectFiles_iff (file : ObjFile) {length : ℕ} (hlength : length < 2 ^ 64)
    (hfile : file.stSize + pageSize ≤ length) (calls : List ObjCall)
    (hgiven : Along objStep (fun s c => c.Given s) (closedFile file length) calls) :
    Along objStep (fun s c => c.Served s) (closedFile file length) calls ↔
      Along objStep (fun s c => c.Fits s) (closedFile file length) calls := by
  refine along_congr_of (I := ObjSystem.Kept) (fun s c h hc => (objCall_served_iff h hc).1)
    (fun s c s' h hc hfits hs' => (objCall_served_iff h hc).2 hfits s' hs') calls _ ?_ hgiven
  exact ⟨hlength, hfile, nofun⟩

/-- A file with five bytes, in an object of two pages. -/
def fiveBytes : ObjFile := ⟨5, fun i => BitVec.ofNat 8 i⟩

/-- Bytes are read, and the file is cut off through another descriptor. -/
def cutCalls : List ObjCall :=
  [.opened 1 oRdonly ⟨false, false, false⟩, .read 1 3, .opened 2 oTrunc ⟨false, false, false⟩]

theorem objectFiles_iff_cutCalls :
    Along objStep (fun s c => c.Served s) (closedFile fiveBytes 8192) cutCalls ↔
      Along objStep (fun s c => c.Fits s) (closedFile fiveBytes 8192) cutCalls :=
  objectFiles_iff fiveBytes (by decide) (by decide) cutCalls (by decide +kernel)

/-- **Where files are no arrays**: a file is read on that was cut off through another descriptor;
and one is written that was opened, not for appending, where the bit for that was on the stack. -/
theorem objectFiles_not_served :
    (Along objStep (fun s c => c.Given s) (closedFile fiveBytes 8192) (cutCalls ++ [.read 1 1]) ∧
      ¬ Along objStep (fun s c => c.Served s) (closedFile fiveBytes 8192)
        (cutCalls ++ [.read 1 1])) ∧
    (Along objStep (fun s c => c.Given s) (closedFile fiveBytes 8192)
        ([.opened 1 oRdwr ⟨false, false, true⟩] ++ [.write 1 [7]]) ∧
      ¬ Along objStep (fun s c => c.Served s) (closedFile fiveBytes 8192)
        ([.opened 1 oRdwr ⟨false, false, true⟩] ++ [.write 1 [7]])) := by
  refine ⟨⟨by decide +kernel, fun h => ?_⟩, by decide +kernel, fun h => ?_⟩
  · have hrun : ((run objStep (closedFile fiveBytes 8192) cutCalls).bind fun s =>
        objCall s (.read 1 1)).isNone = true := by
      decide +kernel
    have hrun' : (run objStep (closedFile fiveBytes 8192) cutCalls).isSome = true := by
      decide +kernel
    obtain ⟨s, hs⟩ := Option.isSome_iff_exists.mp hrun'
    obtain ⟨r, s', hcall, -⟩ := h.at hs
    rw [hs, Option.bind_some, hcall] at hrun
    cases hrun
  · have hrun : ((run objStep (closedFile fiveBytes 8192)
        [.opened 1 oRdwr ⟨false, false, true⟩]).bind fun s =>
          (objCall s (.write 1 [7])).map fun r =>
            (r.2.view.size, (s.view.call (.write 1 [7])).2.size)) = some (6, 5) := by
      decide +kernel
    obtain ⟨s, hs, hwrite⟩ := Option.bind_eq_some_iff.mp hrun
    obtain ⟨r, s', hcall, -, hview, -⟩ := h.at hs
    rw [hcall, Option.map_some] at hwrite
    obtain ⟨hsix, hfive⟩ := Prod.mk.inj (Option.some.inj hwrite)
    have hsame := congrArg (fun a => a.2.size) hview
    dsimp only at hsame hsix
    rw [hsix, hfive] at hsame
    cases hsame

end Mungi.Posix
