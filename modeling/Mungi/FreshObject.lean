import Mungi.Passwd
import Mungi.PdxRegistered

/-!
# Fresh objects

`object_add` writes some fields of the memory that `kmalloc` hands out, and leaves the PDX
table as it was.  So an object is fresh when that memory holds no PDX password with entry
points; and if the table there is empty, nothing can be told from the old contents.

## Main definitions

* `NoAuthority` — only the first password of an object allows anything.
* `NoPdx` — memory that holds no PDX password with entry points.
* `HeapOp`, `heapStep` — creations, registrations and deletions; the memory of a deleted
  object keeps what it holds.

## Main results

* `objectCreate_noAuthority` — **when an object is fresh**, and when its answers do not
  depend on the old contents.
* `objectCreate_inherits` — an object that inherits a PDX password.
-/

namespace Mungi

open Runs SearchLoop

variable {O : Type}

/-! ### The specification -/

/-- Only the password `first` allows anything, and nothing beyond `M_OWNER`; there is no PDX
entry point and no Clist for one. -/
structure NoAuthority (obj : Obj) (first : ℕ) : Prop where
  validate : ∀ passwd access proc pdxSlot,
    (doValidatePasswd obj passwd access proc pdxSlot).1 = .allowed ↔
      passwd = first ∧ ¬ access.IsPdx ∧ mOwner.Covers access
  getClist : ∀ proc passwd, objectPdxGetClist obj proc passwd = Cap.null

/-- Memory in which no slot in use has an entry point, and the search for a Clist finds
none, or one that is `NULL_CAP`. -/
structure NoPdx (info : ObjInfo) : Prop where
  unused : ∀ i : ℤ, 0 ≤ i → i < info.nPdx → info.pdx.xEntry i ≤ info.pdx.nEntry i
  null : ∀ (i : ℤ) passwd proc, 0 ≤ i → i < oMaxPdx → info.pdx.Lists i passwd proc →
    (∀ j, i < j → j < oMaxPdx → ¬ info.pdx.Lists j passwd proc) →
    passwd = 0 ∧ (info.pdx.clist i).address = 0

/-! ### The password table of a fresh object -/

/-- The first place is the only one in use, with `M_OWNER`. -/
structure FirstOnly (obj : Obj) (first : ℕ) : Prop where
  nCaps : obj.info.nCaps = 1
  passwd : obj.info.passwd 0 = first
  rights : obj.info.rights 0 = mOwner

theorem firstOnly_objectInit (junk : ObjInfo) (addr length first : ℕ) :
    FirstOnly (objectInit junk addr length first) first := by
  refine ⟨rfl, ?_, ?_⟩
  · change Function.update junk.passwd 0 first 0 = first
    exact Function.update_self ..
  · change Function.update junk.rights 0 mOwner 0 = mOwner
    exact Function.update_self ..

section FirstOnly
variable {obj : Obj} {first : ℕ}

/-- No right of `M_OWNER` is negative. -/
theorem not_forbids_mOwner (access : Access) : ¬ mOwner.Forbids access := by
  rintro ⟨-, hnot⟩
  revert hnot
  decide

theorem FirstOnly.std (h : FirstOnly obj first) (passwd : ℕ) (access : Access) :
    (doValidatePasswdStd obj passwd access).1 =
      if passwd = first ∧ mOwner.Covers access then .allowed else .unknown := by
  have hslot : ∀ {i}, obj.FirstDecisive passwd access i →
      i = 0 ∧ passwd = first ∧ mOwner.Covers access := by
    intro i hi
    have hlt := hi.lt
    rw [h.nCaps] at hlt
    obtain rfl : i = 0 := by
      have := hi.nonneg
      omega
    have hdecides := hi.decides
    rw [h.rights] at hdecides
    exact ⟨rfl, hi.passwd_eq.symm.trans h.passwd, hdecides.resolve_left (not_forbids_mOwner access)⟩
  rcases doValidatePasswdStd_spec obj passwd access with ⟨i, hi, heq⟩ | ⟨hno, heq⟩
  · obtain ⟨rfl, hboth⟩ := hslot hi
    rw [heq, h.rights, if_neg (not_forbids_mOwner access), if_pos hboth]
  · rw [heq, if_neg]
    rintro ⟨hp, hcov⟩
    refine hno (Obj.exists_firstDecisive (i := 0) le_rfl ?_ (h.passwd.trans hp.symm) ?_)
    · rw [h.nCaps]
      exact Int.one_pos
    · rw [h.rights]
      exact Or.inr hcov

/-- What the password table makes of an access other than a PDX call. -/
theorem FirstOnly.validate (h : FirstOnly obj first) (passwd : ℕ) (access : Access)
    (proc : ℕ) (pdxSlot : ℤ) :
    (doValidatePasswd obj passwd access proc pdxSlot).1 =
      if access.IsPdx then (doValidatePasswdPdx obj passwd proc pdxSlot).1
      else if passwd = first ∧ mOwner.Covers access then .allowed else .unknown := by
  unfold doValidatePasswd
  by_cases hp : access.IsPdx
  · rw [if_neg (not_not.mpr hp), if_pos hp]
  · rw [if_pos hp, if_neg hp, ← h.std]

/-- **An object is fresh if and only if it has no PDX passwords.** -/
theorem FirstOnly.noAuthority_iff (h : FirstOnly obj first) :
    NoAuthority obj first ↔ NoPdx obj.info := by
  constructor
  · rintro ⟨hvalidate, hclist⟩
    refine ⟨fun i h₁ h₂ => ?_, fun i passwd proc h₁ h₂ hlist hlast => ?_⟩
    · by_contra hlt
      have hallowed := (doValidatePasswdPdx_allowed obj (obj.info.pdx.passwd i)
        (obj.info.pdx.entry (obj.info.pdx.nEntry i)) (-1)).mpr
        ⟨i, h₁, h₂, rfl, _, le_rfl, not_le.mp hlt, rfl⟩
      have hpdx : mPdx.IsPdx := by decide
      have hno := hvalidate (obj.info.pdx.passwd i) mPdx
        (obj.info.pdx.entry (obj.info.pdx.nEntry i)) (-1)
      rw [h.validate, if_pos hpdx] at hno
      exact (hno.mp hallowed).2.1 hpdx
    · have hnull := hclist proc passwd
      rcases objectPdxGetClist_spec obj proc passwd with ⟨j, hj₁, hj₂, hj, hjlast, heq⟩ | ⟨hno, -⟩
      · obtain rfl : j = i := by
          rcases lt_trichotomy i j with hij | hij | hij
          · exact absurd hj (hlast j hij hj₂)
          · exact hij.symm
          · exact absurd hlist (hjlast i hij h₂)
        rw [heq] at hnull
        obtain ⟨haddr, hp⟩ := Cap.mk.inj hnull
        exact ⟨hp, haddr⟩
      · exact absurd hlist (hno i h₁ h₂)
  · rintro ⟨hunused, hnull⟩
    refine ⟨fun passwd access proc pdxSlot => ?_, fun proc passwd => ?_⟩
    · rw [h.validate]
      by_cases hp : access.IsPdx
      · rw [if_pos hp, doValidatePasswdPdx_allowed]
        refine iff_of_false ?_ fun hall => hall.2.1 hp
        rintro ⟨i, h₁, h₂, -, j, hj₁, hj₂, -⟩
        have := hunused i h₁ h₂
        omega
      · rw [if_neg hp]
        split_ifs with hcov
        · exact iff_of_true rfl ⟨hcov.1, hp, hcov.2⟩
        · exact iff_of_false nofun fun hall => hcov ⟨hall.1, hall.2.2⟩
    · rcases objectPdxGetClist_spec obj proc passwd with ⟨i, h₁, h₂, hi, hlast, heq⟩ | ⟨-, heq⟩
      · obtain ⟨hp, haddr⟩ := hnull i passwd proc h₁ h₂ hi hlast
        rw [heq, haddr, hp]
        rfl
      · exact heq

end FirstOnly

/-! ### Later calls -/

/-- Calls of `object_pdx` one after another, and their results. -/
def objectPdxs : Obj → List PdxCall → Option (List Bool × Obj)
  | obj, [] => some ([], obj)
  | obj, call :: calls =>
    (objectPdx obj call).bind fun r => (objectPdxs r.2 calls).map fun r' => (r.1 :: r'.1, r'.2)

/-- The same on a list of registrations. -/
def pdxInserts (base limit : ℕ) : List PdxRow → List PdxCall → List Bool × List PdxRow
  | rows, [] => ([], rows)
  | rows, call :: calls =>
    let r := pdxInsert base limit rows call
    let r' := pdxInserts base limit r.2 calls
    (r.1 :: r'.1, r'.2)

/-- None of the calls empties a slot of a full table. -/
def PdxsKept (base limit : ℕ) : List PdxRow → List PdxCall → Prop
  | _, [] => True
  | rows, call :: calls =>
    PdxKept base limit rows call ∧ PdxsKept base limit (pdxInsert base limit rows call).2 calls

theorem objectPdxs_rows {obj : Obj} {rows : List PdxRow} {first : ℕ} {calls : List PdxCall}
    (h : PdxRows obj.info rows) (hstale : obj.info.Stale) (hfirst : FirstOnly obj first)
    (hkept : PdxsKept obj.base obj.limit rows calls) :
    ∃ obj', objectPdxs obj calls = some ((pdxInserts obj.base obj.limit rows calls).1, obj') ∧
      PdxRows obj'.info (pdxInserts obj.base obj.limit rows calls).2 ∧ obj'.info.Stale ∧
      FirstOnly obj' first := by
  induction calls generalizing obj rows with
  | nil => exact ⟨obj, rfl, h, hstale, hfirst⟩
  | cons call calls ih =>
    obtain ⟨obj₁, hpdx, hrows, hframe, hstale₁⟩ := objectPdx_rows h call
    have hbase : obj₁.base = obj.base := by rw [hframe]
    have hlimit : obj₁.limit = obj.limit := by rw [hframe]
    have hfirst₁ : FirstOnly obj₁ first := by
      rw [hframe]
      exact ⟨hfirst.nCaps, hfirst.passwd, hfirst.rights⟩
    obtain ⟨obj', hrest, hrows', hstale', hfirst'⟩ :=
      ih hrows (hstale₁ hkept.1 hstale) hfirst₁ (by rw [hbase, hlimit]; exact hkept.2)
    rw [hbase, hlimit] at hrest hrows'
    refine ⟨obj', ?_, hrows', hstale', hfirst'⟩
    rw [objectPdxs, hpdx, Option.bind_some, hrest]
    rfl

/-- Tables that hold the same registrations give the same answers. -/
theorem PdxRows.same_answers {obj obj' : Obj} {rows : List PdxRow} {first : ℕ}
    (h : PdxRows obj.info rows) (hstale : obj.info.Stale) (hfirst : FirstOnly obj first)
    (h' : PdxRows obj'.info rows) (hstale' : obj'.info.Stale) (hfirst' : FirstOnly obj' first) :
    (∀ passwd access proc pdxSlot,
      (doValidatePasswd obj passwd access proc pdxSlot).1 = .allowed ↔
        (doValidatePasswd obj' passwd access proc pdxSlot).1 = .allowed) ∧
    ∀ proc passwd, objectPdxGetClist obj proc passwd = objectPdxGetClist obj' proc passwd := by
  refine ⟨fun passwd access proc pdxSlot => ?_, fun proc passwd => ?_⟩
  · rw [hfirst.validate, hfirst'.validate]
    by_cases hp : access.IsPdx
    · rw [if_pos hp, if_pos hp, h.validate, h'.validate]
    · rw [if_neg hp, if_neg hp]
  · rw [h.getClist hstale, h'.getClist hstale']

/-! ### The heap -/

section Heap
variable [DecidableEq O]

/-- Calls that use the heap; `kmalloc` hands out the block `o`. -/
inductive HeapOp (O : Type) where
  | create (length passwd : ℕ) (o : O)
  | delete (addr : ℕ)
  | passwd (o : O) (passwd : ℕ) (rights : Access)
  | pdx (o : O) (call : PdxCall)

/-- The contents of a new object come from what its block was used for before. -/
def heapCreate (pageSize : ℕ) (s : System O) (length passwd : ℕ) (o : O) : System O × Option O :=
  objectCreate pageSize s length passwd (some (o, (s.kernel.obj o).info))

/-- One call. -/
def heapStep (pageSize : ℕ) (s : System O) : HeapOp O → Option (System O)
  | .create length passwd o => some (heapCreate pageSize s length passwd o).1
  | .delete addr => (objectDelete pageSize s addr).map Prod.fst
  | .passwd o passwd rights =>
    some { s with kernel := s.kernel.setObj o (objectPasswd (s.kernel.obj o) passwd rights).2 }
  | .pdx o call =>
    (objectPdx (s.kernel.obj o) call).map fun r => { s with kernel := s.kernel.setObj o r.2 }

variable {pageSize length first : ℕ} {s s' : System O} {o : O}

/-- The new object. -/
theorem heapCreate_obj (h : heapCreate pageSize s length first o = (s', some o)) :
    s'.kernel.obj o = objectInit (s.kernel.obj o).info (kmallocObj pageSize s.free length).1
      length first := by
  unfold heapCreate objectCreate at h
  dsimp only at h
  split at h
  · cases h
  unfold objectAdd at h
  dsimp only at h
  split at h
  · rename_i hadd
    split at hadd
    · obtain ⟨rfl, -⟩ := Prod.mk.inj hadd
      obtain ⟨rfl, -⟩ := Prod.mk.inj h
      exact Kernel.setObj_self ..
    · cases hadd
  · cases h

/-- The PDX table in some memory is empty, in all slots. -/
def ObjInfo.PdxEmpty (info : ObjInfo) : Prop := info.nPdx = 0 ∧ info.Stale

theorem ObjInfo.PdxEmpty.rows {junk : ObjInfo} (h : junk.PdxEmpty) (addr length first : ℕ) :
    PdxRows (objectInit junk addr length first).info [] ∧
      (objectInit junk addr length first).info.Stale :=
  ⟨⟨h.1, by decide, by decide, List.nodup_nil, by simp, fun l row l' hl => by simp at hl⟩, h.2⟩

/-- **An object is fresh if and only if the memory it gets holds no PDX password with entry
points**; and if the PDX tables in two memories are empty, later calls of `object_pdx` and
validations have the same results on both, as long as no slot of a full table is emptied. -/
theorem objectCreate_noAuthority (h : heapCreate pageSize s length first o = (s', some o)) :
    (NoAuthority (s'.kernel.obj o) first ↔ NoPdx (s.kernel.obj o).info) ∧
    ∀ (junk : Obj) (t' : System O) (calls : List PdxCall),
      heapCreate pageSize ⟨s.kernel.setObj o junk, s.free⟩ length first o = (t', some o) →
      (s.kernel.obj o).info.PdxEmpty → junk.info.PdxEmpty →
      PdxsKept (s'.kernel.obj o).base (s'.kernel.obj o).limit [] calls →
      ∃ results obj obj', objectPdxs (s'.kernel.obj o) calls = some (results, obj) ∧
        objectPdxs (t'.kernel.obj o) calls = some (results, obj') ∧
        (∀ passwd access proc pdxSlot,
          (doValidatePasswd obj passwd access proc pdxSlot).1 = .allowed ↔
            (doValidatePasswd obj' passwd access proc pdxSlot).1 = .allowed) ∧
        ∀ proc passwd, objectPdxGetClist obj proc passwd = objectPdxGetClist obj' proc passwd := by
  rw [heapCreate_obj h]
  refine ⟨?_, fun junk t' calls ht hempty hempty' hkept => ?_⟩
  · rw [(firstOnly_objectInit ..).noAuthority_iff]
    exact ⟨fun hno => ⟨hno.1, hno.2⟩, fun hno => ⟨hno.1, hno.2⟩⟩
  · rw [heapCreate_obj ht, Kernel.setObj_self]
    obtain ⟨hrows, hstale⟩ := hempty.rows (kmallocObj pageSize s.free length).1 length first
    obtain ⟨hrows', hstale'⟩ := hempty'.rows (kmallocObj pageSize s.free length).1 length first
    obtain ⟨obj, hrun, hobj, hst, hfirst⟩ :=
      objectPdxs_rows hrows hstale (firstOnly_objectInit ..) hkept
    obtain ⟨obj', hrun', hobj', hst', hfirst'⟩ :=
      objectPdxs_rows hrows' hstale' (firstOnly_objectInit ..) hkept
    exact ⟨_, obj, obj', hrun, hrun', hobj.same_answers hst hfirst hobj' hst' hfirst'⟩

end Heap

/-- Two objects one after the other in the same memory, the first with a PDX password. -/
def reuse : List (HeapOp ℕ) :=
  [.create 0x1000 22 1, .pdx 1 (oneEntry 5 0x9000 0x1000), .delete 0x1000]

/-- The first object that is made is fresh. -/
theorem objectCreate_noAuthority_emptyKernel : ∃ s',
    heapCreate 0x1000 ⟨emptyKernel, freeInit 0x1000 (0x3000 - 0x1000)⟩ 0x1000 22 1 = (s', some 1) ∧
      NoAuthority (s'.kernel.obj 1) 22 := by
  have hcreate : heapCreate 0x1000 ⟨emptyKernel, freeInit 0x1000 (0x3000 - 0x1000)⟩ 0x1000 22 1
    = (_, some 1) := rfl
  refine ⟨_, hcreate, (objectCreate_noAuthority hcreate).1.mpr ⟨fun i h₁ h₂ => ?_, ?_⟩⟩
  · exact absurd h₁ (not_le.mpr h₂)
  · rintro i passwd proc - - ⟨-, j, h₁, h₂, -⟩ -
    exact absurd h₁ (not_le.mpr h₂)

/-- The second object inherits the PDX password. -/
theorem objectCreate_inherits : ∃ s s',
    run (heapStep 0x1000) ⟨emptyKernel, freeInit 0x1000 (0x3000 - 0x1000)⟩ reuse = some s ∧
      heapCreate 0x1000 s 0x1000 33 1 = (s', some 1) ∧
      (doValidatePasswd (s'.kernel.obj 1) 5 mPdx 0x1000 (-1)).1 = .allowed ∧
      objectPdxGetClist (s'.kernel.obj 1) 0x1000 5 ≠ Cap.null ∧
      ¬ NoAuthority (s'.kernel.obj 1) 33 := by
  refine ⟨_, _, rfl, rfl, by decide, by decide, fun hno => ?_⟩
  exact absurd (hno.getClist 0x1000 5) (by decide)

end Mungi
