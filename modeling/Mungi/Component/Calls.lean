import Mungi.Component.Instances
import Mungi.Component.Registry
import Mungi.Naming.NameRuns

/-!
# Calls of a component

A program calls the component for name trees through a record with a capability for an instance and
one for a parameter buffer (`INameTree_io.c`).  A call puts the capability and its parameters into
the buffer and asks for the entry point, which is kept in the record from then on.  The procedure
gets them out of the buffer again, tests that the instance is valid, and calls the function of the
component (`CNameTree_ccs.c`, `CNameTree_cci.c`), which has its name tree behind the data of the
instance.  What an exception leaves of a result is the code for success.

`int_rlookup` and `int_fenum`, which have more parameters, are left out, and so are the rights of
protection domains, with the calls that the system refuses.  `validate_cicap` is 1, so that a method
does not test the password.  A failed assertion gives no result.

## Main definitions

* `Machine`, `World` — what is given, and the state.
* `cntIntCreate`, `cntIntDelete`, `cntIntLookup`, `cntIntModify` — the component.
* `stub`, `request` — the two ends of a call.
* `intCreateConstructor`, `intCicapConstructor`, `intDestructor` — records of instances.

## Main results

* `registered_of_regmap` — the entry points are found.
* `request_eq` — **a call through the buffer is a call of the function on the instance.**
-/

namespace Mungi.Component

open Bytes Naming Runs

/-! ### The code -/

/-- The procedures that are registered. -/
inductive Proc where
  | nameserverGet
  | nameserverSet
  | create
  | delete
  | lookup
  | modify
  | rlookup
  | fenum
  | constructor
  | destructor
  deriving DecidableEq

/-- `CID_CNAMETREE` -/
def cidCnametree : BitVec 64 := 0x00370100

/-- `IID_INAMETREE` -/
def iidInametree : BitVec 64 := 0x69

/-- `IID_CLASS_INTERFACE` -/
def iidClassInterface : BitVec 64 := 5

/-- `MID_INT_START` -/
def midIntStart : ℕ := 101

/-- The interface of a procedure of the component. -/
def Proc.iid : Proc → BitVec 64
  | .nameserverGet | .nameserverSet => 0
  | .constructor | .destructor => iidClassInterface
  | _ => iidInametree

/-- The method. -/
def Proc.mid : Proc → BitVec 16
  | .nameserverGet => 0
  | .nameserverSet => 1
  | .create => 101
  | .delete => 102
  | .lookup => 103
  | .modify => 104
  | .rlookup => 105
  | .fenum => 106
  | .constructor => 6
  | .destructor => 7

/-- What is given: the byte order, the layout of flags, the addresses of the procedures, what
`ObjCreate` answers for the object of the instances, and a bound for the length of strings. -/
structure Machine where
  order : ByteOrder
  layout : FlagLayout
  addr : Proc → BitVec 64
  page : BitVec 64
  strlen : ℕ

/-- `_rm_entries` -/
def rmEntries (addr : Proc → BitVec 64) : List CmptRegDesc :=
  [⟨true, [⟨0, 0, 0, addr .nameserverGet⟩, ⟨0, 0, 1, addr .nameserverSet⟩]⟩,
    ⟨false, [⟨cidCnametree, iidInametree, 101, addr .create⟩,
      ⟨cidCnametree, iidInametree, 102, addr .delete⟩,
      ⟨cidCnametree, iidInametree, 103, addr .lookup⟩,
      ⟨cidCnametree, iidInametree, 104, addr .modify⟩,
      ⟨cidCnametree, iidInametree, 105, addr .rlookup⟩,
      ⟨cidCnametree, iidInametree, 106, addr .fenum⟩,
      ⟨cidCnametree, iidClassInterface, 6, addr .constructor⟩,
      ⟨cidCnametree, iidClassInterface, 7, addr .destructor⟩]⟩]

/-- `environment_t`; nothing where `_minor` is not set. -/
structure Env where
  major : BitVec 8
  minor : Option (BitVec 16)

/-- `INameTree_t` -/
structure INameTree where
  acicap : Cicap
  ecicap : Cicap
  cid : BitVec 64
  pb : CapT
  epts : ℕ → BitVec 64

/-- The memory and the data of the component, the entry points, and the name trees by their
addresses. -/
structure World extends Pool where
  slots : List NsSlot
  trees : ℕ → Option NsSpace

/-- What the heaps of the trees answer in a call: the address of a new tree and what is in
`malloc_cap` then, and the memory for an entry. -/
structure HeapAnswer where
  tree : Option (BitVec 64)
  cap : CapT
  mem : NsMem

/-- The string in memory, if it is not too long. -/
def pathAt (m : ℕ → BitVec 8) : ℕ → ℕ → Option NsPath
  | 0, _ => none
  | n + 1, p =>
    if h : m p = 0 then some ⟨[], List.not_mem_nil⟩
    else (pathAt m n (p + 1)).map fun w =>
      ⟨m p :: w.chars, fun h' => (List.mem_cons.mp h').elim (fun h₀ => h h₀.symm) w.noNul⟩

/-- `strcpy` of a path. -/
def strcpyPath (m : ℕ → BitVec 8) (p : ℕ) (w : NsPath) : ℕ → BitVec 8 :=
  copy m p (w.chars.length + 1) fun i => w.chars.getD i 0

/-- `BTC_OK` or `BTC_ERROR` -/
def btc (code : NsCode) : BitVec 32 := if code = .ok then 0 else 1

theorem long_pow : 2 ^ 64 = 256 ^ 8 := by decide

theorem long_le : 8 ≤ 16 := by decide

theorem int_pow : 2 ^ 32 = 256 ^ 4 := by decide

theorem int_le : 4 ≤ 8 := by decide

section Formats
variable (o : ByteOrder)

/-- A `long` parameter, with its space in the buffer. -/
def longParam : Format (BitVec 64) := .number o 8 16 long_pow long_le

/-- An `int` parameter. -/
def intParam : Format (BitVec 32) := .number o 4 8 int_pow int_le

/-- A `cap_t` parameter. -/
def capParam : Format CapT :=
  .record (.pair (word o) (longParam o)) (fun c => (c.address, c.passwd)) (fun x => ⟨x.1, x.2⟩)
    fun _ => rfl

/-- `cicap_t` in memory. -/
def cicapFormat : Format Cicap :=
  .record (.pair (word o) (word o)) (fun c => (c.password, c.ref)) (fun x => ⟨x.1, x.2⟩)
    fun _ => rfl

/-- The parameters of `int_create`. -/
def createParams : Format (CapT × BitVec 64 × BitVec 64 × BitVec 64) :=
  .pair (capParam o) (.pair (longParam o) (.pair (longParam o) (longParam o)))

/-- The parameters of `int_delete`. -/
def deleteParams : Format (CapT × BitVec 64) := .pair (capParam o) (longParam o)

/-- The parameters of `int_lookup`. -/
def lookupParams : Format (CapT × BitVec 64 × BitVec 32 × BitVec 32) :=
  .pair (capParam o) (.pair (longParam o) (.pair (intParam o) (intParam o)))

/-- The parameters of `int_modify`. -/
def modifyParams : Format (CapT × BitVec 64 × BitVec 64 × BitVec 64 × BitVec 64) :=
  .pair (capParam o) (.pair (longParam o) (.pair (longParam o) (.pair (longParam o) (longParam o))))

end Formats

section Code
variable (M : Machine) (a : HeapAnswer)

/-- A call of a function of `nstree.c`, and what is returned for it. -/
def onTree (obj : CapT) (nameOffset : BitVec 64) (cthis : Cnt) (s : World)
    (f : NsSpace → NsPath → Option (NsCode × NsSpace)) : Option (BitVec 32 × Cnt × World) :=
  (pathAt s.mem M.strlen (obj.address + nameOffset).toNat).bind fun name =>
    (s.trees cthis.btree.toNat).bind fun t =>
      (f t name).map fun r =>
        (btc r.1, cthis, { s with trees := Function.update s.trees cthis.btree.toNat (some r.2) })

/-- `cnt_int_create` -/
def cntIntCreate (obj : CapT) (nameOffset flags value : BitVec 64) (cthis : Cnt) (s : World) :
    Option (BitVec 32 × Cnt × World) :=
  if cthis.btree = 0 then
    match a.tree with
    | none => some (1, ⟨0, a.cap⟩, s)
    | some b =>
      onTree M obj nameOffset ⟨b, a.cap⟩
        { s with trees := Function.update s.trees b.toNat (some (nsCreate b.toNat)) }
        fun t name => nsAdd M.layout t a.mem name flags value
  else onTree M obj nameOffset cthis s fun t name => nsAdd M.layout t a.mem name flags value

/-- `cnt_int_delete` -/
def cntIntDelete (obj : CapT) (nameOffset : BitVec 64) (cthis : Cnt) (s : World) :
    Option (BitVec 32 × Cnt × World) :=
  if cthis.btree = 0 then some (1, cthis, s)
  else onTree M obj nameOffset cthis s fun t name => nsDel M.layout t a.mem name

/-- `cnt_int_lookup`; `ret_flags` is not used. -/
def cntIntLookup (obj : CapT) (nameOffset : BitVec 64) (_retFlags retOffset : BitVec 32)
    (cthis : Cnt) (s : World) : Option (BitVec 32 × Cnt × World) :=
  if cthis.btree = 0 then some (1, cthis, s)
  else
    (pathAt s.mem M.strlen (obj.address + nameOffset).toNat).bind fun name =>
      (s.trees cthis.btree.toNat).bind fun t =>
        (nsLookup M.layout t a.mem name).map fun r =>
          if r.1 ≠ .ok then (1, cthis, s)
          else
            let ent := (obj.address + retOffset.signExtend 64).toNat
            -- the root directory has neither flags nor a value
            let node := (r.2.map NsItem.node).getD ⟨0, 0⟩
            let m := (word M.order).put s.mem ent node.value
            let m := (word M.order).put m (ent + 8) node.flags
            (0, cthis, { s with mem := m })

/-- `cnt_int_modify` -/
def cntIntModify (obj : CapT) (nameOffset newNameOffset flags value : BitVec 64) (cthis : Cnt)
    (s : World) : Option (BitVec 32 × Cnt × World) :=
  if obj.address = 0 then none
  else if cthis.btree = 0 then some (1, cthis, s)
  else
    (if newNameOffset ≠ -1 then
        (pathAt s.mem M.strlen (obj.address + newNameOffset).toNat).map some
      else some none).bind fun rename =>
      onTree M obj nameOffset cthis s fun t name =>
        nsModify M.layout t a.mem name flags value rename

/-- What `cnt_int_stub_create` and the others have in common: the parameters, and the function that
is called. -/
def stub {α : Type} (params : Format α)
    (method : α → Cnt → World → Option (BitVec 32 × Cnt × World)) (param : CapT) (s : World) :
    Option (ResDesc × World) :=
  let pb := param.address.toNat
  let hdr := ((cicapFormat M.order).get s.mem pb).ref
  let x := params.get s.mem (pb + 16)
  if isNotValid M.order s.mem hdr then some (stubException 201, s)
  else
    let inst := hdr.toNat + cihdrSize
    (method x ((cntFormat M.order).get s.mem inst) s).map fun r =>
      (⟨r.1.setWidth 64, 0, 0⟩,
        { r.2.2 with mem := (cntFormat M.order).put r.2.2.mem inst r.2.1 })

/-- `cnt_int_stub_create` -/
def cntIntStubCreate : CapT → World → Option (ResDesc × World) :=
  stub M (createParams M.order) fun x => cntIntCreate M a x.1 x.2.1 x.2.2.1 x.2.2.2

/-- `cnt_int_stub_delete` -/
def cntIntStubDelete : CapT → World → Option (ResDesc × World) :=
  stub M (deleteParams M.order) fun x => cntIntDelete M a x.1 x.2

/-- `cnt_int_stub_lookup` -/
def cntIntStubLookup : CapT → World → Option (ResDesc × World) :=
  stub M (lookupParams M.order) fun x => cntIntLookup M a x.1 x.2.1 x.2.2.1 x.2.2.2

/-- `cnt_int_stub_modify` -/
def cntIntStubModify : CapT → World → Option (ResDesc × World) :=
  stub M (modifyParams M.order) fun x => cntIntModify M a x.1 x.2.1 x.2.2.1 x.2.2.2.1 x.2.2.2.2

/-- A procedure. -/
def runProc (param : CapT) (s : World) : Proc → Option (ResDesc × World)
  | .create => cntIntStubCreate M a param s
  | .delete => cntIntStubDelete M a param s
  | .lookup => cntIntStubLookup M a param s
  | .modify => cntIntStubModify M a param s
  | .constructor =>
    let r := cntCiStubConstructor M.order M.page s.toPool
    some (r.1, { s with toPool := r.2 })
  | .destructor =>
    let r := cntCiStubDestructor M.order M.page param s.toPool
    some (r.1, { s with toPool := r.2 })
  | _ => none

/-- The procedures of the component. -/
def procs : List Proc :=
  [.create, .delete, .lookup, .modify, .rlookup, .fenum, .constructor, .destructor]

/-- `PdxCall`, of a procedure of the component. -/
def pdxCall (proc : BitVec 64) (param : CapT) (s : World) : Option (ResDesc × World) :=
  (procs.find? fun p => M.addr p = proc).bind (runProc M a param s)

/-- `pax_ci_request`: whether it returns `MCSE_EXCEPTION`, and the result. -/
def paxCiRequest (ept : BitVec 64) (param : CapT) (s : World) : Option (Bool × ResDesc × World) :=
  (pdxCall M a ept param s).map fun r => (r.1.type != 0, r.1, r.2)

/-- What is raised. -/
def envOf (res : ResDesc) : Env := ⟨res.type.setWidth 8, some ((res.data1 >>> 48).setWidth 16)⟩

/-- The entry point of a method, and the record that keeps it. -/
def entryPoint (mid : BitVec 16) (io : INameTree) (slots : List NsSlot) :
    Option (BitVec 64 × INameTree) :=
  let i := mid.toNat - midIntStart
  if io.epts i = 0 then
    (paxClGetEntryPt io.cid iidInametree mid slots).map fun ept =>
      (ept, { io with epts := Function.update io.epts i ept })
  else some (io.epts i, io)

/-- The buffer of a call. -/
def packed {α : Type} (params : Format α) (x : α) (io : INameTree) (m : ℕ → BitVec 8) :
    ℕ → BitVec 8 :=
  let pb := io.pb.address.toNat
  params.put ((cicapFormat M.order).put m pb io.ecicap) (pb + 16) x

/-- What `int_create` and the others have in common: the parameters, and the method. -/
def request {α : Type} (params : Format α) (mid : BitVec 16) (x : α) (io : INameTree) (s : World) :
    Option ((BitVec 32 × Env) × INameTree × World) :=
  let m := packed M params x io s.mem
  (entryPoint mid io s.slots).bind fun e =>
    (paxCiRequest M a e.1 io.pb { s with mem := m }).map fun r =>
      ((r.2.1.data1.setWidth 32, envOf r.2.1), e.2, r.2.2)

/-- `int_create` -/
def intCreate (io : INameTree) (obj : CapT) (nameOffset flags value : BitVec 64) :
    World → Option ((BitVec 32 × Env) × INameTree × World) :=
  request M a (createParams M.order) 101 (obj, nameOffset, flags, value) io

/-- `int_delete` -/
def intDelete (io : INameTree) (obj : CapT) (nameOffset : BitVec 64) :
    World → Option ((BitVec 32 × Env) × INameTree × World) :=
  request M a (deleteParams M.order) 102 (obj, nameOffset) io

/-- `int_lookup` -/
def intLookup (io : INameTree) (obj : CapT) (nameOffset : BitVec 64)
    (retFlags retOffset : BitVec 32) : World → Option ((BitVec 32 × Env) × INameTree × World) :=
  request M a (lookupParams M.order) 103 (obj, nameOffset, retFlags, retOffset) io

/-- `int_modify` -/
def intModify (io : INameTree) (obj : CapT) (nameOffset newNameOffset flags value : BitVec 64) :
    World → Option ((BitVec 32 × Env) × INameTree × World) :=
  request M a (modifyParams M.order) 104 (obj, nameOffset, newNameOffset, flags, value) io

/-- `int_create_constructor`, where there is memory. -/
def intCreateConstructor (cid : BitVec 64) (pb : CapT) (s : World) :
    Option ((Option INameTree × Env) × World) :=
  (paxClGetEntryPt cid iidClassInterface 6 s.slots).bind fun ept =>
    (paxCiRequest M a ept pb s).map fun r =>
      if r.1 then ((none, envOf r.2.1), r.2.2)
      else
        let cicap : Cicap := ⟨r.2.1.data1, r.2.1.data0.setWidth 64 <<< 2⟩
        ((some ⟨cicap, cicap, cid, pb, fun _ => 0⟩, ⟨0, none⟩), r.2.2)

/-- `pax_cl_get_component_class`: the object of the instances has the class in `userinfo`. -/
def paxClGetComponentClass (cicap : Cicap) : BitVec 64 :=
  if M.page.toNat ≤ cicap.ref.toNat ∧ cicap.ref.toNat < M.page.toNat + pagesize then cidCnametree
  else 0

/-- `int_cicap_constructor`, where there is memory. -/
def intCicapConstructor (cicap : Cicap) (pb : CapT) : Option INameTree :=
  if paxClGetComponentClass M cicap = 0 then none
  else some ⟨cicap, cicap, paxClGetComponentClass M cicap, pb, fun _ => 0⟩

/-- `int_destructor`: whether the record is freed. -/
def intDestructor (io : INameTree) (s : World) : Option ((Bool × Env) × World) :=
  (paxClGetEntryPt io.cid iidClassInterface 7 s.slots).bind fun ept =>
    (paxCiRequest M a ept ⟨io.acicap.password, io.acicap.ref⟩ s).map fun r =>
      if r.1 then ((false, envOf r.2.1), r.2.2) else ((true, ⟨0, none⟩), r.2.2)

end Code

/-! ### The two ends of a call -/

variable {M : Machine} {a : HeapAnswer} {slots : List NsSlot} {io : INameTree} {s : World}

/-- The procedures have different addresses, and none is null. -/
structure Linked (addr : Proc → BitVec 64) : Prop where
  inj : ∀ p q, addr p = addr q → p = q
  ne_zero : ∀ p, addr p ≠ 0

theorem pdxCall_addr (h : Linked M.addr) {p : Proc} (hp : p ∈ procs) (param : CapT) :
    pdxCall M a (M.addr p) param s = runProc M a param s p := by
  have hfind : procs.find? (fun q => M.addr q = M.addr p) = some p := by
    rw [List.find?_eq_some_iff_append]
    obtain ⟨l₁, l₂, hl⟩ := List.append_of_mem hp
    refine ⟨by simp, l₁, l₂, hl, fun q hq => ?_⟩
    have hnodup : procs.Nodup := by decide
    rw [hl] at hnodup
    have hne : q ≠ p := fun hqp =>
      (List.nodup_append.mp hnodup).2.2 q hq p List.mem_cons_self hqp
    simpa using fun heq => hne (h.inj q p heq)
  unfold pdxCall
  rw [hfind]
  rfl

/-- The entry points of the component are found. -/
def Registered (addr : Proc → BitVec 64) (slots : List NsSlot) : Prop :=
  ∀ p ∈ procs, paxClGetEntryPt cidCnametree p.iid p.mid slots = some (addr p)

/-- **The registration map registers the component.** -/
theorem registered_of_regmap {addr : Proc → BitVec 64} (h : Linked addr)
    (hslots : paxRegmapRegisterComponents nameserverInit (rmEntries addr) = some slots) :
    Registered addr slots := by
  have hrun : run paxClSetEntryPt nameserverInit
      (procs.map fun p => ⟨cidCnametree, p.iid, p.mid, addr p⟩) = some slots := by
    rw [paxRegmapRegisterComponents, rmEntries, run, paxRegisterComponent, if_pos rfl,
      Option.bind_some, run, paxRegisterComponent, if_neg Bool.false_ne_true] at hslots
    rw [← hslots]
    exact (Option.bind_fun_some _).symm
  have hfilled := filled_run hrun
  intro p hp
  rw [hfilled.entryPt]
  have hne : ∀ p, addr p ≠ 0#64 := h.ne_zero
  simp only [procs, List.mem_cons, List.not_mem_nil, or_false] at hp
  rcases hp with rfl | rfl | rfl | rfl | rfl | rfl | rfl | rfl <;>
    simp [procs, Proc.iid, Proc.mid, iidInametree, iidClassInterface, List.find?, hne]

/-! ### A call through the buffer -/

/-- The methods. -/
def methods : List Proc := [.create, .delete, .lookup, .modify]

/-- The bytes of a buffer that calls write to. -/
def bufferSize : ℕ := 104

/-- The number of an entry point in a record. -/
def Proc.ept (p : Proc) : ℕ := p.mid.toNat - midIntStart

theorem ept_inj : ∀ p ∈ methods, ∀ q ∈ methods, q.ept = p.ept → q = p := by decide

/-- `n` bytes at one place and `n'` bytes at another one do not overlap. -/
def Apart (p n p' n' : ℕ) : Prop := p + n ≤ p' ∨ p' + n' ≤ p

/-- **A record for an instance**: its capability is for a block that was handed out, its entry
points are those of the component, and its buffer is no part of the object. -/
structure INameTree.Right (M : Machine) (made : ℕ → Prop) (io : INameTree) : Prop where
  acicap : io.acicap = io.ecicap
  password : io.ecicap.password = generatePassword
  made : made io.ecicap.ref.toNat
  cid : io.cid = cidCnametree
  epts : ∀ p ∈ methods, io.epts p.ept = 0 ∨ io.epts p.ept = M.addr p
  buffer : Apart io.pb.address.toNat bufferSize M.page.toNat pagesize

theorem Apart.outside {p n p' n' q : ℕ} (h : Apart p n p' n') (hq : p' ≤ q ∧ q < p' + n') :
    q < p ∨ p + n ≤ q := by
  unfold Apart at h
  omega

variable {made : ℕ → Prop} {free : List ℕ} {cnts : ℕ → Option Cnt} {α : Type} {params : Format α}
  {method : α → Cnt → World → Option (BitVec 32 × Cnt × World)}

theorem Proc.iid_of_mem : ∀ p ∈ methods, p.iid = iidInametree := by decide

theorem mem_procs : ∀ p ∈ methods, p ∈ procs := by decide

/-- The entry point of a method, from the name server or from the record. -/
theorem INameTree.Right.entryPoint (hio : io.Right M made) (hM : Linked M.addr)
    (hslots : Registered M.addr slots) {p : Proc} (hp : p ∈ methods) :
    ∃ io', Component.entryPoint p.mid io slots = some (M.addr p, io') ∧ io'.Right M made ∧
      io'.ecicap = io.ecicap := by
  unfold Component.entryPoint
  dsimp only
  rw [show p.mid.toNat - midIntStart = p.ept from rfl]
  rcases hio.epts p hp with hept | hept
  · refine ⟨{ io with epts := Function.update io.epts p.ept (M.addr p) }, ?_,
      ⟨hio.acicap, hio.password, hio.made, hio.cid, fun q hq => ?_, hio.buffer⟩, rfl⟩
    · rw [if_pos hept, hio.cid, ← p.iid_of_mem hp, hslots p (mem_procs p hp), Option.map_some]
    dsimp only
    by_cases hqp : q.ept = p.ept
    · rw [hqp, Function.update_self, ept_inj p hp q hq hqp]
      exact Or.inr rfl
    · rw [Function.update_of_ne hqp]
      exact hio.epts q hq
  · rw [hept, if_neg (hM.ne_zero p)]
    exact ⟨io, rfl, hio, rfl⟩

/-- Nothing but the buffer is written to. -/
theorem packed_outside (x : α) (m : ℕ → BitVec 8) {q : ℕ} (hsize : 16 + params.size ≤ bufferSize)
    (hq : q < io.pb.address.toNat ∨ io.pb.address.toNat + bufferSize ≤ q) :
    packed M params x io m q = m q := by
  change params.put ((cicapFormat M.order).put m io.pb.address.toNat io.ecicap)
    (io.pb.address.toNat + 16) x q = m q
  rw [params.put_outside _ _ _ q (by omega)]
  refine (cicapFormat M.order).put_outside _ _ _ q ?_
  rw [show (cicapFormat M.order).size = 16 from rfl]
  omega

/-- The pool does not see the buffer. -/
theorem ready_packed (h : s.Ready M.order M.page free cnts made) (hio : io.Right M made) (x : α)
    (hsize : 16 + params.size ≤ bufferSize) :
    Pool.Ready M.order M.page { s.toPool with mem := packed M params x io s.mem } free cnts made :=
  h.congr fun _ hq => packed_outside x s.mem hsize (hio.buffer.outside hq)

/-- The data of an instance are stored. -/
def World.storeCnt (s : World) (o : ByteOrder) (ref : ℕ) (c : Cnt) : World :=
  { s with mem := (cntFormat o).put s.mem (ref + cihdrSize) c }

/-- **What is put into the buffer is got out of it**, and the instance is the one that the
capability is for. -/
theorem stub_packed (h : s.Ready M.order M.page free cnts made) (hio : io.Right M made) (x : α)
    (hsize : 16 + params.size ≤ bufferSize) :
    stub M params method io.pb { s with mem := packed M params x io s.mem } =
      match cnts io.ecicap.ref.toNat with
      | none => some (stubException 201, { s with mem := packed M params x io s.mem })
      | some c =>
        (method x c { s with mem := packed M params x io s.mem }).map fun r =>
          (⟨r.1.setWidth 64, 0, 0⟩, r.2.2.storeCnt M.order io.ecicap.ref.toNat r.2.1) := by
  have hready := ready_packed h hio x hsize
  have hcicap : (cicapFormat M.order).get (packed M params x io s.mem) io.pb.address.toNat =
      io.ecicap := by
    change (cicapFormat M.order).get (params.put ((cicapFormat M.order).put s.mem
      io.pb.address.toNat io.ecicap) (io.pb.address.toNat + 16) x) io.pb.address.toNat = io.ecicap
    have hsmall : io.pb.address.toNat + (cicapFormat M.order).size ≤ io.pb.address.toNat + 16 :=
      le_rfl
    rw [Format.get_put_apart (Or.inl hsmall), (cicapFormat M.order).get_put]
  have hparams : params.get (packed M params x io s.mem) (io.pb.address.toNat + 16) = x :=
    params.get_put _ _ _
  have hvalid := hready.isNotValid_eq hio.made
  dsimp only at hvalid
  unfold stub
  dsimp only
  rw [hcicap, hparams, hvalid]
  cases hc : cnts io.ecicap.ref.toNat with
  | none => rw [Option.isNone_none, if_pos rfl]
  | some c =>
    rw [Option.isNone_some, if_neg Bool.false_ne_true, (hready.formatted hio.made).2.cnt _ c hc]
    rfl

/-- What a method returns is what the program gets. -/
theorem envOf_setWidth (v : BitVec 32) : ((v.setWidth 64).setWidth 32 : BitVec 32) = v ∧
    envOf ⟨v.setWidth 64, 0, 0⟩ = ⟨0, some 0⟩ := by
  constructor
  · apply BitVec.eq_of_toNat_eq
    simp
  · have hhigh : ((v.setWidth 64 >>> 48).setWidth 16 : BitVec 16) = 0 := by
      apply BitVec.eq_of_toNat_eq
      have := v.isLt
      simp [Nat.shiftRight_eq_div_pow]
      omega
    unfold envOf
    dsimp only
    rw [hhigh]
    rfl

/-- An exception: the program gets its code, and 0 for a result. -/
theorem envOf_stubException (code : BitVec 64) :
    ((stubException code).data1.setWidth 32 : BitVec 32) = 0 ∧
      envOf (stubException code) = ⟨2, some (code.setWidth 16)⟩ := by
  unfold envOf stubException
  constructor
  · apply BitVec.eq_of_toNat_eq
    simp
  · have hminor : ((code <<< 48 >>> 48).setWidth 16 : BitVec 16) = code.setWidth 16 := by
      apply BitVec.eq_of_toNat_eq
      simp [Nat.shiftRight_eq_div_pow, Nat.shiftLeft_eq]
      omega
    dsimp only
    rw [hminor]
    rfl

/-- **A call through the buffer is a call of the method on the instance**, or an exception where
there is none. -/
theorem request_eq (h : s.Ready M.order M.page free cnts made) (hM : Linked M.addr)
    (hslots : Registered M.addr s.slots) (hio : io.Right M made) {p : Proc} (hp : p ∈ methods)
    (hproc : ∀ param s, runProc M a param s p = stub M params method param s) (x : α)
    (hsize : 16 + params.size ≤ bufferSize) :
    ∃ io', io'.Right M made ∧ io'.ecicap = io.ecicap ∧ request M a params p.mid x io s =
      match cnts io.ecicap.ref.toNat with
      | none => some ((0, ⟨2, some 201⟩), io', { s with mem := packed M params x io s.mem })
      | some c =>
        (method x c { s with mem := packed M params x io s.mem }).map fun r =>
          ((r.1, ⟨0, some 0⟩), io', r.2.2.storeCnt M.order io.ecicap.ref.toNat r.2.1) := by
  obtain ⟨io', hept, hio', hcicap⟩ := hio.entryPoint hM hslots hp
  refine ⟨io', hio', hcicap, ?_⟩
  unfold request
  dsimp only
  rw [hept, Option.bind_some]
  unfold paxCiRequest
  dsimp only
  rw [pdxCall_addr hM (mem_procs p hp), hproc, stub_packed h hio x hsize]
  cases cnts io.ecicap.ref.toNat with
  | none =>
    obtain ⟨hcode, henv⟩ := envOf_stubException 201
    dsimp only [Option.map_some]
    rw [hcode, henv]
    rfl
  | some c =>
    dsimp only
    rw [Option.map_map, Option.map_map]
    congr 1
    funext r
    obtain ⟨hcode, henv⟩ := envOf_setWidth r.1
    dsimp only [Function.comp_apply]
    rw [hcode, henv]

end Mungi.Component
