import Mungi.Assertions
import Mungi.Buffers
import Mungi.PageRanges
import Mungi.PdxTable
import Mungi.SemBlocks

/-!
# System calls on objects

The handlers of `syscalls.c` that change objects.  Each validates the address that it is given, in
the name of the APD of the calling thread, and goes on with the object that it is handed; the other
addresses among its arguments are validated before.  What the heap and the clock answer in a call is
part of it.

## Main definitions

* `Store` — objects with their semaphores, and the caches of the APDs.
* `Store.guard` — what the handlers have in common.
* `sysObjectCreate`, …, `sysSemSignal` — the handlers.
* `SysCall`, `sysStep` — calls one after another.
-/

namespace Mungi

variable {O ι : Type}

/-! ### The code -/

/-- Who makes a call: the APD of the thread, and its slots and Clists at the time. -/
structure Caller (ι : Type) where
  i : ι
  apd : ApdDesc
  clist : ℕ → Clist

/-- The objects with their semaphores, and the caches of the APDs. -/
structure Store (O ι : Type) where
  host : Host O ι
  sem : O → SemBlock

/-- What the calls return. -/
inductive SysRet where
  | success
  | fail
  | err
  | prot
  | clist
  | sema
  deriving DecidableEq

/-- What a caller is sent. -/
inductive SysReply where
  | retval (ret : SysRet)
  /-- The address of a new object, 0 for `NULL`. -/
  | addr (addr : ℕ)
  | cap (cap : Option CapPtr)
  /-- Its own message. -/
  | echo
  /-- Nothing: it waits. -/
  | waits
  deriving DecidableEq

/-- What the operations on semaphores return. -/
def SemRet.sysRet : SemRet → SysRet
  | .success => .success
  | .fail => .fail
  | .err => .err
  | .prot => .prot

/-- `success` or `fail` -/
def SysRet.ofBool (b : Bool) : SysRet := if b then .success else .fail

/-- The kernel as a caller finds it. -/
def Store.kernelAt (s : Store O ι) (c : Caller ι) : Kernel O := s.host.sys.kernel.withClists c.clist

/-- The store with other objects. -/
def Store.withSys (s : Store O ι) (sys : System O) : Store O ι := { s with host := { s.host with sys } }

section Code
variable [DecidableEq O] [DecidableEq ι]

/-- The store with another record of an object. -/
def Store.setObj (s : Store O ι) (o : O) (obj : Obj) : Store O ι :=
  s.withSys { s.host.sys with kernel := s.host.sys.kernel.setObj o obj }

/-- The store with other semaphores of an object. -/
def Store.setSem (s : Store O ι) (o : O) (b : SemBlock) : Store O ι :=
  { s with sem := Function.update s.sem o b }

/-- `validate_obj`, with `*rcap`. -/
def Store.validate (s : Store O ι) (c : Caller ι) (addr : ℕ) (access : Access) (t : Clock) :
    Option (Store O ι × Option O × Option CapPtr) :=
  (doValidateObj (s.kernelAt c) c.apd (s.host.vcache c.i) addr access t.now t.t₁ t.t₂).map fun r =>
    ({ s with host := { s.host.setCache c.i r.1 with clock := t.t₂ } }, r.2)

/-- What the handlers have in common: an address is validated, and the call refused or gone on with. -/
def Store.guard (s : Store O ι) (c : Caller ι) (addr : ℕ) (access : Access) (t : Clock)
    (refused : SysReply) (f : Store O ι → O → Option CapPtr → Option (Store O ι × SysReply)) :
    Option (Store O ι × SysReply) :=
  (s.validate c addr access t).bind fun r =>
    match r.2.1 with
    | none => some (r.1, refused)
    | some o => f r.1 o r.2.2

variable (pageSize fuel : ℕ) (s : Store O ι) (c : Caller ι)

/-- The end of `sys_object_create`; a new object has no semaphores. -/
def createObject (size passwd : ℕ) (mem : Option (O × ObjInfo)) : Store O ι × SysReply :=
  let r := objectCreate pageSize s.host.sys size passwd mem
  let sem :=
    match (if (kmallocObj pageSize s.host.sys.free size).1 = 0 then none else mem) with
    | none => s.sem
    | some (o, _) =>
      let b := s.sem o
      Function.update s.sem o { b with obj := { b.obj with semp := false } }
  ({ s.withSys r.1 with sem },
    .addr (match r.2 with
      | none => 0
      | some o => (r.1.kernel.obj o).base))

/-- `sys_object_create`, where `info` is `NULL` or not. -/
def sysObjectCreate (info : Option (ℕ × Clock)) (size passwd : ℕ) (mem : Option (O × ObjInfo)) :
    Option (Store O ι × SysReply) :=
  match info with
  | none => some (createObject pageSize s size passwd mem)
  | some (addr, t) =>
    s.guard c addr mRead t (.addr 0) fun s o _ =>
      if validateRange (s.host.sys.kernel.obj o) addr objinfoSize = false then some (s, .addr 0)
      else some (createObject pageSize s size passwd mem)

/-- `sys_object_delete` -/
def sysObjectDelete (addr : ℕ) (t : Clock) : Option (Store O ι × SysReply) :=
  s.guard c addr mDestroy t (.retval .prot) fun s o _ =>
    (objectDelete pageSize s.host.sys (s.host.sys.kernel.obj o).base).map fun r =>
      (s.withSys r.1, .retval (.ofBool r.2))

/-- `sys_object_resize` -/
def sysObjectResize (addr newSize : ℕ) (t : Clock) : Option (Store O ι × SysReply) :=
  s.guard c addr mOwner t (.retval .fail) fun s o _ =>
    (objectResize pageSize s.host.sys o newSize).map fun r => (s.withSys r.1, .retval (.ofBool r.2))

/-- `sys_object_passwd` -/
def sysObjectPasswd (addr passwd : ℕ) (mode : Access) (t : Clock) : Option (Store O ι × SysReply) :=
  s.guard c addr mOwner t (.retval .fail) fun s o _ =>
    let r := objectPasswd (s.host.sys.kernel.obj o) passwd mode
    some (s.setObj o r.2, .retval (.ofBool r.1))

/-- The arguments of `sys_object_pdx`, with the entry points behind `pdx`. -/
structure ObjPdxArgs where
  pdx : ℕ
  clist : ℕ
  addr : ℕ
  passwd : ℕ
  entrypts : List ℕ
  /-- Clock readings for the entry points, the Clist and the object. -/
  pdxTime : Clock
  clistTime : Clock
  time : Clock

/-- `sys_object_pdx` -/
def sysObjectPdx (a : ObjPdxArgs) : Option (Store O ι × SysReply) :=
  s.guard c a.pdx mRead a.pdxTime (.retval .prot) fun s o _ =>
    if h : a.entrypts.length > oMaxEntpt then some (s, .retval .prot)
    else if validateRange (s.host.sys.kernel.obj o) a.pdx (8 * a.entrypts.length) = false then
      some (s, .retval .prot)
    else
      s.guard c a.clist mRead a.clistTime (.retval .prot) fun s _ rcap =>
        match rcap with
        | none => none
        | some clist =>
          let clistCap : Cap := ⟨a.clist, ((s.kernelAt c).capAt clist).passwd⟩
          if (s.kernelAt c).IsNotClist a.clist then some (s, .retval .clist)
          else
            s.guard c a.addr mOwner a.time (.retval .prot) fun s o _ =>
              (objectPdx (s.host.sys.kernel.obj o)
                ⟨a.passwd, clistCap, a.entrypts, Nat.le_of_not_lt h⟩).map fun r =>
                  (s.setObj o r.2, .retval (.ofBool r.1))

/-- `sys_sem_create` -/
def sysSemCreate (addr : ℕ) (value : BitVec 32) (block : Option SemJunk) (t : Clock) :
    Option (Store O ι × SysReply) :=
  s.guard c addr (mRead ||| mWrite) t (.retval .fail) fun s o _ =>
    match block with
    | none =>
      -- there is no memory for a block
      let r := semCreate (s.sem o).obj false addr value
      let count := (s.sem o).count
      some (s.setSem o ⟨r.2, if r.1 = .success then count + 1 else count⟩, .retval r.1.sysRet)
    | some junk =>
      let r := semCreateIn (s.sem o) junk addr value
      some (s.setSem o r.2, .retval r.1.sysRet)

/-- `sys_sem_delete` -/
def sysSemDelete (addr : ℕ) (t : Clock) : Option (Store O ι × SysReply) :=
  s.guard c addr mOwner t (.retval .fail) fun s o _ =>
    (semDelete (s.sem o) fuel addr).map fun r =>
      (s.setSem o r.2.2, .retval (if r.1 then .success else .sema))

/-- `sys_sem_wait` -/
def sysSemWait (addr thread item : ℕ) (t : Clock) : Option (Store O ι × SysReply) :=
  s.guard c addr mRead t (.retval .fail) fun s o _ =>
    (semWait (s.sem o).obj fuel addr thread item).map fun r =>
      (s.setSem o { s.sem o with obj := r.2.2 }, if r.2.1 then .waits else .retval r.1.sysRet)

/-- `sys_sem_signal` -/
def sysSemSignal (addr : ℕ) (sent : Bool) (t : Clock) : Option (Store O ι × SysReply) :=
  s.guard c addr mRead t (.retval .fail) fun s o _ =>
    let r := semSignal (s.sem o).obj addr sent
    some (s.setSem o { s.sem o with obj := r.2.2 }, .retval r.1.sysRet)

/-- `sys_apd_lookup`, and what other calls ask of `validate_obj`. -/
def sysLookup (addr : ℕ) (minrights : Access) (t : Clock) : Option (Store O ι × SysReply) :=
  s.guard c addr minrights t (.cap none) fun s _ rcap => some (s, .cap rcap)

/-- `sys_apd_flush` -/
def sysApdFlush : Store O ι × SysReply :=
  ({ s with host := s.host.setCache c.i (vcacheFlush (s.host.vcache c.i)) }, .echo)

end Code

/-! ### Calls -/

/-- Calls with their arguments. -/
inductive SysCall (O : Type) where
  | objectCreate (info : Option (ℕ × Clock)) (size passwd : ℕ) (mem : Option (O × ObjInfo))
  | objectDelete (addr : ℕ) (t : Clock)
  | objectResize (addr newSize : ℕ) (t : Clock)
  | objectPasswd (addr passwd : ℕ) (mode : Access) (t : Clock)
  | objectPdx (a : ObjPdxArgs)
  | semCreate (addr : ℕ) (value : BitVec 32) (block : Option SemJunk) (t : Clock)
  | semDelete (addr : ℕ) (t : Clock)
  | semWait (addr thread item : ℕ) (t : Clock)
  | semSignal (addr : ℕ) (sent : Bool) (t : Clock)
  | lookup (addr : ℕ) (minrights : Access) (t : Clock)
  | apdFlush

/-- A call of somebody. -/
structure SysAct (O ι : Type) where
  caller : Caller ι
  call : SysCall O

/-- One call, and the reply. -/
def sysReply [DecidableEq O] [DecidableEq ι] (pageSize fuel : ℕ) (s : Store O ι) (x : SysAct O ι) :
    Option (Store O ι × SysReply) :=
  match x.call with
  | .objectCreate info size passwd mem =>
    sysObjectCreate pageSize s x.caller info size passwd mem
  | .objectDelete addr t => sysObjectDelete pageSize s x.caller addr t
  | .objectResize addr newSize t => sysObjectResize pageSize s x.caller addr newSize t
  | .objectPasswd addr passwd mode t => sysObjectPasswd s x.caller addr passwd mode t
  | .objectPdx a => sysObjectPdx s x.caller a
  | .semCreate addr value block t => sysSemCreate s x.caller addr value block t
  | .semDelete addr t => sysSemDelete fuel s x.caller addr t
  | .semWait addr thread item t => sysSemWait fuel s x.caller addr thread item t
  | .semSignal addr sent t => sysSemSignal s x.caller addr sent t
  | .lookup addr minrights t => sysLookup s x.caller addr minrights t
  | .apdFlush => some (sysApdFlush s x.caller)

/-- One call. -/
def sysStep [DecidableEq O] [DecidableEq ι] (pageSize fuel : ℕ) (s : Store O ι) (x : SysAct O ι) :
    Option (Store O ι) :=
  (sysReply pageSize fuel s x).map Prod.fst

end Mungi
