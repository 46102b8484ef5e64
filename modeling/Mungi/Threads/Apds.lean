import Mungi.ApdSlots
import Mungi.Threads.Memory

/-!
# APDs in memory

How APDs are made, found, copied for a PDX call, kept for the next such call, and closed
(`apd.c`).  Assertions have no effect, and locks are left out, as the calls are handled one
after another.  What the rest of the kernel answers is an argument: addresses from `kmalloc`,
0 for `NULL`, readings of the clock, and the system Clist of a new APD.  A loop that does not
end has no result, and neither has an index beyond a table.

## Main definitions

* `Mem.apdClose`, `Mem.apdFromTemplate`, `Mem.apdFindOrCreate`, `Mem.apdPdxMerge` — the
  functions.
* `Mem.apdPdxCacheInsert`, `Mem.apdPdxCacheLookup`, `Mem.apdPdxCacheCheckId` — the cache of
  APDs for PDX calls.
-/

namespace Mungi

open Chain SearchLoop

variable {O : Type}

/-- `APD_HASH_SIZE` -/
def apdHashSize : ℕ := 512

/-- `APD_PDX_CACHE_SIZE` -/
def apdPdxCacheSize : ℕ := 20

/-- The answers that the making of an APD needs. -/
structure ApdSupply where
  apd : ℕ
  vcache : ℕ
  sys : Option SysCap

/-- An entry of the cache is too old. -/
def ThreadConf.TimedOut (c : ThreadConf) (now timestamp : ℕ) : Prop :=
  wordSub now timestamp > c.apdPdxCacheTimeout

instance (c : ThreadConf) (now timestamp : ℕ) : Decidable (c.TimedOut now timestamp) :=
  inferInstanceAs (Decidable (_ > _))

/-- `PD_HASH` -/
def pdHash (c : ThreadConf) (pd : ℕ) : ℕ := pd / 2 ^ c.l4Log2Pagesize % apdHashSize

namespace Mem

variable (c : ThreadConf) (k : Mem)

/-! ### Closing -/

/-- `task_release` -/
def taskRelease (task : ℕ) : Mem :=
  { k with
    l4Tasks := Function.update k.l4Tasks ((k.task.cell task).task.task - c.l4TaskStart) 0
    task := k.task.free task }

/-- `apd_pdx_cache_remove` -/
def apdPdxCacheRemove (apd : ℕ) : Mem :=
  { k with
    apdPdxCache := fun i =>
      if i < apdPdxCacheSize ∧ (k.apdPdxCache i).apd = apd then { k.apdPdxCache i with apd := 0 }
      else k.apdPdxCache i }

/-- `*link = apd` -/
def writeApdLink (link : Link) (apd : ℕ) : Mem :=
  match link with
  | .bucket i => { k with apdTable := Function.update k.apdTable i apd }
  | .next p => k.modApd p fun a => { a with next := apd }

/-- A round of the loop of `apd_close` over the pool.  The stack is an object of its own. -/
def freePooled (entry : ℕ) : Mem :=
  { k with
    mthread := k.mthread.free (k.apdThread.cell entry).mthread
    apdThread := k.apdThread.free entry }

/-- What `apd_close` does when there are no users. -/
def apdFree (fuel apd : ℕ) : Option Mem :=
  let a := k.apd.cell apd
  (walk k.poolNext fuel a.threads).bind fun pool =>
    (walk k.taskNext fuel a.tasks).map fun tasks =>
      let k := pool.foldl freePooled k
      let k := tasks.foldl (taskRelease c) k
      let k := match a.pprev with
        | none => k
        | some link => k.writeApdLink link a.next
      { k with apd := k.apd.free apd, log := .closed apd a.closing :: k.log }

/-- `apd_close` -/
def apdClose (fuel apd : ℕ) : Option (Bool × Mem) :=
  let k := if (k.apd.cell apd).closing then k else k.apdPdxCacheRemove apd
  if (k.apd.cell apd).users ≠ 0 then some (false, k.modApd apd fun a => { a with closing := true })
  else (k.apdFree c fuel apd).map fun k => (true, k)

/-! ### Making -/

/-- `apd_fill`: `true` for failure. -/
def apdFill (new : ℕ) (sup : ApdSupply) : Bool × Mem :=
  let k := { k.modApd new fun a => { a with serial := k.apdSerial } with
    apdSerial := (k.apdSerial + 1) % 2 ^ 64 }
  let k := if (k.apd.cell new).vcache = 0 then k.modApd new fun a => { a with vcache := sup.vcache }
    else k
  if (k.apd.cell new).vcache = 0 then (true, k)
  else
    match Mungi.apdFill sup.sys (k.apd.cell new).data with
    | none => (true, k)
    | some data => (false, k.modApd new fun a => { a with data })

/-- `apd_from_template`, on a PD with the contents `pd`: the APD, 0 for `NULL`. -/
def apdFromTemplate (os : Kernel O) (pd : ApdDesc) (sup : ApdSupply) : Option (ℕ × Mem) :=
  if sup.apd = 0 then some (0, k)
  else
    (k.apd.alloc sup.apd { Apd.zero with data := pd }).bind fun apd =>
      let k := { k with apd }
      let out (k : Mem) := some (0, { k with apd := k.apd.free sup.apd })
      if pd.nApd > apdMaxEntry then out k
      else
        match findUp (fun i => if validateCap os (pd.clist i) mRead then none else some i) 1
          (pd.nApd - 1).toNat with
        | some _ => out k
        | none =>
          match k.apdFill sup.apd sup with
          | (true, k) => out k
          | (false, k) => some (sup.apd, k)

/-- `apd_find_or_create`, on a PD at `addr` with the contents `pd`. -/
def apdFindOrCreate (os : Kernel O) (fuel addr : ℕ) (pd : ApdDesc) (sup : ApdSupply) :
    Option (ℕ × Mem) :=
  let hashval := pdHash c addr
  (seek (fun p => (k.apd.cell p).next) (fun p => (k.apd.cell p).pd = addr) fuel
    (k.apdTable hashval)).bind fun apd =>
      if apd ≠ 0 then some (apd, k)
      else
        (k.apdFromTemplate os pd sup).map fun r =>
          if r.1 = 0 then r
          else
            let k := r.2
            let head := k.apdTable hashval
            let k := k.modApd r.1 fun a => { a with pd := addr, next := head }
            let k := if head = 0 then k
              else k.modApd head fun a => { a with pprev := some (.next r.1) }
            let k := { k with apdTable := Function.update k.apdTable hashval r.1 }
            (r.1, k.modApd r.1 fun a => { a with pprev := some (.bucket hashval) })

/-! ### The cache of APDs for PDX calls -/

/-- The entry that is replaced when none is empty. -/
def oldestPdxApd : ℕ :=
  (List.range apdPdxCacheSize).foldl
    (fun pos i => if (k.apdPdxCache i).timestamp < (k.apdPdxCache pos).timestamp then i else pos) 0

/-- The end of `apd_pdx_cache_insert`. -/
def putPdxApd (now orig : ℕ) (clist : Cap) (new pos : ℕ) : ApdCacheId × Mem :=
  (⟨pos, (k.apd.cell new).serial⟩,
    { k with apdPdxCache := Function.update k.apdPdxCache pos ⟨orig, clist, new, now⟩ })

/-- `apd_pdx_cache_insert`.  What is closed when no entry is empty is the APD of the entry
looked at last. -/
def apdPdxCacheInsert (fuel now orig : ℕ) (clist : Cap) (new : ℕ) : Option (ApdCacheId × Mem) :=
  match (List.range apdPdxCacheSize).find? fun i => (k.apdPdxCache i).apd = 0 with
  | some pos => some (k.putPdxApd now orig clist new pos)
  | none =>
    (k.apdClose c fuel (k.apdPdxCache (apdPdxCacheSize - 1)).apd).map fun r =>
      r.2.putPdxApd now orig clist new k.oldestPdxApd

/-- `apd_pdx_cache_lookup` -/
def apdPdxCacheLookup (fuel now orig : ℕ) (clist : Cap) :
    Option (Option (ℕ × ApdCacheId) × Mem) :=
  match (List.range apdPdxCacheSize).find? fun i =>
    (k.apdPdxCache i).orig = orig ∧ (k.apdPdxCache i).clist = clist ∧ (k.apdPdxCache i).apd ≠ 0 with
  | none => some (none, k)
  | some i =>
    let entry := k.apdPdxCache i
    if c.TimedOut now entry.timestamp then (k.apdClose c fuel entry.apd).map fun r => (none, r.2)
    else some (some (entry.apd, ⟨i, (k.apd.cell entry.apd).serial⟩), k)

/-- `apd_pdx_cache_check_id`: the APD, 0 for `NULL`. -/
def apdPdxCacheCheckId (now : ℕ) (id : ApdCacheId) : Option ℕ :=
  if id.pos < apdPdxCacheSize then
    let entry := k.apdPdxCache id.pos
    some (if entry.apd = 0 then 0
      else if c.TimedOut now entry.timestamp then 0
      else if (k.apd.cell entry.apd).serial ≠ id.serial then 0
      else entry.apd)
  else none

/-! ### Copying -/

/-- `apd_clone`, and `new->tasks = NULL` after it. -/
def apdClone (new orig : ℕ) : Mem := k.modApd new fun _ => { k.apd.cell orig with tasks := 0 }

/-- `apd_pdx_merge` when the cache has missed. -/
def apdPdxBuild (fuel now orig : ℕ) (clist : Cap) (sup : ApdSupply) :
    Option (Option (ℕ × ApdCacheId) × Mem) :=
  if sup.apd = 0 then some (none, k)
  else
    (k.apd.alloc sup.apd Apd.zero).bind fun apd =>
      let out (k : Mem) := some (none, { k with apd := k.apd.free sup.apd })
      let origSerial := (k.apd.cell orig).serial
      let k := { k with apd }
      let k := if orig = 0 then k else k.apdClone sup.apd orig
      match k.apdFill sup.apd sup with
      | (true, k) => out k
      | (false, k) =>
        match freeSlot (k.apd.cell sup.apd).data with
        | none => out k
        | some none => none
        | some (some i) =>
          ((k.apd.cell sup.apd).data.setSlot i clist).bind fun data =>
            let k := k.modApd sup.apd fun a => { a with data := { data with nApd := data.nApd + 1 } }
            let k := k.emit (.merged orig origSerial clist sup.apd (k.apd.cell sup.apd).serial)
            (k.apdPdxCacheInsert c fuel now orig clist sup.apd).map fun r =>
              (some (sup.apd, r.1), r.2)

/-- `apd_pdx_merge`: the APD with its place in the cache, `none` for `NULL`.  The clock is read
for the lookup and for the insertion. -/
def apdPdxMerge (fuel now now' orig : ℕ) (clist : Cap) (sup : ApdSupply) :
    Option (Option (ℕ × ApdCacheId) × Mem) :=
  (k.apdPdxCacheLookup c fuel now orig clist).bind fun r =>
    match r.1 with
    | some found => some (some found, r.2)
    | none => r.2.apdPdxBuild c fuel now' orig clist sup

/-- `apd_pdx_find_or_create`, on a PD at `addr` with the contents `pd`; it makes up to two
APDs. -/
def apdPdxFindOrCreate (os : Kernel O) (fuel now now' addr : ℕ) (pd : ApdDesc) (clist : Cap)
    (sup sup' : ApdSupply) : Option (Option (ℕ × ApdCacheId) × Mem) :=
  if addr = 0 then k.apdPdxMerge c fuel now now' 0 clist sup'
  else
    (k.apdFindOrCreate c os fuel addr pd sup).bind fun r =>
      if r.1 = 0 then some (none, r.2)
      else r.2.apdPdxMerge c fuel now now' r.1 clist sup'

end Mem

end Mungi
