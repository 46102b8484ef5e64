import Mungi.Provenance
import Mungi.Threads.Steps

/-!
# PDX calls

A PDX call looks for its APD in the PDX cache, and if it is not there, validates the entry
point and merges the Clist found for it into an APD (`sys_pdx_call`, `pdxcache.c`).  The
memory and the validation cache at the time of a validation, and the readings of the clock, are
arguments.

## Main definitions

* `Mem.pdxcacheAdd`, `Mem.pdxcacheLookup` — the PDX cache.
* `Mem.sysPdxCall` — the call.
* `CallOp`, `callStep` — the system with PDX calls, and with a clock.
-/

namespace Mungi

variable {O : Type}

/-- `PD_MERGE` -/
def pdMerge : ℕ := 2 ^ 64 - 1

/-- `PD_EMPTY` -/
def pdEmpty : ℕ := 0

/-- `HASH` of `pdxcache.c` -/
def pdxcacheHash (a b c : ℕ) : ℕ :=
  ((a >>> 8 ^^^ a >>> 16) ^^^ a >>> 40 ^^^ b >>> 8 ^^^ b >>> 16 ^^^ b >>> 40 ^^^ c) % 256

/-- What a PDX call is made with: the call, and what it is answered by the rest of the
kernel. -/
structure PdxArgs (O : Type) where
  fuel : ℕ
  caller : ℕ
  proc : ℕ
  pd : ℕ
  /-- The clock when the PDX cache is looked at. -/
  lookup : ℕ
  /-- The memory, the validation cache and the clock when `proc` is validated. -/
  asking : Asking O
  /-- The same for `pd`. -/
  askingPd : Asking O
  /-- What is in the PD. -/
  desc : ApdDesc
  /-- The clock when the cache of APDs is looked at, and when an APD is put there. -/
  merge : ℕ
  insert : ℕ
  /-- For the APD of the PD. -/
  supPd : ApdSupply
  sup : ApdSupply
  thread : ThreadSupply

namespace Mem

variable (c : ThreadConf) (k : Mem)

/-- `pdxcache_add` -/
def pdxcacheAdd (apdSrc proc apdDest : ℕ) (id : ApdCacheId) : Mem :=
  { k with
    pdxCache := Function.update k.pdxCache (pdxcacheHash apdSrc proc apdDest)
      ⟨apdSrc, proc, apdDest, id⟩ }

/-- `pdxcache_lookup`: the APD, 0 for `NULL`. -/
def pdxcacheLookup (now apdSrc proc apdDest : ℕ) : Option ℕ :=
  let entry := k.pdxCache (pdxcacheHash apdSrc proc apdDest)
  if entry.apdSrc = apdSrc ∧ entry.proc = proc ∧ entry.apdDest = apdDest then
    k.apdPdxCacheCheckId c now entry.id
  else some 0

/-- What the APD of the caller asks. -/
def askFor (a : PdxArgs O) (asking : Asking O) : Asking O :=
  { asking with apd := (k.apd.cell (k.apdOf a.caller)).data }

/-- The part of `sys_pdx_call` that gets the APD for the Clist: `none` for `NULL`. -/
def pdxApd (a : PdxArgs O) (clist : Cap) : Option (Option (ℕ × ApdCacheId) × Mem) :=
  if a.pd = pdMerge then
    k.apdPdxMerge c a.fuel a.merge a.insert (k.apdOf a.caller) clist a.sup
  else if a.pd = pdEmpty then k.apdPdxMerge c a.fuel a.merge a.insert 0 clist a.sup
  else
    ((k.askFor a a.askingPd).validateObj a.pd mExecute).bind fun r =>
      match r with
      | none => some (none, k)
      | some _ =>
        k.apdPdxFindOrCreate c a.askingPd.kernel a.fuel a.merge a.insert a.pd a.desc clist a.supPd
          a.sup

/-- The part of `sys_pdx_call` before the thread is created: the APD, 0 for an error. -/
def pdxCallApd (a : PdxArgs O) : Option (ℕ × Mem) :=
  let src := k.apdOf a.caller
  (k.pdxcacheLookup c a.lookup src a.proc a.pd).bind fun apd =>
    if apd ≠ 0 then some (apd, k)
    else
      (pdxCallClist (k.askFor a a.asking) a.proc).bind fun r =>
        match r with
        | none => some (0, k)
        | some clist =>
          (k.pdxApd c a clist).map fun r =>
            match r.1 with
            | none => (0, r.2)
            | some (apd, id) =>
              (apd, (r.2.emit (.bound src (k.apd.cell src).serial a.proc a.pd a.asking.now
                (r.2.apdPdxCache id.pos).orig clist apd id.serial)).pdxcacheAdd src a.proc a.pd id)

/-- `sys_pdx_call`: `true` for `success`. -/
def sysPdxCall (a : PdxArgs O) : Option (Bool × Mem) :=
  (k.pdxCallApd c a).bind fun r =>
    if r.1 = 0 then some (false, r.2)
    else
      (r.2.threadPdxCreate c a.fuel r.1 a.caller a.thread).map fun s => (s.1 ≠ 0, s.2)

end Mem

/-! ### The system -/

/-- The calls of before, and PDX calls. -/
inductive CallOp (O : Type) where
  | thread (op : ThreadOp O)
  | pdxCall (args : PdxArgs O)

/-- What a call does to the memory. -/
def callMemStep (c : ThreadConf) (k : Mem) : CallOp O → Option Mem
  | .thread op => threadStep c k op
  | .pdxCall args => (k.sysPdxCall c args).map Prod.snd

/-- The readings of the clock, in their order. -/
def CallOp.readings : CallOp O → List ℕ
  | .thread (.apdPdxMerge _ now now' _ _ _) => [now, now']
  | .thread _ => []
  | .pdxCall args => [args.lookup, args.asking.now, args.merge, args.insert]

/-- The memory and the clock. -/
structure Timed where
  mem : Mem
  clock : ℕ

/-- One call at a time.  The clock is a word, and does not go back. -/
def callStep (c : ThreadConf) (s : Timed) (op : CallOp O) : Option Timed :=
  if (s.clock :: op.readings).Pairwise (· ≤ ·) ∧ ∀ t ∈ op.readings, t < 2 ^ 64 then
    (callMemStep c s.mem op).map fun mem => ⟨mem, op.readings.getLastD s.clock⟩
  else none

end Mungi
