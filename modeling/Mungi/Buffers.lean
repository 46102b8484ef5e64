import Mungi.CachedObjects
import Mungi.Lib.Spans

/-!
# Structures that system calls fill in

`ThreadInfo`, `ObjInfo` and `ApdGet` fill in a structure of the caller
(`sys/types.h`).  The caller's APD has to allow writing where the structure starts.
Whether the object goes on up to the end of the structure is left to `validate_range`,
and that has not been written yet: it agrees to everything.

The thread table is left out, as is what is written; a call is given what it finds
there, and leaves the places it writes to.

## Main definitions

* `validateRange`, `threadInfo`, `objectInfo`, `apdGet` — the functions.
* `sysThreadInfo`, `sysObjectInfo`, `sysApdGet` — the system calls.
* `FillRes.Confined` — what a call writes lies in the object it has been allowed to write.
* `Roomy` — the structure ends within its object, if anything is written at all.

## Main results

* `fillBuffer_confined` — what one call writes.
* `buffers_confined_iff` — **when all calls write only where they may.**
* `buffers_confined_current` — only the ends of the objects count, while the caches are in
  step with the table.
* `buffers_not_confined` — a run in which a call does not.
-/

namespace Mungi

open Cat Runs Spans

variable {O ι : Type}

/-! ### The code -/

/-- `sizeof(threadinfo_t)` -/
def threadinfoSize : ℕ := 80

/-- `sizeof(objinfo_t)` -/
def objinfoSize : ℕ := 3328

/-- `sizeof(apddesc_t)` -/
def apddescSize : ℕ := 264

/-- The bytes from an address on. -/
def bytesAt (addr length : ℕ) : Span := ⟨addr, addr + length⟩

/-- `validate_range` -/
def validateRange (_obj : Obj) (_start _length : ℕ) : Bool := true

/-- `thread_info`, where `child` is what `thread_find_mthread_from_parent` has found: the
bytes written, and whether it succeeds. -/
def threadInfo (child : Option ℕ) (info : ℕ) : List Span × Bool :=
  match child with
  | none => ([], false)
  | some _ => ([bytesAt info threadinfoSize], true)

/-- `object_info`: the eight public fields, in front of the structure. -/
def objectInfo (info : ℕ) : List Span × Bool :=
  ([bytesAt info 8, bytesAt (info + 8) 8, bytesAt (info + 16) 8, bytesAt (info + 24) 8,
    bytesAt (info + 32) 8, bytesAt (info + 40) 8, bytesAt (info + 48) 8, bytesAt (info + 56) 8],
    true)

/-- `apd_get`: `n_locked` and `n_apd`, which lie behind the slots, and then each slot. -/
def apdGet (buffer : ℕ) : List Span :=
  [bytesAt (buffer + 256) 1, bytesAt (buffer + 257) 1] ++
    cat (fun i => [bytesAt (buffer + 16 * i.toNat) 8, bytesAt (buffer + 16 * i.toNat + 8) 8]) 0 16

/-- A call with the address of a structure to fill in. -/
structure BufferCall (ι : Type) where
  /-- The APD of the calling thread, and its slots and Clists at the time. -/
  i : ι
  apd : ApdDesc
  clist : ℕ → Clist
  buffer : ℕ
  /-- Clock readings. -/
  now : ℕ
  t₁ : ℕ
  t₂ : ℕ

/-- The request to validate. -/
def BufferCall.request (c : BufferCall ι) (access : Access) : Request :=
  ⟨c.buffer, access, c.now, c.t₁, c.t₂⟩

/-- What is left of a call. -/
structure FillRes (O : Type) where
  cache : Vcache O CapPtr
  /-- The object validated for the buffer, and the access it is validated for. -/
  validated : Option (O × Access)
  /-- The bytes written through the buffer pointer. -/
  stores : List Span
  /-- The call succeeds. -/
  success : Bool

/-- What the three calls have in common: the buffer is validated for the access, its size is
put to `validate_range`, and the structure is filled in. -/
def fillBuffer (k : Kernel O) (c : BufferCall ι) (v : Vcache O CapPtr) (access : Access)
    (size : ℕ) (fill : List Span × Bool) : Option (FillRes O) :=
  (doValidateObj k c.apd v c.buffer access c.now c.t₁ c.t₂).map fun r =>
    match r.2.1 with
    | none => ⟨r.1, none, [], false⟩
    | some o =>
      if validateRange (k.obj o) c.buffer size = false then ⟨r.1, some (o, access), [], false⟩
      else ⟨r.1, some (o, access), fill.1, fill.2⟩

/-- `sys_thread_info` -/
def sysThreadInfo (k : Kernel O) (child : Option ℕ) (c : BufferCall ι) (v : Vcache O CapPtr) :
    Option (FillRes O) :=
  fillBuffer k c v (mRead ||| mWrite) threadinfoSize (threadInfo child c.buffer)

/-- `sys_object_info`, as it is configured: there is no access to the object `addr` asked
for. -/
def sysObjectInfo (k : Kernel O) (addr : ℕ) (c : BufferCall ι) (v : Vcache O CapPtr) :
    Option (FillRes O) :=
  match objectFind k addr with
  | none => some ⟨v, none, [], false⟩
  | some _ => fillBuffer k c v (mRead ||| mWrite) objinfoSize (objectInfo c.buffer)

/-- `sys_apd_get` -/
def sysApdGet (k : Kernel O) (c : BufferCall ι) (v : Vcache O CapPtr) : Option (FillRes O) :=
  fillBuffer k c v mWrite apddescSize (apdGet c.buffer, true)

/-! ### One call -/

/-- The bytes lie in an object of the table. -/
def Kernel.Owns (k : Kernel O) (o : O) (bytes : Span) : Prop :=
  o ∈ k.objtable.toList ∧ (k.obj o).base ≤ bytes.lo ∧ bytes.hi ≤ (k.obj o).limit

instance [DecidableEq O] (k : Kernel O) (o : O) (bytes : Span) : Decidable (k.Owns o bytes) :=
  inferInstanceAs (Decidable (_ ∧ _))

theorem Kernel.Owns.mono {k : Kernel O} {o : O} {b b' : Span} (h : k.Owns o b) (h₁ : b.lo ≤ b'.lo)
    (h₂ : b'.hi ≤ b.hi) : k.Owns o b' :=
  ⟨h.1, h.2.1.trans h₁, h₂.trans h.2.2⟩

/-- The bytes lie in the object that a call has been allowed to write. -/
def FillRes.Allows (f : FillRes O) (k : Kernel O) (bytes : Span) : Prop :=
  ∃ r ∈ f.validated, r.2.Covers mWrite ∧ k.Owns r.1 bytes

instance [DecidableEq O] (f : FillRes O) (k : Kernel O) (bytes : Span) :
    Decidable (f.Allows k bytes) := by
  unfold FillRes.Allows
  infer_instance

/-- **A call writes where it may**: every byte it writes lies in the object it has been
allowed to write, and nothing is written when the structure does not. -/
def FillRes.Confined (f : FillRes O) (k : Kernel O) (whole : Span) : Prop :=
  (∀ w ∈ f.stores, f.Allows k w) ∧ (¬ f.Allows k whole → f.stores = [])

instance [DecidableEq O] (f : FillRes O) (k : Kernel O) (whole : Span) :
    Decidable (f.Confined k whole) := by
  unfold FillRes.Confined
  infer_instance

/-- The structure lies in the object that is handed out for the buffer. -/
def BufferCall.Fits (k : Kernel O) (c : BufferCall ι) (v : Vcache O CapPtr) (access : Access)
    (size : ℕ) : Prop :=
  ∀ o, answer k c.apd v (c.request access) = some (some o) → k.Owns o (bytesAt c.buffer size)

section Call
variable {k : Kernel O} {c : BufferCall ι} {v : Vcache O CapPtr} {access : Access} {size : ℕ}
  {fill : List Span × Bool} {f : FillRes O}

theorem fillBuffer_cache :
    (fillBuffer k c v access size fill).map FillRes.cache
      = validateStep k c.apd v (c.request access) := by
  unfold fillBuffer validateStep BufferCall.request
  rw [Option.map_map]
  congr 1
  funext r
  rcases r with ⟨v, _ | o, cap⟩ <;> rfl

/-- **What one call writes** is confined just when there is nothing to write or the structure
lies in the object handed out. -/
theorem fillBuffer_confined (haccess : access.Covers mWrite)
    (hfill : ∀ w ∈ fill.1, c.buffer ≤ w.lo ∧ w.hi ≤ c.buffer + size)
    (hf : fillBuffer k c v access size fill = some f) :
    f.Confined k (bytesAt c.buffer size) ↔ fill.1 = [] ∨ c.Fits k v access size := by
  unfold BufferCall.Fits answer BufferCall.request
  unfold fillBuffer at hf
  obtain ⟨r, hr, rfl⟩ := Option.map_eq_some_iff.mp hf
  dsimp only
  rw [hr, Option.map_some]
  rcases r with ⟨w, _ | o, cap⟩
  · exact iff_of_true ⟨nofun, fun _ => rfl⟩ (Or.inr nofun)
  · have hallows : ∀ bytes, FillRes.Allows ⟨w, some (o, access), fill.1, fill.2⟩ k bytes ↔
        k.Owns o bytes := by
      intro bytes
      unfold FillRes.Allows
      simp [haccess]
    have hrange : ¬ validateRange (k.obj o) c.buffer size = false := by simp [validateRange]
    dsimp only
    rw [if_neg hrange]
    unfold FillRes.Confined
    simp only [hallows, Option.some.injEq, forall_eq']
    constructor
    · rintro ⟨-, hwhole⟩
      by_cases hown : k.Owns o (bytesAt c.buffer size)
      · exact Or.inr hown
      · exact Or.inl (hwhole hown)
    · rintro (hnil | hown)
      · exact ⟨fun w hw => absurd (hnil ▸ hw) List.not_mem_nil, fun _ => hnil⟩
      · exact ⟨fun w hw => hown.mono (hfill w hw).1 (hfill w hw).2, fun hno => absurd hown hno⟩

end Call

/-! ### Where the structures are written -/

theorem threadInfo_within (child : Option ℕ) (info : ℕ) :
    ∀ w ∈ (threadInfo child info).1, info ≤ w.lo ∧ w.hi ≤ info + threadinfoSize := by
  intro w hw
  cases child with
  | none => cases hw
  | some child =>
    rw [List.mem_singleton.mp hw]
    exact ⟨le_rfl, le_rfl⟩

theorem objectInfo_within (info : ℕ) :
    ∀ w ∈ (objectInfo info).1, info ≤ w.lo ∧ w.hi ≤ info + objinfoSize := by
  unfold objectInfo bytesAt objinfoSize
  simp only [List.forall_mem_cons]
  refine ⟨?_, ?_, ?_, ?_, ?_, ?_, ?_, ?_, nofun⟩ <;> omega

theorem apdGet_within (buffer : ℕ) :
    ∀ w ∈ apdGet buffer, buffer ≤ w.lo ∧ w.hi ≤ buffer + apddescSize := by
  intro w hw
  unfold apdGet bytesAt at hw
  unfold apddescSize
  rcases List.mem_append.mp hw with hw | hw
  · rw [List.mem_pair] at hw
    rcases hw with rfl | rfl <;> dsimp only <;> omega
  · obtain ⟨i, h₁, h₂, hi⟩ := exists_of_mem_cat hw
    rw [List.mem_pair] at hi
    rcases hi with rfl | rfl <;> dsimp only <;> omega

/-! ### Runs -/

/-- The objects and the caches, and whether a call has written where it may not. -/
structure BufferState (O ι : Type) where
  host : Host O ι
  astray : Bool

/-- What happens between boot and a call. -/
inductive BufferOp (O ι : Type) where
  | host (op : HostOp O ι)
  | flush (i : ι)
  | flushAddr (i : ι) (addr : ℕ)
  /-- `child` is the thread found. -/
  | threadInfo (child : Option ℕ) (c : BufferCall ι)
  | objectInfo (addr : ℕ) (c : BufferCall ι)
  | apdGet (c : BufferCall ι)

/-- The cache of APD `i` is another one. -/
def Host.setCache [DecidableEq ι] (s : Host O ι) (i : ι) (v : Vcache O CapPtr) : Host O ι :=
  { s with vcache := Function.update s.vcache i v }

/-- The kernel as a call finds it. -/
def Host.kernelAt (s : Host O ι) (c : BufferCall ι) : Kernel O := s.sys.kernel.withClists c.clist

/-- A call comes back. -/
def BufferState.fill [DecidableEq O] [DecidableEq ι] (s : BufferState O ι) (c : BufferCall ι)
    (size : ℕ) (f : FillRes O) : BufferState O ι :=
  { host := { s.host.setCache c.i f.cache with clock := c.t₂ }
    astray := s.astray || decide (¬ f.Confined (s.host.kernelAt c) (bytesAt c.buffer size)) }

/-- One step. -/
def bufferStep [DecidableEq O] [DecidableEq ι] (pageSize : ℕ) (s : BufferState O ι) :
    BufferOp O ι → Option (BufferState O ι)
  | .host op => (hostStep pageSize s.host op).map fun host => { s with host }
  | .flush i => some { s with host := s.host.setCache i (vcacheFlush (s.host.vcache i)) }
  | .flushAddr i addr =>
    some { s with host := s.host.setCache i (vcacheFlushAddr (s.host.vcache i) addr) }
  | .threadInfo child c =>
    (sysThreadInfo (s.host.kernelAt c) child c (s.host.vcache c.i)).map (s.fill c threadinfoSize)
  | .objectInfo addr c =>
    (sysObjectInfo (s.host.kernelAt c) addr c (s.host.vcache c.i)).map (s.fill c objinfoSize)
  | .apdGet c => (sysApdGet (s.host.kernelAt c) c (s.host.vcache c.i)).map (s.fill c apddescSize)

/-- **The structure ends within its object**: it lies in the object handed out for the buffer,
unless the call does not get as far as writing. -/
def Roomy (s : BufferState O ι) : BufferOp O ι → Prop
  | .threadInfo child c => child = none ∨
      c.Fits (s.host.kernelAt c) (s.host.vcache c.i) (mRead ||| mWrite) threadinfoSize
  | .objectInfo addr c => objectFind (s.host.kernelAt c) addr = none ∨
      c.Fits (s.host.kernelAt c) (s.host.vcache c.i) (mRead ||| mWrite) objinfoSize
  | .apdGet c => c.Fits (s.host.kernelAt c) (s.host.vcache c.i) mWrite apddescSize
  | _ => True

section Run
variable [DecidableEq O] [DecidableEq ι] {pageSize : ℕ} {s s' : BufferState O ι}

theorem fill_astray {c : BufferCall ι} {size : ℕ} {f : FillRes O} {q : Prop}
    (h : f.Confined (s.host.kernelAt c) (bytesAt c.buffer size) ↔ q) :
    (s.fill c size f).astray = false ↔ s.astray = false ∧ q := by
  rw [← h, BufferState.fill, Bool.or_eq_false_iff, decide_eq_false_iff_not, not_not]

/-- **One step** goes astray just when it has no room. -/
theorem bufferStep_astray {op : BufferOp O ι} (hs' : bufferStep pageSize s op = some s') :
    s'.astray = false ↔ s.astray = false ∧ Roomy s op := by
  cases op with
  | host op =>
    obtain ⟨host, -, rfl⟩ := Option.map_eq_some_iff.mp hs'
    exact (and_iff_left trivial).symm
  | flush i =>
    obtain rfl := Option.some.inj hs'
    exact (and_iff_left trivial).symm
  | flushAddr i addr =>
    obtain rfl := Option.some.inj hs'
    exact (and_iff_left trivial).symm
  | threadInfo child c =>
    obtain ⟨f, hf, rfl⟩ := Option.map_eq_some_iff.mp hs'
    have hnil : (threadInfo child c.buffer).1 = [] ↔ child = none := by
      cases child <;> simp [threadInfo]
    rw [fill_astray (fillBuffer_confined (by decide) (threadInfo_within child c.buffer) hf), hnil]
    rfl
  | objectInfo addr c =>
    obtain ⟨f, hf, rfl⟩ := Option.map_eq_some_iff.mp hs'
    unfold sysObjectInfo at hf
    cases hfind : objectFind (s.host.kernelAt c) addr with
    | none =>
      rw [hfind] at hf
      obtain rfl := Option.some.inj hf
      exact fill_astray (iff_of_true ⟨nofun, fun _ => rfl⟩ (Or.inl hfind))
    | some o =>
      rw [hfind] at hf
      rw [fill_astray (fillBuffer_confined (by decide) (objectInfo_within c.buffer) hf)]
      refine and_congr_right fun _ => or_congr (iff_of_false nofun ?_) Iff.rfl
      rw [hfind]
      exact nofun
  | apdGet c =>
    obtain ⟨f, hf, rfl⟩ := Option.map_eq_some_iff.mp hs'
    rw [fill_astray (fillBuffer_confined (by decide) (apdGet_within c.buffer) hf)]
    exact and_congr_right fun _ => or_iff_right nofun

/-- **When all calls write only where they may**: in a run of calls about objects, validations
and calls that fill in a structure, in any order and for any number of APDs, every structure
that is written at all ends within the object handed out for its address. -/
theorem buffers_confined_iff (pageSize : ℕ) (sys : System O) (clock : ℕ)
    (ops : List (BufferOp O ι)) (s : BufferState O ι)
    (hs : run (bufferStep pageSize) ⟨⟨sys, fun _ => vcacheNew, clock⟩, false⟩ ops = some s) :
    s.astray = false ↔
      Along (bufferStep pageSize) Roomy ⟨⟨sys, fun _ => vcacheNew, clock⟩, false⟩ ops := by
  have hflag := run_flag (I := fun _ => True) (P := fun s => s.astray = false)
    (D := fun _ _ => True) (fun s op s' _ _ hs' => ⟨trivial, bufferStep_astray hs'⟩) ops _ s trivial
    (Along.of_forall fun _ _ => trivial) hs
  exact hflag.trans (and_iff_right rfl)

/-! ### Caches in step with the table -/

/-- The validation that a call makes. -/
def BufferCall.validation (c : BufferCall ι) (access : Access) : HostOp O ι :=
  .validate c.i c.apd c.clist (c.request access)

/-- The clock does not run backwards, and the caches have forgotten in time. -/
def InTime (pageSize : ℕ) (s : BufferState O ι) : BufferOp O ι → Prop
  | .host op => Timely s.host op ∧ Forgotten pageSize s.host op
  | .threadInfo _ c | .objectInfo _ c => Timely s.host (c.validation (mRead ||| mWrite))
  | .apdGet c => Timely s.host (c.validation mWrite)
  | _ => True

/-- The structure ends before the object does that is handed out for its address. -/
def BufferCall.Ends (k : Kernel O) (c : BufferCall ι) (v : Vcache O CapPtr) (access : Access)
    (size : ℕ) : Prop :=
  ∀ o, answer k c.apd v (c.request access) = some (some o) → c.buffer + size ≤ (k.obj o).limit

/-- The structure ends before its object does, unless the call does not get as far. -/
def Ending (s : BufferState O ι) : BufferOp O ι → Prop
  | .threadInfo child c => child = none ∨
      c.Ends (s.host.kernelAt c) (s.host.vcache c.i) (mRead ||| mWrite) threadinfoSize
  | .objectInfo addr c => objectFind (s.host.kernelAt c) addr = none ∨
      c.Ends (s.host.kernelAt c) (s.host.vcache c.i) (mRead ||| mWrite) objinfoSize
  | .apdGet c => c.Ends (s.host.kernelAt c) (s.host.vcache c.i) mWrite apddescSize
  | _ => True

omit [DecidableEq O] [DecidableEq ι] in
/-- What is handed out for an address is there and contains it, so that only the end counts. -/
theorem fits_iff_ends (h : s.host.Current) {c : BufferCall ι} {access : Access} {size : ℕ}
    (htime : Timely s.host (c.validation access)) (hp : ¬ access.IsPdx) :
    c.Fits (s.host.kernelAt c) (s.host.vcache c.i) access size ↔
      c.Ends (s.host.kernelAt c) (s.host.vcache c.i) access size := by
  refine forall_congr' fun o => imp_congr_right fun ho => ?_
  obtain ⟨hmem, hin⟩ := h.alive c.i c.apd c.clist htime hp ho
  exact ⟨fun hown => hown.2.2, fun hend => ⟨hmem, hin.1, hend⟩⟩

omit [DecidableEq ι] in
theorem roomy_iff_ending (h : s.host.Current) {op : BufferOp O ι} (htime : InTime pageSize s op) :
    Roomy s op ↔ Ending s op := by
  cases op with
  | threadInfo child c => exact or_congr_right (fits_iff_ends h htime (by decide))
  | objectInfo addr c => exact or_congr_right (fits_iff_ends h htime (by decide))
  | apdGet c => exact fits_iff_ends h htime (by decide)
  | host | flush | flushAddr => exact Iff.rfl

/-- A call does to the cache what its validation does. -/
theorem fill_current (h : s.host.Current) {c : BufferCall ι} {access : Access} {size : ℕ}
    {fill : List Span × Bool} {f : FillRes O} (htime : Timely s.host (c.validation access))
    (hf : fillBuffer (s.host.kernelAt c) c (s.host.vcache c.i) access size fill = some f) :
    (s.fill c size f).host.Current := by
  have hcache : some f.cache
      = validateStep (s.host.kernelAt c) c.apd (s.host.vcache c.i) (c.request access) := by
    rw [← fillBuffer_cache, hf, Option.map_some]
  have hcall : hostStep 0 s.host (c.validation access) = some (s.fill c size f).host := by
    unfold BufferCall.validation hostStep
    dsimp only
    unfold Host.kernelAt at hcache
    rw [← hcache]
    rfl
  exact hostStep_current h htime trivial hcall

/-- The caches stay in step with the table. -/
theorem bufferStep_current (h : s.host.Current) {op : BufferOp O ι}
    (htime : InTime pageSize s op) (hs' : bufferStep pageSize s op = some s') :
    s'.host.Current := by
  have hset : ∀ i v, v.Holds (Current s.host.sys.kernel s.host.clock) →
      (s.host.setCache i v).Current := by
    refine fun i v hv => ⟨h.table, fun j => ?_⟩
    unfold Host.setCache
    dsimp only
    by_cases hj : j = i
    · rw [hj, Function.update_self]
      exact hv
    · rw [Function.update_of_ne hj]
      exact h.caches j
  cases op with
  | host op =>
    obtain ⟨host, hhost, rfl⟩ := Option.map_eq_some_iff.mp hs'
    exact hostStep_current h htime.1 htime.2 hhost
  | flush i =>
    obtain rfl := Option.some.inj hs'
    exact hset i _ (Vcache.Holds.flush _)
  | flushAddr i addr =>
    obtain rfl := Option.some.inj hs'
    exact hset i _ (((h.caches i).flushAddr addr).mono fun _ _ hP => hP.1)
  | threadInfo child c =>
    obtain ⟨f, hf, rfl⟩ := Option.map_eq_some_iff.mp hs'
    exact fill_current h htime hf
  | objectInfo addr c =>
    obtain ⟨f, hf, rfl⟩ := Option.map_eq_some_iff.mp hs'
    unfold sysObjectInfo at hf
    cases hfind : objectFind (s.host.kernelAt c) addr with
    | none =>
      rw [hfind] at hf
      obtain rfl := Option.some.inj hf
      obtain ⟨hle, hle', -⟩ := htime
      have hsame := hset c.i (s.host.vcache c.i) (h.caches c.i)
      exact ⟨hsame.table, fun j =>
        (hsame.caches j).mono fun e info hcur => hcur.later (hle.trans hle')⟩
    | some o =>
      rw [hfind] at hf
      exact fill_current h htime hf
  | apdGet c =>
    obtain ⟨f, hf, rfl⟩ := Option.map_eq_some_iff.mp hs'
    exact fill_current h htime hf

/-- **While the caches are in step with the table** only the ends of the objects count. -/
theorem buffers_confined_current {sys : System O} (htable : sys.kernel.TableOk) (clock : ℕ)
    {ops : List (BufferOp O ι)} {s : BufferState O ι}
    (htime : Along (bufferStep pageSize) (InTime pageSize) ⟨⟨sys, fun _ => vcacheNew, clock⟩, false⟩
      ops)
    (hs : run (bufferStep pageSize) ⟨⟨sys, fun _ => vcacheNew, clock⟩, false⟩ ops = some s) :
    s.astray = false ↔
      Along (bufferStep pageSize) Ending ⟨⟨sys, fun _ => vcacheNew, clock⟩, false⟩ ops := by
  have hflag := run_flag (I := fun s => s.host.Current) (P := fun s => s.astray = false)
    (G := Ending) (fun s op s' h htime hs' => ⟨bufferStep_current h htime hs',
      (bufferStep_astray hs').trans (and_congr_right fun _ => roomy_iff_ending h htime)⟩) ops _ s
    ⟨htable, fun _ => holds_vcacheNew⟩ htime hs
  exact hflag.trans (and_iff_right rfl)

end Run

/-! ### A structure across the end -/

/-- A capability for all of the object of `sharedKernel`, presented for a structure at an
address. -/
def getAt (buffer : ℕ) : BufferOp ℕ Unit :=
  .apdGet ⟨(), sharedApd, fun _ => ⟨'c'.toNat, 1, 1, fun _ => ⟨0x1000, 22⟩⟩, buffer, 5, 5, 5⟩

/-- A structure in the middle of the object. -/
theorem buffers_confined_middle :
    ∃ s, run (bufferStep 0x1000) ⟨sharedHost, false⟩ [getAt 0x2000] = some s ∧
      s.astray = false := by
  refine ⟨_, rfl, (buffers_confined_iff 0x1000 ⟨sharedKernel, []⟩ 0 [getAt 0x2000] _ rfl).mpr
    ⟨?_, fun _ _ => trivial⟩⟩
  rintro o ho
  obtain rfl : o = 1 := by
    have hanswer : answer (sharedHost.kernelAt ⟨(), sharedApd,
        fun _ => ⟨'c'.toNat, 1, 1, fun _ => ⟨0x1000, 22⟩⟩, 0x2000, 5, 5, 5⟩) sharedApd vcacheNew
        ⟨0x2000, mWrite, 5, 5, 5⟩ = some (some 1) := by decide +kernel
    exact (Option.some.inj (Option.some.inj (hanswer.symm.trans ho))).symm
  exact ⟨by decide, by decide, by decide⟩

/-- The structure starts eight bytes before the end of the object: `apd_get` writes on behind
it. -/
theorem buffers_not_confined : ¬ ∀ (pageSize : ℕ) (sys : System ℕ) (clock : ℕ)
    (ops : List (BufferOp ℕ Unit)) (s : BufferState ℕ Unit),
    run (bufferStep pageSize) ⟨⟨sys, fun _ => vcacheNew, clock⟩, false⟩ ops = some s →
      s.astray = false := by
  intro h
  have hend : (run (bufferStep 0x1000) ⟨⟨⟨sharedKernel, []⟩, fun _ => vcacheNew, 0⟩, false⟩
      [getAt 0x2ff8]).map BufferState.astray = some true := by
    decide +kernel
  obtain ⟨s, hrun, hs⟩ := Option.map_eq_some_iff.mp hend
  rw [h 0x1000 ⟨sharedKernel, []⟩ 0 _ s hrun] at hs
  cases hs

end Mungi
