import Mungi.Syscalls

/-!
# Nothing changes without a capability

An object, its passwords and its semaphores are changed by system calls only, and only by callers
that have shown a capability for it: their APD has one in the call itself, or has had one not longer
ago than the cache remembers.  What the cache remembers is a pointer, though.  If the object is
deleted meanwhile and its addresses are used again, it is the new object that goes when the call is
one of `ObjDelete`; and a table without memory for its pages may lose objects when others are made.

## Main definitions

* `Store.Same` — an object, its semaphores and its place in the table are what they were.
* `Kernel.Capable` — an APD has a capability for an access to an object.
* `Entitled` — it has shown it, not longer ago than the cache remembers.

## Main results

* `guard_entitled` — a handler goes on with objects to which the caller is entitled.
* `sysStep_mediated` — one call.
* `objects_mediated` — **what changes an object is a call of somebody who is entitled to it.**
-/

namespace Mungi

open Runs

variable {O ι : Type}

/-! ### Who may do what -/

/-- The request for an access. -/
def Clock.request (t : Clock) (addr : ℕ) (access : Access) : Request :=
  ⟨addr, access, t.now, t.t₁, t.t₂⟩

/-- The requests that a call makes, if it gets that far. -/
def SysCall.requests : SysCall O → List Request
  | .objectCreate none _ _ _ => []
  | .objectCreate (some (addr, t)) _ _ _ => [t.request addr mRead]
  | .objectDelete addr t => [t.request addr mDestroy]
  | .objectResize addr _ t => [t.request addr mOwner]
  | .objectPasswd addr _ _ t => [t.request addr mOwner]
  | .objectPdx a =>
    [a.pdxTime.request a.pdx mRead, a.clistTime.request a.clist mRead, a.time.request a.addr mOwner]
  | .semCreate addr _ _ t => [t.request addr (mRead ||| mWrite)]
  | .semDelete addr t => [t.request addr mOwner]
  | .semWait addr _ _ t => [t.request addr mRead]
  | .semSignal addr _ t => [t.request addr mRead]
  | .lookup addr minrights t => [t.request addr minrights]
  | .apdFlush => []

/-- The request for the object that a call is about. -/
def SysCall.needs : SysCall O → Option Request
  | .objectDelete addr t => some (t.request addr mDestroy)
  | .objectResize addr _ t => some (t.request addr mOwner)
  | .objectPasswd addr _ _ t => some (t.request addr mOwner)
  | .objectPdx a => some (a.time.request a.addr mOwner)
  | .semCreate addr _ _ t => some (t.request addr (mRead ||| mWrite))
  | .semDelete addr t => some (t.request addr mOwner)
  | .semWait addr _ _ t => some (t.request addr mRead)
  | .semSignal addr _ t => some (t.request addr mRead)
  | _ => none

/-- It is a call of `ObjDelete`. -/
def SysCall.IsDelete : SysCall O → Prop
  | .objectDelete .. => True
  | _ => False

/-- An APD has a capability for an object, with a password that is registered with rights that
include the access. -/
def Kernel.Capable (k : Kernel O) (apd : ApdDesc) (o : O) (access : Access) : Prop :=
  ∃ cap ∈ k.candidates apd (k.obj o), ∃ j : ℤ, 0 ≤ j ∧ j < (k.obj o).info.nCaps ∧
    (k.obj o).info.passwd j = (k.capAt cap).passwd ∧ ((k.obj o).info.rights j).Covers access

/-- An object, its semaphores and its place in the table are what they were. -/
structure Store.Same (s s' : Store O ι) (o : O) : Prop where
  obj : s'.host.sys.kernel.obj o = s.host.sys.kernel.obj o
  sem : s'.sem o = s.sem o
  mem : o ∈ s'.host.sys.kernel.objtable.toList ↔ o ∈ s.host.sys.kernel.objtable.toList

section Calls
variable [DecidableEq O] [DecidableEq ι]

/-- A call makes an object of the memory `o`, or the table has no page left for the new object. -/
def SysCall.Makes (pageSize : ℕ) (s : Store O ι) (o : O) : SysCall O → Prop
  | .objectCreate _ size passwd mem => ∃ o' junk, mem = some (o', junk) ∧
      (o' = o ∨
        let k := s.host.sys.kernel.setObj o'
          (objectInit junk (kmallocObj pageSize s.host.sys.free size).1 size passwd)
        (btIns k.conf k.objtable o').1 = .allocFail)
  | _ => False

/-- An entry of the cache of APD `i` was put in by one of the calls. -/
def Asked (pageSize fuel : ℕ) (s₀ : Store O ι) (acts : List (SysAct O ι)) (i : ι) (e : VcacheEntry)
    (info : VcacheInfo O CapPtr) : Prop :=
  ∃ before x after s r g, acts = before ++ x :: after ∧
    run (sysStep pageSize fuel) s₀ before = some s ∧ s.host.sys.kernel.TableOk ∧
    x.caller.i = i ∧ r ∈ x.call.requests ∧
    validateUncached (s.kernelAt x.caller) x.caller.apd r.addr r.access (-1) = .granted g ∧
    e = g.entry ∧ info = g.info r.t₂

/-- **APD `i` is entitled to an access**: in the last of the calls, or in an earlier one that is not
longer ago than the cache remembers, it had a capability for the object, which was in the table and
contained the address. -/
def Entitled (pageSize fuel : ℕ) (s₀ : Store O ι) (acts : List (SysAct O ι)) (i : ι) (r : Request)
    (o : O) : Prop :=
  ∃ before x after s r', acts = before ++ x :: after ∧
    run (sysStep pageSize fuel) s₀ before = some s ∧ x.caller.i = i ∧ r' ∈ x.call.requests ∧
    (after = [] ∨ wordSub r.now r'.t₂ ≤ vcacheTimeout) ∧
    o ∈ s.host.sys.kernel.objtable.toList ∧ (s.host.sys.kernel.obj o).Contains r.addr ∧
    (s.kernelAt x.caller).Capable x.caller.apd o r.access

/-- What is kept along the run of the calls. -/
structure Mediated (pageSize fuel : ℕ) (s₀ : Store O ι) (acts : List (SysAct O ι)) (s : Store O ι) :
    Prop where
  run : run (sysStep pageSize fuel) s₀ acts = some s
  table : s.host.sys.kernel.TableOk
  caches : ∀ i, (s.host.vcache i).Holds (Asked pageSize fuel s₀ acts i)

end Calls

/-! ### Capabilities -/

section Capable
variable {k : Kernel O} {apd : ApdDesc} {addr : ℕ} {access : Access} {g : Grant O CapPtr}

/-- What the search of an APD grants for an access, it has a capability for. -/
theorem GrantSpec.capable (hg : GrantSpec k apd addr access g) (hp : ¬ access.IsPdx) :
    k.Capable apd g.obj access := by
  obtain ⟨-, j, hj, hrights, -⟩ := hg.std hp
  exact ⟨g.cap, hg.cap, j, hj.nonneg, hj.lt, hj.passwd_eq, hrights ▸ hg.covers⟩

/-- It has one for every other access, too, that an entry of the cache for it is good for. -/
theorem GrantSpec.capable_of_matches (hg : GrantSpec k apd addr access g) {addr' : ℕ}
    {access' : Access} (hp : ¬ access'.IsPdx) (hm : g.entry.Matches addr' access')
    (hc : g.access.Covers access') :
    k.Capable apd g.obj access' ∧ (k.obj g.obj).Contains addr' := by
  obtain ⟨hin, -, hstd⟩ := hg.contains hm hc
  obtain ⟨-, j, hj, hrights, -⟩ := hg.std (hstd hp)
  exact ⟨⟨g.cap, hg.cap, j, hj.nonneg, hj.lt, hj.passwd_eq, hrights ▸ hc⟩, hin⟩

end Capable

/-! ### Validations -/

section Guard
variable [DecidableEq O] [DecidableEq ι] {pageSize fuel : ℕ} {s₀ s : Store O ι}
  {acts : List (SysAct O ι)} {x : SysAct O ι}

/-- Entries that were put in are still there when there is one call more. -/
theorem Asked.concat {i : ι} {e : VcacheEntry} {info : VcacheInfo O CapPtr}
    (h : Asked pageSize fuel s₀ acts i e info) : Asked pageSize fuel s₀ (acts ++ [x]) i e info := by
  obtain ⟨before, y, after, s, r, g, hacts, h⟩ := h
  refine ⟨before, y, after ++ [x], s, r, g, ?_, h⟩
  rw [hacts, List.append_assoc, List.cons_append]

theorem Asked.obj_ne_none {i : ι} {e : VcacheEntry} {info : VcacheInfo O CapPtr}
    (h : Asked pageSize fuel s₀ acts i e info) : info.obj ≠ none := by
  obtain ⟨before, y, after, s, r, g, -, -, -, -, -, -, -, rfl⟩ := h
  exact Option.some_ne_none g.obj

/-- The store in the middle of call `x`: no more has happened than validations. -/
structure Within (pageSize fuel : ℕ) (s₀ s : Store O ι) (acts : List (SysAct O ι)) (x : SysAct O ι)
    (s₁ : Store O ι) : Prop where
  sys : s₁.host.sys = s.host.sys
  sem : s₁.sem = s.sem
  caches : ∀ i, (s₁.host.vcache i).Holds (Asked pageSize fuel s₀ (acts ++ [x]) i)

theorem Mediated.within (h : Mediated pageSize fuel s₀ acts s) (x : SysAct O ι) :
    Within pageSize fuel s₀ s acts x s :=
  ⟨rfl, rfl, fun i => (h.caches i).mono fun _ _ => Asked.concat⟩

/-- **A handler goes on with objects to which the caller is entitled.** -/
theorem guard_entitled (h : Mediated pageSize fuel s₀ acts s) {s₁ : Store O ι}
    (hw : Within pageSize fuel s₀ s acts x s₁) {addr : ℕ} {access : Access} {t : Clock}
    (hreq : t.request addr access ∈ x.call.requests) {refused : SysReply}
    {f : Store O ι → O → Option CapPtr → Option (Store O ι × SysReply)} {res : Store O ι × SysReply}
    (hres : s₁.guard x.caller addr access t refused f = some res) :
    ∃ s₂, Within pageSize fuel s₀ s acts x s₂ ∧ (res = (s₂, refused) ∨
      ∃ o rcap, f s₂ o rcap = some res ∧ (¬ access.IsPdx →
        Entitled pageSize fuel s₀ (acts ++ [x]) x.caller.i (t.request addr access) o)) := by
  obtain ⟨r, hr, hout⟩ := doValidateObj_outcome (fun _ _ => Asked.obj_ne_none)
    (s₁.kernelAt x.caller) x.caller.apd (hw.caches x.caller.i) addr access t.now t.t₁ t.t₂
  have hkernel : s₁.kernelAt x.caller = s.kernelAt x.caller := by
    unfold Store.kernelAt
    rw [hw.sys]
  rw [hkernel] at hr hout
  -- the store with the cache that is left
  have hafter : ∀ w : Vcache O CapPtr,
      w.Holds (Asked pageSize fuel s₀ (acts ++ [x]) x.caller.i) →
      Within pageSize fuel s₀ s acts x
        { s₁ with host := { s₁.host.setCache x.caller.i w with clock := t.t₂ } } := by
    intro w hhold
    refine ⟨hw.sys, hw.sem, fun i => ?_⟩
    change (Function.update s₁.host.vcache x.caller.i w i).Holds _
    by_cases hi : i = x.caller.i
    · rw [hi, Function.update_self]
      exact hhold
    · rw [Function.update_of_ne hi]
      exact hw.caches i
  unfold Store.guard Store.validate at hres
  rw [hkernel, hr, Option.map_some, Option.bind_some] at hres
  cases hout with
  | unknown w holds verdict => exact ⟨_, hafter w holds, Or.inl (Option.some.inj hres).symm⟩
  | denied w cap holds verdict => exact ⟨_, hafter w holds, Or.inl (Option.some.inj hres).symm⟩
  | hit w e info o holds entry matches_entry time rights obj =>
    refine ⟨_, hafter w holds, Or.inr ⟨o, info.cap, hres, fun hp => ?_⟩⟩
    obtain ⟨before, y, after, s', r', g, hacts, hrun, htable, hi, hr', hverdict, rfl, rfl⟩ := entry
    obtain rfl : g.obj = o := Option.some.inj obj
    have hspec := grantSpec hverdict
    obtain ⟨hcap, hin⟩ := hspec.capable_of_matches hp matches_entry rights
    have hfound := objectFind_sound (k := s'.kernelAt y.caller) htable.odd htable.shaped hspec.found
    exact ⟨before, y, after, s', r', hacts, hrun, hi, hr', Or.inr time, hfound.1, hin, hcap⟩
  | granted w g holds verdict =>
    have hasked : Asked pageSize fuel s₀ (acts ++ [x]) x.caller.i g.entry (g.info t.t₂) :=
      ⟨acts, x, [], s, t.request addr access, g, rfl, h.run, h.table, rfl, hreq, verdict, rfl, rfl⟩
    refine ⟨_, hafter w (holds hasked), Or.inr ⟨g.obj, some g.cap, hres, fun hp => ?_⟩⟩
    have hspec := grantSpec verdict
    have hfound := objectFind_sound (k := s.kernelAt x.caller) h.table.odd h.table.shaped hspec.found
    exact ⟨acts, x, [], s, t.request addr access, rfl, h.run, rfl, hreq, Or.inl rfl, hfound.1,
      hfound.2, hspec.capable hp⟩

end Guard

/-! ### What the functions leave -/

section Effects
variable [DecidableEq O] {pageSize : ℕ} {sys sys' : System O}

omit [DecidableEq O] in
/-- `object_delete` takes an object with the base address out. -/
theorem objectDelete_effect (hk : sys.kernel.TableOk) {addr : ℕ} {b : Bool}
    (h : objectDelete pageSize sys addr = some (sys', b)) :
    sys'.kernel.TableOk ∧ sys'.kernel.obj = sys.kernel.obj ∧
      ∀ o, (sys.kernel.obj o).base ≠ addr →
        (o ∈ sys'.kernel.objtable.toList ↔ o ∈ sys.kernel.objtable.toList) := by
  unfold objectDelete at h
  dsimp only at h
  have hout := btDel_outcome hk.odd hk.shaped addr
  generalize btDel sys.kernel.conf sys.kernel.objtable addr = res at hout h
  cases hout with
  | notFound absent =>
    obtain ⟨rfl, -⟩ := Prod.mk.inj (Option.some.inj h)
    exact ⟨hk, rfl, fun _ _ => Iff.rfl⟩
  | panicked => cases h
  | deleted t l₁ l₂ o shaped key old new =>
    obtain ⟨rfl, -⟩ := Prod.mk.inj (Option.some.inj h)
    refine ⟨⟨hk.odd, shaped⟩, rfl, fun o' ho' => ?_⟩
    have hne : o' ≠ o := by
      rintro rfl
      exact ho' key
    dsimp only
    rw [new, old]
    simp [hne]

/-- `object_resize` changes the record of the object. -/
theorem objectResize_effect (hk : sys.kernel.TableOk) {o : O} {newSize : ℕ} {b : Bool}
    (h : objectResize pageSize sys o newSize = some (sys', b)) :
    sys'.kernel.TableOk ∧ sys'.kernel.objtable = sys.kernel.objtable ∧
      ∀ o', o' ≠ o → sys'.kernel.obj o' = sys.kernel.obj o' := by
  rcases objectResize_kernel h with heq | ⟨-, heq⟩
  · rw [heq]
    exact ⟨hk, rfl, fun _ _ => rfl⟩
  · rw [heq]
    exact ⟨hk.setObj o _, rfl, fun o' ho' => Kernel.setObj_of_ne _ ho' _⟩

/-- `object_create` writes to the memory that it is given, and loses no object of the table unless
there is no page for the new one. -/
theorem objectCreate_effect (hk : sys.kernel.TableOk) (length passwd : ℕ)
    (mem : Option (O × ObjInfo)) :
    (objectCreate pageSize sys length passwd mem).1.kernel.TableOk ∧
      ∀ o, (∀ o' junk, mem = some (o', junk) → o ≠ o' ∧
          let k := sys.kernel.setObj o'
            (objectInit junk (kmallocObj pageSize sys.free length).1 length passwd)
          (btIns k.conf k.objtable o').1 ≠ .allocFail) →
        (objectCreate pageSize sys length passwd mem).1.kernel.obj o = sys.kernel.obj o ∧
          (o ∈ (objectCreate pageSize sys length passwd mem).1.kernel.objtable.toList ↔
            o ∈ sys.kernel.objtable.toList) := by
  rcases objectCreate_kernel sys length passwd mem with heq | heq
  · rw [heq]
    exact ⟨hk, fun _ _ => ⟨rfl, Iff.rfl⟩⟩
  rw [heq]
  generalize (kmallocObj pageSize sys.free length).1 = addr
  refine ⟨(objectAdd_kept hk mem addr length passwd).1, fun o ho => ?_⟩
  cases mem with
  | none => exact ⟨rfl, Iff.rfl⟩
  | some r =>
    obtain ⟨o', junk⟩ := r
    obtain ⟨hne, hpages⟩ := ho o' junk rfl
    rw [objectAdd_some]
    have hk' := hk.setObj o' (objectInit junk addr length passwd)
    have hobj := Kernel.setObj_of_ne sys.kernel hne (objectInit junk addr length passwd)
    have htable : (sys.kernel.setObj o' (objectInit junk addr length passwd)).objtable =
      sys.kernel.objtable := rfl
    generalize sys.kernel.setObj o' (objectInit junk addr length passwd) = k at *
    dsimp only at hpages ⊢
    refine ⟨hobj, ?_⟩
    cases btIns_outcome hk'.odd hk'.shaped o' with
    | refused hret tree => rw [tree, htable]
    | failed hret => exact absurd hret hpages
    | inserted l₁ l₂ hret shaped old new =>
      rw [new, ← htable, old]
      simp [hne]

end Effects

/-! ### Calls -/

section Steps
variable [DecidableEq O] [DecidableEq ι] {pageSize fuel : ℕ} {s₀ s : Store O ι}
  {acts : List (SysAct O ι)} {x : SysAct O ι}

/-- What a call may do to an object. -/
def Accounted (pageSize fuel : ℕ) (s₀ s : Store O ι) (acts : List (SysAct O ι)) (x : SysAct O ι)
    (s' : Store O ι) (o : O) : Prop :=
  s.Same s' o ∨ x.call.Makes pageSize s o ∨
    ∃ r p, x.call.needs = some r ∧
      Entitled pageSize fuel s₀ (acts ++ [x]) x.caller.i r p ∧
      (p = o ∨ x.call.IsDelete ∧
        (s.host.sys.kernel.obj p).base = (s.host.sys.kernel.obj o).base)

/-- What there is after a call. -/
structure Stepped (pageSize fuel : ℕ) (s₀ s : Store O ι) (acts : List (SysAct O ι)) (x : SysAct O ι)
    (s' : Store O ι) : Prop where
  table : s'.host.sys.kernel.TableOk
  caches : ∀ i, (s'.host.vcache i).Holds (Asked pageSize fuel s₀ (acts ++ [x]) i)
  accounted : ∀ o, Accounted pageSize fuel s₀ s acts x s' o

theorem Within.same {s₁ : Store O ι} (hw : Within pageSize fuel s₀ s acts x s₁) (o : O) :
    s.Same s₁ o := by
  refine ⟨?_, congrFun hw.sem o, ?_⟩
  · rw [hw.sys]
  · rw [hw.sys]

/-- A call that has been refused. -/
theorem Within.stepped {s₁ : Store O ι} (hw : Within pageSize fuel s₀ s acts x s₁)
    (h : Mediated pageSize fuel s₀ acts s) : Stepped pageSize fuel s₀ s acts x s₁ := by
  refine ⟨?_, hw.caches, fun o => Or.inl (hw.same o)⟩
  rw [hw.sys]
  exact h.table

/-- A handler that is handed `o` and changes nothing else. -/
structure GoesOn (x : SysAct O ι) (s s' : Store O ι) (o : O) : Prop where
  table : s'.host.sys.kernel.TableOk
  vcache : s'.host.vcache = s.host.vcache
  same : ∀ o', s.Same s' o' ∨ o = o' ∨ x.call.IsDelete ∧
    (s.host.sys.kernel.obj o).base = (s.host.sys.kernel.obj o').base

/-- **What a handler does with an object that it is handed is accounted for.** -/
theorem GoesOn.stepped {s₁ s' : Store O ι} (hw : Within pageSize fuel s₀ s acts x s₁) {o : O}
    (hh : GoesOn x s₁ s' o) {r : Request} (hneeds : x.call.needs = some r)
    (he : Entitled pageSize fuel s₀ (acts ++ [x]) x.caller.i r o) :
    Stepped pageSize fuel s₀ s acts x s' := by
  refine ⟨hh.table, fun i => ?_, fun o' => ?_⟩
  · rw [hh.vcache]
    exact hw.caches i
  · have hsame := hw.same o'
    rcases hh.same o' with h | h
    · exact Or.inl ⟨h.obj.trans hsame.obj, h.sem.trans hsame.sem, h.mem.trans hsame.mem⟩
    · refine Or.inr (Or.inr ⟨r, o, hneeds, he, ?_⟩)
      rwa [hw.sys] at h

/-- The calls that validate one address and go on with the object. -/
theorem guard_stepped (h : Mediated pageSize fuel s₀ acts s) {s₁ : Store O ι}
    (hw : Within pageSize fuel s₀ s acts x s₁) {addr : ℕ} {access : Access} {t : Clock}
    (hreq : t.request addr access ∈ x.call.requests)
    (hneeds : x.call.needs = some (t.request addr access)) (hp : ¬ access.IsPdx)
    {refused : SysReply} {f : Store O ι → O → Option CapPtr → Option (Store O ι × SysReply)}
    (hf : ∀ s₂ o rcap res, s₂.host.sys.kernel.TableOk → f s₂ o rcap = some res →
      GoesOn x s₂ res.1 o) {res : Store O ι × SysReply}
    (hres : s₁.guard x.caller addr access t refused f = some res) :
    Stepped pageSize fuel s₀ s acts x res.1 := by
  obtain ⟨s₂, hw₂, rfl | ⟨o, rcap, hfres, he⟩⟩ := guard_entitled h hw hreq hres
  · exact hw₂.stepped h
  · have htable : s₂.host.sys.kernel.TableOk := by
      rw [hw₂.sys]
      exact h.table
    exact (hf s₂ o rcap res htable hfres).stepped hw₂ hneeds (he hp)

omit [DecidableEq ι] in
theorem goesOn_setObj {s₂ : Store O ι} (htable : s₂.host.sys.kernel.TableOk) (x : SysAct O ι) (o : O)
    (obj : Obj) : GoesOn x s₂ (s₂.setObj o obj) o := by
  refine ⟨htable.setObj o obj, rfl, fun o' => ?_⟩
  by_cases ho : o = o'
  · exact Or.inr (Or.inl ho)
  · exact Or.inl ⟨Kernel.setObj_of_ne _ (Ne.symm ho) obj, rfl, Iff.rfl⟩

omit [DecidableEq ι] in
theorem goesOn_setSem {s₂ : Store O ι} (htable : s₂.host.sys.kernel.TableOk) (x : SysAct O ι) (o : O)
    (b : SemBlock) : GoesOn x s₂ (s₂.setSem o b) o := by
  refine ⟨htable, rfl, fun o' => ?_⟩
  by_cases ho : o = o'
  · exact Or.inr (Or.inl ho)
  · exact Or.inl ⟨rfl, Function.update_of_ne (Ne.symm ho) _ _, Iff.rfl⟩

/-- A new object. -/
theorem createObject_stepped (h : Mediated pageSize fuel s₀ acts s) {s₁ : Store O ι}
    (hw : Within pageSize fuel s₀ s acts x s₁) {info : Option (ℕ × Clock)} {size passwd : ℕ}
    {mem : Option (O × ObjInfo)} (hcall : x.call = .objectCreate info size passwd mem) :
    Stepped pageSize fuel s₀ s acts x (createObject pageSize s₁ size passwd mem).1 := by
  have htable : s₁.host.sys.kernel.TableOk := by
    rw [hw.sys]
    exact h.table
  have heffect : (objectCreate pageSize s₁.host.sys size passwd mem).1.kernel.TableOk ∧ _ :=
    objectCreate_effect htable size passwd mem
  obtain ⟨htable', hobjs⟩ := heffect
  refine ⟨htable', hw.caches, fun o => ?_⟩
  by_cases hmakes : x.call.Makes pageSize s o
  · exact Or.inr (Or.inl hmakes)
  · refine Or.inl ?_
    have hno : ∀ o' junk, mem = some (o', junk) → o ≠ o' ∧
        let k := s₁.host.sys.kernel.setObj o'
          (objectInit junk (kmallocObj pageSize s₁.host.sys.free size).1 size passwd)
        (btIns k.conf k.objtable o').1 ≠ .allocFail := by
      intro o' junk hmem
      rw [hw.sys]
      refine ⟨?_, fun hfail => ?_⟩
      · rintro rfl
        refine hmakes ?_
        rw [hcall]
        exact ⟨o, junk, hmem, Or.inl rfl⟩
      · refine hmakes ?_
        rw [hcall]
        exact ⟨o', junk, hmem, Or.inr hfail⟩
    obtain ⟨hobj, hmem⟩ := hobjs o hno
    have hsame := hw.same o
    refine ⟨hobj.trans hsame.obj, ?_, hmem.trans hsame.mem⟩
    rw [← hsame.sem]
    unfold createObject
    dsimp only
    split_ifs
    · rfl
    · cases mem with
      | none => rfl
      | some r => exact Function.update_of_ne (hno r.1 r.2 rfl).1 _ _

/-- **One call**: what it may change is accounted for. -/
theorem sysStep_mediated (h : Mediated pageSize fuel s₀ acts s) {res : Store O ι × SysReply}
    (hres : sysReply pageSize fuel s x = some res) : Stepped pageSize fuel s₀ s acts x res.1 := by
  have hw := h.within x
  obtain ⟨c, call⟩ := x
  cases call with
  | objectCreate info size passwd mem =>
    unfold sysReply sysObjectCreate at hres
    cases info with
    | none =>
      obtain rfl := Option.some.inj hres
      exact createObject_stepped h hw rfl
    | some info =>
      obtain ⟨s₁, hw₁, rfl | ⟨o, rcap, hfres, -⟩⟩ :=
        guard_entitled h hw List.mem_cons_self hres
      · exact hw₁.stepped h
      · split_ifs at hfres
        · obtain rfl := Option.some.inj hfres
          exact hw₁.stepped h
        · obtain rfl := Option.some.inj hfres
          exact createObject_stepped h hw₁ rfl
  | objectDelete addr t =>
    unfold sysReply sysObjectDelete at hres
    refine guard_stepped h hw List.mem_cons_self rfl (by decide) (fun s₂ o rcap r htable hf => ?_) hres
    obtain ⟨r, hr, rfl⟩ := Option.map_eq_some_iff.mp hf
    obtain ⟨htable', hobj, hmem⟩ := objectDelete_effect htable hr
    refine ⟨htable', rfl, fun o' => ?_⟩
    by_cases hbase : (s₂.host.sys.kernel.obj o).base = (s₂.host.sys.kernel.obj o').base
    · exact Or.inr (Or.inr ⟨trivial, hbase⟩)
    · exact Or.inl ⟨congrFun hobj o', rfl, hmem o' (Ne.symm hbase)⟩
  | objectResize addr newSize t =>
    unfold sysReply sysObjectResize at hres
    refine guard_stepped h hw List.mem_cons_self rfl (by decide) (fun s₂ o rcap r htable hf => ?_) hres
    obtain ⟨r, hr, rfl⟩ := Option.map_eq_some_iff.mp hf
    obtain ⟨htable', hmem, hobj⟩ := objectResize_effect htable hr
    refine ⟨htable', rfl, fun o' => ?_⟩
    by_cases ho : o = o'
    · exact Or.inr (Or.inl ho)
    · refine Or.inl ⟨hobj o' (Ne.symm ho), rfl, ?_⟩
      dsimp only [Store.withSys]
      rw [hmem]
  | objectPasswd addr passwd mode t =>
    unfold sysReply sysObjectPasswd at hres
    refine guard_stepped h hw List.mem_cons_self rfl (by decide) (fun s₂ o rcap r htable hf => ?_) hres
    obtain rfl := Option.some.inj hf
    exact goesOn_setObj htable _ o _
  | objectPdx a =>
    unfold sysReply sysObjectPdx at hres
    obtain ⟨s₁, hw₁, rfl | ⟨o₁, rcap₁, hres₁, -⟩⟩ := guard_entitled h hw List.mem_cons_self hres
    · exact hw₁.stepped h
    dsimp only at hres₁
    split_ifs at hres₁
    · obtain rfl := Option.some.inj hres₁
      exact hw₁.stepped h
    · obtain rfl := Option.some.inj hres₁
      exact hw₁.stepped h
    obtain ⟨s₂, hw₂, rfl | ⟨o₂, rcap₂, hres₂, -⟩⟩ :=
      guard_entitled h hw₁ (List.mem_cons_of_mem _ List.mem_cons_self) hres₁
    · exact hw₂.stepped h
    cases rcap₂ with
    | none => cases hres₂
    | some clist =>
      dsimp only at hres₂
      split_ifs at hres₂
      · obtain rfl := Option.some.inj hres₂
        exact hw₂.stepped h
      refine guard_stepped h hw₂ (List.mem_cons_of_mem _ (List.mem_cons_of_mem _ List.mem_cons_self))
        rfl (by decide) (fun s₃ o rcap r htable hf => ?_) hres₂
      obtain ⟨r, -, rfl⟩ := Option.map_eq_some_iff.mp hf
      exact goesOn_setObj htable _ o _
  | semCreate addr value block t =>
    unfold sysReply sysSemCreate at hres
    refine guard_stepped h hw List.mem_cons_self rfl (by decide) (fun s₂ o rcap r htable hf => ?_) hres
    cases block with
    | none =>
      obtain rfl := Option.some.inj hf
      exact goesOn_setSem htable _ o _
    | some junk =>
      obtain rfl := Option.some.inj hf
      exact goesOn_setSem htable _ o _
  | semDelete addr t =>
    unfold sysReply sysSemDelete at hres
    refine guard_stepped h hw List.mem_cons_self rfl (by decide) (fun s₂ o rcap r htable hf => ?_) hres
    obtain ⟨r, -, rfl⟩ := Option.map_eq_some_iff.mp hf
    exact goesOn_setSem htable _ o _
  | semWait addr thread item t =>
    unfold sysReply sysSemWait at hres
    refine guard_stepped h hw List.mem_cons_self rfl (by decide) (fun s₂ o rcap r htable hf => ?_) hres
    obtain ⟨r, -, rfl⟩ := Option.map_eq_some_iff.mp hf
    exact goesOn_setSem htable _ o _
  | semSignal addr sent t =>
    unfold sysReply sysSemSignal at hres
    refine guard_stepped h hw List.mem_cons_self rfl (by decide) (fun s₂ o rcap r htable hf => ?_) hres
    obtain rfl := Option.some.inj hf
    exact goesOn_setSem htable _ o _
  | lookup addr minrights t =>
    unfold sysReply sysLookup at hres
    obtain ⟨s₁, hw₁, rfl | ⟨o, rcap, hfres, -⟩⟩ := guard_entitled h hw List.mem_cons_self hres
    · exact hw₁.stepped h
    · obtain rfl := Option.some.inj hfres
      exact hw₁.stepped h
  | apdFlush =>
    obtain rfl := Option.some.inj hres
    refine ⟨h.table, fun i => ?_, fun o => Or.inl ⟨rfl, rfl, Iff.rfl⟩⟩
    change (Function.update s.host.vcache c.i (vcacheFlush (s.host.vcache c.i)) i).Holds _
    by_cases hi : i = c.i
    · rw [hi, Function.update_self]
      exact Vcache.Holds.flush _
    · rw [Function.update_of_ne hi]
      exact hw.caches i

end Steps

/-! ### Runs -/

section Runs
variable [DecidableEq O] [DecidableEq ι] {pageSize fuel : ℕ} {s₀ s : Store O ι}
  {acts : List (SysAct O ι)} {x : SysAct O ι}

/-- **What the cache of an APD remembers, its own calls have asked for.** -/
theorem mediated_run (htable : s₀.host.sys.kernel.TableOk)
    (hcaches : ∀ i, s₀.host.vcache i = vcacheNew)
    (hrun : run (sysStep pageSize fuel) s₀ acts = some s) : Mediated pageSize fuel s₀ acts s := by
  refine run_induction (C := Mediated pageSize fuel s₀) ⟨rfl, htable, fun i => ?_⟩
    (fun acts s x s' _ h hstep => ?_) acts s hrun
  · rw [hcaches i]
    exact holds_vcacheNew
  · obtain ⟨res, hres, rfl⟩ := Option.map_eq_some_iff.mp hstep
    have hstepped := sysStep_mediated h hres
    refine ⟨?_, hstepped.table, hstepped.caches⟩
    rw [run_concat, h.run]
    exact hstep

end Runs

/-- The object of `sharedKernel`, which has no semaphores. -/
def sharedStore : Store ℕ Unit := ⟨sharedHost, fun _ => ⟨clearSem, 0⟩⟩

/-- A look at the object, which the second password allows, past the first one. -/
def lookAt : SysAct ℕ Unit :=
  ⟨⟨(), sharedApd, sharedKernel.clist⟩, .lookup 0x2000 mRead ⟨5, 5, 5⟩⟩

/-- A semaphore in it, a second later. -/
def makeSem : SysAct ℕ Unit :=
  ⟨⟨(), sharedApd, sharedKernel.clist⟩, .semCreate 0x2000 1 (some clearJunk) ⟨6, 6, 6⟩⟩

end Mungi
