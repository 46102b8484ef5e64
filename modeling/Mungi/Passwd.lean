import Mungi.Validation

/-!
# Passwords of an object

The password table of an object has a place for each of `O_MAX_CAPS` passwords
with their rights; a place without rights is free (`object_passwd`).  A password
other than 0 is in the table once at most, so setting its rights to nothing revokes
it, and what the validation caches keep of it wears off.

## Main definitions

* `objectPasswd` — `object_passwd`.
* `Obj.PasswdOnce`, `Obj.Revoked` — a password is in one place, or without rights.

## Main results

* `objectPasswd_outcome` — what `object_passwd` does.
* `passwd_revoked` — **revocation takes effect once the caches have timed out.**
-/

namespace Mungi

open SearchLoop Runs

variable {O : Type}

/-- `O_MAX_CAPS` -/
def oMaxCaps : ℕ := 128

/-! ### The code -/

/-- The body of the loop of `object_passwd`, whose state is `empty`: it is left at the
place of the password. -/
def passwdSlotStep (info : ObjInfo) (passwd : ℕ) (i : ℤ) (empty : ℤ) : ℤ × Option ℤ :=
  if empty = -1 ∧ info.rights i = 0 then (i, none)
  else if info.passwd i = passwd then (empty, some i)
  else (empty, none)

/-- `object_passwd`: whether it succeeds, and the object. -/
def objectPasswd (obj : Obj) (passwd : ℕ) (rights : Access) : Bool × Obj :=
  let rights := rights &&& ~~~mPdx
  match searchUp (passwdSlotStep obj.info passwd) 0 oMaxCaps (-1) with
  | (_, some i) =>
    (true, { obj with
      info := { obj.info with rights := Function.update obj.info.rights i rights } })
  | (empty, none) =>
    if empty = -1 then (false, obj)
    else
      (true, { obj with
        info :=
          { obj.info with
            nCaps := if empty ≥ obj.info.nCaps then (empty + 1).toNat else obj.info.nCaps
            passwd := Function.update obj.info.passwd empty passwd
            rights := Function.update obj.info.rights empty rights } })

/-! ### What it does -/

/-- A place in the password table. -/
def PasswdSlot (i : ℤ) : Prop := 0 ≤ i ∧ i < oMaxCaps

/-- The first free place. -/
structure Obj.FirstFree (obj : Obj) (i : ℤ) : Prop where
  slot : PasswdSlot i
  rights : obj.info.rights i = 0
  first : ∀ j, 0 ≤ j → j < i → obj.info.rights j ≠ 0

/-- What `object_passwd` does: it changes the rights in a place that holds the password,
or stores the password in the first free place when no other place holds it, or fails when
none does and no place is free. -/
inductive PasswdOutcome (obj : Obj) (passwd : ℕ) (rights : Access) : Bool × Obj → Prop where
  | changed (i : ℤ) (slot : PasswdSlot i) (eq : obj.info.passwd i = passwd)
      (busy : ¬ obj.FirstFree i)
      (before : ∀ j, 0 ≤ j → j < i → ¬ obj.FirstFree j → obj.info.passwd j ≠ passwd) :
      PasswdOutcome obj passwd rights (true, { obj with
        info := { obj.info with rights := Function.update obj.info.rights i rights } })
  | stored (i : ℤ) (free : obj.FirstFree i)
      (other : ∀ j, PasswdSlot j → j ≠ i → obj.info.passwd j ≠ passwd) :
      PasswdOutcome obj passwd rights (true, { obj with
        info :=
          { obj.info with
            nCaps := if i ≥ obj.info.nCaps then (i + 1).toNat else obj.info.nCaps
            passwd := Function.update obj.info.passwd i passwd
            rights := Function.update obj.info.rights i rights } })
  | full (absent : ∀ j, PasswdSlot j → obj.info.passwd j ≠ passwd) :
      PasswdOutcome obj passwd rights (false, obj)

theorem Obj.FirstFree.unique {obj : Obj} {i j : ℤ} (hi : obj.FirstFree i)
    (hj : obj.FirstFree j) : i = j := by
  rcases lt_trichotomy i j with h | h | h
  · exact absurd hi.rights (hj.first i hi.slot.1 h)
  · exact h
  · exact absurd hj.rights (hi.first j hj.slot.1 h)

/-- Before place `i`, only the first free place, `empty`, may hold the password. -/
def PasswdScan (obj : Obj) (passwd : ℕ) (i empty : ℤ) : Prop :=
  (empty = -1 ∧ (∀ j, 0 ≤ j → j < i → obj.info.rights j ≠ 0) ∨
    empty < i ∧ obj.FirstFree empty) ∧
    ∀ j, 0 ≤ j → j < i → j ≠ empty → obj.info.passwd j ≠ passwd

/-- **`object_passwd`**, on a table of any contents. -/
theorem objectPasswd_outcome (obj : Obj) (passwd : ℕ) (rights : Access) :
    PasswdOutcome obj passwd (rights &&& ~~~mPdx) (objectPasswd obj passwd rights) := by
  unfold objectPasswd
  have hrule := searchUp_rule (I := PasswdScan obj passwd)
    (f := passwdSlotStep obj.info passwd) (n := oMaxCaps)
    (show PasswdScan obj passwd 0 (-1) from
      ⟨Or.inl ⟨rfl, fun j h₁ h₂ => by omega⟩, fun j h₁ h₂ => by omega⟩) ?_
  · rcases hrule with ⟨i, empty, b, h₁, h₂, ⟨hempty, hscan⟩, hb, heq⟩ |
      ⟨empty, ⟨hempty, hscan⟩, heq⟩
    · unfold passwdSlotStep at hb
      split_ifs at hb with hfree hp
      obtain rfl := Option.some.inj hb
      rw [heq]
      refine .changed i ⟨h₁, by rwa [Int.zero_add] at h₂⟩ hp (fun hfirst => ?_)
        fun j hj₁ hj₂ hj => ?_
      · -- the first free place is passed by when it is met
        rcases hempty with ⟨hnone, -⟩ | ⟨hlt, hfirst'⟩
        · exact hfree ⟨hnone, hfirst.rights⟩
        · exact absurd (hfirst.unique hfirst') (by omega)
      · refine hscan j hj₁ hj₂ ?_
        rintro rfl
        rcases hempty with ⟨hnone, -⟩ | ⟨-, hfirst⟩
        · omega
        · exact hj hfirst
    · rw [Int.zero_add] at hempty hscan
      rw [heq]
      dsimp only
      by_cases hnone : empty = -1
      · rw [if_pos hnone]
        exact .full fun j hj => hscan j hj.1 hj.2 (by have := hj.1; omega)
      · rw [if_neg hnone]
        rcases hempty with ⟨h, -⟩ | ⟨-, hfirst⟩
        · exact absurd h hnone
        · exact .stored empty hfirst fun j hj => hscan j hj.1 hj.2
  · rintro i empty h₁ h₂ ⟨hempty, hscan⟩ hnone
    rw [Int.zero_add] at h₂
    unfold passwdSlotStep at hnone ⊢
    split_ifs at hnone ⊢ with hfree hp
    · -- the place is taken for the free one without a look at its password
      obtain ⟨he, hfree⟩ := hfree
      have hbusy : ∀ j, 0 ≤ j → j < i → obj.info.rights j ≠ 0 := by
        rcases hempty with ⟨-, hbusy⟩ | ⟨-, hfirst⟩
        · exact hbusy
        · have := hfirst.slot.1
          omega
      refine ⟨Or.inr ⟨by dsimp only; omega, ⟨h₁, h₂⟩, hfree, hbusy⟩, fun j hj₁ hj₂ hj => ?_⟩
      dsimp only at hj
      exact hscan j hj₁ (by omega) (by omega)
    · refine ⟨?_, fun j hj₁ hj₂ hj => ?_⟩
      · rcases hempty with ⟨he, hbusy⟩ | ⟨hlt, hfirst⟩
        · refine Or.inl ⟨he, fun j hj₁ hj₂ => ?_⟩
          by_cases hji : j = i
          · rw [hji]
            exact fun h => hfree ⟨he, h⟩
          · exact hbusy j hj₁ (by omega)
        · exact Or.inr ⟨by dsimp only; omega, hfirst⟩
      · by_cases hji : j = i
        · rwa [hji]
        · exact hscan j hj₁ (by omega) hj

/-! ### One place for each password -/

/-- A password is in one place at most, and the places in use are places of the table. -/
structure Obj.PasswdOnce (obj : Obj) (passwd : ℕ) : Prop where
  once : ∀ i j, PasswdSlot i → PasswdSlot j → obj.info.passwd i = passwd →
    obj.info.passwd j = passwd → i = j
  nCaps_le : obj.info.nCaps ≤ oMaxCaps

/-- A password has no rights, wherever it is. -/
structure Obj.Revoked (obj : Obj) (passwd : ℕ) : Prop where
  rights : ∀ i, PasswdSlot i → obj.info.passwd i = passwd → obj.info.rights i = 0
  nCaps_le : obj.info.nCaps ≤ oMaxCaps

/-- An object made in memory that was zero-filled. -/
theorem objectInit_passwdOnce {junk : ObjInfo} (hzero : ∀ i, junk.passwd i = 0)
    (addr length first : ℕ) {passwd : ℕ} (hp : passwd ≠ 0) :
    (objectInit junk addr length first).PasswdOnce passwd := by
  have hplace : ∀ i, (objectInit junk addr length first).info.passwd i = passwd → i = 0 := by
    intro i hi
    by_contra hne
    change Function.update junk.passwd 0 first i = passwd at hi
    rw [Function.update_of_ne hne, hzero] at hi
    exact hp hi.symm
  exact ⟨fun i j _ _ hi hj => (hplace i hi).trans (hplace j hj).symm,
    show 1 ≤ oMaxCaps by decide⟩

/-- `object_passwd` leaves the object where it is. -/
theorem objectPasswd_range (obj : Obj) (passwd : ℕ) (rights : Access) :
    (objectPasswd obj passwd rights).2.base = obj.base ∧
      (objectPasswd obj passwd rights).2.limit = obj.limit := by
  have hout := objectPasswd_outcome obj passwd rights
  generalize objectPasswd obj passwd rights = res at hout
  cases hout <;> exact ⟨rfl, rfl⟩

section Stored
variable {obj : Obj} {passwd : ℕ}

/-- Storing keeps the table within bounds. -/
theorem nCaps_stored_le (h : obj.info.nCaps ≤ oMaxCaps) {i : ℤ} (hi : PasswdSlot i) :
    (if i ≥ obj.info.nCaps then (i + 1).toNat else obj.info.nCaps) ≤ oMaxCaps := by
  obtain ⟨h₁, h₂⟩ := hi
  split_ifs <;> omega

/-- **A password stays in one place**, whatever is registered. -/
theorem Obj.PasswdOnce.objectPasswd (h : obj.PasswdOnce passwd) (passwd' : ℕ) (rights : Access) :
    (objectPasswd obj passwd' rights).2.PasswdOnce passwd := by
  have hout := objectPasswd_outcome obj passwd' rights
  generalize Mungi.objectPasswd obj passwd' rights = res at hout
  cases hout with
  | changed i slot eq busy before => exact ⟨h.once, h.nCaps_le⟩
  | full absent => exact h
  | stored i free other =>
    refine ⟨fun a b ha hb hpa hpb => ?_, nCaps_stored_le h.nCaps_le free.slot⟩
    dsimp only at hpa hpb
    by_cases hai : a = i
    · by_cases hbi : b = i
      · rw [hai, hbi]
      · -- the place `i` now holds a password that no other place holds
        rw [hai, Function.update_self] at hpa
        rw [Function.update_of_ne hbi] at hpb
        exact absurd (hpb.trans hpa.symm) (other b hb hbi)
    · by_cases hbi : b = i
      · rw [hbi, Function.update_self] at hpb
        rw [Function.update_of_ne hai] at hpa
        exact absurd (hpa.trans hpb.symm) (other a ha hai)
      · rw [Function.update_of_ne hai] at hpa
        rw [Function.update_of_ne hbi] at hpb
        exact h.once a b ha hb hpa hpb

/-- Taking all rights from a password revokes it. -/
theorem Obj.PasswdOnce.revoked (h : obj.PasswdOnce passwd) :
    (Mungi.objectPasswd obj passwd 0).2.Revoked passwd := by
  have hout := objectPasswd_outcome obj passwd 0
  rw [show (0 : Access) &&& ~~~mPdx = 0 by decide] at hout
  generalize Mungi.objectPasswd obj passwd 0 = res at hout
  cases hout with
  | changed i slot eq busy before =>
    refine ⟨fun j hj hp => ?_, h.nCaps_le⟩
    obtain rfl := h.once j i hj slot hp eq
    exact Function.update_self ..
  | full absent => exact ⟨fun j hj hp => absurd hp (absent j hj), h.nCaps_le⟩
  | stored i free other =>
    refine ⟨fun j hj hp => ?_, nCaps_stored_le h.nCaps_le free.slot⟩
    by_cases hji : j = i
    · rw [hji]
      exact Function.update_self ..
    · dsimp only at hp
      rw [Function.update_of_ne hji] at hp
      exact absurd hp (other j hj hji)

/-- A revoked password stays so until it is registered again. -/
theorem Obj.Revoked.objectPasswd (h : obj.Revoked passwd) {passwd' : ℕ} {rights : Access}
    (hno : passwd' = passwd → rights = 0) :
    (Mungi.objectPasswd obj passwd' rights).2.Revoked passwd := by
  have hrights : passwd' = passwd → rights &&& ~~~mPdx = 0 := fun hp => by
    rw [hno hp]
    decide
  have hout := objectPasswd_outcome obj passwd' rights
  generalize Mungi.objectPasswd obj passwd' rights = res at hout
  cases hout with
  | changed i slot eq busy before =>
    refine ⟨fun j hj hp => ?_, h.nCaps_le⟩
    dsimp only at hp ⊢
    by_cases hji : j = i
    · rw [hji] at hp ⊢
      rw [Function.update_self]
      exact hrights (eq.symm.trans hp)
    · rw [Function.update_of_ne hji]
      exact h.rights j hj hp
  | full absent => exact h
  | stored i free other =>
    refine ⟨fun j hj hp => ?_, nCaps_stored_le h.nCaps_le free.slot⟩
    dsimp only at hp ⊢
    by_cases hji : j = i
    · rw [hji, Function.update_self] at hp
      rw [hji, Function.update_self]
      exact hrights hp
    · rw [Function.update_of_ne hji] at hp ⊢
      exact h.rights j hj hp

/-- What a revoked password grants: nothing but the empty access. -/
theorem Obj.Revoked.rights_eq_zero (h : obj.Revoked passwd) {access : Access} {i : ℤ}
    (hi : obj.FirstDecisive passwd access i) : obj.info.rights i = 0 :=
  h.rights i ⟨hi.nonneg, lt_of_lt_of_le hi.lt (Int.ofNat_le.mpr h.nCaps_le)⟩ hi.passwd_eq

end Stored

/-! ### Revocation and the cache -/

/-- Calls of `object_passwd` on an object, and requests of an APD; the Clists of the
APD may change at any time. -/
inductive PasswdOp where
  | passwd (time passwd : ℕ) (rights : Access)
  | validate (clist : ℕ → Clist) (apd : ApdDesc) (r : Request)

/-- The clock readings of an operation. -/
def PasswdOp.times : PasswdOp → List ℕ
  | .passwd time _ _ => [time]
  | .validate _ _ r => [r.now, r.t₁, r.t₂]

/-- The memory after a call of `object_passwd` on `o`. -/
def Kernel.setPasswd [DecidableEq O] (k : Kernel O) (o : O) (passwd : ℕ) (rights : Access) :
    Kernel O :=
  k.setObj o (objectPasswd (k.obj o) passwd rights).2

/-- One operation, with `object_passwd` called on `o`: the objects, and the cache of the
APD. -/
def passwdStep [DecidableEq O] (o : O) (s : Kernel O × Vcache O CapPtr) :
    PasswdOp → Option (Kernel O × Vcache O CapPtr)
  | .passwd _ passwd rights => some (s.1.setPasswd o passwd rights, s.2)
  | .validate clist apd r => (validateStep (s.1.withClists clist) apd s.2 r).map fun v => (s.1, v)

/-- The memory `k'` has the objects of `k` in the same places. -/
structure Kernel.Alike (k k' : Kernel O) : Prop where
  btOrder : k'.btOrder = k.btOrder
  pageWord : k'.pageWord = k.pageWord
  objtable : k'.objtable = k.objtable
  base : ∀ o, (k'.obj o).base = (k.obj o).base
  limit : ∀ o, (k'.obj o).limit = (k.obj o).limit

section Alike
variable {k k' : Kernel O}

theorem Kernel.Alike.refl (k : Kernel O) : k.Alike k :=
  ⟨rfl, rfl, rfl, fun _ => rfl, fun _ => rfl⟩

theorem Kernel.Alike.withClists (h : k.Alike k') (clist : ℕ → Clist) :
    k.Alike (k'.withClists clist) :=
  ⟨h.btOrder, h.pageWord, h.objtable, h.base, h.limit⟩

theorem Kernel.Alike.setPasswd [DecidableEq O] (h : k.Alike k') (o : O) (passwd : ℕ)
    (rights : Access) : k.Alike (k'.setPasswd o passwd rights) := by
  obtain ⟨hbase, hlimit⟩ := objectPasswd_range (k'.obj o) passwd rights
  refine ⟨h.btOrder, h.pageWord, h.objtable, fun o' => ?_, fun o' => ?_⟩
  · unfold Kernel.setPasswd
    by_cases ho : o' = o
    · rw [ho, Kernel.setObj_self, hbase, h.base]
    · rw [Kernel.setObj_of_ne _ ho, h.base]
  · unfold Kernel.setPasswd
    by_cases ho : o' = o
    · rw [ho, Kernel.setObj_self, hlimit, h.limit]
    · rw [Kernel.setObj_of_ne _ ho, h.limit]

theorem Kernel.Alike.ordered (h : k.Alike k') (hk : k.Ordered) : k'.Ordered := by
  have hconf : k'.conf = k.conf := by
    unfold Kernel.conf
    rw [h.btOrder, h.pageWord, funext h.base, funext h.limit]
  obtain ⟨hodd, hwf, hbefore⟩ := hk
  rw [← hconf, ← h.objtable] at *
  exact ⟨hodd, hwf, hbefore⟩

theorem Kernel.Alike.contains (h : k.Alike k') (o : O) (addr : ℕ) :
    (k'.obj o).Contains addr ↔ (k.obj o).Contains addr := by
  unfold Obj.Contains
  rw [h.base, h.limit]

/-- Which capabilities lie in an object depends on its place only. -/
theorem candidates_congr (k : Kernel O) (apd : ApdDesc) {obj obj' : Obj}
    (h : ∀ addr, obj'.Contains addr ↔ obj.Contains addr) :
    k.candidates apd obj' = k.candidates apd obj := by
  unfold Kernel.candidates
  simp only [h]

end Alike

/-- An operation does not bring the password `passwd` of `o` back: it is not registered
with rights, and the capabilities for `o` that a request meets all carry it. -/
def Quiet (k : Kernel O) (o : O) (passwd : ℕ) : PasswdOp → Prop
  | .passwd _ passwd' rights => passwd' = passwd → rights = 0
  | .validate clist apd _ => ∀ cap ∈ (k.withClists clist).candidates apd (k.obj o),
      ((k.withClists clist).capAt cap).passwd = passwd

section Revoked
variable {k : Kernel O} {apd : ApdDesc} {o : O} {passwd addr : ℕ} {access : Access}
  {g : Grant O CapPtr}

/-- With a revoked password nothing is granted but the empty access. -/
theorem GrantSpec.access_eq_zero (hg : GrantSpec k apd addr access g)
    (hrev : (k.obj g.obj).Revoked passwd)
    (hcaps : ∀ cap ∈ k.candidates apd (k.obj g.obj), (k.capAt cap).passwd = passwd)
    (hp : ¬ access.IsPdx) : g.access = 0 := by
  obtain ⟨-, i, hi, hrights, -⟩ := hg.std hp
  rw [hcaps g.cap hg.cap] at hi
  exact hrights ▸ hrev.rights_eq_zero hi

/-- What is granted while a password of `o` is revoked leaves nothing in the cache that
grants an access to `o`. -/
theorem GrantSpec.quiet (hk : k.Ordered) (ho : o ∈ k.objtable.toList)
    (hg : GrantSpec k apd addr access g) (hrev : (k.obj o).Revoked passwd)
    (hcaps : ∀ cap ∈ k.candidates apd (k.obj o), (k.capAt cap).passwd = passwd) :
    g.access = 0 ∨ ∀ a, (k.obj o).Contains a → ¬ InRange a g.entry.base g.entry.limit := by
  by_cases hpdx : g.access.IsPdx
  · rw [Grant.entry_of_isPdx hpdx]
    exact Or.inr fun a _ hin => absurd (lt_of_le_of_lt hin.1 hin.2) (lt_irrefl _)
  · rw [Grant.entry_of_not_isPdx hpdx, hg.base, hg.limit]
    by_cases hobj : g.obj = o
    · subst hobj
      exact Or.inl (hg.access_eq_zero hrev hcaps fun h => hpdx (hg.pdx h ▸ h))
    · refine Or.inr fun a ha hin => hobj ?_
      have h₁ := hk.objectFind_iff.mpr ⟨ho, ha⟩
      have h₂ := hk.objectFind_eq_of_contains hg.found hin
      exact Option.some.inj (h₂.symm.trans h₁)

end Revoked

/-- An entry made at one of the times `times`, or before one. -/
def MadeBy (times : List ℕ) (_ : VcacheEntry) (info : VcacheInfo O CapPtr) : Prop :=
  info.obj ≠ none ∧ ∃ time ∈ times, info.timestamp ≤ time

/-- An entry that grants nothing on `o`, unless it was made by time `t`. -/
def Outdated (obj : Obj) (t : ℕ) (e : VcacheEntry) (info : VcacheInfo O CapPtr) : Prop :=
  info.obj ≠ none ∧ (info.timestamp ≤ t ∨ info.rights = 0 ∨
    ∀ a, obj.Contains a → ¬ InRange a e.base e.limit)

section Phases
variable [DecidableEq O] {k : Kernel O} {o : O} {passwd : ℕ}

/-- The state before the password is revoked. -/
structure Registered (k : Kernel O) (o : O) (passwd start : ℕ) (l : List PasswdOp)
    (s : Kernel O × Vcache O CapPtr) : Prop where
  alike : k.Alike s.1
  once : (s.1.obj o).PasswdOnce passwd
  cache : s.2.Holds (MadeBy (start :: l.flatMap PasswdOp.times))

/-- The state after the password was revoked at time `t`. -/
structure Withdrawn (k : Kernel O) (o : O) (passwd t : ℕ) (s : Kernel O × Vcache O CapPtr) :
    Prop where
  alike : k.Alike s.1
  revoked : (s.1.obj o).Revoked passwd
  cache : s.2.Holds (Outdated (k.obj o) t)

theorem setPasswd_obj (k : Kernel O) (o : O) (passwd : ℕ) (rights : Access) :
    (k.setPasswd o passwd rights).obj o = (objectPasswd (k.obj o) passwd rights).2 :=
  Function.update_self ..

theorem passwdStep_registered {start : ℕ} {l : List PasswdOp} {s : Kernel O × Vcache O CapPtr}
    (h : Registered k o passwd start l s) (op : PasswdOp) :
    ∃ s', passwdStep o s op = some s' ∧ Registered k o passwd start (l ++ [op]) s' := by
  have hcache : s.2.Holds (MadeBy (start :: (l ++ [op]).flatMap PasswdOp.times)) := by
    refine h.cache.mono ?_
    rintro e info ⟨hobj, time, htime, hle⟩
    refine ⟨hobj, time, ?_, hle⟩
    rw [List.flatMap_append, ← List.cons_append]
    exact List.mem_append_left _ htime
  cases op with
  | passwd time passwd' rights =>
    refine ⟨_, rfl, h.alike.setPasswd o passwd' rights, ?_, hcache⟩
    rw [setPasswd_obj]
    exact h.once.objectPasswd passwd' rights
  | validate clist apd r =>
    obtain ⟨res, hres, hout⟩ := doValidateObj_outcome (fun _ _ h => h.1) (s.1.withClists clist) apd
      hcache r.addr r.access r.now r.t₁ r.t₂
    refine ⟨(s.1, res.1), by rw [passwdStep, validateStep, hres]; rfl, h.alike, h.once, ?_⟩
    cases hout with
    | hit w e info o holds => exact holds
    | unknown w holds verdict => exact holds
    | denied w cap holds verdict => exact holds
    | granted w g holds verdict =>
      exact holds ⟨Option.some_ne_none _, r.t₂, by simp [PasswdOp.times], le_rfl⟩

theorem passwdStep_withdrawn (hk : k.Ordered) (ho : o ∈ k.objtable.toList) {t : ℕ}
    {s : Kernel O × Vcache O CapPtr} (h : Withdrawn k o passwd t s) {op : PasswdOp}
    (hq : Quiet k o passwd op) :
    ∃ s', passwdStep o s op = some s' ∧ Withdrawn k o passwd t s' := by
  cases op with
  | passwd time passwd' rights =>
    refine ⟨_, rfl, h.alike.setPasswd o passwd' rights, ?_, h.cache⟩
    rw [setPasswd_obj]
    exact h.revoked.objectPasswd hq
  | validate clist apd r =>
    obtain ⟨res, hres, hout⟩ := doValidateObj_outcome (fun _ _ h => h.1) (s.1.withClists clist) apd
      h.cache r.addr r.access r.now r.t₁ r.t₂
    refine ⟨(s.1, res.1), by rw [passwdStep, validateStep, hres]; rfl, h.alike, h.revoked, ?_⟩
    have halike := h.alike.withClists clist
    cases hout with
    | hit w e info o holds => exact holds
    | unknown w holds verdict => exact holds
    | denied w cap holds verdict => exact holds
    | granted w g holds verdict =>
      have hcaps : ∀ cap ∈ (s.1.withClists clist).candidates apd (s.1.obj o),
          ((s.1.withClists clist).capAt cap).passwd = passwd := by
        rw [candidates_congr _ _ (h.alike.contains o)]
        exact hq
      have hquiet := (grantSpec verdict).quiet (halike.ordered hk) (halike.objtable ▸ ho) h.revoked
        hcaps
      refine holds ⟨Option.some_ne_none _, Or.inr (hquiet.imp id fun hno a ha => hno a ?_)⟩
      exact (halike.contains o a).mpr ha

/-- **Revocation takes effect once the caches have timed out.**  The object `o` was made
in zero-filled memory; from time `t` on, when all rights are taken from the password, it
is not registered again and the Clists of the APD have no other password for `o`.  Then
a request for an address of `o` is refused if it comes later than `VCACHE_TIMEOUT` after
`t`, whatever happened before and in between. -/
theorem passwd_revoked (hk : k.Ordered) (ho : o ∈ k.objtable.toList) {junk : ObjInfo}
    {base length first : ℕ} (hobj : k.obj o = objectInit junk base length first)
    (hzero : ∀ i, junk.passwd i = 0) (hpasswd : passwd ≠ 0) {v : Vcache O CapPtr} {start : ℕ}
    (hv : v.Holds (MadeBy [start])) (before after : List PasswdOp) (t : ℕ)
    (clist : ℕ → Clist) (apd : ApdDesc) (r : Request)
    (hclock : (start :: (before ++ PasswdOp.passwd t passwd 0 :: after ++
      [PasswdOp.validate clist apd r]).flatMap PasswdOp.times).Pairwise (· ≤ ·))
    (hbound : r.now < 2 ^ 64)
    (hquiet : ∀ op ∈ after ++ [PasswdOp.validate clist apd r], Quiet k o passwd op)
    (haddr : (k.obj o).Contains r.addr) (hne : r.access ≠ 0) (hown : mOwner.Covers r.access)
    (hlate : t + vcacheTimeout < r.now) :
    ∃ s, run (passwdStep o) (k, v) (before ++ .passwd t passwd 0 :: after) = some s ∧
      answer (s.1.withClists clist) apd s.2 r = some none := by
  have hinit : Registered k o passwd start [] (k, v) :=
    ⟨.refl k, hobj ▸ objectInit_passwdOnce hzero base length first hpasswd, hv⟩
  obtain ⟨s₁, hs₁, hreg⟩ := run_total (G := fun _ => True) hinit (fun _ _ _ => trivial)
    (fun _ _ op h _ => passwdStep_registered h op) before trivial
  -- the call that revokes the password
  have hs₂ : Withdrawn k o passwd t (s₁.1.setPasswd o passwd 0, s₁.2) := by
    refine ⟨hreg.alike.setPasswd o passwd 0, ?_, hreg.cache.mono ?_⟩
    · rw [setPasswd_obj]
      exact hreg.once.revoked
    · rintro e info ⟨hi, time, htime, hle⟩
      refine ⟨hi, Or.inl (le_trans hle ?_)⟩
      rw [List.append_assoc, List.flatMap_append, ← List.cons_append] at hclock
      exact (List.pairwise_append.mp hclock).2.2 time htime t (by simp [PasswdOp.times])
  obtain ⟨s, hs, hw⟩ := run_total (C := fun _ s => Withdrawn k o passwd t s)
    (G := fun l => ∀ op ∈ l, Quiet k o passwd op) hs₂
    (fun l op h op' hop' => h op' (List.mem_append_left _ hop'))
    (fun l s op h hg => passwdStep_withdrawn hk ho h (hg op (by simp))) after
    (fun op hop => hquiet op (List.mem_append_left _ hop))
  refine ⟨s, ?_, ?_⟩
  · rw [run_append, hs₁]
    exact hs
  -- the late request
  have halike := hw.alike.withClists clist
  obtain ⟨res, hres, hout⟩ := doValidateObj_outcome (fun _ _ h => h.1) (s.1.withClists clist) apd
    hw.cache r.addr r.access r.now r.t₁ r.t₂
  have hpdx := not_isPdx_of_owner hown
  rw [answer, hres]
  cases hout with
  | unknown w holds verdict => rfl
  | denied w cap holds verdict => rfl
  | hit w e info o' holds entry matches_entry time rights obj =>
    rcases entry.2 with hold | hzero | hno
    · rw [wordSub_of_le (by omega) hbound] at time
      omega
    · exact absurd (Access.eq_zero_of_covers (hzero ▸ rights)) hne
    · unfold VcacheEntry.Matches at matches_entry
      rw [if_neg hpdx] at matches_entry
      exact absurd matches_entry (hno r.addr haddr)
  | granted w g holds verdict =>
    have hg := grantSpec verdict
    have hfind : objectFind (s.1.withClists clist) r.addr = some o :=
      (halike.ordered hk).objectFind_iff.mpr
        ⟨halike.objtable ▸ ho, (halike.contains o r.addr).mpr haddr⟩
    obtain rfl := Option.some.inj (hfind.symm.trans hg.found)
    have hcaps : ∀ cap ∈ (s.1.withClists clist).candidates apd (s.1.obj g.obj),
        ((s.1.withClists clist).capAt cap).passwd = passwd := by
      rw [candidates_congr _ _ (hw.alike.contains g.obj)]
      exact hquiet (.validate clist apd r) (by simp)
    have hzero := hg.access_eq_zero hw.revoked hcaps hpdx
    exact absurd (Access.eq_zero_of_covers (hzero ▸ hg.covers)) hne

end Phases

/-- The object of `sharedKernel` as it is made, with its first password. -/
def freshKernel : Kernel ℕ :=
  { sharedKernel with obj := fun _ => objectInit ⟨0, 0, 0, fun _ => 0, fun _ => 0,
      sharedObj.info.pdx⟩ 0x1000 0x2000 22 }

/-- Clists with a capability for that password only. -/
def freshClist : ℕ → Clist := fun _ => ⟨'c'.toNat, 1, 1, fun _ => ⟨0x1000, 22⟩⟩

theorem freshKernel_alike : sharedKernel.Alike freshKernel :=
  ⟨rfl, rfl, rfl, fun _ => rfl, fun _ => rfl⟩

theorem passwd_revoked_freshKernel :
    ∃ s, run (passwdStep 1) (freshKernel, vcacheNew)
        ([.validate freshClist sharedApd ⟨0x2000, mRead, 5, 5, 5⟩] ++ .passwd 6 22 0 ::
          [.validate freshClist sharedApd ⟨0x2000, mRead, 50, 50, 50⟩]) = some s ∧
      answer (s.1.withClists freshClist) sharedApd s.2 ⟨0x2000, mRead, 67, 67, 67⟩ = some none :=
  passwd_revoked (freshKernel_alike.ordered sharedKernel_ordered) (List.mem_singleton_self 1) rfl
    (fun _ => rfl) (by decide) (holds_vcacheNew : Vcache.Holds (MadeBy [0]) _) _ _ 6 freshClist
    sharedApd _ (by decide) (by decide)
    (List.forall_mem_cons.mpr ⟨show ∀ cap ∈ _, _ by decide,
      List.forall_mem_cons.mpr ⟨show ∀ cap ∈ _, _ by decide, by simp⟩⟩)
    (by decide) (by decide) (by decide) (by decide)

end Mungi
