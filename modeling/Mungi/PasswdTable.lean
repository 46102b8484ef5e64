import Mathlib.Data.List.Perm.Subperm
import Mungi.Objects
import Mungi.Passwd

/-!
# The password table

The places below `n_caps` are those that validation looks at.  As long as a password
is not registered in a place behind them they hold what was registered last, each
password once; what the heap left in the others does not matter then.

## Main definitions

* `Access.verdict` — what some rights alone say about an access.
* `registered` — the rights registered last for each password.
* `Fits` — a registration that goes into the places in use or just behind them.

## Main results

* `Tabled.passwdTableStep` — one registration keeps the table in order.
* `passwd_registered` — **validation goes by what was registered last**, in runs of
  registrations that fit.
* `passwd_stale` — one that does not.
-/

namespace Mungi

open Runs

/-! ### The specification -/

/-- What some rights alone say about an access. -/
def Access.verdict (rights access : Access) : ValidationResult :=
  if rights.Forbids access then .denied
  else if rights.Covers access then .allowed
  else .unknown

/-- The rights registered last for each password; `first` is the password the object was
made with. -/
def registered (first : ℕ) (calls : List (ℕ × Access)) : ℕ → Option Access :=
  calls.foldl (fun reg call => Function.update reg call.1 (some (call.2 &&& ~~~mPdx)))
    (Function.update (fun _ => none) first (some mOwner))

theorem registered_concat (first : ℕ) (calls : List (ℕ × Access)) (passwd : ℕ) (rights : Access) :
    registered first (calls ++ [(passwd, rights)])
      = Function.update (registered first calls) passwd (some (rights &&& ~~~mPdx)) := by
  unfold registered
  rw [List.foldl_append]
  rfl

/-- Nothing is allowed by no rights but the empty access. -/
theorem Access.verdict_zero (access : Access) :
    (0 : Access).verdict access ≠ .denied ∧
      (access ≠ 0 → (0 : Access).verdict access ≠ .allowed) := by
  have hforbid : ¬ (0 : Access).Forbids access := by
    rintro ⟨-, hnot⟩
    revert hnot
    decide
  unfold Access.verdict
  rw [if_neg hforbid]
  constructor
  · split_ifs <;> simp
  · intro hne
    rw [if_neg fun hcov => hne (Access.eq_zero_of_covers hcov)]
    simp

/-! ### Registrations -/

/-- One successful call of `object_passwd`. -/
def passwdTableStep (obj : Obj) (call : ℕ × Access) : Option Obj :=
  let r := objectPasswd obj call.1 call.2
  if r.1 then some r.2 else none

/-- A place that validation looks at. -/
def Obj.InUse (obj : Obj) (i : ℤ) : Prop := 0 ≤ i ∧ i < obj.info.nCaps

/-- **The registrations that fit.**  Unless a place in use has the password, no place behind
them has it, but for the first free one and if no rights are registered; and the first free
place is not further than just behind those in use, unless some other has the password. -/
structure Fits (obj : Obj) (call : ℕ × Access) : Prop where
  behind : ∀ i, PasswdSlot i → obj.info.nCaps ≤ i → obj.info.passwd i = call.1 →
    obj.FirstFree i ∨ call.2 &&& ~~~mPdx = 0 ∨
      ∃ j, obj.InUse j ∧ ¬ obj.FirstFree j ∧ obj.info.passwd j = call.1
  next : ∀ i, obj.FirstFree i → i ≤ obj.info.nCaps ∨
    ∃ j, PasswdSlot j ∧ j ≠ i ∧ obj.info.passwd j = call.1

/-- The places in use hold what was registered. -/
structure Tabled (reg : ℕ → Option Access) (obj : Obj) : Prop where
  nCaps_le : obj.info.nCaps ≤ oMaxCaps
  sound : ∀ i, obj.InUse i → reg (obj.info.passwd i) = some (obj.info.rights i)
  complete : ∀ passwd rights, reg passwd = some rights → rights ≠ 0 →
    ∃ i, obj.InUse i ∧ obj.info.passwd i = passwd
  once : ∀ i j, obj.InUse i → obj.InUse j → obj.info.passwd i = obj.info.passwd j → i = j

section Table
variable {reg : ℕ → Option Access} {obj : Obj}

theorem Obj.InUse.slot (h : Tabled reg obj) {i : ℤ} (hi : obj.InUse i) : PasswdSlot i := by
  have hle := h.nCaps_le
  obtain ⟨h₁, h₂⟩ := hi
  exact ⟨h₁, by omega⟩

/-- The table of a new object. -/
theorem tabled_objectInit (junk : ObjInfo) (addr length first : ℕ) :
    Tabled (registered first []) (objectInit junk addr length first) := by
  have hzero : ∀ i, (objectInit junk addr length first).InUse i → i = 0 := by
    rintro i ⟨h₁, h₂⟩
    change i < 1 at h₂
    omega
  refine ⟨by change 1 ≤ oMaxCaps; decide, fun i hi => ?_, fun passwd rights hreg hne => ?_,
    fun i j hi hj _ => (hzero i hi).trans (hzero j hj).symm⟩
  · obtain rfl := hzero i hi
    simp [registered, objectInit]
  · refine ⟨0, ⟨le_rfl, by change (0 : ℤ) < 1; decide⟩, ?_⟩
    change Function.update junk.passwd 0 first 0 = passwd
    rw [Function.update_self]
    by_contra hp
    unfold registered at hreg
    rw [List.foldl_nil, Function.update_of_ne (Ne.symm hp)] at hreg
    cases hreg

/-- Other rights for the password in place `i`. -/
theorem Tabled.change (h : Tabled reg obj) {i : ℤ} (hi : obj.InUse i) (rights : Access) :
    Tabled (Function.update reg (obj.info.passwd i) (some rights)) { obj with
      info := { obj.info with rights := Function.update obj.info.rights i rights } } := by
  refine ⟨h.nCaps_le, fun j hj => ?_, fun passwd r hreg hne => ?_, h.once⟩
  · dsimp only
    by_cases hji : j = i
    · subst hji
      rw [Function.update_self, Function.update_self]
    · have hne : obj.info.passwd j ≠ obj.info.passwd i := fun hp => hji (h.once j i hj hi hp)
      rw [Function.update_of_ne hne, Function.update_of_ne hji]
      exact h.sound j hj
  · by_cases hp : passwd = obj.info.passwd i
    · exact ⟨i, hi, hp.symm⟩
    · rw [Function.update_of_ne hp] at hreg
      exact h.complete passwd r hreg hne

/-- The password goes into place `i`, which is free, or the next one. -/
theorem Tabled.store (h : Tabled reg obj) {i : ℤ} (hfree : obj.FirstFree i)
    (hnext : i ≤ obj.info.nCaps) {passwd : ℕ} (hother : ∀ j, PasswdSlot j → j ≠ i →
      obj.info.passwd j ≠ passwd) (rights : Access) :
    Tabled (Function.update reg passwd (some rights)) { obj with
      info :=
        { obj.info with
          nCaps := if i ≥ obj.info.nCaps then (i + 1).toNat else obj.info.nCaps
          passwd := Function.update obj.info.passwd i passwd
          rights := Function.update obj.info.rights i rights } } := by
  have hi := hfree.slot.1
  -- the places in use are those from before, and `i`
  have hin : ∀ j : ℤ, (0 ≤ j ∧ j < ((if i ≥ obj.info.nCaps then (i + 1).toNat
      else obj.info.nCaps : ℕ) : ℤ)) ↔ j = i ∨ j ≠ i ∧ obj.InUse j := by
    intro j
    unfold Obj.InUse
    split_ifs <;> omega
  refine ⟨nCaps_stored_le h.nCaps_le hfree.slot, fun j hj => ?_, fun p r hreg hne => ?_,
    fun a b ha hb hp => ?_⟩
  · dsimp only
    rcases (hin j).mp hj with rfl | ⟨hji, hj⟩
    · rw [Function.update_self, Function.update_self, Function.update_self]
    · have hp := hother j (hj.slot h) hji
      rw [Function.update_of_ne hji, Function.update_of_ne hji, Function.update_of_ne hp]
      exact h.sound j hj
  · dsimp only
    by_cases hp : p = passwd
    · refine ⟨i, (hin i).mpr (Or.inl rfl), ?_⟩
      rw [Function.update_self, hp]
    · rw [Function.update_of_ne hp] at hreg
      obtain ⟨j, hj, hjp⟩ := h.complete p r hreg hne
      have hji : j ≠ i := by
        -- place `i` has no rights
        rintro rfl
        have hr := h.sound j hj
        rw [hjp, hreg, hfree.rights] at hr
        exact hne (Option.some.inj hr)
      refine ⟨j, (hin j).mpr (Or.inr ⟨hji, hj⟩), ?_⟩
      rw [Function.update_of_ne hji, hjp]
  · dsimp only at hp
    rcases (hin a).mp ha with rfl | ⟨hai, ha⟩ <;> rcases (hin b).mp hb with hbi | ⟨hbi, hb⟩
    · exact hbi.symm
    · rw [Function.update_self, Function.update_of_ne hbi] at hp
      exact absurd hp.symm (hother b (hb.slot h) hbi)
    · rw [hbi, Function.update_self, Function.update_of_ne hai] at hp
      exact absurd hp (hother a (ha.slot h) hai)
    · rw [Function.update_of_ne hai, Function.update_of_ne hbi] at hp
      exact h.once a b ha hb hp

/-- What lies behind the places in use does not count. -/
theorem Tabled.withdraw (h : Tabled reg obj) {i : ℤ} (hi : obj.info.nCaps ≤ i) {passwd : ℕ}
    (hno : ∀ j, obj.InUse j → obj.info.passwd j = passwd → obj.info.rights j = 0) :
    Tabled (Function.update reg passwd (some 0)) { obj with
      info := { obj.info with rights := Function.update obj.info.rights i 0 } } := by
  refine ⟨h.nCaps_le, fun j hj => ?_, fun p r hreg hne => ?_, h.once⟩
  · have hji : j ≠ i := by
      rintro rfl
      exact absurd hj.2 (not_lt.mpr hi)
    dsimp only
    rw [Function.update_of_ne hji]
    by_cases hp : obj.info.passwd j = passwd
    · rw [hp, Function.update_self, hno j hj hp]
    · rw [Function.update_of_ne hp]
      exact h.sound j hj
  · by_cases hp : p = passwd
    · rw [hp, Function.update_self] at hreg
      exact absurd (Option.some.inj hreg).symm hne
    · rw [Function.update_of_ne hp] at hreg
      exact h.complete p r hreg hne

/-- **One registration keeps the table in order.** -/
theorem Tabled.passwdTableStep (h : Tabled reg obj) {passwd : ℕ} {rights : Access}
    (hfits : Fits obj (passwd, rights)) {obj' : Obj}
    (hstep : passwdTableStep obj (passwd, rights) = some obj') :
    Tabled (Function.update reg passwd (some (rights &&& ~~~mPdx))) obj' := by
  have hout := objectPasswd_outcome obj passwd rights
  unfold Mungi.passwdTableStep at hstep
  dsimp only at hstep
  generalize objectPasswd obj passwd rights = res at hout hstep
  cases hout with
  | full absent => cases hstep
  | stored i free other =>
    obtain rfl := Option.some.inj hstep
    refine h.store free ?_ other _
    rcases hfits.next i free with hle | ⟨j, hj, hji, hp⟩
    · exact hle
    · exact absurd hp (other j hj hji)
  | changed i slot eq busy before =>
    obtain rfl := Option.some.inj hstep
    subst eq
    by_cases hi : obj.InUse i
    · exact h.change hi _
    · have hge : (obj.info.nCaps : ℤ) ≤ i := by
        by_contra hlt
        exact hi ⟨slot.1, not_le.mp hlt⟩
      -- a place in use would have been found first
      have hfirst : ∀ j, obj.InUse j → ¬ obj.FirstFree j →
          obj.info.passwd j ≠ obj.info.passwd i := fun j hj =>
        before j hj.1 (lt_of_lt_of_le hj.2 hge)
      rcases hfits.behind i slot hge rfl with hfree | hzero | ⟨j, hj, hbusy, hp⟩
      · exact absurd hfree busy
      · dsimp only at hzero ⊢
        rw [hzero]
        refine h.withdraw hge fun j hj hjp => ?_
        by_contra hr
        exact hfirst j hj (fun hfree => hr hfree.rights) hjp
      · exact absurd hp (hfirst j hj hbusy)

/-! ### What validation makes of it -/

/-- A password in use is answered by its rights. -/
theorem Tabled.verdict (h : Tabled reg obj) {i : ℤ} (hi : obj.InUse i) (access : Access) :
    (doValidatePasswdStd obj (obj.info.passwd i) access).1
      = (obj.info.rights i).verdict access := by
  unfold Access.verdict
  rcases doValidatePasswdStd_spec obj (obj.info.passwd i) access with ⟨j, hj, heq⟩ | ⟨hno, heq⟩
  · obtain rfl := h.once j i ⟨hj.nonneg, hj.lt⟩ hi hj.passwd_eq
    rw [heq]
    by_cases hforbid : (obj.info.rights j).Forbids access
    · rw [if_pos hforbid, if_pos hforbid]
    · rw [if_neg hforbid, if_neg hforbid, if_pos (hj.decides.resolve_left hforbid)]
  · have hsilent : ¬ (obj.info.rights i).Decides access := fun hd =>
      hno (Obj.exists_firstDecisive hi.1 hi.2 rfl hd)
    rw [heq, if_neg fun hf => hsilent (Or.inl hf), if_neg fun hc => hsilent (Or.inr hc)]

/-- A password that is not in use is not known. -/
theorem doValidatePasswdStd_of_not_inUse {passwd : ℕ} (h : ∀ i, obj.InUse i →
    obj.info.passwd i ≠ passwd) (access : Access) :
    (doValidatePasswdStd obj passwd access).1 = .unknown := by
  rcases doValidatePasswdStd_spec obj passwd access with ⟨j, hj, -⟩ | ⟨-, heq⟩
  · exact absurd hj.passwd_eq (h j ⟨hj.nonneg, hj.lt⟩)
  · rw [heq]

/-- There are no more passwords than places. -/
theorem Tabled.card_le (h : Tabled reg obj) {l : List ℕ} (hl : l.Nodup)
    (hactive : ∀ passwd ∈ l, ∃ access, access ≠ 0 ∧
      (doValidatePasswdStd obj passwd access).1 = .allowed) : l.length ≤ oMaxCaps := by
  have hplace : ∀ passwd ∈ l, passwd ∈ (List.range oMaxCaps).map fun n : ℕ =>
      obj.info.passwd n := by
    intro passwd hp
    obtain ⟨access, -, hallowed⟩ := hactive passwd hp
    by_contra hno
    rw [doValidatePasswdStd_of_not_inUse fun i hi hpi => hno ?_] at hallowed
    · cases hallowed
    · have hle := h.nCaps_le
      obtain ⟨h₁, h₂⟩ := hi
      refine List.mem_map.mpr ⟨i.toNat, List.mem_range.mpr (by omega), ?_⟩
      rw [Int.toNat_of_nonneg h₁, hpi]
  have hlen := (List.Nodup.subperm hl hplace).length_le
  rwa [List.length_map, List.length_range] at hlen

end Table

/-! ### Runs of registrations -/

/-- **Validation goes by what was registered last**, in every run of registrations that
fit, on memory of any contents. -/
theorem passwd_registered (junk : ObjInfo) (addr length first : ℕ) {calls : List (ℕ × Access)}
    (hfits : Along passwdTableStep Fits (objectInit junk addr length first) calls) {obj : Obj}
    (hrun : run passwdTableStep (objectInit junk addr length first) calls = some obj) :
    (∀ passwd access,
      (∀ rights, registered first calls passwd = some rights → rights ≠ 0 →
        (doValidatePasswdStd obj passwd access).1 = rights.verdict access) ∧
      ((registered first calls passwd).getD 0 = 0 →
        (doValidatePasswdStd obj passwd access).1 ≠ .denied ∧
        (access ≠ 0 → (doValidatePasswdStd obj passwd access).1 ≠ .allowed))) ∧
    ∀ l : List ℕ, l.Nodup → (∀ passwd ∈ l, ∃ access, access ≠ 0 ∧
      (doValidatePasswdStd obj passwd access).1 = .allowed) → l.length ≤ oMaxCaps := by
  have htable : Tabled (registered first calls) obj := by
    refine run_induction_along (C := fun calls => Tabled (registered first calls)) ?_ calls []
      _ obj (tabled_objectInit junk addr length first) hfits hrun
    rintro l s ⟨passwd, rights⟩ s' htable hfits hstep
    rw [registered_concat]
    exact htable.passwdTableStep hfits hstep
  refine ⟨fun passwd access => ⟨fun rights hreg hne => ?_, fun hnone => ?_⟩,
    fun l hl => htable.card_le hl⟩
  · obtain ⟨i, hi, rfl⟩ := htable.complete passwd rights hreg hne
    have hrights := htable.sound i hi
    rw [hreg] at hrights
    rw [htable.verdict hi, Option.some.inj hrights]
  · by_cases hp : ∃ i, obj.InUse i ∧ obj.info.passwd i = passwd
    · obtain ⟨i, hi, rfl⟩ := hp
      rw [htable.sound i hi] at hnone
      rw [htable.verdict hi, show obj.info.rights i = 0 from hnone]
      exact Access.verdict_zero access
    · rw [doValidatePasswdStd_of_not_inUse fun i hi hpi => hp ⟨i, hi, hpi⟩]
      exact ⟨nofun, fun _ => nofun⟩

/-- Memory of an object that had a second password. -/
def secondInfo : ObjInfo :=
  { blankInfo with
    passwd := Function.update blankInfo.passwd 1 7
    rights := Function.update blankInfo.rights 1 mRead }

theorem passwd_registered_blankInfo :
    ∃ obj, run passwdTableStep (objectInit blankInfo 0x1000 0x1000 22) [(7, mRead), (22, 0)]
        = some obj ∧
      (doValidatePasswdStd obj 7 mRead).1 = mRead.verdict mRead := by
  have hfits : Along passwdTableStep Fits (objectInit blankInfo 0x1000 0x1000 22)
      [(7, mRead), (22, 0)] := by
    refine ⟨⟨fun i hi hn hp => ?_, fun i hi => Or.inl ?_⟩, ?_⟩
    · have hne : i ≠ 0 := by
        rintro rfl
        exact absurd hn (by decide)
      change Function.update blankInfo.passwd 0 22 i = 7 at hp
      rw [Function.update_of_ne hne] at hp
      cases hp
    · by_contra hlt
      exact hi.first 1 (by decide) (not_le.mp hlt) (by decide)
    rintro s' ⟨⟩
    refine ⟨⟨fun i hi hn hp => Or.inr (Or.inl (by decide)), fun i hi => Or.inl ?_⟩, ?_⟩
    · by_contra hlt
      exact hi.first 2 (by decide) (not_le.mp hlt) (by decide)
    · rintro s' -
      trivial
  refine ⟨_, rfl,
    ((passwd_registered blankInfo 0x1000 0x1000 22 hfits rfl).1 7 mRead).1 mRead ?_ ?_⟩
  · decide
  · decide

/-- The rights for 7 go into the place that the last object left it in, where validation
does not look. -/
theorem passwd_stale :
    ∃ obj, run passwdTableStep (objectInit secondInfo 0x1000 0x1000 22) [(7, mWrite)] = some obj ∧
      registered 22 [(7, mWrite)] 7 = some mWrite ∧
      (doValidatePasswdStd obj 7 mWrite).1 ≠ mWrite.verdict mWrite :=
  ⟨_, rfl, by decide, by decide⟩

end Mungi
