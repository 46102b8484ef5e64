import Mungi.Passwd
import Mungi.PdxTable

/-!
# Assertions of the validation

What `do_validate_passwd`, `vcache_add` and `check_entry` assert of the rights they meet:
a call does not mix `M_PDX` with other rights, and no negative rights are cached.  The
access word of `ApdLookup` is the caller's, and nobody looks at it before.

A failed assertion has no effect in the other modules.  Here the functions are given once
more, ended by it, and a run notes whether one has failed.

## Main definitions

* `Access.Mixed`, `Access.Cacheable` — what is asserted.
* `doValidateObjAsserting` — `do_validate_obj` with its assertions.
* `LookupState`, `lookupStep` — lookups of one APD, and what changes between them.
* `Untripped` — what a lookup has to ask for.

## Main results

* `doValidateObjAsserting_eq` — as long as they hold, the assertions change nothing.
* `apdLookup_untripped_iff` — **when no lookup of a run fails an assertion.**
* `apdLookup_trips` — one that does.
-/

namespace Mungi

open Cat SearchLoop Runs

variable {O : Type}

/-! ### The code, with its assertions -/

/-- `assert`, ending the call when it fails. -/
def asserting {α : Type} (p : Prop) [Decidable p] (x : Option α) : Option α :=
  if p then x else none

/-- Rights that mix a PDX call with others. -/
def Access.Mixed (access : Access) : Prop := access.IsPdx ∧ access &&& mOwner ≠ 0

instance (access : Access) : Decidable access.Mixed := inferInstanceAs (Decidable (_ ∧ _))

/-- What `vcache_add` asserts of the rights it is to store. -/
def Access.Cacheable (access : Access) : Prop := ¬ access.IsNot ∧ ¬ access.Mixed

instance (access : Access) : Decidable access.Cacheable := inferInstanceAs (Decidable (_ ∧ _))

/-- The assertion of `check_entry` holds, or is not reached. -/
def CheckEntryAsserts (v : Vcache O CapPtr) (i : ℤ) (addr : ℕ) (access : Access) (now : ℕ) :
    Prop :=
  (v.cacheObj i).Matches addr access → ¬ wordSub now (v.cacheInf i).timestamp > vcacheTimeout →
    ¬ (v.cacheInf i).rights.IsNot

instance (v : Vcache O CapPtr) (i : ℤ) (addr : ℕ) (access : Access) (now : ℕ) :
    Decidable (CheckEntryAsserts v i addr access now) := by
  unfold CheckEntryAsserts
  infer_instance

/-- `check_entry` -/
def checkEntryAsserting (v : Vcache O CapPtr) (i : ℤ) (addr : ℕ) (access : Access) (now : ℕ) :
    Option (Bool × Vcache O CapPtr) :=
  asserting (CheckEntryAsserts v i addr access now) (checkEntry v i addr access now)

/-- The loop of `vcache_check`. -/
def vcacheScanAsserting (addr : ℕ) (access : Access) (now : ℕ) :
    ℕ → ℤ → Vcache O CapPtr → Option (Vcache O CapPtr × Option ℤ)
  | 0, _, v => some (v, none)
  | n + 1, i, v => (checkEntryAsserting v i addr access now).bind fun r =>
      if r.1 then some (r.2, some i) else vcacheScanAsserting addr access now n (i + 1) r.2

/-- `vcache_check` -/
def vcacheCheckAsserting (v : Vcache O CapPtr) (addr : ℕ) (access : Access) (now : ℕ) :
    Option (Vcache O CapPtr × Option (VcacheInfo O CapPtr)) :=
  if addr = 0 then some (v, none)
  else
    (checkEntryAsserting v v.last addr access now).bind fun r =>
      if r.1 then some (r.2, some (r.2.cacheInf r.2.last))
      else (vcacheScanAsserting addr access now vcacheSize.toNat 0 r.2).bind fun s =>
        match s.2 with
        | some i => some ({ s.1 with last := i }, some (s.1.cacheInf i))
        | none => some (s.1, none)

/-- `vcache_add` -/
def vcacheAddAsserting (v : Vcache O CapPtr) (g : Grant O CapPtr) (t₁ t₂ : ℕ) :
    Option (Vcache O CapPtr) :=
  asserting (¬ g.access.IsNot) (asserting (¬ g.access.Mixed) (vcacheAdd v g t₁ t₂))

/-- The body of the inner loop of `do_validate_obj`; the loop is left with nothing when the
assertion of `do_validate_passwd` fails. -/
def validateCapAsserting (k : Kernel O) (obj : Obj) (addr clist : ℕ) (j : ℤ) (s : Access × ℤ) :
    (Access × ℤ) × Option (Option (ValidationResult × CapPtr)) :=
  let cap := (k.clist clist).caps j
  if cap.address < obj.base ∨ cap.address ≥ obj.limit then (s, none)
  else if s.1.Mixed then (s, some none)
  else
    let r := doValidatePasswd obj cap.passwd s.1 addr s.2
    (r.2, if r.1 = .unknown then none else some (some (r.1, ⟨clist, j⟩)))

/-- The search of the APD. -/
def validateSearchAsserting (k : Kernel O) (apd : ApdDesc) (obj : Obj) (addr : ℕ)
    (s : Access × ℤ) : (Access × ℤ) × Option (Option (ValidationResult × CapPtr)) :=
  searchUp (fun i s =>
    let clist := (apd.clist i).address
    if k.IsNotClist clist then (s, none)
    else searchUp (validateCapAsserting k obj addr clist) 0 (k.clist clist).nCaps s)
    0 apd.nApd.toNat s

/-- `do_validate_obj` after the cache has missed. -/
def validateUncachedAsserting (k : Kernel O) (apd : ApdDesc) (addr : ℕ) (access : Access)
    (pdxSlot : ℤ) : Option (Verdict O) :=
  match objectFind k addr with
  | none => some .unknown
  | some o =>
    let obj := k.obj o
    match validateSearchAsserting k apd obj addr (access, pdxSlot) with
    | (_, some none) => none
    | (s, some (some (.allowed, cap))) =>
      some (.granted
        { obj := o, base := obj.base, limit := obj.limit, access := s.1, cap,
          capAddress := (k.capAt cap).address, pdxSlot := s.2 })
    | (_, some (some (_, cap))) => some (.denied cap)
    | (_, none) => some .unknown

/-- `do_validate_obj` -/
def doValidateObjAsserting (k : Kernel O) (apd : ApdDesc) (v : Vcache O CapPtr) (addr : ℕ)
    (access : Access) (now t₁ t₂ : ℕ) : Option (Vcache O CapPtr × Option O × Option CapPtr) :=
  (vcacheCheckAsserting v addr access now).bind fun r =>
    let rcap := r.2.bind VcacheInfo.cap
    match r.2.bind VcacheInfo.obj with
    | some o => some (r.1, some o, rcap)
    | none =>
      (validateUncachedAsserting k apd addr access ((r.2.map VcacheInfo.pdxSlot).getD (-1))).bind
        fun verdict => match verdict with
        | .unknown => some (r.1, none, rcap)
        | .denied cap => some (r.1, none, some cap)
        | .granted g => (vcacheAddAsserting r.1 g t₁ t₂).map fun v => (v, some g.obj, some g.cap)

/-- What `sys_apd_lookup` returns: the capability, `NULL` when the object is not found. -/
def lookupReply (r : Vcache O CapPtr × Option O × Option CapPtr) : Option CapPtr :=
  r.2.1.bind fun _ => r.2.2

/-- `sys_apd_lookup`, as the kernel goes on after an assertion that has failed: the cache and
the reply. -/
def sysApdLookup (k : Kernel O) (apd : ApdDesc) (v : Vcache O CapPtr) (r : Request) :
    Option (Vcache O CapPtr × Option CapPtr) :=
  (doValidateObj k apd v r.addr r.access r.now r.t₁ r.t₂).map fun res => (res.1, lookupReply res)

/-- The same, ended by an assertion that fails. -/
def sysApdLookupAsserting (k : Kernel O) (apd : ApdDesc) (v : Vcache O CapPtr) (r : Request) :
    Option (Vcache O CapPtr × Option CapPtr) :=
  (doValidateObjAsserting k apd v r.addr r.access r.now r.t₁ r.t₂).map fun res =>
    (res.1, lookupReply res)

/-! ### The search -/

theorem validateCapAsserting_map (k : Kernel O) (obj : Obj) (addr : ℕ) (s : Access × ℤ)
    (clist : ℕ) (j : ℤ) :
    ((validateCapAsserting k obj addr clist j s).2.map fun b =>
        ((validateCapAsserting k obj addr clist j s).1, b))
      = if obj.Contains ((k.clist clist).caps j).address then
          if s.1.Mixed then some (s, none)
          else (k.verdictOf obj addr s ⟨clist, j⟩).map fun r => (r.1, some r.2)
        else none := by
  unfold validateCapAsserting Kernel.verdictOf
  dsimp only
  by_cases hin : obj.Contains ((k.clist clist).caps j).address
  · obtain ⟨h₁, h₂⟩ := hin
    rw [if_neg (not_or.mpr ⟨not_lt.mpr h₁, not_le.mpr h₂⟩),
      if_pos (show obj.Contains _ from ⟨h₁, h₂⟩)]
    by_cases hmix : s.1.Mixed
    · rw [if_pos hmix, if_pos hmix]
      rfl
    · rw [if_neg hmix, if_neg hmix]
      unfold Kernel.capAt
      dsimp only
      split_ifs <;> rfl
  · rw [if_neg hin, if_pos]
    · rfl
    · by_contra hno
      exact hin ⟨not_lt.mp (not_or.mp hno).1, not_le.mp (not_or.mp hno).2⟩

theorem validateCapAsserting_none {k : Kernel O} {obj : Obj} {addr clist : ℕ} {s : Access × ℤ}
    {j : ℤ} (h : (validateCapAsserting k obj addr clist j s).2 = none) :
    (validateCapAsserting k obj addr clist j s).1 = s := by
  unfold validateCapAsserting at h ⊢
  dsimp only at h ⊢
  split_ifs at h ⊢ with h₁ h₂ h₃
  · rfl
  · exact doValidatePasswd_unknown h₃

/-- An access that mixes rights fails the assertion at the first capability. -/
theorem validateSearchAsserting_eq (k : Kernel O) (apd : ApdDesc) (obj : Obj) (addr : ℕ)
    (s : Access × ℤ) : validateSearchAsserting k apd obj addr s
      = if s.1.Mixed ∧ k.candidates apd obj ≠ [] then (s, some none)
        else ((validateSearch k apd obj addr s).1,
          (validateSearch k apd obj addr s).2.map some) := by
  have hsearch : validateSearchAsserting k apd obj addr s = _ :=
    searchUp_candidates k apd obj
      (g := fun cap => if s.1.Mixed then some (s, none)
        else (k.verdictOf obj addr s cap).map fun r => (r.1, some r.2))
      (validateCapAsserting_map k obj addr s) fun _ _ => validateCapAsserting_none
  rw [hsearch, validateSearch_eq]
  by_cases hmix : s.1.Mixed
  · simp only [if_pos hmix]
    cases hcand : k.candidates apd obj with
    | nil =>
      rw [if_neg (by simp)]
      rfl
    | cons cap l =>
      rw [if_pos ⟨hmix, by simp⟩]
      rfl
  · simp only [if_neg hmix]
    rw [if_neg fun h => hmix h.1]
    induction k.candidates apd obj with
    | nil => rfl
    | cons cap l ih =>
      rw [List.findSome?_cons, List.findSome?_cons]
      cases k.verdictOf obj addr s cap with
      | none => exact ih
      | some r => rfl

theorem validateUncachedAsserting_eq {k : Kernel O} {apd : ApdDesc} {addr : ℕ} {access : Access}
    {pdxSlot : ℤ} (h : access.Mixed → ∀ o, objectFind k addr = some o →
      k.candidates apd (k.obj o) = []) :
    validateUncachedAsserting k apd addr access pdxSlot
      = some (validateUncached k apd addr access pdxSlot) := by
  unfold validateUncachedAsserting validateUncached
  cases hfind : objectFind k addr with
  | none => rfl
  | some o =>
    dsimp only
    rw [validateSearchAsserting_eq, if_neg fun ⟨hmix, hne⟩ => hne (h hmix o hfind)]
    rcases validateSearch k apd (k.obj o) addr (access, pdxSlot) with ⟨s, _ | ⟨result, cap⟩⟩
    · rfl
    · cases result <;> rfl

theorem validateUncachedAsserting_mixed {k : Kernel O} {apd : ApdDesc} {addr : ℕ}
    {access : Access} (hmix : access.Mixed) {o : O} (hfind : objectFind k addr = some o)
    (hne : k.candidates apd (k.obj o) ≠ []) (pdxSlot : ℤ) :
    validateUncachedAsserting k apd addr access pdxSlot = none := by
  unfold validateUncachedAsserting
  rw [hfind]
  dsimp only
  rw [validateSearchAsserting_eq, if_pos ⟨hmix, hne⟩]

/-! ### The assertions only end a call -/

@[simp] theorem asserting_eq_some {α : Type} {p : Prop} [Decidable p] {x : Option α} {r : α} :
    asserting p x = some r ↔ p ∧ x = some r := Option.ite_none_right_eq_some

theorem vcacheScanAsserting_eq {addr : ℕ} {access : Access} {now : ℕ} :
    ∀ {n : ℕ} {i : ℤ} {v : Vcache O CapPtr} {r : Vcache O CapPtr × Option ℤ},
      vcacheScanAsserting addr access now n i v = some r →
        vcacheScan addr access now n i v = some r := by
  intro n
  induction n with
  | zero => exact fun h => h
  | succ n ih =>
    intro i v r h
    obtain ⟨c, hc, hr⟩ := Option.bind_eq_some_iff.mp h
    rw [vcacheScan, (asserting_eq_some.mp hc).2, Option.bind_some]
    split_ifs at hr ⊢ with hb
    · exact hr
    · exact ih hr

theorem vcacheCheckAsserting_eq {v : Vcache O CapPtr} {addr : ℕ} {access : Access} {now : ℕ}
    {r : Vcache O CapPtr × Option (VcacheInfo O CapPtr)}
    (h : vcacheCheckAsserting v addr access now = some r) :
    vcacheCheck v addr access now = some r := by
  unfold vcacheCheckAsserting at h
  unfold vcacheCheck
  split_ifs at h ⊢ with h0
  · exact h
  · obtain ⟨c, hc, hr⟩ := Option.bind_eq_some_iff.mp h
    rw [(asserting_eq_some.mp hc).2, Option.bind_some]
    by_cases hb : c.1 = true
    · rwa [if_pos hb] at hr ⊢
    · rw [if_neg hb] at hr ⊢
      obtain ⟨d, hd, hr⟩ := Option.bind_eq_some_iff.mp hr
      rw [vcacheScanAsserting_eq hd]
      exact hr

/-- **As long as they hold, the assertions change nothing.** -/
theorem doValidateObjAsserting_eq {k : Kernel O} {apd : ApdDesc} {v : Vcache O CapPtr} {addr : ℕ}
    {access : Access} {now t₁ t₂ : ℕ} {r : Vcache O CapPtr × Option O × Option CapPtr}
    (h : doValidateObjAsserting k apd v addr access now t₁ t₂ = some r) :
    doValidateObj k apd v addr access now t₁ t₂ = some r := by
  obtain ⟨c, hc, hr⟩ := Option.bind_eq_some_iff.mp h
  unfold doValidateObj
  rw [vcacheCheckAsserting_eq hc, Option.bind_some]
  dsimp only at hr ⊢
  cases hobj : c.2.bind VcacheInfo.obj with
  | some o =>
    rw [hobj] at hr
    exact hr
  | none =>
    rw [hobj] at hr
    obtain ⟨verdict, hverdict, hr⟩ := Option.bind_eq_some_iff.mp hr
    have hno : access.Mixed → ∀ o, objectFind k addr = some o →
        k.candidates apd (k.obj o) = [] := by
      intro hmix o hfind
      by_contra hne
      rw [validateUncachedAsserting_mixed hmix hfind hne] at hverdict
      cases hverdict
    rw [validateUncachedAsserting_eq hno] at hverdict
    rw [Option.some.inj hverdict]
    cases verdict with
    | unknown => exact hr
    | denied cap => exact hr
    | granted g =>
      obtain ⟨w, hw, hr⟩ := Option.map_eq_some_iff.mp hr
      dsimp only
      rw [(asserting_eq_some.mp (asserting_eq_some.mp hw).2).2, ← hr]
      rfl

/-! ### A cache without negative rights -/

/-- The cache is in order, its entries know their objects, and all rights in it are such as
`vcache_add` takes. -/
structure Vcache.Kept (v : Vcache O CapPtr) : Prop where
  holds : v.Holds fun _ info => info.obj ≠ none
  rights : ∀ i, InBounds i → (v.cacheInf i).rights.Cacheable

theorem kept_vcacheNew : (vcacheNew : Vcache O CapPtr).Kept :=
  ⟨holds_vcacheNew, fun _ _ => show Access.Cacheable 0 by decide⟩

section Kept
variable {v w : Vcache O CapPtr}

theorem Vcache.Kept.cleared (h : v.Kept) (hc : Cleared v w) (hl : InBounds w.last) : w.Kept := by
  refine ⟨h.holds.cleared hc hl, ?_⟩
  rw [hc.inf]
  exact h.rights

theorem checkEntryAsserting_of_rights (hr : ∀ i, InBounds i → ¬ (v.cacheInf i).rights.IsNot)
    (i : ℤ) (addr : ℕ) (access : Access) (now : ℕ) :
    checkEntryAsserting v i addr access now = checkEntry v i addr access now := by
  unfold checkEntryAsserting asserting
  split_ifs with h
  · rfl
  · -- the assertion is not reached with an index outside the array
    have hout : ¬ InBounds i := fun hi => h fun _ _ => hr i hi
    rw [checkEntry, if_neg hout]

theorem vcacheScanAsserting_of_rights {addr : ℕ} {access : Access} {now : ℕ} :
    ∀ {n : ℕ} {i : ℤ} {v : Vcache O CapPtr}, 0 ≤ i → i + n ≤ vcacheSize →
      (∀ i, InBounds i → ¬ (v.cacheInf i).rights.IsNot) →
        vcacheScanAsserting addr access now n i v = vcacheScan addr access now n i v := by
  intro n
  induction n with
  | zero => exact fun _ _ _ => rfl
  | succ n ih =>
    intro i v h₀ hn hr
    obtain ⟨b, w, hc, -, hcl, -⟩ :=
      checkEntry_spec v (show InBounds i from ⟨h₀, by omega⟩) addr access now
    rw [vcacheScanAsserting, vcacheScan, checkEntryAsserting_of_rights hr, hc, Option.bind_some,
      Option.bind_some]
    split_ifs
    · rfl
    · apply ih (by omega) (by omega)
      rwa [hcl.inf]

/-- `check_entry` asserts nothing false of such a cache. -/
theorem Vcache.Kept.check (h : v.Kept) (addr : ℕ) (access : Access) (now : ℕ) :
    vcacheCheckAsserting v addr access now = vcacheCheck v addr access now := by
  have hr : ∀ i, InBounds i → ¬ (v.cacheInf i).rights.IsNot := fun i hi => (h.rights i hi).1
  unfold vcacheCheckAsserting vcacheCheck
  rw [checkEntryAsserting_of_rights hr]
  obtain ⟨b, w, hc, -, hcl, -⟩ := checkEntry_spec v h.holds.last addr access now
  have hscan : vcacheScanAsserting addr access now vcacheSize.toNat 0 w
      = vcacheScan addr access now vcacheSize.toNat 0 w :=
    vcacheScanAsserting_of_rights le_rfl (by decide) (hcl.inf ▸ hr)
  by_cases h0 : addr = 0
  · rw [if_pos h0, if_pos h0]
  · rw [if_neg h0, if_neg h0, hc, Option.bind_some, Option.bind_some]
    cases b with
    | true => rw [if_pos rfl, if_pos rfl]
    | false =>
      obtain ⟨w', i, hs, -⟩ := vcacheScan_spec addr h0 access now vcacheSize.toNat 0 w le_rfl
        (by decide)
      rw [hs] at hscan
      cases i <;> simp only [hscan, hs, Option.bind_some, Bool.false_eq_true, if_false]

theorem Vcache.Kept.add (h : v.Kept) (g : Grant O CapPtr) (t₁ t₂ : ℕ) :
    ∃ w, vcacheAdd v g t₁ t₂ = some w ∧ (g.access.Cacheable → w.Kept) ∧
      (vcacheAddAsserting v g t₁ t₂ = if g.access.Cacheable then some w else none) := by
  obtain ⟨slot, hslot, hadd⟩ := vcacheAdd_spec v g t₁ t₂
  refine ⟨_, hadd, fun hg => ⟨?_, fun i hi => ?_⟩, ?_⟩
  · obtain ⟨w, hw, hholds⟩ := h.holds.add g t₁ t₂ (show (g.info t₂).obj ≠ none from nofun)
    obtain rfl := Option.some.inj (hadd.symm.trans hw)
    exact hholds
  · dsimp only
    by_cases his : i = slot
    · rw [his, Function.update_self]
      exact hg
    · rw [Function.update_of_ne his]
      exact h.rights i hi
  · unfold vcacheAddAsserting asserting
    rw [hadd]
    by_cases hg : g.access.Cacheable
    · rw [if_pos hg, if_pos hg.1, if_pos hg.2]
    · rw [if_neg hg]
      split_ifs with hnot hmix
      · rfl
      · rfl
      · exact absurd ⟨hnot, hmix⟩ hg

end Kept

/-- An entry of the cache grants the access. -/
def Vcache.Answers (v : Vcache O CapPtr) (r : Request) : Prop :=
  r.addr ≠ 0 ∧ ∃ i, Hit v i r.addr r.access r.now

/-- What the check finds, and when. -/
theorem Vcache.Holds.answers {v : Vcache O CapPtr} (h : v.Holds fun _ info => info.obj ≠ none)
    (r : Request) : ∃ w hit, vcacheCheck v r.addr r.access r.now = some (w, hit) ∧
      InBounds w.last ∧ Cleared v w ∧
      (v.Answers r ∧ (∃ info o, hit = some info ∧ info.obj = some o) ∨
        ¬ v.Answers r ∧ hit = none) := by
  obtain ⟨w, hit, hc, hl, hcl, hinfo⟩ := vcacheCheck_spec h.last r.addr r.access r.now
  refine ⟨w, hit, hc, hl, hcl, ?_⟩
  cases hit with
  | some info =>
    obtain ⟨h0, i, rfl, hi⟩ := hinfo info rfl
    refine Or.inl ⟨⟨h0, i, hi⟩, v.cacheInf i, ?_⟩
    obtain ⟨o, ho⟩ : ∃ o, (v.cacheInf i).obj = some o := by
      apply Option.ne_none_iff_exists'.mp
      rcases h.entries i hi.inBounds with hempty | hobj
      · have hentry := hi.entry
        rw [hempty] at hentry
        exact absurd hentry (VcacheEntry.not_matches_empty h0 r.access)
      · exact hobj
    exact ⟨o, rfl, ho⟩
  | none =>
    refine Or.inr ⟨?_, rfl⟩
    rintro ⟨h0, i, hi⟩
    obtain ⟨w', info, hc'⟩ := hi.vcacheCheck h.last h0
    rw [hc] at hc'
    cases hc'

/-- The first verdict on a request, of the cache or of the search, is one to be stored. -/
structure Grantable (k : Kernel O) (apd : ApdDesc) (r : Request) : Prop where
  mixed : r.access.Mixed → ∀ o, objectFind k r.addr = some o → k.candidates apd (k.obj o) = []
  granted : ∀ g, validateUncached k apd r.addr r.access (-1) = .granted g → g.access.Cacheable

/-- **One lookup**: it always replies, no assertion fails just when the cache answers or the
search grants what may be cached, and then the cache is kept. -/
theorem Vcache.Kept.lookup {v : Vcache O CapPtr} (h : v.Kept) (k : Kernel O) (apd : ApdDesc)
    (r : Request) : ∃ res, doValidateObj k apd v r.addr r.access r.now r.t₁ r.t₂ = some res ∧
      ((doValidateObjAsserting k apd v r.addr r.access r.now r.t₁ r.t₂).isSome ↔
        v.Answers r ∨ Grantable k apd r) ∧
      (v.Answers r ∨ Grantable k apd r → res.1.Kept) := by
  obtain ⟨w, hit, hc, hl, hcl, hanswers⟩ := h.holds.answers r
  have hw : w.Kept := h.cleared hcl hl
  unfold doValidateObj doValidateObjAsserting
  rw [h.check, hc, Option.bind_some, Option.bind_some]
  rcases hanswers with ⟨hyes, info, o, rfl, ho⟩ | ⟨hno, rfl⟩
  · dsimp only [Option.bind_some]
    rw [ho]
    exact ⟨_, rfl, iff_of_true rfl (Or.inl hyes), fun _ => hw⟩
  · -- the cache has missed
    dsimp only [Option.bind_none, Option.map_none, Option.getD_none]
    simp only [or_iff_right hno]
    by_cases hmix : r.access.Mixed → ∀ o, objectFind k r.addr = some o →
        k.candidates apd (k.obj o) = []
    · rw [validateUncachedAsserting_eq hmix, Option.bind_some]
      cases hverdict : validateUncached k apd r.addr r.access (-1) with
      | unknown =>
        have hg : Grantable k apd r := ⟨hmix, fun g hg => by rw [hverdict] at hg; cases hg⟩
        exact ⟨_, rfl, iff_of_true rfl hg, fun _ => hw⟩
      | denied cap =>
        have hg : Grantable k apd r := ⟨hmix, fun g hg => by rw [hverdict] at hg; cases hg⟩
        exact ⟨_, rfl, iff_of_true rfl hg, fun _ => hw⟩
      | granted g =>
        obtain ⟨w', hadd, hkept, hassert⟩ := hw.add g r.t₁ r.t₂
        have hiff : Grantable k apd r ↔ g.access.Cacheable := by
          refine ⟨fun hg => hg.granted g hverdict, fun hg => ⟨hmix, fun g' hg' => ?_⟩⟩
          rw [hverdict] at hg'
          obtain rfl := Verdict.granted.inj hg'
          exact hg
        dsimp only
        rw [hadd, hassert, hiff]
        refine ⟨_, rfl, ?_, hkept⟩
        split_ifs with hg <;> simp [hg]
    · have hfails : validateUncachedAsserting k apd r.addr r.access (-1) = none := by
        push Not at hmix
        obtain ⟨hm, o, hfind, hne⟩ := hmix
        exact validateUncachedAsserting_mixed hm hfind hne _
      have hg : ¬ Grantable k apd r := fun hg => hmix hg.mixed
      rw [hfails]
      cases hverdict : validateUncached k apd r.addr r.access (-1) with
      | unknown =>
        exact ⟨_, rfl, iff_of_false (by rintro ⟨⟩) hg, fun hg' => absurd hg' hg⟩
      | denied cap =>
        exact ⟨_, rfl, iff_of_false (by rintro ⟨⟩) hg, fun hg' => absurd hg' hg⟩
      | granted g =>
        obtain ⟨w', hadd, -⟩ := hw.add g r.t₁ r.t₂
        dsimp only
        rw [hadd]
        exact ⟨_, rfl, iff_of_false (by rintro ⟨⟩) hg, fun hg' => absurd hg' hg⟩

/-! ### What may be asked for -/

/-- A PDX password of the object has the entry point. -/
def Obj.EntryPoint (obj : Obj) (passwd proc : ℕ) : Prop :=
  ∃ i : ℤ, 0 ≤ i ∧ i < obj.info.nPdx ∧ obj.info.pdx.Lists i passwd proc

/-- What an access to an object has to be like for the assertions to hold. -/
structure SearchUntripped (k : Kernel O) (apd : ApdDesc) (addr : ℕ) (access : Access) (o : O) :
    Prop where
  /-- Where `M_PDX` comes with other rights, the APD has no capability for the object. -/
  mixed : access.Mixed → k.candidates apd (k.obj o) = []
  /-- Where `M_PDX` comes with `M_NOT`, no capability is for the entry point. -/
  pdx : access.IsPdx → access.IsNot →
    ∀ cap ∈ k.candidates apd (k.obj o), ¬ (k.obj o).EntryPoint (k.capAt cap).passwd addr
  /-- Where nothing is asked for, the password that is met first is not negative.  Its rights
  are not mixed, as long as they come from `object_passwd`. -/
  std : ¬ access.IsPdx → ∀ cap i, Decider k apd (k.obj o) access cap →
    (k.obj o).FirstDecisive (k.capAt cap).passwd access i →
      ¬ ((k.obj o).info.rights i).Forbids access →
        ¬ ((k.obj o).info.rights i).Mixed ∧ (access = 0 → ¬ ((k.obj o).info.rights i).IsNot)

section Grantable
variable {k : Kernel O} {apd : ApdDesc} {addr : ℕ} {access : Access} {o : O}

theorem verdictOf_pdx_eq_none {obj : Obj} {pdxSlot : ℤ} (hp : access.IsPdx) {cap : CapPtr} :
    k.verdictOf obj addr (access, pdxSlot) cap = none ↔
      ¬ obj.EntryPoint (k.capAt cap).passwd addr := by
  unfold Obj.EntryPoint
  rw [← doValidatePasswdPdx_allowed _ _ _ pdxSlot]
  cases hv : k.verdictOf obj addr (access, pdxSlot) cap with
  | none =>
    refine iff_of_true rfl fun hallowed => ?_
    unfold Kernel.verdictOf doValidatePasswd at hv
    rw [if_neg (not_not.mpr hp)] at hv
    dsimp only at hv
    rw [hallowed, if_neg nofun] at hv
    cases hv
  | some r =>
    refine iff_of_false nofun (not_not.mpr ?_)
    have hres := (verdictOf_pdx hp hv).2
    unfold Kernel.verdictOf doValidatePasswd at hv
    rw [if_neg (not_not.mpr hp)] at hv
    dsimp only at hv
    split_ifs at hv
    rw [← Option.some.inj hv] at hres
    exact (Prod.mk.inj hres).1

theorem validateUncached_pdx (hp : access.IsPdx) (hfind : objectFind k addr = some o) :
    (∃ g, validateUncached k apd addr access (-1) = .granted g) ↔
      ∃ cap ∈ k.candidates apd (k.obj o), (k.obj o).EntryPoint (k.capAt cap).passwd addr := by
  unfold validateUncached
  rw [hfind]
  dsimp only
  rw [validateSearch_eq]
  cases hs : (k.candidates apd (k.obj o)).findSome?
      (k.verdictOf (k.obj o) addr (access, -1)) with
  | none =>
    refine iff_of_false (fun ⟨g, hg⟩ => by cases hg) ?_
    rintro ⟨cap, hcap, hentry⟩
    exact (verdictOf_pdx_eq_none hp).mp (List.findSome?_eq_none_iff.mp hs cap hcap) hentry
  | some r =>
    obtain ⟨l₁, cap, l₂, hlist, hcap, -⟩ := List.findSome?_eq_some_iff.mp hs
    obtain ⟨s, result, cap'⟩ := r
    obtain ⟨-, hres⟩ := verdictOf_pdx hp hcap
    obtain ⟨rfl, rfl⟩ := Prod.mk.inj hres
    refine iff_of_true ⟨_, rfl⟩ ⟨cap', by rw [hlist]; simp, ?_⟩
    by_contra hno
    rw [(verdictOf_pdx_eq_none hp).mpr hno] at hcap
    cases hcap

theorem validateUncached_decider (hp : ¬ access.IsPdx) (hfind : objectFind k addr = some o)
    {cap : CapPtr} {i : ℤ} (hdec : Decider k apd (k.obj o) access cap)
    (hi : (k.obj o).FirstDecisive (k.capAt cap).passwd access i)
    (hno : ¬ ((k.obj o).info.rights i).Forbids access) :
    ∃ g, validateUncached k apd addr access (-1) = .granted g ∧
      g.access = (k.obj o).info.rights i := by
  have hout := validateUncached_std k apd addr hp (-1)
  generalize validateUncached k apd addr access (-1) = verdict at hout
  cases hout with
  | noObject absent => rw [absent] at hfind; cases hfind
  | noCap o' found silent =>
    obtain rfl := Option.some.inj (found.symm.trans hfind)
    exact absurd hi.decisive (silent cap hdec.mem)
  | denied o' cap' found decider negative =>
    obtain rfl := Option.some.inj (found.symm.trans hfind)
    obtain rfl := decider.unique hdec
    obtain ⟨j, hj, hforbid⟩ := negative
    exact absurd (hj.unique hi ▸ hforbid) hno
  | granted o' cap' j found decider first allows covers =>
    obtain rfl := Option.some.inj (found.symm.trans hfind)
    obtain rfl := decider.unique hdec
    obtain rfl := first.unique hi
    exact ⟨_, rfl, rfl⟩

end Grantable

theorem grantable_iff (k : Kernel O) (apd : ApdDesc) (r : Request) : Grantable k apd r ↔
    ∀ o, objectFind k r.addr = some o → SearchUntripped k apd r.addr r.access o := by
  constructor
  · intro h o hfind
    refine ⟨fun hm => h.mixed hm o hfind, fun hp hnot cap hcap hentry => ?_,
      fun hp cap i hdec hi hno => ?_⟩
    · have hgranted := (validateUncached_pdx hp hfind).mpr ⟨cap, hcap, hentry⟩
      obtain ⟨g, hg⟩ := hgranted
      exact (h.granted g hg).1 ((grantSpec hg).pdx hp ▸ hnot)
    · obtain ⟨g, hg, haccess⟩ := validateUncached_decider hp hfind hdec hi hno
      rw [← haccess]
      exact ⟨(h.granted g hg).2, fun _ => (h.granted g hg).1⟩
  · intro h
    refine ⟨fun hm o hfind => (h o hfind).mixed hm, fun g hg => ?_⟩
    have hspec := grantSpec hg
    have hcond := h g.obj hspec.found
    by_cases hp : r.access.IsPdx
    · rw [hspec.pdx hp]
      constructor
      · intro hnot
        obtain ⟨cap, hcap, hentry⟩ := (validateUncached_pdx hp hspec.found).mp ⟨g, hg⟩
        exact hcond.pdx hp hnot cap hcap hentry
      · intro hmix
        have hcap := hspec.cap
        rw [hcond.mixed hmix] at hcap
        cases hcap
    · obtain ⟨hdec, i, hi, hrights, hno⟩ := hspec.std hp
      rw [← hrights] at hno ⊢
      obtain ⟨hmix, hzero⟩ := hcond.std hp g.cap i hdec hi hno
      refine ⟨fun hnot => ?_, hmix⟩
      by_cases h0 : r.access = 0
      · exact hzero h0 hnot
      · -- rights that include something asked for forbid it when they are negative
        have hcov : ((k.obj g.obj).info.rights i).Covers r.access := hrights ▸ hspec.covers
        exact hno ⟨hcov.meets h0, hnot⟩

/-- `object_passwd` does not make rights mixed. -/
theorem objectPasswd_not_mixed {obj : Obj} (h : ∀ i, PasswdSlot i → ¬ (obj.info.rights i).Mixed)
    (passwd : ℕ) (rights : Access) :
    ∀ i, PasswdSlot i → ¬ ((objectPasswd obj passwd rights).2.info.rights i).Mixed := by
  have hclear : ¬ (rights &&& ~~~mPdx).Mixed := by
    rintro ⟨hp, -⟩
    apply hp
    rw [BitVec.and_assoc, BitVec.and_comm (~~~mPdx), BitVec.and_not_self]
    exact BitVec.and_zero
  have hupdate : ∀ j i, PasswdSlot i →
      ¬ (Function.update obj.info.rights j (rights &&& ~~~mPdx) i).Mixed := by
    intro j i hi
    by_cases hij : i = j
    · rw [hij, Function.update_self]
      exact hclear
    · rw [Function.update_of_ne hij]
      exact h i hi
  have hout := objectPasswd_outcome obj passwd rights
  generalize objectPasswd obj passwd rights = res at hout
  cases hout with
  | changed j => exact hupdate j
  | stored j => exact hupdate j
  | full => exact h

/-! ### Runs -/

/-- What happens to an APD with its cache. -/
inductive LookupOp (O : Type) where
  /-- `sys_apd_lookup`, or another call that validates an access. -/
  | lookup (r : Request)
  /-- `object_passwd` -/
  | passwd (o : O) (passwd : ℕ) (rights : Access)
  /-- Objects and Clists are changed in any other way. -/
  | memory (k : Kernel O)
  /-- Slots of the APD are changed. -/
  | slots (apd : ApdDesc)
  | flush
  | flushAddr (addr : ℕ)

/-- The memory, the APD and its cache. -/
structure LookupState (O : Type) where
  kernel : Kernel O
  apd : ApdDesc
  cache : Vcache O CapPtr
  /-- An assertion has failed. -/
  tripped : Bool

/-- One step; the kernel goes on after an assertion that has failed. -/
def lookupStep [DecidableEq O] (s : LookupState O) : LookupOp O → Option (LookupState O)
  | .lookup r => (sysApdLookup s.kernel s.apd s.cache r).map fun res =>
      { s with
        cache := res.1
        tripped := s.tripped || (sysApdLookupAsserting s.kernel s.apd s.cache r).isNone }
  | .passwd o passwd rights =>
      some { s with
        kernel := s.kernel.setObj o (objectPasswd (s.kernel.obj o) passwd rights).2 }
  | .memory k => some { s with kernel := k }
  | .slots apd => some { s with apd }
  | .flush => some { s with cache := vcacheFlush s.cache }
  | .flushAddr addr => some { s with cache := vcacheFlushAddr s.cache addr }

/-- No assertion has failed, and no negative rights are cached. -/
structure LookupState.Sound (s : LookupState O) : Prop where
  untripped : s.tripped = false
  positive : ∀ i, InBounds i → ¬ (s.cache.cacheInf i).rights.IsNot

/-- A lookup is answered by the cache, or asks for what `SearchUntripped` allows. -/
def Untripped (s : LookupState O) : LookupOp O → Prop
  | .lookup r => s.cache.Answers r ∨ ∀ o, objectFind s.kernel r.addr = some o →
      SearchUntripped s.kernel s.apd r.addr r.access o
  | _ => True

/-- What holds of a sound state. -/
structure LookupState.Kept (s : LookupState O) : Prop where
  untripped : s.tripped = false
  cache : s.cache.Kept

theorem LookupState.Kept.sound {s : LookupState O} (h : s.Kept) : s.Sound :=
  ⟨h.untripped, fun i hi => (h.cache.rights i hi).1⟩

theorem untripped_lookup {s : LookupState O} {r : Request} : Untripped s (.lookup r) ↔
    s.cache.Answers r ∨ Grantable s.kernel s.apd r :=
  or_congr_right (grantable_iff s.kernel s.apd r).symm

section Run
variable [DecidableEq O] {s s' : LookupState O}

/-- A lookup always returns. -/
theorem lookupStep_lookup (h : s.Kept) (r : Request) :
    ∃ s', lookupStep s (.lookup r) = some s' ∧ (s'.tripped = false ↔ Untripped s (.lookup r)) ∧
      (Untripped s (.lookup r) → s'.Kept) := by
  obtain ⟨res, hres, hasserts, hkept⟩ := h.cache.lookup s.kernel s.apd r
  have hiff : ((sysApdLookupAsserting s.kernel s.apd s.cache r).isNone = false) ↔
      Untripped s (.lookup r) := by
    rw [untripped_lookup, ← hasserts, sysApdLookupAsserting, Option.isNone_map]
    cases doValidateObjAsserting s.kernel s.apd s.cache r.addr r.access r.now r.t₁ r.t₂ <;> simp
  refine ⟨_, by rw [lookupStep, sysApdLookup, hres]; rfl, ?_, fun hu => ⟨?_, ?_⟩⟩
  · dsimp only
    rw [h.untripped, Bool.false_or]
    exact hiff
  · dsimp only
    rw [h.untripped, Bool.false_or]
    exact hiff.mpr hu
  · exact hkept (untripped_lookup.mp hu)

theorem kept_lookupStep {op : LookupOp O} (h : s.Kept) (hu : Untripped s op)
    (hs : lookupStep s op = some s') : s'.Kept := by
  cases op with
  | lookup r =>
    obtain ⟨s₁, hs₁, -, hkept⟩ := lookupStep_lookup h r
    obtain rfl := Option.some.inj (hs.symm.trans hs₁)
    exact hkept hu
  | passwd o passwd rights => cases hs; exact ⟨h.untripped, h.cache⟩
  | memory k => cases hs; exact ⟨h.untripped, h.cache⟩
  | slots apd => cases hs; exact ⟨h.untripped, h.cache⟩
  | flush => cases hs; exact ⟨h.untripped, Vcache.Holds.flush _, h.cache.rights⟩
  | flushAddr addr =>
    cases hs
    exact ⟨h.untripped, (h.cache.holds.flushAddr addr).mono fun _ _ hP => hP.1, h.cache.rights⟩

/-- Every run goes on. -/
theorem exists_run_lookupStep (l : List (LookupOp O)) (s : LookupState O)
    (hlast : s.cache.Holds fun _ info => info.obj ≠ none) :
    ∃ s', run lookupStep s l = some s' := by
  induction l generalizing s with
  | nil => exact ⟨s, rfl⟩
  | cons op l ih =>
    have hstep : ∃ s₁, lookupStep s op = some s₁ ∧
        s₁.cache.Holds fun _ info => info.obj ≠ none := by
      cases op with
      | lookup r =>
        obtain ⟨res, hres, hholds⟩ := hlast.validated s.kernel s.apd r.addr r.access r.now r.t₁
          r.t₂
        exact ⟨_, by rw [lookupStep, sysApdLookup, hres]; rfl, hholds⟩
      | passwd o passwd rights => exact ⟨_, rfl, hlast⟩
      | memory k => exact ⟨_, rfl, hlast⟩
      | slots apd => exact ⟨_, rfl, hlast⟩
      | flush => exact ⟨_, rfl, Vcache.Holds.flush _⟩
      | flushAddr addr => exact ⟨_, rfl, (hlast.flushAddr addr).mono fun _ _ hP => hP.1⟩
    obtain ⟨s₁, hs₁, hlast₁⟩ := hstep
    obtain ⟨s', hs'⟩ := ih s₁ hlast₁
    exact ⟨s', by rw [run, hs₁]; exact hs'⟩

/-- **When no lookup of a run fails an assertion.**  From an empty cache every lookup returns,
and no assertion fails and no negative rights are cached in any state of a run, just when every
lookup that the cache does not answer is like this: `M_PDX` comes with other rights only for
objects the APD has no capability for, and with `M_NOT` only for entry points it has none for;
and asking for nothing does not meet a negative password first. -/
theorem apdLookup_untripped_iff (k : Kernel O) (apd : ApdDesc) (ops : List (LookupOp O)) :
    ∃ s', run lookupStep ⟨k, apd, vcacheNew, false⟩ ops = some s' ∧
      ((∀ l s, l <+: ops → run lookupStep ⟨k, apd, vcacheNew, false⟩ l = some s → s.Sound) ↔
        Along lookupStep Untripped ⟨k, apd, vcacheNew, false⟩ ops) := by
  obtain ⟨s', hs'⟩ := exists_run_lookupStep ops ⟨k, apd, vcacheNew, false⟩ holds_vcacheNew
  refine ⟨s', hs', ?_⟩
  refine reached_iff_along (I := LookupState.Kept) (D := fun _ _ => True) (fun _ h => h.sound)
    (fun _ _ _ h _ hu hs => kept_lookupStep h hu hs) ?_ ops _ s' ⟨rfl, kept_vcacheNew⟩ ?_ hs'
  · intro s op s₁ h _ hs hsound
    cases op with
    | lookup r =>
      obtain ⟨s₂, hs₂, hiff, -⟩ := lookupStep_lookup h r
      obtain rfl := Option.some.inj (hs.symm.trans hs₂)
      exact hiff.mp hsound.untripped
    | _ => trivial
  · exact .of_forall fun _ _ => trivial

end Run

/-- Nothing is asked for, on an object whose first password forbids writing: its rights are
granted, and cached. -/
theorem apdLookup_trips : ¬ ∀ (k : Kernel ℕ) (apd : ApdDesc) (ops : List (LookupOp ℕ))
    (s : LookupState ℕ), run lookupStep ⟨k, apd, vcacheNew, false⟩ ops = some s → s.Sound := by
  intro h
  have hend : (run lookupStep ⟨sharedKernel, sharedApd, vcacheNew, false⟩
      [.lookup ⟨0x2000, 0, 5, 5, 5⟩]).map
        (fun s => (s.tripped, decide (s.cache.cacheInf 0).rights.IsNot)) = some (true, true) := by
    decide +kernel
  obtain ⟨s, hrun, hs⟩ := Option.map_eq_some_iff.mp hend
  have htripped := (Prod.mk.inj hs).1
  rw [(h sharedKernel sharedApd _ s hrun).untripped] at htripped
  cases htripped

/-- Reading is asked for together with a PDX call. -/
example : (run lookupStep ⟨sharedKernel, sharedApd, vcacheNew, false⟩
    [.lookup ⟨0x2000, mPdx ||| mRead, 5, 5, 5⟩]).map LookupState.tripped = some true := by
  decide +kernel

end Mungi
