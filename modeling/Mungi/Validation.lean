import Mungi.Security

/-!
# Validation with the cache

What the validation cache makes of the answers of `do_validate_obj`.  A validated
access leaves the rights of the whole password in the cache, so later accesses to the
object are granted without another look at the APD, also where a negative capability
would have been met first.

## Main definitions

* `Request`, `validateStep`, `answer` — requests of one APD, one after another.
* `uncached` — what the search of the APD answers.

## Main results

* `doValidateObj_outcome` — what `do_validate_obj` does, in terms of the cache entries.
* `answer_uncached` — **how the cache may change an answer.**
* `answer_negative` — and that it does.
-/

namespace Mungi

open Cat SearchLoop Runs

variable {O : Type}

/-! ### One request -/

/-- What `do_validate_obj` does when the entries of the cache that are not empty have
property `P`: it answers from one of them, or from the search of the APD. -/
inductive ValidateOutcome (P : VcacheEntry → VcacheInfo O CapPtr → Prop) (k : Kernel O)
    (apd : ApdDesc) (addr : ℕ) (access : Access) (now t₂ : ℕ) :
    Vcache O CapPtr × Option O × Option CapPtr → Prop where
  | hit (w : Vcache O CapPtr) (e : VcacheEntry) (info : VcacheInfo O CapPtr) (o : O)
      (holds : w.Holds P) (entry : P e info) (matches_entry : e.Matches addr access)
      (time : wordSub now info.timestamp ≤ vcacheTimeout) (rights : info.rights.Covers access)
      (obj : info.obj = some o) : ValidateOutcome P k apd addr access now t₂ (w, some o, info.cap)
  | unknown (w : Vcache O CapPtr) (holds : w.Holds P)
      (verdict : validateUncached k apd addr access (-1) = .unknown) :
      ValidateOutcome P k apd addr access now t₂ (w, none, none)
  | denied (w : Vcache O CapPtr) (cap : CapPtr) (holds : w.Holds P)
      (verdict : validateUncached k apd addr access (-1) = .denied cap) :
      ValidateOutcome P k apd addr access now t₂ (w, none, some cap)
  | granted (w : Vcache O CapPtr) (g : Grant O CapPtr)
      (holds : P g.entry (g.info t₂) → w.Holds P)
      (verdict : validateUncached k apd addr access (-1) = .granted g) :
      ValidateOutcome P k apd addr access now t₂ (w, some g.obj, some g.cap)

/-- **`do_validate_obj` always answers**, from the cache or from the APD. -/
theorem doValidateObj_outcome {P : VcacheEntry → VcacheInfo O CapPtr → Prop}
    (hP : ∀ e info, P e info → info.obj ≠ none) (k : Kernel O) (apd : ApdDesc)
    {v : Vcache O CapPtr} (hv : v.Holds P) (addr : ℕ) (access : Access) (now t₁ t₂ : ℕ) :
    ∃ r, doValidateObj k apd v addr access now t₁ t₂ = some r ∧
      ValidateOutcome P k apd addr access now t₂ r := by
  obtain ⟨w, hit, hcheck, hw, hhit⟩ := hv.check addr access now
  unfold doValidateObj
  rw [hcheck, Option.bind_some]
  cases hit with
  | some info =>
    obtain ⟨e, he, hm, ht, hr⟩ := hhit info rfl
    obtain ⟨o, ho⟩ := Option.ne_none_iff_exists'.mp (hP e info he)
    dsimp only [Option.bind_some]
    rw [ho]
    exact ⟨_, rfl, .hit w e info o hw he hm ht hr ho⟩
  | none =>
    dsimp only [Option.bind_none, Option.map_none, Option.getD_none]
    cases hverdict : validateUncached k apd addr access (-1) with
    | unknown => exact ⟨_, rfl, .unknown w hw hverdict⟩
    | denied cap => exact ⟨_, rfl, .denied w cap hw hverdict⟩
    | granted g =>
      by_cases hg : P g.entry (g.info t₂)
      · obtain ⟨w', hadd, hw'⟩ := hw.add g t₁ t₂ hg
        exact ⟨_, by dsimp only; rw [hadd]; rfl, .granted w' g (fun _ => hw') hverdict⟩
      · obtain ⟨slot, -, hadd⟩ := vcacheAdd_spec w g t₁ t₂
        exact ⟨_, by dsimp only; rw [hadd]; rfl, .granted _ g (fun h => absurd h hg) hverdict⟩

/-- The entries of the cache keep knowing their objects. -/
theorem Vcache.Holds.validated {v : Vcache O CapPtr}
    (h : v.Holds fun _ info => info.obj ≠ none) (k : Kernel O) (apd : ApdDesc) (addr : ℕ)
    (access : Access) (now t₁ t₂ : ℕ) :
    ∃ res, doValidateObj k apd v addr access now t₁ t₂ = some res ∧
      res.1.Holds fun _ info => info.obj ≠ none := by
  obtain ⟨res, hres, hout⟩ := doValidateObj_outcome (fun _ _ h => h) k apd h addr access now t₁ t₂
  refine ⟨res, hres, ?_⟩
  cases hout with
  | hit w e info o holds => exact holds
  | unknown w holds => exact holds
  | denied w cap holds => exact holds
  | granted w g holds => exact holds nofun

/-! ### What is granted -/

/-- What the search of the APD grants, and through which capability. -/
structure GrantSpec (k : Kernel O) (apd : ApdDesc) (addr : ℕ) (access : Access)
    (g : Grant O CapPtr) : Prop where
  found : objectFind k addr = some g.obj
  base : g.base = (k.obj g.obj).base
  limit : g.limit = (k.obj g.obj).limit
  cap : g.cap ∈ k.candidates apd (k.obj g.obj)
  capAddress : g.capAddress = (k.capAt g.cap).address
  covers : g.access.Covers access
  /-- Rights other than for a PDX call are those of a password. -/
  std : ¬ access.IsPdx → Decider k apd (k.obj g.obj) access g.cap ∧
    ∃ i, (k.obj g.obj).FirstDecisive (k.capAt g.cap).passwd access i ∧
      (k.obj g.obj).info.rights i = g.access ∧ ¬ g.access.Forbids access
  pdx : access.IsPdx → g.access = access

theorem mem_candidates {k : Kernel O} {apd : ApdDesc} {obj : Obj} {cap : CapPtr}
    (h : cap ∈ k.candidates apd obj) : obj.Contains (k.capAt cap).address := by
  obtain ⟨i, -, -, hi⟩ := exists_of_mem_cat h
  dsimp only at hi
  split_ifs at hi with hclist
  · cases hi
  · obtain ⟨j, -, -, hj⟩ := exists_of_mem_cat hi
    split_ifs at hj with hin
    · rw [List.mem_singleton] at hj
      rwa [hj]
    · cases hj

theorem verdictOf_pdx {k : Kernel O} {obj : Obj} {addr : ℕ} {access : Access} {pdxSlot : ℤ}
    (hp : access.IsPdx) {cap : CapPtr} {r : (Access × ℤ) × ValidationResult × CapPtr}
    (h : k.verdictOf obj addr (access, pdxSlot) cap = some r) :
    r.1.1 = access ∧ r.2 = (.allowed, cap) := by
  unfold Kernel.verdictOf doValidatePasswd at h
  rw [if_neg (not_not.mpr hp)] at h
  dsimp only at h
  split_ifs at h with hu
  obtain rfl := Option.some.inj h
  refine ⟨rfl, Prod.ext ?_ rfl⟩
  unfold doValidatePasswdPdx at hu ⊢
  dsimp only at hu ⊢
  cases hf : findUp _ 0 obj.info.nPdx with
  | none => rw [hf] at hu; exact absurd rfl hu
  | some r =>
    obtain ⟨i, -, -, hi, -⟩ := findUp_eq_some.mp hf
    split_ifs at hi
    obtain ⟨j, -, -, hj, -⟩ := findUp_eq_some.mp hi
    split_ifs at hj
    rw [← Option.some.inj hj]
    rfl

theorem grantSpec {k : Kernel O} {apd : ApdDesc} {addr : ℕ} {access : Access} {pdxSlot : ℤ}
    {g : Grant O CapPtr} (h : validateUncached k apd addr access pdxSlot = .granted g) :
    GrantSpec k apd addr access g := by
  by_cases hp : access.IsPdx
  · unfold validateUncached at h
    cases hfind : objectFind k addr with
    | none => rw [hfind] at h; cases h
    | some o =>
      rw [hfind] at h
      dsimp only at h
      rw [validateSearch_eq] at h
      cases hs : (k.candidates apd (k.obj o)).findSome?
          (k.verdictOf (k.obj o) addr (access, pdxSlot)) with
      | none => rw [hs] at h; cases h
      | some r =>
        obtain ⟨⟨access', slot⟩, result, cap⟩ := r
        obtain ⟨l₁, cap', l₂, hlist, hcap, -⟩ := List.findSome?_eq_some_iff.mp hs
        obtain ⟨hacc, hres⟩ := verdictOf_pdx hp hcap
        obtain ⟨rfl, rfl⟩ := Prod.mk.inj hres
        rw [hs] at h
        obtain rfl := Verdict.granted.inj h
        obtain rfl : access' = access := hacc
        have hmem : cap ∈ k.candidates apd (k.obj o) := by
          rw [hlist]
          simp
        exact ⟨hfind, rfl, rfl, hmem, rfl, Access.covers_iff.mpr fun _ hi => hi, absurd hp,
          fun _ => rfl⟩
  · have hout := validateUncached_std k apd addr hp pdxSlot
    rw [h] at hout
    cases hout with
    | granted o cap i found decider first allows covers =>
      exact ⟨found, rfl, rfl, decider.mem, rfl, covers,
        fun _ => ⟨decider, i, first, rfl, allows⟩, fun h => absurd h hp⟩

/-! ### Many requests -/

/-- A call of `do_validate_obj`, and the clock readings it makes. -/
structure Request where
  addr : ℕ
  access : Access
  now : ℕ
  t₁ : ℕ
  t₂ : ℕ

/-- The cache after a request. -/
def validateStep (k : Kernel O) (apd : ApdDesc) (v : Vcache O CapPtr) (r : Request) :
    Option (Vcache O CapPtr) :=
  (doValidateObj k apd v r.addr r.access r.now r.t₁ r.t₂).map Prod.fst

/-- The object handed out on a request, `none` for a refusal. -/
def answer (k : Kernel O) (apd : ApdDesc) (v : Vcache O CapPtr) (r : Request) :
    Option (Option O) :=
  (doValidateObj k apd v r.addr r.access r.now r.t₁ r.t₂).map fun s => s.2.1

/-- The answer of the search of the APD. -/
def uncached (k : Kernel O) (apd : ApdDesc) (r : Request) : Option O :=
  match validateUncached k apd r.addr r.access (-1) with
  | .granted g => some g.obj
  | _ => none

/-- An empty cache has no say. -/
theorem answer_vcacheNew (k : Kernel O) (apd : ApdDesc) (r : Request) :
    answer k apd vcacheNew r = some (uncached k apd r) := by
  obtain ⟨s, hs, hout⟩ := doValidateObj_outcome (P := fun _ _ => False) (fun _ _ h => h.elim) k apd
    holds_vcacheNew r.addr r.access r.now r.t₁ r.t₂
  unfold answer uncached
  rw [hs]
  cases hout with
  | hit w e info o holds entry => exact entry.elim
  | unknown w holds verdict => rw [verdict]; rfl
  | denied w cap holds verdict => rw [verdict]; rfl
  | granted w g holds verdict => rw [verdict]; rfl

/-- An entry comes from a request of `rs` that the search of the APD granted. -/
def Searched (k : Kernel O) (apd : ApdDesc) (rs : List Request) (e : VcacheEntry)
    (info : VcacheInfo O CapPtr) : Prop :=
  ∃ r ∈ rs, ∃ g, validateUncached k apd r.addr r.access (-1) = .granted g ∧ e = g.entry ∧
    info = g.info r.t₂

theorem Searched.obj_ne_none {k : Kernel O} {apd : ApdDesc} {rs : List Request} {e : VcacheEntry}
    {info : VcacheInfo O CapPtr} (h : Searched k apd rs e info) : info.obj ≠ none := by
  obtain ⟨r, -, g, -, -, rfl⟩ := h
  exact nofun

/-- One request more. -/
theorem validateStep_searched (k : Kernel O) (apd : ApdDesc) {rs : List Request}
    {v : Vcache O CapPtr} (h : v.Holds (Searched k apd rs)) (r : Request) :
    ∃ w, validateStep k apd v r = some w ∧ w.Holds (Searched k apd (rs ++ [r])) := by
  have hv : v.Holds (Searched k apd (rs ++ [r])) :=
    h.mono fun e info ⟨r', hr', hg⟩ => ⟨r', List.mem_append_left _ hr', hg⟩
  obtain ⟨s, hs, hout⟩ := doValidateObj_outcome (fun _ _ => Searched.obj_ne_none) k apd hv r.addr
    r.access r.now r.t₁ r.t₂
  refine ⟨s.1, by rw [validateStep, hs]; rfl, ?_⟩
  cases hout with
  | hit w e info o holds => exact holds
  | unknown w holds verdict => exact holds
  | denied w cap holds verdict => exact holds
  | granted w g holds verdict => exact holds ⟨r, by simp, g, verdict, rfl, rfl⟩

theorem validateRun_searched (k : Kernel O) (apd : ApdDesc) (rs : List Request) :
    ∃ v, run (validateStep k apd) vcacheNew rs = some v ∧ v.Holds (Searched k apd rs) :=
  run_total (C := fun rs (v : Vcache O CapPtr) => v.Holds (Searched k apd rs))
    (G := fun _ => True) holds_vcacheNew (fun _ _ _ => trivial)
    (fun _ _ r h _ => validateStep_searched k apd h r) rs trivial

/-- What a matching entry says about the object it was made for. -/
theorem GrantSpec.contains {k : Kernel O} {apd : ApdDesc} {addr addr' : ℕ} {access access' : Access}
    {g : Grant O CapPtr} (hg : GrantSpec k apd addr' access' g)
    (hm : g.entry.Matches addr access) (hc : g.access.Covers access) :
    (k.obj g.obj).Contains addr ∧ (access.IsPdx → (k.capAt g.cap).address = addr) ∧
      (¬ access.IsPdx → ¬ access'.IsPdx) := by
  have hentry := Grant.entry_matches hm hc
  by_cases hp : access.IsPdx
  · rw [if_pos hp, hg.capAddress] at hentry
    exact ⟨hentry ▸ mem_candidates hg.cap, fun _ => hentry, absurd hp⟩
  · rw [if_neg hp, hg.base, hg.limit] at hentry
    exact ⟨hentry.2, fun h => absurd h hp, fun _ hp' => hentry.1 (hg.pdx hp' ▸ hp')⟩

/-- The password that an access was granted by says something about every access that
its rights include. -/
theorem GrantSpec.decisive {k : Kernel O} {apd : ApdDesc} {addr : ℕ} {access access' : Access}
    {g : Grant O CapPtr} (hg : GrantSpec k apd addr access' g) (hp : ¬ access'.IsPdx)
    (hc : g.access.Covers access) :
    (k.obj g.obj).Decisive (k.capAt g.cap).passwd access := by
  obtain ⟨-, i, hi, hrights, -⟩ := hg.std hp
  obtain ⟨j, hj⟩ := Obj.exists_firstDecisive hi.nonneg hi.lt hi.passwd_eq
    (Or.inr (hrights ▸ hc) : ((k.obj g.obj).info.rights i).Decides access)
  exact hj.decisive

/-- **How the cache may change an answer.**  A request that the search of the APD grants
gets the same object.  One that it refuses, other than for a PDX call, is refused, or
else it met a negative capability and an earlier request was granted on the object with
rights that include the access. -/
theorem answer_uncached {k : Kernel O} (hk : k.Ordered) (apd : ApdDesc) (rs : List Request)
    (r : Request) :
    ∃ v res, run (validateStep k apd) vcacheNew rs = some v ∧ answer k apd v r = some res ∧
      (∀ o, uncached k apd r = some o → res = some o) ∧
      (uncached k apd r = none → ∀ o, res = some o → objectFind k r.addr = some o ∧
        (¬ r.access.IsPdx →
          (∃ cap, Decider k apd (k.obj o) r.access cap ∧
            (k.obj o).Negative (k.capAt cap).passwd r.access) ∧
          ∃ r' ∈ rs, ∃ g, validateUncached k apd r'.addr r'.access (-1) = .granted g ∧
            g.obj = o ∧ g.access.Covers r.access) ∧
        (r.access.IsPdx →
          ∃ cap ∈ k.candidates apd (k.obj o), (k.capAt cap).address = r.addr)) := by
  obtain ⟨v, hv, hst⟩ := validateRun_searched k apd rs
  obtain ⟨s, hs, hout⟩ := doValidateObj_outcome (fun _ _ => Searched.obj_ne_none) k apd hst r.addr
    r.access r.now r.t₁ r.t₂
  refine ⟨v, s.2.1, hv, by rw [answer, hs]; rfl, ?_⟩
  unfold uncached
  cases hout with
  | unknown w holds verdict => rw [verdict]; exact ⟨nofun, fun _ _ => nofun⟩
  | denied w cap holds verdict => rw [verdict]; exact ⟨nofun, fun _ _ => nofun⟩
  | granted w g holds verdict => rw [verdict]; exact ⟨fun o ho => ho, nofun⟩
  | hit w e info o holds entry matches_entry time rights obj =>
    obtain ⟨r', hr', g, hg, rfl, rfl⟩ := entry
    obtain rfl : g.obj = o := Option.some.inj obj
    have hspec := grantSpec hg
    obtain ⟨hin, hcap, hstd⟩ := hspec.contains matches_entry rights
    have hfind := hk.objectFind_eq_of_contains hspec.found hin
    refine ⟨fun o ho => ?_, fun hno o ho => ?_⟩
    · -- the search finds the same object
      cases hverdict : validateUncached k apd r.addr r.access (-1) with
      | unknown => rw [hverdict] at ho; cases ho
      | denied cap => rw [hverdict] at ho; cases ho
      | granted g' =>
        rw [hverdict] at ho
        rw [← ho]
        exact hfind.symm.trans (grantSpec hverdict).found
    · obtain rfl := Option.some.inj ho
      refine ⟨hfind, fun hp => ⟨?_, r', hr', g, hg, rfl, rights⟩,
        fun hp => ⟨g.cap, hspec.cap, hcap hp⟩⟩
      have hout := validateUncached_std k apd r.addr hp (-1)
      generalize validateUncached k apd r.addr r.access (-1) = verdict at hout hno
      cases hout with
      | noObject absent => rw [absent] at hfind; cases hfind
      | denied o cap found decider negative =>
        obtain rfl := Option.some.inj (found.symm.trans hfind)
        exact ⟨cap, decider, negative⟩
      | granted => cases hno
      | noCap o found silent =>
        -- the password that granted the earlier request would have granted this one
        obtain rfl := Option.some.inj (found.symm.trans hfind)
        exact absurd (hspec.decisive (hstd hp) rights) (silent g.cap hspec.cap)

/-- The first request is granted by the second capability, past a negative one that has
nothing to say about reading; the second would be refused. -/
theorem answer_negative : sharedKernel.Ordered ∧
    mOwner.Covers mRead ∧ mOwner.Covers mWrite ∧
    ((run (validateStep sharedKernel sharedApd) vcacheNew [⟨0x2000, mRead, 5, 5, 5⟩]).bind
      fun v => answer sharedKernel sharedApd v ⟨0x2000, mWrite, 6, 6, 6⟩) = some (some 1) ∧
    answer sharedKernel sharedApd vcacheNew ⟨0x2000, mWrite, 6, 6, 6⟩ = some none :=
  ⟨sharedKernel_ordered, by decide, by decide, by decide, by decide⟩

theorem answer_uncached_sharedKernel :
    ∃ v res, run (validateStep sharedKernel sharedApd) vcacheNew [⟨0x2000, mRead, 5, 5, 5⟩]
        = some v ∧
      answer sharedKernel sharedApd v ⟨0x2000, mWrite, 6, 6, 6⟩ = some res ∧
      (∀ o, uncached sharedKernel sharedApd ⟨0x2000, mWrite, 6, 6, 6⟩ = some o → res = some o) ∧
      (uncached sharedKernel sharedApd ⟨0x2000, mWrite, 6, 6, 6⟩ = none → ∀ o, res = some o →
        objectFind sharedKernel 0x2000 = some o ∧
        (¬ mWrite.IsPdx →
          (∃ cap, Decider sharedKernel sharedApd (sharedKernel.obj o) mWrite cap ∧
            (sharedKernel.obj o).Negative (sharedKernel.capAt cap).passwd mWrite) ∧
          ∃ r' ∈ [(⟨0x2000, mRead, 5, 5, 5⟩ : Request)], ∃ g,
            validateUncached sharedKernel sharedApd r'.addr r'.access (-1) = .granted g ∧
            g.obj = o ∧ g.access.Covers mWrite) ∧
        (mWrite.IsPdx → ∃ cap ∈ sharedKernel.candidates sharedApd (sharedKernel.obj o),
          (sharedKernel.capAt cap).address = 0x2000)) :=
  answer_uncached sharedKernel_ordered sharedApd _ _

end Mungi
