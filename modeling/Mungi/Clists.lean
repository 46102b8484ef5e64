import Mungi.Assertions
import Mungi.Objects

/-!
# Clists in their objects

A Clist lies in user memory, and its header says how many capabilities it has
(`sys/types.h`).  The kernel takes the header's word for it: `do_validate_obj` reads as many,
and `clist_autoadd` writes one behind them, in the system Clist of an APD, for every stack
that is made.  Whether all of that is within the object the Clist lies in is up to the header.

## Main definitions

* `Kernel.CapInside` — a capability lies in the object of its Clist.
* `validateSearchNoting` — the search of an APD, noting the capabilities it reads.
* `clistAutoadd`, `apdGetStack` — the functions.
* `Kernel.room` — how many capabilities have room in the object.
* `Fitting` — what the headers have to be like.

## Main results

* `capsRead_iff` — which capabilities a search reads.
* `clists_inside_iff` — **when all that is read and written is in its object.**
* `clists_outside` — a run where it is not.
-/

namespace Mungi

open Cat SearchLoop Runs

variable {O : Type}

/-! ### Places -/

/-- The size of a Clist in front of its capabilities. -/
def clistHeader : ℕ := 16

/-- `sizeof(cap_t)` -/
def capSize : ℕ := 16

/-- The address of a capability. -/
def CapPtr.addr (p : CapPtr) : ℤ := p.clist + clistHeader + capSize * p.idx

/-- A capability lies in the object that contains its Clist. -/
def Kernel.CapInside (k : Kernel O) (p : CapPtr) : Prop :=
  ∃ o ∈ objectFind k p.clist, (k.obj o).base ≤ p.addr ∧ p.addr + capSize ≤ (k.obj o).limit

instance (k : Kernel O) (p : CapPtr) : Decidable (k.CapInside p) := by
  unfold Kernel.CapInside
  infer_instance

/-- How many capabilities of a Clist have room in its object. -/
def Kernel.room (k : Kernel O) (clist : ℕ) : ℕ :=
  ((objectFind k clist).map fun o => ((k.obj o).limit - clist - clistHeader) / capSize).getD 0

theorem capInside_iff (k : Kernel O) (clist : ℕ) {j : ℤ} (hj : 0 ≤ j) :
    k.CapInside ⟨clist, j⟩ ↔ j < k.room clist := by
  unfold Kernel.CapInside Kernel.room CapPtr.addr clistHeader capSize
  dsimp only
  cases hfind : objectFind k clist with
  | none => simp [hj]
  | some o =>
    have hin := objectFind_contains hfind
    obtain ⟨h₁, h₂⟩ := hin
    simp only [Option.mem_some_iff, exists_eq_left', Option.map_some, Option.getD_some]
    omega

/-! ### The code -/

/-- The body of the inner loop of `do_validate_obj`, noting the capability it reads. -/
def validateCapNoting (k : Kernel O) (obj : Obj) (addr clist : ℕ) (j : ℤ)
    (s : (Access × ℤ) × List CapPtr) :
    ((Access × ℤ) × List CapPtr) × Option (ValidationResult × CapPtr) :=
  let r := validateCapStep k obj addr clist j s.1
  ((r.1, s.2 ++ [⟨clist, j⟩]), r.2)

/-- The search of the APD. -/
def validateSearchNoting (k : Kernel O) (apd : ApdDesc) (obj : Obj) (addr : ℕ)
    (s : (Access × ℤ) × List CapPtr) :
    ((Access × ℤ) × List CapPtr) × Option (ValidationResult × CapPtr) :=
  searchUp (fun i s =>
    let clist := (apd.clist i).address
    if k.IsNotClist clist then (s, none)
    else searchUp (validateCapNoting k obj addr clist) 0 (k.clist clist).nCaps s)
    0 apd.nApd.toNat s

/-- The capabilities that `do_validate_obj` reads. -/
def capsRead (k : Kernel O) (apd : ApdDesc) (v : Vcache O CapPtr) (r : Request) : List CapPtr :=
  match vcacheCheck v r.addr r.access r.now with
  | none => []
  | some (_, hit) =>
    match hit.bind VcacheInfo.obj, objectFind k r.addr with
    | none, some o =>
      (validateSearchNoting k apd (k.obj o) r.addr
        ((r.access, (hit.map VcacheInfo.pdxSlot).getD (-1)), [])).1.2
    | _, _ => []

/-- `clist_autoadd`: the capability it writes, and the memory. -/
def clistAutoadd (k : Kernel O) (apd : ApdDesc) (cap : Cap) : CapPtr × Kernel O :=
  let clist := (apd.clist 0).address
  let c := k.clist clist
  let i := c.nCaps
  (⟨clist, i⟩, k.withClists (Function.update k.clist clist
    { c with nCaps := (i + 1) % 2 ^ 16, caps := Function.update c.caps i cap }))

/-- `apd_get_stack`: the stack, 0 for `NULL`, the capability that is written, and the system. -/
def apdGetStack [DecidableEq O] (pageSize : ℕ) (s : System O) (apd : ApdDesc) (size passwd : ℕ)
    (mem : Option (O × ObjInfo)) : ℕ × Option CapPtr × System O :=
  match objectCreate pageSize s size passwd mem with
  | (s, none) => (0, none, s)
  | (s, some stack) =>
    let base := (s.kernel.obj stack).base
    let r := clistAutoadd s.kernel apd ⟨base, passwd⟩
    (base, some r.1, { s with kernel := r.2 })

/-! ### What a search reads -/

/-- A capability settles an access: it is for the object, and its password says something. -/
def Kernel.Settles (k : Kernel O) (obj : Obj) (addr : ℕ) (s : Access × ℤ) (cap : CapPtr) : Prop :=
  obj.Contains (k.capAt cap).address ∧
    (doValidatePasswd obj (k.capAt cap).passwd s.1 addr s.2).1 ≠ .unknown

instance (k : Kernel O) (obj : Obj) (addr : ℕ) (s : Access × ℤ) (cap : CapPtr) :
    Decidable (k.Settles obj addr s cap) := inferInstanceAs (Decidable (_ ∧ _))

/-- The capabilities of an APD, as many as the headers say. -/
def Kernel.allCaps (k : Kernel O) (apd : ApdDesc) : List CapPtr :=
  cat (fun i =>
    let clist := (apd.clist i).address
    if k.IsNotClist clist then []
    else cat (fun j => [⟨clist, j⟩]) 0 (k.clist clist).nCaps) 0 apd.nApd.toNat

section Search
variable {k : Kernel O} {obj : Obj} {addr : ℕ} {s : Access × ℤ}

theorem validateCapStep_eq_none (clist : ℕ) (j : ℤ) :
    (validateCapStep k obj addr clist j s).2 = none ↔ ¬ k.Settles obj addr s ⟨clist, j⟩ := by
  unfold validateCapStep Kernel.Settles Kernel.capAt Obj.Contains InRange
  dsimp only
  split_ifs with hout hu
  · refine iff_of_true rfl fun hin => ?_
    omega
  · exact iff_of_true rfl fun hin => hin.2 hu
  · refine iff_of_false nofun (not_not.mpr ⟨?_, hu⟩)
    omega

theorem validateCapNoting_notes (clist : ℕ) (j : ℤ) (l : List CapPtr) :
    Notes (fun cap => decide (k.Settles obj addr s cap)) [⟨clist, j⟩] s l
      (validateCapNoting k obj addr clist j (s, l)) := by
  refine ⟨?_, ?_, fun h => validateCapStep_none h⟩
  · unfold validateCapNoting upTo
    dsimp only
    split_ifs <;> rfl
  · rw [List.forall_mem_singleton, decide_eq_false_iff_not]
    exact validateCapStep_eq_none clist j

/-- **What the search of an APD reads**: the capabilities up to the first that settles the
access. -/
theorem validateSearchNoting_notes (k : Kernel O) (apd : ApdDesc) (obj : Obj) (addr : ℕ)
    (s : Access × ℤ) :
    (validateSearchNoting k apd obj addr (s, [])).1.2
      = upTo (fun cap => decide (k.Settles obj addr s cap)) (k.allCaps apd) := by
  refine Notes.notes (searchUp_notes (fun i l => ?_) 0 apd.nApd.toNat [])
  dsimp only
  split_ifs
  · exact notes_nil _ s l
  · exact searchUp_notes (fun j l => validateCapNoting_notes _ j l) 0 _ l

/-- Apart from the notes it is the search of `do_validate_obj`. -/
theorem validateSearchNoting_eq (k : Kernel O) (apd : ApdDesc) (obj : Obj) (addr : ℕ)
    (s : Access × ℤ) (l : List CapPtr) :
    ((validateSearchNoting k apd obj addr (s, l)).1.1,
      (validateSearchNoting k apd obj addr (s, l)).2) = validateSearch k apd obj addr s := by
  refine searchUp_noting (fun i s l => ?_) 0 apd.nApd.toNat s l
  unfold validateSlotStep
  dsimp only
  split_ifs
  · rfl
  · exact searchUp_noting (fun j s l => rfl) 0 _ s l

/-- The loop over a Clist keeps to the object if the header does, or if the access is settled
before. -/
theorem forall_upTo_clist (k : Kernel O) (obj : Obj) (addr : ℕ) (s : Access × ℤ) (clist n : ℕ) :
    (∀ p ∈ upTo (fun cap => decide (k.Settles obj addr s cap))
        (cat (fun j => [(⟨clist, j⟩ : CapPtr)]) 0 n), k.CapInside p) ↔
      n ≤ k.room clist ∨
        ∃ j : ℤ, 0 ≤ j ∧ j < n ∧ j < k.room clist ∧ k.Settles obj addr s ⟨clist, j⟩ := by
  have hone : ∀ j : ℤ, upTo (fun cap => decide (k.Settles obj addr s cap)) [(⟨clist, j⟩ : CapPtr)]
      = [⟨clist, j⟩] := by
    intro j
    unfold upTo
    split_ifs <;> rfl
  rw [forall_upTo_cat]
  simp only [hone, List.forall_mem_singleton, decide_eq_false_iff_not, Int.zero_add]
  constructor
  · intro h
    by_contra hno
    push Not at hno
    obtain ⟨hroom, hsettles⟩ := hno
    -- the first capability without room is read, as none before it settles the access
    have hfirst := h (k.room clist) (Int.natCast_nonneg _) (by exact_mod_cast hroom)
      fun j h₀ h₁ => hsettles j h₀ (by omega) h₁
    rw [capInside_iff k clist (Int.natCast_nonneg _)] at hfirst
    exact lt_irrefl _ hfirst
  · intro h j h₀ h₁ hno
    rw [capInside_iff k clist h₀]
    rcases h with h | ⟨j', h₀', h₁', hroom, hsettles⟩
    · omega
    · by_contra hj
      exact hno j' h₀' (by omega) hsettles

/-- The headers of the Clists that the search of an APD comes to leave it in their objects. -/
def Kernel.Fits (k : Kernel O) (apd : ApdDesc) (obj : Obj) (addr : ℕ) (s : Access × ℤ) : Prop :=
  ∀ i : ℤ, 0 ≤ i → i < apd.nApd → ¬ k.IsNotClist (apd.clist i).address →
    (∀ i' : ℤ, 0 ≤ i' → i' < i → ¬ k.IsNotClist (apd.clist i').address →
      ∀ j : ℤ, 0 ≤ j → j < (k.clist (apd.clist i').address).nCaps →
        ¬ k.Settles obj addr s ⟨(apd.clist i').address, j⟩) →
    (k.clist (apd.clist i).address).nCaps ≤ k.room (apd.clist i).address ∨
      ∃ j : ℤ, 0 ≤ j ∧ j < (k.clist (apd.clist i).address).nCaps ∧
        j < k.room (apd.clist i).address ∧ k.Settles obj addr s ⟨(apd.clist i).address, j⟩

theorem forall_upTo_allCaps (k : Kernel O) (apd : ApdDesc) (obj : Obj) (addr : ℕ)
    (s : Access × ℤ) :
    (∀ p ∈ upTo (fun cap => decide (k.Settles obj addr s cap)) (k.allCaps apd), k.CapInside p) ↔
      k.Fits apd obj addr s := by
  have hslot : ∀ i : ℤ, (∀ x ∈ (if k.IsNotClist (apd.clist i).address then []
      else cat (fun j => [(⟨(apd.clist i).address, j⟩ : CapPtr)]) 0
        (k.clist (apd.clist i).address).nCaps),
        decide (k.Settles obj addr s x) = false) ↔
      (¬ k.IsNotClist (apd.clist i).address → ∀ j : ℤ, 0 ≤ j →
        j < (k.clist (apd.clist i).address).nCaps →
          ¬ k.Settles obj addr s ⟨(apd.clist i).address, j⟩) := by
    intro i
    split_ifs with hclist
    · exact iff_of_true nofun fun h => absurd hclist h
    · rw [imp_iff_right hclist]
      constructor
      · intro h j h₀ h₁
        refine of_decide_eq_false (h _ (mem_cat_of_mem (i := j) h₀ ?_ (List.mem_singleton_self _)))
        rwa [Int.zero_add]
      · intro h x hx
        obtain ⟨j, h₀, h₁, hxj⟩ := exists_of_mem_cat hx
        rw [List.mem_singleton] at hxj
        rw [hxj]
        rw [Int.zero_add] at h₁
        exact decide_eq_false (h j h₀ h₁)
  unfold Kernel.allCaps Kernel.Fits
  rw [forall_upTo_cat]
  dsimp only
  simp only [hslot, Int.zero_add]
  refine forall_congr' fun i => imp_congr_right fun h₀ => ?_
  rw [show i < (apd.nApd.toNat : ℤ) ↔ i < apd.nApd by omega]
  refine imp_congr_right fun h₁ => ?_
  by_cases hclist : k.IsNotClist (apd.clist i).address
  · rw [if_pos hclist]
    exact iff_of_true (fun _ => nofun) fun h => absurd hclist h
  · rw [if_neg hclist, forall_upTo_clist, imp_iff_right hclist]

end Search

/-- **What a search reads is in its object** just when the headers fit. -/
theorem capsRead_iff {k : Kernel O} {apd : ApdDesc} {v : Vcache O CapPtr}
    (hv : v.Holds fun _ info => info.obj ≠ none) (r : Request) :
    (∀ p ∈ capsRead k apd v r, k.CapInside p) ↔
      v.Answers r ∨ ∀ o, objectFind k r.addr = some o →
        k.Fits apd (k.obj o) r.addr (r.access, -1) := by
  obtain ⟨w, hit, hc, -, -, hanswers⟩ := hv.answers r
  unfold capsRead
  rw [hc]
  rcases hanswers with ⟨hyes, info, o, rfl, ho⟩ | ⟨hno, rfl⟩
  · dsimp only [Option.bind_some]
    rw [ho]
    exact iff_of_true nofun (Or.inl hyes)
  · rw [or_iff_right hno]
    dsimp only [Option.bind_none, Option.map_none, Option.getD_none]
    cases hfind : objectFind k r.addr with
    | none => exact iff_of_true nofun nofun
    | some o =>
      dsimp only
      rw [validateSearchNoting_notes, forall_upTo_allCaps]
      exact ⟨fun h o' ho' => Option.some.inj ho' ▸ h, fun h => h o rfl⟩

/-! ### Runs -/

/-- What happens to an APD and to its Clists. -/
inductive ClistOp (O : Type) where
  /-- An access is validated. -/
  | validate (r : Request)
  /-- `apd_get_stack` -/
  | getStack (size passwd : ℕ) (mem : Option (O × ObjInfo))
  /-- User programs write Clists. -/
  | clists (clist : ℕ → Clist)
  /-- Objects are changed in any other way. -/
  | objects (s : System O)
  /-- Slots of the APD are changed. -/
  | slots (apd : ApdDesc)
  | flush
  | flushAddr (addr : ℕ)

/-- The system, and an APD with its cache. -/
structure ClistState (O : Type) where
  sys : System O
  apd : ApdDesc
  cache : Vcache O CapPtr
  /-- A capability outside the object of its Clist has been read or written. -/
  outside : Bool

/-- Capabilities are read or written. -/
def ClistState.touch (s : ClistState O) (k : Kernel O) (caps : List CapPtr) : ClistState O :=
  { s with outside := s.outside || decide (¬ ∀ p ∈ caps, k.CapInside p) }

/-- One step.  Places are judged by the objects before it. -/
def clistStep [DecidableEq O] (pageSize : ℕ) (s : ClistState O) :
    ClistOp O → Option (ClistState O)
  | .validate r =>
    let k := s.sys.kernel
    (doValidateObj k s.apd s.cache r.addr r.access r.now r.t₁ r.t₂).map fun res =>
      { s with cache := res.1 }.touch k (capsRead k s.apd s.cache r)
  | .getStack size passwd mem =>
    let r := apdGetStack pageSize s.sys s.apd size passwd mem
    some ({ s with sys := r.2.2 }.touch s.sys.kernel r.2.1.toList)
  | .clists clist => some { s with sys := { s.sys with kernel := s.sys.kernel.withClists clist } }
  | .objects sys => some { s with sys }
  | .slots apd => some { s with apd }
  | .flush => some { s with cache := vcacheFlush s.cache }
  | .flushAddr addr => some { s with cache := vcacheFlushAddr s.cache addr }

/-- The headers leave a step in the objects: where the search of the APD is needed they fit,
and a stack that is made finds room for one capability more in the Clist of the first slot. -/
def Fitting [DecidableEq O] (pageSize : ℕ) (s : ClistState O) : ClistOp O → Prop
  | .validate r => s.cache.Answers r ∨ ∀ o, objectFind s.sys.kernel r.addr = some o →
      s.sys.kernel.Fits s.apd (s.sys.kernel.obj o) r.addr (r.access, -1)
  | .getStack size passwd mem => (objectCreate pageSize s.sys size passwd mem).2 = none ∨
      (s.sys.kernel.clist (s.apd.clist 0).address).nCaps
        < s.sys.kernel.room (s.apd.clist 0).address
  | _ => True

section Run
variable [DecidableEq O] {s : ClistState O}

theorem objectCreate_clist (pageSize : ℕ) (s : System O) (length passwd : ℕ)
    (mem : Option (O × ObjInfo)) :
    (objectCreate pageSize s length passwd mem).1.kernel.clist = s.kernel.clist := by
  have hadd : ∀ k addr, (objectAdd k mem addr length passwd).1.clist = k.clist := by
    intro k addr
    unfold objectAdd
    cases mem with
    | none => rfl
    | some m =>
      dsimp only
      split <;> rfl
  unfold objectCreate
  dsimp only
  split_ifs
  · rfl
  · have hkernel := hadd s.kernel (kmallocObj pageSize s.free length).1
    rcases hr : objectAdd s.kernel mem (kmallocObj pageSize s.free length).1 length passwd with
      ⟨k, _ | o⟩ <;> rw [hr] at hkernel <;> exact hkernel

/-- A stack is made inside the object just when there is room, or no object for the stack. -/
theorem apdGetStack_inside (pageSize : ℕ) (s : System O) (apd : ApdDesc) (size passwd : ℕ)
    (mem : Option (O × ObjInfo)) :
    (∀ p ∈ (apdGetStack pageSize s apd size passwd mem).2.1.toList, s.kernel.CapInside p) ↔
      (objectCreate pageSize s size passwd mem).2 = none ∨
        (s.kernel.clist (apd.clist 0).address).nCaps < s.kernel.room (apd.clist 0).address := by
  have hclist := objectCreate_clist pageSize s size passwd mem
  unfold apdGetStack
  rcases hcreate : objectCreate pageSize s size passwd mem with ⟨s', _ | stack⟩
  · exact iff_of_true nofun (Or.inl rfl)
  · rw [hcreate] at hclist
    rw [or_iff_right nofun]
    dsimp only [clistAutoadd]
    rw [Option.toList_some, List.forall_mem_singleton, hclist,
      capInside_iff _ _ (Int.natCast_nonneg _)]
    exact Nat.cast_lt

/-- Every step is taken, the cache stays in order, and what was outside remains so. -/
theorem clistStep_spec (pageSize : ℕ) (h : s.cache.Holds fun _ info => info.obj ≠ none)
    (op : ClistOp O) :
    ∃ s', clistStep pageSize s op = some s' ∧
      (s'.cache.Holds fun _ info => info.obj ≠ none) ∧
      (s'.outside = false ↔ s.outside = false ∧ Fitting pageSize s op) := by
  have htouch : ∀ {p q : Prop} [Decidable p], (p ↔ q) →
      ((s.outside || decide (¬ p)) = false ↔ s.outside = false ∧ q) := by
    intro p q _ hpq
    rw [← hpq, Bool.or_eq_false_iff, decide_eq_false_iff_not, not_not]
  cases op with
  | validate r =>
    obtain ⟨res, hres, hholds⟩ := h.validated s.sys.kernel s.apd r.addr r.access r.now r.t₁
      r.t₂
    exact ⟨_, by rw [clistStep, hres]; rfl, hholds, htouch (capsRead_iff h r)⟩
  | getStack size passwd mem =>
    exact ⟨_, rfl, h, htouch (apdGetStack_inside pageSize s.sys s.apd size passwd mem)⟩
  | clists clist => exact ⟨_, rfl, h, (and_iff_left trivial).symm⟩
  | objects sys => exact ⟨_, rfl, h, (and_iff_left trivial).symm⟩
  | slots apd => exact ⟨_, rfl, h, (and_iff_left trivial).symm⟩
  | flush => exact ⟨_, rfl, Vcache.Holds.flush _, (and_iff_left trivial).symm⟩
  | flushAddr addr =>
    exact ⟨_, rfl, (h.flushAddr addr).mono fun _ _ hP => hP.1, (and_iff_left trivial).symm⟩

theorem clistRun_spec (pageSize : ℕ) (ops : List (ClistOp O)) (s : ClistState O)
    (h : s.cache.Holds fun _ info => info.obj ≠ none) :
    ∃ s', run (clistStep pageSize) s ops = some s' ∧
      (s'.outside = false ↔
        s.outside = false ∧ Along (clistStep pageSize) (Fitting pageSize) s ops) := by
  obtain ⟨s', hs', -⟩ : ∃ s', run (clistStep pageSize) s ops = some s' ∧
      s'.cache.Holds fun _ info => info.obj ≠ none :=
    run_total (C := fun _ (s : ClistState O) => s.cache.Holds fun _ info => info.obj ≠ none)
      (G := fun _ => True) h (fun _ _ _ => trivial)
      (fun _ s op h _ => (clistStep_spec pageSize h op).imp fun s' hs' => ⟨hs'.1, hs'.2.1⟩) ops
      trivial
  refine ⟨s', hs', run_flag (I := fun s => s.cache.Holds fun _ info => info.obj ≠ none)
    (P := fun s => s.outside = false) (D := fun _ _ => True) (fun s op s₁ h _ hs₁ => ?_) ops s s' h
    (Along.of_forall fun _ _ => trivial) hs'⟩
  obtain ⟨s₂, hs₂, h₂⟩ := clistStep_spec pageSize h op
  obtain rfl := Option.some.inj (hs₁.symm.trans hs₂)
  exact h₂

/-- **When all that is read and written is in its object.**  Whatever the users write into
Clists and however many stacks are made, the capabilities that are read and written lie in the
objects of their Clists just when in every step the headers leave them there: a search of the
APD comes only to Clists whose objects have room for as many capabilities as the headers say,
or where the access is settled by one that has room, and for a stack there is room for one
more in the Clist of the first slot. -/
theorem clists_inside_iff (pageSize : ℕ) (sys : System O) (apd : ApdDesc)
    (ops : List (ClistOp O)) :
    ∃ s', run (clistStep pageSize) ⟨sys, apd, vcacheNew, false⟩ ops = some s' ∧
      (s'.outside = false ↔
        Along (clistStep pageSize) (Fitting pageSize) ⟨sys, apd, vcacheNew, false⟩ ops) := by
  obtain ⟨s', hs', hiff⟩ := clistRun_spec pageSize ops ⟨sys, apd, vcacheNew, false⟩
    holds_vcacheNew
  exact ⟨s', hs', hiff.trans (and_iff_right rfl)⟩

end Run

/-- A page with a Clist, and a page that is free. -/
def clistPage : System ℕ :=
  (objectCreate 0x1000 ⟨emptyKernel, freeInit 0x1000 (0x3000 - 0x1000)⟩ 0x1000 22
    (some (1, blankInfo))).1

/-- An APD with that Clist. -/
def pageApd : ApdDesc := ⟨fun _ => ⟨0x1000, 22⟩, 0, 1⟩

/-- The header of the Clist says that it has `n` capabilities. -/
def header (n : ℕ) : ClistOp ℕ := .clists fun _ => ⟨'c'.toNat, 1, n, fun _ => ⟨0x9000, 22⟩⟩

/-- The Clist is full, and a stack is made. -/
theorem clists_outside : ¬ ∀ (pageSize : ℕ) (sys : System ℕ) (apd : ApdDesc)
    (ops : List (ClistOp ℕ)) (s : ClistState ℕ),
    run (clistStep pageSize) ⟨sys, apd, vcacheNew, false⟩ ops = some s → s.outside = false := by
  intro h
  have hend : (run (clistStep 0x1000) ⟨clistPage, pageApd, vcacheNew, false⟩
      [header 255, .getStack 0x1000 33 (some (2, blankInfo))]).map ClistState.outside
        = some true := by
    decide +kernel
  obtain ⟨s, hrun, hs⟩ := Option.map_eq_some_iff.mp hend
  rw [h 0x1000 clistPage pageApd _ s hrun] at hs
  cases hs

/-- The header says that there is one capability more than a page has room for. -/
example : (run (clistStep 0x1000) ⟨clistPage, pageApd, vcacheNew, false⟩
    [header 256, .validate ⟨0x1000, mRead, 5, 5, 5⟩]).map ClistState.outside = some true := by
  decide +kernel

end Mungi
