import Mungi.Kernel
import Mungi.Lib.SearchLoop

/-!
# Validation

`do_validate_obj` decides whether an APD may access an address (`security.c`).
What the validation cache does not know is looked up: the capabilities of the APD
for the object are tried one after another, and each goes by the first of the
passwords of the object that it matches and that says something about the access.

## Main definitions

* `doValidatePasswdStd`, `doValidatePasswdPdx`, `doValidateObj` — the functions.
* `Kernel.candidates` — the capabilities of an APD for an object, in order.
* `Obj.Positive`, `Obj.Negative` — what a password says about an access.
* `Decider` — the first capability that says something.

## Main results

* `doValidatePasswdStd_spec` — what `do_validate_passwd_std` returns.
* `searchUp_candidates` — the loops over slots and capabilities are one search.
* `doValidateObj_orderRule` — **the first decisive capability decides.**
-/

namespace Mungi

open Cat SearchLoop

variable {O : Type}

/-- `validation_result_t` -/
inductive ValidationResult where
  | allowed
  | denied
  | unknown
  deriving DecidableEq

/-! ### The code -/

/-- `do_validate_passwd_std`: its result, and `*access`. -/
def doValidatePasswdStd (obj : Obj) (passwd : ℕ) (access : Access) : ValidationResult × Access :=
  (findUp (fun i =>
    if obj.info.passwd i ≠ passwd then none
    else
      let rights := obj.info.rights i
      if rights.Meets access ∧ rights.IsNot then some (.denied, access)
      else if rights.Covers access then some (.allowed, rights)
      else none) 0 obj.info.nCaps).getD (.unknown, access)

/-- `do_validate_passwd_pdx`: its result, and `*pdx_slot`. -/
def doValidatePasswdPdx (obj : Obj) (passwd proc : ℕ) (pdxSlot : ℤ) : ValidationResult × ℤ :=
  let pdx := obj.info.pdx
  (findUp (fun i =>
    if pdx.passwd i ≠ passwd then none
    else findUp (fun j => if pdx.entry j = proc then some (.allowed, i) else none) (pdx.nEntry i)
      (pdx.xEntry i - pdx.nEntry i).toNat) 0 obj.info.nPdx).getD (.unknown, pdxSlot)

/-- `do_validate_passwd`: its result, `*access` and `*pdx_slot`. -/
def doValidatePasswd (obj : Obj) (passwd : ℕ) (access : Access) (proc : ℕ) (pdxSlot : ℤ) :
    ValidationResult × Access × ℤ :=
  if ¬ access.IsPdx then
    let r := doValidatePasswdStd obj passwd access
    (r.1, r.2, pdxSlot)
  else
    let r := doValidatePasswdPdx obj passwd proc pdxSlot
    (r.1, access, r.2)

/-- The body of the inner loop of `do_validate_obj`, on capability `j` of a Clist; the
state is `access` and `pdx_slot`. -/
def validateCapStep (k : Kernel O) (obj : Obj) (addr clist : ℕ) (j : ℤ) (s : Access × ℤ) :
    (Access × ℤ) × Option (ValidationResult × CapPtr) :=
  let cap := (k.clist clist).caps j
  if cap.address < obj.base ∨ cap.address ≥ obj.limit then (s, none)
  else
    let r := doValidatePasswd obj cap.passwd s.1 addr s.2
    (r.2, if r.1 = .unknown then none else some (r.1, ⟨clist, j⟩))

/-- The body of the outer loop, on slot `i`. -/
def validateSlotStep (k : Kernel O) (apd : ApdDesc) (obj : Obj) (addr : ℕ) (i : ℤ)
    (s : Access × ℤ) : (Access × ℤ) × Option (ValidationResult × CapPtr) :=
  let clist := (apd.clist i).address
  if k.IsNotClist clist then (s, none)
  else searchUp (validateCapStep k obj addr clist) 0 (k.clist clist).nCaps s

/-- The search of the APD. -/
def validateSearch (k : Kernel O) (apd : ApdDesc) (obj : Obj) (addr : ℕ) (s : Access × ℤ) :
    (Access × ℤ) × Option (ValidationResult × CapPtr) :=
  searchUp (validateSlotStep k apd obj addr) 0 apd.nApd.toNat s

/-- What comes out when the cache has missed. -/
inductive Verdict (O : Type) where
  /-- No object, or no capability that says anything. -/
  | unknown
  | denied (cap : CapPtr)
  /-- The call of `vcache_add` says what is granted. -/
  | granted (g : Grant O CapPtr)

/-- `do_validate_obj` after the cache has missed. -/
def validateUncached (k : Kernel O) (apd : ApdDesc) (addr : ℕ) (access : Access) (pdxSlot : ℤ) :
    Verdict O :=
  match objectFind k addr with
  | none => .unknown
  | some o =>
    let obj := k.obj o
    match validateSearch k apd obj addr (access, pdxSlot) with
    | (s, some (.allowed, cap)) =>
      .granted
        { obj := o, base := obj.base, limit := obj.limit, access := s.1, cap,
          capAddress := (k.capAt cap).address, pdxSlot := s.2 }
    | (_, some (_, cap)) => .denied cap
    | (_, none) => .unknown

/-- `do_validate_obj`: the cache, the object and `*rcap`.  The clock is read once by
`vcache_check` and twice by `vcache_add`. -/
def doValidateObj (k : Kernel O) (apd : ApdDesc) (v : Vcache O CapPtr) (addr : ℕ)
    (access : Access) (now t₁ t₂ : ℕ) : Option (Vcache O CapPtr × Option O × Option CapPtr) :=
  (vcacheCheck v addr access now).bind fun r =>
    let rcap := r.2.bind VcacheInfo.cap
    match r.2.bind VcacheInfo.obj with
    | some o => some (r.1, some o, rcap)
    | none =>
      match validateUncached k apd addr access ((r.2.map VcacheInfo.pdxSlot).getD (-1)) with
      | .unknown => some (r.1, none, rcap)
      | .denied cap => some (r.1, none, some cap)
      | .granted g => (vcacheAdd r.1 g t₁ t₂).map fun v => (v, some g.obj, some g.cap)

/-! ### What a password says -/

/-- Rights that forbid an access: some of it, and negative. -/
def Access.Forbids (rights access : Access) : Prop := rights.Meets access ∧ rights.IsNot

instance (rights access : Access) : Decidable (rights.Forbids access) :=
  inferInstanceAs (Decidable (_ ∧ _))

/-- Rights that say something about an access. -/
def Access.Decides (rights access : Access) : Prop := rights.Forbids access ∨ rights.Covers access

instance (rights access : Access) : Decidable (rights.Decides access) :=
  inferInstanceAs (Decidable (_ ∨ _))

/-- Entry `i` of the password table is the first one that matches a password and says
something about an access. -/
structure Obj.FirstDecisive (obj : Obj) (passwd : ℕ) (access : Access) (i : ℤ) : Prop where
  nonneg : 0 ≤ i
  lt : i < obj.info.nCaps
  passwd_eq : obj.info.passwd i = passwd
  decides : (obj.info.rights i).Decides access
  first : ∀ j, 0 ≤ j → j < i → obj.info.passwd j = passwd →
    ¬ (obj.info.rights j).Decides access

/-- The first decisive entry for the password is negative and overlaps the access. -/
def Obj.Negative (obj : Obj) (passwd : ℕ) (access : Access) : Prop :=
  ∃ i, obj.FirstDecisive passwd access i ∧ (obj.info.rights i).Forbids access

/-- The first decisive entry for the password includes the whole access, and is not
negative for it. -/
def Obj.Positive (obj : Obj) (passwd : ℕ) (access : Access) : Prop :=
  ∃ i, obj.FirstDecisive passwd access i ∧ ¬ (obj.info.rights i).Forbids access ∧
    (obj.info.rights i).Covers access

theorem Obj.FirstDecisive.unique {obj : Obj} {passwd : ℕ} {access : Access} {i j : ℤ}
    (hi : obj.FirstDecisive passwd access i) (hj : obj.FirstDecisive passwd access j) : i = j := by
  rcases lt_trichotomy i j with h | h | h
  · exact absurd hi.decides (hj.first i hi.nonneg h hi.passwd_eq)
  · exact h
  · exact absurd hj.decides (hi.first j hj.nonneg h hj.passwd_eq)

theorem Obj.Positive.not_negative {obj : Obj} {passwd : ℕ} {access : Access}
    (h : obj.Positive passwd access) : ¬ obj.Negative passwd access := by
  rintro ⟨j, hj, hforbid⟩
  obtain ⟨i, hi, hno, -⟩ := h
  exact hno (hi.unique hj ▸ hforbid)

/-- If an entry says something, there is a first one that does. -/
theorem Obj.exists_firstDecisive {obj : Obj} {passwd : ℕ} {access : Access} {i : ℤ} (h₀ : 0 ≤ i)
    (h₁ : i < obj.info.nCaps) (hp : obj.info.passwd i = passwd)
    (hd : (obj.info.rights i).Decides access) : ∃ j, obj.FirstDecisive passwd access j := by
  let f : ℤ → Option ℤ := fun j =>
    if obj.info.passwd j = passwd ∧ (obj.info.rights j).Decides access then some j else none
  cases hf : findUp f 0 obj.info.nCaps with
  | none =>
    have := findUp_eq_none.mp hf i h₀ (by rwa [Int.zero_add])
    rw [show f i = some i from if_pos ⟨hp, hd⟩] at this
    cases this
  | some j =>
    obtain ⟨j', hj₀, hj₁, hj, hno⟩ := findUp_eq_some.mp hf
    obtain ⟨⟨hjp, hjd⟩, -⟩ := Option.ite_none_right_eq_some.mp hj
    refine ⟨j', hj₀, by rwa [Int.zero_add] at hj₁, hjp, hjd, fun a ha₀ ha₁ hap had => ?_⟩
    have := hno a ha₀ ha₁
    rw [show f a = some a from if_pos ⟨hap, had⟩] at this
    cases this

/-- The loop body of `do_validate_passwd_std` goes on just past the entries that say
nothing. -/
theorem passwdStep_eq_none {obj : Obj} {passwd : ℕ} {access : Access} {i : ℤ} :
    (if obj.info.passwd i ≠ passwd then none
      else if (obj.info.rights i).Meets access ∧ (obj.info.rights i).IsNot then
        some (ValidationResult.denied, access)
      else if (obj.info.rights i).Covers access then some (.allowed, obj.info.rights i)
      else none) = none ↔
    (obj.info.passwd i = passwd → ¬ (obj.info.rights i).Decides access) := by
  unfold Access.Decides Access.Forbids
  split_ifs <;> simp_all

/-- **`do_validate_passwd_std`** goes by the first decisive entry. -/
theorem doValidatePasswdStd_spec (obj : Obj) (passwd : ℕ) (access : Access) :
    (∃ i, obj.FirstDecisive passwd access i ∧ doValidatePasswdStd obj passwd access =
      if (obj.info.rights i).Forbids access then (.denied, access)
      else (.allowed, obj.info.rights i)) ∨
    (¬ (∃ i, obj.FirstDecisive passwd access i) ∧
      doValidatePasswdStd obj passwd access = (.unknown, access)) := by
  unfold doValidatePasswdStd
  cases hf : findUp _ 0 obj.info.nCaps with
  | none =>
    rw [findUp_eq_none] at hf
    refine Or.inr ⟨?_, rfl⟩
    rintro ⟨i, hi⟩
    exact passwdStep_eq_none.mp (hf i hi.nonneg (by rw [Int.zero_add]; exact hi.lt)) hi.passwd_eq
      hi.decides
  | some r =>
    obtain ⟨i, h₁, h₂, hi, hno⟩ := findUp_eq_some.mp hf
    dsimp only at hi
    split_ifs at hi with hp hforbid hcov
    · refine Or.inl ⟨i, ⟨h₁, by rwa [Int.zero_add] at h₂, not_not.mp hp, Or.inl hforbid,
        fun j hj₁ hj₂ => passwdStep_eq_none.mp (hno j hj₁ hj₂)⟩, ?_⟩
      rw [if_pos (show (obj.info.rights i).Forbids access from hforbid)]
      exact (Option.some.inj hi).symm
    · refine Or.inl ⟨i, ⟨h₁, by rwa [Int.zero_add] at h₂, not_not.mp hp, Or.inr hcov,
        fun j hj₁ hj₂ => passwdStep_eq_none.mp (hno j hj₁ hj₂)⟩, ?_⟩
      rw [if_neg (show ¬ (obj.info.rights i).Forbids access from hforbid)]
      exact (Option.some.inj hi).symm

theorem doValidatePasswdStd_allowed {obj : Obj} {passwd : ℕ} {access : Access} :
    (doValidatePasswdStd obj passwd access).1 = .allowed ↔ obj.Positive passwd access := by
  rcases doValidatePasswdStd_spec obj passwd access with ⟨i, hi, h⟩ | ⟨hno, h⟩
  · rw [h]
    by_cases hf : (obj.info.rights i).Forbids access
    · rw [if_pos hf]
      refine iff_of_false nofun ?_
      rintro ⟨j, hj, hnf, -⟩
      exact hnf (hi.unique hj ▸ hf)
    · rw [if_neg hf]
      exact iff_of_true rfl ⟨i, hi, hf, hi.decides.resolve_left hf⟩
  · rw [h]
    exact iff_of_false nofun fun ⟨i, hi, _⟩ => hno ⟨i, hi⟩

theorem doValidatePasswdStd_denied {obj : Obj} {passwd : ℕ} {access : Access} :
    (doValidatePasswdStd obj passwd access).1 = .denied ↔ obj.Negative passwd access := by
  rcases doValidatePasswdStd_spec obj passwd access with ⟨i, hi, h⟩ | ⟨hno, h⟩
  · rw [h]
    by_cases hf : (obj.info.rights i).Forbids access
    · rw [if_pos hf]
      exact iff_of_true rfl ⟨i, hi, hf⟩
    · rw [if_neg hf]
      refine iff_of_false nofun ?_
      rintro ⟨j, hj, hforbid⟩
      exact hf (hi.unique hj ▸ hforbid)
  · rw [h]
    exact iff_of_false nofun fun ⟨i, hi, _⟩ => hno ⟨i, hi⟩

/-- Nothing changes but on leaving the loop. -/
theorem doValidatePasswd_unknown {obj : Obj} {passwd : ℕ} {access : Access} {proc : ℕ}
    {pdxSlot : ℤ} (h : (doValidatePasswd obj passwd access proc pdxSlot).1 = .unknown) :
    (doValidatePasswd obj passwd access proc pdxSlot).2 = (access, pdxSlot) := by
  unfold doValidatePasswd at h ⊢
  by_cases hp : access.IsPdx
  · rw [if_neg (not_not.mpr hp)] at h ⊢
    unfold doValidatePasswdPdx at h ⊢
    dsimp only at h ⊢
    cases hf : findUp _ 0 obj.info.nPdx with
    | none => rfl
    | some r =>
      obtain ⟨i, -, -, hi, -⟩ := findUp_eq_some.mp hf
      split_ifs at hi
      obtain ⟨j, -, -, hj, -⟩ := findUp_eq_some.mp hi
      split_ifs at hj
      rw [hf, ← Option.some.inj hj] at h
      cases h
  · rw [if_pos hp] at h ⊢
    rcases doValidatePasswdStd_spec obj passwd access with ⟨i, -, heq⟩ | ⟨-, heq⟩
    · rw [heq] at h
      split_ifs at h
    · rw [heq]

/-! ### The search of an APD -/

/-- The capabilities of an APD that lie in an object, in the order of the search. -/
def Kernel.candidates (k : Kernel O) (apd : ApdDesc) (obj : Obj) : List CapPtr :=
  cat (fun i =>
    let clist := (apd.clist i).address
    if k.IsNotClist clist then []
    else cat (fun j => if obj.Contains ((k.clist clist).caps j).address then [⟨clist, j⟩] else [])
      0 (k.clist clist).nCaps) 0 apd.nApd.toNat

/-- What the search makes of one capability. -/
def Kernel.verdictOf (k : Kernel O) (obj : Obj) (addr : ℕ) (s : Access × ℤ) (cap : CapPtr) :
    Option ((Access × ℤ) × ValidationResult × CapPtr) :=
  let r := doValidatePasswd obj (k.capAt cap).passwd s.1 addr s.2
  if r.1 = .unknown then none else some (r.2, r.1, cap)

theorem validateCapStep_map (k : Kernel O) (obj : Obj) (addr : ℕ) (s : Access × ℤ) (clist : ℕ)
    (j : ℤ) :
    ((validateCapStep k obj addr clist j s).2.map fun b =>
        ((validateCapStep k obj addr clist j s).1, b))
      = if obj.Contains ((k.clist clist).caps j).address then k.verdictOf obj addr s ⟨clist, j⟩
        else none := by
  unfold validateCapStep Kernel.verdictOf
  dsimp only
  by_cases hin : obj.Contains ((k.clist clist).caps j).address
  · obtain ⟨h₁, h₂⟩ := hin
    rw [if_neg (not_or.mpr ⟨not_lt.mpr h₁, not_le.mpr h₂⟩),
      if_pos (show obj.Contains _ from ⟨h₁, h₂⟩)]
    by_cases hr : (doValidatePasswd obj ((k.clist clist).caps j).passwd s.1 addr s.2).1 = .unknown
    · rw [if_pos hr, if_pos (show (doValidatePasswd obj (k.capAt ⟨clist, j⟩).passwd _ _ _).1 = _
        from hr)]
      rfl
    · rw [if_neg hr, if_neg (show ¬ (doValidatePasswd obj (k.capAt ⟨clist, j⟩).passwd _ _ _).1 = _
        from hr)]
      rfl
  · rw [if_neg hin, if_pos]
    · rfl
    · by_contra hno
      exact hin ⟨not_lt.mp (not_or.mp hno).1, not_le.mp (not_or.mp hno).2⟩

theorem validateCapStep_none {k : Kernel O} {obj : Obj} {addr clist : ℕ} {s : Access × ℤ} {j : ℤ}
    (h : (validateCapStep k obj addr clist j s).2 = none) :
    (validateCapStep k obj addr clist j s).1 = s := by
  unfold validateCapStep at h ⊢
  dsimp only at h ⊢
  split_ifs at h ⊢ with h₁ h₂
  · rfl
  · exact doValidatePasswd_unknown h₂

section Candidates
variable {σ β : Type} {f : ℕ → ℤ → σ → σ × Option β} {g : CapPtr → Option (σ × β)} {s : σ}

/-- The loop over a Clist, with a body that leaves the state alone unless it leaves the
loop. -/
theorem searchUp_clist (k : Kernel O) (obj : Obj)
    (hf : ∀ clist j, ((f clist j s).2.map fun b => ((f clist j s).1, b))
      = if obj.Contains ((k.clist clist).caps j).address then g ⟨clist, j⟩ else none)
    (hnone : ∀ clist j, (f clist j s).2 = none → (f clist j s).1 = s) (clist n : ℕ) :
    searchUp (f clist) 0 n s
      = ended s ((cat (fun j => if obj.Contains ((k.clist clist).caps j).address then
          [(⟨clist, j⟩ : CapPtr)] else []) 0 n).findSome? g) := by
  rw [searchUp_eq_findUp (hnone clist), ← findUp_cat]
  congr 1
  refine findUp_congr fun j _ _ => ?_
  rw [hf]
  split_ifs
  · rw [List.findSome?_singleton]
  · rfl

/-- **The loops over slots and capabilities are one search** of the candidates. -/
theorem searchUp_candidates (k : Kernel O) (apd : ApdDesc) (obj : Obj)
    (hf : ∀ clist j, ((f clist j s).2.map fun b => ((f clist j s).1, b))
      = if obj.Contains ((k.clist clist).caps j).address then g ⟨clist, j⟩ else none)
    (hnone : ∀ clist j, (f clist j s).2 = none → (f clist j s).1 = s) :
    searchUp (fun i s =>
        let clist := (apd.clist i).address
        if k.IsNotClist clist then (s, none)
        else searchUp (f clist) 0 (k.clist clist).nCaps s) 0 apd.nApd.toNat s
      = ended s ((k.candidates apd obj).findSome? g) := by
  have hslot := searchUp_clist k obj hf hnone
  rw [searchUp_eq_findUp, Kernel.candidates, ← findUp_cat]
  · congr 1
    refine findUp_congr fun i _ _ => ?_
    dsimp only
    split_ifs with hclist
    · rfl
    · rw [hslot]
      cases List.findSome? _ _ <;> rfl
  · intro i h
    dsimp only at h ⊢
    split_ifs at h ⊢ with hclist
    · rfl
    · rw [hslot] at h ⊢
      cases hfind : List.findSome? _ _ with
      | none => rfl
      | some r => rw [hfind] at h; cases h

end Candidates

theorem validateSearch_eq (k : Kernel O) (apd : ApdDesc) (obj : Obj) (addr : ℕ) (s : Access × ℤ) :
    validateSearch k apd obj addr s
      = ended s ((k.candidates apd obj).findSome? (k.verdictOf obj addr s)) :=
  searchUp_candidates k apd obj (validateCapStep_map k obj addr s) fun _ _ => validateCapStep_none

/-! ### The order rule -/

/-- A password says something about an access. -/
def Obj.Decisive (obj : Obj) (passwd : ℕ) (access : Access) : Prop :=
  obj.Positive passwd access ∨ obj.Negative passwd access

/-- The first capability of an APD for an object, in the order of slots and indices,
whose password says something about an access. -/
def Decider (k : Kernel O) (apd : ApdDesc) (obj : Obj) (access : Access) (cap : CapPtr) : Prop :=
  ∃ l₁ l₂, k.candidates apd obj = l₁ ++ cap :: l₂ ∧
    obj.Decisive (k.capAt cap).passwd access ∧
    ∀ cap' ∈ l₁, ¬ obj.Decisive (k.capAt cap').passwd access

theorem Obj.FirstDecisive.decisive {obj : Obj} {passwd : ℕ} {access : Access} {i : ℤ}
    (h : obj.FirstDecisive passwd access i) : obj.Decisive passwd access := by
  by_cases hf : (obj.info.rights i).Forbids access
  · exact Or.inr ⟨i, h, hf⟩
  · exact Or.inl ⟨i, h, hf, h.decides.resolve_left hf⟩

theorem Decider.mem {k : Kernel O} {apd : ApdDesc} {obj : Obj} {access : Access} {cap : CapPtr}
    (h : Decider k apd obj access cap) : cap ∈ k.candidates apd obj := by
  obtain ⟨l₁, l₂, hlist, -⟩ := h
  rw [hlist]
  simp

theorem Decider.unique {k : Kernel O} {apd : ApdDesc} {obj : Obj} {access : Access}
    {cap cap' : CapPtr} (h : Decider k apd obj access cap) (h' : Decider k apd obj access cap') :
    cap = cap' := by
  obtain ⟨l₁, l₂, hlist, hd, hno⟩ := h
  obtain ⟨l₁', l₂', hlist', hd', hno'⟩ := h'
  rw [hlist] at hlist'
  rcases List.append_eq_append_iff.mp hlist' with ⟨m, rfl, hm⟩ | ⟨m, rfl, hm⟩
  · cases m with
    | nil => exact (List.cons.inj hm).1
    | cons a m =>
      obtain rfl := (List.cons.inj hm).1
      exact absurd hd (hno' cap (by simp))
  · cases m with
    | nil => exact (List.cons.inj hm).1.symm
    | cons a m =>
      obtain rfl := (List.cons.inj hm).1
      exact absurd hd' (hno cap' (by simp))

theorem verdictOf_std {k : Kernel O} {obj : Obj} {addr : ℕ} {access : Access} {pdxSlot : ℤ}
    (hp : ¬ access.IsPdx) (cap : CapPtr) :
    k.verdictOf obj addr (access, pdxSlot) cap
      = if (doValidatePasswdStd obj (k.capAt cap).passwd access).1 = .unknown then none
        else some (((doValidatePasswdStd obj (k.capAt cap).passwd access).2, pdxSlot),
          (doValidatePasswdStd obj (k.capAt cap).passwd access).1, cap) := by
  unfold Kernel.verdictOf doValidatePasswd
  rw [if_pos hp]

theorem doValidatePasswdStd_unknown {obj : Obj} {passwd : ℕ} {access : Access} :
    (doValidatePasswdStd obj passwd access).1 = .unknown ↔ ¬ obj.Decisive passwd access := by
  unfold Obj.Decisive
  rw [← doValidatePasswdStd_allowed, ← doValidatePasswdStd_denied]
  cases (doValidatePasswdStd obj passwd access).1 <;> simp

/-- What `do_validate_obj` makes of an access other than a PDX call, once the cache has
missed. -/
inductive StdOutcome (k : Kernel O) (apd : ApdDesc) (addr : ℕ) (access : Access) (pdxSlot : ℤ) :
    Verdict O → Prop where
  | noObject (absent : objectFind k addr = none) : StdOutcome k apd addr access pdxSlot .unknown
  | noCap (o : O) (found : objectFind k addr = some o)
      (silent : ∀ cap ∈ k.candidates apd (k.obj o),
        ¬ (k.obj o).Decisive (k.capAt cap).passwd access) :
      StdOutcome k apd addr access pdxSlot .unknown
  | denied (o : O) (cap : CapPtr) (found : objectFind k addr = some o)
      (decider : Decider k apd (k.obj o) access cap)
      (negative : (k.obj o).Negative (k.capAt cap).passwd access) :
      StdOutcome k apd addr access pdxSlot (.denied cap)
  | granted (o : O) (cap : CapPtr) (i : ℤ) (found : objectFind k addr = some o)
      (decider : Decider k apd (k.obj o) access cap)
      (first : (k.obj o).FirstDecisive (k.capAt cap).passwd access i)
      (allows : ¬ ((k.obj o).info.rights i).Forbids access)
      (covers : ((k.obj o).info.rights i).Covers access) :
      StdOutcome k apd addr access pdxSlot (.granted ⟨o, (k.obj o).base, (k.obj o).limit,
        (k.obj o).info.rights i, cap, (k.capAt cap).address, pdxSlot⟩)

theorem validateUncached_std (k : Kernel O) (apd : ApdDesc) (addr : ℕ) {access : Access}
    (hp : ¬ access.IsPdx) (pdxSlot : ℤ) :
    StdOutcome k apd addr access pdxSlot (validateUncached k apd addr access pdxSlot) := by
  unfold validateUncached
  cases hfind : objectFind k addr with
  | none => exact .noObject hfind
  | some o =>
    dsimp only
    rw [validateSearch_eq]
    cases hs : (k.candidates apd (k.obj o)).findSome?
        (k.verdictOf (k.obj o) addr (access, pdxSlot)) with
    | none =>
      refine .noCap o hfind fun cap hcap => ?_
      have hnone := List.findSome?_eq_none_iff.mp hs cap hcap
      rw [verdictOf_std hp, ite_eq_left_iff] at hnone
      exact doValidatePasswdStd_unknown.mp (by_contra fun h => nomatch hnone h)
    | some r =>
      obtain ⟨l₁, cap, l₂, hlist, hcap, hno⟩ := List.findSome?_eq_some_iff.mp hs
      rw [verdictOf_std hp] at hcap
      split_ifs at hcap with hu
      obtain rfl := Option.some.inj hcap
      have hdec : Decider k apd (k.obj o) access cap := by
        refine ⟨l₁, l₂, hlist, not_not.mp (mt doValidatePasswdStd_unknown.mpr hu), fun c hc => ?_⟩
        have hnone := hno c hc
        rw [verdictOf_std hp, ite_eq_left_iff] at hnone
        exact doValidatePasswdStd_unknown.mp (by_contra fun h => nomatch hnone h)
      rcases doValidatePasswdStd_spec (k.obj o) (k.capAt cap).passwd access with
        ⟨i, hi, heq⟩ | ⟨-, heq⟩
      · by_cases hf : ((k.obj o).info.rights i).Forbids access
        · rw [heq, if_pos hf]
          exact .denied o cap hfind hdec ⟨i, hi, hf⟩
        · rw [heq, if_neg hf]
          exact .granted o cap i hfind hdec hi hf (hi.decides.resolve_left hf)
      · exact absurd (by rw [heq]) hu

/-- `do_validate_obj` always ends, and on a miss as the search ends. -/
theorem doValidateObj_miss (k : Kernel O) (apd : ApdDesc) {v v' : Vcache O CapPtr} {addr : ℕ}
    {access : Access} {now : ℕ} (hmiss : vcacheCheck v addr access now = some (v', none))
    (t₁ t₂ : ℕ) :
    ∃ w, doValidateObj k apd v addr access now t₁ t₂
      = match validateUncached k apd addr access (-1) with
        | .unknown => some (v', none, none)
        | .denied cap => some (v', none, some cap)
        | .granted g => some (w, some g.obj, some g.cap) := by
  unfold doValidateObj
  rw [hmiss, Option.bind_some]
  dsimp only [Option.bind_none, Option.map_none, Option.getD_none]
  cases validateUncached k apd addr access (-1) with
  | unknown => exact ⟨v', rfl⟩
  | denied cap => exact ⟨v', rfl⟩
  | granted g =>
    obtain ⟨slot, -, hadd⟩ := vcacheAdd_spec v' g t₁ t₂
    exact ⟨_, by dsimp only; rw [hadd]; rfl⟩

theorem not_isPdx_of_owner {access : Access} (h : mOwner.Covers access) : ¬ access.IsPdx :=
  fun hp => absurd (h.isPdx hp) (by decide)

/-- **The first decisive capability decides.**  When the cache misses, an access that
asks for some of reading, writing, executing and destroying is granted on the object
that contains the address just when the first capability in the order of slots and
indices whose password says something about the access is positive; and `*rcap` is
that capability. -/
theorem doValidateObj_orderRule {k : Kernel O} (hk : k.Ordered) (apd : ApdDesc)
    (v v' : Vcache O CapPtr) (addr : ℕ) {access : Access} (hown : mOwner.Covers access)
    (now t₁ t₂ : ℕ) (hmiss : vcacheCheck v addr access now = some (v', none)) :
    ∃ w res rcap, doValidateObj k apd v addr access now t₁ t₂ = some (w, res, rcap) ∧
      (∀ o, res = some o ↔ o ∈ k.objtable.toList ∧ (k.obj o).Contains addr ∧
        ∃ cap, Decider k apd (k.obj o) access cap ∧
          (k.obj o).Positive (k.capAt cap).passwd access) ∧
      ∀ o, res = some o → ∃ cap, rcap = some cap ∧ Decider k apd (k.obj o) access cap := by
  obtain ⟨w, hw⟩ := doValidateObj_miss k apd hmiss t₁ t₂
  have hout := validateUncached_std k apd addr (not_isPdx_of_owner hown) (-1)
  rw [hw]
  simp only [← and_assoc (a := _ ∈ k.objtable.toList), ← hk.objectFind_iff]
  generalize validateUncached k apd addr access (-1) = verdict at hout
  cases hout with
  | noObject absent =>
    refine ⟨_, _, _, rfl, fun o => iff_of_false nofun ?_, nofun⟩
    rintro ⟨found, -⟩
    rw [absent] at found
    cases found
  | noCap o found silent =>
    refine ⟨_, _, _, rfl, fun o' => iff_of_false nofun ?_, nofun⟩
    rintro ⟨found', cap, hdec, hpos⟩
    obtain rfl := Option.some.inj (found.symm.trans found')
    exact silent cap hdec.mem (Or.inl hpos)
  | denied o cap found decider negative =>
    refine ⟨_, _, _, rfl, fun o' => iff_of_false nofun ?_, nofun⟩
    rintro ⟨found', cap', hdec, hpos⟩
    obtain rfl := Option.some.inj (found.symm.trans found')
    exact hpos.not_negative (hdec.unique decider ▸ negative)
  | granted o cap i found decider first allows covers =>
    refine ⟨_, _, _, rfl, fun o' => ⟨?_, ?_⟩, ?_⟩
    · rintro ⟨⟩
      exact ⟨found, cap, decider, i, first, allows, covers⟩
    · rintro ⟨found', -⟩
      exact found.symm.trans found'
    · rintro o' ⟨⟩
      exact ⟨cap, rfl, decider⟩

/-! ### A negative capability in front of a positive one -/

/-- An object with one password that forbids writing and one that allows it. -/
def sharedObj : Obj where
  base := 0x1000
  limit := 0x3000
  info :=
    { length := 0x2000, nCaps := 2, nPdx := 0
      passwd := fun i => if i = 0 then 11 else if i = 1 then 22 else 0
      rights := fun i => if i = 0 then mNot ||| mWrite else if i = 1 then mRead ||| mWrite else 0
      pdx := ⟨fun _ => .null, fun _ => 0, fun _ => 0, fun _ => 0, fun _ => 0⟩ }

/-- A kernel with that object alone, and a Clist with a capability for each password. -/
def sharedKernel : Kernel ℕ where
  btOrder := 255
  pageWord := fun count isleaf => count.toNat + if isleaf then 2 ^ 32 else 0
  obj := fun _ => sharedObj
  clist := fun _ => ⟨'c'.toNat, 1, 2, fun i => ⟨0x1000, if i = 0 then 11 else 22⟩⟩
  objtable := ⟨1, .page ⟨0, 0, true, fun _ => 0, fun _ => .obj 1⟩, ⟨64, 1, 0, fun _ => 1⟩⟩

/-- An APD with that Clist. -/
def sharedApd : ApdDesc := ⟨fun _ => ⟨0x5000, 0⟩, 0, 1⟩

theorem sharedKernel_ordered : sharedKernel.Ordered := by
  refine ⟨⟨127, by omega, rfl⟩, ⟨⟨0, rfl, ⟨rfl, fun _ _ _ => ⟨_, rfl⟩⟩, by decide, by decide,
    by decide⟩, ⟨fun i h₁ h₂ => ?_, fun i h₁ h₂ => trivial⟩, by decide⟩,
    List.pairwise_singleton ..⟩
  change i < 0 at h₂
  omega

theorem doValidateObj_orderRule_sharedKernel :
    ∃ w res rcap, doValidateObj sharedKernel sharedApd vcacheNew 0x2000 mRead 5 5 5
        = some (w, res, rcap) ∧
      (∀ o, res = some o ↔ o ∈ sharedKernel.objtable.toList ∧ (sharedKernel.obj o).Contains 0x2000 ∧
        ∃ cap, Decider sharedKernel sharedApd (sharedKernel.obj o) mRead cap ∧
          (sharedKernel.obj o).Positive (sharedKernel.capAt cap).passwd mRead) ∧
      ∀ o, res = some o → ∃ cap, rcap = some cap ∧
        Decider sharedKernel sharedApd (sharedKernel.obj o) mRead cap :=
  doValidateObj_orderRule sharedKernel_ordered sharedApd vcacheNew vcacheNew 0x2000 (by decide)
    5 5 5 rfl

end Mungi
