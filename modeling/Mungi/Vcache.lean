import Mungi.Lib.ForLoop
import Mungi.Lib.Runs
import Mungi.Words

/-!
# The validation cache

Every APD has a validation cache, a table of sixteen address ranges with the
rights the APD has there (`vcache.c`).  It is kept in two parallel arrays, of
which flushing and expiry clear one only, and a range is empty when its base is
`NULL`.

Accesses outside the arrays are modelled: an operation that makes one has no
result.  `assert` prints a message and enters the debugger, from which the kernel
goes on, so assertions have no effect here.  The cache does not look into objects
and capabilities, and is the same for all types of pointers to them.

## Main definitions

* `Vcache`, `vcacheNew` — the cache, and as it is made.
* `vcacheFlush`, `vcacheFlushAddr`, `vcacheCheck`, `vcacheAdd` — its operations.
* `Vcache.Holds` — the entries that are not empty have a property.

## Main results

* `vcacheCheck_spec`, `vcacheAdd_spec` — what the operations do to the entries.
* `vcacheCheck_recent` — **what the cache hands out was put in not long ago.**
-/

namespace Mungi

open ForLoop Runs

/-- `VCACHE_SIZE` -/
def vcacheSize : ℤ := 16

/-- `VCACHE_TIMEOUT` -/
def vcacheTimeout : ℕ := 60

/-- `IN_RANGE` -/
def InRange (addr base limit : ℕ) : Prop := base ≤ addr ∧ addr < limit

instance (addr base limit : ℕ) : Decidable (InRange addr base limit) :=
  inferInstanceAs (Decidable (_ ∧ _))

/-- `struct vcache_entry` -/
structure VcacheEntry where
  base : ℕ
  limit : ℕ
  deriving DecidableEq

/-- A cleared entry. -/
def VcacheEntry.empty : VcacheEntry := ⟨0, 0⟩

/-- `struct vcache_info`; pointers are `none` where they are `NULL`. -/
structure VcacheInfo (O C : Type) where
  timestamp : ℕ
  rights : Access
  obj : Option O
  cap : Option C
  pdxSlot : ℤ

/-- `struct vcache` -/
structure Vcache (O C : Type) where
  /-- The entry that matched last. -/
  last : ℤ
  cacheObj : ℤ → VcacheEntry
  cacheInf : ℤ → VcacheInfo O C

variable {O C : Type}

/-- An index within the arrays. -/
def InBounds (i : ℤ) : Prop := 0 ≤ i ∧ i < vcacheSize

instance (i : ℤ) : Decidable (InBounds i) := inferInstanceAs (Decidable (_ ∧ _))

/-! ### The code -/

/-- `vcache_new` -/
def vcacheNew : Vcache O C :=
  { last := 0, cacheObj := fun _ => .empty, cacheInf := fun _ => ⟨0, 0, none, none, 0⟩ }

/-- `vcache_flush` -/
def vcacheFlush (v : Vcache O C) : Vcache O C :=
  { v with last := 0, cacheObj := fun _ => .empty }

/-- `vcache_flush_addr` -/
def vcacheFlushAddr (v : Vcache O C) (addr : ℕ) : Vcache O C :=
  { v with
    cacheObj := forUp (fun i a => Function.update a i
        (if InRange addr (a i).base (a i).limit then .empty else a i)) 0 vcacheSize.toNat
      v.cacheObj }

/-- The first test of `check_entry`: the entry is about the address. -/
def VcacheEntry.Matches (entry : VcacheEntry) (addr : ℕ) (access : Access) : Prop :=
  if access.IsPdx then addr = entry.base ∧ addr = entry.limit
  else InRange addr entry.base entry.limit

instance (entry : VcacheEntry) (addr : ℕ) (access : Access) :
    Decidable (entry.Matches addr access) := by
  unfold VcacheEntry.Matches
  infer_instance

/-- `check_entry` on entry `i`: its verdict and the cache, where an entry that is
too old has been cleared. -/
def checkEntry (v : Vcache O C) (i : ℤ) (addr : ℕ) (access : Access) (now : ℕ) :
    Option (Bool × Vcache O C) :=
  if InBounds i then
    if ¬ (v.cacheObj i).Matches addr access then some (false, v)
    else if wordSub now (v.cacheInf i).timestamp > vcacheTimeout then
      some (false, { v with cacheObj := Function.update v.cacheObj i .empty })
    else some (decide ((v.cacheInf i).rights.Covers access), v)
  else none

/-- The loop of `vcache_check` from entry `i` on, and the entry that matched. -/
def vcacheScan (addr : ℕ) (access : Access) (now : ℕ) :
    ℕ → ℤ → Vcache O C → Option (Vcache O C × Option ℤ)
  | 0, _, v => some (v, none)
  | n + 1, i, v => (checkEntry v i addr access now).bind fun r =>
      if r.1 then some (r.2, some i) else vcacheScan addr access now n (i + 1) r.2

/-- `vcache_check`: the cache, and the entry from which the object, `*cap` and
`*pdx_slot` are taken. -/
def vcacheCheck (v : Vcache O C) (addr : ℕ) (access : Access) (now : ℕ) :
    Option (Vcache O C × Option (VcacheInfo O C)) :=
  if addr = 0 then some (v, none)
  else
    (checkEntry v v.last addr access now).bind fun r =>
      if r.1 then some (r.2, some (r.2.cacheInf r.2.last))
      else (vcacheScan addr access now vcacheSize.toNat 0 r.2).bind fun s =>
        match s.2 with
        | some i => some ({ s.1 with last := i }, some (s.1.cacheInf i))
        | none => some (s.1, none)

/-- What `vcache_add` is called with, and what it reads of the object and of the
capability. -/
structure Grant (O C : Type) where
  obj : O
  /-- `obj->base` -/
  base : ℕ
  /-- `obj->end` -/
  limit : ℕ
  access : Access
  cap : C
  /-- `cap->address` -/
  capAddress : ℕ
  pdxSlot : ℤ

/-- The address range `vcache_add` stores. -/
def Grant.entry (g : Grant O C) : VcacheEntry :=
  if g.access.IsPdx then ⟨g.capAddress, g.capAddress⟩ else ⟨g.base, g.limit⟩

/-- What `vcache_add` stores with it. -/
def Grant.info (g : Grant O C) (now : ℕ) : VcacheInfo O C :=
  { timestamp := now, rights := g.access, obj := some g.obj, cap := some g.cap,
    pdxSlot := g.pdxSlot }

/-- The loop of `vcache_add` that looks for an empty entry or the oldest one. -/
def vcacheSlot (v : Vcache O C) : ℕ → ℤ → ℤ → ℕ → Option ℤ
  | 0, _, slot, _ => some slot
  | n + 1, i, slot, oldest =>
      if InBounds i then
        if (v.cacheObj i).base = 0 then some i
        else if (v.cacheInf i).timestamp < oldest then
          vcacheSlot v n (i + 1) i (v.cacheInf i).timestamp
        else vcacheSlot v n (i + 1) slot oldest
      else none

/-- `vcache_add`, which reads the clock twice. -/
def vcacheAdd (v : Vcache O C) (g : Grant O C) (t₁ t₂ : ℕ) : Option (Vcache O C) :=
  (vcacheSlot v vcacheSize.toNat 0 0 ((t₁ + 1) % 2 ^ 64)).bind fun slot =>
    if InBounds slot then
      some
        { last := slot
          cacheObj := Function.update v.cacheObj slot g.entry
          cacheInf := Function.update v.cacheInf slot (g.info t₂) }
    else none

/-! ### What the operations do to the entries -/

/-- The cache `v'` comes from `v` by clearing entries. -/
structure Cleared (v v' : Vcache O C) : Prop where
  inf : v'.cacheInf = v.cacheInf
  obj : ∀ i, v'.cacheObj i = v.cacheObj i ∨ v'.cacheObj i = .empty

theorem Cleared.refl (v : Vcache O C) : Cleared v v := ⟨rfl, fun _ => Or.inl rfl⟩

theorem Cleared.trans {v v' v'' : Vcache O C} (h : Cleared v v') (h' : Cleared v' v'') :
    Cleared v v'' := by
  refine ⟨h'.inf.trans h.inf, fun i => ?_⟩
  rcases h'.obj i with hi | hi
  · rw [hi]
    exact h.obj i
  · exact Or.inr hi

/-- Entry `i` grants an access. -/
structure Hit (v : Vcache O C) (i : ℤ) (addr : ℕ) (access : Access) (now : ℕ) : Prop where
  inBounds : InBounds i
  entry : (v.cacheObj i).Matches addr access
  time : wordSub now (v.cacheInf i).timestamp ≤ vcacheTimeout
  rights : (v.cacheInf i).rights.Covers access

/-- The address 0 is in no cleared entry, nor is any other. -/
theorem VcacheEntry.not_matches_empty {addr : ℕ} (h : addr ≠ 0) (access : Access) :
    ¬ VcacheEntry.empty.Matches addr access := by
  unfold VcacheEntry.Matches VcacheEntry.empty InRange
  split_ifs <;> dsimp only <;> omega

theorem Hit.of_cleared {v v' : Vcache O C} (h : Cleared v v') {i : ℤ} {addr : ℕ} (h0 : addr ≠ 0)
    {access : Access} {now : ℕ} (hit : Hit v' i addr access now) : Hit v i addr access now := by
  obtain ⟨hb, he, ht, hr⟩ := hit
  rw [h.inf] at ht hr
  rcases h.obj i with hi | hi
  · exact ⟨hb, hi ▸ he, ht, hr⟩
  · rw [hi] at he
    exact absurd he (VcacheEntry.not_matches_empty h0 access)

theorem checkEntry_spec (v : Vcache O C) {i : ℤ} (hi : InBounds i) (addr : ℕ) (access : Access)
    (now : ℕ) : ∃ b v', checkEntry v i addr access now = some (b, v') ∧ v'.last = v.last ∧
      Cleared v v' ∧ (b = true → v' = v ∧ Hit v i addr access now) := by
  unfold checkEntry
  rw [if_pos hi]
  by_cases hm : (v.cacheObj i).Matches addr access
  · rw [if_neg (not_not.mpr hm)]
    by_cases ht : wordSub now (v.cacheInf i).timestamp > vcacheTimeout
    · rw [if_pos ht]
      refine ⟨_, _, rfl, rfl, ⟨rfl, fun j => ?_⟩, by simp⟩
      by_cases hj : j = i
      · subst hj
        exact Or.inr (Function.update_self ..)
      · exact Or.inl (Function.update_of_ne hj ..)
    · rw [if_neg ht]
      refine ⟨_, _, rfl, rfl, Cleared.refl v, fun hb => ⟨rfl, hi, hm, Nat.not_lt.mp ht, ?_⟩⟩
      exact of_decide_eq_true hb
  · rw [if_pos hm]
    exact ⟨_, _, rfl, rfl, Cleared.refl v, by simp⟩

theorem vcacheScan_spec (addr : ℕ) (h0 : addr ≠ 0) (access : Access) (now : ℕ) :
    ∀ (n : ℕ) (i : ℤ) (v : Vcache O C), 0 ≤ i → i + n ≤ vcacheSize →
      ∃ v' r, vcacheScan addr access now n i v = some (v', r) ∧ v'.last = v.last ∧ Cleared v v' ∧
        ∀ j, r = some j → Hit v j addr access now := by
  intro n
  induction n with
  | zero => exact fun i v _ _ => ⟨v, none, rfl, rfl, Cleared.refl v, by simp⟩
  | succ n ih =>
    intro i v h₁ h₂
    obtain ⟨b, v₁, hc, hl₁, hcl₁, hhit⟩ := checkEntry_spec v
      (show InBounds i from ⟨h₁, by omega⟩) addr access now
    rw [vcacheScan, hc, Option.bind_some]
    by_cases hb : b = true
    · rw [if_pos hb]
      refine ⟨v₁, some i, rfl, hl₁, hcl₁, fun j hj => ?_⟩
      obtain rfl := Option.some.inj hj
      exact (hhit hb).2
    · rw [if_neg hb]
      obtain ⟨v', r, hs, hl, hcl, hr⟩ := ih (i + 1) v₁ (by omega) (by omega)
      exact ⟨v', r, hs, hl.trans hl₁, hcl₁.trans hcl, fun j hj => (hr j hj).of_cleared hcl₁ h0⟩

/-- **`vcache_check`** clears entries at most, and what it finds is an entry that
grants the access. -/
theorem vcacheCheck_spec {v : Vcache O C} (hlast : InBounds v.last) (addr : ℕ) (access : Access)
    (now : ℕ) : ∃ v' r, vcacheCheck v addr access now = some (v', r) ∧ InBounds v'.last ∧
      Cleared v v' ∧ ∀ info, r = some info →
        addr ≠ 0 ∧ ∃ i, info = v.cacheInf i ∧ Hit v i addr access now := by
  unfold vcacheCheck
  by_cases h0 : addr = 0
  · rw [if_pos h0]
    exact ⟨v, none, rfl, hlast, Cleared.refl v, by simp⟩
  · rw [if_neg h0]
    obtain ⟨b, v₁, hc, hl₁, hcl₁, hhit⟩ := checkEntry_spec v hlast addr access now
    rw [hc, Option.bind_some]
    by_cases hb : b = true
    · obtain ⟨rfl, hv⟩ := hhit hb
      rw [if_pos hb]
      refine ⟨v₁, _, rfl, hlast, Cleared.refl v₁, fun info hinfo => ⟨h0, v₁.last, ?_, hv⟩⟩
      exact (Option.some.inj hinfo).symm
    · rw [if_neg hb]
      obtain ⟨v₂, r, hs, hl₂, hcl₂, hr⟩ := vcacheScan_spec addr h0 access now vcacheSize.toNat 0 v₁
        le_rfl (by decide)
      rw [hs, Option.bind_some]
      cases r with
      | none => exact ⟨v₂, none, rfl, by rw [hl₂, hl₁]; exact hlast, hcl₁.trans hcl₂, by simp⟩
      | some i =>
        have hv := (hr i rfl).of_cleared hcl₁ h0
        refine ⟨_, _, rfl, hv.inBounds, ⟨hcl₂.inf.trans hcl₁.inf, (hcl₁.trans hcl₂).obj⟩,
          fun info hinfo => ⟨h0, i, ?_, hv⟩⟩
        rw [← Option.some.inj hinfo]
        exact congrFun (hcl₂.inf.trans hcl₁.inf) i

theorem Hit.checkEntry {v : Vcache O C} {i : ℤ} {addr : ℕ} {access : Access} {now : ℕ}
    (hit : Hit v i addr access now) : checkEntry v i addr access now = some (true, v) := by
  unfold Mungi.checkEntry
  rw [if_pos hit.inBounds, if_neg (not_not.mpr hit.entry), if_neg (not_lt.mpr hit.time),
    decide_eq_true hit.rights]

/-- A test that fails leaves the entries that grant the access. -/
theorem Hit.of_checkEntry {v v' : Vcache O C} {i j : ℤ} {addr : ℕ} {access : Access} {now : ℕ}
    (hit : Hit v j addr access now) (h : Mungi.checkEntry v i addr access now = some (false, v')) :
    Hit v' j addr access now ∧ j ≠ i := by
  have hne : j ≠ i := by
    rintro rfl
    rw [hit.checkEntry] at h
    cases h
  refine ⟨?_, hne⟩
  unfold Mungi.checkEntry at h
  split_ifs at h
  · cases h
    obtain ⟨hb, he, ht, hr⟩ := hit
    refine ⟨hb, ?_, ht, hr⟩
    dsimp only
    rwa [Function.update_of_ne hne]
  · obtain rfl := (Prod.mk.inj (Option.some.inj h)).2
    exact hit
  · cases h
    exact hit

theorem Hit.vcacheScan {addr : ℕ} {access : Access} {now : ℕ} {j : ℤ} :
    ∀ (n : ℕ) (i : ℤ) (v : Vcache O C), 0 ≤ i → i + n ≤ vcacheSize → i ≤ j → j < i + n →
      Hit v j addr access now → ∃ v' r, vcacheScan addr access now n i v = some (v', some r) := by
  intro n
  induction n with
  | zero =>
    intro i v _ _ h₁ h₂
    omega
  | succ n ih =>
    intro i v h₀ hn h₁ h₂ hit
    obtain ⟨b, v₁, hc, -⟩ := checkEntry_spec v (show InBounds i from ⟨h₀, by omega⟩) addr access now
    rw [Mungi.vcacheScan, hc, Option.bind_some]
    cases b with
    | true => exact ⟨v₁, i, rfl⟩
    | false =>
      obtain ⟨hit₁, hne⟩ := hit.of_checkEntry hc
      exact ih (i + 1) v₁ (by omega) (by omega) (by omega) (by omega) hit₁

/-- An entry that grants the access is not overlooked. -/
theorem Hit.vcacheCheck {v : Vcache O C} {i : ℤ} {addr : ℕ} {access : Access} {now : ℕ}
    (hit : Hit v i addr access now) (hlast : InBounds v.last) (h0 : addr ≠ 0) :
    ∃ v' info, vcacheCheck v addr access now = some (v', some info) := by
  unfold Mungi.vcacheCheck
  rw [if_neg h0]
  obtain ⟨b, v₁, hc, -⟩ := checkEntry_spec v hlast addr access now
  rw [hc, Option.bind_some]
  cases b with
  | true => exact ⟨v₁, _, rfl⟩
  | false =>
    have hi := hit.inBounds
    obtain ⟨v₂, r, hs⟩ := Hit.vcacheScan vcacheSize.toNat 0 v₁ le_rfl (by decide) hi.1
      (by rw [Int.zero_add]; exact hi.2) (hit.of_checkEntry hc).1
    dsimp only
    rw [if_neg Bool.false_ne_true, hs]
    exact ⟨_, _, rfl⟩

theorem vcacheSlot_spec (v : Vcache O C) : ∀ (n : ℕ) (i slot : ℤ) (oldest : ℕ), 0 ≤ i →
    i + n ≤ vcacheSize → InBounds slot →
      ∃ s, vcacheSlot v n i slot oldest = some s ∧ InBounds s := by
  intro n
  induction n with
  | zero => exact fun i slot oldest _ _ hs => ⟨slot, rfl, hs⟩
  | succ n ih =>
    intro i slot oldest h₁ h₂ hs
    have hi : InBounds i := ⟨h₁, by omega⟩
    rw [vcacheSlot, if_pos hi]
    split_ifs
    · exact ⟨i, rfl, hi⟩
    · exact ih _ _ _ (by omega) (by omega) hi
    · exact ih _ _ _ (by omega) (by omega) hs

/-- **`vcache_add`** replaces one entry. -/
theorem vcacheAdd_spec (v : Vcache O C) (g : Grant O C) (t₁ t₂ : ℕ) : ∃ slot, InBounds slot ∧
    vcacheAdd v g t₁ t₂ = some ⟨slot, Function.update v.cacheObj slot g.entry,
      Function.update v.cacheInf slot (g.info t₂)⟩ := by
  obtain ⟨slot, hs, hb⟩ := vcacheSlot_spec v vcacheSize.toNat 0 0 ((t₁ + 1) % 2 ^ 64) le_rfl
    (by decide) (by decide)
  refine ⟨slot, hb, ?_⟩
  rw [vcacheAdd, hs, Option.bind_some, if_pos hb]

/-- `vcache_flush_addr` clears entries. -/
theorem vcacheFlushAddr_cacheObj (v : Vcache O C) (addr : ℕ) {i : ℤ} (hi : InBounds i) :
    (vcacheFlushAddr v addr).cacheObj i
      = if InRange addr (v.cacheObj i).base (v.cacheObj i).limit then .empty
        else v.cacheObj i := by
  unfold vcacheFlushAddr
  dsimp only
  rw [forUp_map (fun _ (e : VcacheEntry) => if InRange addr e.base e.limit then .empty else e)]
  exact if_pos ⟨hi.1, by rw [Int.zero_add]; exact hi.2⟩

/-! ### Properties of the entries -/

/-- The cache is in order, and every entry that is not empty has property `P`. -/
structure Vcache.Holds (P : VcacheEntry → VcacheInfo O C → Prop) (v : Vcache O C) : Prop where
  last : InBounds v.last
  entries : ∀ i, InBounds i → v.cacheObj i = .empty ∨ P (v.cacheObj i) (v.cacheInf i)

section Holds
variable {P Q : VcacheEntry → VcacheInfo O C → Prop} {v v' : Vcache O C}

theorem holds_vcacheNew : (vcacheNew : Vcache O C).Holds P :=
  ⟨show InBounds 0 by decide, fun _ _ => Or.inl rfl⟩

theorem Vcache.Holds.mono (h : v.Holds P) (hPQ : ∀ e info, P e info → Q e info) : v.Holds Q :=
  ⟨h.last, fun i hi => (h.entries i hi).imp_right (hPQ _ _)⟩

theorem Vcache.Holds.cleared (h : v.Holds P) (hc : Cleared v v') (hl : InBounds v'.last) :
    v'.Holds P := by
  refine ⟨hl, fun i hi => ?_⟩
  rw [hc.inf]
  rcases hc.obj i with he | he
  · rw [he]
    exact h.entries i hi
  · exact Or.inl he

theorem Vcache.Holds.check (h : v.Holds P) (addr : ℕ) (access : Access) (now : ℕ) :
    ∃ v' r, vcacheCheck v addr access now = some (v', r) ∧ v'.Holds P ∧
      ∀ info, r = some info → ∃ e, P e info ∧ e.Matches addr access ∧
        wordSub now info.timestamp ≤ vcacheTimeout ∧ info.rights.Covers access := by
  obtain ⟨v', r, hc, hl, hcl, hhit⟩ := vcacheCheck_spec h.last addr access now
  refine ⟨v', r, hc, h.cleared hcl hl, fun info hinfo => ?_⟩
  obtain ⟨h0, i, rfl, hit⟩ := hhit info hinfo
  rcases h.entries i hit.inBounds with he | hP
  · exact absurd (he ▸ hit.entry) (VcacheEntry.not_matches_empty h0 access)
  · exact ⟨_, hP, hit.entry, hit.time, hit.rights⟩

theorem Vcache.Holds.add (h : v.Holds P) (g : Grant O C) (t₁ t₂ : ℕ) (hg : P g.entry (g.info t₂)) :
    ∃ v', vcacheAdd v g t₁ t₂ = some v' ∧ v'.Holds P := by
  obtain ⟨slot, hb, hadd⟩ := vcacheAdd_spec v g t₁ t₂
  refine ⟨_, hadd, hb, fun i hi => ?_⟩
  dsimp only
  by_cases his : i = slot
  · subst his
    rw [Function.update_self, Function.update_self]
    exact Or.inr hg
  · rw [Function.update_of_ne his, Function.update_of_ne his]
    exact h.entries i hi

theorem Vcache.Holds.flush (v : Vcache O C) : (vcacheFlush v).Holds P :=
  ⟨show InBounds 0 by decide, fun _ _ => Or.inl rfl⟩

/-- Flushing an address leaves the entries that do not contain it. -/
theorem Vcache.Holds.flushAddr (h : v.Holds P) (addr : ℕ) :
    (vcacheFlushAddr v addr).Holds fun e info => P e info ∧ ¬ InRange addr e.base e.limit := by
  refine ⟨h.last, fun i hi => ?_⟩
  rw [vcacheFlushAddr_cacheObj v addr hi]
  split_ifs with hr
  · exact Or.inl rfl
  · exact (h.entries i hi).imp_right fun hP => ⟨hP, hr⟩

end Holds

/-! ### Runs of one cache -/

/-- The operations on a cache, with the clock readings they make. -/
inductive VcacheOp (O C : Type) where
  | add (g : Grant O C) (t₁ t₂ : ℕ)
  | check (addr : ℕ) (access : Access) (now : ℕ)
  | flush
  | flushAddr (addr : ℕ)

/-- The clock readings of an operation. -/
def VcacheOp.times : VcacheOp O C → List ℕ
  | .add _ t₁ t₂ => [t₁, t₂]
  | .check _ _ now => [now]
  | .flush => []
  | .flushAddr _ => []

/-- One operation. -/
def vcacheStep (v : Vcache O C) : VcacheOp O C → Option (Vcache O C)
  | .add g t₁ t₂ => vcacheAdd v g t₁ t₂
  | .check addr access now => (vcacheCheck v addr access now).map Prod.fst
  | .flush => some (vcacheFlush v)
  | .flushAddr addr => some (vcacheFlushAddr v addr)

/-- The clock does not run backwards, and fits its type. -/
structure Clocked (l : List (VcacheOp O C)) : Prop where
  mono : (l.flatMap VcacheOp.times).Pairwise (· ≤ ·)
  bound : ∀ t ∈ l.flatMap VcacheOp.times, t < 2 ^ 64

/-- An entry was put in by one of the operations `l`, and no flush of them after that
was meant for it. -/
def Stored (l : List (VcacheOp O C)) (e : VcacheEntry) (info : VcacheInfo O C) : Prop :=
  ∃ before g t₁ t₀ after, l = before ++ .add g t₁ t₀ :: after ∧ e = g.entry ∧ info = g.info t₀ ∧
    VcacheOp.flush ∉ after ∧ ∀ a, VcacheOp.flushAddr a ∈ after → ¬ InRange a e.base e.limit

theorem Stored.concat {l : List (VcacheOp O C)} {e : VcacheEntry} {info : VcacheInfo O C}
    (h : Stored l e info) {op : VcacheOp O C} (hf : op ≠ .flush)
    (ha : ∀ a, op = .flushAddr a → ¬ InRange a e.base e.limit) : Stored (l ++ [op]) e info := by
  obtain ⟨before, g, t₁, t₀, after, rfl, he, hi, hnf, hna⟩ := h
  refine ⟨before, g, t₁, t₀, after ++ [op], by simp, he, hi, ?_, fun a hmem => ?_⟩
  · rw [List.mem_append, List.mem_singleton, not_or]
    exact ⟨hnf, hf.symm⟩
  · rw [List.mem_append, List.mem_singleton] at hmem
    exact hmem.elim (hna a) fun h => ha a h.symm

/-- One operation keeps the cache in order, and its entries are accounted for. -/
theorem vcacheStep_stored {l : List (VcacheOp O C)} {v : Vcache O C} (h : v.Holds (Stored l))
    (op : VcacheOp O C) : ∃ v', vcacheStep v op = some v' ∧ v'.Holds (Stored (l ++ [op])) := by
  cases op with
  | add g t₁ t₂ =>
    have hold : v.Holds (Stored (l ++ [.add g t₁ t₂])) :=
      h.mono fun e info hs => hs.concat (by simp) (by simp)
    exact hold.add g t₁ t₂ ⟨l, g, t₁, t₂, [], rfl, rfl, rfl, by simp, by simp⟩
  | check addr access now =>
    obtain ⟨v', r, hc, hv', -⟩ := h.check addr access now
    refine ⟨v', by rw [vcacheStep, hc]; rfl, ?_⟩
    exact hv'.mono fun e info hs => hs.concat (by simp) (by simp)
  | flush => exact ⟨_, rfl, Vcache.Holds.flush v⟩
  | flushAddr addr =>
    refine ⟨_, rfl, (h.flushAddr addr).mono fun e info hs => hs.1.concat (by simp) ?_⟩
    rintro a ⟨⟩
    exact hs.2

/-- Every run stays within the arrays. -/
theorem vcacheRun_stored (l : List (VcacheOp O C)) :
    ∃ v, run vcacheStep vcacheNew l = some v ∧ v.Holds (Stored l) :=
  run_total (C := fun l (v : Vcache O C) => v.Holds (Stored l)) (G := fun _ => True)
    holds_vcacheNew (fun _ _ _ => trivial) (fun _ _ op h _ => vcacheStep_stored h op) l trivial

/-- The time of an addition is not after that of a later check. -/
theorem Clocked.le {before after : List (VcacheOp O C)} {g : Grant O C} {t₁ t₀ addr now : ℕ}
    {access : Access}
    (h : Clocked (before ++ .add g t₁ t₀ :: after ++ [.check addr access now])) : t₀ ≤ now := by
  have hp := h.mono
  simp only [List.flatMap_append, List.flatMap_cons, List.flatMap_nil, VcacheOp.times,
    List.append_nil] at hp
  refine (List.pairwise_append.mp hp).2.2 t₀ ?_ now (List.mem_singleton_self now)
  simp

theorem Grant.entry_of_not_isPdx {g : Grant O C} (h : ¬ g.access.IsPdx) :
    g.entry = ⟨g.base, g.limit⟩ := if_neg h

theorem Grant.entry_of_isPdx {g : Grant O C} (h : g.access.IsPdx) :
    g.entry = ⟨g.capAddress, g.capAddress⟩ := if_pos h

/-- What a matching entry says about the call that stored it. -/
theorem Grant.entry_matches {g : Grant O C} {addr : ℕ} {access : Access}
    (hm : g.entry.Matches addr access) (hc : g.access.Covers access) :
    if access.IsPdx then g.capAddress = addr else
      ¬ g.access.IsPdx ∧ InRange addr g.base g.limit := by
  unfold VcacheEntry.Matches at hm
  by_cases hp : access.IsPdx
  · rw [if_pos hp] at hm ⊢
    rw [Grant.entry_of_isPdx (hc.isPdx hp)] at hm
    exact hm.1.symm
  · rw [if_neg hp] at hm ⊢
    by_cases hg : g.access.IsPdx
    · rw [Grant.entry_of_isPdx hg] at hm
      exact absurd (lt_of_le_of_lt hm.1 hm.2) (lt_irrefl _)
    · rw [Grant.entry_of_not_isPdx hg] at hm
      exact ⟨hg, hm⟩

/-- **What the cache hands out was put in not long ago.**  In every run of a cache
with a clock that does not run backwards no index leaves the arrays, and what a check
finds comes from one addition, made in the last `VCACHE_TIMEOUT`, with the rights and
the range asked for, and not flushed since. -/
theorem vcacheCheck_recent (l : List (VcacheOp O C)) (addr : ℕ) (access : Access) (now : ℕ)
    (hclock : Clocked (l ++ [.check addr access now])) :
    ∃ v, run vcacheStep vcacheNew l = some v ∧ InBounds v.last ∧
      ∃ v' r, vcacheCheck v addr access now = some (v', r) ∧ InBounds v'.last ∧
        ∀ info, r = some info → ∃ before g t₁ t₀ after,
          l = before ++ .add g t₁ t₀ :: after ∧
          info.obj = some g.obj ∧ info.cap = some g.cap ∧ info.pdxSlot = g.pdxSlot ∧
          t₀ ≤ now ∧ now - t₀ ≤ vcacheTimeout ∧ g.access.Covers access ∧
          (if access.IsPdx then g.capAddress = addr else InRange addr g.base g.limit) ∧
          VcacheOp.flush ∉ after ∧
          (¬ access.IsPdx → ∀ a, VcacheOp.flushAddr a ∈ after → ¬ InRange a g.base g.limit) := by
  obtain ⟨v, hv, hst⟩ := vcacheRun_stored l
  obtain ⟨v', r, hc, hst', hhit⟩ := hst.check addr access now
  refine ⟨v, hv, hst.last, v', r, hc, hst'.last, fun info hinfo => ?_⟩
  obtain ⟨e, ⟨before, g, t₁, t₀, after, hl, rfl, rfl, hnf, hna⟩, hm, ht, hr⟩ := hhit info hinfo
  have hle : t₀ ≤ now := by
    rw [hl] at hclock
    exact hclock.le
  have hnow : now < 2 ^ 64 := hclock.bound now (by simp [VcacheOp.times])
  have hentry := Grant.entry_matches hm hr
  refine ⟨before, g, t₁, t₀, after, hl, rfl, rfl, rfl, hle, ?_, hr, ?_, hnf, fun hp a ha => ?_⟩
  · rwa [← wordSub_of_le hle hnow]
  · split_ifs at hentry ⊢
    · exact hentry
    · exact hentry.2
  · rw [if_neg hp] at hentry
    have hout := hna a ha
    rwa [Grant.entry_of_not_isPdx hentry.1] at hout

/-- A grant on an object of two pages. -/
def grantPages : Grant ℕ ℕ :=
  { obj := 1, base := 0x1000, limit := 0x3000, access := mRead ||| mWrite, cap := 7,
    capAddress := 0x1000, pdxSlot := -1 }

theorem vcacheCheck_recent_grantPages :
    ∃ v, run vcacheStep vcacheNew [.add grantPages 5 5] = some v ∧ InBounds v.last ∧
      ∃ v' r, vcacheCheck v 0x2000 mRead 65 = some (v', r) ∧ InBounds v'.last ∧
        ∀ info, r = some info → ∃ before g t₁ t₀ after,
          [VcacheOp.add grantPages 5 5] = before ++ .add g t₁ t₀ :: after ∧
          info.obj = some g.obj ∧ info.cap = some g.cap ∧ info.pdxSlot = g.pdxSlot ∧
          t₀ ≤ 65 ∧ 65 - t₀ ≤ vcacheTimeout ∧ g.access.Covers mRead ∧
          (if mRead.IsPdx then g.capAddress = 0x2000 else InRange 0x2000 g.base g.limit) ∧
          VcacheOp.flush ∉ after ∧
          (¬ mRead.IsPdx → ∀ a, VcacheOp.flushAddr a ∈ after → ¬ InRange a g.base g.limit) :=
  vcacheCheck_recent _ _ _ _ ⟨by decide, by decide⟩

end Mungi
