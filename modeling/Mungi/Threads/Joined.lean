import Mungi.Threads.Bindings
import Mungi.Threads.Table

/-!
# The table of joined APDs

An APD that stands for a PD is kept in a hash table under the address of the PD, and
`apd_find_or_create` looks there first.  `apd_close` takes the APD out again through the
place that leads to it, but does not tell the next APD of the bucket that this place has
become its own.  So all is well as long as the APD that goes is the last one of its bucket.

## Main definitions

* `JoinOp`, `joinStep` — the calls, with the APDs that were found or made and not freed yet.
* `JoinState.Sound` — what the table is to be, and what `apd_find_or_create` is to return.
* `Last` — an APD that is freed is the last one of its bucket.

## Main results

* `Mem.apdBuckets_apdFree`, `Mem.apdBuckets_apdJoin` — the code and the operations of hash tables.
* `kept_joinStep` — one call keeps the table in order.
* `joined_iff` — **the table is right all along just when every APD that goes is the last one
  of its bucket.**
-/

namespace Mungi

open Chain Runs Mem

variable {O : Type} {c : ThreadConf} {k k' : Mem} {fuel a b addr : ℕ}

/-! ### The table -/

namespace Mem

/-- The place in the table that a link is; `NULL` is a place beyond it. -/
def placeOf : Option Link → Place ℕ
  | none => .head apdHashSize
  | some link => link.place

/-- The table of joined APDs, as a hash table. -/
def apdBuckets (k : Mem) : Buckets ℕ where
  head := k.apdTable
  next := fun p => (k.apd.cell p).next
  pprev := fun p => placeOf (k.apd.cell p).pprev

/-- What a change of an APD does to the table. -/
theorem apdBuckets_modApd (k : Mem) (p : ℕ) (f : Apd → Apd) :
    (k.modApd p f).apdBuckets =
      { head := k.apdTable
        next := Function.update k.apdBuckets.next p (f (k.apd.cell p)).next
        pprev := Function.update k.apdBuckets.pprev p (placeOf (f (k.apd.cell p)).pprev) } := by
  refine Buckets.ext rfl ?_ ?_
  · exact Heap.map_modify Apd.next k.apd p f
  · exact Heap.map_modify (fun x => placeOf x.pprev) k.apd p f

theorem apdBuckets_writeApdLink (k : Mem) (link : Link) (x : ℕ) :
    (k.writeApdLink link x).apdBuckets = k.apdBuckets.write link.place x := by
  cases link with
  | bucket i => rfl
  | next p =>
    refine (k.apdBuckets_modApd p fun y => { y with next := x }).trans (Buckets.ext rfl rfl ?_)
    exact Function.update_eq_self p k.apdBuckets.pprev

/-- What `apd_find_or_create` does to the table when it has made an APD. -/
def apdJoin (c : ThreadConf) (k : Mem) (addr a : ℕ) : Mem :=
  let hashval := pdHash c addr
  let head := k.apdTable hashval
  let k := k.modApd a fun x => { x with pd := addr, next := head }
  let k := if head = 0 then k else k.modApd head fun x => { x with pprev := some (.next a) }
  let k := { k with apdTable := Function.update k.apdTable hashval a }
  k.modApd a fun x => { x with pprev := some (.bucket hashval) }

/-- **The code puts the APD into the table.** -/
theorem apdBuckets_apdJoin (k : Mem) (addr a : ℕ) :
    (k.apdJoin c addr a).apdBuckets = k.apdBuckets.insert (pdHash c addr) a := by
  unfold apdJoin
  dsimp only
  generalize pdHash c addr = b
  -- the links first, then the place in the old first APD, the bucket, and the new place
  have h₁ : (k.modApd a fun x => { x with pd := addr, next := k.apdTable b }).apdBuckets
      = { k.apdBuckets with next := Function.update k.apdBuckets.next a (k.apdTable b) } := by
    refine (k.apdBuckets_modApd a _).trans (Buckets.ext rfl rfl ?_)
    exact Function.update_eq_self a k.apdBuckets.pprev
  generalize (k.modApd a fun x => { x with pd := addr, next := k.apdTable b }) = k₁ at h₁ ⊢
  have h₂ : (if k.apdTable b = 0 then k₁
      else k₁.modApd (k.apdTable b) fun x => { x with pprev := some (.next a) }).apdBuckets
      = { k₁.apdBuckets with pprev := if k.apdTable b = 0 then k₁.apdBuckets.pprev
            else Function.update k₁.apdBuckets.pprev (k.apdTable b) (.next a) } := by
    split_ifs
    · rfl
    · refine (k₁.apdBuckets_modApd _ _).trans (Buckets.ext rfl ?_ rfl)
      exact Function.update_eq_self _ k₁.apdBuckets.next
  generalize (if k.apdTable b = 0 then k₁
    else k₁.modApd (k.apdTable b) fun x => { x with pprev := some (.next a) }) = k₂ at h₂ ⊢
  refine (apdBuckets_modApd _ a _).trans ?_
  rw [h₁] at h₂
  have hhead : k₂.apdTable = k.apdTable := congrArg Buckets.head h₂
  have hnext : k₂.apdBuckets.next = Function.update k.apdBuckets.next a (k.apdTable b) :=
    congrArg Buckets.next h₂
  have hpprev : k₂.apdBuckets.pprev = if k.apdTable b = 0 then k.apdBuckets.pprev
      else Function.update k.apdBuckets.pprev (k.apdTable b) (.next a) :=
    congrArg Buckets.pprev h₂
  refine Buckets.ext ?_ ?_ ?_
  · exact congrArg (fun head => Function.update head b a) hhead
  · exact (Function.update_eq_self a k₂.apdBuckets.next).trans hnext
  · exact congrArg (fun pprev => Function.update pprev a (Place.head b)) hpprev

/-- What `apd_find_or_create` does to the other fields. -/
theorem apdJoin_other (k : Mem) (addr a : ℕ) : (k.apdJoin c addr a).apd.live = k.apd.live ∧
    ((k.apdJoin c addr a).apd.cell a).pd = addr ∧
    ((k.apdJoin c addr a).apd.cell a).pprev = some (.bucket (pdHash c addr)) ∧
    ∀ q, q ≠ a → ((k.apdJoin c addr a).apd.cell q).pd = (k.apd.cell q).pd ∧
      ((k.apd.cell q).pprev ≠ none → ((k.apdJoin c addr a).apd.cell q).pprev ≠ none) := by
  unfold apdJoin
  dsimp only
  generalize pdHash c addr = b
  have h₁ : ((k.modApd a fun x => { x with pd := addr, next := k.apdTable b }).apd.cell a).pd
      = addr := by
    rw [Heap.cell_modify_self]
  have h₂ : ∀ q, q ≠ a → (k.modApd a fun x => { x with pd := addr, next := k.apdTable b }).apd.cell q
      = k.apd.cell q := fun q hq => Function.update_of_ne hq ..
  generalize hk₁ : (k.modApd a fun x => { x with pd := addr, next := k.apdTable b }) = k₁ at h₁ h₂ ⊢
  have hlive : k₁.apd.live = k.apd.live := by rw [← hk₁]; rfl
  refine ⟨?_, ?_, ?_, fun q hq => ?_⟩
  · rw [Heap.live_modify, ← hlive]
    split_ifs <;> rfl
  · rw [Heap.cell_modify_self]
    dsimp only
    split_ifs
    · exact h₁
    · dsimp only
      refine (Heap.modify_field (g := Apd.pd) ?_ a).trans h₁
      exact fun _ => rfl
  · rw [Heap.cell_modify_self]
  · rw [Heap.cell_modify_of_ne hq, ← h₂ q hq]
    split_ifs
    · exact ⟨rfl, id⟩
    · dsimp only
      constructor
      · refine Heap.modify_field (g := Apd.pd) ?_ q
        exact fun _ => rfl
      · intro hne
        rw [Heap.cell_modify]
        split_ifs
        · exact nofun
        · exact hne

/-- The memories agree on the table and on the places of the APDs of the first one. -/
structure ApdsSpared (k k' : Mem) : Prop where
  table : k'.apdTable = k.apdTable
  cell : ∀ q, k.apd.live q = true → (k'.apd.cell q).next = (k.apd.cell q).next ∧
    (k'.apd.cell q).pprev = (k.apd.cell q).pprev ∧ (k'.apd.cell q).pd = (k.apd.cell q).pd
  live : ∀ q, k.apd.live q = true → k'.apd.live q = true

theorem ApdsSpared.of_cell (htable : k'.apdTable = k.apdTable)
    (hcell : ∀ q, k.apd.live q = true → k'.apd.cell q = k.apd.cell q ∧ k'.apd.live q = true) :
    ApdsSpared k k' :=
  ⟨htable, fun q hq => by rw [(hcell q hq).1]; exact ⟨rfl, rfl, rfl⟩, fun q hq => (hcell q hq).2⟩

/-- **`apd_from_template` leaves the table and the other APDs alone.** -/
theorem apdFromTemplate_spared {os : Kernel O} {pd : ApdDesc} {sup : ApdSupply}
    (h : k.apdFromTemplate os pd sup = some (a, k')) : ApdsSpared k k' := by
  unfold apdFromTemplate at h
  by_cases hsup : sup.apd = 0
  · rw [if_pos hsup] at h
    rw [← (Prod.mk.inj (Option.some.inj h)).2]
    exact .of_cell rfl fun q hq => ⟨rfl, hq⟩
  · rw [if_neg hsup] at h
    obtain ⟨apd, halloc, h⟩ := Option.bind_eq_some_iff.mp h
    have hmade : ApdsSpared k { k with apd } := .of_cell rfl fun q hq =>
      ⟨(Heap.alloc_live halloc hq).2.2, (Heap.alloc_live halloc hq).2.1⟩
    have hfill : ApdsSpared k (({ k with apd } : Mem).apdFill sup.apd sup).2 := by
      obtain ⟨x, hx, -⟩ := apdFill_filled { k with apd } sup.apd sup
      rw [hx]
      refine .of_cell rfl fun q hq => ?_
      obtain ⟨hne, hlive, hcell⟩ := Heap.alloc_live halloc hq
      exact ⟨(Function.update_of_ne hne ..).trans hcell, hlive⟩
    have hout : ∀ k₁ : Mem, ApdsSpared k k₁ →
        some (0, { k₁ with apd := k₁.apd.free sup.apd }) = some (a, k') → ApdsSpared k k' := by
      intro k₁ h₁ heq
      rw [← (Prod.mk.inj (Option.some.inj heq)).2]
      refine ⟨h₁.table, h₁.cell, fun q hq => ?_⟩
      exact (Heap.live_free_of_ne (Heap.alloc_live halloc hq).1).trans (h₁.live q hq)
    dsimp only at h
    split_ifs at h
    · exact hout _ hmade h
    · split at h
      · exact hout _ hmade h
      · split at h
        · next heq =>
          rw [heq] at hfill
          exact hout _ hfill h
        · next heq =>
          rw [heq] at hfill
          rw [← (Prod.mk.inj (Option.some.inj h)).2]
          exact hfill

/-- `apd_from_template` has a result when `kmalloc` has. -/
theorem apdFromTemplate_isSome (k : Mem) (os : Kernel O) (pd : ApdDesc) {sup : ApdSupply}
    (hsup : sup.apd = 0 ∨ k.apd.live sup.apd = false) :
    ∃ r, k.apdFromTemplate os pd sup = some r := by
  unfold apdFromTemplate
  by_cases h0 : sup.apd = 0
  · rw [if_pos h0]
    exact ⟨_, rfl⟩
  · have halloc := Heap.alloc_eq_some (a := { Apd.zero with data := pd }).mpr
      ⟨hsup.resolve_left h0, rfl⟩
    rw [if_neg h0, halloc, Option.bind_some]
    dsimp only
    split_ifs
    · exact ⟨_, rfl⟩
    · split
      · exact ⟨_, rfl⟩
      · split
        · exact ⟨_, rfl⟩
        · exact ⟨_, rfl⟩

/-- What freeing an APD does to the table: the place that leads to the APD leads on. -/
theorem apdBuckets_apdFree (h : k.apdFree c fuel a = some k') :
    k'.apdBuckets = (match (k.apd.cell a).pprev with
      | none => k.apdBuckets
      | some link => k.apdBuckets.write link.place (k.apd.cell a).next) ∧
    (∀ q, k'.apd.live q = if q = a then false else k.apd.live q) ∧
    ∀ q, (k'.apd.cell q).pd = (k.apd.cell q).pd ∧ (k'.apd.cell q).pprev = (k.apd.cell q).pprev := by
  obtain ⟨pool, tasks, hfreed⟩ := apdFree_freed h
  refine ⟨?_, hfreed.apdLive, fun q => ?_⟩
  · obtain ⟨pool, -, h⟩ := Option.bind_eq_some_iff.mp h
    obtain ⟨tasks, -, rfl⟩ := Option.map_eq_some_iff.mp h
    obtain ⟨thread, entry, heq₁, -⟩ := foldl_freePooled pool k
    obtain ⟨live, l4Tasks, heq₂, -⟩ := foldl_taskRelease (c := c) tasks (pool.foldl freePooled k)
    have hrest : (tasks.foldl (taskRelease c) (pool.foldl freePooled k)).apdBuckets
        = k.apdBuckets := by
      rw [heq₂, heq₁]
      rfl
    dsimp only
    generalize tasks.foldl (taskRelease c) (pool.foldl freePooled k) = k₁ at hrest ⊢
    rw [← hrest]
    cases (k.apd.cell a).pprev with
    | none => rfl
    | some link => exact k₁.apdBuckets_writeApdLink link (k.apd.cell a).next
  · rw [hfreed.apdCell q]
    exact ⟨rfl, rfl⟩

end Mem

/-! ### Runs -/

/-- A call of `apd_find_or_create` or of `apd_close`; and users that come and go, who are
counted in an APD. -/
inductive JoinOp (O : Type) where
  | find (os : Kernel O) (fuel addr : ℕ) (pd : ApdDesc) (sup : ApdSupply)
  | close (fuel a : ℕ)
  | hold (a : ℕ) (users : ℤ)

/-- The memory, and the APDs that `apd_find_or_create` made and that were not freed yet, each
with the PD it was made for. -/
structure JoinState where
  mem : Mem
  joined : List (ℕ × ℕ)

/-- One call. -/
def joinStep (c : ThreadConf) (s : JoinState) : JoinOp O → Option JoinState
  | .find os fuel addr pd sup =>
      (s.mem.apdFindOrCreate c os fuel addr pd sup).map fun r =>
        { mem := r.2
          joined := if r.1 = 0 ∨ (r.1, addr) ∈ s.joined then s.joined
            else (r.1, addr) :: s.joined }
  | .close fuel a =>
      (s.mem.apdClose c fuel a).map fun r =>
        { mem := r.2, joined := if r.1 then s.joined.filter fun t => t.1 ≠ a else s.joined }
  | .hold a users => some { s with mem := s.mem.modApd a fun x => { x with users } }

/-- The APD was found or made, and not freed yet. -/
def JoinState.Joined (s : JoinState) (a : ℕ) : Prop := ∃ pd, (a, pd) ∈ s.joined

/-- Only APDs are closed that were found or made. -/
def OnJoined (s : JoinState) : JoinOp O → Prop
  | .find .. => True
  | .close _ a => s.Joined a
  | .hold a _ => s.Joined a

/-- **An APD that is freed is the last one of its bucket.** -/
def Last (s : JoinState) : JoinOp O → Prop
  | .close _ a => (s.mem.apd.cell a).users = 0 → (s.mem.apd.cell a).next = 0
  | _ => True

instance (s : JoinState) (a : ℕ) : Decidable (s.Joined a) :=
  decidable_of_iff (a ∈ s.joined.map Prod.fst) (by simp [JoinState.Joined])

instance (s : JoinState) : ∀ op : JoinOp O, Decidable (OnJoined s op)
  | .find .. => inferInstanceAs (Decidable True)
  | .close _ a => inferInstanceAs (Decidable (s.Joined a))
  | .hold a _ => inferInstanceAs (Decidable (s.Joined a))

instance (s : JoinState) : ∀ op : JoinOp O, Decidable (Last s op)
  | .find .. => inferInstanceAs (Decidable True)
  | .close _ a => inferInstanceAs (Decidable ((s.mem.apd.cell a).users = 0 → _ = 0))
  | .hold .. => inferInstanceAs (Decidable True)

/-- The place of a bucket, or of the link of a joined APD, leads to the APD. -/
def JoinState.LeadsTo (s : JoinState) : Link → ℕ → Prop
  | .bucket i, a => i < apdHashSize ∧ s.mem.apdTable i = a
  | .next p, a => s.Joined p ∧ (s.mem.apd.cell p).next = a

/-- **What the table is to be, and what `apd_find_or_create` is to return.** -/
structure JoinState.Sound (O : Type) (c : ThreadConf) (s : JoinState) : Prop where
  /-- The buckets have the joined APDs, each once. -/
  table : ∀ i < apdHashSize, ∃ l, IsChain (fun p => (s.mem.apd.cell p).next) (s.mem.apdTable i) l ∧
    l.Nodup ∧ ∀ a, a ∈ l ↔ ∃ pd, (a, pd) ∈ s.joined ∧ pdHash c pd = i
  joined : ∀ a pd, (a, pd) ∈ s.joined →
    s.mem.apd.live a = true ∧ (s.mem.apd.cell a).pd = pd
  /-- They know the places that lead to them. -/
  back : ∀ a, s.Joined a →
    ∃ link, (s.mem.apd.cell a).pprev = some link ∧ s.LeadsTo link a
  /-- `apd_find_or_create` comes to an end. -/
  ends : ∀ addr, ∃ fuel₀, ∀ fuel, fuel₀ < fuel → ∀ (os : Kernel O) (pd : ApdDesc)
    (sup : ApdSupply), sup.apd = 0 ∨ s.mem.apd.live sup.apd = false →
      ∃ r, s.mem.apdFindOrCreate c os fuel addr pd sup = some r
  /-- It returns the APD made for the PD, and never one that was freed. -/
  finds : ∀ (os : Kernel O) (fuel addr : ℕ) (pd : ApdDesc) (sup : ApdSupply) (a : ℕ) (k : Mem),
    s.mem.apdFindOrCreate c os fuel addr pd sup = some (a, k) →
      (∀ b, (b, addr) ∈ s.joined → a = b) ∧ (a ≠ 0 → k.apd.live a = true)

/-- The buckets are in order. -/
structure JoinState.Kept (c : ThreadConf) (s : JoinState) : Prop where
  holds : s.mem.apdBuckets.Holds s.Joined fun a => pdHash c (s.mem.apd.cell a).pd
  joined : ∀ a pd, (a, pd) ∈ s.joined →
    s.mem.apd.live a = true ∧ (s.mem.apd.cell a).pd = pd ∧ (s.mem.apd.cell a).pprev ≠ none
  unique : ∀ a b pd, (a, pd) ∈ s.joined → (b, pd) ∈ s.joined → a = b

variable {s s' : JoinState}

/-- What `apd_find_or_create` does. -/
theorem Mem.apdFindOrCreate_cases {os : Kernel O} {pd : ApdDesc} {sup : ApdSupply}
    (h : k.apdFindOrCreate c os fuel addr pd sup = some (a, k')) :
    ∃ found, seek (fun p => (k.apd.cell p).next) (fun p => (k.apd.cell p).pd = addr) fuel
        (k.apdTable (pdHash c addr)) = some found ∧
      ((found ≠ 0 ∧ a = found ∧ k' = k) ∨
        (found = 0 ∧ ∃ k₁, k.apdFromTemplate os pd sup = some (a, k₁) ∧
          ((a = 0 ∧ k' = k₁) ∨ (a ≠ 0 ∧ k' = k₁.apdJoin c addr a)))) := by
  obtain ⟨found, hseek, h⟩ := Option.bind_eq_some_iff.mp h
  refine ⟨found, hseek, ?_⟩
  by_cases hfound : found ≠ 0
  · rw [if_pos hfound] at h
    obtain ⟨rfl, rfl⟩ := Prod.mk.inj (Option.some.inj h)
    exact .inl ⟨hfound, rfl, rfl⟩
  · rw [if_neg hfound] at h
    obtain ⟨⟨a₁, k₁⟩, hmade, h⟩ := Option.map_eq_some_iff.mp h
    refine .inr ⟨not_not.mp hfound, k₁, ?_⟩
    dsimp only at h
    by_cases ha : a₁ = 0
    · rw [if_pos ha] at h
      obtain ⟨rfl, rfl⟩ := Prod.mk.inj h
      exact ⟨hmade, .inl ⟨ha, rfl⟩⟩
    · rw [if_neg ha] at h
      obtain ⟨rfl, rfl⟩ := Prod.mk.inj h
      exact ⟨hmade, .inr ⟨ha, rfl⟩⟩

/-- A bucket, with the PDs of its APDs. -/
theorem JoinState.Kept.bucket (h : s.Kept c) (i : ℕ) :
    ∃ l, Doubly (fun p => (s.mem.apd.cell p).next) (fun p => placeOf (s.mem.apd.cell p).pprev)
        (.head i) (s.mem.apdTable i) l ∧
      ∀ a, a ∈ l ↔ ∃ pd, (a, pd) ∈ s.joined ∧ pdHash c pd = i := by
  obtain ⟨l, hl, hmem⟩ := h.holds i
  refine ⟨l, hl, fun a => (hmem a).trans ⟨?_, ?_⟩⟩
  · rintro ⟨⟨pd, hpd⟩, hi⟩
    dsimp only at hi
    exact ⟨pd, hpd, by rw [← hi, (h.joined a pd hpd).2.1]⟩
  · rintro ⟨pd, hpd, hi⟩
    refine ⟨⟨pd, hpd⟩, ?_⟩
    dsimp only
    rw [(h.joined a pd hpd).2.1, hi]

/-- A search of a bucket finds the APD made for the PD. -/
theorem JoinState.Kept.seek (h : s.Kept c) {found : ℕ}
    (hseek : Chain.seek (fun p => (s.mem.apd.cell p).next)
      (fun p => (s.mem.apd.cell p).pd = addr) fuel (s.mem.apdTable (pdHash c addr)) = some found) :
    (found ≠ 0 → (found, addr) ∈ s.joined) ∧ ∀ b, (b, addr) ∈ s.joined → found = b := by
  obtain ⟨l, hl, hmem⟩ := h.bucket (pdHash c addr)
  have hfound : found ≠ 0 → (found, addr) ∈ s.joined := by
    intro hne
    have hin : found ∈ l := hl.chain.mem_of_reaches (reaches_of_seek hseek hne)
    obtain ⟨pd, hpd, -⟩ := (hmem found).mp hin
    have htest : (s.mem.apd.cell found).pd = addr := of_decide_eq_true (seek_test hseek hne)
    rwa [← htest, (h.joined found pd hpd).2.1]
  refine ⟨hfound, fun b hb => ?_⟩
  have hpd := (h.joined b addr hb).2.1
  by_cases hne : found = 0
  · subst hne
    have hin : b ∈ l := (hmem b).mpr ⟨addr, hb, rfl⟩
    exact absurd (hl.chain.reaches hin) (not_reaches_of_seek hseek (by simpa using hpd))
  · exact h.unique found b addr (hfound hne) hb

/-- **The invariant says what it should.** -/
theorem JoinState.Kept.sound (h : s.Kept c) : s.Sound O c where
  table := by
    intro i _
    obtain ⟨l, hl, hmem⟩ := h.bucket i
    exact ⟨l, hl.chain, hl.chain.nodup, hmem⟩
  joined := fun a pd hpd => ⟨(h.joined a pd hpd).1, (h.joined a pd hpd).2.1⟩
  back := by
    rintro a ⟨pd, hpd⟩
    obtain ⟨-, hpda, hback⟩ := h.joined a pd hpd
    obtain ⟨l, hl, hmem⟩ := h.bucket (pdHash c pd)
    have hin : a ∈ l := (hmem a).mpr ⟨pd, hpd, rfl⟩
    obtain ⟨link, hlink⟩ := Option.ne_none_iff_exists'.mp hback
    have hplace : placeOf (s.mem.apd.cell a).pprev = link.place := by
      rw [hlink]
      rfl
    refine ⟨link, hlink, ?_⟩
    rcases hl.place hin with ⟨hfirst, hat⟩ | ⟨p, hp, -, hnext, hat⟩
    · rw [hplace] at hat
      cases link with
      | next q => cases hat
      | bucket i =>
        obtain rfl : i = pdHash c pd := Place.head.inj hat
        exact ⟨Nat.mod_lt _ (by decide), hfirst.symm⟩
    · rw [hplace] at hat
      cases link with
      | bucket i => cases hat
      | next q =>
        obtain rfl : q = p := Place.next.inj hat
        obtain ⟨pd', hpd', -⟩ := (hmem q).mp hp
        exact ⟨⟨pd', hpd'⟩, hnext⟩
  ends := by
    intro addr
    obtain ⟨n₀, found, hseek, -⟩ := h.holds.seek
      (fun p => decide ((s.mem.apd.cell p).pd = addr)) (pdHash c addr)
    refine ⟨n₀, fun fuel hfuel os pd sup hsup => ?_⟩
    obtain ⟨r, hr⟩ := s.mem.apdFromTemplate_isSome os pd hsup
    have hfound := hseek fuel hfuel
    change Chain.seek (fun p => (s.mem.apd.cell p).next) _ fuel (s.mem.apdTable _) = _ at hfound
    unfold apdFindOrCreate
    dsimp only
    rw [hfound, Option.bind_some]
    split_ifs
    · exact ⟨_, rfl⟩
    · rw [hr]
      exact ⟨_, rfl⟩
  finds := by
    intro os fuel addr pd sup a k hk
    obtain ⟨found, hseek, hcases⟩ := apdFindOrCreate_cases hk
    obtain ⟨hin, honly⟩ := h.seek hseek
    rcases hcases with ⟨hne, rfl, rfl⟩ | ⟨rfl, k₁, hmade, hrest⟩
    · exact ⟨honly, fun _ => (h.joined a addr (hin hne)).1⟩
    · refine ⟨fun b hb => ?_, fun ha => ?_⟩
      · -- there is none, as the search has found nothing
        have hb0 := honly b hb
        obtain ⟨l, hl, hmem⟩ := h.bucket (pdHash c addr)
        have hbl : b ∈ l := (hmem b).mpr ⟨addr, hb, rfl⟩
        exact absurd hb0.symm (hl.chain.ne_zero hbl)
      · rcases hrest with ⟨h0, -⟩ | ⟨-, rfl⟩
        · exact absurd h0 ha
        · rw [(k₁.apdJoin_other addr a).1]
          rcases apdFromTemplate_made hmade with ⟨h0, -⟩ | ⟨rfl, hm⟩
          · exact absurd h0 ha
          · rw [hm.live, if_pos rfl]

/-! ### The steps -/

/-- Other changes leave the buckets in order. -/
theorem JoinState.Kept.spared (h : s.Kept c) (hs : ApdsSpared s.mem k) :
    (JoinState.mk k s.joined).Kept c where
  holds := by
    refine h.holds.congr (fun _ => Iff.rfl) hs.table ?_
    rintro a ⟨pd, hpd⟩
    obtain ⟨hnext, hpprev, hpda⟩ := hs.cell a (h.joined a pd hpd).1
    exact ⟨hnext, congrArg placeOf hpprev, congrArg (pdHash c) hpda⟩
  joined := by
    intro a pd hpd
    obtain ⟨hlive, hpda, hback⟩ := h.joined a pd hpd
    obtain ⟨-, hpprev, hpda'⟩ := hs.cell a hlive
    exact ⟨hs.live a hlive, hpda'.trans hpda, hpprev ▸ hback⟩
  unique := h.unique

/-- **A new APD is put into its bucket.** -/
theorem JoinState.Kept.join (h : s.Kept c) (ha : a ≠ 0) (hnew : ¬ s.Joined a)
    (hlive : s.mem.apd.live a = true) (hnone : ∀ b, (b, addr) ∉ s.joined) :
    (JoinState.mk (s.mem.apdJoin c addr a) ((a, addr) :: s.joined)).Kept c := by
  obtain ⟨hlive', hpd, hpprev, hother⟩ := s.mem.apdJoin_other (c := c) addr a
  have hne : ∀ b pd, (b, pd) ∈ s.joined → b ≠ a := by
    rintro b pd hb rfl
    exact hnew ⟨pd, hb⟩
  refine ⟨?_, fun b pd hb => ?_, fun b b' pd hb hb' => ?_⟩
  · dsimp only
    rw [apdBuckets_apdJoin]
    have hinsert := h.holds.insert (x := a) (b := pdHash c addr)
      (f := fun q => pdHash c ((s.mem.apdJoin c addr a).apd.cell q).pd) hnew ha
      (congrArg (pdHash c) hpd) (by
        rintro q ⟨pd, hq⟩
        exact congrArg (pdHash c) (hother q (hne q pd hq)).1)
    refine hinsert.congr (fun q => ?_) rfl fun q _ => ⟨rfl, rfl, rfl⟩
    unfold JoinState.Joined
    simp only [List.mem_cons, Prod.mk.injEq]
    constructor
    · rintro ⟨pd, ⟨rfl, -⟩ | hq⟩
      · exact .inl rfl
      · exact .inr ⟨pd, hq⟩
    · rintro (rfl | ⟨pd, hq⟩)
      · exact ⟨addr, .inl ⟨rfl, rfl⟩⟩
      · exact ⟨pd, .inr hq⟩
  · dsimp only
    rw [hlive']
    rcases List.mem_cons.mp hb with heq | hb
    · obtain ⟨rfl, rfl⟩ := Prod.mk.inj heq
      exact ⟨hlive, hpd, by rw [hpprev]; nofun⟩
    · obtain ⟨hlb, hpb, hback⟩ := h.joined b pd hb
      obtain ⟨hpd', hback'⟩ := hother b (hne b pd hb)
      exact ⟨hlb, hpd'.trans hpb, hback' hback⟩
  · rcases List.mem_cons.mp hb with heq | hold
    · obtain ⟨rfl, rfl⟩ := Prod.mk.inj heq
      rcases List.mem_cons.mp hb' with heq' | hold'
      · exact (Prod.mk.inj heq').1.symm
      · exact absurd hold' (hnone b')
    · rcases List.mem_cons.mp hb' with heq' | hold'
      · obtain ⟨rfl, rfl⟩ := Prod.mk.inj heq'
        exact absurd hold (hnone b)
      · exact h.unique b b' pd hold hold'

theorem kept_find (h : s.Kept c) {os : Kernel O} {pd : ApdDesc} {sup : ApdSupply}
    (hstep : joinStep c s (.find os fuel addr pd sup) = some s') : s'.Kept c := by
  obtain ⟨⟨a, k⟩, hfind, rfl⟩ := Option.map_eq_some_iff.mp hstep
  obtain ⟨found, hseek, hcases⟩ := apdFindOrCreate_cases hfind
  obtain ⟨hin, honly⟩ := h.seek hseek
  dsimp only
  rcases hcases with ⟨hne, rfl, rfl⟩ | ⟨rfl, k₁, hmade, hrest⟩
  · rw [if_pos (.inr (hin hne))]
    exact h
  · have hspared := h.spared (apdFromTemplate_spared hmade)
    rcases hrest with ⟨rfl, rfl⟩ | ⟨hne, rfl⟩
    · rw [if_pos (.inl rfl)]
      exact hspared
    · rcases apdFromTemplate_made hmade with ⟨h0, -⟩ | ⟨rfl, hm⟩
      · exact absurd h0 hne
      · have hnew : ¬ s.Joined sup.apd := by
          rintro ⟨pd', hpd'⟩
          have hlive := (h.joined _ _ hpd').1
          rw [hm.free] at hlive
          cases hlive
        have hnone : ∀ b, (b, addr) ∉ s.joined := by
          intro b hb
          have hb0 := honly b hb
          obtain ⟨l, hl, hmem⟩ := h.bucket (pdHash c addr)
          exact hl.chain.ne_zero ((hmem b).mpr ⟨addr, hb, rfl⟩) hb0.symm
        rw [if_neg]
        · exact hspared.join hne hnew (by dsimp only; rw [hm.live, if_pos rfl]) hnone
        · rintro (h0 | hmem)
          · exact hne h0
          · exact hnone _ hmem

/-- `apd_close` first takes the APD out of the cache for PDX calls. -/
theorem spared_cacheRemove (k : Mem) (a : ℕ) :
    ApdsSpared k (if (k.apd.cell a).closing then k else k.apdPdxCacheRemove a) := by
  split_ifs
  · exact .of_cell rfl fun q hq => ⟨rfl, hq⟩
  · exact .of_cell rfl fun q hq => ⟨rfl, hq⟩

/-- A change of other fields. -/
theorem spared_modApd (k : Mem) (p : ℕ) {f : Apd → Apd}
    (hf : ∀ x, (f x).next = x.next ∧ (f x).pprev = x.pprev ∧ (f x).pd = x.pd) :
    ApdsSpared k (k.modApd p f) :=
  ⟨rfl, fun q _ => ⟨Heap.modify_field (fun x => (hf x).1) q,
    Heap.modify_field (fun x => (hf x).2.1) q, Heap.modify_field (fun x => (hf x).2.2) q⟩,
    fun _ => id⟩

/-- What `apd_close` does. -/
theorem joinStep_close (hstep : joinStep c s (.close fuel a : JoinOp O) = some s') :
    ((s.mem.apd.cell a).users ≠ 0 ∧ s'.joined = s.joined ∧
        ∃ k, ApdsSpared s.mem k ∧ s'.mem = k.modApd a fun x => { x with closing := true }) ∨
      ((s.mem.apd.cell a).users = 0 ∧ s'.joined = s.joined.filter (fun t => t.1 ≠ a) ∧
        ∃ k, ApdsSpared s.mem k ∧ k.apd = s.mem.apd ∧ k.apdFree c fuel a = some s'.mem) := by
  obtain ⟨⟨freed, k'⟩, hclose, rfl⟩ := Option.map_eq_some_iff.mp hstep
  have hspared := spared_cacheRemove s.mem a
  have hapd : (if (s.mem.apd.cell a).closing then s.mem else s.mem.apdPdxCacheRemove a).apd
      = s.mem.apd := by split_ifs <;> rfl
  unfold apdClose at hclose
  dsimp only at hclose
  generalize (if (s.mem.apd.cell a).closing then s.mem else s.mem.apdPdxCacheRemove a) = k₀
    at hclose hspared hapd
  rw [hapd] at hclose
  by_cases husers : (s.mem.apd.cell a).users = 0
  · rw [if_neg (not_not.mpr husers)] at hclose
    obtain ⟨k₁, hfree, heq⟩ := Option.map_eq_some_iff.mp hclose
    obtain ⟨rfl, rfl⟩ := Prod.mk.inj heq
    exact .inr ⟨husers, rfl, k₀, hspared, hapd, hfree⟩
  · rw [if_pos husers] at hclose
    obtain ⟨rfl, rfl⟩ := Prod.mk.inj (Option.some.inj hclose)
    exact .inl ⟨husers, rfl, k₀, hspared, rfl⟩

theorem kept_close (h : s.Kept c) (ha : s.Joined a)
    (hlast : (s.mem.apd.cell a).users = 0 → (s.mem.apd.cell a).next = 0)
    (hstep : joinStep c s (.close fuel a : JoinOp O) = some s') : s'.Kept c := by
  obtain ⟨mem', joined'⟩ := s'
  rcases joinStep_close hstep with ⟨-, rfl, k, hs, rfl⟩ | ⟨husers, rfl, k, hs, hapd, hfree⟩
  · exact (h.spared hs).spared (spared_modApd k a fun _ => ⟨rfl, rfl, rfl⟩)
  · have hk := h.spared hs
    obtain ⟨pd, hpd⟩ := ha
    obtain ⟨hbuckets, hlive, hcell⟩ := apdBuckets_apdFree hfree
    have hnext : k.apdBuckets.next a = 0 := by
      show (k.apd.cell a).next = 0
      rw [hapd]
      exact hlast husers
    obtain ⟨link, hlink⟩ := Option.ne_none_iff_exists'.mp (hk.joined a pd hpd).2.2
    dsimp only at hlink
    have hplace : k.apdBuckets.pprev a = link.place := by
      show placeOf (k.apd.cell a).pprev = _
      rw [hlink]
      rfl
    have hremove : mem'.apdBuckets = k.apdBuckets.remove a := by
      rw [hbuckets, hlink, Buckets.remove_of_last hnext, hplace]
      dsimp only
      rw [show (k.apd.cell a).next = 0 from hnext]
    have hmem : ∀ b pd, (b, pd) ∈ s.joined.filter (fun t => t.1 ≠ a) ↔
        (b, pd) ∈ s.joined ∧ b ≠ a := by
      intro b pd
      rw [List.mem_filter, decide_eq_true_eq]
    refine ⟨?_, fun b pd' hb => ?_, fun b b' pd' hb hb' => ?_⟩
    · dsimp only
      rw [hremove]
      refine (hk.holds.remove ⟨pd, hpd⟩).congr (fun b => ?_) rfl fun b _ => ⟨rfl, rfl, ?_⟩
      · unfold JoinState.Joined
        dsimp only
        simp only [hmem]
        exact ⟨fun ⟨pd', h₁, h₂⟩ => ⟨⟨pd', h₁⟩, h₂⟩, fun ⟨⟨pd', h₁⟩, h₂⟩ => ⟨pd', h₁, h₂⟩⟩
      · exact congrArg (pdHash c) (hcell b).1
    · obtain ⟨hb, hne⟩ := (hmem b pd').mp hb
      obtain ⟨hlb, hpb, hback⟩ := hk.joined b pd' hb
      dsimp only at hlb hpb hback ⊢
      rw [hlive, if_neg hne, (hcell b).1, (hcell b).2]
      exact ⟨hlb, hpb, hback⟩
    · exact h.unique b b' pd' ((hmem b pd').mp hb).1 ((hmem b' pd').mp hb').1

/-- **One call keeps the buckets in order**, if an APD that goes is the last one of its bucket. -/
theorem kept_joinStep (h : s.Kept c) {op : JoinOp O} (hon : OnJoined s op) (hlast : Last s op)
    (hstep : joinStep c s op = some s') : s'.Kept c := by
  cases op with
  | find os fuel addr pd sup => exact kept_find h hstep
  | close fuel a => exact kept_close h hon hlast hstep
  | hold a users =>
    obtain rfl := Option.some.inj hstep
    exact h.spared (spared_modApd s.mem a fun _ => ⟨rfl, rfl, rfl⟩)

/-- When an APD goes that is not the last one, the next one knows a place that is not there any
more. -/
theorem last_of_sound (h : s.Kept c) {op : JoinOp O} (hon : OnJoined s op)
    (hstep : joinStep c s op = some s') (hs' : s'.Sound O c) : Last s op := by
  cases op with
  | find os fuel addr pd sup => trivial
  | hold a users => trivial
  | close fuel a =>
    intro husers
    by_contra hne
    obtain ⟨mem', joined'⟩ := s'
    rcases joinStep_close hstep with ⟨hu, -⟩ | ⟨-, rfl, k, hs, hapd, hfree⟩
    · exact hu husers
    · obtain ⟨-, -, hcell⟩ := apdBuckets_apdFree hfree
      obtain ⟨pd, hpd⟩ := hon
      obtain ⟨l, hl, hmem⟩ := h.bucket (pdHash c pd)
      have hal : a ∈ l := (hmem a).mpr ⟨pd, hpd, rfl⟩
      have hback := hl.next_back hal hne
      obtain ⟨pd', hpd', -⟩ := (hmem _).mp (hl.next_mem hal hne).1
      have hself : (s.mem.apd.cell a).next ≠ a := hl.chain.next_ne hal
      have hjoined : (JoinState.mk mem' (s.joined.filter fun t => t.1 ≠ a)).Joined
          (s.mem.apd.cell a).next :=
        ⟨pd', List.mem_filter.mpr ⟨hpd', decide_eq_true hself⟩⟩
      obtain ⟨link, hlink, hleads⟩ := hs'.back _ hjoined
      dsimp only at hlink
      rw [(hcell _).2, hapd] at hlink
      rw [hlink] at hback
      cases link with
      | bucket i => cases hback
      | next q =>
        obtain rfl : q = a := Place.next.inj hback
        obtain ⟨⟨pd'', hq⟩, -⟩ := hleads
        have hq' := (List.mem_filter.mp hq).2
        simp at hq'

/-- **The table of joined APDs.**  From an empty table, it is right in all states of a run, and so
is what `apd_find_or_create` returns, just when every APD that is freed is the last one of its
bucket. -/
theorem joined_iff (c : ThreadConf) (k : Mem) (htable : ∀ i, k.apdTable i = 0)
    (ops : List (JoinOp O)) (hon : Along (joinStep c) OnJoined ⟨k, []⟩ ops) {s : JoinState}
    (hrun : run (joinStep c) ⟨k, []⟩ ops = some s) :
    (∀ l s', l <+: ops → run (joinStep c) ⟨k, []⟩ l = some s' → s'.Sound O c) ↔
      Along (joinStep c) Last ⟨k, []⟩ ops := by
  have hstart : (JoinState.mk k []).Kept c := by
    refine ⟨?_, nofun, nofun⟩
    have hempty : k.apdBuckets.Holds (fun _ => False) fun a => pdHash c (k.apd.cell a).pd :=
      Buckets.Holds.empty htable
    exact hempty.congr (fun a => iff_of_false nofun id) rfl nofun
  exact reached_iff_along (fun _ h => h.sound) (fun _ _ _ h hD hG hs => kept_joinStep h hD hG hs)
    (fun _ _ _ h hD hs hP => last_of_sound h hD hs hP) ops _ s hstart hon hrun

/-- Two PDs of one bucket are joined, and the APD that was joined last is closed first. -/
def headClosed : List (JoinOp ℕ) :=
  [.find pdxKernel 5 0x1000 oneSlot (apdAt 100), .find pdxKernel 5 0x201000 oneSlot (apdAt 101),
    .close 5 101]

/-- The other APD still knows the link of the one that is gone. -/
theorem joined_not_sound : ¬ ∀ (c : ThreadConf) (k : Mem) (ops : List (JoinOp ℕ)) (s : JoinState),
    (∀ i, k.apdTable i = 0) → Along (joinStep c) OnJoined ⟨k, []⟩ ops →
      run (joinStep c) ⟨k, []⟩ ops = some s → s.Sound ℕ c := by
  intro h
  have hend : (run (joinStep smallConf) ⟨Mem.boot, []⟩ headClosed).map (fun s =>
      (s.joined, decide ((s.mem.apd.cell 100).pprev = some (.next 101))))
        = some ([(100, 0x1000)], true) := by
    decide +kernel
  obtain ⟨s, hrun, hs⟩ := Option.map_eq_some_iff.mp hend
  obtain ⟨hjoined, hback⟩ := Prod.mk.inj hs
  have hsound := h smallConf Mem.boot headClosed s (fun _ => rfl) (by decide +kernel) hrun
  obtain ⟨link, hlink, hleads⟩ := hsound.back 100 ⟨0x1000, hjoined ▸ List.mem_cons_self⟩
  rw [of_decide_eq_true hback] at hlink
  obtain rfl := Option.some.inj hlink
  obtain ⟨⟨pd, hpd⟩, -⟩ := hleads
  rw [hjoined] at hpd
  revert hpd
  simp

/-- Three PDs of one bucket are joined, and the APDs closed in the order they were joined. -/
def tailsClosed : List (JoinOp ℕ) :=
  [.find pdxKernel 5 0x1000 oneSlot (apdAt 100), .find pdxKernel 5 0x201000 oneSlot (apdAt 101),
    .find pdxKernel 5 0x1000 oneSlot (apdAt 0), .hold 100 1, .close 5 100, .hold 100 0, .close 5 100,
    .find pdxKernel 5 0x401000 oneSlot (apdAt 100), .close 5 101]

theorem joined_tailsClosed : Along (joinStep smallConf) Last ⟨Mem.boot, []⟩ tailsClosed ∧
    ∀ l s', l <+: tailsClosed → run (joinStep smallConf) ⟨Mem.boot, []⟩ l = some s' →
      s'.Sound ℕ smallConf := by
  have hlast : Along (joinStep smallConf) Last ⟨Mem.boot, []⟩ tailsClosed := by decide +kernel
  have hend : (run (joinStep smallConf) ⟨Mem.boot, []⟩ tailsClosed).isSome = true := by
    decide +kernel
  obtain ⟨s, hrun⟩ := Option.isSome_iff_exists.mp hend
  refine ⟨hlast, (joined_iff smallConf Mem.boot (fun _ => rfl) tailsClosed ?_ hrun).mpr hlast⟩
  decide +kernel

end Mungi
