import Mungi.Threads.Closing
import Mungi.Threads.Making

/-!
# The users of an APD

An APD counts its users, and is freed when there are none.  What is true of the count depends
on which calls are made, so it is a parameter here, with the rules that it has to obey.

## Main definitions

* `threadsOf` — how many of the threads in use are the APD's.
* `Tally` — what may be true of the count.
* `ClosedRightly` — an APD is closed when none of its threads is in use.
* `Owned` — the threads are where they should be, and the counts are true.

## Main results

* `Owned.threadCreate`, `Owned.ended`, `Owned.apdPdxMerge`, `Owned.apdClose` — **the calls keep
  the invariant.**
-/

namespace Mungi

open Chain Runs Mem

variable {O : Type} {c : ThreadConf} {k k' : Mem} {fuel a b m : ℕ} {l : List Event}

/-! ### Threads in use -/

/-- How many of the threads are the APD's. -/
def threadsOf (busy : List (ℕ × ℕ)) (a : ℕ) : ℕ := busy.countP fun t => t.2 = a

theorem threadsOf_cons (m a b : ℕ) (busy : List (ℕ × ℕ)) :
    threadsOf ((m, a) :: busy) b = threadsOf busy b + if a = b then 1 else 0 := by
  unfold threadsOf
  rw [List.countP_cons]
  simp only [decide_eq_true_eq]

theorem threadsOf_eq_zero {busy : List (ℕ × ℕ)} : threadsOf busy a = 0 ↔ ∀ m, (m, a) ∉ busy := by
  unfold threadsOf
  rw [List.countP_eq_zero]
  constructor
  · intro h m hm
    exact h (m, a) hm (decide_eq_true rfl)
  · rintro h ⟨m, b⟩ hm hb
    obtain rfl := of_decide_eq_true hb
    exact h m hm

/-- The thread is in use. -/
def InUse (l : List Event) (m : ℕ) : Prop := m ∈ (handedOut l).map Prod.fst

theorem InUse.home (h : InUse l m) : ∃ a, (m, a) ∈ handedOut l := by
  obtain ⟨⟨m', a⟩, hm, rfl⟩ := List.mem_map.mp h
  exact ⟨a, hm⟩

instance (l : List Event) (m : ℕ) : Decidable (InUse l m) :=
  inferInstanceAs (Decidable (m ∈ (handedOut l).map Prod.fst))

/-- A release takes the thread from those in use. -/
theorem handedOut_released (hm : (m, a) ∈ handedOut l)
    (hnodup : ((handedOut l).map Prod.fst).Nodup) :
    (handedOut l).Perm ((m, a) :: handedOut (.released m :: l)) := by
  obtain ⟨⟨m', b⟩, l₁, l₂, -, htest, hl, herase⟩ :=
    List.exists_of_eraseP (p := fun t : ℕ × ℕ => decide (t.1 = m)) hm (decide_eq_true rfl)
  obtain rfl : m' = m := of_decide_eq_true htest
  have hsame : (m', a) = (m', b) := by
    have hb : (m', b) ∈ handedOut l := by
      rw [hl]
      exact List.mem_append_right _ List.mem_cons_self
    exact List.inj_on_of_nodup_map hnodup hm hb rfl
  have hout : handedOut (.released m' :: l) = l₁ ++ l₂ := herase
  rw [hout, hsame, hl]
  exact List.perm_middle

/-! ### The count -/

/-- What may be true of an APD with `n` threads in use, the count `users`, and the mark of
`apd_close`: the rules that hold of it whatever is called. -/
structure Tally (T : ℕ → ℤ → Bool → Prop) : Prop where
  le : ∀ {n users closing}, T n users closing → (n : ℤ) ≤ users
  closing : ∀ {n users}, T n users true → 0 < users
  fresh : T 0 0 false
  create : ∀ {n users closing}, T n users closing → T (n + 1) (users + 1) closing
  release : ∀ {n users closing}, T (n + 1) users closing → (closing = true → users - 1 ≠ 0) →
    T n (users - 1) closing
  close : ∀ {n users closing}, T n users closing → users ≠ 0 → T n users true

/-- An APD is closed when none of its threads is in use, and one that was marked, when its last
thread has just been released. -/
def ClosedRightly (e : Event) (l : List Event) : Prop :=
  ∀ a closing, e = .closed a closing → (∀ m, (m, a) ∉ handedOut l) ∧
    (closing = true → ∃ m l', l = .released m :: l' ∧ (m, a) ∈ handedOut l')

/-- The APD may be in the cache: it is in memory, and if it is marked, it has users that are no
threads. -/
def Mem.Cacheable (k : Mem) (a : ℕ) : Prop :=
  k.apd.live a = true ∧ ((k.apd.cell a).closing = true →
    (threadsOf (handedOut k.log) a : ℤ) < (k.apd.cell a).users)

/-- The threads are where they should be, the counts are true, and so is the cache. -/
structure Owned (T : ℕ → ℤ → Bool → Prop) (k : Mem) : Prop where
  placed : Placed (handedOut k.log) k
  tally : ∀ a, k.apd.live a = true →
    T (threadsOf (handedOut k.log) a) (k.apd.cell a).users (k.apd.cell a).closing
  cached : ∀ i < apdPdxCacheSize, (k.apdPdxCache i).apd ≠ 0 → k.Cacheable (k.apdPdxCache i).apd
  closed : Each ClosedRightly k.log

variable {T : ℕ → ℤ → Bool → Prop}

/-- Before there are threads and APDs. -/
theorem Mem.Booted.owned (h : k.Booted) : Owned T k where
  placed := by
    rw [h.log]
    exact ⟨List.nodup_nil, nofun, fun a ha => absurd ha (by rw [h.apd]; nofun),
      fun a ha => absurd ha (by rw [h.apd]; nofun)⟩
  tally := fun a ha => absurd ha (by rw [h.apd]; nofun)
  cached := fun i _ hi => absurd (h.apdPdxCache i) hi
  closed := by
    rw [h.log]
    exact each_nil

/-! ### Closing -/

/-- **Closing an APD keeps the invariant**, if it is freed without threads in use, and if it
may be marked otherwise. -/
theorem owned_of_close {freed : Bool} (hp : Placed (handedOut k.log) k)
    (ha : k.apd.live a = true)
    (htally : ∀ b, k.apd.live b = true → b ≠ a →
      T (threadsOf (handedOut k.log) b) (k.apd.cell b).users (k.apd.cell b).closing)
    (hzero : (k.apd.cell a).users = 0 → ∀ m, (m, a) ∉ handedOut k.log)
    (hmark : (k.apd.cell a).users ≠ 0 →
      T (threadsOf (handedOut k.log) a) (k.apd.cell a).users true)
    (hcached : ∀ i < apdPdxCacheSize, (k.apdPdxCache i).apd ≠ 0 →
      k.Cacheable (k.apdPdxCache i).apd)
    (hclosed : Each ClosedRightly k.log)
    (hlast : (k.apd.cell a).closing = true → (k.apd.cell a).users = 0 →
      ∃ m l', k.log = .released m :: l' ∧ (m, a) ∈ handedOut l')
    (h : k.apdClose c fuel a = some (freed, k')) : Owned T k' := by
  obtain ⟨hother, hout⟩ := apdClose_other h
  have hspec := apdClose_closed h
  dsimp only at hspec
  generalize hk₀ : (if (k.apd.cell a).closing then k else k.apdPdxCacheRemove a) = k₀ at hspec
  have hapd : k₀.apd = k.apd := by
    rw [← hk₀]
    split_ifs <;> rfl
  have hlog : k₀.log = k.log := by
    rw [← hk₀]
    split_ifs <;> rfl
  have hp₀ : Placed (handedOut k.log) k₀ := by
    rw [← hk₀]
    split_ifs
    · exact hp
    · exact hp.kept rfl (fun _ _ => rfl) (fun _ _ => rfl) (.of_eq rfl rfl rfl)
  -- what is in the cache is another APD, or one that was marked before
  have hcache : k'.apdPdxCache = k₀.apdPdxCache := by
    rcases hspec with ⟨-, rfl⟩ | ⟨-, pool, tasks, hfreed⟩
    · rfl
    · exact hfreed.apdPdxCache
  have hin : ∀ i < apdPdxCacheSize, (k₀.apdPdxCache i).apd ≠ 0 →
      (k₀.apdPdxCache i).apd = (k.apdPdxCache i).apd ∧
        ((k.apdPdxCache i).apd = a → (k.apd.cell a).closing = true) := by
    intro i hi hne
    rw [← hk₀] at hne ⊢
    split_ifs at hne ⊢ with hcl
    · exact ⟨rfl, fun _ => hcl⟩
    · unfold apdPdxCacheRemove at hne ⊢
      dsimp only at hne ⊢
      split_ifs at hne ⊢ with hrem
      · exact absurd rfl hne
      · exact ⟨rfl, fun heq => absurd ⟨hi, heq⟩ hrem⟩
  have hrest : ∀ i < apdPdxCacheSize, (k'.apdPdxCache i).apd ≠ 0 → (k'.apdPdxCache i).apd ≠ a →
      k'.Cacheable (k'.apdPdxCache i).apd := by
    intro i hi hne hnea
    rw [hcache] at hne hnea ⊢
    obtain ⟨heq, -⟩ := hin i hi hne
    rw [heq] at hne hnea ⊢
    obtain ⟨h₁, h₂, h₃⟩ := hother _ hnea
    unfold Cacheable
    rw [h₁, h₂, h₃, hout]
    exact hcached i hi hne
  have htallyOther : ∀ b, k'.apd.live b = true → b ≠ a →
      T (threadsOf (handedOut k'.log) b) (k'.apd.cell b).users (k'.apd.cell b).closing := by
    intro b hb hba
    obtain ⟨h₁, h₂, h₃⟩ := hother b hba
    rw [h₂, h₃, hout]
    exact htally b (h₁ ▸ hb) hba
  rcases hspec with ⟨husers, rfl⟩ | ⟨husers, pool, tasks, hfreed⟩
  · refine ⟨?_, fun b hb => ?_, fun i hi hne => ?_, ?_⟩
    · rw [hout]
      exact hp₀.modApd a fun _ => ⟨rfl, rfl⟩
    · by_cases hba : b = a
      · subst hba
        rw [hout]
        dsimp only
        rw [Heap.cell_modify_self, hapd]
        exact hmark husers
      · exact htallyOther b hb hba
    · by_cases hnea : (k₀.apdPdxCache i).apd = a
      · obtain ⟨heq, hcl⟩ := hin i hi hne
        obtain ⟨hlive, hlt⟩ := hcached i hi (heq ▸ hne)
        rw [heq] at hnea
        unfold Cacheable
        dsimp only
        rw [hlog, heq, hnea, Heap.cell_modify_self, hapd]
        rw [hnea] at hlt
        exact ⟨ha, fun _ => hlt (hcl hnea)⟩
      · exact hrest i hi hne hnea
    · dsimp only
      rw [hlog]
      exact hclosed
  · have hidle := hzero husers
    refine ⟨?_, fun b hb => ?_, fun i hi hne => ?_, ?_⟩
    · rw [hout]
      exact hp₀.freed (by rw [hapd, ha]) hidle hfreed
    · refine htallyOther b hb ?_
      rintro rfl
      rw [hfreed.apdLive, if_pos rfl] at hb
      cases hb
    · refine hrest i hi hne fun hnea => ?_
      rw [hcache] at hne hnea
      obtain ⟨heq, hcl⟩ := hin i hi hne
      rw [heq] at hnea
      obtain ⟨-, hlt⟩ := hcached i hi (heq ▸ hne)
      rw [hnea] at hlt
      have := hlt (hcl hnea)
      omega
    · rw [hfreed.log, hlog, hapd]
      refine ⟨?_, hclosed⟩
      rintro b cl heq
      obtain ⟨rfl, rfl⟩ := Event.closed.inj heq
      exact ⟨hidle, fun hcl => hlast hcl husers⟩

/-- **`apd_close` keeps the invariant.** -/
theorem Owned.apdClose (ht : Tally T) (h : Owned T k) (ha : k.apd.live a = true) {freed : Bool}
    (hc : k.apdClose c fuel a = some (freed, k')) : Owned T k' := by
  have hcount := h.tally a ha
  refine owned_of_close h.placed ha (fun b hb _ => h.tally b hb) (fun husers => ?_)
    (ht.close hcount) h.cached h.closed (fun hcl husers => ?_) hc
  · have hle := ht.le hcount
    rw [husers] at hle
    exact threadsOf_eq_zero.mp (by omega)
  · rw [hcl] at hcount
    exact absurd husers (ht.closing hcount).ne'

/-! ### Other changes -/

theorem Owned.sameApds (h : Owned T k) (hs : SameApds k k')
    (hp : Placed (handedOut k.log) k') : Owned T k' := by
  refine ⟨?_, fun b hb => ?_, fun i hi hne => ?_, ?_⟩
  · rw [hs.log]
    exact hp
  · rw [hs.users, hs.closing, hs.log]
    exact h.tally b (hs.live ▸ hb)
  · rw [hs.apdPdxCache] at hne ⊢
    unfold Cacheable
    rw [hs.live, hs.closing, hs.users, hs.log]
    exact h.cached i hi hne
  · rw [hs.log]
    exact h.closed

theorem Owned.frame (h : Owned T k) (hf : Frame k k') : Owned T k' :=
  h.sameApds hf.sameApds (h.placed.frame hf)

/-- Events that hand out no thread, and take none back. -/
theorem Owned.withEvents (h : Owned T k) (events : List Event)
    (hout : ∀ l, handedOut (events ++ l) = handedOut l)
    (hclosed : ∀ l, Each ClosedRightly l → Each ClosedRightly (events ++ l)) :
    Owned T { k with log := events ++ k.log } := by
  refine ⟨?_, fun b hb => ?_, fun i hi hne => ?_, hclosed _ h.closed⟩
  · rw [hout]
    exact h.placed.withLog _
  · rw [hout]
    exact h.tally b hb
  · unfold Cacheable
    rw [hout]
    exact h.cached i hi hne

/-! ### Releasing -/

/-- **`thread_release` keeps the invariant**, for a thread in use. -/
theorem Owned.threadRelease (ht : Tally T) (h : Owned T k) (hm : InUse k.log m)
    (hr : k.threadRelease c fuel m = some k') : Owned T k' := by
  obtain ⟨a, hma⟩ := hm.home
  obtain ⟨ha, e, he⟩ := h.placed.home m a hma
  obtain ⟨k₁, hpushed, hend⟩ := threadRelease_released hr
  rw [he.apd] at hend
  have husers := hpushed.users
  rw [he.apd] at husers
  have hperm := handedOut_released hma h.placed.nodup
  rw [← hpushed.log] at hperm
  have hp₁ : Placed (handedOut k₁.log) k₁ := by
    refine hpushed.placed _ ?_
    rw [he.apd]
    exact h.placed.perm hperm
  have hcount : ∀ b, threadsOf (handedOut k.log) b
      = threadsOf (handedOut k₁.log) b + if a = b then 1 else 0 := fun b =>
    (hperm.countP_eq _).trans (threadsOf_cons m a b _)
  have hself : threadsOf (handedOut k.log) a = threadsOf (handedOut k₁.log) a + 1 := by
    rw [hcount, if_pos rfl]
  have hother : ∀ b, k₁.apd.live b = true → b ≠ a →
      T (threadsOf (handedOut k₁.log) b) (k₁.apd.cell b).users (k₁.apd.cell b).closing := by
    intro b hb hba
    have hT := h.tally b (hpushed.live ▸ hb)
    rw [hcount, if_neg (Ne.symm hba), Nat.add_zero] at hT
    rw [husers, if_neg hba, hpushed.closing]
    exact hT
  have hcached : ∀ i < apdPdxCacheSize, (k₁.apdPdxCache i).apd ≠ 0 →
      k₁.Cacheable (k₁.apdPdxCache i).apd := by
    intro i hi hne
    rw [hpushed.apdPdxCache] at hne ⊢
    obtain ⟨hlive, hlt⟩ := h.cached i hi hne
    refine ⟨by rw [hpushed.live, hlive], fun hcl => ?_⟩
    rw [hpushed.closing] at hcl
    have hlt := hlt hcl
    rw [hcount] at hlt
    rw [husers]
    split_ifs at hlt ⊢ with h₁ h₂ h₂
    · push_cast at hlt
      omega
    · exact absurd h₁.symm h₂
    · exact absurd h₂.symm h₁
    · exact hlt
  have hclosed : Each ClosedRightly k₁.log := by
    rw [hpushed.log]
    exact ⟨nofun, h.closed⟩
  have hT := h.tally a ha
  rw [hself] at hT
  have husersA : (k₁.apd.cell a).users = (k.apd.cell a).users - 1 := by rw [husers, if_pos rfl]
  rcases hend with ⟨hcl, rfl⟩ | ⟨hcl, freed, hclose⟩
  · refine ⟨hp₁, fun b hb => ?_, hcached, hclosed⟩
    by_cases hba : b = a
    · subst hba
      rw [husersA, hpushed.closing]
      exact ht.release hT fun h => absurd h (by rw [hcl]; nofun)
    · exact hother b hb hba
  · refine owned_of_close hp₁ (by rw [hpushed.live, ha]) hother (fun hzero => ?_) (fun hne => ?_)
      hcached hclosed (fun _ _ => ?_) hclose
    · have hle := ht.le hT
      rw [husersA] at hzero
      push_cast at hle
      exact threadsOf_eq_zero.mp (by omega)
    · rw [husersA] at hne ⊢
      rw [hcl] at hT
      exact ht.release hT fun _ => hne
    · exact ⟨m, k.log, hpushed.log, hma⟩

/-- **The end of a thread keeps the invariant.** -/
theorem Owned.ended (ht : Tally T) (events : List Event)
    (h : Owned T { k with log := events ++ k.log })
    (hm : InUse (events ++ k.log) m) (he : Ended c m k events k') : Owned T k' := by
  cases he with
  | kept frame => exact h.frame frame
  | released frame fuel release =>
    refine (h.frame frame).threadRelease ht ?_ release
    rw [frame.log]
    exact hm

/-! ### Creating -/

/-- **A creation keeps the invariant**, if a user may be counted that is no thread, or the
creation succeeds. -/
theorem Owned.created (ht : Tally T) (h : Owned T k) (ha : k.apd.live a = true)
    {events : List Event}
    (hout : ∀ l, handedOut (events ++ l) = if m = 0 then handedOut l else (m, a) :: handedOut l)
    (hclosed : ∀ l, Each ClosedRightly l → Each ClosedRightly (events ++ l))
    (hleak : m = 0 → ∀ {n users closing}, T n users closing → T n (users + 1) closing)
    {sup : ThreadSupply} {caller : ℕ} (hb : Begun k a sup m caller events k')
    (hc : Created (handedOut k.log) a m k') : Owned T k' := by
  have hlog : k'.log = events ++ k.log := hb.apart.log
  have hbusy : handedOut k'.log
      = if m = 0 then handedOut k.log else (m, a) :: handedOut k.log := by rw [hlog, hout]
  have husers : ∀ b, (k'.apd.cell b).users
      = if b = a then (k.apd.cell a).users + 1 else (k.apd.cell b).users := by
    intro b
    rw [hb.apart.users]
    dsimp only
    rw [Heap.cell_modify]
    split_ifs <;> rfl
  have hcl : ∀ b, (k'.apd.cell b).closing = (k.apd.cell b).closing := by
    intro b
    rw [hb.apart.closing]
    dsimp only
    refine Heap.modify_field (g := Apd.closing) ?_ b
    exact fun _ => rfl
  have hlive : k'.apd.live = k.apd.live := hb.apart.live
  have hcache : k'.apdPdxCache = k.apdPdxCache := hb.apart.apdPdxCache
  -- one user more, and one thread more at most
  have hmore : ∀ b, threadsOf (handedOut k'.log) b ≤ threadsOf (handedOut k.log) b
      + if b = a then 1 else 0 := by
    intro b
    rw [hbusy]
    split_ifs with hm hb hb
    · omega
    · omega
    · rw [threadsOf_cons, if_pos hb.symm]
    · rw [threadsOf_cons, if_neg (Ne.symm hb)]
  refine ⟨?_, fun b hb => ?_, fun i hi hne => ?_, ?_⟩
  · rw [hbusy]
    split_ifs with hm
    · exact hc.failed hm
    · exact hc.placed hm
  · rw [hlive] at hb
    have hT := h.tally b hb
    rw [husers, hcl, hbusy]
    by_cases hba : b = a
    · subst hba
      rw [if_pos rfl]
      split_ifs with hm
      · exact hleak hm hT
      · rw [threadsOf_cons, if_pos rfl]
        exact ht.create hT
    · rw [if_neg hba]
      split_ifs with hm
      · exact hT
      · rw [threadsOf_cons, if_neg (Ne.symm hba)]
        exact hT
  · rw [hcache] at hne ⊢
    obtain ⟨hl, hlt⟩ := h.cached i hi hne
    refine ⟨by rw [hlive, hl], fun hcl' => ?_⟩
    rw [hcl] at hcl'
    have hlt := hlt hcl'
    have hmore := hmore (k.apdPdxCache i).apd
    rw [husers]
    split_ifs at hmore ⊢ with hb
    · rw [hb] at hlt hmore ⊢
      omega
    · omega
  · rw [hlog]
    exact hclosed _ h.closed

/-! ### Making APDs -/

theorem Mem.ApdsKept.fields (h : ApdsKept k a k') (hb : k.apd.live b = true) :
    (k'.apd.cell b).users = (k.apd.cell b).users ∧
      (k'.apd.cell b).closing = (k.apd.cell b).closing ∧
      (k'.apd.cell b).threads = (k.apd.cell b).threads ∧
      (k'.apd.cell b).tasks = (k.apd.cell b).tasks :=
  Apd.use_eq (h.apd b (Or.inr (Or.inl hb))).2.1

/-- An APD in the cache may stay there. -/
theorem Mem.ApdsKept.cacheable (h : ApdsKept k a k') (hb : k.Cacheable b) : k'.Cacheable b := by
  obtain ⟨husers, hcl, -, -⟩ := h.fields hb.1
  refine ⟨(h.apd b (Or.inr (Or.inl hb.1))).1.trans hb.1, ?_⟩
  rw [husers, hcl, h.log]
  exact hb.2

theorem Owned.notMade (h : Owned T k) (hn : NotMade k a k') : Owned T k' := by
  refine ⟨?_, fun b hb => ?_, fun i hi hne => ?_, ?_⟩
  · rw [hn.log]
    exact h.placed.kept hn.live (fun b hb => (hn.fields hb).2.2.1) (fun b hb => (hn.fields hb).2.2.2)
      (.of_eq hn.task hn.mthread hn.apdThread)
  · rw [hn.live] at hb
    obtain ⟨husers, hcl, -, -⟩ := hn.fields hb
    rw [husers, hcl, hn.log]
    exact h.tally b hb
  · rw [hn.apdPdxCache] at hne ⊢
    exact hn.cacheable (h.cached i hi hne)
  · rw [hn.log]
    exact h.closed

/-- A new APD has no threads and no tasks. -/
theorem Placed.made {busy : List (ℕ × ℕ)} {x : Apd} (h : Placed busy k) (hm : Made k a x k')
    (hthreads : x.threads = 0) (htasks : x.tasks = 0) : Placed busy k' := by
  have hkept : Kept k k' := .of_eq hm.task hm.mthread hm.apdThread
  obtain ⟨-, -, hthreads', htasks'⟩ := Apd.use_eq hm.use
  have hold : ∀ b, k'.apd.live b = true → b ≠ a → k.apd.live b = true := by
    intro b hb hba
    rwa [hm.live, if_neg hba] at hb
  refine ⟨h.nodup, fun m b hmem => ?_, fun b hb => ?_, fun b hb => ?_⟩
  · obtain ⟨hb, e, he⟩ := h.home m b hmem
    exact ⟨(hm.apd b (Or.inr (Or.inl hb))).1.trans hb, e, he.kept hkept⟩
  · by_cases hba : b = a
    · subst hba
      exact ⟨[], hthreads'.trans hthreads, nofun⟩
    · have hb := hold b hb hba
      obtain ⟨l, hl, hpool⟩ := h.pool b hb
      refine ⟨l, ?_, fun e he => ?_⟩
      · rw [(hm.fields hb).2.2.1]
        exact hl.congr fun e _ => by unfold poolNext; rw [hm.apdThread]
      · rw [hm.apdThread]
        exact ⟨(hpool e he).1.kept hkept, (hpool e he).2⟩
  · by_cases hba : b = a
    · subst hba
      exact ⟨[], htasks'.trans htasks, nofun⟩
    · have hb := hold b hb hba
      obtain ⟨l, hl, ht⟩ := h.tasks b hb
      refine ⟨l, ?_, fun t htl => ?_⟩
      · rw [(hm.fields hb).2.2.2]
        exact hl.congr fun t _ => by unfold taskNext; rw [hm.task]
      · rw [hm.task]
        exact ht t htl

/-- **A new APD keeps the invariant**, if its count is true of no threads. -/
theorem Owned.made {x : Apd} (h : Owned T k) (hm : Made k a x k') (hthreads : x.threads = 0)
    (htasks : x.tasks = 0) (hT : T 0 x.users x.closing) : Owned T k' := by
  obtain ⟨husers, hcl, -, -⟩ := Apd.use_eq hm.use
  refine ⟨?_, fun b hb => ?_, fun i hi hne => ?_, ?_⟩
  · rw [hm.log]
    exact h.placed.made hm hthreads htasks
  · rw [hm.log]
    by_cases hba : b = a
    · subst hba
      have hnone : threadsOf (handedOut k.log) b = 0 := threadsOf_eq_zero.mpr fun m hmem => by
        have hlive := (h.placed.home m b hmem).1
        rw [hm.free] at hlive
        cases hlive
      rw [hnone, husers, hcl]
      exact hT
    · rw [hm.live, if_neg hba] at hb
      obtain ⟨husers, hcl, -, -⟩ := hm.fields hb
      rw [husers, hcl]
      exact h.tally b hb
  · rw [hm.apdPdxCache] at hne ⊢
    exact hm.cacheable (h.cached i hi hne)
  · rw [hm.log]
    exact h.closed

/-! ### The cache -/

/-- An APD that may be in the cache is put there. -/
theorem Owned.putPdxApd (h : Owned T k) {now orig pos : ℕ} {clist : Cap} (ha : k.Cacheable a) :
    Owned T (k.putPdxApd now orig clist a pos).2 := by
  refine ⟨h.placed.kept rfl (fun _ _ => rfl) (fun _ _ => rfl) (.of_eq rfl rfl rfl), h.tally,
    fun i hi hne => ?_, h.closed⟩
  unfold Mem.putPdxApd at hne ⊢
  dsimp only at hne ⊢
  rw [Function.update_apply] at hne ⊢
  split_ifs at hne ⊢ with hpos
  · exact ha
  · exact h.cached i hi hne

theorem Owned.apdPdxCacheInsert (ht : Tally T) (h : Owned T k) {now orig : ℕ} {clist : Cap}
    {id : ApdCacheId} (ha : k.Cacheable a)
    (hnew : ∀ i < apdPdxCacheSize, (k.apdPdxCache i).apd ≠ a)
    (hi : k.apdPdxCacheInsert c fuel now orig clist a = some (id, k')) : Owned T k' := by
  unfold Mem.apdPdxCacheInsert at hi
  split at hi
  · obtain ⟨-, rfl⟩ := Prod.mk.inj (Option.some.inj hi)
    exact h.putPdxApd ha
  · next hfull =>
    have hlast : apdPdxCacheSize - 1 < apdPdxCacheSize := by decide
    have hne : (k.apdPdxCache (apdPdxCacheSize - 1)).apd ≠ 0 := by
      have := List.find?_eq_none.mp hfull _ (List.mem_range.mpr hlast)
      simpa using this
    obtain ⟨⟨freed, k₁⟩, hclose, heq⟩ := Option.map_eq_some_iff.mp hi
    obtain ⟨-, rfl⟩ := Prod.mk.inj heq
    have hother := apdClose_other hclose
    obtain ⟨hlive, husers, hcl⟩ := hother.1 a (hnew _ hlast).symm
    refine (h.apdClose ht (h.cached _ hlast hne).1 hclose).putPdxApd ?_
    unfold Cacheable
    rw [hlive, husers, hcl, hother.2]
    exact ha

/-- A look at the cache may close an APD that was there for too long. -/
theorem Owned.apdPdxCacheLookup (ht : Tally T) (h : Owned T k) {now orig : ℕ} {clist : Cap}
    {r : Option (ℕ × ApdCacheId)}
    (hl : k.apdPdxCacheLookup c fuel now orig clist = some (r, k')) : Owned T k' := by
  unfold Mem.apdPdxCacheLookup at hl
  split at hl
  · obtain ⟨-, rfl⟩ := Prod.mk.inj (Option.some.inj hl)
    exact h
  · next i hfind =>
    dsimp only at hl
    split_ifs at hl with hold
    · obtain ⟨⟨freed, k₁⟩, hclose, heq⟩ := Option.map_eq_some_iff.mp hl
      obtain ⟨-, rfl⟩ := Prod.mk.inj heq
      have hi := List.mem_range.mp (List.mem_of_find?_eq_some hfind)
      have htest := List.find?_some hfind
      exact h.apdClose ht (h.cached i hi (of_decide_eq_true htest).2.2).1 hclose
    · obtain ⟨-, rfl⟩ := Prod.mk.inj (Option.some.inj hl)
      exact h

/-- The copy of an APD has no threads, no tasks, and the count of the original. -/
theorem Owned.cloned (ht : Tally T) (h : Owned T k) {orig : ℕ} (new : ℕ)
    (hcopy : Owned T k → orig = 0 ∨ k.apd.live orig = true ∧ (k.apd.cell orig).threads = 0 ∧
      T 0 (k.apd.cell orig).users (k.apd.cell orig).closing) :
    (k.cloned orig new).threads = 0 ∧ (k.cloned orig new).tasks = 0 ∧
      T 0 (k.cloned orig new).users (k.cloned orig new).closing := by
  unfold Mem.cloned
  split_ifs with horig
  · exact ⟨rfl, rfl, ht.fresh⟩
  · rcases hcopy h with h0 | ⟨-, hthreads, hT⟩
    · exact absurd (Or.inl h0) horig
    · exact ⟨hthreads, rfl, hT⟩

/-- **`apd_pdx_merge` keeps the invariant**, if the copy of the original may be made. -/
theorem Owned.apdPdxMerge (ht : Tally T) (h : Owned T k) {now now' orig : ℕ} {clist : Cap}
    {sup : ApdSupply} {r : Option (ℕ × ApdCacheId)}
    (hcopy : ∀ k₁, k.apdPdxCacheLookup c fuel now orig clist = some (none, k₁) → r ≠ none →
      Owned T k₁ → orig = 0 ∨ k₁.apd.live orig = true ∧ (k₁.apd.cell orig).threads = 0 ∧
        T 0 (k₁.apd.cell orig).users (k₁.apd.cell orig).closing)
    (hm : k.apdPdxMerge c fuel now now' orig clist sup = some (r, k')) : Owned T k' := by
  obtain ⟨⟨found, k₁⟩, hlook, hm⟩ := Option.bind_eq_some_iff.mp hm
  have h₁ := h.apdPdxCacheLookup ht hlook
  cases found with
  | some found =>
    obtain ⟨-, rfl⟩ := Prod.mk.inj (Option.some.inj hm)
    exact h₁
  | none =>
    rcases apdPdxBuild_made hm with ⟨-, hnot⟩ | ⟨k₂, id, hr, hmade, hinsert⟩
    · exact h₁.notMade hnot
    · have hx := h₁.cloned ht sup.apd fun h₁ => hcopy k₁ hlook (by rw [hr]; nofun) h₁
      have h₂ := h₁.made hmade hx.1 hx.2.1 hx.2.2
      have h₃ := h₂.withEvents
        [.merged orig (k₁.apd.cell orig).serial clist sup.apd k₁.apdSerial]
        (fun _ => rfl) fun _ hl => ⟨nofun, hl⟩
      refine h₃.apdPdxCacheInsert ht ⟨?_, fun hcl => ?_⟩ (fun i hi => ?_) hinsert
      · dsimp only
        rw [hmade.live, if_pos rfl]
      · have hlive : k₂.apd.live sup.apd = true := by rw [hmade.live, if_pos rfl]
        have hT := h₂.tally _ hlive
        have hnone : threadsOf (handedOut k₂.log) sup.apd = 0 := by
          rw [hmade.log]
          refine threadsOf_eq_zero.mpr fun m hmem => ?_
          have := (h₁.placed.home m _ hmem).1
          rw [hmade.free] at this
          cases this
        dsimp only at hcl ⊢
        rw [hcl, hnone] at hT
        have hpos := ht.closing hT
        change (threadsOf (handedOut k₂.log) sup.apd : ℤ) < _
        rw [hnone]
        exact_mod_cast hpos
      · dsimp only
        rw [hmade.apdPdxCache]
        intro heq
        have hne : (k₁.apdPdxCache i).apd ≠ 0 := heq ▸ hmade.ne
        have := (h₁.cached i hi hne).1
        rw [heq, hmade.free] at this
        cases this

/-! ### The calls -/

theorem Owned.apdFromTemplate (ht : Tally T) (h : Owned T k) {os : Kernel O} {pd : ApdDesc}
    {sup : ApdSupply} (hm : k.apdFromTemplate os pd sup = some (a, k')) : Owned T k' := by
  rcases apdFromTemplate_made hm with ⟨-, hnot⟩ | ⟨-, hmade⟩
  · exact h.notMade hnot
  · exact h.made hmade rfl rfl ht.fresh

theorem Owned.apdFindOrCreate (ht : Tally T) (h : Owned T k) {os : Kernel O} {addr : ℕ}
    {pd : ApdDesc} {sup : ApdSupply}
    (hm : k.apdFindOrCreate c os fuel addr pd sup = some (a, k')) : Owned T k' := by
  rcases apdFindOrCreate_made hm with rfl | ⟨-, hnot⟩ | ⟨-, hmade⟩
  · exact h
  · exact h.notMade hnot
  · exact h.made hmade rfl rfl ht.fresh

theorem Owned.threadDie (ht : Tally T) (h : Owned T k) {item : ℕ} (hm : InUse k.log m)
    (hd : k.threadDie c fuel item m = some k') : Owned T k' :=
  (h.withEvents [.deleted m] (fun _ => rfl) fun _ hl => ⟨nofun, hl⟩).ended ht _ hm
    (threadDie_ended hd)

theorem Owned.threadDelete (ht : Tally T) (h : Owned T k) {item tid caller : ℕ} {status : ℤ}
    {goes : Bool} (hm : ∀ m, k.deleteTarget fuel tid caller = some m → InUse k.log m)
    (hd : k.threadDelete c fuel item tid status caller = some (goes, k')) : Owned T k' := by
  rcases threadDelete_ended hd with rfl | ⟨m, htarget, hend | hend⟩
  · exact h
  · exact (h.withEvents [.deleted m] (fun _ => rfl) fun _ hl => ⟨nofun, hl⟩).ended ht _
      (hm m htarget) hend
  · exact (h.withEvents [.interrupted m] (fun _ => rfl) fun _ hl => ⟨nofun, hl⟩).ended
      ht _ (hm m htarget) hend

theorem Owned.threadWait (ht : Tally T) (h : Owned T k) {item tid caller : ℕ} {ret : WaitReturn}
    (hm : ∀ m, k.waitTarget fuel tid caller = some m → InUse k.log m)
    (hw : k.threadWait c fuel item tid caller = some (ret, k')) : Owned T k' := by
  rcases threadWait_ended hw with hframe | ⟨m, htarget, hend⟩
  · exact h.frame hframe
  · exact Owned.ended ht [] h (hm m htarget) hend

/-- A thread that returns without a PDX call deletes itself, if anything. -/
theorem Mem.deleteTarget_self {caller : ℕ} (h : k.deleteTarget fuel 0 caller = some m) :
    m = caller := by
  unfold deleteTarget threadFindMthreadFromParent at h
  rw [if_pos rfl, Option.bind_some] at h
  dsimp only at h
  split_ifs at h with hstate
  exact (Option.some.inj h).symm

theorem Owned.sysThreadReturn (ht : Tally T) (h : Owned T k) {item : ℕ} {status : ℤ}
    (hm : InUse k.log m) (hr : k.sysThreadReturn c fuel item status m = some k') :
    Owned T k' := by
  by_cases hpdx : (k.mthread.cell m).PDX = 0
  · obtain ⟨goes, hd⟩ := sysThreadReturn_other hpdx hr
    refine h.threadDelete ht (fun m' hm' => ?_) hd
    rw [deleteTarget_self hm']
    exact hm
  · obtain ⟨k₁, hrelease, rfl⟩ := sysThreadReturn_pdx hpdx hr
    have hframe := (Frame.refl k).l4taskThreadRemove m
    have h₁ := (h.frame hframe).threadRelease ht (by rw [hframe.log]; exact hm) hrelease
    exact h₁.withEvents [.replied m _] (fun _ => rfl) fun _ hl => ⟨nofun, hl⟩

theorem Owned.excptReg (h : Owned T k) (handler : ℕ) : Owned T (k.excptReg m handler) :=
  h.frame ((Frame.refl k).modThread m fun _ => ⟨rfl, rfl, rfl, rfl⟩)

theorem Owned.threadCreate (ht : Tally T) (h : Owned T k) (ha : k.apd.live a = true)
    {parent supplied size : ℕ} {sup : ThreadSupply} {start : Option (L4Id × ℕ)}
    (hleak : m = 0 → ∀ {n users closing}, T n users closing → T n (users + 1) closing)
    (hc : k.threadCreate c fuel a parent supplied size sup = some ((m, start), k')) :
    Owned T k' := by
  refine h.created ht ha (fun l => ?_) (fun l hl => ?_) hleak
    (threadCreate_begun hc) (threadCreate_created h.placed ha hc)
  · split_ifs <;> rfl
  · split_ifs
    · exact hl
    · exact ⟨nofun, hl⟩

theorem Owned.threadPdxCreate (ht : Tally T) (h : Owned T k) (ha : k.apd.live a = true)
    {caller : ℕ} {sup : ThreadSupply}
    (hleak : m = 0 → ∀ {n users closing}, T n users closing → T n (users + 1) closing)
    (hc : k.threadPdxCreate c fuel a caller sup = some (m, k')) : Owned T k' := by
  refine h.created ht ha (fun l => ?_) (fun l hl => ?_) hleak
    (threadPdxCreate_begun hc) (threadPdxCreate_created h.placed ha hc)
  · split_ifs <;> rfl
  · split_ifs
    · exact hl
    · exact ⟨nofun, nofun, hl⟩

end Mungi
