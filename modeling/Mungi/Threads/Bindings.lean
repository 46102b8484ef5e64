import Mungi.Threads.Apart
import Mungi.Threads.Calls
import Mungi.Threads.Closing
import Mungi.Threads.Homes
import Mungi.Threads.Making

/-!
# What PDX cache hits are bound to

The cache of APDs is for pairs of an APD and a Clist, and the PDX cache is for APDs, entry
points and PDs and leads into the other one.  APDs are told apart by their addresses, which may
be used again, and by serial numbers.

## Main definitions

* `EntryBound`, `PdxBound` — what entries of the two caches say is true.
* `Timed.Bindable` — the condition on calls.
* `Mem.HitsBound` — what is returned by the lookups is bound to its source.

## Main results

* `Bound.step` — **a call keeps the entries true.**
* `pdx_hits_bound` — **hits are bound to their source.**
* `pdx_hits_not_bound` — those of an APD at the address of an earlier one are not.
-/

namespace Mungi

open Chain Runs Mem

variable {O : Type} {c : ThreadConf} {k k' k'' : Mem} {fuel a m clock now : ℕ}

/-- The events that say what an APD was made for. -/
def Event.Binding : Event → Prop
  | .merged _ _ _ _ _ | .bound _ _ _ _ _ _ _ _ _ => True
  | _ => False

/-- The entry is not too old to be hit. -/
def ApdPdxCacheEntry.Recent (c : ThreadConf) (clock : ℕ) (e : ApdPdxCacheEntry) : Prop :=
  clock ≤ e.timestamp + c.apdPdxCacheTimeout

instance (e : ApdPdxCacheEntry) : Decidable (e.Recent c clock) :=
  inferInstanceAs (Decidable (_ ≤ _))

/-- What an entry of the cache of APDs says: the APD is in memory, is not being closed, and, if
the entry is not too old, was made from the APD that is at `orig` now, and the Clist. -/
structure EntryBound (c : ThreadConf) (clock : ℕ) (k : Mem) (e : ApdPdxCacheEntry) : Prop where
  live : k.apd.live e.apd = true
  closing : (k.apd.cell e.apd).closing = false
  timestamp : e.timestamp ≤ clock
  merged : e.Recent c clock →
    .merged e.orig (k.apd.cell e.orig).serial e.clist e.apd (k.apd.cell e.apd).serial ∈ k.log

/-- The entry of the other cache, to which an entry of the PDX cache leads. -/
def Mem.LeadsTo (c : ThreadConf) (clock : ℕ) (k : Mem) (id : ApdCacheId) : Prop :=
  id.pos < apdPdxCacheSize ∧ (k.apdPdxCache id.pos).apd ≠ 0 ∧
    (k.apd.cell (k.apdPdxCache id.pos).apd).serial = id.serial ∧
      (k.apdPdxCache id.pos).Recent c clock

instance (id : ApdCacheId) : Decidable (k.LeadsTo c clock id) := inferInstanceAs (Decidable (_ ∧ _))

/-- What an entry of the PDX cache says, if it leads to one of the other cache: a call from the
APD that is at `apd_src` now was validated after the APD was put there. -/
def PdxBound (c : ThreadConf) (clock : ℕ) (k : Mem) (e : PdxcacheEntry) : Prop :=
  k.LeadsTo c clock e.id → ∃ time orig clist apd,
    .bound e.apdSrc (k.apd.cell e.apdSrc).serial e.proc e.apdDest time orig clist apd
      e.id.serial ∈ k.log ∧
    time ≤ clock ∧ (k.apdPdxCache e.id.pos).timestamp ≤ time

/-- The entries are true, and no serial number was given twice. -/
structure Bound (c : ThreadConf) (clock : ℕ) (k : Mem) : Prop where
  serial : ∀ {orig origSerial clist apd serial},
    .merged orig origSerial clist apd serial ∈ k.log → serial < k.apdSerial
  unique : ∀ {orig origSerial clist apd serial orig' origSerial' clist' apd'},
    .merged orig origSerial clist apd serial ∈ k.log →
    .merged orig' origSerial' clist' apd' serial ∈ k.log →
    orig = orig' ∧ origSerial = origSerial' ∧ clist = clist' ∧ apd = apd'
  bound : ∀ {src srcSerial proc pd time orig clist apd serial},
    .bound src srcSerial proc pd time orig clist apd serial ∈ k.log →
    ∃ origSerial, .merged orig origSerial clist apd serial ∈ k.log ∧
      (pd = pdMerge → orig = src ∧ origSerial = srcSerial)
  entry : ∀ i < apdPdxCacheSize, (k.apdPdxCache i).apd ≠ 0 → EntryBound c clock k (k.apdPdxCache i)
  idSerial : ∀ h < 256, (k.pdxCache h).apdSrc ≠ 0 → (k.pdxCache h).id.serial < k.apdSerial
  pdx : ∀ h < 256, (k.pdxCache h).apdSrc ≠ 0 → PdxBound c clock k (k.pdxCache h)

theorem Mem.Booted.bound (h : k.Booted) : Bound c clock k where
  serial := fun hm => by
    rw [h.log] at hm
    cases hm
  unique := fun hm => by
    rw [h.log] at hm
    cases hm
  bound := fun hm => by
    rw [h.log] at hm
    cases hm
  entry := fun i _ hi => absurd (h.apdPdxCache i) hi
  idSerial := fun i _ hi => absurd (h.pdxCache i) hi
  pdx := fun i _ hi => absurd (h.pdxCache i) hi

theorem ApdPdxCacheEntry.Recent.mono {e : ApdPdxCacheEntry} {clock' : ℕ} (h : e.Recent c clock')
    (hle : clock ≤ clock') : e.Recent c clock :=
  hle.trans h

/-- The clock goes on. -/
theorem Bound.mono {clock' : ℕ} (h : Bound c clock k) (hle : clock ≤ clock') :
    Bound c clock' k where
  serial := h.serial
  unique := h.unique
  bound := h.bound
  entry := fun i hi hne =>
    let ⟨h₁, h₂, h₃, h₄⟩ := h.entry i hi hne
    ⟨h₁, h₂, h₃.trans hle, fun hr => h₄ (hr.mono hle)⟩
  idSerial := h.idSerial
  pdx := fun i hi hne hto =>
    let ⟨time, orig, clist, apd, h₁, h₂, h₃⟩ :=
      h.pdx i hi hne ⟨hto.1, hto.2.1, hto.2.2.1, hto.2.2.2.mono hle⟩
    ⟨time, orig, clist, apd, h₁, h₂.trans hle, h₃⟩

/-! ### Calls that make no APDs -/

/-- No entry is added or changed, and no APD that was not being closed leaves memory while it is
in the cache. -/
structure Mem.Fewer (k k' : Mem) : Prop where
  serial : ∀ b, (k'.apd.cell b).serial = (k.apd.cell b).serial
  apdSerial : k'.apdSerial = k.apdSerial
  pdxCache : k'.pdxCache = k.pdxCache
  entry : ∀ i < apdPdxCacheSize, (k'.apdPdxCache i).apd ≠ 0 →
    k'.apdPdxCache i = k.apdPdxCache i ∧
      ((k.apd.cell (k.apdPdxCache i).apd).closing = false →
        k'.apd.live (k.apdPdxCache i).apd = k.apd.live (k.apdPdxCache i).apd ∧
          (k'.apd.cell (k.apdPdxCache i).apd).closing = false)
  log : ∀ e : Event, e.Binding → (e ∈ k'.log ↔ e ∈ k.log)

theorem Mem.Fewer.trans (h : Fewer k k') (h' : Fewer k' k'') : Fewer k k'' where
  serial := fun b => (h'.serial b).trans (h.serial b)
  apdSerial := h'.apdSerial.trans h.apdSerial
  pdxCache := h'.pdxCache.trans h.pdxCache
  entry := fun i hi hne => by
    obtain ⟨heq', hstay'⟩ := h'.entry i hi hne
    rw [heq'] at hne
    obtain ⟨heq, hstay⟩ := h.entry i hi hne
    refine ⟨heq'.trans heq, fun hcl => ?_⟩
    obtain ⟨hlive, hcl'⟩ := hstay hcl
    rw [heq] at hstay'
    obtain ⟨hlive', hcl''⟩ := hstay' hcl'
    exact ⟨hlive'.trans hlive, hcl''⟩
  log := fun e he => (h'.log e he).trans (h.log e he)

theorem Mem.Fewer.merged (h : Fewer k k') {orig origSerial : ℕ} {clist : Cap} {apd serial : ℕ} :
    .merged orig origSerial clist apd serial ∈ k'.log ↔
      .merged orig origSerial clist apd serial ∈ k.log := h.log _ trivial

theorem Mem.Fewer.bound (h : Fewer k k') {src srcSerial proc pd time orig : ℕ} {clist : Cap}
    {apd serial : ℕ} : .bound src srcSerial proc pd time orig clist apd serial ∈ k'.log ↔
      .bound src srcSerial proc pd time orig clist apd serial ∈ k.log := h.log _ trivial

/-- **The entries that are left stay true.** -/
theorem Bound.fewer (h : Bound c clock k) (hf : Fewer k k') : Bound c clock k' where
  serial := fun hm => by
    rw [hf.apdSerial]
    exact h.serial (hf.merged.mp hm)
  unique := fun hm hm' => h.unique (hf.merged.mp hm) (hf.merged.mp hm')
  bound := fun hm => by
    obtain ⟨origSerial, hmerged, hpd⟩ := h.bound (hf.bound.mp hm)
    exact ⟨origSerial, hf.merged.mpr hmerged, hpd⟩
  entry := fun i hi hne => by
    obtain ⟨heq, hstay⟩ := hf.entry i hi hne
    rw [heq] at hne ⊢
    obtain ⟨hlive, hcl, htime, hmerged⟩ := h.entry i hi hne
    obtain ⟨hlive', hcl'⟩ := hstay hcl
    refine ⟨hlive'.trans hlive, hcl', htime, fun hr => hf.merged.mpr ?_⟩
    rw [hf.serial, hf.serial]
    exact hmerged hr
  idSerial := fun j hj hne => by
    rw [hf.pdxCache] at hne ⊢
    rw [hf.apdSerial]
    exact h.idSerial j hj hne
  pdx := fun j hj hne => by
    rw [hf.pdxCache] at hne ⊢
    rintro ⟨hpos, hapd, hserial, hr⟩
    obtain ⟨heq, -⟩ := hf.entry _ hpos hapd
    rw [heq] at hapd hserial hr ⊢
    rw [hf.serial] at hserial ⊢
    obtain ⟨time, orig, clist, apd, hbound, htime⟩ := h.pdx j hj hne ⟨hpos, hapd, hserial, hr⟩
    exact ⟨time, orig, clist, apd, hf.bound.mpr hbound, htime⟩

theorem Mem.Fewer.of_same (events : List Event) (hlive : k'.apd.live = k.apd.live)
    (hclosing : ∀ b, (k'.apd.cell b).closing = (k.apd.cell b).closing)
    (hserial : ∀ b, (k'.apd.cell b).serial = (k.apd.cell b).serial)
    (hcache : k'.apdPdxCache = k.apdPdxCache) (hpdx : k'.pdxCache = k.pdxCache)
    (hapdSerial : k'.apdSerial = k.apdSerial) (hlog : k'.log = events ++ k.log)
    (hevents : ∀ e ∈ events, ¬ e.Binding) : Fewer k k' where
  serial := hserial
  apdSerial := hapdSerial
  pdxCache := hpdx
  entry := fun i _ _ => ⟨by rw [hcache], fun hcl => ⟨by rw [hlive], by rw [hclosing, hcl]⟩⟩
  log := fun e he => by
    rw [hlog, List.mem_append]
    exact ⟨fun h => h.resolve_left fun hmem => hevents e hmem he, Or.inr⟩

theorem Mem.SameApds.fewer (h : SameApds k k') : Fewer k k' :=
  .of_same [] h.live h.closing h.serial h.apdPdxCache h.pdxCache h.apdSerial h.log
    fun _ he => absurd he List.not_mem_nil

/-- More events that bind nothing. -/
theorem Mem.fewer_withEvents (k : Mem) (events : List Event)
    (hevents : ∀ e ∈ events, ¬ e.Binding) : Fewer k { k with log := events ++ k.log } :=
  .of_same events rfl (fun _ => rfl) (fun _ => rfl) rfl rfl rfl rfl hevents

theorem Mem.apdClose_fewer {freed : Bool} (h : k.apdClose c fuel a = some (freed, k')) :
    Fewer k k' := by
  have hspec := apdClose_closed h
  dsimp only at hspec
  generalize hk₀ : (if (k.apd.cell a).closing then k else k.apdPdxCacheRemove a) = k₀ at hspec
  -- afterwards the APD is not in the cache, unless it was marked before
  have h₀ : k₀.apd = k.apd ∧ k₀.apdSerial = k.apdSerial ∧ k₀.pdxCache = k.pdxCache ∧
      k₀.log = k.log ∧ ∀ i < apdPdxCacheSize, (k₀.apdPdxCache i).apd ≠ 0 →
        k₀.apdPdxCache i = k.apdPdxCache i ∧
          ((k.apd.cell (k.apdPdxCache i).apd).closing = false → (k.apdPdxCache i).apd ≠ a) := by
    rw [← hk₀]
    split_ifs with hcl
    · refine ⟨rfl, rfl, rfl, rfl, fun i _ _ => ⟨rfl, fun hcl' heq => ?_⟩⟩
      rw [heq, hcl] at hcl'
      cases hcl'
    · refine ⟨rfl, rfl, rfl, rfl, fun i hi hne => ?_⟩
      unfold apdPdxCacheRemove at hne ⊢
      dsimp only at hne ⊢
      split_ifs at hne ⊢ with hrem
      · exact absurd rfl hne
      · exact ⟨rfl, fun _ heq => hrem ⟨hi, heq⟩⟩
  obtain ⟨hapd, hserial, hpdx, hlog, hentry⟩ := h₀
  rcases hspec with ⟨-, rfl⟩ | ⟨-, pool, tasks, hfreed⟩
  · refine ⟨fun b => ?_, hserial, hpdx, fun i hi hne => ?_, fun e _ => by rw [← hlog]⟩
    · rw [← hapd]
      dsimp only
      refine Heap.modify_field (g := Apd.serial) ?_ b
      exact fun _ => rfl
    · obtain ⟨heq, hnea⟩ := hentry i hi hne
      refine ⟨heq, fun hcl => ?_⟩
      dsimp only
      rw [Heap.live_modify, Heap.cell_modify_of_ne (hnea hcl), hapd]
      exact ⟨rfl, hcl⟩
  · refine ⟨fun b => ?_, ?_, ?_, fun i hi hne => ?_, fun e he => ?_⟩
    · rw [hfreed.apdCell, hapd]
    · rw [hfreed.apdSerial, hserial]
    · rw [hfreed.pdxCache, hpdx]
    · rw [hfreed.apdPdxCache] at hne ⊢
      obtain ⟨heq, hnea⟩ := hentry i hi hne
      refine ⟨heq, fun hcl => ?_⟩
      rw [hfreed.apdLive, if_neg (hnea hcl), hfreed.apdCell, hapd]
      exact ⟨rfl, hcl⟩
    · rw [hfreed.log, hlog, List.mem_cons]
      refine ⟨fun h => h.resolve_left ?_, Or.inr⟩
      rintro rfl
      exact he

theorem Mem.threadRelease_fewer (h : k.threadRelease c fuel m = some k') : Fewer k k' := by
  obtain ⟨k₁, hpushed, hend⟩ := threadRelease_released h
  have h₁ : Fewer k k₁ :=
    .of_same [.released m] hpushed.live hpushed.closing hpushed.serial
      hpushed.apdPdxCache hpushed.pdxCache hpushed.apdSerial hpushed.log fun e he => by
        obtain rfl := List.mem_singleton.mp he
        exact id
  rcases hend with ⟨-, rfl⟩ | ⟨-, freed, hclose⟩
  · exact h₁
  · exact h₁.trans (apdClose_fewer hclose)

theorem Mem.Ended.fewer {events : List Event} (hevents : ∀ e ∈ events, ¬ e.Binding)
    (h : Ended c m k events k') : Fewer k k' := by
  have hlog := fewer_withEvents k events hevents
  cases h with
  | kept frame => exact hlog.trans frame.sameApds.fewer
  | released frame fuel release =>
    exact hlog.trans (frame.sameApds.fewer.trans (threadRelease_fewer release))

theorem Mem.Begun.fewer {sup : ThreadSupply} {caller : ℕ} {events : List Event}
    (hevents : ∀ e ∈ events, ¬ e.Binding) (h : Begun k a sup m caller events k') : Fewer k k' := by
  have hcount : Fewer k { k.modApd a fun x => { x with users := x.users + 1 } with
      log := events ++ k.log } := by
    refine .of_same events rfl (fun b => ?_) (fun b => ?_) rfl rfl rfl rfl hevents
    · dsimp only
      refine Heap.modify_field (g := Apd.closing) ?_ b
      exact fun _ => rfl
    · dsimp only
      refine Heap.modify_field (g := Apd.serial) ?_ b
      exact fun _ => rfl
  exact hcount.trans h.apart.toSameApds.fewer

theorem Mem.threadPdxCreate_fewer {sup : ThreadSupply} {caller : ℕ}
    (h : k.threadPdxCreate c fuel a caller sup = some (m, k')) : Fewer k k' := by
  refine (threadPdxCreate_begun h).fewer fun e he => ?_
  split_ifs at he
  · cases he
  · rcases List.mem_cons.mp he with rfl | he
    · exact id
    · obtain rfl := List.mem_singleton.mp he
      exact id

theorem Mem.threadDelete_fewer {item tid caller : ℕ} {status : ℤ} {goes : Bool}
    (h : k.threadDelete c fuel item tid status caller = some (goes, k')) : Fewer k k' := by
  rcases threadDelete_ended h with rfl | ⟨m, -, hend | hend⟩
  · exact (Frame.refl k').sameApds.fewer
  all_goals
    refine hend.fewer fun e he => ?_
    obtain rfl := List.mem_singleton.mp he
    exact id

/-- An entry that is not too old for the code. -/
theorem recent_of_not_timedOut {e : ApdPdxCacheEntry} (h : ¬c.TimedOut now e.timestamp)
    (hle : e.timestamp ≤ now) (hnow : now < 2 ^ 64) : e.Recent c now := by
  unfold ThreadConf.TimedOut at h
  rw [wordSub_of_le hle hnow] at h
  unfold ApdPdxCacheEntry.Recent
  omega

/-! ### New APDs -/

/-- No entry that can be hit is about an earlier APD at the address. -/
def Mem.Unclaimed (c : ThreadConf) (clock : ℕ) (k : Mem) (a : ℕ) : Prop :=
  a = 0 ∨ (∀ i < apdPdxCacheSize, (k.apdPdxCache i).apd ≠ 0 → (k.apdPdxCache i).Recent c clock →
      (k.apdPdxCache i).orig ≠ a) ∧
    ∀ h < 256, k.LeadsTo c clock (k.pdxCache h).id → (k.pdxCache h).apdSrc ≠ a

instance (k : Mem) (a : ℕ) : Decidable (k.Unclaimed c clock a) :=
  inferInstanceAs (Decidable (_ ∨ _))

/-- A new APD keeps the entries true, whether it is given back or not. -/
theorem Bound.kept (h : Bound c clock k) (hu : k.Unclaimed c clock a) (hk : ApdsKept k a k')
    (hserial : k.apdSerial ≤ k'.apdSerial) : Bound c clock k' where
  serial := fun hm => by
    rw [hk.log] at hm
    exact (h.serial hm).trans_le hserial
  unique := by
    rw [hk.log]
    exact h.unique
  bound := by
    rw [hk.log]
    exact h.bound
  entry := fun i hi hne => by
    rw [hk.apdPdxCache] at hne ⊢
    obtain ⟨hlive, hcl, htime, hmerged⟩ := h.entry i hi hne
    obtain ⟨hlive', huse, hserial'⟩ := hk.apd _ (Or.inr (Or.inl hlive))
    refine ⟨hlive'.trans hlive, (Apd.use_eq huse).2.1.trans hcl, htime, fun hr => ?_⟩
    have horig : (k.apdPdxCache i).orig ≠ a ∨ k.apd.live (k.apdPdxCache i).orig = true ∨ a = 0 :=
      hu.elim (fun h0 => Or.inr (Or.inr h0)) fun hfree => Or.inl (hfree.1 i hi hne hr)
    rw [hserial', (hk.apd _ horig).2.2, hk.log]
    exact hmerged hr
  idSerial := fun j hj hne => by
    rw [hk.pdxCache] at hne ⊢
    exact (h.idSerial j hj hne).trans_le hserial
  pdx := fun j hj hne => by
    rw [hk.pdxCache] at hne ⊢
    rintro ⟨hpos, hapd, hserial', hr⟩
    rw [hk.apdPdxCache] at hapd hserial' hr ⊢
    rw [(hk.apd _ (Or.inr (Or.inl (h.entry _ hpos hapd).live))).2.2] at hserial'
    have hto : k.LeadsTo c clock (k.pdxCache j).id := ⟨hpos, hapd, hserial', hr⟩
    have hsrc : (k.pdxCache j).apdSrc ≠ a ∨ k.apd.live (k.pdxCache j).apdSrc = true ∨ a = 0 :=
      hu.elim (fun h0 => Or.inr (Or.inr h0)) fun hfree => Or.inl (hfree.2 j hj hto)
    rw [(hk.apd _ hsrc).2.2, hk.log]
    exact h.pdx j hj hne hto

/-- The condition is still met when entries are gone. -/
theorem Mem.Fewer.unclaimed (h : Fewer k k') (hu : k.Unclaimed c clock a) :
    k'.Unclaimed c clock a := by
  refine hu.imp id fun hfree => ⟨fun i hi hne hr => ?_, fun j hj => ?_⟩
  · have heq := (h.entry i hi hne).1
    rw [heq] at hne hr ⊢
    exact hfree.1 i hi hne hr
  · rw [h.pdxCache]
    rintro ⟨hpos, hne, hserial, hr⟩
    have heq := (h.entry _ hpos hne).1
    rw [heq] at hne hserial hr
    rw [h.serial] at hserial
    exact hfree.2 j hj ⟨hpos, hne, hserial, hr⟩

theorem Bound.notMade (h : Bound c clock k) (hu : k.Unclaimed c clock a)
    (hroom : k.apdSerial + 1 < 2 ^ 64) (hn : NotMade k a k') : Bound c clock k' := by
  refine h.kept hu hn.toApdsKept ?_
  rcases hn.apdSerial with heq | heq
  · exact heq.ge
  · rw [heq, Nat.mod_eq_of_lt hroom]
    exact Nat.le_succ _

theorem Mem.Made.apdSerial_eq {x : Apd} (hm : Made k a x k') (hroom : k.apdSerial + 1 < 2 ^ 64) :
    k'.apdSerial = k.apdSerial + 1 := by
  rw [hm.apdSerial, Nat.mod_eq_of_lt hroom]

theorem Bound.made {x : Apd} (h : Bound c clock k) (hu : k.Unclaimed c clock a)
    (hroom : k.apdSerial + 1 < 2 ^ 64) (hm : Made k a x k') : Bound c clock k' :=
  h.kept hu hm.toApdsKept (by rw [hm.apdSerial_eq hroom]; exact Nat.le_succ _)

/-- An event with a new serial number. -/
theorem Bound.emit_merged (h : Bound c clock k) (orig origSerial : ℕ) (clist : Cap) (apd : ℕ)
    {serial : ℕ} (hlt : serial < k.apdSerial)
    (hnew : ∀ {orig' origSerial' clist' apd'},
      .merged orig' origSerial' clist' apd' serial ∉ k.log) :
    Bound c clock (k.emit (.merged orig origSerial clist apd serial)) where
  serial := fun hm => by
    rcases List.mem_cons.mp hm with heq | hm
    · obtain ⟨-, -, -, -, rfl⟩ := Event.merged.inj heq
      exact hlt
    · exact h.serial hm
  unique := fun hm hm' => by
    rcases List.mem_cons.mp hm with heq | hold <;> rcases List.mem_cons.mp hm' with heq' | hold'
    · obtain ⟨rfl, rfl, rfl, rfl, -⟩ := Event.merged.inj heq
      obtain ⟨rfl, rfl, rfl, rfl, -⟩ := Event.merged.inj heq'
      exact ⟨rfl, rfl, rfl, rfl⟩
    · obtain ⟨-, -, -, -, rfl⟩ := Event.merged.inj heq
      exact absurd hold' hnew
    · obtain ⟨-, -, -, -, rfl⟩ := Event.merged.inj heq'
      exact absurd hold hnew
    · exact h.unique hold hold'
  bound := fun hm => by
    obtain ⟨os, hmerged, hpd⟩ := h.bound ((List.mem_cons.mp hm).resolve_left nofun)
    exact ⟨os, List.mem_cons_of_mem _ hmerged, hpd⟩
  entry := fun i hi hne =>
    let ⟨h₁, h₂, h₃, h₄⟩ := h.entry i hi hne
    ⟨h₁, h₂, h₃, fun hr => List.mem_cons_of_mem _ (h₄ hr)⟩
  idSerial := h.idSerial
  pdx := fun i hi hne hto =>
    let ⟨time, orig, clist, apd, h₁, h₂⟩ := h.pdx i hi hne hto
    ⟨time, orig, clist, apd, List.mem_cons_of_mem _ h₁, h₂⟩

theorem Mem.oldestPdxApd_lt (k : Mem) : k.oldestPdxApd < apdPdxCacheSize := by
  unfold oldestPdxApd
  refine List.foldlRecOn (motive := (· < apdPdxCacheSize)) _ _ ?_ fun pos hpos i hi => ?_
  · decide
  split_ifs
  · exact List.mem_range.mp hi
  · exact hpos

/-- A true entry with a new serial number goes into the cache. -/
theorem Bound.putPdxApd (h : Bound c clock k) {orig pos : ℕ} {clist : Cap}
    (he : EntryBound c clock k ⟨orig, clist, a, now⟩)
    (hnew : ∀ j < 256, (k.pdxCache j).apdSrc ≠ 0 →
      (k.pdxCache j).id.serial ≠ (k.apd.cell a).serial) :
    Bound c clock (k.putPdxApd now orig clist a pos).2 where
  serial := h.serial
  unique := h.unique
  bound := h.bound
  entry := fun i hi hne => by
    unfold Mem.putPdxApd at hne ⊢
    dsimp only at hne ⊢
    rw [Function.update_apply] at hne ⊢
    split_ifs at hne ⊢
    · exact ⟨he.live, he.closing, he.timestamp, he.merged⟩
    · exact ⟨(h.entry i hi hne).live, (h.entry i hi hne).closing, (h.entry i hi hne).timestamp,
        (h.entry i hi hne).merged⟩
  idSerial := h.idSerial
  pdx := fun j hj hne => by
    unfold PdxBound LeadsTo Mem.putPdxApd
    dsimp only
    rw [Function.update_apply]
    split_ifs
    · exact fun hto => absurd hto.2.2.1.symm (hnew j hj hne)
    · exact h.pdx j hj hne

/-- An APD that is not in the cache is put there. -/
theorem Bound.apdPdxCacheInsert (h : Bound c clock k) {orig : ℕ} {clist : Cap} {id : ApdCacheId}
    (he : EntryBound c clock k ⟨orig, clist, a, now⟩)
    (hnew : ∀ j < 256, (k.pdxCache j).apdSrc ≠ 0 →
      (k.pdxCache j).id.serial ≠ (k.apd.cell a).serial)
    (hout : ∀ i < apdPdxCacheSize, (k.apdPdxCache i).apd ≠ a)
    (hi : k.apdPdxCacheInsert c fuel now orig clist a = some (id, k')) :
    Bound c clock k' ∧ (∀ b, (k'.apd.cell b).serial = (k.apd.cell b).serial) ∧
      id.pos < apdPdxCacheSize ∧ id.serial = (k.apd.cell a).serial ∧
      k'.apdPdxCache id.pos = ⟨orig, clist, a, now⟩ := by
  unfold Mem.apdPdxCacheInsert at hi
  split at hi
  · next pos hfind =>
    obtain ⟨rfl, rfl⟩ := Prod.mk.inj (Option.some.inj hi)
    exact ⟨h.putPdxApd he hnew, fun _ => rfl, List.mem_range.mp (List.mem_of_find?_eq_some hfind),
      rfl, Function.update_self ..⟩
  · obtain ⟨⟨freed, k₁⟩, hclose, heq⟩ := Option.map_eq_some_iff.mp hi
    obtain ⟨rfl, rfl⟩ := Prod.mk.inj heq
    have hfewer := apdClose_fewer hclose
    obtain ⟨hlive, -, hcl⟩ := (apdClose_other hclose).1 a (hout _ (by decide)).symm
    have he₁ : EntryBound c clock k₁ ⟨orig, clist, a, now⟩ := by
      refine ⟨hlive.trans he.live, hcl.trans he.closing, he.timestamp, fun hr =>
        hfewer.merged.mpr ?_⟩
      rw [hfewer.serial, hfewer.serial]
      exact he.merged hr
    refine ⟨(h.fewer hfewer).putPdxApd he₁ ?_, hfewer.serial, ?_, hfewer.serial a,
      Function.update_self ..⟩
    · rw [hfewer.pdxCache, hfewer.serial]
      exact hnew
    · exact oldestPdxApd_lt k

/-! ### Merging -/

theorem Mem.Fewer.refl (k : Mem) : Fewer k k := (Frame.refl k).sameApds.fewer

/-- A look at the cache finds an entry that is not too old, or closes an APD at most. -/
theorem Mem.apdPdxCacheLookup_cases {orig : ℕ} {clist : Cap} {r : Option (ℕ × ApdCacheId)}
    (h : k.apdPdxCacheLookup c fuel now orig clist = some (r, k')) :
    r = none ∧ Fewer k k' ∨ k' = k ∧ ∃ i < apdPdxCacheSize, (k.apdPdxCache i).apd ≠ 0 ∧
      (k.apdPdxCache i).orig = orig ∧ (k.apdPdxCache i).clist = clist ∧
      ¬c.TimedOut now (k.apdPdxCache i).timestamp ∧
      r = some ((k.apdPdxCache i).apd, ⟨i, (k.apd.cell (k.apdPdxCache i).apd).serial⟩) := by
  unfold apdPdxCacheLookup at h
  split at h
  · obtain ⟨rfl, rfl⟩ := Prod.mk.inj (Option.some.inj h)
    exact Or.inl ⟨rfl, .refl k⟩
  · next i hfind =>
    have htest := List.find?_some hfind
    obtain ⟨horig, hclist, hne⟩ := of_decide_eq_true htest
    dsimp only at h
    split_ifs at h with hold
    · obtain ⟨⟨freed, k₁⟩, hclose, heq⟩ := Option.map_eq_some_iff.mp h
      obtain ⟨rfl, rfl⟩ := Prod.mk.inj heq
      exact Or.inl ⟨rfl, apdClose_fewer hclose⟩
    · obtain ⟨rfl, rfl⟩ := Prod.mk.inj (Option.some.inj h)
      exact Or.inr ⟨rfl, i, List.mem_range.mp (List.mem_of_find?_eq_some hfind), hne, horig, hclist,
        hold, rfl⟩

/-- The condition on a merge: no entry that can be hit is about an earlier APD at the address of
the new one, the serial numbers do not begin again, and no APD is copied that is being closed. -/
def Mem.Mergeable (c : ThreadConf) (clock : ℕ) (k : Mem) (fuel now orig : ℕ) (clist : Cap)
    (sup : ApdSupply) : Prop :=
  (k.Unclaimed c clock sup.apd ∧ k.apdSerial + 1 < 2 ^ 64) ∧ (sup.apd = 0 ∨ sup.apd ≠ orig) ∧
    ∀ looked ∈ k.apdPdxCacheLookup c fuel now orig clist, looked.1.isNone →
      orig = 0 ∨ (looked.2.apd.cell orig).closing = false

instance (fuel now orig : ℕ) (clist : Cap) (sup : ApdSupply) :
    Decidable (k.Mergeable c clock fuel now orig clist sup) :=
  inferInstanceAs (Decidable (_ ∧ _))

/-- What a merge does: the entries stay true, and what it finds or makes is in the cache, in an
entry that was not too old or is new. -/
structure MergedTo (c : ThreadConf) (clock now now' : ℕ) (k : Mem) (orig : ℕ) (clist : Cap)
    (new : ℕ) (r : Option (ℕ × ApdCacheId)) (k' : Mem) : Prop where
  bound : Bound c clock k'
  serial : ∀ b, new = 0 ∨ new ≠ b → (k'.apd.cell b).serial = (k.apd.cell b).serial
  found : ∀ apd id, r = some (apd, id) → apd ≠ 0 ∧ id.pos < apdPdxCacheSize ∧
    id.serial = (k'.apd.cell apd).serial ∧ (k'.apdPdxCache id.pos).orig = orig ∧
    (k'.apdPdxCache id.pos).clist = clist ∧ (k'.apdPdxCache id.pos).apd = apd ∧
    (¬c.TimedOut now (k'.apdPdxCache id.pos).timestamp ∨
      (k'.apdPdxCache id.pos).timestamp = now')

/-- **A merge keeps the entries true.** -/
theorem Bound.apdPdxMerge (h : Bound c clock k) {now' orig : ℕ} {clist : Cap} {sup : ApdSupply}
    {r : Option (ℕ × ApdCacheId)} (hm : k.Mergeable c clock fuel now orig clist sup)
    (htime : ∀ looked ∈ k.apdPdxCacheLookup c fuel now orig clist, looked.1.isNone → now' ≤ clock)
    (hr : k.apdPdxMerge c fuel now now' orig clist sup = some (r, k')) :
    MergedTo c clock now now' k orig clist sup.apd r k' := by
  obtain ⟨⟨hu, hroom⟩, horig, hclosing⟩ := hm
  obtain ⟨⟨found, k₁⟩, hlook, hr⟩ := Option.bind_eq_some_iff.mp hr
  rcases apdPdxCacheLookup_cases hlook with ⟨rfl, hfewer⟩ | ⟨rfl, i, hi, hne, ho, hc, hold, rfl⟩
  · have h₁ := h.fewer hfewer
    have hu₁ := hfewer.unclaimed hu
    have hroom₁ : k₁.apdSerial + 1 < 2 ^ 64 := by
      rw [hfewer.apdSerial]
      exact hroom
    have hother : ∀ b, sup.apd = 0 ∨ sup.apd ≠ b →
        b ≠ sup.apd ∨ k₁.apd.live b = true ∨ sup.apd = 0 := fun b hb =>
      hb.elim (fun h0 => Or.inr (Or.inr h0)) fun hne => Or.inl hne.symm
    rcases apdPdxBuild_made hr with ⟨rfl, hnot⟩ | ⟨k₂, id, rfl, hmade, hinsert⟩
    · refine ⟨h₁.notMade hu₁ hroom₁ hnot, fun b hb => ?_, nofun⟩
      rw [(hnot.apd b (hother b hb)).2.2, hfewer.serial]
    · have hneOrig : sup.apd ≠ orig := horig.resolve_left hmade.ne
      have h₂ := h₁.made hu₁ hroom₁ hmade
      have hlt : ∀ {os cl X s}, .merged os cl X s k₁.apdSerial ∉ k₂.log := fun hmem => by
        rw [hmade.log] at hmem
        exact absurd (h₁.serial hmem) (lt_irrefl _)
      have h₃ := h₂.emit_merged orig (k₁.apd.cell orig).serial clist sup.apd
        (by rw [hmade.apdSerial_eq hroom₁]; exact Nat.lt_succ_self _) hlt
      have hentry : EntryBound c clock (k₂.emit (.merged orig (k₁.apd.cell orig).serial clist
          sup.apd k₁.apdSerial)) ⟨orig, clist, sup.apd, now'⟩ := by
        refine ⟨?_, ?_, htime _ hlook rfl, fun _ => ?_⟩
        · dsimp only
          rw [hmade.live, if_pos rfl]
        · dsimp only
          rw [(Apd.use_eq hmade.use).2.1]
          unfold cloned
          split_ifs with h0
          · rfl
          · exact (hclosing _ hlook rfl).resolve_left fun h => h0 (Or.inl h)
        · dsimp only
          rw [(hmade.apd orig (Or.inl hneOrig.symm)).2.2, hmade.serial]
          exact List.mem_cons_self
      have hnew : ∀ j < 256, (k₂.pdxCache j).apdSrc ≠ 0 →
          (k₂.pdxCache j).id.serial ≠ (k₂.apd.cell sup.apd).serial := by
        intro j hj hne
        rw [hmade.pdxCache] at hne ⊢
        rw [hmade.serial]
        exact (h₁.idSerial j hj hne).ne
      have hout : ∀ i < apdPdxCacheSize, (k₂.apdPdxCache i).apd ≠ sup.apd := by
        intro i hi heq
        rw [hmade.apdPdxCache] at heq
        have hlive := (h₁.entry i hi (heq ▸ hmade.ne)).live
        rw [heq, hmade.free] at hlive
        cases hlive
      obtain ⟨hbound, hserial, hpos, hid, hat⟩ := h₃.apdPdxCacheInsert hentry hnew hout hinsert
      refine ⟨hbound, fun b hb => ?_, fun apd id' heq => ?_⟩
      · rw [hserial, (hmade.apd b (hother b hb)).2.2, hfewer.serial]
      · obtain ⟨rfl, rfl⟩ := Prod.mk.inj (Option.some.inj heq)
        rw [hat]
        exact ⟨hmade.ne, hpos, hid.trans (hserial _).symm, rfl, rfl, rfl, Or.inr rfl⟩
  · obtain ⟨rfl, rfl⟩ := Prod.mk.inj (Option.some.inj hr)
    refine ⟨h, fun _ _ => rfl, fun apd id heq => ?_⟩
    obtain ⟨rfl, rfl⟩ := Prod.mk.inj (Option.some.inj heq)
    exact ⟨hne, hi, rfl, ho, hc, rfl, Or.inl hold⟩

/-! ### The PDX cache -/

/-- An entry of the PDX cache that leads to a true entry of the other cache. -/
theorem Bound.pdxcacheAdd (h : Bound c clock k) (src proc pd : ℕ) {id : ApdCacheId}
    (hid : id.pos < apdPdxCacheSize) (hne : (k.apdPdxCache id.pos).apd ≠ 0)
    (hserial : id.serial = (k.apd.cell (k.apdPdxCache id.pos).apd).serial)
    (hrecent : (k.apdPdxCache id.pos).Recent c clock)
    (hpd : pd = pdMerge → (k.apdPdxCache id.pos).orig = src) :
    Bound c clock ((k.emit (.bound src (k.apd.cell src).serial proc pd clock
      (k.apdPdxCache id.pos).orig (k.apdPdxCache id.pos).clist (k.apdPdxCache id.pos).apd
      id.serial)).pdxcacheAdd src proc pd id) where
  serial := fun hm => h.serial ((List.mem_cons.mp hm).resolve_left nofun)
  unique := fun hm hm' => h.unique ((List.mem_cons.mp hm).resolve_left nofun)
    ((List.mem_cons.mp hm').resolve_left nofun)
  bound := fun hm => by
    rcases List.mem_cons.mp hm with heq | hm
    · obtain ⟨rfl, rfl, rfl, rfl, rfl, rfl, rfl, rfl, rfl⟩ := Event.bound.inj heq
      have hmerged := (h.entry _ hid hne).merged hrecent
      rw [← hserial] at hmerged
      refine ⟨_, List.mem_cons_of_mem _ hmerged, fun h => ?_⟩
      rw [hpd h]
      exact ⟨rfl, rfl⟩
    · obtain ⟨os, hmerged, hpd⟩ := h.bound hm
      exact ⟨os, List.mem_cons_of_mem _ hmerged, hpd⟩
  entry := fun i hi hne =>
    let ⟨h₁, h₂, h₃, h₄⟩ := h.entry i hi hne
    ⟨h₁, h₂, h₃, fun hr => List.mem_cons_of_mem _ (h₄ hr)⟩
  idSerial := fun j hj hne' => by
    unfold Mem.pdxcacheAdd at hne' ⊢
    dsimp only at hne' ⊢
    rw [Function.update_apply] at hne' ⊢
    split_ifs at hne' ⊢
    · dsimp only
      rw [hserial]
      exact h.serial ((h.entry _ hid hne).merged hrecent)
    · exact h.idSerial j hj hne'
  pdx := fun j hj hne' => by
    unfold Mem.pdxcacheAdd at hne' ⊢
    dsimp only at hne' ⊢
    rw [Function.update_apply] at hne' ⊢
    split_ifs at hne' ⊢
    · exact fun _ => ⟨clock, _, _, _, List.mem_cons_self, le_rfl, (h.entry _ hid hne).timestamp⟩
    · intro hto
      obtain ⟨time, orig, clist, apd, hbound, htime⟩ := h.pdx j hj hne' hto
      exact ⟨time, orig, clist, apd, List.mem_cons_of_mem _ hbound, htime⟩

/-! ### PDX calls -/

/-- The condition on the merge of a PDX call: the clock does not go on between the validation
and the time when a new APD is put into the cache. -/
def Mem.CallMergeable (c : ThreadConf) (k : Mem) (a : PdxArgs O) (orig : ℕ) (clist : Cap) : Prop :=
  k.Mergeable c a.asking.now a.fuel a.merge orig clist a.sup ∧
    ∀ looked ∈ k.apdPdxCacheLookup c a.fuel a.merge orig clist, looked.1.isNone →
      a.insert = a.asking.now

instance (c : ThreadConf) (k : Mem) (a : PdxArgs O) (orig : ℕ) (clist : Cap) :
    Decidable (k.CallMergeable c a orig clist) :=
  inferInstanceAs (Decidable (_ ∧ _))

/-- The condition on a PDX call that is not in the PDX cache and has found the Clist: the
merge is as it should be, and so is the making of an APD for the PD. -/
def Mem.CallBindable (c : ThreadConf) (k : Mem) (a : PdxArgs O) (clist : Cap) : Prop :=
  if a.pd = pdMerge then k.CallMergeable c a (k.apdOf a.caller) clist
  else if a.pd = pdEmpty then k.CallMergeable c a 0 clist
  else
    ∀ found ∈ (k.askFor a a.askingPd).validateObj a.pd mExecute, found.isSome →
      (k.Unclaimed c a.asking.now a.supPd.apd ∧ k.apdSerial + 1 < 2 ^ 64 ∧
        (a.supPd.apd = 0 ∨ a.supPd.apd ≠ k.apdOf a.caller)) ∧
      ∀ made ∈ k.apdFindOrCreate c a.askingPd.kernel a.fuel a.pd a.desc a.supPd, made.1 ≠ 0 →
        made.2.CallMergeable c a made.1 clist

instance (c : ThreadConf) (k : Mem) (a : PdxArgs O) (clist : Cap) :
    Decidable (k.CallBindable c a clist) := by
  unfold Mem.CallBindable
  infer_instance

/-- The condition on a PDX call. -/
def Mem.PdxBindable (c : ThreadConf) (k : Mem) (a : PdxArgs O) : Prop :=
  ∀ apd ∈ k.pdxcacheLookup c a.lookup (k.apdOf a.caller) a.proc a.pd, apd = 0 →
    ∀ found ∈ pdxCallClist (k.askFor a a.asking) a.proc, ∀ clist ∈ found,
      (a.sup.apd = 0 ∨ a.sup.apd ≠ k.apdOf a.caller) ∧ k.CallBindable c a clist

instance (k : Mem) (a : PdxArgs O) : Decidable (k.PdxBindable c a) := by
  unfold Mem.PdxBindable
  infer_instance

/-- The condition on calls: no entry that can be hit is about an earlier APD at the address of a
new one, serial numbers do not begin again, no APD is copied that is being closed, PDX calls come
from an APD, and in them the clock does not go on before an APD is put into the cache. -/
def Timed.Bindable (c : ThreadConf) (s : Timed) : CallOp O → Prop
  | .thread (.apdFromTemplate _ _ sup) =>
    s.mem.Unclaimed c s.clock sup.apd ∧ s.mem.apdSerial + 1 < 2 ^ 64
  | .thread (.apdFindOrCreate _ _ _ _ sup) =>
    s.mem.Unclaimed c s.clock sup.apd ∧ s.mem.apdSerial + 1 < 2 ^ 64
  | .thread (.apdPdxMerge fuel now now' orig clist sup) =>
    s.mem.Mergeable c now' fuel now orig clist sup
  | .pdxCall a => s.mem.PdxBindable c a
  | _ => True

instance (s : Timed) : ∀ op : CallOp O, Decidable (s.Bindable c op)
  | .thread (.threadCreate ..) | .thread (.threadPdxCreate ..) | .thread (.sysThreadReturn ..)
  | .thread (.threadDelete ..) | .thread (.threadWait ..) | .thread (.threadDie ..)
  | .thread (.excptReg ..) | .thread (.apdFromTemplate ..) | .thread (.apdFindOrCreate ..)
  | .thread (.apdPdxMerge ..) | .thread (.apdClose ..) | .pdxCall _ => by
    unfold Timed.Bindable
    infer_instance

theorem MergedTo.of_eq (h : Bound c clock k) (now now' orig : ℕ) (clist : Cap) (new : ℕ) :
    MergedTo c clock now now' k orig clist new none k := ⟨h, fun _ _ => rfl, nofun⟩

/-- The APD for the Clist comes from a merge; for `PD_MERGE`, from one with the APD of the
caller. -/
theorem Bound.pdxApd {a : PdxArgs O} {clist : Cap} {r : Option (ℕ × ApdCacheId)}
    (h : Bound c a.asking.now k) (hb : k.CallBindable c a clist)
    (hsrc : a.sup.apd = 0 ∨ a.sup.apd ≠ k.apdOf a.caller)
    (hr : k.pdxApd c a clist = some (r, k')) :
    ∃ orig, (a.pd = pdMerge → orig = k.apdOf a.caller) ∧
      (k'.apd.cell (k.apdOf a.caller)).serial = (k.apd.cell (k.apdOf a.caller)).serial ∧
      ∃ k₁, MergedTo c a.asking.now a.merge a.insert k₁ orig clist a.sup.apd r k' := by
  unfold Mem.pdxApd at hr
  unfold CallBindable at hb
  have htime : ∀ {k₁ : Mem} {orig : ℕ}, k₁.CallMergeable c a orig clist →
      ∀ looked ∈ k₁.apdPdxCacheLookup c a.fuel a.merge orig clist, looked.1.isNone →
        a.insert ≤ a.asking.now := fun hm looked hlook hnone => (hm.2 looked hlook hnone).le
  split_ifs at hr hb with hmerge hempty
  · have hto := h.apdPdxMerge hb.1 (htime hb) hr
    exact ⟨_, fun _ => rfl, hto.serial _ hsrc, k, hto⟩
  · have hto := h.apdPdxMerge hb.1 (htime hb) hr
    exact ⟨0, fun h => absurd h hmerge, hto.serial _ hsrc, k, hto⟩
  · obtain ⟨found, hfound, hr⟩ := Option.bind_eq_some_iff.mp hr
    cases found with
    | none =>
      obtain ⟨rfl, rfl⟩ := Prod.mk.inj (Option.some.inj hr)
      exact ⟨0, fun h => absurd h hmerge, rfl, k, .of_eq h _ _ 0 clist _⟩
    | some found =>
      obtain ⟨⟨hu, hroom, hsrcPd⟩, hb⟩ := hb _ hfound rfl
      dsimp only at hr
      unfold apdPdxFindOrCreate at hr
      rw [if_neg (show ¬a.pd = 0 from hempty)] at hr
      obtain ⟨⟨apd, k₁⟩, hmade, hr⟩ := Option.bind_eq_some_iff.mp hr
      have hother : k.apdOf a.caller ≠ a.supPd.apd ∨ k.apd.live (k.apdOf a.caller) = true ∨
          a.supPd.apd = 0 := hsrcPd.elim (fun h0 => Or.inr (Or.inr h0)) fun hne => Or.inl hne.symm
      have h₁ : Bound c a.asking.now k₁ ∧
          (k₁.apd.cell (k.apdOf a.caller)).serial = (k.apd.cell (k.apdOf a.caller)).serial := by
        rcases apdFindOrCreate_made hmade with rfl | ⟨-, hnot⟩ | ⟨rfl, hnew⟩
        · exact ⟨h, rfl⟩
        · exact ⟨h.notMade hu hroom hnot, (hnot.apd _ hother).2.2⟩
        · exact ⟨h.made hu hroom hnew, (hnew.apd _ hother).2.2⟩
      dsimp only at hr
      by_cases hapd : apd = 0
      · rw [if_pos hapd] at hr
        obtain ⟨rfl, rfl⟩ := Prod.mk.inj (Option.some.inj hr)
        exact ⟨0, fun h => absurd h hmerge, h₁.2, k₁, .of_eq h₁.1 _ _ 0 clist _⟩
      · rw [if_neg hapd] at hr
        have hm := hb _ hmade hapd
        have hto := h₁.1.apdPdxMerge hm.1 (htime hm) hr
        exact ⟨apd, fun h => absurd h hmerge, (hto.serial _ hsrc).trans h₁.2, k₁, hto⟩

/-- **A PDX call keeps the entries true**, up to the creation of its thread. -/
theorem Bound.pdxCallApd {a : PdxArgs O} {r : ℕ} (h : Bound c a.asking.now k)
    (hb : k.PdxBindable c a) (hmerge : a.asking.now ≤ a.merge) (hlt : a.merge < 2 ^ 64)
    (hinsert : a.asking.now ≤ a.insert) (hr : k.pdxCallApd c a = some (r, k')) :
    Bound c a.asking.now k' := by
  obtain ⟨apd, hlook, hr⟩ := Option.bind_eq_some_iff.mp hr
  by_cases hapd : apd ≠ 0
  · rw [if_pos hapd] at hr
    obtain ⟨-, rfl⟩ := Prod.mk.inj (Option.some.inj hr)
    exact h
  · rw [if_neg hapd] at hr
    obtain ⟨found, hfound, hr⟩ := Option.bind_eq_some_iff.mp hr
    cases found with
    | none =>
      obtain ⟨-, rfl⟩ := Prod.mk.inj (Option.some.inj hr)
      exact h
    | some clist =>
      obtain ⟨hsrc, hb⟩ := hb apd hlook (not_not.mp hapd) _ hfound clist rfl
      obtain ⟨⟨made, k₁⟩, hmade, hr⟩ := Option.map_eq_some_iff.mp hr
      obtain ⟨orig, hpd, hserial, k₀, hto⟩ := h.pdxApd hb hsrc hmade
      cases made with
      | none =>
        obtain ⟨-, rfl⟩ := Prod.mk.inj hr
        exact hto.bound
      | some made =>
        obtain ⟨apd', id⟩ := made
        obtain ⟨-, rfl⟩ := Prod.mk.inj hr
        obtain ⟨hne, hpos, hid, ho, hc, hat, hage⟩ := hto.found apd' id rfl
        have hne' : (k₁.apdPdxCache id.pos).apd ≠ 0 := by
          rw [hat]
          exact hne
        have hrecent : (k₁.apdPdxCache id.pos).Recent c a.asking.now := by
          have htime := (hto.bound.entry _ hpos hne').timestamp
          rcases hage with hage | hage
          · exact (recent_of_not_timedOut hage (htime.trans hmerge) hlt).mono hmerge
          · unfold ApdPdxCacheEntry.Recent
            omega
        have hadd := hto.bound.pdxcacheAdd (k.apdOf a.caller) a.proc a.pd hpos hne'
          (by rw [hat]; exact hid) hrecent fun h => ho.trans (hpd h)
        rw [hc, hat, hserial] at hadd
        exact hadd

/-- A call that makes an APD. -/
def ThreadOp.Makes : ThreadOp O → Prop
  | .apdFromTemplate _ _ _ | .apdFindOrCreate _ _ _ _ _ | .apdPdxMerge _ _ _ _ _ _ => True
  | _ => False

/-- **The other calls** add no entry, and take no APD away that is in the cache. -/
theorem Mem.threadStep_fewer {op : ThreadOp O} (hop : ¬ op.Makes)
    (hs : threadStep c k op = some k') : Fewer k k' := by
  cases op with
  | apdFromTemplate os pd sup | apdFindOrCreate os fuel addr pd sup
  | apdPdxMerge fuel now now' orig clist sup => exact absurd trivial hop
  | apdClose fuel apd =>
    obtain ⟨⟨freed, k₁⟩, hc, rfl⟩ := Option.map_eq_some_iff.mp hs
    exact apdClose_fewer hc
  | threadCreate fuel apd parent supplied size sup =>
    obtain ⟨⟨⟨m, start⟩, k₁⟩, hc, rfl⟩ := Option.map_eq_some_iff.mp hs
    refine (threadCreate_begun hc).fewer ?_
    intro e he
    split_ifs at he
    · cases he
    · obtain rfl := List.mem_singleton.mp he
      exact id
  | threadPdxCreate fuel apd caller sup =>
    obtain ⟨⟨m, k₁⟩, hc, rfl⟩ := Option.map_eq_some_iff.mp hs
    exact threadPdxCreate_fewer hc
  | sysThreadReturn fuel item status thread =>
    by_cases hpdx : (k.mthread.cell thread).PDX = 0
    · obtain ⟨goes, hd⟩ := sysThreadReturn_other hpdx hs
      exact threadDelete_fewer hd
    · obtain ⟨k₁, hrelease, rfl⟩ := sysThreadReturn_pdx hpdx hs
      have hf := ((Frame.refl k).l4taskThreadRemove thread).sameApds.fewer
      refine (hf.trans (threadRelease_fewer hrelease)).trans ?_
      exact fewer_withEvents k₁ [.replied thread _] fun e he => by
        obtain rfl := List.mem_singleton.mp he
        exact id
  | threadDelete fuel item tid status caller =>
    obtain ⟨⟨goes, k₁⟩, hd, rfl⟩ := Option.map_eq_some_iff.mp hs
    exact threadDelete_fewer hd
  | threadWait fuel item tid caller =>
    obtain ⟨⟨ret, k₁⟩, hw, rfl⟩ := Option.map_eq_some_iff.mp hs
    rcases threadWait_ended hw with hframe | ⟨m, -, hend⟩
    · exact hframe.sameApds.fewer
    · exact hend.fewer fun e he => absurd he List.not_mem_nil
  | threadDie fuel item thread =>
    refine (threadDie_ended hs).fewer fun e he => ?_
    obtain rfl := List.mem_singleton.mp he
    exact id
  | excptReg thread handler =>
    obtain rfl := Option.some.inj hs
    have hframe : Frame k (k.excptReg thread handler) :=
      (Frame.refl k).modThread thread fun _ => ⟨rfl, rfl, rfl, rfl⟩
    exact hframe.sameApds.fewer

/-- The other calls keep the entries true. -/
theorem Bound.threadStep {s : Timed} {op : ThreadOp O} (h : Bound c s.clock s.mem)
    (hb : s.Bindable c (.thread op)) (htime : ((s.clock :: (CallOp.thread op).readings).Pairwise
      (· ≤ ·))) (hs : threadStep c s.mem op = some k') :
    Bound c ((CallOp.thread op).readings.getLastD s.clock) k' := by
  cases op with
  | apdFromTemplate os pd sup =>
    obtain ⟨⟨a, k₁⟩, hm, rfl⟩ := Option.map_eq_some_iff.mp hs
    rcases apdFromTemplate_made hm with ⟨-, hnot⟩ | ⟨rfl, hmade⟩
    · exact h.notMade hb.1 hb.2 hnot
    · exact h.made hb.1 hb.2 hmade
  | apdFindOrCreate os fuel addr pd sup =>
    obtain ⟨⟨a, k₁⟩, hm, rfl⟩ := Option.map_eq_some_iff.mp hs
    rcases apdFindOrCreate_made hm with rfl | ⟨-, hnot⟩ | ⟨rfl, hmade⟩
    · exact h
    · exact h.notMade hb.1 hb.2 hnot
    · exact h.made hb.1 hb.2 hmade
  | apdPdxMerge fuel now now' orig clist sup =>
    obtain ⟨⟨r, k₁⟩, hm, rfl⟩ := Option.map_eq_some_iff.mp hs
    have hle : s.clock ≤ now' := (List.pairwise_cons.mp htime).1 now' (by simp [CallOp.readings])
    exact ((h.mono hle).apdPdxMerge hb (fun _ _ _ => le_rfl) hm).bound
  | threadCreate | threadPdxCreate | sysThreadReturn | threadDelete | threadWait | threadDie
  | excptReg | apdClose => exact h.fewer (threadStep_fewer id hs)

/-! ### Runs -/

/-- No reading of the clock is after the last one. -/
theorem le_getLastD_of_pairwise {l : List ℕ} (h : (now :: l).Pairwise (· ≤ ·)) :
    ∀ t ∈ now :: l, t ≤ l.getLastD now := by
  induction l generalizing now with
  | nil =>
    intro t ht
    exact (List.mem_singleton.mp ht).le
  | cons t' l ih =>
    intro t ht
    obtain ⟨hle, hl⟩ := List.pairwise_cons.mp h
    rw [List.getLastD_cons]
    rcases List.mem_cons.mp ht with rfl | ht
    · exact (hle t' List.mem_cons_self).trans (ih hl t' List.mem_cons_self)
    · exact ih hl t ht

/-- **A call keeps the entries true.** -/
theorem Bound.step {s s' : Timed} {op : CallOp O} (h : Bound c s.clock s.mem)
    (hb : s.Bindable c op) (hs : callStep c s op = some s') : Bound c s'.clock s'.mem := by
  unfold callStep at hs
  split_ifs at hs with hguard
  obtain ⟨k', hmem, rfl⟩ := Option.map_eq_some_iff.mp hs
  have hlast := le_getLastD_of_pairwise hguard.1
  cases op with
  | thread op => exact h.threadStep hb hguard.1 hmem
  | pdxCall a =>
    obtain ⟨⟨ok, k'⟩, hcall, rfl⟩ := Option.map_eq_some_iff.mp hmem
    obtain ⟨⟨apd, k₁⟩, happ, hcall⟩ := Option.bind_eq_some_iff.mp hcall
    have hasked : s.clock ≤ a.asking.now :=
      (List.pairwise_cons.mp hguard.1).1 _ (by simp [CallOp.readings])
    have hins : a.asking.now ≤ a.insert := hlast _ (by simp [CallOp.readings])
    have hmerge : a.asking.now ≤ a.merge :=
      (List.pairwise_cons.mp hguard.1.of_cons.of_cons).1 _ (by simp)
    have hlt : a.merge < 2 ^ 64 := hguard.2 _ (by simp [CallOp.readings])
    have h₁ := ((h.mono hasked).pdxCallApd hb hmerge hlt hins happ).mono hins
    change Bound c a.insert _
    by_cases hapd : apd = 0
    · rw [if_pos hapd] at hcall
      obtain ⟨-, rfl⟩ := Prod.mk.inj (Option.some.inj hcall)
      exact h₁
    · rw [if_neg hapd] at hcall
      obtain ⟨⟨m, k₂⟩, hcreate, heq⟩ := Option.map_eq_some_iff.mp hcall
      obtain ⟨-, rfl⟩ := Prod.mk.inj heq
      exact h₁.fewer (threadPdxCreate_fewer hcreate)

/-! ### Hits -/

/-- What is returned at a time by the two lookups is in memory, and was made by a merge for the
APD that is at the source now; a hit of the PDX cache was asked for by that APD, and its entry
point validated no longer than the timeout ago. -/
structure Mem.HitsBound (c : ThreadConf) (k : Mem) (now : ℕ) : Prop where
  merged : ∀ fuel orig clist apd id k',
    k.apdPdxCacheLookup c fuel now orig clist = some (some (apd, id), k') →
    k.apd.live apd = true ∧
      .merged orig (k.apd.cell orig).serial clist apd (k.apd.cell apd).serial ∈ k.log
  bound : ∀ src proc pd apd, src ≠ 0 → k.pdxcacheLookup c now src proc pd = some apd → apd ≠ 0 →
    k.apd.live apd = true ∧ ∃ time orig origSerial clist,
      .merged orig origSerial clist apd (k.apd.cell apd).serial ∈ k.log ∧
      (pd = pdMerge → orig = src ∧ origSerial = (k.apd.cell src).serial) ∧
      .bound src (k.apd.cell src).serial proc pd time orig clist apd
        (k.apd.cell apd).serial ∈ k.log ∧
      time ≤ now ∧ now - time ≤ c.apdPdxCacheTimeout

theorem pdxcacheHash_lt (a b d : ℕ) : pdxcacheHash a b d < 256 :=
  Nat.mod_lt _ (by decide)

/-- A hit of the PDX cache leads to an entry of the other one that is not too old. -/
theorem Mem.pdxcacheLookup_hit {src proc pd apd : ℕ}
    (h : k.pdxcacheLookup c now src proc pd = some apd) (hne : apd ≠ 0) :
    ∃ j < 256, (k.pdxCache j).apdSrc = src ∧ (k.pdxCache j).proc = proc ∧
      (k.pdxCache j).apdDest = pd ∧ (k.apdPdxCache (k.pdxCache j).id.pos).apd = apd ∧
      (k.pdxCache j).id.pos < apdPdxCacheSize ∧
      ¬c.TimedOut now (k.apdPdxCache (k.pdxCache j).id.pos).timestamp ∧
      (k.apd.cell apd).serial = (k.pdxCache j).id.serial := by
  unfold pdxcacheLookup at h
  dsimp only at h
  split_ifs at h with hkey
  · unfold apdPdxCacheCheckId at h
    split_ifs at h with hpos
    · obtain rfl := Option.some.inj h
      split_ifs at hne ⊢ with h₁ h₂ h₃
      · exact absurd rfl hne
      · exact absurd rfl hne
      · exact absurd rfl hne
      · exact ⟨_, pdxcacheHash_lt .., hkey.1, hkey.2.1, hkey.2.2, rfl, hpos, h₂, not_not.mp h₃⟩
  · exact absurd (Option.some.inj h).symm hne

/-- **True entries give bound hits**, at any later time. -/
theorem Bound.hitsBound (h : Bound c clock k) (hclock : clock ≤ now) (hnow : now < 2 ^ 64) :
    k.HitsBound c now where
  merged := fun fuel orig clist apd id k' hlook => by
    rcases apdPdxCacheLookup_cases hlook with ⟨hnone, -⟩ | ⟨-, i, hi, hne, rfl, rfl, hage, hsome⟩
    · cases hnone
    · obtain ⟨rfl, -⟩ := Prod.mk.inj (Option.some.inj hsome)
      have hentry := (h.mono hclock).entry i hi hne
      exact ⟨hentry.live, hentry.merged (recent_of_not_timedOut hage hentry.timestamp hnow)⟩
  bound := fun src proc pd apd hsrc hlook hne => by
    obtain ⟨j, hj, rfl, rfl, rfl, rfl, hpos, hage, hserial⟩ := pdxcacheLookup_hit hlook hne
    have h := h.mono hclock
    have hentry := h.entry _ hpos hne
    have hrecent := recent_of_not_timedOut hage hentry.timestamp hnow
    obtain ⟨time, orig, clist, apd, hbound, htime, hafter⟩ :=
      h.pdx j hj hsrc ⟨hpos, hne, hserial, hrecent⟩
    obtain ⟨origSerial, hmerged, hpd⟩ := h.bound hbound
    obtain ⟨-, -, -, rfl⟩ := h.unique (hentry.merged hrecent) (hserial ▸ hmerged)
    rw [← hserial] at hmerged hbound
    refine ⟨hentry.live, time, orig, origSerial, clist, hmerged, hpd, hbound, htime, ?_⟩
    unfold ApdPdxCacheEntry.Recent at hrecent
    omega

/-- **Hits of the PDX caches are bound to their source**, in every run of such calls. -/
theorem pdx_hits_bound (c : ThreadConf) (k : Mem) (s : Timed) (ops : List (CallOp O))
    (clock now : ℕ) (hboot : k.Booted) (hops : Along (callStep c) (Timed.Bindable c) ⟨k, clock⟩ ops)
    (hrun : run (callStep c) ⟨k, clock⟩ ops = some s) (hclock : s.clock ≤ now)
    (hnow : now < 2 ^ 64) : s.mem.HitsBound c now :=
  (run_invariant_along (I := fun s => Bound c s.clock s.mem) (fun _ _ _ h hb hs => h.step hb hs) ops
    ⟨k, clock⟩ s hboot.bound hops hrun).hitsBound hclock hnow

/-- An object with a PDX password for one entry point. -/
def pdxObj : Obj where
  base := 0x1000
  limit := 0x3000
  info :=
    { length := 0x2000, nCaps := 0, nPdx := 1
      passwd := fun _ => 0
      rights := fun _ => 0
      pdx := ⟨fun _ => ⟨0x7000, 7⟩, fun i => if i = 0 then 33 else 0, fun _ => 0,
        fun i => if i = 0 then 1 else 0, fun _ => 0x2000⟩ }

/-- A kernel with that object alone, and a Clist with the password. -/
def pdxKernel : Kernel ℕ where
  btOrder := 255
  pageWord := fun count isleaf => count.toNat + if isleaf then 2 ^ 32 else 0
  obj := fun _ => pdxObj
  clist := fun _ => ⟨'c'.toNat, 1, 1, fun _ => ⟨0x1000, 33⟩⟩
  objtable := ⟨1, .page ⟨0, 0, true, fun _ => 0, fun _ => .obj 1⟩, ⟨64, 1, 0, fun _ => 1⟩⟩

/-- A PD with one slot in use. -/
def oneSlot : ApdDesc := ⟨fun i => if i = 0 then ⟨0x5000, 0⟩ else .null, 0, 1⟩

/-- The memory, an empty cache, and the time. -/
def askAt (now : ℕ) : Asking ℕ := ⟨pdxKernel, oneSlot, vcacheNew, now, now, now⟩

/-- The answers for a thread in a new task. -/
def taskFor (mthread task : ℕ) : ThreadSupply :=
  ⟨mthread, 2 * task + 200, 2 * task + 201, mthread + 20, 4096, 8192, some ⟨task, 0, 0⟩, false⟩

/-- A PDX call at the time `now`, with an APD and a thread for it. -/
def pdxAt (now caller pd apd : ℕ) (thread : ThreadSupply) : PdxArgs ℕ :=
  ⟨5, caller, 0x2000, pd, now, askAt now, askAt now, oneSlot, now, now, apdAt 0, apdAt apd, thread⟩

/-- A PDX call makes an APD, from which another one makes the APD 102.  Both return, and the
first one is made again when its entry is too old, with the APD at `apd`. -/
def madeAgain (apd : ℕ) : List (CallOp ℕ) :=
  [.thread (.apdFromTemplate pdxKernel oneSlot (apdAt 100)),
    .thread (.threadCreate 5 100 0 0 0 (taskFor 10 0)),
    .pdxCall (pdxAt 5 10 pdEmpty 101 (taskFor 12 1)),
    .pdxCall (pdxAt 60 12 pdMerge 102 (taskFor 14 2)), .thread (.sysThreadReturn 5 0 0 14),
    .thread (.sysThreadReturn 5 0 0 12), .pdxCall (pdxAt 110 10 pdEmpty apd (taskFor 16 3))]

/-- The serial number of the APD at `src` in the event of a call from there. -/
def Event.srcSerial (src : ℕ) : Event → Option ℕ
  | .bound s serial _ _ _ _ _ _ _ => if s = src then some serial else none
  | _ => none

theorem Event.srcSerial_bound (src serial proc pd time orig : ℕ) (clist : Cap) (apd new : ℕ) :
    (Event.bound src serial proc pd time orig clist apd new).srcSerial src = some serial :=
  if_pos rfl

/-- Where the address of the closed APD is used again, the new APD hits what was made from the
closed one. -/
theorem pdx_hits_not_bound :
    ¬ ∀ (c : ThreadConf) (k : Mem) (s : Timed) (ops : List (CallOp ℕ)) (clock now : ℕ), k.Booted →
      run (callStep c) ⟨k, clock⟩ ops = some s → s.clock ≤ now → now < 2 ^ 64 →
      s.mem.HitsBound c now := by
  intro h
  have hend : (run (callStep smallConf) ⟨Mem.boot, 0⟩ (madeAgain 101)).map
      (fun s => (s.clock, s.mem.pdxcacheLookup smallConf 110 101 0x2000 pdMerge,
        s.mem.log.filterMap (Event.srcSerial 101), (s.mem.apd.cell 101).serial)) =
      some (110, some 102, [1], 3) := by
    decide +kernel
  obtain ⟨s, hrun, hs⟩ := Option.map_eq_some_iff.mp hend
  obtain ⟨hclock, hs⟩ := Prod.mk.inj hs
  obtain ⟨hlook, hs⟩ := Prod.mk.inj hs
  obtain ⟨hlog, hserial⟩ := Prod.mk.inj hs
  have hhits := h smallConf Mem.boot s (madeAgain 101) 0 110 Mem.boot_booted hrun hclock.le
    (by decide)
  obtain ⟨-, time, orig, origSerial, clist, -, -, hbound, -⟩ :=
    hhits.bound 101 0x2000 pdMerge 102 (by decide) hlook (by decide)
  have hmem := List.mem_filterMap.mpr ⟨_, hbound, Event.srcSerial_bound ..⟩
  rw [hlog, hserial] at hmem
  revert hmem
  decide

theorem pdx_hits_bound_madeAgain : ∃ s,
    run (callStep smallConf) ⟨Mem.boot, 0⟩ (madeAgain 103) = some s ∧ s.clock ≤ 150 ∧
      s.mem.HitsBound smallConf 150 := by
  have hrun : (run (callStep smallConf) ⟨Mem.boot, 0⟩ (madeAgain 103)).map (fun s => s.clock) =
      some 110 := by
    decide +kernel
  obtain ⟨s, hs, hclock⟩ := Option.map_eq_some_iff.mp hrun
  have hle : s.clock ≤ 150 := hclock.le.trans (by decide)
  exact ⟨s, hs, hle, pdx_hits_bound smallConf Mem.boot s (madeAgain 103) 0 150 Mem.boot_booted
    (by decide +kernel) hs hle (by decide)⟩

end Mungi
