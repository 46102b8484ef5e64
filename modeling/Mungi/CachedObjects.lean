import Mungi.Objects
import Mungi.Validation

/-!
# Objects and the caches

Creation, deletion and resizing of objects, with validations of any number of APDs in
between.  The caches of the APDs keep the range of an object and a pointer to it, and
nothing tells them when the object is deleted or made smaller: they have to have
forgotten it by then.

## Main definitions

* `Host`, `hostStep` — objects and caches, and calls one after another.
* `Spares` — a call leaves an object its addresses.
* `Forgotten` — the calls leave alone what the caches still know.

## Main results

* `objStep_spares` — what a call leaves of the table.
* `hostStep_current` — one call keeps the caches in step with the table.
* `answer_live` — **no run in which the caches have forgotten in time hands out a dead
  object.**
* `answer_dead` — and others do.
-/

namespace Mungi

open Runs

variable {O ι : Type}

/-! ### Calls -/

/-- The objects and the caches of the APDs, at a time. -/
structure Host (O ι : Type) where
  sys : System O
  vcache : ι → Vcache O CapPtr
  clock : ℕ

/-- Calls, with the clock readings. -/
inductive HostOp (O ι : Type) where
  | object (now : ℕ) (op : ObjOp O)
  /-- Slots and Clists may be other ones in every request. -/
  | validate (i : ι) (apd : ApdDesc) (clist : ℕ → Clist) (r : Request)

/-- One call. -/
def hostStep [DecidableEq O] [DecidableEq ι] (pageSize : ℕ) (s : Host O ι) :
    HostOp O ι → Option (Host O ι)
  | .object now op => (objStep pageSize s.sys op).map fun sys => { s with sys, clock := now }
  | .validate i apd clist r =>
    (validateStep (s.sys.kernel.withClists clist) apd (s.vcache i) r).map fun v =>
      { s with vcache := Function.update s.vcache i v, clock := r.t₂ }

/-- What a call can count on: the clock does not run backwards and fits its type, and the
heap hands out memory that is not in use. -/
def Timely (s : Host O ι) : HostOp O ι → Prop
  | .object now op => s.clock ≤ now ∧ now < 2 ^ 64 ∧ match op with
      | .create _ _ mem => ∀ o junk, mem = some (o, junk) → o ∉ s.sys.kernel.objtable.toList
      | _ => True
  | .validate _ _ _ r => s.clock ≤ r.now ∧ r.now ≤ r.t₂ ∧ r.t₂ < 2 ^ 64

/-! ### What a call leaves of the table -/

/-- The shape of the object table. -/
structure Kernel.TableOk (k : Kernel O) : Prop where
  odd : k.conf.Odd
  shaped : k.objtable.Shaped k.conf

section Table
variable [DecidableEq O] {pageSize : ℕ} {s s' : System O}

/-- `object_resize` fails: no free chunk lies at the end of the object or in front of it. -/
structure CannotGrow (pageSize : ℕ) (s : System O) (o : O) (newSize : ℕ) : Prop where
  pages : pageRoundUp pageSize (wordAdd (s.kernel.obj o).base (pageRoundUp pageSize newSize))
    ≠ pageRoundUp pageSize (s.kernel.obj o).limit
  larger : (s.kernel.obj o).info.length < pageRoundUp pageSize newSize
  none_free : ∀ c, s.free.head? = some c →
    pageRoundDown pageSize (s.kernel.obj o).limit < c.address

/-- A call leaves the object `o` its addresses below `limit`. -/
def Spares (pageSize : ℕ) (s : System O) (o : O) (limit : ℕ) : ObjOp O → Prop
  | .create length passwd mem => ∀ o' junk, mem = some (o', junk) →
      -- the table does not lose objects for want of pages
      let k := s.kernel.setObj o'
        (objectInit junk (kmallocObj pageSize s.free length).1 length passwd)
      (btIns k.conf k.objtable o').1 ≠ .allocFail
  | .delete addr => (s.kernel.obj o).base ≠ addr
  | .resize o' newSize => o' = o →
      limit ≤ wordAdd (s.kernel.obj o).base (pageRoundUp pageSize newSize) ∨
        CannotGrow pageSize s o newSize

/-- The object is still in the table, at the same place, and reaches up to `limit`. -/
structure Kept (k k' : Kernel O) (o : O) (limit : ℕ) : Prop where
  mem : o ∈ k'.objtable.toList
  base : (k'.obj o).base = (k.obj o).base
  limit : limit ≤ (k'.obj o).limit

omit [DecidableEq O] in
theorem Kept.refl {k : Kernel O} {o : O} {limit : ℕ} (ho : o ∈ k.objtable.toList)
    (hlimit : limit ≤ (k.obj o).limit) : Kept k k o limit := ⟨ho, rfl, hlimit⟩

/-- What `object_add` leaves in memory. -/
theorem objectAdd_some (k : Kernel O) (o : O) (junk : ObjInfo) (addr length passwd : ℕ) :
    (objectAdd k (some (o, junk)) addr length passwd).1 =
      let k := k.setObj o (objectInit junk addr length passwd)
      { k with objtable := (btIns k.conf k.objtable o).2.1 } := by
  unfold objectAdd
  dsimp only
  generalize k.setObj o (objectInit junk addr length passwd) = k
  rcases btIns k.conf k.objtable o with ⟨ret, t, ngb⟩
  cases ret <;> rfl

theorem Kernel.TableOk.setObj {k : Kernel O} (hk : k.TableOk) (o : O) (obj : Obj) :
    (k.setObj o obj).TableOk :=
  ⟨hk.odd, hk.shaped.congr (show (k.setObj o obj).conf.btOrder = k.conf.btOrder from rfl)⟩

/-- A new object does not disturb the others. -/
theorem objectAdd_kept {k : Kernel O} (hk : k.TableOk) (mem : Option (O × ObjInfo))
    (addr length passwd : ℕ) :
    (objectAdd k mem addr length passwd).1.TableOk ∧
      ((∀ o junk, mem = some (o, junk) → o ∉ k.objtable.toList ∧
        let k := k.setObj o (objectInit junk addr length passwd)
        (btIns k.conf k.objtable o).1 ≠ .allocFail) →
      ∀ o limit, o ∈ k.objtable.toList → limit ≤ (k.obj o).limit →
        Kept k (objectAdd k mem addr length passwd).1 o limit) := by
  cases mem with
  | none => exact ⟨hk, fun _ o limit => Kept.refl⟩
  | some r =>
    obtain ⟨o', junk⟩ := r
    rw [objectAdd_some]
    have hk' := hk.setObj o' (objectInit junk addr length passwd)
    have htable : (k.setObj o' (objectInit junk addr length passwd)).objtable = k.objtable := rfl
    have hobj : ∀ o, o ≠ o' → (k.setObj o' (objectInit junk addr length passwd)).obj o = k.obj o :=
      fun o ho => Kernel.setObj_of_ne _ ho _
    have hsame : ∀ o'' junk', some (o', junk) = some (o'', junk') →
        k.setObj o'' (objectInit junk' addr length passwd)
          = k.setObj o' (objectInit junk addr length passwd) := by
      rintro _ _ ⟨⟩
      rfl
    generalize k.setObj o' (objectInit junk addr length passwd) = k' at *
    dsimp only
    have hkept : ∀ t : BTree O, o' ∉ k.objtable.toList →
        (∀ a ∈ k.objtable.toList, a ∈ t.toList) → ∀ o limit, o ∈ k.objtable.toList →
        limit ≤ (k.obj o).limit → Kept k { k' with objtable := t } o limit := by
      intro t hfresh hsub o limit ho hlimit
      have hne : o ≠ o' := by
        rintro rfl
        exact hfresh ho
      exact ⟨hsub o ho, congrArg Obj.base (hobj o hne),
        hlimit.trans_eq (congrArg Obj.limit (hobj o hne)).symm⟩
    cases btIns_outcome hk'.odd hk'.shaped o' with
    | refused hret tree =>
      rw [tree, htable]
      refine ⟨⟨hk'.odd, htable ▸ hk'.shaped⟩, fun h => ?_⟩
      exact hkept _ (h o' junk rfl).1 fun a ha => ha
    | failed hret shaped =>
      refine ⟨⟨hk'.odd, shaped⟩, fun h => absurd hret ?_⟩
      have hno := (h o' junk rfl).2
      rwa [hsame o' junk rfl] at hno
    | inserted l₁ l₂ hret shaped old new =>
      refine ⟨⟨hk'.odd, shaped⟩, fun h => hkept _ (h o' junk rfl).1 fun a ha => ?_⟩
      rw [new]
      rw [← htable, old] at ha
      exact List.perm_middle.mem_iff.mpr (List.mem_cons_of_mem _ ha)

/-- What `object_create` leaves in memory. -/
theorem objectCreate_kernel (s : System O) (length passwd : ℕ) (mem : Option (O × ObjInfo)) :
    (objectCreate pageSize s length passwd mem).1.kernel = s.kernel ∨
      (objectCreate pageSize s length passwd mem).1.kernel
        = (objectAdd s.kernel mem (kmallocObj pageSize s.free length).1 length passwd).1 := by
  unfold objectCreate
  dsimp only
  split_ifs
  · exact Or.inl rfl
  · refine Or.inr ?_
    rcases objectAdd s.kernel mem (kmallocObj pageSize s.free length).1 length passwd with
      ⟨k, _ | obj⟩ <;> rfl

/-- What `object_resize` leaves in memory. -/
theorem objectResize_kernel {o : O} {newSize : ℕ} {b : Bool}
    (h : objectResize pageSize s o newSize = some (s', b)) :
    s'.kernel = s.kernel ∨ ¬ CannotGrow pageSize s o newSize ∧
      s'.kernel = setSize s.kernel o
        (wordAdd (s.kernel.obj o).base (pageRoundUp pageSize newSize))
        (pageRoundUp pageSize newSize) := by
  unfold objectResize at h
  dsimp only at h
  split_ifs at h with hpages hsame hsmall
  · obtain ⟨rfl, -⟩ := Prod.mk.inj (Option.some.inj h)
    refine Or.inr ⟨fun hc => ?_, rfl⟩
    have := hc.larger
    omega
  · obtain ⟨rfl, -⟩ := Prod.mk.inj (Option.some.inj h)
    refine Or.inr ⟨fun hc => ?_, rfl⟩
    have := hc.larger
    omega
  · by_cases hc : CannotGrow pageSize s o newSize
    · rw [kmallocObjAddr_none _ hc.none_free] at h
      obtain ⟨rfl, -⟩ := Prod.mk.inj (Option.some.inj h)
      exact Or.inl rfl
    · cases hk : kmallocObjAddr pageSize s.free (s.kernel.obj o).limit
          (pageRoundUp pageSize newSize - (s.kernel.obj o).info.length) with
      | none => rw [hk] at h; cases h
      | some r =>
        rw [hk] at h
        dsimp only at h
        split_ifs at h
        · obtain ⟨rfl, -⟩ := Prod.mk.inj (Option.some.inj h)
          exact Or.inl rfl
        · obtain ⟨rfl, -⟩ := Prod.mk.inj (Option.some.inj h)
          exact Or.inr ⟨hc, rfl⟩
  · obtain ⟨rfl, -⟩ := Prod.mk.inj (Option.some.inj h)
    exact Or.inr ⟨fun hc => hc.pages (not_not.mp hpages), rfl⟩

/-- **What a call leaves of the table**: its shape, and the objects that are spared. -/
theorem objStep_spares (hk : s.kernel.TableOk) {op : ObjOp O}
    (hfresh : ∀ length passwd mem, op = .create length passwd mem → ∀ o junk,
      mem = some (o, junk) → o ∉ s.kernel.objtable.toList)
    (hs' : objStep pageSize s op = some s') :
    s'.kernel.TableOk ∧ ∀ o limit, o ∈ s.kernel.objtable.toList → limit ≤ (s.kernel.obj o).limit →
      Spares pageSize s o limit op → Kept s.kernel s'.kernel o limit := by
  cases op with
  | create length passwd mem =>
    obtain rfl := Option.some.inj hs'
    rcases objectCreate_kernel s length passwd mem with heq | heq
    · rw [heq]
      exact ⟨hk, fun o limit ho hlimit _ => Kept.refl ho hlimit⟩
    · obtain ⟨hk', hkept⟩ := objectAdd_kept hk mem (kmallocObj pageSize s.free length).1 length
        passwd
      rw [heq]
      refine ⟨hk', fun o limit ho hlimit hsp => hkept (fun o' junk hmem => ?_) o limit ho hlimit⟩
      exact ⟨hfresh _ _ _ rfl o' junk hmem, hsp o' junk hmem⟩
  | delete addr =>
    obtain ⟨⟨s₁, b⟩, hs₁, rfl⟩ := Option.map_eq_some_iff.mp hs'
    unfold objectDelete at hs₁
    dsimp only at hs₁
    have hout := btDel_outcome hk.odd hk.shaped addr
    generalize btDel s.kernel.conf s.kernel.objtable addr = res at hout hs₁
    cases hout with
    | notFound absent =>
      obtain ⟨rfl, -⟩ := Prod.mk.inj (Option.some.inj hs₁)
      exact ⟨hk, fun o limit ho hlimit _ => Kept.refl ho hlimit⟩
    | panicked => cases hs₁
    | deleted t l₁ l₂ o shaped key old new =>
      obtain ⟨rfl, -⟩ := Prod.mk.inj (Option.some.inj hs₁)
      refine ⟨⟨hk.odd, shaped⟩, fun o' limit ho' hlimit hsp => ⟨?_, rfl, hlimit⟩⟩
      have hne : o' ≠ o := by
        rintro rfl
        exact hsp key
      dsimp only
      rw [new]
      rw [old] at ho'
      exact (List.mem_cons.mp (List.perm_middle.mem_iff.mp ho')).resolve_left hne
  | resize o newSize =>
    obtain ⟨⟨s₁, b⟩, hs₁, rfl⟩ := Option.map_eq_some_iff.mp hs'
    rcases objectResize_kernel hs₁ with heq | ⟨hgrow, heq⟩
    · dsimp only
      rw [heq]
      exact ⟨hk, fun o' limit ho' hlimit _ => Kept.refl ho' hlimit⟩
    · dsimp only
      rw [heq]
      refine ⟨hk.setObj o _, fun o' limit ho' hlimit hsp => ?_⟩
      unfold setSize
      by_cases ho : o' = o
      · subst ho
        refine ⟨ho', ?_, ?_⟩
        · rw [Kernel.setObj_self]
        · rw [Kernel.setObj_self]
          exact (hsp rfl).resolve_right hgrow
      · refine ⟨ho', ?_, ?_⟩
        · rw [Kernel.setObj_of_ne _ ho]
        · rwa [Kernel.setObj_of_ne _ ho]

end Table

/-! ### What the caches know -/

/-- An entry is in step with the table: as long as it is not too old, its object is in
the table and has the addresses of the entry. -/
structure Current (k : Kernel O) (now : ℕ) (e : VcacheEntry) (info : VcacheInfo O CapPtr) :
    Prop where
  past : info.timestamp ≤ now
  obj : ∃ o, info.obj = some o ∧ (now - info.timestamp ≤ vcacheTimeout → e.base < e.limit →
    o ∈ k.objtable.toList ∧ (k.obj o).base ≤ e.base ∧ e.limit ≤ (k.obj o).limit)

/-- The caches are in step with the table. -/
structure Host.Current (s : Host O ι) : Prop where
  table : s.sys.kernel.TableOk
  caches : ∀ i, (s.vcache i).Holds (Mungi.Current s.sys.kernel s.clock)

/-- **The calls that come late enough**: objects lose addresses only when all entries that
have them are too old. -/
def Forgotten [DecidableEq O] (pageSize : ℕ) (s : Host O ι) : HostOp O ι → Prop
  | .object now op => ∀ i j, InBounds j → ∀ o, ((s.vcache i).cacheInf j).obj = some o →
      ((s.vcache i).cacheObj j).base < ((s.vcache i).cacheObj j).limit →
      wordSub now ((s.vcache i).cacheInf j).timestamp ≤ vcacheTimeout →
      Spares pageSize s.sys o ((s.vcache i).cacheObj j).limit op
  | .validate .. => True

section Entries
variable {k : Kernel O} {now now' : ℕ} {e : VcacheEntry} {info : VcacheInfo O CapPtr}

theorem Current.obj_ne_none (h : Current k now e info) : info.obj ≠ none := by
  obtain ⟨o, ho, -⟩ := h.obj
  rw [ho]
  exact nofun

/-- Time goes by. -/
theorem Current.later (h : Current k now e info) (hle : now ≤ now') : Current k now' e info := by
  obtain ⟨o, ho, hlive⟩ := h.obj
  have hpast := h.past
  exact ⟨by omega, o, ho, fun hnew => hlive (by omega)⟩

/-- Nothing of what it says about the table depends on the Clists. -/
theorem Current.withClists (h : Current k now e info) (clist : ℕ → Clist) :
    Current (k.withClists clist) now e info := ⟨h.past, h.obj⟩

/-- The object keeps its addresses. -/
theorem Current.kept (h : Current k now e info) (hle : now ≤ now') (hlt : now' < 2 ^ 64)
    {k' : Kernel O} (hkept : ∀ o, info.obj = some o → e.base < e.limit →
      wordSub now' info.timestamp ≤ vcacheTimeout → o ∈ k.objtable.toList →
      e.limit ≤ (k.obj o).limit → Kept k k' o e.limit) : Current k' now' e info := by
  obtain ⟨o, ho, hlive⟩ := (h.later hle).obj
  have hpast := h.past
  refine ⟨by omega, o, ho, fun hnew hne => ?_⟩
  obtain ⟨hmem, hbase, hlimit⟩ := hlive hnew hne
  have hword : wordSub now' info.timestamp = now' - info.timestamp :=
    wordSub_of_le (by omega) hlt
  have hk := hkept o ho hne (hword ▸ hnew) hmem hlimit
  exact ⟨hk.mem, hk.base.trans_le hbase, hk.limit⟩

/-- What the search of the APD grants is in step. -/
theorem GrantSpec.current (hk : k.TableOk) {apd : ApdDesc} {addr : ℕ} {access : Access}
    {g : Grant O CapPtr} (hg : GrantSpec k apd addr access g) (t : ℕ) :
    Current k t g.entry (g.info t) := by
  refine ⟨le_rfl, g.obj, rfl, fun _ hne => ?_⟩
  by_cases hp : g.access.IsPdx
  · rw [Grant.entry_of_isPdx hp] at hne
    exact absurd hne (lt_irrefl _)
  · rw [Grant.entry_of_not_isPdx hp]
    exact ⟨(objectFind_sound hk.odd hk.shaped hg.found).1, hg.base.ge, hg.limit.le⟩

/-- What an entry hands out is alive. -/
theorem Current.live (h : Current k now e info) (hlt : now < 2 ^ 64) {addr : ℕ} {access : Access}
    (hp : ¬ access.IsPdx) (hm : e.Matches addr access)
    (ht : wordSub now info.timestamp ≤ vcacheTimeout) {o : O} (ho : info.obj = some o) :
    o ∈ k.objtable.toList ∧ (k.obj o).Contains addr := by
  unfold VcacheEntry.Matches at hm
  rw [if_neg hp] at hm
  obtain ⟨hle, hup⟩ := hm
  obtain ⟨o', ho', hlive⟩ := h.obj
  obtain rfl := Option.some.inj (ho'.symm.trans ho)
  rw [wordSub_of_le h.past hlt] at ht
  obtain ⟨hmem, hbase, hlimit⟩ := hlive ht (by omega)
  exact ⟨hmem, by omega, by omega⟩

/-- What is handed out is alive, as long as the caches are in step. -/
theorem Host.Current.alive {s : Host O ι} (h : s.Current) (i : ι) (apd : ApdDesc)
    (clist : ℕ → Clist) {r : Request} (htime : Timely s (.validate i apd clist r))
    (hp : ¬ r.access.IsPdx) {o : O}
    (ho : answer (s.sys.kernel.withClists clist) apd (s.vcache i) r = some (some o)) :
    o ∈ s.sys.kernel.objtable.toList ∧ (s.sys.kernel.obj o).Contains r.addr := by
  obtain ⟨hle, hle', hlt⟩ := htime
  have hcache := (h.caches i).mono fun e info hcur => hcur.later hle
  obtain ⟨res, hres, hout⟩ := doValidateObj_outcome (fun _ _ => Current.obj_ne_none)
    (s.sys.kernel.withClists clist) apd hcache r.addr r.access r.now r.t₁ r.t₂
  rw [answer, hres] at ho
  have ho := Option.some.inj ho
  cases hout with
  | unknown w holds verdict => cases ho
  | denied w cap holds verdict => cases ho
  | hit w e info o' holds entry matches_entry time rights obj =>
    obtain rfl := Option.some.inj ho
    exact entry.live (by omega) hp matches_entry time obj
  | granted w g holds verdict =>
    obtain rfl := Option.some.inj ho
    exact objectFind_sound (k := s.sys.kernel.withClists clist) h.table.odd h.table.shaped
      (grantSpec verdict).found

end Entries

/-! ### Runs -/

section Runs
variable [DecidableEq O] [DecidableEq ι] {pageSize : ℕ} {s s' : Host O ι}

/-- **One call keeps the caches in step with the table.** -/
theorem hostStep_current (h : s.Current) {op : HostOp O ι} (htime : Timely s op)
    (hforgot : Forgotten pageSize s op) (hs' : hostStep pageSize s op = some s') :
    s'.Current := by
  cases op with
  | object now op =>
    obtain ⟨hle, hlt, hfresh⟩ := htime
    obtain ⟨sys, hsys, rfl⟩ := Option.map_eq_some_iff.mp hs'
    obtain ⟨htable, hkept⟩ := objStep_spares h.table (by rintro _ _ _ rfl; exact hfresh) hsys
    refine ⟨htable, fun i => ⟨(h.caches i).last, fun j hj => ?_⟩⟩
    refine ((h.caches i).entries j hj).imp_right fun hcur => hcur.kept hle hlt ?_
    intro o ho hne hnew hmem hlimit
    exact hkept o _ hmem hlimit (hforgot i j hj o ho hne hnew)
  | validate i apd clist r =>
    obtain ⟨hle, hle', hlt⟩ := htime
    obtain ⟨v, hv, rfl⟩ := Option.map_eq_some_iff.mp hs'
    have hall : ∀ j, (s.vcache j).Holds (Current s.sys.kernel r.t₂) := fun j =>
      (h.caches j).mono fun e info hcur => hcur.later (hle.trans hle')
    obtain ⟨res, hres, hout⟩ := doValidateObj_outcome (fun _ _ => Current.obj_ne_none)
      (s.sys.kernel.withClists clist) apd (hall i) r.addr r.access r.now r.t₁ r.t₂
    rw [validateStep, hres] at hv
    obtain rfl := Option.some.inj hv
    refine ⟨h.table, fun j => ?_⟩
    dsimp only
    by_cases hj : j = i
    · subst hj
      rw [Function.update_self]
      cases hout with
      | hit w e info o holds => exact holds
      | unknown w holds verdict => exact holds
      | denied w cap holds verdict => exact holds
      | granted w g holds verdict =>
        have htable : (s.sys.kernel.withClists clist).TableOk := ⟨h.table.odd, h.table.shaped⟩
        have hcur := (grantSpec verdict).current htable r.t₂
        exact holds ⟨hcur.past, hcur.obj⟩
    · rw [Function.update_of_ne hj]
      exact hall j

end Runs

/-- The object of `sharedKernel`, and one APD that has not used it yet. -/
def sharedHost : Host ℕ Unit := ⟨⟨sharedKernel, []⟩, fun _ => vcacheNew, 0⟩

/-- A request of that APD. -/
def readAt (now : ℕ) : Request := ⟨0x2000, mRead, now, now, now⟩

/-- A validated access, and then another call. -/
def readThen (now : ℕ) (op : ObjOp ℕ) : List (HostOp ℕ Unit) :=
  [.validate () sharedApd sharedKernel.clist (readAt 5), .object now op]

end Mungi
