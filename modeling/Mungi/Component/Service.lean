import Mungi.Component.Calls

/-!
# The component for name trees

A program has records for instances of the component.  It makes an instance, makes another record
for the same one, deletes one, and calls its methods, with paths that it puts into memory.  The
component is for a table of finite maps on paths, one for each instance.  A capability for an
instance that was deleted is refused until its block is handed out again, and is one for the new
instance then.

## Main definitions

* `Args`, `intCall`, `clientStep` — a program.
* `Instances`, `instStep` — what the component is for.
* `Fits` — the condition on an action: the memory that is used for a call does not overlap, and the
  tree of the instance meets the condition on the call.

## Main results

* `intCall_eq` — a call comes down to the method on the instance.
* `method_step` — **a method does to its instance what it is to do**, and nothing to the others.
-/

namespace Mungi.Component

open Bytes Naming Runs

/-! ### Programs -/

/-- Where a program keeps what it gives to a call: an object, and where in it there is the path,
another path, and space for what is found. -/
structure Args where
  obj : CapT
  name : BitVec 64
  newname : BitVec 64
  ent : BitVec 32

/-- The address of the path. -/
def Args.nameAddr (g : Args) : ℕ := (g.obj.address + g.name).toNat

/-- The address of the other path. -/
def Args.newnameAddr (g : Args) : ℕ := (g.obj.address + g.newname).toNat

/-- The address of what is found. -/
def Args.entAddr (g : Args) : ℕ := (g.obj.address + g.ent.signExtend 64).toNat

/-- The path of a call. -/
def opPath : NsOp → NsPath
  | .add path _ _ | .del path | .lookup path | .modify path _ _ _ => path

/-- The new path of a call. -/
def opNewname : NsOp → Option NsPath
  | .modify _ _ _ newname => newname
  | _ => none

/-- What a program gets: the code, the exception, and the entry that was looked up. -/
structure Reply where
  code : BitVec 32
  env : Env
  ent : Option NsNode

/-- The paths of a call are put into memory. -/
def putPaths (g : Args) (op : NsOp) (m : ℕ → BitVec 8) : ℕ → BitVec 8 :=
  let m := strcpyPath m g.nameAddr (opPath op)
  match opNewname op with
  | none => m
  | some w => strcpyPath m g.newnameAddr w

/-- The proxy of a call. -/
def proxy (M : Machine) (a : HeapAnswer) (g : Args) (io : INameTree) (s : World) :
    NsOp → Option ((BitVec 32 × Env) × INameTree × World)
  | .add _ flags value => intCreate M a io g.obj g.name flags value s
  | .del _ => intDelete M a io g.obj g.name s
  | .lookup _ => intLookup M a io g.obj g.name 0 g.ent s
  | .modify _ flags value newname =>
    intModify M a io g.obj g.name (if newname.isSome then g.newname else -1) flags value s

/-- What a program reads after a call. -/
def found (o : ByteOrder) (g : Args) (m : ℕ → BitVec 8) (code : BitVec 32) (env : Env) :
    NsOp → Option NsNode
  | .lookup _ =>
    if env.major = 0 ∧ code = 0 then
      some ⟨(word o).get m g.entAddr, (word o).get m (g.entAddr + 8)⟩
    else none
  | _ => none

/-- A call. -/
def intCall (M : Machine) (a : HeapAnswer) (g : Args) (op : NsOp) (io : INameTree) (s : World) :
    Option (Reply × INameTree × World) :=
  (proxy M a g io { s with mem := putPaths g op s.mem } op).map fun r =>
    (⟨r.1.1, r.1.2, found M.order g r.2.2.mem r.1.1 r.1.2 op⟩, r.2)

/-- What a program does. -/
inductive Action where
  | make (k : ℕ) (pb : CapT)
  | share (k i : ℕ) (pb : CapT)
  | destroy (k : ℕ)
  | call (k : ℕ) (g : Args) (a : HeapAnswer) (op : NsOp)

/-- A program, with its records. -/
structure Client where
  world : World
  ios : ℕ → Option INameTree

/-- Nothing is asked of the heap. -/
def noHeap : HeapAnswer := ⟨none, ⟨0, 0⟩, ⟨fun _ => false, false, false, none, 0, none, false⟩⟩

/-- An action. -/
def clientStep (M : Machine) (s : Client) : Action → Option (Client × Reply)
  | .make k pb =>
    (intCreateConstructor M noHeap cidCnametree pb s.world).map fun r =>
      (⟨r.2, Function.update s.ios k r.1.1⟩, ⟨if r.1.1.isSome then 0 else 1, r.1.2, none⟩)
  | .share k i pb =>
    (s.ios i).bind fun io =>
      (intCicapConstructor M io.acicap pb).map fun io' =>
        ({ s with ios := Function.update s.ios k (some io') }, ⟨0, ⟨0, none⟩, none⟩)
  | .destroy k =>
    (s.ios k).bind fun io =>
      (intDestructor M noHeap io s.world).map fun r =>
        (⟨r.2, if r.1.1 then Function.update s.ios k none else s.ios⟩,
          ⟨if r.1.1 then 0 else 1, r.1.2, none⟩)
  | .call k g a op =>
    (s.ios k).bind fun io =>
      (intCall M a g op io s.world).map fun r =>
        (⟨r.2.2, Function.update s.ios k (some r.2.1)⟩, r.1)

/-! ### What it is for -/

/-- **Instances**: the blocks that are free, in their order, what instances there are, the maps of
those that have one, and what the records are for. -/
structure Instances where
  free : List ℕ
  data : ℕ → Option (Option Files)
  handles : ℕ → Option ℕ

/-- The reply to a call of a method. -/
def replyOf (op : NsOp) (r : NsReply) : Reply :=
  ⟨btc r.code, ⟨0, some 0⟩,
    match op with
    | .lookup _ => if r.code = .ok then some (r.data.getD ⟨0, 0⟩) else none
    | _ => none⟩

/-- The map that a method works on: it is made for the first entry. -/
def opened (a : HeapAnswer) (op : NsOp) : Option Files → Option Files
  | some fs => some fs
  | none =>
    match op, a.tree with
    | .add _ _ _, some _ => some fun _ => none
    | _, _ => none

/-- A method of an instance. -/
noncomputable def treeStep (L : FlagLayout) (a : HeapAnswer) (op : NsOp) (v : Option Files) :
    Option Files × Reply :=
  match opened a op v with
  | none => (none, ⟨1, ⟨0, some 0⟩, none⟩)
  | some fs => (some (filesStep L fs ⟨op, a.mem⟩).1, replyOf op (filesStep L fs ⟨op, a.mem⟩).2)

/-- **How actions are to be answered.** -/
noncomputable def instStep (L : FlagLayout) (s : Instances) : Action → Instances × Reply
  | .make k _ =>
    match s.free with
    | [] => ({ s with handles := Function.update s.handles k none }, ⟨1, ⟨2, some 205⟩, none⟩)
    | r :: free =>
      (⟨free, Function.update s.data r (some none), Function.update s.handles k (some r)⟩,
        ⟨0, ⟨0, none⟩, none⟩)
  | .share k i _ => ({ s with handles := Function.update s.handles k (s.handles i) },
      ⟨0, ⟨0, none⟩, none⟩)
  | .destroy k =>
    match s.handles k with
    | none => (s, ⟨1, ⟨2, some 201⟩, none⟩)
    | some r =>
      if s.data r = none then (s, ⟨1, ⟨2, some 201⟩, none⟩)
      else (⟨r :: s.free, Function.update s.data r none, Function.update s.handles k none⟩,
        ⟨0, ⟨0, none⟩, none⟩)
  | .call k _ a op =>
    match s.handles k with
    | none => (s, ⟨0, ⟨2, some 201⟩, none⟩)
    | some r =>
      match s.data r with
      | none => (s, ⟨0, ⟨2, some 201⟩, none⟩)
      | some v => ({ s with data := Function.update s.data r (some (treeStep L a op v).1) },
          (treeStep L a op v).2)

/-! ### Conditions -/

/-- A string that is not too long, apart from other memory. -/
structure PathFits (M : Machine) (io : INameTree) (p : ℕ) (w : NsPath) : Prop where
  short : w.chars.length < M.strlen
  object : Apart p (w.chars.length + 1) M.page.toNat pagesize
  buffer : Apart p (w.chars.length + 1) io.pb.address.toNat bufferSize

/-- The tree of the instance meets the condition on the call. -/
def TreeFits (M : Machine) (a : HeapAnswer) (op : NsOp) (c : Cnt) (s : World) : Prop :=
  if c.btree = 0 then
    ∀ b, a.tree = some b → b ≠ 0 ∧ s.trees b.toNat = none ∧
      NsClean M.layout (nsCreate b.toNat) ⟨op, a.mem⟩
  else ∀ t, s.trees c.btree.toNat = some t → NsClean M.layout t ⟨op, a.mem⟩

/-- **The condition on a call.** -/
structure CallFits (M : Machine) (a : HeapAnswer) (g : Args) (op : NsOp) (io : INameTree)
    (s : World) : Prop where
  obj : g.obj.address ≠ 0
  name : PathFits M io g.nameAddr (opPath op)
  newname : ∀ w, opNewname op = some w → g.newname ≠ -1 ∧ PathFits M io g.newnameAddr w ∧
    Apart g.newnameAddr (w.chars.length + 1) g.nameAddr ((opPath op).chars.length + 1)
  ent : Apart g.entAddr 16 M.page.toNat pagesize
  tree : isNotValid M.order s.mem io.ecicap.ref = false →
    TreeFits M a op ((cntFormat M.order).get s.mem (io.ecicap.ref.toNat + cihdrSize)) s

/-- **The condition on an action.** -/
def Fits (M : Machine) (s : Client) : Action → Prop
  | .make _ pb => Apart pb.address.toNat bufferSize M.page.toNat pagesize
  | .share _ i pb => s.ios i ≠ none ∧ Apart pb.address.toNat bufferSize M.page.toNat pagesize
  | .destroy k => s.ios k ≠ none
  | .call k g a op => ∃ io, s.ios k = some io ∧ CallFits M a g op io s.world

/-! ### Paths in memory -/

variable {M : Machine} {a : HeapAnswer} {g : Args} {op : NsOp} {io : INameTree} {s : World}

/-- A string that is in memory is read. -/
theorem pathAt_eq {m : ℕ → BitVec 8} : ∀ {l : List (BitVec 8)} (hl : 0#8 ∉ l) {n p : ℕ},
    l.length < n → (∀ i ≤ l.length, m (p + i) = l.getD i 0) → pathAt m n p = some ⟨l, hl⟩ := by
  intro l
  induction l with
  | nil =>
    intro hl n p hn hm
    obtain ⟨n, rfl⟩ := Nat.exists_eq_succ_of_ne_zero (Nat.ne_of_gt hn)
    exact dif_pos (hm 0 le_rfl)
  | cons c l ih =>
    intro hl n p hn hm
    obtain ⟨n, rfl⟩ := Nat.exists_eq_succ_of_ne_zero (Nat.ne_of_gt (Nat.zero_lt_of_lt hn))
    have hc : m p = c := hm 0 (Nat.zero_le _)
    have hne : ¬ m p = 0 := by
      rw [hc]
      exact fun h => hl (h ▸ List.mem_cons_self)
    have hrest : pathAt m n (p + 1) = some ⟨l, fun h => hl (List.mem_cons_of_mem c h)⟩ := by
      refine ih _ (Nat.lt_of_succ_lt_succ hn) fun i hi => ?_
      have h := hm (i + 1) (Nat.succ_le_succ hi)
      rw [List.getD_cons_succ] at h
      rw [← h]
      congr 1
      omega
    rw [pathAt, dif_neg hne, hrest, Option.map_some]
    simp only [hc]

/-- A path that was put into memory is read there, whatever else is written. -/
theorem pathAt_strcpyPath {m m' : ℕ → BitVec 8} {p n : ℕ} {w : NsPath} (hn : w.chars.length < n)
    (hsame : ∀ q, p ≤ q → q < p + (w.chars.length + 1) → m' q = strcpyPath m p w q) :
    pathAt m' n p = some w := by
  refine pathAt_eq w.noNul hn fun i hi => ?_
  rw [hsame (p + i) (Nat.le_add_right p i) (by omega)]
  exact copy_inside (Nat.lt_succ_of_le hi)

/-- The paths of a call are read. -/
structure Reads (M : Machine) (g : Args) (op : NsOp) (m : ℕ → BitVec 8) : Prop where
  name : pathAt m M.strlen g.nameAddr = some (opPath op)
  newname : ∀ w, opNewname op = some w →
    g.newname ≠ -1 ∧ pathAt m M.strlen g.newnameAddr = some w

/-- Nothing in the object is written to. -/
theorem CallFits.putPaths_object (h : CallFits M a g op io s) {q : ℕ}
    (hq : InObject M.page.toNat q) : putPaths g op s.mem q = s.mem q := by
  have hname := h.name.object.outside hq
  unfold putPaths
  cases hop : opNewname op with
  | none => exact copy_outside hname
  | some w =>
    dsimp only
    rw [strcpyPath, copy_outside ((h.newname w hop).2.1.object.outside hq)]
    exact copy_outside hname

/-- The paths are still there when the buffer is written. -/
theorem CallFits.reads (h : CallFits M a g op io s) {m : ℕ → BitVec 8}
    (hm : ∀ q, q < io.pb.address.toNat ∨ io.pb.address.toNat + bufferSize ≤ q →
      m q = putPaths g op s.mem q) : Reads M g op m := by
  have hname := h.name.buffer
  unfold Apart at hname
  cases hop : opNewname op with
  | none =>
    refine ⟨pathAt_strcpyPath (m := s.mem) h.name.short fun q h₁ h₂ => ?_, fun w hw => ?_⟩
    · rw [hm q (by omega), putPaths, hop]
    · rw [hop] at hw
      cases hw
  | some w =>
    obtain ⟨hne, hnew, hapart⟩ := h.newname w hop
    have hbuffer := hnew.buffer
    unfold Apart at hapart hbuffer
    refine ⟨pathAt_strcpyPath (m := s.mem) h.name.short fun q h₁ h₂ => ?_, fun w' hw => ?_⟩
    · rw [hm q (by omega), putPaths, hop]
      exact copy_outside (by omega)
    · obtain rfl := Option.some.inj (hop.symm.trans hw)
      refine ⟨hne, pathAt_strcpyPath (m := strcpyPath s.mem g.nameAddr (opPath op)) hnew.short
        fun q h₁ h₂ => ?_⟩
      rw [hm q (by omega), putPaths, hop]

/-! ### Methods -/

/-- The method of a call. -/
def method (M : Machine) (a : HeapAnswer) (g : Args) (c : Cnt) (s : World) :
    NsOp → Option (BitVec 32 × Cnt × World)
  | .add _ flags value => cntIntCreate M a g.obj g.name flags value c s
  | .del _ => cntIntDelete M a g.obj g.name c s
  | .lookup _ => cntIntLookup M a g.obj g.name 0 g.ent c s
  | .modify _ flags value newname =>
    cntIntModify M a g.obj g.name (if newname.isSome then g.newname else -1) flags value c s

/-- A call of the name tree. -/
theorem onTree_eq {c : Cnt} {t t' : NsSpace} {path : NsPath} {code : NsCode} {obj : CapT}
    {off : BitVec 64} {f : NsSpace → NsPath → Option (NsCode × NsSpace)}
    (hpath : pathAt s.mem M.strlen (obj.address + off).toNat = some path)
    (ht : s.trees c.btree.toNat = some t) (hf : f t path = some (code, t')) :
    onTree M obj off c s f = some (btc code, c,
      { s with trees := Function.update s.trees c.btree.toNat (some t') }) := by
  unfold onTree
  rw [hpath, Option.bind_some, ht, Option.bind_some, hf]
  rfl

/-- Nothing but the space for an entry is written to. -/
def OnlyEnt (g : Args) (m m' : ℕ → BitVec 8) : Prop :=
  ∀ q, q < g.entAddr ∨ g.entAddr + 16 ≤ q → m' q = m q

/-- **A method is a call of the tree of the instance.** -/
theorem method_tree {c : Cnt} {t t' : NsSpace} {r : NsReply} (hreads : Reads M g op s.mem)
    (hobj : g.obj.address ≠ 0) (hc : c.btree ≠ 0) (ht : s.trees c.btree.toNat = some t)
    (hstep : nsStep M.layout t ⟨op, a.mem⟩ = some (t', r)) :
    ∃ m', method M a g c s op = some (btc r.code, c,
        { s with mem := m', trees := Function.update s.trees c.btree.toNat (some t') }) ∧
      OnlyEnt g s.mem m' ∧ found M.order g m' (btc r.code) ⟨0, some 0⟩ op = (replyOf op r).ent := by
  have hname := hreads.name
  cases op with
  | add path flags value =>
    obtain ⟨⟨code, t₁⟩, hadd, heq⟩ := Option.map_eq_some_iff.mp hstep
    obtain ⟨rfl, rfl⟩ := Prod.mk.inj heq
    refine ⟨s.mem, ?_, fun _ _ => rfl, rfl⟩
    unfold method cntIntCreate
    dsimp only
    rw [if_neg hc]
    exact onTree_eq hname ht hadd
  | del path =>
    obtain ⟨⟨code, t₁⟩, hdel, heq⟩ := Option.map_eq_some_iff.mp hstep
    obtain ⟨rfl, rfl⟩ := Prod.mk.inj heq
    refine ⟨s.mem, ?_, fun _ _ => rfl, rfl⟩
    unfold method cntIntDelete
    dsimp only
    rw [if_neg hc]
    exact onTree_eq hname ht hdel
  | lookup path =>
    obtain ⟨⟨code, item⟩, hlookup, heq⟩ := Option.map_eq_some_iff.mp hstep
    obtain ⟨rfl, rfl⟩ := Prod.mk.inj heq
    have hname : pathAt s.mem M.strlen (g.obj.address + g.name).toNat = some path := hname
    have hsame : Function.update s.trees c.btree.toNat (some t) = s.trees := by
      rw [← ht, Function.update_eq_self]
    unfold method cntIntLookup
    dsimp only
    rw [if_neg hc, hname, Option.bind_some, ht, Option.bind_some, hlookup, Option.map_some, hsame]
    dsimp only
    by_cases hcode : code = .ok
    · subst hcode
      rw [if_neg (not_not.mpr rfl)]
      refine ⟨_, rfl, fun q hq => ?_, ?_⟩
      · unfold Args.entAddr at hq
        rw [(word M.order).put_outside _ _ _ q (by rw [word_size]; omega)]
        exact (word M.order).put_outside _ _ _ q (by rw [word_size]; omega)
      · unfold found
        rw [if_pos ⟨rfl, rfl⟩]
        unfold Args.entAddr
        rw [(word M.order).get_put, Format.get_put_apart (by rw [word_size]; omega),
          (word M.order).get_put]
        rfl
    · rw [if_pos hcode]
      have hbtc : btc code = 1 := if_neg hcode
      refine ⟨s.mem, by rw [hbtc], fun _ _ => rfl, ?_⟩
      unfold found replyOf
      dsimp only
      rw [hbtc, if_neg (fun h => absurd h.2 (by decide)), if_neg hcode]
  | modify path flags value newname =>
    obtain ⟨⟨code, t₁⟩, hmodify, heq⟩ := Option.map_eq_some_iff.mp hstep
    obtain ⟨rfl, rfl⟩ := Prod.mk.inj heq
    refine ⟨s.mem, ?_, fun _ _ => rfl, rfl⟩
    unfold method cntIntModify
    dsimp only
    rw [if_neg hobj, if_neg hc]
    cases newname with
    | none => exact onTree_eq hname ht hmodify
    | some w =>
      obtain ⟨hne, hnew⟩ := hreads.newname w rfl
      have hnew : pathAt s.mem M.strlen (g.obj.address + g.newname).toNat = some w := hnew
      rw [Option.isSome_some, if_pos rfl, if_pos hne, hnew, Option.map_some, Option.bind_some]
      exact onTree_eq hname ht hmodify

/-- An instance without a tree gets one for its first entry, where there is memory; all else
fails. -/
theorem method_empty (op : NsOp) {c : Cnt} (hobj : g.obj.address ≠ 0) (hc : c.btree = 0) :
    (opened a op none = none ∧ ∃ c', method M a g c s op = some (1, c', s) ∧ c'.btree = 0) ∨
      ∃ b, a.tree = some b ∧ opened a op none = some (fun _ => none) ∧ (b ≠ 0 →
        method M a g c s op = method M a g ⟨b, a.cap⟩
          { s with trees := Function.update s.trees b.toNat (some (nsCreate b.toNat)) } op) := by
  cases op with
  | add path flags value =>
    unfold method cntIntCreate opened
    dsimp only
    rw [if_pos hc]
    cases htree : a.tree with
    | none => exact Or.inl ⟨rfl, ⟨0, a.cap⟩, rfl, rfl⟩
    | some b =>
      refine Or.inr ⟨b, rfl, rfl, fun hb => ?_⟩
      rw [if_neg hb]
  | del path => exact Or.inl ⟨rfl, c, if_pos hc, hc⟩
  | lookup path => exact Or.inl ⟨rfl, c, if_pos hc, hc⟩
  | modify path flags value newname =>
    refine Or.inl ⟨rfl, c, ?_, hc⟩
    unfold method cntIntModify
    dsimp only
    rw [if_neg hobj, if_pos hc]

variable {made : ℕ → Prop} {free : List ℕ} {cnts : ℕ → Option Cnt}

/-! ### Calls -/

/-- A call comes down to the method on the instance, with the paths in memory. -/
def CallsMethod (M : Machine) (a : HeapAnswer) (g : Args) (op : NsOp) (io : INameTree) (s : World)
    (made : ℕ → Prop) (cnts : ℕ → Option Cnt) : Prop :=
  ∃ io' m, io'.Right M made ∧ io'.ecicap = io.ecicap ∧ Reads M g op m ∧
    (∀ q, InObject M.page.toNat q → m q = s.mem q) ∧ intCall M a g op io s =
      match cnts io.ecicap.ref.toNat with
      | none => some (⟨0, ⟨2, some 201⟩, none⟩, io', { s with mem := m })
      | some c =>
        (method M a g c { s with mem := m } op).map fun r =>
          let s' := r.2.2.storeCnt M.order io.ecicap.ref.toNat r.2.1
          (⟨r.1, ⟨0, some 0⟩, found M.order g s'.mem r.1 ⟨0, some 0⟩ op⟩, io', s')

/-- One of the proxies. -/
theorem callsMethod_of_proxy (h : s.Ready M.order M.page free cnts made) (hM : Linked M.addr)
    (hslots : Registered M.addr s.slots) (hio : io.Right M made) (hfits : CallFits M a g op io s)
    {p : Proc} (hp : p ∈ methods) {α : Type} (params : Format α)
    (body : α → Cnt → World → Option (BitVec 32 × Cnt × World))
    (hproc : ∀ param s, runProc M a param s p = stub M params body param s) (x : α)
    (hsize : 16 + params.size ≤ bufferSize)
    (hproxy : ∀ s, proxy M a g io s op = request M a params p.mid x io s)
    (hbody : ∀ c s, method M a g c s op = body x c s) : CallsMethod M a g op io s made cnts := by
  have hready : Pool.Ready M.order M.page { s.toPool with mem := putPaths g op s.mem } free cnts
      made := h.congr fun q hq => hfits.putPaths_object hq
  obtain ⟨io', hio', hcicap, hrequest⟩ := request_eq (s := { s with mem := putPaths g op s.mem })
    hready hM hslots hio hp hproc x hsize
  refine ⟨io', packed M params x io (putPaths g op s.mem), hio', hcicap,
    hfits.reads fun q hq => packed_outside x _ hsize hq, fun q hq => ?_, ?_⟩
  · rw [packed_outside x _ hsize (hio.buffer.outside hq)]
    exact hfits.putPaths_object hq
  · unfold intCall
    rw [hproxy, hrequest]
    cases cnts io.ecicap.ref.toNat with
    | none =>
      dsimp only [Option.map_some]
      cases op <;> rfl
    | some c =>
      dsimp only
      rw [hbody, Option.map_map]
      rfl

/-- **All calls come down to their methods.** -/
theorem intCall_eq (h : s.Ready M.order M.page free cnts made) (hM : Linked M.addr)
    (hslots : Registered M.addr s.slots) (hio : io.Right M made) (hfits : CallFits M a g op io s) :
    CallsMethod M a g op io s made cnts := by
  have hproxy {p : Proc} (hp : p ∈ methods) {α : Type} (params : Format α) :=
    callsMethod_of_proxy h hM hslots hio hfits hp params
  cases op with
  | add path flags value =>
    exact hproxy (p := .create) (by decide) (createParams M.order)
      (fun x => cntIntCreate M a x.1 x.2.1 x.2.2.1 x.2.2.2) (fun _ _ => rfl)
      (g.obj, g.name, flags, value) (Nat.le_of_ble_eq_true rfl) (fun _ => rfl)
      fun _ _ => rfl
  | del path =>
    exact hproxy (p := .delete) (by decide) (deleteParams M.order)
      (fun x => cntIntDelete M a x.1 x.2) (fun _ _ => rfl)
      (g.obj, g.name) (Nat.le_of_ble_eq_true rfl) (fun _ => rfl) fun _ _ => rfl
  | lookup path =>
    exact hproxy (p := .lookup) (by decide) (lookupParams M.order)
      (fun x => cntIntLookup M a x.1 x.2.1 x.2.2.1 x.2.2.2) (fun _ _ => rfl)
      (g.obj, g.name, 0, g.ent) (Nat.le_of_ble_eq_true rfl) (fun _ => rfl) fun _ _ => rfl
  | modify path flags value newname =>
    exact hproxy (p := .modify) (by decide) (modifyParams M.order)
      (fun x => cntIntModify M a x.1 x.2.1 x.2.2.1 x.2.2.2.1 x.2.2.2.2) (fun _ _ => rfl)
      (g.obj, g.name, if newname.isSome then g.newname else -1, flags, value)
      (Nat.le_of_ble_eq_true rfl) (fun _ => rfl) fun _ _ => rfl

/-! ### What the instances hold -/

/-- What is known of an instance with the data `c`. -/
def Tells (L : FlagLayout) (trees : ℕ → Option NsSpace) (c : Cnt) (v : Option Files) : Prop :=
  c.btree = 0 ∧ v = none ∨
    c.btree ≠ 0 ∧ ∃ t, trees c.btree.toNat = some t ∧ NsOk L t ∧ v = some t.files

/-- **Each instance has a tree of its own**, which holds its map. -/
structure Kept (L : FlagLayout) (trees : ℕ → Option NsSpace) (cnts : ℕ → Option Cnt)
    (data : ℕ → Option (Option Files)) : Prop where
  tells : ∀ r, cnts r = none ∧ data r = none ∨
    ∃ c v, cnts r = some c ∧ data r = some v ∧ Tells L trees c v
  own : ∀ r r' c c', cnts r = some c → cnts r' = some c' → c.btree ≠ 0 → c.btree = c'.btree →
    r = r'

variable {L : FlagLayout} {trees : ℕ → Option NsSpace} {data : ℕ → Option (Option Files)}

/-- An instance without a tree, or none. -/
theorem Kept.empty (h : Kept L trees cnts data) (r : ℕ) {c : Option Cnt}
    (hc : ∀ c', c = some c' → c'.btree = 0) : Kept L trees (Function.update cnts r c)
      (Function.update data r (c.map fun _ => none)) := by
  refine ⟨fun x => ?_, fun x x' d d' hd hd' hne heq => ?_⟩
  · by_cases hx : x = r
    · rw [hx, Function.update_self, Function.update_self]
      cases c with
      | none => exact Or.inl ⟨rfl, rfl⟩
      | some c => exact Or.inr ⟨c, none, rfl, rfl, Or.inl ⟨hc c rfl, rfl⟩⟩
    · rw [Function.update_of_ne hx, Function.update_of_ne hx]
      exact h.tells x
  · have hother : ∀ y e, Function.update cnts r c y = some e → e.btree ≠ 0 → cnts y = some e := by
      intro y e he hbtree
      by_cases hy : y = r
      · rw [hy, Function.update_self] at he
        exact absurd (hc e he) hbtree
      · rwa [Function.update_of_ne hy] at he
    exact h.own x x' d d' (hother x d hd hne) (hother x' d' hd' (heq ▸ hne)) hne heq

/-- The tree of an instance is another one. -/
theorem Kept.store (h : Kept L trees cnts data) {r : ℕ} {c : Cnt} {t : NsSpace} (hc : c.btree ≠ 0)
    (ht : NsOk L t) (hown : ∀ x d, x ≠ r → cnts x = some d → d.btree ≠ c.btree) :
    Kept L (Function.update trees c.btree.toNat (some t)) (Function.update cnts r (some c))
      (Function.update data r (some (some t.files))) := by
  refine ⟨fun x => ?_, fun x x' d d' hd hd' hne heq => ?_⟩
  · by_cases hx : x = r
    · rw [hx, Function.update_self, Function.update_self]
      exact Or.inr ⟨c, _, rfl, rfl, Or.inr ⟨hc, t, Function.update_self .., ht, rfl⟩⟩
    · rw [Function.update_of_ne hx, Function.update_of_ne hx]
      rcases h.tells x with hnone | ⟨d, v, hd, hv, hempty | ⟨hbtree, t', ht', hok, hfiles⟩⟩
      · exact Or.inl hnone
      · exact Or.inr ⟨d, v, hd, hv, Or.inl hempty⟩
      · refine Or.inr ⟨d, v, hd, hv, Or.inr ⟨hbtree, t', ?_, hok, hfiles⟩⟩
        rw [Function.update_of_ne fun heq => hown x d hx hd (BitVec.eq_of_toNat_eq heq)]
        exact ht'
  · by_cases hx : x = r
    · by_cases hx' : x' = r
      · rw [hx, hx']
      · rw [hx, Function.update_self] at hd
        obtain rfl := Option.some.inj hd
        rw [Function.update_of_ne hx'] at hd'
        exact absurd heq.symm (hown x' d' hx' hd')
    · rw [Function.update_of_ne hx] at hd
      by_cases hx' : x' = r
      · rw [hx', Function.update_self] at hd'
        obtain rfl := Option.some.inj hd'
        exact absurd heq (hown x d hx hd)
      · rw [Function.update_of_ne hx'] at hd'
        exact h.own x x' d d' hd hd' hne heq

/-- **A method does what it is to do.** -/
theorem method_step (hkept : Kept M.layout s.trees cnts data) {r : ℕ} {c : Cnt} {v : Option Files}
    (hc : cnts r = some c) (hv : data r = some v) (hreads : Reads M g op s.mem)
    (hobj : g.obj.address ≠ 0) (hfits : TreeFits M a op c s) :
    ∃ c' m' trees', method M a g c s op = some ((treeStep M.layout a op v).2.code, c',
        { s with mem := m', trees := trees' }) ∧ OnlyEnt g s.mem m' ∧
      (treeStep M.layout a op v).2.env = ⟨0, some 0⟩ ∧
      found M.order g m' (treeStep M.layout a op v).2.code ⟨0, some 0⟩ op =
        (treeStep M.layout a op v).2.ent ∧
      Kept M.layout trees' (Function.update cnts r (some c'))
        (Function.update data r (some (treeStep M.layout a op v).1)) := by
  -- a call of a tree that the instance has
  have htree : ∀ {s : World} {d : Cnt} {t : NsSpace}, Reads M g op s.mem → d.btree ≠ 0 →
      s.trees d.btree.toNat = some t → NsOk M.layout t → NsClean M.layout t ⟨op, a.mem⟩ →
      ∃ m' t', method M a g d s op = some (btc (filesStep M.layout t.files ⟨op, a.mem⟩).2.code, d,
          { s with mem := m', trees := Function.update s.trees d.btree.toNat (some t') }) ∧
        OnlyEnt g s.mem m' ∧ NsOk M.layout t' ∧
        t'.files = (filesStep M.layout t.files ⟨op, a.mem⟩).1 ∧
        found M.order g m' (btc (filesStep M.layout t.files ⟨op, a.mem⟩).2.code) ⟨0, some 0⟩ op =
          (replyOf op (filesStep M.layout t.files ⟨op, a.mem⟩).2).ent := by
    intro s d t hreads hd ht hok hclean
    obtain ⟨t', hstep, hok', hfiles⟩ :=
      nsStep_refines M.layout t t.files ⟨op, a.mem⟩ ⟨hok, rfl⟩ hclean
    obtain ⟨m', hmethod, hent, hfound⟩ := method_tree hreads hobj hd ht hstep
    exact ⟨m', t', hmethod, hent, hok', hfiles, hfound⟩
  rcases hkept.tells r with ⟨hnone, -⟩ | ⟨d, v', hd, hv', htells⟩
  · rw [hc] at hnone
    cases hnone
  obtain rfl := Option.some.inj (hc.symm.trans hd)
  obtain rfl := Option.some.inj (hv.symm.trans hv')
  rcases htells with ⟨hzero, rfl⟩ | ⟨hne, t, ht, hok, rfl⟩
  · rw [TreeFits, if_pos hzero] at hfits
    rcases method_empty (M := M) (s := s) (a := a) op hobj hzero with
      ⟨hopened, c', hmethod, hc'⟩ | ⟨b, hb, hopened, hmethod⟩
    · -- there is no tree
      have hstep : treeStep M.layout a op none = (none, ⟨1, ⟨0, some 0⟩, none⟩) := by
        rw [treeStep, hopened]
      rw [hstep]
      refine ⟨c', s.mem, s.trees, hmethod, fun _ _ => rfl, rfl, ?_, ?_⟩
      · cases op with
        | lookup path =>
          unfold found
          dsimp only
          rw [if_neg (by decide)]
        | _ => rfl
      · refine hkept.empty r (c := some c') fun c'' h => ?_
        obtain rfl := Option.some.inj h
        exact hc'
    · -- a tree is made
      obtain ⟨hbne, hfree, hclean⟩ := hfits b hb
      obtain ⟨hok, hfiles⟩ := nsCreate_ok M.layout b.toNat
      obtain ⟨m', t', hcall, hent, hok', hfiles', hfound⟩ := htree (d := ⟨b, a.cap⟩)
        (s := { s with trees := Function.update s.trees b.toNat (some (nsCreate b.toNat)) })
        hreads hbne (Function.update_self ..) hok hclean
      have hstep : treeStep M.layout a op none =
          (some (filesStep M.layout (nsCreate b.toNat).files ⟨op, a.mem⟩).1,
            replyOf op (filesStep M.layout (nsCreate b.toNat).files ⟨op, a.mem⟩).2) := by
        rw [treeStep, hopened, hfiles]
      rw [hstep, ← hfiles']
      refine ⟨⟨b, a.cap⟩, m', _, (hmethod hbne).trans hcall, hent, rfl, hfound, ?_⟩
      dsimp only
      rw [Function.update_idem]
      refine hkept.store (c := ⟨b, a.cap⟩) hbne hok' fun x d _ hd heq => ?_
      -- no other instance has a tree there
      rcases hkept.tells x with ⟨hnone, -⟩ | ⟨e, w, he, -, ⟨hzero', -⟩ | ⟨-, t₁, ht₁, -⟩⟩
      · rw [hd] at hnone
        cases hnone
      · obtain rfl := Option.some.inj (hd.symm.trans he)
        exact hbne (heq.symm.trans hzero')
      · obtain rfl := Option.some.inj (hd.symm.trans he)
        rw [heq, hfree] at ht₁
        cases ht₁
  · rw [TreeFits, if_neg hne] at hfits
    obtain ⟨m', t', hcall, hent, hok', hfiles', hfound⟩ := htree hreads hne ht hok (hfits t ht)
    have hstep : treeStep M.layout a op (some t.files) =
        (some (filesStep M.layout t.files ⟨op, a.mem⟩).1,
          replyOf op (filesStep M.layout t.files ⟨op, a.mem⟩).2) := rfl
    rw [hstep, ← hfiles']
    refine ⟨c, m', _, hcall, hent, rfl, hfound, hkept.store hne hok' fun x d hx hd heq => ?_⟩
    exact hx (hkept.own x r d c hd hc (heq ▸ hne) heq)

end Mungi.Component
