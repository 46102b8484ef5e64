import Mungi.CachedObjects
import Mungi.Lib.Owners
import Mungi.Lib.Simulation

/-!
# The map of the address space

The object table says of every address which object it is in.  Seen through `object_find` it is a
map from addresses to objects, and a call of `objects.c` changes the map as one would expect: a new
object gets addresses that nobody had, a deleted one loses all of its own, a resized one has just
the addresses from its base up to its new end.

Two calls go wrong otherwise.  An insertion that splits a page of the table at the median leaves a
key that is not the least base behind it, and an object of size zero gives its pages away and keeps
its base, so that others may be put around it.

## Main definitions

* `objReply` — a call and what it hands back.
* `AddressStep` — what a call may do to the map.
* `Separate`, `MapInv` — the objects are disjoint, and the table is in order.
* `Steady` — the calls that keep the table in order.

## Main results

* `objReply_mapped` — one call.
* `objectFind_run` — **the object table is a map of the address space** in all runs of such calls.
-/

namespace Mungi

open Runs Spans Owners

variable {O : Type}

/-! ### What the calls hand back -/

/-- What a call hands back. -/
inductive ObjReply (O : Type) where
  | made (o : Option O)
  | done (success : Bool)
  deriving DecidableEq

section Code
variable [DecidableEq O]

/-- One call, and what it hands back. -/
def objReply (pageSize : ℕ) (s : System O) : ObjOp O → Option (System O × ObjReply O)
  | .create length passwd mem =>
    let r := objectCreate pageSize s length passwd mem
    some (r.1, .made r.2)
  | .delete addr => (objectDelete pageSize s addr).map fun r => (r.1, .done r.2)
  | .resize o newSize => (objectResize pageSize s o newSize).map fun r => (r.1, .done r.2)

theorem objReply_fst (pageSize : ℕ) (s : System O) (op : ObjOp O) :
    (objReply pageSize s op).map Prod.fst = objStep pageSize s op := by
  cases op with
  | create length passwd mem => rfl
  | delete addr => simp [objReply, objStep, Function.comp_def]
  | resize o newSize => simp [objReply, objStep, Function.comp_def]

/-- **What a call may do to the map of the address space**, whose pages between `lo` and `hi` are
there for new objects. -/
inductive AddressStep (pageSize lo hi : ℕ) (m : ℕ → Option O) :
    ObjOp O → ObjReply O → (ℕ → Option O) → Prop
  | created {length passwd base : ℕ} {o : O} {junk : ObjInfo} (pos : 0 < length)
      (aligned : pageSize ∣ base) (lo_le : lo ≤ base)
      (le_hi : base + pageRoundUp pageSize length ≤ hi) (fresh : ∀ x, m x ≠ some o)
      (free : ∀ x, base ≤ x → x < base + pageRoundUp pageSize length → m x = none) :
      AddressStep pageSize lo hi m (.create length passwd (some (o, junk))) (.made (some o))
        (place m o ⟨base, base + length⟩)
  | noRoom {length passwd : ℕ} {mem : Option (O × ObjInfo)} :
      AddressStep pageSize lo hi m (.create length passwd mem) (.made none) m
  | deleted {addr : ℕ} {o : O} (first : First m o addr) :
      AddressStep pageSize lo hi m (.delete addr) (.done true) (clear m o)
  | notFound {addr : ℕ} (none_first : ∀ o, ¬ First m o addr) :
      AddressStep pageSize lo hi m (.delete addr) (.done false) m
  | resized {o : O} {newSize base : ℕ} (first : First m o base)
      (le_hi : base + pageRoundUp pageSize newSize ≤ hi)
      (free : ∀ x, base ≤ x → x < base + pageRoundUp pageSize newSize →
        m x = none ∨ m x = some o) :
      AddressStep pageSize lo hi m (.resize o newSize) (.done true)
        (place m o ⟨base, base + pageRoundUp pageSize newSize⟩)
  | cannotGrow {o : O} {newSize base : ℕ} (first : First m o base)
      (larger : m (base + pageRoundUp pageSize newSize - 1) ≠ some o) :
      AddressStep pageSize lo hi m (.resize o newSize) (.done false) m

end Code

/-! ### Tables in order -/

section Table
variable {k : Kernel O} {o : O} {x : ℕ}

/-- The addresses of an object begin at its base. -/
theorem Kernel.Ordered.first_iff (hk : k.Ordered) (hp : ∀ o ∈ k.objtable.toList, k.conf.Proper o) :
    First (objectFind k) o x ↔ o ∈ k.objtable.toList ∧ (k.obj o).base = x := by
  constructor
  · intro h
    obtain ⟨hmem, hin⟩ := hk.objectFind_iff.mp h.1
    have hbase := h.2 (k.obj o).base (hk.objectFind_iff.mpr ⟨hmem, le_rfl, hp o hmem⟩)
    exact ⟨hmem, Nat.le_antisymm hin.1 hbase⟩
  · rintro ⟨hmem, rfl⟩
    refine ⟨hk.objectFind_iff.mpr ⟨hmem, le_rfl, hp o hmem⟩, fun y hy => ?_⟩
    exact (hk.objectFind_iff.mp hy).2.1

variable [DecidableEq O]

/-- The table does not read the memory of an object that is not in it. -/
theorem Kernel.Ordered.setObj (hk : k.Ordered) (ho : o ∉ k.objtable.toList) (obj : Obj) :
    (k.setObj o obj).Ordered := by
  have hkeep : ∀ a ∈ k.objtable.toList, (k.setObj o obj).obj a = k.obj a := by
    intro a ha
    exact k.setObj_of_ne (ne_of_mem_of_not_mem ha ho) obj
  have horder : (k.setObj o obj).conf.btOrder = k.conf.btOrder := rfl
  have hkey : ∀ a ∈ k.objtable.toList,
      (k.setObj o obj).conf.btGetObjKey a = k.conf.btGetObjKey a :=
    fun a ha => congrArg Obj.base (hkeep a ha)
  have hbefore : k.objtable.toList.Pairwise (k.setObj o obj).conf.Before := by
    refine hk.before.imp_of_mem fun {a b} ha hb hab => ?_
    change ((k.setObj o obj).obj a).base < ((k.setObj o obj).obj b).base ∧
      ((k.setObj o obj).obj a).limit ≤ ((k.setObj o obj).obj b).base
    rw [hkeep a ha, hkeep b hb]
    exact hab
  exact ⟨hk.odd, ⟨hk.wf.shaped.congr horder, hk.wf.exact.congr hkey,
    hbefore.imp fun h => h.lt⟩, hbefore⟩

theorem Kernel.Ordered.objectFind_setObj (hk : k.Ordered) (ho : o ∉ k.objtable.toList)
    (obj : Obj) : objectFind (k.setObj o obj) = objectFind k := by
  refine ext_owner fun x p => ?_
  rw [(hk.setObj ho obj).objectFind_iff, hk.objectFind_iff]
  refine and_congr_right fun hp => ?_
  rw [k.setObj_of_ne (ne_of_mem_of_not_mem hp ho) obj]

/-- A table in order stays so when an object gets another end, in front of the objects behind it. -/
theorem Kernel.Ordered.setSize (hk : k.Ordered) {limit length : ℕ}
    (hlimit : ∀ q ∈ k.objtable.toList, (k.obj o).base < (k.obj q).base →
      limit ≤ (k.obj q).base) : (setSize k o limit length).Ordered := by
  have horder : (Mungi.setSize k o limit length).conf.btOrder = k.conf.btOrder := rfl
  have hbase : ∀ p, ((Mungi.setSize k o limit length).obj p).base = (k.obj p).base := by
    intro p
    by_cases hp : p = o
    · rw [hp, show (Mungi.setSize k o limit length).obj o = _ from k.setObj_self o _]
    · exact congrArg Obj.base (k.setObj_of_ne hp _)
  have hkey : ∀ p ∈ k.objtable.toList,
      (Mungi.setSize k o limit length).conf.btGetObjKey p = k.conf.btGetObjKey p :=
    fun p _ => hbase p
  have hbefore : k.objtable.toList.Pairwise (Mungi.setSize k o limit length).conf.Before := by
    refine hk.before.imp_of_mem fun {p q} hp hq hpq => ?_
    change ((Mungi.setSize k o limit length).obj p).base
        < ((Mungi.setSize k o limit length).obj q).base ∧
      ((Mungi.setSize k o limit length).obj p).limit
        ≤ ((Mungi.setSize k o limit length).obj q).base
    rw [hbase p, hbase q]
    refine ⟨hpq.1, ?_⟩
    by_cases hpo : p = o
    · subst hpo
      rw [show (Mungi.setSize k p limit length).obj p = _ from k.setObj_self p _]
      exact hlimit q hq hpq.1
    · rw [show (Mungi.setSize k o limit length).obj p = _ from k.setObj_of_ne hpo _]
      exact hpq.2
  exact ⟨hk.odd, ⟨hk.wf.shaped.congr horder, hk.wf.exact.congr hkey,
    hbefore.imp fun h => h.lt⟩, hbefore⟩

/-- **`object_add` puts an object into a table in order**, if no page splits at the median, or
leaves the table as it is. -/
theorem objectAdd_ordered (hk : k.Ordered) (hp : ∀ o ∈ k.objtable.toList, k.conf.Proper o)
    (ho : o ∉ k.objtable.toList) {junk : ObjInfo} {addr length passwd : ℕ} {k' : Kernel O}
    (hk' : k' = k.setObj o (objectInit junk addr length passwd)) (hproper : k'.conf.Proper o)
    (hpool : (btIns k'.conf k'.objtable o).1 ≠ .allocFail)
    (hmedian : medianSplit k'.conf addr k'.objtable.root = false) :
    objectAdd k (some (o, junk)) addr length passwd = (k', none) ∨
      ∃ t, objectAdd k (some (o, junk)) addr length passwd
          = ({ k' with objtable := t }, some o) ∧
        ({ k' with objtable := t } : Kernel O).Ordered ∧
          ∀ p, p ∈ t.toList ↔ p = o ∨ p ∈ k.objtable.toList := by
  have hord : k'.Ordered := hk' ▸ hk.setObj ho _
  have hkey : k'.conf.btGetObjKey o = addr := by
    change (k'.obj o).base = addr
    rw [hk', Kernel.setObj_self]
    rfl
  have hready : Ready k'.conf o k'.objtable.root := by
    refine ⟨hord.wf.exact, hord.before, fun a ha => ?_, hproper⟩
    have ha' : a ∈ k.objtable.toList := by
      rw [hk'] at ha
      exact ha
    change (k'.obj a).base < (k'.obj a).limit
    rw [hk', k.setObj_of_ne (ne_of_mem_of_not_mem ha' ho)]
    exact hp a ha'
  have hout := btIns_outcome hord.odd hord.wf.shaped o
  have htable : k'.objtable = k.objtable := by rw [hk']; rfl
  unfold objectAdd
  dsimp only
  rw [← hk']
  rcases hres : btIns k'.conf k'.objtable o with ⟨ret, t, ngb⟩
  rw [hres] at hout hpool
  cases hout with
  | refused hret tree meet =>
    obtain rfl : t = k'.objtable := tree
    rcases hret with hret | hret
    · obtain rfl : ret = .duplicate := hret
      exact Or.inl rfl
    · obtain rfl : ret = .overlap := hret
      exact Or.inl rfl
  | failed hret => exact absurd hret hpool
  | inserted l₁ l₂ hret shaped old new ngb_ok ngb_none between exact_iff =>
    obtain rfl : ret = .ok := hret
    have hexact := (exact_iff hready).mpr (by rw [hkey]; exact hmedian)
    have hbefore : t.toList.Pairwise k'.conf.Before := by
      rw [new]
      exact (between hready).pairwise (old ▸ hord.before)
    refine Or.inr ⟨t, rfl, ⟨hord.odd, ⟨shaped, hexact, hbefore.imp fun h => h.lt⟩, hbefore⟩,
      fun p => ?_⟩
    rw [new, ← htable, old]
    simp only [List.mem_append, List.mem_cons]
    tauto

end Table

/-! ### The objects are disjoint -/

/-- The objects made at the start lie outside the region that new ones come from, and those made
later share it with the free chunks; none is empty. -/
structure Separate (pageSize lo hi : ℕ) (boot : List O) (s : System O) : Prop where
  space : ∃ live, SpaceInv pageSize lo hi boot s live
  proper : ∀ o ∈ s.kernel.objtable.toList, s.kernel.conf.Proper o
  outside : ∀ o ∈ boot, (s.kernel.obj o).limit ≤ lo ∨ hi ≤ (s.kernel.obj o).base

/-- The objects are disjoint and the table is in order. -/
structure MapInv (pageSize lo hi : ℕ) (boot : List O) (s : System O) : Prop
    extends Separate pageSize lo hi boot s where
  ordered : s.kernel.Ordered

section Separate
variable {pageSize lo hi : ℕ} {boot : List O} {s : System O} {a b : O}

theorem Separate.boot_mem (h : Separate pageSize lo hi boot s) (ha : a ∈ boot) :
    a ∈ s.kernel.objtable.toList := by
  obtain ⟨live, hspace⟩ := h.space
  exact hspace.perm.mem_iff.mpr (List.mem_append_left _ ha)

theorem Separate.live (h : Separate pageSize lo hi boot s) (ha : a ∈ s.kernel.objtable.toList)
    (hboot : a ∉ boot) : LiveObj pageSize lo hi (s.kernel.obj a) := by
  obtain ⟨live, hspace⟩ := h.space
  exact hspace.objs a ((List.mem_append.mp (hspace.perm.mem_iff.mp ha)).resolve_left hboot)

/-- The objects stay disjoint while the pages have one owner each, and one object made later is
new or changes. -/
theorem Separate.of_keep {s' : System O} {o : O} (h : Separate pageSize lo hi boot s)
    (hboot : o ∉ boot) (hspace : ∃ live, SpaceInv pageSize lo hi boot s' live)
    (hmem : ∀ p ∈ s'.kernel.objtable.toList, p = o ∨ p ∈ s.kernel.objtable.toList)
    (hkeep : ∀ p, p ≠ o → s'.kernel.obj p = s.kernel.obj p)
    (hproper : o ∈ s'.kernel.objtable.toList → s'.kernel.conf.Proper o) :
    Separate pageSize lo hi boot s' := by
  refine ⟨hspace, fun p hp => ?_, fun p hp => ?_⟩
  · by_cases heq : p = o
    · subst heq
      exact hproper hp
    · change (s'.kernel.obj p).base < (s'.kernel.obj p).limit
      rw [hkeep p heq]
      exact h.proper p ((hmem p hp).resolve_left heq)
  · rw [hkeep p (ne_of_mem_of_not_mem hp hboot)]
    exact h.outside p hp

variable (hr : PageRegion pageSize lo hi)
include hr

/-- An object lies within its pages. -/
theorem LiveObj.limit_le {obj : Obj} (h : LiveObj pageSize lo hi obj) :
    obj.limit ≤ (obj.pages pageSize).hi := by
  have hlen := h.length hr
  rw [Obj.pages_eq hr hlen, h.range]
  have hle := (pageRoundUp_spec hr.pos hlen).1
  dsimp only
  omega

/-- **The pages of an object made later have no other object in them.** -/
theorem Separate.apart (h : Separate pageSize lo hi boot s) (ha : a ∈ s.kernel.objtable.toList)
    (hboot : a ∉ boot) (hb : b ∈ s.kernel.objtable.toList) (hne : b ≠ a) {x : ℕ}
    (hx : ((s.kernel.obj a).pages pageSize).Has x) : ¬ (s.kernel.obj b).Contains x := by
  have hlive := h.live ha hboot
  have hlo : lo ≤ x := le_trans hlive.lo_le hx.1
  have hhi : x < hi := lt_of_lt_of_le hx.2 hlive.le_hi
  rintro ⟨hbase, hlimit⟩
  by_cases hb' : b ∈ boot
  · rcases h.outside b hb' with hout | hout
    · omega
    · omega
  · obtain ⟨live, hspace⟩ := h.space
    have hmem : ∀ o ∈ s.kernel.objtable.toList, o ∉ boot → o ∈ live := fun o ho hno =>
      (List.mem_append.mp (hspace.perm.mem_iff.mp ho)).resolve_left hno
    have hnodup : live.Nodup := (List.nodup_append.mp (hspace.perm.nodup_iff.mp hspace.nodup)).2.1
    have htiles := hspace.same.tiles.1
    unfold owned at htiles
    rw [List.map_map, List.pairwise_append] at htiles
    have hdis : live.Pairwise fun a b => ∀ x, ((s.kernel.obj a).pages pageSize).Has x →
        ¬ ((s.kernel.obj b).pages pageSize).Has x := List.pairwise_map.mp htiles.1
    have hsymm : Std.Symm fun a b => ∀ x, ((s.kernel.obj a).pages pageSize).Has x →
        ¬ ((s.kernel.obj b).pages pageSize).Has x := ⟨fun a b h x hb ha => h x ha hb⟩
    refine hdis.forall (hmem a ha hboot) (hmem b hb hb') (Ne.symm hne) x hx ⟨hbase, ?_⟩
    exact lt_of_lt_of_le hlimit ((h.live hb hb').limit_le hr)

/-- An object made later ends before the base of any object behind it. -/
theorem Separate.limit_le_base (h : Separate pageSize lo hi boot s)
    (ha : a ∈ s.kernel.objtable.toList) (hboot : a ∉ boot) (hb : b ∈ s.kernel.objtable.toList)
    (hlt : (s.kernel.obj a).base < (s.kernel.obj b).base) :
    (s.kernel.obj a).limit ≤ (s.kernel.obj b).base := by
  by_contra hgt
  have hne : b ≠ a := by
    rintro rfl
    exact lt_irrefl _ hlt
  have hx : ((s.kernel.obj a).pages pageSize).Has (s.kernel.obj b).base :=
    ⟨hlt.le, lt_of_lt_of_le (not_le.mp hgt) ((h.live ha hboot).limit_le hr)⟩
  exact h.apart hr ha hboot hb hne hx ⟨le_rfl, h.proper b hb⟩

/-- Everything but the addresses of one object made later stays. -/
theorem MapInv.place_eq [DecidableEq O] {s' : System O} {o : O} (h : MapInv pageSize lo hi boot s)
    (h' : MapInv pageSize lo hi boot s') (hboot : o ∉ boot)
    (hmem : ∀ p, p ∈ s'.kernel.objtable.toList ↔ p = o ∨ p ∈ s.kernel.objtable.toList)
    (hkeep : ∀ p, p ≠ o → s'.kernel.obj p = s.kernel.obj p) :
    objectFind s'.kernel
      = place (objectFind s.kernel) o ⟨(s'.kernel.obj o).base, (s'.kernel.obj o).limit⟩ := by
  refine ext_owner fun x p => ?_
  rw [h'.ordered.objectFind_iff, place_eq_some, h.ordered.objectFind_iff, hmem]
  by_cases hp : p = o
  · subst hp
    simp only [true_or, true_and, ne_eq, not_true_eq_false, false_and, or_false]
    exact Iff.rfl
  · rw [hkeep p hp]
    simp only [hp, false_or, false_and, ne_eq, not_false_eq_true, true_and]
    constructor
    · rintro ⟨hin, hx⟩
      refine ⟨fun hhas => ?_, hin, hx⟩
      have ho' : o ∈ s'.kernel.objtable.toList := (hmem o).mpr (Or.inl rfl)
      have hlive := h'.live ho' hboot
      refine h'.apart hr ho' hboot ((hmem p).mpr (Or.inr hin)) hp
        ⟨hhas.1, lt_of_lt_of_le hhas.2 (hlive.limit_le hr)⟩ ?_
      rw [hkeep p hp]
      exact hx
    · rintro ⟨-, hin, hx⟩
      exact ⟨hin, hx⟩

/-- The pages an object has now were its own or nobody's. -/
theorem MapInv.pages_free [DecidableEq O] {s' : System O} {o : O}
    (h : MapInv pageSize lo hi boot s) (h' : MapInv pageSize lo hi boot s') (hboot : o ∉ boot)
    (hmem : ∀ p, p ∈ s'.kernel.objtable.toList ↔ p = o ∨ p ∈ s.kernel.objtable.toList)
    (hkeep : ∀ p, p ≠ o → s'.kernel.obj p = s.kernel.obj p) {x : ℕ}
    (hx : ((s'.kernel.obj o).pages pageSize).Has x) :
    objectFind s.kernel x = none ∨ objectFind s.kernel x = some o := by
  cases hfind : objectFind s.kernel x with
  | none => exact Or.inl rfl
  | some p =>
    by_cases hp : p = o
    · exact Or.inr (by rw [hp])
    · obtain ⟨hin, hcontains⟩ := h.ordered.objectFind_iff.mp hfind
      rw [← hkeep p hp] at hcontains
      exact absurd hcontains (h'.apart hr ((hmem o).mpr (Or.inl rfl)) hboot
        ((hmem p).mpr (Or.inr hin)) hp hx)

end Separate

/-! ### One call -/

section Step
variable [DecidableEq O] {pageSize lo hi : ℕ} {boot : List O} {s s' : System O}

/-- **The calls that keep the table in order**: an insertion does not split a page at the median,
and no object is left without pages. -/
def Steady (pageSize : ℕ) (s : System O) : ObjOp O → Prop
  | .create length passwd mem => ∀ o junk, mem = some (o, junk) →
      let base := (kmallocObj pageSize s.free length).1
      let k := s.kernel.setObj o (objectInit junk base length passwd)
      medianSplit k.conf base k.objtable.root = false
  | .delete _ => True
  | .resize _ newSize => pageRoundUp pageSize newSize ≠ 0

/-- What `object_resize` leaves in memory, and what it says. -/
theorem objectResize_cases {o : O} {newSize : ℕ} {b : Bool}
    (h : objectResize pageSize s o newSize = some (s', b)) :
    b = true ∧ s'.kernel = setSize s.kernel o
        (wordAdd (s.kernel.obj o).base (pageRoundUp pageSize newSize))
        (pageRoundUp pageSize newSize) ∨
      b = false ∧ s'.kernel = s.kernel ∧
        (s.kernel.obj o).info.length < pageRoundUp pageSize newSize := by
  unfold objectResize at h
  dsimp only at h
  split_ifs at h with hpages hsame hsmall
  · obtain ⟨rfl, rfl⟩ := Prod.mk.inj (Option.some.inj h)
    exact Or.inl ⟨rfl, rfl⟩
  · obtain ⟨rfl, rfl⟩ := Prod.mk.inj (Option.some.inj h)
    exact Or.inl ⟨rfl, rfl⟩
  · cases hk : kmallocObjAddr pageSize s.free (s.kernel.obj o).limit
        (pageRoundUp pageSize newSize - (s.kernel.obj o).info.length) with
    | none =>
      rw [hk] at h
      cases h
    | some r =>
      rw [hk] at h
      dsimp only at h
      split_ifs at h with hnull
      · obtain ⟨rfl, rfl⟩ := Prod.mk.inj (Option.some.inj h)
        exact Or.inr ⟨rfl, rfl, by omega⟩
      · obtain ⟨rfl, rfl⟩ := Prod.mk.inj (Option.some.inj h)
        exact Or.inl ⟨rfl, rfl⟩
  · obtain ⟨rfl, rfl⟩ := Prod.mk.inj (Option.some.inj h)
    exact Or.inl ⟨rfl, rfl⟩

omit [DecidableEq O] in
theorem kmallocObj_zero (pageSize : ℕ) (l : List FreeChunk) : (kmallocObj pageSize l 0).1 = 0 := by
  unfold kmallocObj
  rw [if_pos rfl]
  split_ifs <;> rfl

variable (hr : PageRegion pageSize lo hi)
include hr

theorem objectCreate_mapped (h : MapInv pageSize lo hi boot s) {length passwd : ℕ}
    {mem : Option (O × ObjInfo)} (hallow : Allowed pageSize boot s (.create length passwd mem))
    (hsane : Sane pageSize s (.create length passwd mem))
    (hsteady : Steady pageSize s (.create length passwd mem)) :
    MapInv pageSize lo hi boot (objectCreate pageSize s length passwd mem).1 ∧
      AddressStep pageSize lo hi (objectFind s.kernel) (.create length passwd mem)
        (.made (objectCreate pageSize s length passwd mem).2)
        (objectFind (objectCreate pageSize s length passwd mem).1.kernel) := by
  obtain ⟨live, hspace⟩ := h.space
  have hspace' := objectCreate_spaceInv hr hspace hallow hsane
  rcases kmallocObj_spec hr.hi_lt hr.lo_pos length hspace.chunks with hnull | ⟨hne, htaken⟩
  · have heq : objectCreate pageSize s length passwd mem = (s, none) := by
      unfold objectCreate
      dsimp only
      rw [hnull, if_pos rfl]
    rw [heq]
    exact ⟨h, .noRoom⟩
  cases mem with
  | none =>
    have heq : objectCreate pageSize s length passwd none = (⟨s.kernel, kfreeObj pageSize
        (kmallocObj pageSize s.free length).2 (kmallocObj pageSize s.free length).1 length⟩,
        none) := by
      unfold objectCreate
      dsimp only
      rw [if_neg hne]
      rfl
    rw [heq] at hspace' ⊢
    exact ⟨⟨⟨hspace', h.proper, h.outside⟩, h.ordered⟩, .noRoom⟩
  | some r =>
    obtain ⟨o, junk⟩ := r
    obtain ⟨hfresh, hpool⟩ := hallow o junk rfl
    have hmedian := hsteady o junk rfl
    have hboot : o ∉ boot := fun ho => hfresh (h.boot_mem ho)
    have hlength : length ≠ 0 := by
      rintro rfl
      exact hne (kmallocObj_zero pageSize s.free)
    have hlen : length + pageSize ≤ 2 ^ 64 := by
      refine hsane.1.resolve_left fun hnil => hne ?_
      rw [hnil]
      rfl
    have hround := (pageRoundUp_spec hr.pos hlen).1
    have hle := htaken.chunk.le_hi
    have hlt := hr.hi_lt
    dsimp only at hpool hmedian hle
    generalize hbase : (kmallocObj pageSize s.free length).1 = base at *
    generalize hfree : (kmallocObj pageSize s.free length).2 = free at *
    have hlimit : (base + length) % 2 ^ 64 = base + length := Nat.mod_eq_of_lt (by omega)
    have hobj := s.kernel.setObj_self o (objectInit junk base length passwd)
    have hkeep : ∀ p, p ≠ o →
        (s.kernel.setObj o (objectInit junk base length passwd)).obj p = s.kernel.obj p :=
      fun p hp => s.kernel.setObj_of_ne hp _
    have hproper : (s.kernel.setObj o (objectInit junk base length passwd)).conf.Proper o := by
      change ((s.kernel.setObj o _).obj o).base < ((s.kernel.setObj o _).obj o).limit
      rw [hobj]
      change base < (base + length) % 2 ^ 64
      omega
    rcases objectAdd_ordered h.ordered h.proper hfresh rfl hproper hpool hmedian with
      hadd | ⟨t, hadd, hord, hmem⟩
    · have heq : objectCreate pageSize s length passwd (some (o, junk))
          = (⟨s.kernel.setObj o (objectInit junk base length passwd),
              kfreeObj pageSize free base length⟩, none) := by
        unfold objectCreate
        dsimp only
        rw [hbase, hfree, if_neg hne, hadd]
      rw [heq] at hspace' ⊢
      refine ⟨⟨h.of_keep hboot hspace' (fun p hp => Or.inr hp) hkeep fun _ => hproper,
        h.ordered.setObj hfresh _⟩, ?_⟩
      dsimp only
      rw [h.ordered.objectFind_setObj hfresh]
      exact .noRoom
    · have heq : objectCreate pageSize s length passwd (some (o, junk))
          = (⟨{ s.kernel.setObj o (objectInit junk base length passwd) with objtable := t },
              free⟩, some o) := by
        unfold objectCreate
        dsimp only
        rw [hbase, hfree, if_neg hne, hadd]
      rw [heq] at hspace' ⊢
      have h' : MapInv pageSize lo hi boot
          ⟨{ s.kernel.setObj o (objectInit junk base length passwd) with objtable := t }, free⟩ :=
        ⟨h.of_keep hboot hspace' (fun p => (hmem p).mp) hkeep fun _ => hproper, hord⟩
      have hplace := h.place_eq hr h' hboot hmem hkeep
      dsimp only at hplace
      rw [hobj, show (objectInit junk base length passwd).limit = base + length from hlimit]
        at hplace
      have hnone : ∀ x, objectFind s.kernel x ≠ some o := fun x hx =>
        hfresh (h.ordered.objectFind_iff.mp hx).1
      refine ⟨h', ?_⟩
      dsimp only
      rw [hplace]
      refine .created (Nat.pos_of_ne_zero hlength) htaken.chunk.address htaken.chunk.lo_le hle
        hnone fun x hlo hhi => ?_
      refine (h.pages_free hr h' hboot hmem hkeep ?_).resolve_right (hnone x)
      dsimp only
      rw [hobj, Obj.pages_eq hr hlen]
      exact ⟨hlo, hhi⟩

theorem objectDelete_mapped (h : MapInv pageSize lo hi boot s) {addr : ℕ}
    (hallow : Allowed pageSize boot s (.delete addr)) (hsane : Sane pageSize s (.delete addr))
    {b : Bool} (hs' : objectDelete pageSize s addr = some (s', b)) :
    MapInv pageSize lo hi boot s' ∧ AddressStep pageSize lo hi (objectFind s.kernel) (.delete addr)
      (.done b) (objectFind s'.kernel) := by
  obtain ⟨live, hspace⟩ := h.space
  have hspace' := objectDelete_spaceInv hr hspace hallow hsane hs'
  have hout := btDel_outcome h.ordered.odd h.ordered.wf.shaped addr
  unfold objectDelete at hs'
  dsimp only at hs'
  generalize btDel s.kernel.conf s.kernel.objtable addr = res at hout hs'
  cases hout with
  | notFound absent =>
    obtain ⟨rfl, rfl⟩ := Prod.mk.inj (Option.some.inj hs')
    refine ⟨⟨⟨hspace', h.proper, h.outside⟩, h.ordered⟩, .notFound fun o hfirst => ?_⟩
    obtain ⟨hmem, hbase⟩ := (h.ordered.first_iff h.proper).mp hfirst
    exact absent h.ordered.wf.exact h.ordered.wf.sorted o hmem hbase
  | panicked => cases hs'
  | deleted t l₁ l₂ o shaped key old new free exact =>
    obtain ⟨rfl, rfl⟩ := Prod.mk.inj (Option.some.inj hs')
    have hsub : t.toList.Sublist s.kernel.objtable.toList := by
      rw [new, old]
      exact (List.Sublist.refl l₁).append (List.sublist_cons_self o l₂)
    have hbefore : t.toList.Pairwise s.kernel.conf.Before := h.ordered.before.sublist hsub
    have hord : ({ s.kernel with objtable := t } : Kernel O).Ordered :=
      ⟨h.ordered.odd, ⟨shaped, exact h.ordered.wf.exact h.ordered.wf.sorted,
        hbefore.imp fun h => h.lt⟩, hbefore⟩
    have hmem : o ∈ s.kernel.objtable.toList := by
      rw [old]
      simp
    have hmem' : ∀ p, p ∈ t.toList ↔ p ≠ o ∧ p ∈ s.kernel.objtable.toList := by
      intro p
      have hnodup := hspace.nodup
      rw [old, List.nodup_append, List.nodup_cons] at hnodup
      obtain ⟨-, ⟨hno₂, -⟩, hdis⟩ := hnodup
      have hno₁ : o ∉ l₁ := fun ho => hdis o ho o List.mem_cons_self rfl
      rw [new, old]
      simp only [List.mem_append, List.mem_cons]
      constructor
      · intro hp
        refine ⟨?_, by tauto⟩
        rintro rfl
        tauto
      · rintro ⟨hne, hp⟩
        tauto
    refine ⟨⟨⟨hspace', fun p hp => h.proper p (hsub.subset hp), h.outside⟩, hord⟩, ?_⟩
    have hclear : objectFind ({ s.kernel with objtable := t } : Kernel O)
        = clear (objectFind s.kernel) o := by
      refine ext_owner fun x p => ?_
      rw [hord.objectFind_iff, clear_eq_some, h.ordered.objectFind_iff, hmem', and_assoc]
    dsimp only
    rw [hclear]
    exact .deleted ((h.ordered.first_iff h.proper).mpr ⟨hmem, key⟩)

theorem objectResize_mapped (h : MapInv pageSize lo hi boot s) {o : O} {newSize : ℕ}
    (hallow : Allowed pageSize boot s (.resize o newSize))
    (hsane : Sane pageSize s (.resize o newSize)) (hsteady : pageRoundUp pageSize newSize ≠ 0)
    {b : Bool} (hs' : objectResize pageSize s o newSize = some (s', b)) :
    MapInv pageSize lo hi boot s' ∧ AddressStep pageSize lo hi (objectFind s.kernel)
      (.resize o newSize) (.done b) (objectFind s'.kernel) := by
  obtain ⟨live, hspace⟩ := h.space
  have hspace' := objectResize_spaceInv hr hspace hallow hsane hs'
  obtain ⟨hmem, hboot⟩ := hallow
  have hfirst : First (objectFind s.kernel) o (s.kernel.obj o).base :=
    (h.ordered.first_iff h.proper).mpr ⟨hmem, rfl⟩
  rcases objectResize_cases hs' with ⟨rfl, heq⟩ | ⟨rfl, heq, hlarger⟩
  · have hobj : s'.kernel.obj o = { s.kernel.obj o with
        limit := wordAdd (s.kernel.obj o).base (pageRoundUp pageSize newSize),
        info := { (s.kernel.obj o).info with length := pageRoundUp pageSize newSize } } := by
      rw [heq]
      exact Kernel.setObj_self ..
    have hkeep : ∀ p, p ≠ o → s'.kernel.obj p = s.kernel.obj p := by
      intro p hp
      rw [heq]
      exact s.kernel.setObj_of_ne hp _
    have htable : s'.kernel.objtable = s.kernel.objtable := by
      rw [heq]
      rfl
    have hmem' : ∀ p, p ∈ s'.kernel.objtable.toList ↔ p = o ∨ p ∈ s.kernel.objtable.toList := by
      intro p
      rw [htable]
      refine ⟨Or.inr, ?_⟩
      rintro (rfl | hp)
      · exact hmem
      · exact hp
    have hlive : LiveObj pageSize lo hi (s'.kernel.obj o) := by
      obtain ⟨live', hspace'⟩ := hspace'
      exact hspace'.objs o ((List.mem_append.mp
        (hspace'.perm.mem_iff.mp ((hmem' o).mpr (Or.inl rfl)))).resolve_left hboot)
    have hlen := hlive.length hr
    have hrange := hlive.range
    have hhi := hlive.le_hi
    rw [Obj.pages_eq hr hlen] at hhi
    rw [hobj] at hlen hrange hhi
    dsimp only at hlen hrange hhi
    rw [pageRoundUp_of_dvd hr.pos hlen (dvd_pageRoundUp ..)] at hhi
    have hproper : s'.kernel.conf.Proper o := by
      change (s'.kernel.obj o).base < (s'.kernel.obj o).limit
      rw [hobj]
      dsimp only
      omega
    have hsep : Separate pageSize lo hi boot s' :=
      h.of_keep hboot hspace' (fun p => (hmem' p).mp) hkeep fun _ => hproper
    have h' : MapInv pageSize lo hi boot s' := by
      refine ⟨hsep, ?_⟩
      rw [heq]
      refine h.ordered.setSize fun q hq hlt => ?_
      have hne : q ≠ o := by
        rintro rfl
        exact lt_irrefl _ hlt
      have hle := hsep.limit_le_base hr ((hmem' o).mpr (Or.inl rfl)) hboot
        ((hmem' q).mpr (Or.inr hq))
      rw [hkeep q hne, hobj] at hle
      exact hle hlt
    have hplace := h.place_eq hr h' hboot hmem' hkeep
    rw [hobj] at hplace
    dsimp only at hplace
    rw [hrange] at hplace
    refine ⟨h', ?_⟩
    rw [hplace]
    refine .resized hfirst hhi fun x hlo hhi => h.pages_free hr h' hboot hmem' hkeep ?_
    rw [hobj, Obj.pages_eq hr hlen]
    dsimp only
    rw [pageRoundUp_of_dvd hr.pos hlen (dvd_pageRoundUp ..)]
    exact ⟨hlo, hhi⟩
  · have hrange := (h.live hmem hboot).range
    refine ⟨⟨⟨hspace', ?_, ?_⟩, ?_⟩, ?_⟩
    · rw [heq]
      exact h.proper
    · rw [heq]
      exact h.outside
    · rw [heq]
      exact h.ordered
    · rw [heq]
      refine .cannotGrow hfirst fun hin => ?_
      have hlimit := (h.ordered.objectFind_iff.mp hin).2.2
      omega

/-- **One call does to the map what it may do.** -/
theorem objReply_mapped (h : MapInv pageSize lo hi boot s) {op : ObjOp O}
    (hallow : Allowed pageSize boot s op) (hsane : Sane pageSize s op)
    (hsteady : Steady pageSize s op) {r : ObjReply O}
    (hs' : objReply pageSize s op = some (s', r)) :
    MapInv pageSize lo hi boot s' ∧
      AddressStep pageSize lo hi (objectFind s.kernel) op r (objectFind s'.kernel) := by
  cases op with
  | create length passwd mem =>
    obtain ⟨rfl, rfl⟩ := Prod.mk.inj (Option.some.inj hs')
    exact objectCreate_mapped hr h hallow hsane hsteady
  | delete addr =>
    obtain ⟨⟨s₁, b⟩, hs₁, heq⟩ := Option.map_eq_some_iff.mp hs'
    obtain ⟨rfl, rfl⟩ := Prod.mk.inj heq
    exact objectDelete_mapped hr h hallow hsane hs₁
  | resize o newSize =>
    obtain ⟨⟨s₁, b⟩, hs₁, heq⟩ := Option.map_eq_some_iff.mp hs'
    obtain ⟨rfl, rfl⟩ := Prod.mk.inj heq
    exact objectResize_mapped hr h hallow hsane hsteady hs₁

end Step

/-! ### Runs -/

section Runs
variable {pageSize lo hi : ℕ}

/-- The start, with the predefined objects outside the region. -/
theorem mapped_freeInit (hr : PageRegion pageSize lo hi) {k : Kernel O} (hk : k.Ordered)
    (hproper : ∀ o ∈ k.objtable.toList, k.conf.Proper o)
    (houtside : ∀ o ∈ k.objtable.toList, (k.obj o).limit ≤ lo ∨ hi ≤ (k.obj o).base) :
    MapInv pageSize lo hi k.objtable.toList ⟨k, freeInit lo (hi - lo)⟩ := by
  have hnodup : k.objtable.toList.Nodup := hk.wf.sorted.imp fun {a b} hlt heq => by
    subst heq
    exact lt_irrefl _ hlt
  exact ⟨⟨⟨[], spaceInv_freeInit hr hk.odd hk.wf.shaped hnodup⟩, hproper, houtside⟩, hk⟩

end Runs

/-- A page for an object, and one more. -/
def createGrow : List (ObjOp ℕ) := [.create 0x1000 22 (some (1, blankInfo)), .resize 1 0x2000]

end Mungi
