import Mungi.BTree.Search
import Mungi.Vcache

/-!
# Objects, capabilities and protection domains

The records of the kernel that decide who may do what: objects with their
passwords, the Clists that hold capabilities, and the APDs that name Clists.
Objects are reached through pointers, of any type `O`, kept in the object table.
Clists lie in user memory, so there is one wherever a pointer to a Clist leads.

## Main definitions

* `Cap`, `Clist`, `ApdDesc`, `Obj` — the records.
* `objectInit` — an object as `object_add` makes it.
* `Kernel` — the memory behind the pointers, and the object table.
* `objectFind` — `object_find`.

## Main results

* `Kernel.Ordered.objectFind_iff` — `object_find` finds the object an address is in.
-/

namespace Mungi

/-- `cap_t` -/
structure Cap where
  address : ℕ
  passwd : ℕ
  deriving DecidableEq

/-- `NULL_CAP` -/
def Cap.null : Cap := ⟨0, 0⟩

/-- `clist_t`, without its format. -/
structure Clist where
  /-- The magic number `'c'`. -/
  type : ℕ
  relVer : ℕ
  nCaps : ℕ
  caps : ℤ → Cap

/-- A pointer `&clist->caps[idx]`. -/
structure CapPtr where
  clist : ℕ
  idx : ℤ
  deriving DecidableEq

/-- `apddesc_t` -/
structure ApdDesc where
  clist : ℤ → Cap
  /-- The first slot that is not locked. -/
  nLocked : ℤ
  /-- The number of slots in use. -/
  nApd : ℤ

/-- `pdxdata_t`: PDX password `i` allows the entry points `nEntry i, …, xEntry i - 1`. -/
structure PdxData where
  clist : ℤ → Cap
  passwd : ℤ → ℕ
  nEntry : ℤ → ℤ
  xEntry : ℤ → ℤ
  entry : ℤ → ℕ

/-- `objinfo_t`, of which the kernel only copies the other fields. -/
structure ObjInfo where
  length : ℕ
  /-- How far the password table is in use. -/
  nCaps : ℕ
  nPdx : ℕ
  passwd : ℤ → ℕ
  rights : ℤ → Access
  pdx : PdxData

/-- `struct object`; `limit` is `end`. -/
structure Obj where
  base : ℕ
  limit : ℕ
  info : ObjInfo

/-- An address within the object. -/
def Obj.Contains (obj : Obj) (addr : ℕ) : Prop := InRange addr obj.base obj.limit

instance (obj : Obj) (addr : ℕ) : Decidable (obj.Contains addr) :=
  inferInstanceAs (Decidable (InRange _ _ _))

/-- The object `object_add` puts into memory that held `junk`. -/
def objectInit (junk : ObjInfo) (addr length passwd : ℕ) : Obj where
  base := addr
  limit := (addr + length) % 2 ^ 64
  info :=
    { junk with
      passwd := Function.update junk.passwd 0 passwd
      rights := Function.update junk.rights 0 mOwner
      nCaps := 1
      length }

/-- The memory that validation reads. -/
structure Kernel (O : Type) where
  /-- `BT_ORDER` -/
  btOrder : ℤ
  /-- The first word of a page of the table. -/
  pageWord : ℤ → Bool → ℕ
  /-- The objects behind the pointers. -/
  obj : O → Obj
  /-- What is found behind a pointer to a Clist. -/
  clist : ℕ → Clist
  objtable : BTree O

variable {O : Type}

/-- `btree_conf.h` -/
def Kernel.conf (k : Kernel O) : BTConf O where
  btOrder := k.btOrder
  btGetObjKey := fun o => (k.obj o).base
  btGetObjLim := fun o => (k.obj o).limit
  pageWord := k.pageWord

/-- The capability behind a pointer. -/
def Kernel.capAt (k : Kernel O) (cap : CapPtr) : Cap := (k.clist cap.clist).caps cap.idx

/-- The memory with another object behind the pointer `o`. -/
def Kernel.setObj [DecidableEq O] (k : Kernel O) (o : O) (obj : Obj) : Kernel O :=
  { k with obj := Function.update k.obj o obj }

@[simp] theorem Kernel.setObj_self [DecidableEq O] (k : Kernel O) (o : O) (obj : Obj) :
    (k.setObj o obj).obj o = obj := Function.update_self ..

theorem Kernel.setObj_of_ne [DecidableEq O] (k : Kernel O) {o o' : O} (h : o' ≠ o) (obj : Obj) :
    (k.setObj o obj).obj o' = k.obj o' := Function.update_of_ne h ..

/-- The memory with other Clists. -/
def Kernel.withClists (k : Kernel O) (clist : ℕ → Clist) : Kernel O := { k with clist }

/-- `IS_NOT_CLIST` -/
def Kernel.IsNotClist (k : Kernel O) (clist : ℕ) : Prop :=
  clist = 0 ∨ (k.clist clist).type ≠ 'c'.toNat ∨ (k.clist clist).relVer ≠ 1

instance (k : Kernel O) (clist : ℕ) : Decidable (k.IsNotClist clist) :=
  inferInstanceAs (Decidable (_ ∨ _))

/-- `object_find` -/
def objectFind (k : Kernel O) (addr : ℕ) : Option O :=
  match btSearch k.conf k.objtable addr with
  | (.ok, obj) => obj
  | _ => none

/-- The object table is in order, and its objects do not overlap. -/
structure Kernel.Ordered (k : Kernel O) : Prop where
  odd : k.conf.Odd
  wf : k.objtable.WF k.conf
  before : k.objtable.toList.Pairwise k.conf.Before

theorem Kernel.btObjMatch_iff {k : Kernel O} {o : O} {addr : ℕ} :
    k.conf.btObjMatch o addr = true ↔ (k.obj o).Contains addr := Mungi.btObjMatch_iff

theorem objectFind_eq (k : Kernel O) (addr : ℕ) : objectFind k addr
    = if (btSearch k.conf k.objtable addr).1 = .ok then (btSearch k.conf k.objtable addr).2
      else none := by
  unfold objectFind
  rcases btSearch k.conf k.objtable addr with ⟨ret, obj⟩
  cases ret <;> rfl

/-- `BTSearch` looks whether the key is in the object it has got to. -/
theorem objectFind_contains {k : Kernel O} {addr : ℕ} {o : O} (h : objectFind k addr = some o) :
    (k.obj o).Contains addr := by
  have hok : btSearch k.conf k.objtable addr = (.ok, some o) := by
    rw [objectFind_eq] at h
    split_ifs at h with hok
    exact Prod.ext hok h
  unfold btSearch at hok
  cases hroot : k.objtable.root with
  | null =>
    rw [hroot] at hok
    cases hok
  | _ =>
    rw [hroot] at hok
    dsimp only at hok
    cases hpage : btSearchPage k.conf addr _ with
    | none =>
      rw [hpage] at hok
      cases hok
    | some o' =>
      rw [hpage] at hok
      dsimp only at hok
      split_ifs at hok with hm
      · obtain rfl := Option.some.inj (Prod.mk.inj hok).2
        exact Kernel.btObjMatch_iff.mp hm
      · cases (Prod.mk.inj hok).1

/-- What is found is stored and contains the address, on a table of any shape. -/
theorem objectFind_sound {k : Kernel O} (hodd : k.conf.Odd) (ht : k.objtable.Shaped k.conf)
    {addr : ℕ} {o : O} (h : objectFind k addr = some o) :
    o ∈ k.objtable.toList ∧ (k.obj o).Contains addr := by
  rw [objectFind_eq] at h
  split_ifs at h with hok
  obtain ⟨o', ho', hs, hm⟩ := btSearch_sound hodd ht hok
  rw [hs] at h
  obtain rfl := Option.some.inj h
  exact ⟨ho', Kernel.btObjMatch_iff.mp hm⟩

/-- **`object_find` finds the object an address is in.** -/
theorem Kernel.Ordered.objectFind_iff {k : Kernel O} (hk : k.Ordered) {addr : ℕ} {o : O} :
    objectFind k addr = some o ↔ o ∈ k.objtable.toList ∧ (k.obj o).Contains addr := by
  constructor
  · exact objectFind_sound hk.odd hk.wf.shaped
  · rintro ⟨hmem, hin⟩
    obtain ⟨l₁, l₂, hlist⟩ := List.append_of_mem hmem
    have hb := hk.before
    rw [hlist, List.pairwise_append] at hb
    rw [objectFind_eq, btSearch_eq_find hk.odd hk.wf hk.before, hlist, List.find?_append,
      List.find?_cons, Kernel.btObjMatch_iff.mpr hin, List.find?_eq_none.mpr, Option.none_or]
    -- an object in front of it ends before the address
    intro a ha hm
    have hbase : (k.obj a).limit ≤ (k.obj o).base := (hb.2.2 a ha o List.mem_cons_self).2
    exact absurd (lt_of_lt_of_le (Kernel.btObjMatch_iff.mp hm).2 hbase) (not_lt.mpr hin.1)

/-- An address is in one object at most. -/
theorem Kernel.Ordered.objectFind_eq_of_contains {k : Kernel O} (hk : k.Ordered) {a b : ℕ} {o : O}
    (h : objectFind k a = some o) (hb : (k.obj o).Contains b) : objectFind k b = some o :=
  hk.objectFind_iff.mpr ⟨(hk.objectFind_iff.mp h).1, hb⟩

end Mungi
