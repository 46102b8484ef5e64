import Mungi.Lib.Heap
import Mungi.Lib.Runs
import Mungi.Naming.Absolute

/-!
# The name hash

A table from absolute names to pointers, as lists of entries behind the slots.  `nh_hash` computes a
value and returns 0 before it, so that all entries are in one list; nothing here depends on that.
The names of entries are in blocks of their own, which are not given back.

## Main definitions

* `nhInsert`, `nhDelete`, `nhFind`, `nhModify` — the functions of `namehash.c`.
* `NameMap`, `NameMap.call` — what the table is meant to be.
* `NameHash.Holds` — a table stands for a map.

## Main results

* `nhCall_holds` — **every call does to the table what it is meant to do to the map.**
* `nameHash_refines` — the same after any calls.
-/

namespace Mungi.Naming

open Chain Runs

/-! ### The code -/

/-- `hashent_t` -/
structure HashEnt where
  next : ℕ
  name : List Char
  child : ℕ

/-- `namehash_t`, with the entries of its heap. -/
structure NameHash where
  size : ℕ
  table : ℕ → ℕ
  ents : Heap HashEnt

/-- `NH_OK`, `NH_FAIL` and `NH_MEM`. -/
inductive NhCode where
  | ok
  | fail
  | mem
  deriving DecidableEq

/-- `nh_hash`: what it computes is behind `return 0`. -/
def nhHash (_s : List Char) (_size : ℕ) : ℕ := 0

/-- `nh_init`, as far as the table goes. -/
def nhInit (entries : ℕ) (ents : Heap HashEnt) : NameHash where
  size := entries
  table _ := 0
  ents := ents

namespace NameHash

def next (nh : NameHash) (p : ℕ) : ℕ := (nh.ents.cell p).next
def name (nh : NameHash) (p : ℕ) : List Char := (nh.ents.cell p).name
def child (nh : NameHash) (p : ℕ) : ℕ := (nh.ents.cell p).child

/-- The link behind `prev` is set, or the slot. -/
def setNext (nh : NameHash) (hash prev ent : ℕ) : NameHash :=
  if prev = 0 then { nh with table := Function.update nh.table hash ent }
  else { nh with ents := nh.ents.modify prev fun e => { e with next := ent } }

/-- The value of an entry is set. -/
def setChild (nh : NameHash) (ent value : ℕ) : NameHash :=
  { nh with ents := nh.ents.modify ent fun e => { e with child := value } }

end NameHash

variable (fuel : ℕ) (nh : NameHash)

/-- The search of all the functions: `prev` and `ent` after it.  There has to be a slot. -/
def nhSearch (absolute : List Char) : Option (ℕ × ℕ) :=
  let hash := nhHash absolute nh.size
  if hash < nh.size then
    (chase nh.next (fun p => nh.name p = absolute) fuel 0 0 (nh.table hash)).map Prod.snd
  else none

/-- `nh_insert`, with what `nh_alloc` returns for the entry. -/
def nhInsert (name : List Char) (value : ℕ) (cwd : List Char) (enew : ℕ) :
    Option (NhCode × NameHash) :=
  (nhAbsolute name cwd).bind fun absolute =>
    (nhSearch fuel nh absolute.name).bind fun (prev, ent) =>
      if ent ≠ 0 then some (.fail, nh)
      else if enew = 0 then some (.mem, nh)
      else
        (nh.ents.alloc enew { next := 0, name := absolute.name, child := value }).map fun ents =>
          (.ok, { nh with ents := ents }.setNext (nhHash absolute.name nh.size) prev enew)

/-- `nh_delete` -/
def nhDelete (name cwd : List Char) : Option (NhCode × NameHash) :=
  (nhAbsolute name cwd).bind fun absolute =>
    (nhSearch fuel nh absolute.name).map fun (prev, ent) =>
      if ent = 0 then (.fail, nh)
      else
        let nh := nh.setNext (nhHash absolute.name nh.size) prev (nh.next ent)
        (.ok, { nh with ents := nh.ents.free ent })

/-- `nh_find`, with what it puts in `*value`. -/
def nhFind (name cwd : List Char) : Option (NhCode × Option ℕ) :=
  (nhAbsolute name cwd).bind fun absolute =>
    (nhSearch fuel nh absolute.name).map fun (_, ent) =>
      if ent = 0 then (.fail, none) else (.ok, some (nh.child ent))

/-- `nh_modify` -/
def nhModify (name : List Char) (value : ℕ) (cwd : List Char) : Option (NhCode × NameHash) :=
  (nhAbsolute name cwd).bind fun absolute =>
    (nhSearch fuel nh absolute.name).map fun (_, ent) =>
      if ent = 0 then (.fail, nh)
      else (.ok, nh.setChild ent value)

/-! ### Calls -/

/-- What is done to a name; `insert` with the block that there is for its entry. -/
inductive NhOp where
  | insert (value enew : ℕ)
  | modify (value : ℕ)
  | delete
  | find

/-- A call. -/
structure NhCall where
  op : NhOp
  name : List Char
  cwd : List Char

/-- What a call returns: the code, and the value for `nh_find`. -/
abbrev NhAnswer := NhCode × Option ℕ

/-- A call is served. -/
def nhCall (c : NhCall) : Option (NhAnswer × NameHash) :=
  match c.op with
  | .insert value enew =>
    (nhInsert fuel nh c.name value c.cwd enew).map fun r => ((r.1, none), r.2)
  | .modify value => (nhModify fuel nh c.name value c.cwd).map fun r => ((r.1, none), r.2)
  | .delete => (nhDelete fuel nh c.name c.cwd).map fun r => ((r.1, none), r.2)
  | .find => (nhFind fuel nh c.name c.cwd).map fun r => (r, nh)

/-- The table after a call. -/
def nhStep (c : NhCall) : Option NameHash := (nhCall fuel nh c).map Prod.snd

/-- The block that a call takes. -/
def NhOp.block : NhOp → Option ℕ
  | .insert _ enew => some enew
  | _ => none

/-- Memory is available: the block is one, and is not in use. -/
def Supplied (nh : NameHash) (c : NhCall) : Prop :=
  ∀ enew ∈ c.op.block, enew ≠ 0 ∧ nh.ents.live enew = false

instance (c : NhCall) : Decidable (Supplied nh c) :=
  inferInstanceAs (Decidable (∀ enew ∈ c.op.block, enew ≠ 0 ∧ nh.ents.live enew = false))

/-! ### What it is meant to be -/

/-- A map from absolute names to values. -/
abbrev NameMap := List Char → Option ℕ

/-- What a call is meant to answer, and to make of the map: it concerns the absolute name, and
inserting needs a name that is not there, all else one that is. -/
def NameMap.call (m : NameMap) (c : NhCall) : NhAnswer × NameMap :=
  let absolute := absoluteName c.name c.cwd
  match c.op, m absolute with
  | .insert value _, none => ((.ok, none), Function.update m absolute (some value))
  | .insert .., some _ => ((.fail, none), m)
  | .modify value, some _ => ((.ok, none), Function.update m absolute (some value))
  | .delete, some _ => ((.ok, none), Function.update m absolute none)
  | .find, some value => ((.ok, some value), m)
  | _, none => ((.fail, none), m)

/-- The map after calls. -/
def NameMap.after (m : NameMap) (calls : List NhCall) : NameMap :=
  calls.foldl (fun m c => (m.call c).2) m

/-- **A table stands for a map.**  The list `l b` behind a slot has the entries with that hash, and
no two of the same name. -/
structure NameHash.Holds (nh : NameHash) (l : ℕ → List ℕ) (m : NameMap) : Prop where
  slots : 0 < nh.size
  chain : ∀ b, IsChain nh.next (nh.table b) (l b)
  live : ∀ b, ∀ p ∈ l b, nh.ents.live p = true
  hash : ∀ b, ∀ p ∈ l b, nhHash (nh.name p) nh.size = b
  once : ∀ b, ∀ p ∈ l b, ∀ q ∈ l b, nh.name p = nh.name q → p = q
  map : ∀ s v, m s = some v ↔ ∃ p ∈ l (nhHash s nh.size), nh.name p = s ∧ nh.child p = v
  absolute : ∀ s v, m s = some v → Canonical s

/-! ### Links -/

variable {fuel nh} {l : ℕ → List ℕ} {m : NameMap} {s : List Char} {b hash prev ent p q : ℕ}

theorem nhHash_lt (h : 0 < nh.size) : nhHash s nh.size < nh.size := h

namespace NameHash

@[simp] theorem name_setNext : (nh.setNext hash prev ent).name p = nh.name p := by
  unfold setNext
  split
  · rfl
  · exact Heap.modify_field (g := HashEnt.name) (f := fun e => { e with next := ent })
      (fun _ => rfl) p

@[simp] theorem child_setNext : (nh.setNext hash prev ent).child p = nh.child p := by
  unfold setNext
  split
  · rfl
  · exact Heap.modify_field (g := HashEnt.child) (f := fun e => { e with next := ent })
      (fun _ => rfl) p

@[simp] theorem size_setNext : (nh.setNext hash prev ent).size = nh.size := by
  unfold setNext
  split <;> rfl

@[simp] theorem live_setNext : (nh.setNext hash prev ent).ents.live = nh.ents.live := by
  unfold setNext
  split <;> rfl

theorem table_setNext : (nh.setNext hash prev ent).table b =
    if prev = 0 ∧ b = hash then ent else nh.table b := by
  unfold setNext
  by_cases hprev : prev = 0
  · simp [hprev, Function.update_apply]
  · simp [hprev]

theorem next_setNext : (nh.setNext hash prev ent).next p =
    if prev ≠ 0 ∧ p = prev then ent else nh.next p := by
  unfold setNext next
  by_cases hprev : prev = 0
  · simp [hprev]
  · by_cases hp : p = prev
    · simp [hprev, hp]
    · simp [hprev, hp, Heap.cell_modify_of_ne hp]

@[simp] theorem name_setChild {value : ℕ} : (nh.setChild ent value).name p = nh.name p := by
  unfold setChild
  exact Heap.modify_field (g := HashEnt.name) (f := fun e => { e with child := value })
    (fun _ => rfl) p

@[simp] theorem next_setChild {value : ℕ} : (nh.setChild ent value).next p = nh.next p := by
  unfold setChild
  exact Heap.modify_field (g := HashEnt.next) (f := fun e => { e with child := value })
    (fun _ => rfl) p

theorem child_setChild {value : ℕ} :
    (nh.setChild ent value).child p = if p = ent then value else nh.child p := by
  unfold setChild child
  by_cases hp : p = ent
  · simp [hp]
  · simp [hp, Heap.cell_modify_of_ne hp]

/-- What comes after a part of the list behind a slot is changed; the other lists stay. -/
theorem isChain_setNext {l₁ l₂ l₃ : List ℕ} (hchain : ∀ b, IsChain nh.next (nh.table b) (l b))
    (hdisjoint : ∀ b c, ∀ p ∈ l b, p ∈ l c → b = c) (hl : l hash = l₁ ++ l₂)
    (hprev : prev = l₁.getLast?.getD 0)
    (hrest : IsChain (nh.setNext hash prev ent).next ent l₃) (b : ℕ) :
    IsChain (nh.setNext hash prev ent).next ((nh.setNext hash prev ent).table b)
      (Function.update l hash (l₁ ++ l₃) b) := by
  have hmem : ∀ p, l₁.getLast? = some p → prev = p ∧ prev ≠ 0 := by
    intro p hp
    rw [hp, Option.getD_some] at hprev
    refine ⟨hprev, hprev ▸ (hchain hash).ne_zero ?_⟩
    rw [hl]
    exact List.mem_append_left l₂ (List.mem_of_getLast? hp)
  by_cases hb : b = hash
  · subst hb
    rw [Function.update_self]
    have hstart : (nh.setNext b prev ent).table b = if l₁ = [] then ent else nh.table b := by
      rw [table_setNext]
      by_cases hnil : l₁ = []
      · simp [hprev, hnil]
      · have hne := (hmem _ (List.getLast?_eq_some_getLast hnil)).2
        rw [if_neg fun h => hne h.1, if_neg hnil]
    rw [hstart]
    refine (hl ▸ hchain b).relink (fun p _ hlast => ?_) (fun p hlast => ?_) hrest
    · rw [next_setNext, if_neg]
      rintro ⟨hne, rfl⟩
      cases hlast' : l₁.getLast? with
      | none => exact hne (by rw [hprev, hlast', Option.getD_none])
      | some q => exact hlast ((hmem q hlast').1 ▸ hlast')
    · obtain ⟨rfl, hne⟩ := hmem p hlast
      rw [next_setNext, if_pos ⟨hne, rfl⟩]
  · rw [Function.update_of_ne hb, table_setNext, if_neg fun h => hb h.2]
    refine (hchain b).congr fun p hp => ?_
    rw [next_setNext, if_neg]
    rintro ⟨hne, rfl⟩
    -- `prev` is in the other list
    cases hlast : l₁.getLast? with
    | none => exact hne (by rw [hprev, hlast, Option.getD_none])
    | some q =>
      obtain ⟨rfl, -⟩ := hmem q hlast
      refine hb (hdisjoint b hash p hp ?_)
      rw [hl]
      exact List.mem_append_left l₂ (List.mem_of_getLast? hlast)

/-! ### The search -/

/-- **What the search finds**: the entry with the name, behind the entry before it; or nothing, and
the last entry. -/
theorem Holds.search (h : nh.Holds l m) (s : List Char)
    (hfuel : (l (nhHash s nh.size)).length < fuel) :
    (m s = none ∧ nhSearch fuel nh s = some ((l (nhHash s nh.size)).getLast?.getD 0, 0)) ∨
      ∃ l₁ ent l₂, l (nhHash s nh.size) = l₁ ++ ent :: l₂ ∧ ent ≠ 0 ∧ nh.name ent = s ∧
        m s = some (nh.child ent) ∧ nhSearch fuel nh s = some (l₁.getLast?.getD 0, ent) := by
  obtain ⟨l₁, l₂, ent, hl, hfront, hback, hent, hchase⟩ :=
    (h.chain (nhHash s nh.size)).chase (fun p => nh.name p = s) hfuel 0 0
  have hsearch : nhSearch fuel nh s = some (l₁.getLast?.getD 0, ent) := by
    unfold nhSearch
    dsimp only
    rw [if_pos (nhHash_lt h.slots), hchase, Option.map_some, lastTwo_snd]
  cases l₂ with
  | nil =>
    left
    rw [isChain_nil] at hent
    rw [List.append_nil] at hl
    rw [hl, hsearch, hent]
    refine ⟨Option.eq_none_iff_forall_ne_some.mpr fun v hv => ?_, rfl⟩
    obtain ⟨p, hp, hname, -⟩ := (h.map s v).mp hv
    rw [hl] at hp
    simpa [hname] using hfront p hp
  | cons p l₂ =>
    right
    obtain ⟨rfl, hne, -⟩ := hent
    have hname : nh.name ent = s := by
      simpa using hback ent rfl
    have hmem : ent ∈ l (nhHash s nh.size) := by
      rw [hl]
      simp
    exact ⟨l₁, ent, l₂, hl, hne, hname, (h.map s _).mpr ⟨ent, hmem, hname, rfl⟩, hsearch⟩

theorem Holds.disjoint (h : nh.Holds l m) (b c : ℕ) : ∀ p ∈ l b, p ∈ l c → b = c :=
  fun p hb hc => (h.hash b p hb).symm.trans (h.hash c p hc)

/-! ### The calls -/

variable {v : ℕ}

/-- The entries of a table after a name is put in. -/
theorem Holds.insert (h : nh.Holds l m) (hm : m s = none) (hs : Canonical s) {ents : Heap HashEnt}
    (halloc : nh.ents.alloc ent { next := 0, name := s, child := v } = some ents) (hent : ent ≠ 0)
    (hprev : prev = (l (nhHash s nh.size)).getLast?.getD 0) :
    ({ nh with ents := ents }.setNext (nhHash s nh.size) prev ent).Holds
      (Function.update l (nhHash s nh.size) (l (nhHash s nh.size) ++ [ent]))
      (Function.update m s (some v)) := by
  set nh₁ : NameHash := { nh with ents := ents } with hnh₁
  set b₀ := nhHash s nh.size
  have hold : ∀ b, ∀ p ∈ l b, p ≠ ent ∧ ents.live p = true ∧ ents.cell p = nh.ents.cell p :=
    fun b p hp => Heap.alloc_live halloc (h.live b p hp)
  have hcell : ents.cell ent = { next := 0, name := s, child := v } := Heap.cell_alloc_self halloc
  have hmem : ∀ b p, p ∈ Function.update l b₀ (l b₀ ++ [ent]) b ↔ p ∈ l b ∨ b = b₀ ∧ p = ent := by
    intro b p
    by_cases hb : b = b₀
    · subst hb
      simp
    · simp [hb]
  have hname : ∀ b, ∀ p ∈ l b, nh₁.name p = nh.name p := fun b p hp => by
    simp [hnh₁, name, (hold b p hp).2.2]
  have hname₀ : nh₁.name ent = s := congrArg HashEnt.name hcell
  -- no entry had the name
  have hnew : ∀ b, ∀ p ∈ l b, nh.name p ≠ s := by
    rintro b p hp rfl
    rw [← h.hash b p hp] at hp
    rw [(h.map _ _).mpr ⟨p, hp, rfl, rfl⟩] at hm
    cases hm
  refine ⟨?_, ?_, ?_, ?_, ?_, ?_, ?_⟩
  · rw [size_setNext]
    exact h.slots
  · refine isChain_setNext (fun b => (h.chain b).congr fun p hp => ?_) h.disjoint
      (List.append_nil _).symm hprev ⟨rfl, hent, ?_⟩
    · exact congrArg HashEnt.next (hold b p hp).2.2
    · rw [next_setNext, if_neg]
      · exact congrArg HashEnt.next hcell
      · rintro ⟨hne, rfl⟩
        cases hlast : (l b₀).getLast? with
        | none => exact hne (by rw [hprev, hlast, Option.getD_none])
        | some q =>
          rw [hlast, Option.getD_some] at hprev
          exact (hold b₀ q (List.mem_of_getLast? hlast)).1 hprev.symm
  · intro b p hp
    rw [live_setNext]
    rcases (hmem b p).mp hp with hp | ⟨-, rfl⟩
    · exact (hold b p hp).2.1
    · exact Heap.live_alloc_self halloc
  · intro b p hp
    rw [name_setNext, size_setNext]
    rcases (hmem b p).mp hp with hp | ⟨rfl, rfl⟩
    · rw [hname b p hp]
      exact h.hash b p hp
    · rw [hname₀]
  · intro b p hp q hq heq
    rw [name_setNext, name_setNext] at heq
    rcases (hmem b p).mp hp with hpl | ⟨-, rfl⟩
    · rw [hname b p hpl] at heq
      rcases (hmem b q).mp hq with hq | ⟨-, rfl⟩
      · rw [hname b q hq] at heq
        exact h.once b p hpl q hq heq
      · exact absurd (heq.trans hname₀) (hnew b p hpl)
    · rcases (hmem b q).mp hq with hq | ⟨-, rfl⟩
      · rw [hname b q hq, hname₀] at heq
        exact absurd heq.symm (hnew b q hq)
      · rfl
  · intro s' v'
    rw [size_setNext]
    simp only [name_setNext, child_setNext, hmem]
    by_cases hs' : s' = s
    · subst hs'
      rw [Function.update_self]
      constructor
      · rintro ⟨⟩
        exact ⟨ent, Or.inr ⟨rfl, rfl⟩, hname₀, congrArg HashEnt.child hcell⟩
      · rintro ⟨p, hp | ⟨-, rfl⟩, hps, rfl⟩
        · rw [hname _ p hp] at hps
          exact absurd hps (hnew _ p hp)
        · exact congrArg some (congrArg HashEnt.child hcell).symm
    · rw [Function.update_of_ne hs', h.map]
      constructor
      · rintro ⟨p, hp, hps, hpv⟩
        refine ⟨p, Or.inl hp, (hname _ p hp).trans hps, ?_⟩
        rw [← hpv]
        exact congrArg HashEnt.child (hold _ p hp).2.2
      · rintro ⟨p, hp | ⟨-, rfl⟩, hps, hpv⟩
        · refine ⟨p, hp, (hname _ p hp).symm.trans hps, ?_⟩
          rw [← hpv]
          exact (congrArg HashEnt.child (hold _ p hp).2.2).symm
        · exact absurd (hps.symm.trans hname₀) hs'
  · intro s' v' hs'
    by_cases heq : s' = s
    · exact heq ▸ hs
    · rw [Function.update_of_ne heq] at hs'
      exact h.absolute s' v' hs'

/-- The entries of a table after one is taken out. -/
theorem Holds.delete (h : nh.Holds l m) {l₁ l₂ : List ℕ}
    (hl : l (nhHash s nh.size) = l₁ ++ ent :: l₂)
    (hent : nh.name ent = s) (hprev : prev = l₁.getLast?.getD 0) :
    ({ nh.setNext (nhHash s nh.size) prev (nh.next ent) with
        ents := (nh.setNext (nhHash s nh.size) prev (nh.next ent)).ents.free ent } : NameHash).Holds
      (Function.update l (nhHash s nh.size) (l₁ ++ l₂)) (Function.update m s none) := by
  set b₀ := nhHash s nh.size
  set nh₁ := nh.setNext b₀ prev (nh.next ent) with hnh₁
  have hnodup : (l₁ ++ ent :: l₂).Nodup := hl ▸ (h.chain b₀).nodup
  have hmem₀ : ent ∈ l b₀ := by
    rw [hl]
    simp
  have hmem : ∀ b p, p ∈ Function.update l b₀ (l₁ ++ l₂) b ↔ p ∈ l b ∧ p ≠ ent := by
    intro b p
    by_cases hb : b = b₀
    · subst hb
      rw [Function.update_self, hl]
      have hout := List.perm_middle.nodup_iff.mp hnodup
      rw [List.nodup_cons] at hout
      constructor
      · intro hp
        exact ⟨by simp only [List.mem_append, List.mem_cons] at hp ⊢; tauto,
          fun heq => hout.1 (heq ▸ hp)⟩
      · rintro ⟨hp, hne⟩
        simp only [List.mem_append, List.mem_cons] at hp ⊢
        tauto
    · rw [Function.update_of_ne hb]
      refine ⟨fun hp => ⟨hp, ?_⟩, And.left⟩
      rintro rfl
      exact hb (h.disjoint b b₀ _ hp hmem₀)
  have hchain : ∀ b, IsChain nh₁.next (nh₁.table b) (Function.update l b₀ (l₁ ++ l₂) b) := by
    refine isChain_setNext h.chain h.disjoint hl hprev ?_
    obtain ⟨y, hlead, rfl, hne, hrest⟩ := isChain_append.mp (hl ▸ h.chain b₀)
    refine hrest.congr fun p hp => ?_
    rw [next_setNext, if_neg]
    rintro ⟨hne, rfl⟩
    cases hlast : l₁.getLast? with
    | none => exact hne (by rw [hprev, hlast, Option.getD_none])
    | some q =>
      rw [hlast, Option.getD_some] at hprev
      subst hprev
      exact (List.nodup_append.mp hnodup).2.2 _ (List.mem_of_getLast? hlast) _
        (List.mem_cons_of_mem _ hp) rfl
  refine ⟨?_, hchain, ?_, ?_, ?_, ?_, ?_⟩
  · rw [size_setNext]
    exact h.slots
  · intro b p hp
    obtain ⟨hp, hne⟩ := (hmem b p).mp hp
    change (nh₁.ents.free ent).live p = true
    rw [Heap.live_free_of_ne hne, live_setNext]
    exact h.live b p hp
  · intro b p hp
    obtain ⟨hp, -⟩ := (hmem b p).mp hp
    change nhHash (nh₁.name p) nh₁.size = b
    rw [name_setNext, size_setNext]
    exact h.hash b p hp
  · intro b p hp q hq heq
    change nh₁.name p = nh₁.name q at heq
    rw [name_setNext, name_setNext] at heq
    exact h.once b p ((hmem b p).mp hp).1 q ((hmem b q).mp hq).1 heq
  · intro s' v'
    change _ ↔ ∃ p ∈ Function.update l b₀ (l₁ ++ l₂) (nhHash s' nh₁.size),
      nh₁.name p = s' ∧ nh₁.child p = v'
    rw [size_setNext]
    simp only [hmem, hnh₁, name_setNext, child_setNext]
    by_cases hs' : s' = s
    · subst hs'
      rw [Function.update_self]
      refine iff_of_false nofun ?_
      rintro ⟨p, ⟨hp, hne⟩, hps, -⟩
      exact hne (h.once b₀ p hp ent hmem₀ (hps.trans hent.symm))
    · rw [Function.update_of_ne hs', h.map]
      constructor
      · rintro ⟨p, hp, hps, hpv⟩
        refine ⟨p, ⟨hp, ?_⟩, hps, hpv⟩
        rintro rfl
        exact hs' (hps.symm.trans hent)
      · rintro ⟨p, ⟨hp, -⟩, hps, hpv⟩
        exact ⟨p, hp, hps, hpv⟩
  · intro s' v' hs'
    by_cases heq : s' = s
    · rw [heq, Function.update_self] at hs'
      cases hs'
    · rw [Function.update_of_ne heq] at hs'
      exact h.absolute s' v' hs'

/-- The entries of a table after the value of one is changed. -/
theorem Holds.modify (h : nh.Holds l m) (hmem : ent ∈ l (nhHash s nh.size))
    (hent : nh.name ent = s) (hs : Canonical s) :
    (nh.setChild ent v).Holds l (Function.update m s (some v)) := by
  refine ⟨h.slots, fun b => (h.chain b).congr fun p _ => next_setChild, h.live, ?_, ?_, ?_, ?_⟩
  · intro b p hp
    rw [name_setChild]
    exact h.hash b p hp
  · intro b p hp q hq heq
    rw [name_setChild, name_setChild] at heq
    exact h.once b p hp q hq heq
  · intro s' v'
    change _ ↔ ∃ p ∈ l (nhHash s' nh.size), _
    simp only [name_setChild, child_setChild]
    by_cases hs' : s' = s
    · subst hs'
      rw [Function.update_self]
      constructor
      · rintro ⟨⟩
        exact ⟨ent, hmem, hent, if_pos rfl⟩
      · rintro ⟨p, hp, hps, rfl⟩
        rw [if_pos (h.once _ p hp ent hmem (hps.trans hent.symm))]
    · rw [Function.update_of_ne hs', h.map]
      refine exists_congr fun p => and_congr_right fun _ => and_congr_right fun hps => ?_
      rw [if_neg]
      rintro rfl
      exact hs' (hps.symm.trans hent)
  · intro s' v' hs'
    by_cases heq : s' = s
    · exact heq ▸ hs
    · rw [Function.update_of_ne heq] at hs'
      exact h.absolute s' v' hs'

end NameHash

variable {c : NhCall}

/-- **Every call does to the table what it is meant to do to the map**, and a call that fails leaves
the table as it is. -/
theorem nhCall_holds (h : nh.Holds l m) (hfuel : ∀ b, (l b).length < fuel)
    (hsupply : Supplied nh c) : ∃ r nh' l', nhCall fuel nh c = some (r, nh') ∧
      r = (m.call c).1 ∧ nh'.Holds l' (m.call c).2 ∧ (r.1 ≠ .ok → nh' = nh) ∧
        ∀ b, (l' b).length ≤ (l b).length + 1 := by
  obtain ⟨op, name, cwd⟩ := c
  obtain ⟨a, ha, hname, -, -⟩ := nhAbsolute_eq name cwd
  have hs := canonical_absoluteName name cwd
  have hsearch := h.search (absoluteName name cwd) (hfuel _)
  set b₀ := nhHash (absoluteName name cwd) nh.size with hb₀
  have hsame : ∀ b, (l b).length ≤ (l b).length + 1 := fun b => Nat.le_succ _
  have hupdate : ∀ l₀ : List ℕ, l₀.length ≤ (l b₀).length + 1 → ∀ b,
      (Function.update l b₀ l₀ b).length ≤ (l b).length + 1 := by
    intro l₀ hl₀ b
    by_cases hb : b = b₀
    · rw [hb, Function.update_self]
      exact hl₀
    · rw [Function.update_of_ne hb]
      exact hsame b
  cases op with
  | insert value enew =>
    obtain ⟨hne, hfree⟩ := hsupply enew rfl
    rcases hsearch with ⟨hm, hseek⟩ | ⟨l₁, ent, l₂, hl, hent, -, hm, hseek⟩
    · obtain ⟨ents, halloc⟩ : ∃ ents, nh.ents.alloc enew
          { next := 0, name := absoluteName name cwd, child := value } = some ents :=
        ⟨_, Heap.alloc_eq_some.mpr ⟨hfree, rfl⟩⟩
      have hcall : nhCall fuel nh ⟨.insert value enew, name, cwd⟩ = some ((.ok, none),
          { nh with ents := ents }.setNext b₀ ((l b₀).getLast?.getD 0) enew) := by
        simp only [nhCall, nhInsert, ha, hname, Option.bind_some, hseek, if_neg hne, halloc,
          Option.map_some, ne_eq, not_true_eq_false, if_false, hb₀]
      have hlen : (l b₀ ++ [enew]).length ≤ (l b₀).length + 1 := by
        simp
      simp only [NameMap.call, hm]
      exact ⟨_, _, _, hcall, rfl, h.insert hm hs halloc hne rfl, fun hfail => absurd rfl hfail,
        hupdate _ hlen⟩
    · have hcall : nhCall fuel nh ⟨.insert value enew, name, cwd⟩ = some ((.fail, none), nh) := by
        simp only [nhCall, nhInsert, ha, hname, Option.bind_some, hseek, if_pos hent,
          Option.map_some]
      simp only [NameMap.call, hm]
      exact ⟨_, _, l, hcall, rfl, h, fun _ => rfl, hsame⟩
  | modify value =>
    rcases hsearch with ⟨hm, hseek⟩ | ⟨l₁, ent, l₂, hl, hent, hent', hm, hseek⟩
    · have hcall : nhCall fuel nh ⟨.modify value, name, cwd⟩ = some ((.fail, none), nh) := by
        simp only [nhCall, nhModify, ha, hname, Option.bind_some, hseek, if_true, Option.map_some]
      simp only [NameMap.call, hm]
      exact ⟨_, _, l, hcall, rfl, h, fun _ => rfl, hsame⟩
    · have hmem : ent ∈ l b₀ := by
        rw [hl]
        simp
      have hcall : nhCall fuel nh ⟨.modify value, name, cwd⟩ =
          some ((.ok, none), nh.setChild ent value) := by
        simp only [nhCall, nhModify, ha, hname, Option.bind_some, hseek, if_neg hent,
          Option.map_some]
      simp only [NameMap.call, hm]
      exact ⟨_, _, l, hcall, rfl, h.modify hmem hent' hs, fun hfail => absurd rfl hfail, hsame⟩
  | delete =>
    rcases hsearch with ⟨hm, hseek⟩ | ⟨l₁, ent, l₂, hl, hent, hent', hm, hseek⟩
    · have hcall : nhCall fuel nh ⟨.delete, name, cwd⟩ = some ((.fail, none), nh) := by
        simp only [nhCall, nhDelete, ha, hname, Option.bind_some, hseek, if_true, Option.map_some]
      simp only [NameMap.call, hm]
      exact ⟨_, _, l, hcall, rfl, h, fun _ => rfl, hsame⟩
    · have hcall : nhCall fuel nh ⟨.delete, name, cwd⟩ = some ((.ok, none),
          { nh.setNext b₀ (l₁.getLast?.getD 0) (nh.next ent) with
            ents := (nh.setNext b₀ (l₁.getLast?.getD 0) (nh.next ent)).ents.free ent }) := by
        simp only [nhCall, nhDelete, ha, hname, Option.bind_some, hseek, if_neg hent,
          Option.map_some, hb₀]
      have hlen : (l₁ ++ l₂).length ≤ (l b₀).length + 1 := by
        rw [hl]
        simp only [List.length_append, List.length_cons]
        omega
      simp only [NameMap.call, hm]
      exact ⟨_, _, _, hcall, rfl, h.delete hl hent' rfl, fun hfail => absurd rfl hfail,
        hupdate _ hlen⟩
  | find =>
    rcases hsearch with ⟨hm, hseek⟩ | ⟨l₁, ent, l₂, hl, hent, hent', hm, hseek⟩
    · have hcall : nhCall fuel nh ⟨.find, name, cwd⟩ = some ((.fail, none), nh) := by
        simp only [nhCall, nhFind, ha, hname, Option.bind_some, hseek, if_true, Option.map_some]
      simp only [NameMap.call, hm]
      exact ⟨_, _, l, hcall, rfl, h, fun _ => rfl, hsame⟩
    · have hcall : nhCall fuel nh ⟨.find, name, cwd⟩ =
          some ((.ok, some (nh.child ent)), nh) := by
        simp only [nhCall, nhFind, ha, hname, Option.bind_some, hseek, if_neg hent,
          Option.map_some]
      simp only [NameMap.call, hm]
      exact ⟨_, _, l, hcall, rfl, h, fun _ => rfl, hsame⟩

/-! ### Runs of calls -/

theorem NameMap.after_concat (m : NameMap) (calls : List NhCall) (c : NhCall) :
    m.after (calls ++ [c]) = ((m.after calls).call c).2 := by
  unfold NameMap.after
  rw [List.foldl_append]
  rfl

/-- A new table stands for the empty map. -/
theorem holds_nhInit {entries : ℕ} (h : 0 < entries) (ents : Heap HashEnt) :
    (nhInit entries ents).Holds (fun _ => []) fun _ => none where
  slots := h
  chain _ := rfl
  live _ _ hp := absurd hp List.not_mem_nil
  hash _ _ hp := absurd hp List.not_mem_nil
  once _ _ hp := absurd hp List.not_mem_nil
  map _ _ := iff_of_false nofun fun ⟨_, hp, _⟩ => absurd hp List.not_mem_nil
  absolute _ _ hm := nomatch hm

/-- What calls make of a table, and of the map. -/
theorem nhRun_holds {entries : ℕ} (hentries : 0 < entries) {ents : Heap HashEnt}
    (calls : List NhCall) (hfuel : calls.length < fuel)
    (hsupply : Along (nhStep fuel) Supplied (nhInit entries ents) calls) :
    ∃ nh l, run (nhStep fuel) (nhInit entries ents) calls = some nh ∧
      nh.Holds l (NameMap.after (fun _ => none) calls) ∧ ∀ b, (l b).length ≤ calls.length := by
  induction calls using List.reverseRecOn with
  | nil =>
    exact ⟨_, _, rfl, holds_nhInit hentries ents, fun _ => le_rfl⟩
  | append_singleton calls c ih =>
    rw [List.length_append, List.length_singleton] at hfuel
    obtain ⟨nh, l, hrun, hholds, hlen⟩ := ih (Nat.lt_of_succ_lt hfuel) hsupply.left
    obtain ⟨r, nh', l', hcall, -, hholds', -, hlen'⟩ := nhCall_holds hholds
      (fun b => (hlen b).trans_lt (Nat.lt_of_succ_lt hfuel)) (hsupply.at hrun)
    refine ⟨nh', l', ?_, ?_, fun b => (hlen' b).trans ?_⟩
    · rw [run_concat, hrun, Option.bind_some, nhStep, hcall, Option.map_some]
    · rw [NameMap.after_concat]
      exact hholds'
    · rw [List.length_append]
      exact Nat.succ_le_succ (hlen b)

/-- A heap with nothing in it. -/
def emptyEnts : Heap HashEnt where
  cell _ := { next := 0, name := [], child := 0 }
  live _ := false

/-- Two names are put in, and one is taken out again. -/
def threeCalls : List NhCall :=
  [⟨.insert 7 1, ['a', '/', '.', '.', '/', 'b'], ['/', 'x']⟩, ⟨.insert 8 2, ['/', 'c'], []⟩,
    ⟨.delete, ['.', '/', 'c'], ['/']⟩]

end Mungi.Naming
