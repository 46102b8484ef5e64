import Mungi.Lib.Numerals
import Mungi.Lib.Runs

/-!
# Entry points

The procedures of a component are found by name.  `pax_cl_set_entry_pt` and `pax_cl_get_entry_pt`
(`paxlib.c`) print the class, the interface and the method into a name, and the name server keeps
the address under it (`nameserver.c`): in the first entry with no address, and there are twenty.
A name that is there already is not looked for, so that the address that was registered first is the
one that is found.

A failed assertion gives no result.

## Main definitions

* `nameserverGet`, `nameserverSet` — the name server.
* `paxClGetEntryPt`, `paxClSetEntryPt` — entry points.
* `paxRegmapRegisterComponents`, `rmEntries` — the registration map.

## Main results

* `entryName_inj` — different methods have different names.
* `entryPts_run` — **what is found after any registrations, and when there is space for them.**
-/

namespace Mungi.Component

open Numerals Runs

/-! ### The code -/

/-- An entry of `ns_name` and `ns_value`. -/
structure NsSlot where
  name : List Char
  value : BitVec 64

/-- `MAX_ENTRIES` -/
def maxEntries : ℕ := 20

/-- `ns_name` and `ns_value` in the beginning. -/
def nameserverInit : List NsSlot :=
  [⟨['H', 'e', 'l', 'l', 'o'], 0⟩, ⟨['T', 'h', 'e', 'r', 'e'], 0⟩,
    ⟨['A', 'n', 't', 'o', 'n', 'y'], 0⟩] ++ List.replicate 17 ⟨[], 0⟩

/-- `nameserver_get`: what is in `data1` of its result. -/
def nameserverGet (name : List Char) : List NsSlot → BitVec 64
  | [] => 0
  | e :: l =>
    if e.value ≠ 0 then
      if e.name = name then e.value else nameserverGet name l
    else nameserverGet name l

/-- `nameserver_set`, of a name that is shorter than `MAX_NAME_SIZE`; nothing where it raises an
exception. -/
def nameserverSet (name : List Char) (value : BitVec 64) : List NsSlot → Option (List NsSlot)
  | [] => none
  | e :: l =>
    if e.value = 0 then some (⟨name, value⟩ :: l) else (nameserverSet name value l).map (e :: ·)

/-- A number as `sprintf` prints it in hexadecimal, with `n` digits. -/
def hex (n v : ℕ) : List Char := digits 16 Nat.digitChar n v

/-- The name of an entry point: `"%016lx_%016lx_%04hx"`. -/
def entryName (cid iid : BitVec 64) (mid : BitVec 16) : List Char :=
  hex 16 cid.toNat ++ '_' :: (hex 16 iid.toNat ++ '_' :: hex 4 mid.toNat)

/-- What is given to `pax_cl_set_entry_pt`. -/
structure EntryPt where
  cid : BitVec 64
  iid : BitVec 64
  mid : BitVec 16
  epr : BitVec 64

/-- `pax_cl_set_entry_pt` -/
def paxClSetEntryPt (slots : List NsSlot) (e : EntryPt) : Option (List NsSlot) :=
  nameserverSet (entryName e.cid e.iid e.mid) e.epr slots

/-- `pax_cl_get_entry_pt` -/
def paxClGetEntryPt (cid iid : BitVec 64) (mid : BitVec 16) (slots : List NsSlot) :
    Option (BitVec 64) :=
  if nameserverGet (entryName cid iid mid) slots = 0 then none
  else some (nameserverGet (entryName cid iid mid) slots)

/-- `cmpt_reg_desc_t`: whether the flags have `PREG_NO_REGISTER`, and the entries for entry
points. -/
structure CmptRegDesc where
  noRegister : Bool
  entries : List EntryPt

/-- What `pax_register_component` does at the name server. -/
def paxRegisterComponent (slots : List NsSlot) (d : CmptRegDesc) : Option (List NsSlot) :=
  if d.noRegister then some slots else run paxClSetEntryPt slots d.entries

/-- What `pax_regmap_register_components` does at the name server. -/
def paxRegmapRegisterComponents (slots : List NsSlot) (cmpts : List CmptRegDesc) :
    Option (List NsSlot) :=
  run paxRegisterComponent slots cmpts

/-! ### Names -/

theorem digitChar_inj : ∀ i < 16, ∀ j < 16, Nat.digitChar i = Nat.digitChar j → i = j := by decide

theorem hex_inj {w n : ℕ} (hw : 2 ^ w = 16 ^ n) {x y : BitVec w}
    (h : hex n x.toNat = hex n y.toNat) : x = y := by
  have hmod := (digits_eq_iff (by decide) digitChar_inj).mp h
  rw [← hw, Nat.mod_eq_of_lt x.isLt, Nat.mod_eq_of_lt y.isLt] at hmod
  exact BitVec.eq_of_toNat_eq hmod

/-- Different methods have different names. -/
theorem entryName_inj {cid cid' iid iid' : BitVec 64} {mid mid' : BitVec 16}
    (h : entryName cid iid mid = entryName cid' iid' mid') :
    cid = cid' ∧ iid = iid' ∧ mid = mid' := by
  have hlen : ∀ v w, (hex 16 v).length = (hex 16 w).length := fun v w => by simp [hex]
  obtain ⟨hcid, hrest⟩ := List.append_inj h (hlen _ _)
  obtain ⟨hiid, hmid⟩ := List.append_inj (List.cons.inj hrest).2 (hlen _ _)
  exact ⟨hex_inj (by decide) hcid, hex_inj (by decide) hiid,
    hex_inj (by decide) (List.cons.inj hmid).2⟩

/-! ### Registrations -/

/-- The entries in front are in use, and the others are not. -/
structure Filled (slots used : List NsSlot) : Prop where
  /-- There are `MAX_ENTRIES`. -/
  length : slots.length = maxEntries
  split : ∃ free, slots = used ++ free ∧ ∀ e ∈ free, e.value = 0
  used : ∀ e ∈ used, e.value ≠ 0

theorem filled_nameserverInit : Filled nameserverInit [] := by
  refine ⟨rfl, ⟨nameserverInit, rfl, ?_⟩, fun e he => absurd he List.not_mem_nil⟩
  decide

variable {slots used : List NsSlot} {name : List Char} {value : BitVec 64}

theorem nameserverSet_append (hused : ∀ e ∈ used, e.value ≠ 0) (free : List NsSlot) :
    nameserverSet name value (used ++ free) = (nameserverSet name value free).map (used ++ ·) := by
  induction used with
  | nil => simp
  | cons e used ih =>
    rw [List.cons_append, nameserverSet, if_neg (hused e List.mem_cons_self),
      ih fun x hx => hused x (List.mem_cons_of_mem e hx), Option.map_map]
    rfl

/-- A registration goes to the first entry that is not in use. -/
theorem Filled.set (h : Filled slots used) (hspace : used.length < maxEntries) (name : List Char)
    (value : BitVec 64) :
    ∃ slots', nameserverSet name value slots = some slots' ∧
      Filled slots' (if value ≠ 0 then used ++ [⟨name, value⟩] else used) := by
  obtain ⟨free, rfl, hfree⟩ := h.split
  have hlen := h.length
  rw [List.length_append] at hlen
  obtain ⟨e, free, rfl⟩ := List.exists_cons_of_length_pos (show 0 < free.length by omega)
  rw [nameserverSet_append h.used, nameserverSet, if_pos (hfree e List.mem_cons_self)]
  have hlen' : (used ++ ⟨name, value⟩ :: free).length = maxEntries := by
    rw [← h.length]
    simp
  have hrest : ∀ x ∈ free, x.value = 0 := fun x hx => hfree x (List.mem_cons_of_mem e hx)
  refine ⟨_, rfl, ?_⟩
  by_cases hvalue : value = 0
  · rw [if_neg (not_not.mpr hvalue)]
    refine ⟨hlen', ⟨⟨name, value⟩ :: free, rfl, fun x hx => ?_⟩, h.used⟩
    rcases List.mem_cons.mp hx with rfl | hx
    · exact hvalue
    · exact hrest x hx
  · rw [if_pos hvalue]
    refine ⟨hlen', ⟨free, by simp, hrest⟩, fun x hx => ?_⟩
    rcases List.mem_append.mp hx with hx | hx
    · exact h.used x hx
    · obtain rfl := List.mem_singleton.mp hx
      exact hvalue

/-- Where all entries are in use there is an exception. -/
theorem Filled.set_full (h : Filled slots used) (hfull : maxEntries ≤ used.length)
    (name : List Char) (value : BitVec 64) :
    nameserverSet name value slots = none := by
  obtain ⟨free, rfl, -⟩ := h.split
  have hlen := h.length
  rw [List.length_append] at hlen
  obtain rfl := List.eq_nil_of_length_eq_zero (show free.length = 0 by omega)
  rw [nameserverSet_append h.used]
  rfl

/-- The first entry with the name is found. -/
theorem Filled.get (h : Filled slots used) :
    nameserverGet name slots = ((used.find? (·.name = name)).map NsSlot.value).getD 0 := by
  obtain ⟨free, rfl, hfree⟩ := h.split
  have hnone : nameserverGet name free = 0 := by
    clear h
    induction free with
    | nil => rfl
    | cons e free ih =>
      rw [nameserverGet, if_neg (not_not.mpr (hfree e List.mem_cons_self))]
      exact ih fun x hx => hfree x (List.mem_cons_of_mem e hx)
  have hused := h.used
  clear h
  induction used with
  | nil => exact hnone
  | cons e used ih =>
    rw [List.cons_append, nameserverGet, if_pos (hused e List.mem_cons_self)]
    by_cases hname : e.name = name
    · rw [if_pos hname, List.find?_cons_of_pos (by simpa using hname)]
      rfl
    · rw [if_neg hname, List.find?_cons_of_neg (by simpa using hname)]
      exact ih fun x hx => hused x (List.mem_cons_of_mem e hx)

/-- The entry that a registration is kept in. -/
def EntryPt.slot (e : EntryPt) : NsSlot := ⟨entryName e.cid e.iid e.mid, e.epr⟩

/-- The entries that are in use after registrations. -/
def entriesOf (calls : List EntryPt) : List NsSlot :=
  (calls.filter (·.epr ≠ 0)).map EntryPt.slot

theorem entriesOf_concat (calls : List EntryPt) (e : EntryPt) : entriesOf (calls ++ [e]) =
    if e.epr ≠ 0 then entriesOf calls ++ [e.slot] else entriesOf calls := by
  unfold entriesOf
  rw [List.filter_append, List.map_append]
  by_cases he : e.epr = 0
  · rw [if_neg (not_not.mpr he), List.filter_cons_of_neg (by simpa using he), List.filter_nil]
    simp
  · rw [if_pos he, List.filter_cons_of_pos (by simpa using he), List.filter_nil]
    rfl

/-- Registrations one after the other. -/
theorem filled_run {calls : List EntryPt}
    (h : run paxClSetEntryPt nameserverInit calls = some slots) :
    Filled slots (entriesOf calls) := by
  refine run_induction (C := fun calls slots => Filled slots (entriesOf calls))
    filled_nameserverInit (fun calls slots e slots' _ hfilled hset => ?_) calls slots h
  by_cases hspace : (entriesOf calls).length < maxEntries
  · obtain ⟨slots₁, hslots₁, hfilled₁⟩ := hfilled.set hspace e.slot.name e.slot.value
    obtain rfl := Option.some.inj (hslots₁.symm.trans hset)
    rw [entriesOf_concat]
    exact hfilled₁
  · have hnone := hfilled.set_full (Nat.le_of_not_lt hspace) e.slot.name e.slot.value
    cases hnone.symm.trans hset

/-- The first registration of a method is found. -/
theorem Filled.entryPt {calls : List EntryPt} (h : Filled slots (entriesOf calls))
    (cid iid : BitVec 64) (mid : BitVec 16) : paxClGetEntryPt cid iid mid slots =
      (calls.find? fun e => e.cid = cid ∧ e.iid = iid ∧ e.mid = mid ∧ e.epr ≠ 0).map
        EntryPt.epr := by
  unfold paxClGetEntryPt
  rw [h.get]
  clear h
  induction calls with
  | nil => rfl
  | cons e calls ih =>
    by_cases hvalue : e.epr = 0
    · have hskip : entriesOf (e :: calls) = entriesOf calls := by
        unfold entriesOf
        rw [List.filter_cons_of_neg (by simpa using hvalue)]
      rw [hskip, List.find?_cons_of_neg (by simp [hvalue])]
      exact ih
    · have hcons : entriesOf (e :: calls) = e.slot :: entriesOf calls := by
        unfold entriesOf
        rw [List.filter_cons_of_pos (by simpa using hvalue), List.map_cons]
      rw [hcons]
      by_cases hname : e.slot.name = entryName cid iid mid
      · obtain ⟨hcid, hiid, hmid⟩ := entryName_inj hname
        rw [List.find?_cons_of_pos (by simpa using hname),
          List.find?_cons_of_pos (by
            rw [decide_eq_true_eq]
            exact ⟨hcid, hiid, hmid, hvalue⟩)]
        exact if_neg hvalue
      · have hother : ¬ (e.cid = cid ∧ e.iid = iid ∧ e.mid = mid ∧ e.epr ≠ 0) := by
          rintro ⟨rfl, rfl, rfl, -⟩
          exact hname rfl
        rw [List.find?_cons_of_neg (by simpa using hname),
          List.find?_cons_of_neg (by simpa using hother)]
        exact ih

/-- **Entry points.**  Registrations succeed just if fewer than twenty addresses, not counting the
null ones, were registered before the last of them; and then the address that is found for a method
is the first one that was registered for it. -/
theorem entryPts_run (calls : List EntryPt) :
    ((run paxClSetEntryPt nameserverInit calls).isSome ↔
        (calls.dropLast.filter (·.epr ≠ 0)).length < maxEntries) ∧
      ∀ slots, run paxClSetEntryPt nameserverInit calls = some slots → ∀ cid iid mid,
        paxClGetEntryPt cid iid mid slots =
          (calls.find? fun e => e.cid = cid ∧ e.iid = iid ∧ e.mid = mid ∧ e.epr ≠ 0).map
            EntryPt.epr := by
  refine ⟨?_, fun slots h => (filled_run h).entryPt⟩
  induction calls using List.reverseRecOn with
  | nil => simp [maxEntries]
  | append_singleton calls e ih =>
    have hlength : (entriesOf calls).length = (calls.filter (·.epr ≠ 0)).length := by
      simp [entriesOf]
    rw [run_concat, List.dropLast_concat]
    cases hrun : run paxClSetEntryPt nameserverInit calls with
    | none =>
      -- there was no space before
      rw [hrun] at ih
      have hmany : ¬ (calls.dropLast.filter (·.epr ≠ 0)).length < maxEntries := by simpa using ih
      have hle : (calls.dropLast.filter (·.epr ≠ 0)).length ≤ (calls.filter (·.epr ≠ 0)).length :=
        ((List.dropLast_sublist calls).filter _).length_le
      simp only [Option.bind_none, Option.isSome_none, Bool.false_eq_true, false_iff]
      omega
    | some slots =>
      have hfilled := filled_run hrun
      rw [Option.bind_some, ← hlength]
      constructor
      · intro hsome
        by_contra hfull
        unfold paxClSetEntryPt at hsome
        rw [hfilled.set_full (Nat.le_of_not_lt hfull)] at hsome
        cases hsome
      · intro hspace
        obtain ⟨slots', hset, -⟩ := hfilled.set hspace e.slot.name e.slot.value
        exact Option.isSome_iff_exists.mpr ⟨slots', hset⟩

/-- A method that is registered twice, and another one. -/
def registeredTwice : List EntryPt :=
  [⟨0x370100, 0x69, 101, 32⟩, ⟨0x370100, 0x69, 102, 48⟩, ⟨0x370100, 0x69, 101, 64⟩]

/-- The first address is the one that is found. -/
theorem entryPts_run_registeredTwice :
    ∃ slots, run paxClSetEntryPt nameserverInit registeredTwice = some slots ∧
      paxClGetEntryPt 0x370100 0x69 101 slots = some 32 := by
  obtain ⟨hspace, hfound⟩ := entryPts_run registeredTwice
  obtain ⟨slots, hslots⟩ := Option.isSome_iff_exists.mp (hspace.mpr (by decide))
  exact ⟨slots, hslots, hfound slots hslots 0x370100 0x69 101⟩

end Mungi.Component
