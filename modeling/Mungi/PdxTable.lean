import Mathlib.Data.List.Nodup
import Mungi.Lib.ForLoop
import Mungi.Security

/-!
# The PDX table

The PDX passwords of an object (`object_pdx`).  Each has a Clist and some entry points;
these lie one behind the other in one array for the whole table.  What the table is for is a
list of registrations in the order of their slots.  When a password is removed from a full
table, the slots move up with what lies behind the last one, and that is the next array.

## Main definitions

* `killPdxSlot`, `setPdxSlot`, `objectPdx`, `objectPdxGetClist` — the functions.
* `PdxRow`, `pdxInsert` — the list of registrations, and a call of `object_pdx` on it.
* `PdxRows`, `PdxRep` — a table holds a list of registrations.

## Main results

* `killPdxSlot_rows`, `setPdxSlot_rows` — what the two functions do to the list.
* `objectPdx_rep` — **`object_pdx` is `pdxInsert`.**
-/

namespace Mungi

open ForLoop SearchLoop

/-- `O_MAX_PDX` -/
def oMaxPdx : ℕ := 16

/-- `O_MAX_ENTPT` -/
def oMaxEntpt : ℕ := 192

/-! ### The code -/

/-- A call of `object_pdx`. -/
structure PdxCall where
  passwd : ℕ
  clist : Cap
  entrypts : List ℕ
  /-- `sys_object_pdx` checks it. -/
  nEntrypt_le : entrypts.length ≤ oMaxEntpt

namespace PdxData

/-! Element `O_MAX_PDX` of an array is the beginning of the next one. -/

def nEntryAt (pdx : PdxData) (i : ℤ) : ℤ := if i = oMaxPdx then pdx.xEntry 0 else pdx.nEntry i

def xEntryAt (pdx : PdxData) (i : ℤ) : ℤ :=
  if i = oMaxPdx then Int.bmod (pdx.entry 0) (2 ^ 32) else pdx.xEntry i

def clistAt (pdx : PdxData) (i : ℤ) : Cap :=
  if i = oMaxPdx then ⟨pdx.passwd 0, pdx.passwd 1⟩ else pdx.clist i

/-- The first of two integers is the low half of the word. -/
def passwdAt (pdx : PdxData) (i : ℤ) : ℕ :=
  if i = oMaxPdx then (pdx.nEntry 0 % 2 ^ 32 + pdx.nEntry 1 % 2 ^ 32 * 2 ^ 32).toNat
  else pdx.passwd i

end PdxData

/-- The body of the second loop of `kill_pdx_slot`. -/
def killPdxStep (diff : ℤ) (i : ℤ) (pdx : PdxData) : PdxData :=
  { pdx with
    nEntry := Function.update pdx.nEntry i (pdx.nEntryAt (i + 1) - diff)
    xEntry := Function.update pdx.xEntry i (pdx.xEntryAt (i + 1) - diff)
    clist := Function.update pdx.clist i (pdx.clistAt (i + 1))
    passwd := Function.update pdx.passwd i (pdx.passwdAt (i + 1)) }

/-- `kill_pdx_slot`; no result when the assertion fails. -/
def killPdxSlot (slot : ℤ) (info : ObjInfo) : Option ObjInfo :=
  if ¬ (0 ≤ slot ∧ slot < oMaxPdx) then none
  else
    let diff := info.pdx.xEntry slot - info.pdx.nEntry slot
    let lo := info.pdx.nEntry slot
    let entry := forUp (fun i entry => Function.update entry i (entry (i + diff))) lo
      (oMaxEntpt - diff - lo).toNat info.pdx.entry
    let pdx := forUp (killPdxStep diff) slot (info.nPdx - slot).toNat { info.pdx with entry }
    some { info with nPdx := info.nPdx - 1, pdx }

/-- The loop of `set_pdx_slot`, which stops at an entry point that is not in the object:
whether it gets to the end, and the entry points. -/
def copyEntrypts (obj : Obj) : List ℕ → ℤ → (ℤ → ℕ) → Bool × (ℤ → ℕ)
  | [], _, entry => (true, entry)
  | e :: entrypts, j, entry =>
    if e < obj.base ∨ e > obj.limit then (false, entry)
    else copyEntrypts obj entrypts (j + 1) (Function.update entry j e)

/-- `set_pdx_slot` -/
def setPdxSlot (slot : ℤ) (call : PdxCall) (obj : Obj) : Bool × Obj :=
  let info := obj.info
  let next := if slot = 0 then 0 else info.pdx.xEntry (slot - 1)
  let limit := next + call.entrypts.length
  if limit ≥ oMaxEntpt then (false, obj)
  else
    let r := copyEntrypts obj call.entrypts next info.pdx.entry
    let pdx := { info.pdx with entry := r.2 }
    if ¬ r.1 then (false, { obj with info := { info with pdx } })
    else
      (true, { obj with
        info :=
          { info with
            nPdx := info.nPdx + 1
            pdx :=
              { pdx with
                nEntry := Function.update pdx.nEntry slot next
                xEntry := Function.update pdx.xEntry slot limit
                clist := Function.update pdx.clist slot call.clist
                passwd := Function.update pdx.passwd slot call.passwd } } })

/-- The loop of `object_pdx` that removes the password. -/
def dropPdx (info : ObjInfo) (passwd : ℕ) : Option ObjInfo :=
  match findUp (fun i => if info.pdx.passwd i = passwd then some i else none) 0 info.nPdx with
  | some i => killPdxSlot i info
  | none => some info

/-- `object_pdx`: whether it succeeds, and the object. -/
def objectPdx (obj : Obj) (call : PdxCall) : Option (Bool × Obj) :=
  (dropPdx obj.info call.passwd).map fun info =>
    let slot : ℤ := info.nPdx
    if slot ≥ oMaxPdx then (false, { obj with info })
    else if call.entrypts = [] then (true, { obj with info })
    else setPdxSlot slot call { obj with info }

/-- `object_pdx_get_clist` -/
def objectPdxGetClist (obj : Obj) (proc passwd : ℕ) : Cap :=
  let pdx := obj.info.pdx
  forUp (fun i clist =>
    if pdx.passwd i = passwd then
      (findUp (fun j => if proc = pdx.entry j then some ⟨(pdx.clist i).address, passwd⟩ else none)
        (pdx.nEntry i) (pdx.xEntry i - pdx.nEntry i).toNat).getD clist
    else clist) 0 oMaxPdx Cap.null

/-! ### The list of registrations -/

/-- A PDX password with its Clist and entry points. -/
structure PdxRow where
  passwd : ℕ
  clist : Cap
  entries : List ℕ

/-- The number of entry points of a list of registrations. -/
def pdxTotal (rows : List PdxRow) : ℕ := (rows.map fun row => row.entries.length).sum

@[simp] theorem pdxTotal_nil : pdxTotal [] = 0 := rfl

@[simp] theorem pdxTotal_cons (row : PdxRow) (rows : List PdxRow) :
    pdxTotal (row :: rows) = row.entries.length + pdxTotal rows := by
  simp [pdxTotal]

@[simp] theorem pdxTotal_append (rows rows' : List PdxRow) :
    pdxTotal (rows ++ rows') = pdxTotal rows + pdxTotal rows' := by
  simp [pdxTotal]

/-- The registrations for other passwords. -/
def pdxOthers (rows : List PdxRow) (passwd : ℕ) : List PdxRow :=
  rows.filter fun row => row.passwd ≠ passwd

/-- A call of `object_pdx` on a list of registrations: the one for the password is removed,
and a new one added at the end if there is room and the entry points lie in the object. -/
def pdxInsert (base limit : ℕ) (rows : List PdxRow) (call : PdxCall) : Bool × List PdxRow :=
  let others := pdxOthers rows call.passwd
  if others.length ≥ oMaxPdx then (false, others)
  else if call.entrypts = [] then (true, others)
  else if pdxTotal others + call.entrypts.length < oMaxEntpt ∧
      ∀ e ∈ call.entrypts, base ≤ e ∧ e ≤ limit then
    (true, others ++ [⟨call.passwd, call.clist, call.entrypts⟩])
  else (false, others)

/-- Slot `i` holds a registration whose entry points begin at `start`. -/
structure PdxData.Holds (pdx : PdxData) (i : ℤ) (start : ℕ) (row : PdxRow) : Prop where
  passwd : pdx.passwd i = row.passwd
  clist : pdx.clist i = row.clist
  nEntry : pdx.nEntry i = start
  xEntry : pdx.xEntry i = start + row.entries.length
  entry : ∀ (j : ℕ) (hj : j < row.entries.length), pdx.entry (start + j) = row.entries[j]

/-- The slots hold the registrations, one behind the other. -/
structure PdxRows (info : ObjInfo) (rows : List PdxRow) : Prop where
  nPdx : info.nPdx = rows.length
  le : rows.length ≤ oMaxPdx
  total_lt : pdxTotal rows < oMaxEntpt
  nodup : (rows.map PdxRow.passwd).Nodup
  nonempty : ∀ row ∈ rows, row.entries ≠ []
  slot : ∀ l row l', rows = l ++ row :: l' → info.pdx.Holds l.length (pdxTotal l) row

/-- The slots of a table that are not in use have no entry points. -/
def ObjInfo.Stale (info : ObjInfo) : Prop :=
  ∀ i : ℤ, info.nPdx ≤ i → i < oMaxPdx → info.pdx.xEntry i ≤ info.pdx.nEntry i

/-! ### Removing a registration -/

/-- What the second loop of `kill_pdx_slot` does to the slots: those from `slot` on move up,
and the others stay. -/
structure SlotsMoved (diff slot : ℤ) (m : ℕ) (pdx pdx' : PdxData) : Prop where
  entry : pdx'.entry = pdx.entry
  stay : ∀ i, i < slot ∨ slot + m ≤ i → pdx'.nEntry i = pdx.nEntry i ∧
    pdx'.xEntry i = pdx.xEntry i ∧ pdx'.clist i = pdx.clist i ∧ pdx'.passwd i = pdx.passwd i
  move : ∀ i, slot ≤ i → i < slot + m → i + 1 ≠ oMaxPdx →
    pdx'.nEntry i = pdx.nEntry (i + 1) - diff ∧ pdx'.xEntry i = pdx.xEntry (i + 1) - diff ∧
      pdx'.clist i = pdx.clist (i + 1) ∧ pdx'.passwd i = pdx.passwd (i + 1)

theorem forUp_killPdxStep (diff slot : ℤ) (m : ℕ) (pdx : PdxData) :
    SlotsMoved diff slot m pdx (forUp (killPdxStep diff) slot m pdx) := by
  induction m with
  | zero =>
    refine ⟨rfl, fun i _ => ⟨rfl, rfl, rfl, rfl⟩, fun i h₁ h₂ => ?_⟩
    omega
  | succ m ih =>
    rw [forUp_succ]
    refine ⟨ih.entry, fun i hi => ?_, fun i h₁ h₂ hlast => ?_⟩
    · have hne : i ≠ slot + m := by omega
      simp only [killPdxStep, Function.update_of_ne hne]
      exact ih.stay i (by omega)
    · by_cases hi : i = slot + m
      · -- the slot moved last has not been touched before
        subst hi
        simp only [killPdxStep, Function.update_self, PdxData.nEntryAt, PdxData.xEntryAt,
          PdxData.clistAt, PdxData.passwdAt, if_neg hlast]
        obtain ⟨hn, hx, hc, hp⟩ := ih.stay (slot + m + 1) (by omega)
        rw [hn, hx, hc, hp]
        exact ⟨rfl, rfl, rfl, rfl⟩
      · simp only [killPdxStep, Function.update_of_ne hi]
        exact ih.move i h₁ (by omega) hlast

/-- An element of a list is in its first or its second part. -/
theorem append_eq_append_cons {α : Type*} {l l' a b : List α} {x : α}
    (h : l ++ l' = a ++ x :: b) :
    (∃ m, l = a ++ x :: m ∧ b = m ++ l') ∨ ∃ m, a = l ++ m ∧ l' = m ++ x :: b := by
  rcases List.append_eq_append_iff.mp h with ⟨m, ha, hl'⟩ | ⟨m, hl, hx⟩
  · exact Or.inr ⟨m, ha, hl'⟩
  · cases m with
    | nil => exact Or.inr ⟨[], by rw [hl, List.append_nil, List.append_nil], hx.symm⟩
    | cons y m =>
      obtain ⟨rfl, rfl⟩ := List.cons.inj hx
      exact Or.inl ⟨m, hl, rfl⟩

/-- **`kill_pdx_slot` removes a registration** and closes the gap.  If the table was full,
the last slot is left with what lies behind the arrays. -/
theorem killPdxSlot_rows {info : ObjInfo} {l l' : List PdxRow} {row : PdxRow}
    (h : PdxRows info (l ++ row :: l')) :
    ∃ info', killPdxSlot l.length info = some info' ∧ PdxRows info' (l ++ l') ∧
      info' = { info with nPdx := info'.nPdx, pdx := info'.pdx } ∧
      (info.nPdx < oMaxPdx → info.Stale → info'.Stale) := by
  have hrow := h.slot l row l' rfl
  have hne : row.entries.length ≠ 0 := by
    intro h0
    exact h.nonempty row (by simp) (List.length_eq_zero_iff.mp h0)
  have hnPdx := h.nPdx
  have hle := h.le
  have htotal := h.total_lt
  simp only [List.length_append, List.length_cons, pdxTotal_append, pdxTotal_cons]
    at hnPdx hle htotal
  have hdiff : info.pdx.xEntry l.length - info.pdx.nEntry l.length = row.entries.length := by
    rw [hrow.xEntry, hrow.nEntry]
    omega
  have hmoves : ((info.nPdx : ℤ) - l.length).toNat = l'.length + 1 := by omega
  unfold killPdxSlot
  rw [if_neg (not_not.mpr ⟨by omega, by omega⟩)]
  dsimp only
  rw [hdiff, hrow.nEntry, hmoves]
  refine ⟨_, rfl, ?_⟩
  -- the entry points move down first, then the slots
  generalize hentry : forUp (fun i entry => Function.update entry i
    (entry (i + (row.entries.length : ℤ)))) _ _ info.pdx.entry = entry
  have hmove : ∀ k, entry k = if (pdxTotal l : ℤ) ≤ k ∧ k < (oMaxEntpt : ℤ) - row.entries.length
      then info.pdx.entry (k + row.entries.length) else info.pdx.entry k := by
    intro k
    have hshift := forUp_shiftDown (show (0 : ℤ) < row.entries.length by omega) (pdxTotal l)
      row.entries.length ((oMaxEntpt : ℤ) - row.entries.length - pdxTotal l).toNat
      info.pdx.entry k
    simp only [add_sub_cancel_right] at hshift
    rw [hentry, Int.toNat_of_nonneg (by omega), add_sub_cancel] at hshift
    exact hshift
  have hslots := forUp_killPdxStep row.entries.length l.length (l'.length + 1)
    { info.pdx with entry }
  generalize forUp (killPdxStep _) _ _ _ = pdx at hslots
  have hsub : (l ++ l').Sublist (l ++ row :: l') := by simp
  refine ⟨⟨?_, ?_, ?_, h.nodup.sublist (hsub.map _), fun r hr => h.nonempty r (hsub.subset hr), ?_⟩,
    rfl, ?_⟩
  · simp only [List.length_append]
    omega
  · simp only [List.length_append]
    omega
  · simp only [pdxTotal_append]
    omega
  · intro a r b hab
    dsimp only
    rcases append_eq_append_cons hab with ⟨m, rfl, rfl⟩ | ⟨m, rfl, rfl⟩
    · -- a slot before the one removed
      have hold := h.slot a r (m ++ row :: l') (by simp)
      simp only [List.length_append, List.length_cons, pdxTotal_append, pdxTotal_cons]
        at hslots hmove
      obtain ⟨hn, hx, hc, hp⟩ := hslots.stay a.length (Or.inl (by omega))
      refine ⟨hp.trans hold.passwd, hc.trans hold.clist, hn.trans hold.nEntry,
        hx.trans hold.xEntry, fun j hj => ?_⟩
      rw [hslots.entry]
      dsimp only
      rw [hmove, if_neg (by omega)]
      exact hold.entry j hj
    · -- one behind it
      have hold := h.slot (l ++ row :: m) r b (by simp)
      simp only [List.length_append, List.length_cons, pdxTotal_append, pdxTotal_cons]
        at hslots hold hle htotal ⊢
      obtain ⟨hn, hx, hc, hp⟩ := hslots.move (l.length + m.length) (by omega)
        (by push_cast; omega) (by omega)
      have hidx : (l.length : ℤ) + m.length + 1 = (l.length + (m.length + 1) : ℕ) := by
        push_cast
        omega
      rw [hidx] at hn hx hc hp
      push_cast
      refine ⟨hp.trans hold.passwd, hc.trans hold.clist, ?_, ?_, fun j hj => ?_⟩
      · rw [hn]
        dsimp only
        rw [hold.nEntry]
        push_cast
        omega
      · rw [hx]
        dsimp only
        rw [hold.xEntry]
        push_cast
        omega
      · rw [hslots.entry]
        dsimp only
        rw [hmove, if_pos (by push_cast; omega), ← hold.entry j hj]
        congr 1
        push_cast
        omega
  · intro hlt hstale i hi hi'
    dsimp only at hi ⊢
    rcases lt_or_ge i ((l.length : ℤ) + (l'.length + 1 : ℕ)) with hin | hout
    · obtain ⟨hn, hx, -, -⟩ := hslots.move i (by omega) hin (by omega)
      rw [hn, hx]
      have := hstale (i + 1) (by omega) (by omega)
      dsimp only
      omega
    · obtain ⟨hn, hx, -, -⟩ := hslots.stay i (Or.inr hout)
      rw [hn, hx]
      exact hstale i (by push_cast at hout; omega) hi'

/-! ### Adding a registration -/

section Copy
variable (obj : Obj)

theorem copyEntrypts_fst (entrypts : List ℕ) (j : ℤ) (entry : ℤ → ℕ) :
    (copyEntrypts obj entrypts j entry).1 = true ↔
      ∀ e ∈ entrypts, obj.base ≤ e ∧ e ≤ obj.limit := by
  induction entrypts generalizing j entry with
  | nil => simp [copyEntrypts]
  | cons e entrypts ih =>
    rw [copyEntrypts, List.forall_mem_cons]
    by_cases he : e < obj.base ∨ e > obj.limit
    · rw [if_pos he]
      refine iff_of_false nofun ?_
      rintro ⟨⟨h₁, h₂⟩, -⟩
      omega
    · rw [if_neg he, ih]
      exact ⟨fun h => ⟨by omega, h⟩, fun h => h.2⟩

/-- What lies before the place to copy to stays. -/
theorem copyEntrypts_before (entrypts : List ℕ) (j : ℤ) (entry : ℤ → ℕ) {k : ℤ} (hk : k < j) :
    (copyEntrypts obj entrypts j entry).2 k = entry k := by
  induction entrypts generalizing j entry with
  | nil => rfl
  | cons e entrypts ih =>
    rw [copyEntrypts]
    split_ifs with he
    · rfl
    · rw [ih _ _ (by omega), Function.update_of_ne (by omega)]

theorem copyEntrypts_copied {entrypts : List ℕ} {j : ℤ} {entry : ℤ → ℕ}
    (h : (copyEntrypts obj entrypts j entry).1 = true) (i : ℕ) (hi : i < entrypts.length) :
    (copyEntrypts obj entrypts j entry).2 (j + i) = entrypts[i] := by
  induction entrypts generalizing j entry i with
  | nil => exact absurd hi (Nat.not_lt_zero i)
  | cons e entrypts ih =>
    rw [copyEntrypts] at h ⊢
    split_ifs at h ⊢ with he
    cases i with
    | zero =>
      rw [show j + ((0 : ℕ) : ℤ) = j by omega, copyEntrypts_before _ _ _ _ (by omega)]
      exact Function.update_self ..
    | succ i =>
      rw [List.length_cons] at hi
      rw [List.getElem_cons_succ, ← ih h i (by omega),
        show j + ((i + 1 : ℕ) : ℤ) = j + 1 + i by omega]

end Copy

/-- The index that `set_pdx_slot` begins at. -/
theorem PdxRows.next {info : ObjInfo} {rows : List PdxRow} (h : PdxRows info rows) :
    (if (rows.length : ℤ) = 0 then 0 else info.pdx.xEntry (rows.length - 1)) = pdxTotal rows := by
  rcases List.eq_nil_or_concat rows with rfl | ⟨l, row, rfl⟩
  · simp
  · have hlast := (h.slot l row [] (by simp)).xEntry
    simp only [List.concat_eq_append, List.length_append, List.length_singleton, pdxTotal_append,
      pdxTotal_cons, pdxTotal_nil]
    rw [if_neg (by omega), show ((l.length + 1 : ℕ) : ℤ) - 1 = l.length by omega, hlast]
    push_cast
    omega

/-- Slots that are not written stay. -/
theorem PdxData.Holds.congr {pdx pdx' : PdxData} {i : ℤ} {start : ℕ} {row : PdxRow}
    (h : pdx.Holds i start row) (hpasswd : pdx'.passwd i = pdx.passwd i)
    (hclist : pdx'.clist i = pdx.clist i) (hn : pdx'.nEntry i = pdx.nEntry i)
    (hx : pdx'.xEntry i = pdx.xEntry i)
    (hentry : ∀ k : ℤ, k < start + row.entries.length → pdx'.entry k = pdx.entry k) :
    pdx'.Holds i start row :=
  ⟨hpasswd.trans h.passwd, hclist.trans h.clist, hn.trans h.nEntry, hx.trans h.xEntry,
    fun j hj => (hentry _ (by omega)).trans (h.entry j hj)⟩

/-- **`set_pdx_slot` adds a registration** at the end, if there is room for the entry points
and they lie in the object. -/
theorem setPdxSlot_rows {obj : Obj} {rows : List PdxRow} {call : PdxCall}
    (h : PdxRows obj.info rows) (hlt : rows.length < oMaxPdx) (hne : call.entrypts ≠ [])
    (hnew : ∀ row ∈ rows, row.passwd ≠ call.passwd) :
    ∃ b obj', setPdxSlot rows.length call obj = (b, obj') ∧
      (b = true ↔ pdxTotal rows + call.entrypts.length < oMaxEntpt ∧
        ∀ e ∈ call.entrypts, obj.base ≤ e ∧ e ≤ obj.limit) ∧
      PdxRows obj'.info
        (if b then rows ++ [⟨call.passwd, call.clist, call.entrypts⟩] else rows) ∧
      obj' = { obj with
        info := { obj.info with nPdx := obj'.info.nPdx, pdx := obj'.info.pdx } } ∧
      (obj.info.Stale ∨ b = true ∧ rows.length + 1 = oMaxPdx → obj'.info.Stale) := by
  have hbefore : ∀ l row l', rows = l ++ row :: l' →
      l.length < rows.length ∧ pdxTotal l + row.entries.length ≤ pdxTotal rows := by
    rintro l row l' rfl
    simp only [List.length_append, List.length_cons, pdxTotal_append, pdxTotal_cons]
    omega
  unfold setPdxSlot
  dsimp only
  rw [h.next]
  by_cases hroom : pdxTotal rows + call.entrypts.length < oMaxEntpt
  · rw [if_neg (by omega)]
    have hkeep : ∀ k : ℤ, k < pdxTotal rows →
        (copyEntrypts obj call.entrypts (pdxTotal rows) obj.info.pdx.entry).2 k
          = obj.info.pdx.entry k := fun k hk => copyEntrypts_before _ _ _ _ hk
    by_cases hin : ∀ e ∈ call.entrypts, obj.base ≤ e ∧ e ≤ obj.limit
    · have hcopy := (copyEntrypts_fst obj call.entrypts (pdxTotal rows) obj.info.pdx.entry).mpr hin
      rw [if_neg (not_not.mpr hcopy)]
      refine ⟨true, _, rfl, iff_of_true rfl ⟨hroom, hin⟩,
        show PdxRows _ (rows ++ [_]) from ⟨?_, ?_, ?_, ?_, ?_, ?_⟩, rfl, ?_⟩
      · dsimp only
        rw [h.nPdx]
        simp
      · simp only [List.length_append, List.length_singleton]
        omega
      · simpa using hroom
      · rw [List.map_append, List.nodup_append]
        refine ⟨h.nodup, List.nodup_singleton _, fun a ha b hb => ?_⟩
        obtain ⟨row, hrow, rfl⟩ := List.mem_map.mp ha
        obtain rfl := List.mem_singleton.mp hb
        exact hnew row hrow
      · rw [List.forall_mem_append]
        exact ⟨h.nonempty, List.forall_mem_singleton.mpr hne⟩
      · intro a r b hab
        dsimp only
        rcases append_eq_append_cons hab with ⟨m, hrows, -⟩ | ⟨m, rfl, hm⟩
        · -- a slot from before
          obtain ⟨hpos, htot⟩ := hbefore a r m hrows
          refine (h.slot a r m hrows).congr ?_ ?_ ?_ ?_ fun k hk => ?_
          · exact Function.update_of_ne (by omega) _ _
          · exact Function.update_of_ne (by omega) _ _
          · exact Function.update_of_ne (by omega) _ _
          · exact Function.update_of_ne (by omega) _ _
          · exact hkeep k (by omega)
        · obtain ⟨rfl, hr⟩ : m = [] ∧ _ = r := by
            cases m with
            | nil => exact ⟨rfl, (List.cons.inj hm).1⟩
            | cons y m => simp at hm
          rw [List.append_nil, ← hr]
          refine ⟨Function.update_self .., Function.update_self .., Function.update_self ..,
            Function.update_self .., fun j hj => ?_⟩
          exact copyEntrypts_copied obj hcopy j hj
      -- the slots behind it
      · intro hstale i hi hi'
        have hn := h.nPdx
        dsimp only at hi ⊢
        rw [Function.update_of_ne (by omega), Function.update_of_ne (by omega)]
        rcases hstale with hstale | ⟨-, hfull⟩
        · exact hstale i (by omega) hi'
        · omega
    · rw [if_pos fun hcopy => hin ((copyEntrypts_fst ..).mp hcopy)]
      refine ⟨false, _, rfl, iff_of_false nofun fun hfits => hin hfits.2, ?_, rfl, ?_⟩
      · refine ⟨h.nPdx, h.le, h.total_lt, h.nodup, h.nonempty, fun l row l' hl => ?_⟩
        obtain ⟨-, htot⟩ := hbefore l row l' hl
        exact (h.slot l row l' hl).congr rfl rfl rfl rfl fun k hk => hkeep k (by omega)
      · rintro (hstale | ⟨⟨⟩, -⟩)
        exact hstale
  · rw [if_pos (by omega)]
    refine ⟨false, obj, rfl, iff_of_false nofun fun hfits => hroom hfits.1, h, rfl, ?_⟩
    rintro (hstale | ⟨⟨⟩, -⟩)
    exact hstale

/-! ### Both together -/

/-- The list of registrations has one place for the password at most. -/
theorem PdxRows.others {info : ObjInfo} {l l' : List PdxRow} {row : PdxRow}
    (h : PdxRows info (l ++ row :: l')) : pdxOthers (l ++ row :: l') row.passwd = l ++ l' := by
  have hnodup := h.nodup
  rw [List.map_append, List.map_cons, List.nodup_middle, List.nodup_cons, ← List.map_append]
    at hnodup
  unfold pdxOthers
  rw [List.filter_append, List.filter_cons_of_neg (by simp), ← List.filter_append,
    List.filter_eq_self]
  intro r hr
  have hne : r.passwd ≠ row.passwd := by
    intro heq
    exact hnodup.1 (heq ▸ List.mem_map_of_mem hr)
  simpa using hne

theorem PdxRows.dropPdx {info : ObjInfo} {rows : List PdxRow} (h : PdxRows info rows) (passwd : ℕ) :
    ∃ info', Mungi.dropPdx info passwd = some info' ∧ PdxRows info' (pdxOthers rows passwd) ∧
      info' = { info with nPdx := info'.nPdx, pdx := info'.pdx } ∧
      (info.nPdx < oMaxPdx ∨ (∀ row ∈ rows, row.passwd ≠ passwd) → info.Stale → info'.Stale) := by
  unfold Mungi.dropPdx
  cases hf : findUp _ 0 info.nPdx with
  | none =>
    have hno : ∀ row ∈ rows, row.passwd ≠ passwd := by
      intro row hrow heq
      obtain ⟨l, l', rfl⟩ := List.append_of_mem hrow
      have hn := h.nPdx
      rw [List.length_append, List.length_cons] at hn
      have := findUp_eq_none.mp hf l.length (by omega) (by omega)
      rw [(h.slot l row l' rfl).passwd, if_pos heq] at this
      cases this
    refine ⟨info, rfl, ?_, rfl, fun _ => id⟩
    unfold pdxOthers
    rwa [List.filter_eq_self.mpr fun row hrow => by simpa using hno row hrow]
  | some i =>
    obtain ⟨j, h₁, h₂, hj, -⟩ := findUp_eq_some.mp hf
    obtain ⟨hp, hji⟩ := Option.ite_none_right_eq_some.mp hj
    obtain rfl := Option.some.inj hji
    have hn := h.nPdx
    obtain ⟨l, row, l', rfl, hl⟩ : ∃ l row l', rows = l ++ row :: l' ∧ (l.length : ℤ) = j := by
      have hlen : j.toNat < rows.length := by omega
      refine ⟨rows.take j.toNat, rows[j.toNat], rows.drop (j.toNat + 1), ?_, ?_⟩
      · rw [List.getElem_cons_drop, List.take_append_drop]
      · rw [List.length_take, min_eq_left (by omega)]
        exact Int.toNat_of_nonneg h₁
    subst hl
    obtain rfl : row.passwd = passwd := by rw [← (h.slot l row l' rfl).passwd, hp]
    obtain ⟨info', hkill, hrows, hframe, hstale⟩ := killPdxSlot_rows h
    refine ⟨info', hkill, h.others ▸ hrows, hframe, fun hor => ?_⟩
    exact hstale (hor.resolve_right fun hno => hno row (by simp) rfl)

/-- A call that does not remove a password from a full table without putting another in. -/
def PdxKept (base limit : ℕ) (rows : List PdxRow) (call : PdxCall) : Prop :=
  rows.length < oMaxPdx ∨ (∀ row ∈ rows, row.passwd ≠ call.passwd) ∨
    call.entrypts ≠ [] ∧ (pdxInsert base limit rows call).1 = true

/-- **`object_pdx` is `pdxInsert`** on the list of registrations. -/
theorem objectPdx_rows {obj : Obj} {rows : List PdxRow} (h : PdxRows obj.info rows)
    (call : PdxCall) :
    ∃ obj', objectPdx obj call = some ((pdxInsert obj.base obj.limit rows call).1, obj') ∧
      PdxRows obj'.info (pdxInsert obj.base obj.limit rows call).2 ∧
      obj' = { obj with
        info := { obj.info with nPdx := obj'.info.nPdx, pdx := obj'.info.pdx } } ∧
      (PdxKept obj.base obj.limit rows call → obj.info.Stale → obj'.info.Stale) := by
  obtain ⟨info, hdrop, hrows, hframe, hstale⟩ := h.dropPdx call.passwd
  have hothers : (pdxOthers rows call.passwd).length ≤ rows.length := List.length_filter_le ..
  have hle := h.le
  have hn := h.nPdx
  unfold objectPdx PdxKept
  rw [hdrop, Option.map_some]
  dsimp only
  unfold pdxInsert
  dsimp only
  rw [hrows.nPdx]
  -- nothing is put in, so what was there before decides
  have hkept : rows.length < oMaxPdx ∨ (∀ row ∈ rows, row.passwd ≠ call.passwd) →
      obj.info.Stale → info.Stale := fun hor => hstale (hor.imp_left fun hlt => by omega)
  by_cases hfull : (pdxOthers rows call.passwd).length ≥ oMaxPdx
  · rw [if_pos (by omega), if_pos hfull]
    refine ⟨_, rfl, hrows, by dsimp only; rw [← hframe], fun hor => hkept ?_⟩
    exact or_assoc.mpr hor |>.resolve_right fun hput => absurd hput.2 nofun
  rw [if_neg (by omega), if_neg hfull]
  by_cases hnil : call.entrypts = []
  · rw [if_pos hnil, if_pos hnil]
    refine ⟨_, rfl, hrows, by dsimp only; rw [← hframe], fun hor => hkept ?_⟩
    exact or_assoc.mpr hor |>.resolve_right fun hput => absurd hnil hput.1
  rw [if_neg hnil, if_neg hnil]
  have hnew : ∀ row ∈ pdxOthers rows call.passwd, row.passwd ≠ call.passwd := by
    intro row hrow
    simpa using (List.mem_filter.mp hrow).2
  have hslots : PdxRows ({ obj with info } : Obj).info (pdxOthers rows call.passwd) := hrows
  obtain ⟨b, obj', hset, hb, hrows', hframe', hstale'⟩ :=
    setPdxSlot_rows hslots (by omega) hnil hnew
  dsimp only at hb hframe' hstale'
  have hobj : obj' = { obj with
      info := { obj.info with nPdx := obj'.info.nPdx, pdx := obj'.info.pdx } } := by
    rw [hframe'] at *
    rw [hframe]
  rw [hset]
  cases b with
  | true =>
    rw [if_pos (hb.mp rfl)]
    refine ⟨obj', rfl, hrows', hobj, fun hor hs => hstale' ?_⟩
    by_cases hor' : rows.length < oMaxPdx ∨ ∀ row ∈ rows, row.passwd ≠ call.passwd
    · exact Or.inl (hkept hor' hs)
    · -- the slot that became free takes the new registration
      refine Or.inr ⟨rfl, ?_⟩
      push Not at hor'
      obtain ⟨hlen, row, hrow, hp⟩ := hor'
      obtain ⟨l, l', rfl⟩ := List.append_of_mem hrow
      rw [← hp, h.others]
      simp only [List.length_append, List.length_cons] at hlen hle ⊢
      omega
  | false =>
    rw [if_neg fun hfits => absurd (hb.mpr hfits) nofun]
    refine ⟨obj', rfl, hrows', hobj, fun hor hs => hstale' (Or.inl (hkept ?_ hs))⟩
    exact or_assoc.mpr hor |>.resolve_right fun hput => absurd hput.2 nofun

/-! ### Looking a password up -/

/-- Slot `i` is for the password, and has the entry point. -/
def PdxData.Lists (pdx : PdxData) (i : ℤ) (passwd proc : ℕ) : Prop :=
  pdx.passwd i = passwd ∧ ∃ j, pdx.nEntry i ≤ j ∧ j < pdx.xEntry i ∧ pdx.entry j = proc

theorem findUp_entry {β : Type} (pdx : PdxData) (i : ℤ) (proc : ℕ) (b : β) :
    findUp (fun j => if pdx.entry j = proc then some b else none) (pdx.nEntry i)
        (pdx.xEntry i - pdx.nEntry i).toNat = none ∧
      ¬ (∃ j, pdx.nEntry i ≤ j ∧ j < pdx.xEntry i ∧ pdx.entry j = proc) ∨
    findUp (fun j => if pdx.entry j = proc then some b else none) (pdx.nEntry i)
        (pdx.xEntry i - pdx.nEntry i).toNat = some b ∧
      ∃ j, pdx.nEntry i ≤ j ∧ j < pdx.xEntry i ∧ pdx.entry j = proc := by
  cases hf : findUp _ (pdx.nEntry i) (pdx.xEntry i - pdx.nEntry i).toNat with
  | none =>
    refine Or.inl ⟨rfl, ?_⟩
    rintro ⟨j, h₁, h₂, hj⟩
    have := findUp_eq_none.mp hf j h₁ (by omega)
    rw [if_pos hj] at this
    cases this
  | some b' =>
    obtain ⟨j, h₁, h₂, hj, -⟩ := findUp_eq_some.mp hf
    obtain ⟨hp, hb⟩ := Option.ite_none_right_eq_some.mp hj
    exact Or.inr ⟨hb.symm, j, h₁, by omega, hp⟩

/-- **`do_validate_passwd_pdx`** looks at the slots in use. -/
theorem doValidatePasswdPdx_allowed (obj : Obj) (passwd proc : ℕ) (pdxSlot : ℤ) :
    (doValidatePasswdPdx obj passwd proc pdxSlot).1 = .allowed ↔
      ∃ i : ℤ, 0 ≤ i ∧ i < obj.info.nPdx ∧ obj.info.pdx.Lists i passwd proc := by
  unfold doValidatePasswdPdx
  dsimp only
  cases hf : findUp _ 0 obj.info.nPdx with
  | none =>
    refine iff_of_false nofun ?_
    rintro ⟨i, h₁, h₂, hp, hentry⟩
    have hnone := findUp_eq_none.mp hf i h₁ (by omega)
    rw [if_neg (not_not.mpr hp)] at hnone
    rcases findUp_entry obj.info.pdx i proc (ValidationResult.allowed, i) with ⟨-, hno⟩ | ⟨hsome, -⟩
    · exact hno hentry
    · rw [hsome] at hnone
      cases hnone
  | some r =>
    obtain ⟨i, h₁, h₂, hi, -⟩ := findUp_eq_some.mp hf
    split_ifs at hi with hp
    rcases findUp_entry obj.info.pdx i proc (ValidationResult.allowed, i) with ⟨hnone, -⟩ |
      ⟨hsome, hentry⟩
    · rw [hnone] at hi
      cases hi
    · rw [hsome] at hi
      obtain rfl := Option.some.inj hi
      exact iff_of_true rfl ⟨i, h₁, by omega, not_not.mp hp, hentry⟩

/-- **`object_pdx_get_clist`** looks at all slots, and takes the last one. -/
theorem objectPdxGetClist_spec (obj : Obj) (proc passwd : ℕ) :
    (∃ i : ℤ, 0 ≤ i ∧ i < oMaxPdx ∧ obj.info.pdx.Lists i passwd proc ∧
      (∀ j, i < j → j < oMaxPdx → ¬ obj.info.pdx.Lists j passwd proc) ∧
      objectPdxGetClist obj proc passwd = ⟨(obj.info.pdx.clist i).address, passwd⟩) ∨
    (∀ i : ℤ, 0 ≤ i → i < oMaxPdx → ¬ obj.info.pdx.Lists i passwd proc) ∧
      objectPdxGetClist obj proc passwd = Cap.null := by
  unfold objectPdxGetClist
  dsimp only
  induction oMaxPdx with
  | zero =>
    refine Or.inr ⟨fun i h₁ h₂ => ?_, rfl⟩
    omega
  | succ n ih =>
    rw [forUp_succ, Int.zero_add]
    by_cases hlist : obj.info.pdx.Lists n passwd proc
    · obtain ⟨hp, hentry⟩ := hlist
      refine Or.inl ⟨n, by omega, by omega, ⟨hp, hentry⟩, fun j h₁ h₂ => by omega, ?_⟩
      rw [if_pos hp]
      simp only [eq_comm (a := proc)]
      rcases findUp_entry obj.info.pdx n proc (⟨(obj.info.pdx.clist n).address, passwd⟩ : Cap) with
        ⟨-, hno⟩ | ⟨hsome, -⟩
      · exact absurd hentry hno
      · rw [hsome]
        rfl
    · -- the slot changes nothing
      rw [show (if obj.info.pdx.passwd n = passwd then _ else _) = _ from ?_]
      · rcases ih with ⟨i, h₁, h₂, hi, hlast, heq⟩ | ⟨hno, heq⟩
        · refine Or.inl ⟨i, h₁, by omega, hi, fun j hj₁ hj₂ => ?_, heq⟩
          by_cases hj : j = n
          · rwa [hj]
          · exact hlast j hj₁ (by omega)
        · refine Or.inr ⟨fun i h₁ h₂ => ?_, heq⟩
          by_cases hi : i = n
          · rwa [hi]
          · exact hno i h₁ (by omega)
      · split_ifs with hp
        · simp only [eq_comm (a := proc)]
          rcases findUp_entry obj.info.pdx n proc
            (⟨(obj.info.pdx.clist n).address, passwd⟩ : Cap) with ⟨hnone, -⟩ | ⟨-, hentry⟩
          · rw [hnone]
            rfl
          · exact absurd ⟨hp, hentry⟩ hlist
        · rfl

/-! ### What the list of registrations says -/

/-- The Clist that an entry point is registered with. -/
def pdxLookup (rows : List PdxRow) (proc passwd : ℕ) : Option Cap :=
  (rows.find? fun row => row.passwd = passwd ∧ proc ∈ row.entries).map PdxRow.clist

theorem PdxData.Holds.lists {pdx : PdxData} {i : ℤ} {start : ℕ} {row : PdxRow}
    (h : pdx.Holds i start row) {passwd proc : ℕ} :
    pdx.Lists i passwd proc ↔ row.passwd = passwd ∧ proc ∈ row.entries := by
  unfold PdxData.Lists
  rw [h.passwd, h.nEntry, h.xEntry]
  refine and_congr_right fun _ => ?_
  constructor
  · rintro ⟨j, h₁, h₂, rfl⟩
    have hj := h.entry (j - start).toNat (by omega)
    rw [show (start : ℤ) + ((j - start).toNat : ℕ) = j by omega] at hj
    rw [hj]
    exact List.getElem_mem _
  · intro hmem
    obtain ⟨j, hj, rfl⟩ := List.mem_iff_getElem.mp hmem
    exact ⟨start + j, by omega, by omega, h.entry j hj⟩

/-- A slot with a number below the count is one of the list. -/
theorem PdxRows.slot_of_lt {info : ObjInfo} {rows : List PdxRow} (h : PdxRows info rows) {i : ℤ}
    (h₁ : 0 ≤ i) (h₂ : i < info.nPdx) :
    ∃ l row l', rows = l ++ row :: l' ∧ i = l.length ∧ info.pdx.Holds i (pdxTotal l) row := by
  have hn := h.nPdx
  have hlen : i.toNat < rows.length := by omega
  have hsplit : rows = rows.take i.toNat ++ rows[i.toNat] :: rows.drop (i.toNat + 1) := by
    rw [List.getElem_cons_drop, List.take_append_drop]
  have hi : i = (rows.take i.toNat).length := by
    rw [List.length_take, min_eq_left (by omega), Int.toNat_of_nonneg h₁]
  have hslot := h.slot _ _ _ hsplit
  rw [← hi] at hslot
  exact ⟨_, _, _, hsplit, hi, hslot⟩

section Lookup
variable {obj : Obj} {rows : List PdxRow} {proc passwd : ℕ}

/-- At most one registration is for a password. -/
theorem PdxRows.find?_eq (h : PdxRows obj.info rows) {l l' : List PdxRow} {row : PdxRow}
    (hrows : rows = l ++ row :: l') (hp : row.passwd = passwd) (hproc : proc ∈ row.entries) :
    pdxLookup rows proc passwd = some row.clist := by
  have hnodup := h.nodup
  rw [hrows, List.map_append, List.map_cons, List.nodup_middle, List.nodup_cons] at hnodup
  unfold pdxLookup
  rw [hrows, List.find?_append, List.find?_eq_none.mpr, Option.none_or,
    List.find?_cons_of_pos (by simpa using ⟨hp, hproc⟩), Option.map_some]
  intro r hr hfound
  refine hnodup.1 (List.mem_append_left _ ?_)
  rw [hp, ← (of_decide_eq_true hfound).1]
  exact List.mem_map_of_mem hr

theorem pdxLookup_eq_none :
    pdxLookup rows proc passwd = none ↔
      ∀ row ∈ rows, ¬ (row.passwd = passwd ∧ proc ∈ row.entries) := by
  unfold pdxLookup
  rw [Option.map_eq_none_iff, List.find?_eq_none]
  simp

/-- **Validation goes by the list.** -/
theorem PdxRows.validate (h : PdxRows obj.info rows) (pdxSlot : ℤ) :
    (doValidatePasswdPdx obj passwd proc pdxSlot).1 = .allowed ↔
      pdxLookup rows proc passwd ≠ none := by
  rw [doValidatePasswdPdx_allowed]
  constructor
  · rintro ⟨i, h₁, h₂, hlist⟩
    obtain ⟨l, row, l', hrows, -, hslot⟩ := h.slot_of_lt h₁ h₂
    obtain ⟨hp, hproc⟩ := hslot.lists.mp hlist
    rw [h.find?_eq hrows hp hproc]
    exact nofun
  · intro hsome
    rw [Ne, pdxLookup_eq_none] at hsome
    push Not at hsome
    obtain ⟨row, hrow, hboth⟩ := hsome
    obtain ⟨l, l', rfl⟩ := List.append_of_mem hrow
    have hn := h.nPdx
    rw [List.length_append, List.length_cons] at hn
    exact ⟨l.length, by omega, by omega, (h.slot l row l' rfl).lists.mpr hboth⟩

/-- **So does the search for the Clist**, though it looks at all slots. -/
theorem PdxRows.getClist (h : PdxRows obj.info rows) (hstale : obj.info.Stale) :
    objectPdxGetClist obj proc passwd =
      ((pdxLookup rows proc passwd).map fun clist => (⟨clist.address, passwd⟩ : Cap)).getD
        Cap.null := by
  have hn := h.nPdx
  have hle := h.le
  rcases objectPdxGetClist_spec obj proc passwd with ⟨i, h₁, h₂, hlist, -, heq⟩ | ⟨hno, heq⟩
  · have hlt : i < obj.info.nPdx := by
      by_contra hge
      obtain ⟨-, j, hj₁, hj₂, -⟩ := hlist
      have := hstale i (not_lt.mp hge) h₂
      omega
    obtain ⟨l, row, l', hrows, -, hslot⟩ := h.slot_of_lt h₁ hlt
    obtain ⟨hp, hproc⟩ := hslot.lists.mp hlist
    rw [heq, h.find?_eq hrows hp hproc, hslot.clist]
    rfl
  · rw [heq, pdxLookup_eq_none.mpr]
    · rfl
    · intro row hrow hboth
      obtain ⟨l, l', rfl⟩ := List.append_of_mem hrow
      rw [List.length_append, List.length_cons] at hn hle
      exact hno l.length (by omega) (by omega) ((h.slot l row l' rfl).lists.mpr hboth)

end Lookup

end Mungi
