import Mungi.Lib.Runs
import Mungi.Objects
import Mungi.PdxTable

/-!
# PDX registrations

What an object answers after calls of `object_pdx`: it goes by the last call for each
password.  That is so as long as nothing is deleted from a full table, since then a slot is
left behind that `object_pdx_get_clist` looks at.

## Main definitions

* `lastPdx` — the last call for each password.
* `PdxOrder` — the slots in use, in order.
* `RoomyDelete` — a call that does not delete from a full table.

## Main results

* `pdx_registered` — **the table goes by the last call**, in runs of such calls.
* `pdx_leftover` — another run.
-/

namespace Mungi

open Runs

/-! ### The specification -/

/-- The last call of `object_pdx` for each password. -/
def lastPdx (calls : List PdxCall) : ℕ → Option PdxCall :=
  calls.foldl (fun last call => Function.update last call.passwd (some call)) fun _ => none

theorem lastPdx_concat (calls : List PdxCall) (call : PdxCall) :
    lastPdx (calls ++ [call]) = Function.update (lastPdx calls) call.passwd (some call) := by
  unfold lastPdx
  rw [List.foldl_append]
  rfl

/-- The slots in use have different passwords, and their entry points lie one behind the
other. -/
structure PdxOrder (info : ObjInfo) : Prop where
  nPdx_le : info.nPdx ≤ oMaxPdx
  once : ∀ i j : ℤ, 0 ≤ i → i < info.nPdx → 0 ≤ j → j < info.nPdx →
    info.pdx.passwd i = info.pdx.passwd j → i = j
  first : 0 < info.nPdx → info.pdx.nEntry 0 = 0
  next : ∀ i : ℤ, 0 ≤ i → i + 1 < info.nPdx → info.pdx.nEntry (i + 1) = info.pdx.xEntry i
  nonempty : ∀ i : ℤ, 0 ≤ i → i < info.nPdx → info.pdx.nEntry i < info.pdx.xEntry i
  within : ∀ i : ℤ, 0 ≤ i → i < info.nPdx → info.pdx.xEntry i ≤ oMaxEntpt

theorem PdxRows.pdxOrder {info : ObjInfo} {rows : List PdxRow} (h : PdxRows info rows) :
    PdxOrder info := by
  have hn := h.nPdx
  have hsplit : ∀ i : ℤ, 0 ≤ i → i < info.nPdx → ∃ l row l', rows = l ++ row :: l' ∧
      i = l.length ∧ info.pdx.Holds i (pdxTotal l) row := fun i => h.slot_of_lt
  refine ⟨hn ▸ h.le, fun i j hi₁ hi₂ hj₁ hj₂ hp => ?_, fun hpos => ?_, fun i h₁ h₂ => ?_,
    fun i h₁ h₂ => ?_, fun i h₁ h₂ => ?_⟩
  · obtain ⟨l, row, l', hrows, rfl, hslot⟩ := hsplit i hi₁ hi₂
    obtain ⟨m, row', m', hrows', rfl, hslot'⟩ := hsplit j hj₁ hj₂
    have hl : (rows.map PdxRow.passwd)[l.length]? = some (info.pdx.passwd l.length) := by
      rw [hslot.passwd, hrows]
      simp
    have hm : (rows.map PdxRow.passwd)[m.length]? = some (info.pdx.passwd l.length) := by
      rw [hp, hslot'.passwd, hrows']
      simp
    rw [(List.getElem?_inj (by rw [List.length_map]; omega) h.nodup).mp (hl.trans hm.symm)]
  · obtain ⟨l, row, l', -, hl, hslot⟩ := hsplit 0 le_rfl (by omega)
    obtain rfl : l = [] := List.length_eq_zero_iff.mp (by omega)
    exact hslot.nEntry
  · obtain ⟨l, row, l', hrows, rfl, hslot⟩ := hsplit i h₁ (by omega)
    cases l' with
    | nil =>
      rw [hrows] at hn
      simp only [List.length_append, List.length_cons, List.length_nil] at hn
      omega
    | cons row' l' =>
      have hnext := (h.slot (l ++ [row]) row' l' (by simp [hrows])).nEntry
      simp only [List.length_append, List.length_singleton, pdxTotal_append, pdxTotal_cons,
        pdxTotal_nil] at hnext
      rw [hslot.xEntry]
      push_cast at hnext
      omega
  · obtain ⟨l, row, l', hrows, -, hslot⟩ := hsplit i h₁ h₂
    have hne := List.length_pos_iff.mpr (h.nonempty row (by simp [hrows]))
    rw [hslot.nEntry, hslot.xEntry]
    omega
  · obtain ⟨l, row, l', hrows, -, hslot⟩ := hsplit i h₁ h₂
    have htotal := h.total_lt
    rw [hrows, pdxTotal_append, pdxTotal_cons] at htotal
    rw [hslot.xEntry]
    omega

/-! ### Calls -/

/-- One successful call of `object_pdx`. -/
def pdxStep (obj : Obj) (call : PdxCall) : Option Obj :=
  (objectPdx obj call).bind fun r => if r.1 then some r.2 else none

/-- **A call that does not delete from a full table.** -/
def RoomyDelete (obj : Obj) (call : PdxCall) : Prop :=
  call.entrypts = [] → obj.info.nPdx < oMaxPdx

/-- What a successful call changes. -/
theorem pdxLookup_insert {base limit : ℕ} {rows : List PdxRow} {call : PdxCall}
    (h : (pdxInsert base limit rows call).1 = true) (proc passwd : ℕ) :
    pdxLookup (pdxInsert base limit rows call).2 proc passwd =
      if passwd = call.passwd then if proc ∈ call.entrypts then some call.clist else none
      else pdxLookup rows proc passwd := by
  have hothers : pdxLookup (pdxOthers rows call.passwd) proc passwd =
      if passwd = call.passwd then none else pdxLookup rows proc passwd := by
    split_ifs with hp
    · rw [pdxLookup_eq_none]
      rintro row hrow ⟨hpasswd, -⟩
      exact of_decide_eq_true (List.mem_filter.mp hrow).2 (hpasswd.trans hp)
    · unfold pdxLookup pdxOthers
      rw [List.find?_filter]
      congr 2
      funext row
      by_cases hrow : row.passwd = passwd
      · simp [hrow, hp]
      · simp [hrow]
  unfold pdxInsert at h ⊢
  dsimp only at h ⊢
  split_ifs at h with hfull hnil hfits
  · rw [if_neg hfull, if_pos hnil, hothers, hnil]
    split_ifs with hp hproc
    · cases hproc
    · rfl
    · rfl
  · rw [if_neg hfull, if_neg hnil, if_pos hfits]
    unfold pdxLookup at hothers ⊢
    rw [List.find?_append, Option.map_or, hothers, List.find?_singleton]
    by_cases hp : passwd = call.passwd
    · rw [if_pos hp, if_pos hp, Option.none_or]
      by_cases hproc : proc ∈ call.entrypts
      · rw [if_pos hproc, if_pos (by simpa using ⟨hp.symm, hproc⟩)]
        rfl
      · rw [if_neg hproc, if_neg (by simp [hproc])]
        rfl
    · rw [if_neg hp, if_neg hp, if_neg (by simp [Ne.symm hp])]
      simp

/-- The table holds what was registered last. -/
def PdxTabled (calls : List PdxCall) (obj : Obj) : Prop :=
  ∃ rows, PdxRows obj.info rows ∧ obj.info.Stale ∧ ∀ proc passwd,
    pdxLookup rows proc passwd =
      (lastPdx calls passwd).bind fun call =>
        if proc ∈ call.entrypts then some call.clist else none

/-- **One call keeps the table in order.** -/
theorem PdxTabled.step {calls : List PdxCall} {obj obj' : Obj} {call : PdxCall}
    (h : PdxTabled calls obj) (hroomy : RoomyDelete obj call)
    (hstep : pdxStep obj call = some obj') : PdxTabled (calls ++ [call]) obj' := by
  obtain ⟨rows, hrows, hstale, hlookup⟩ := h
  obtain ⟨obj₁, hpdx, hrows', -, hstale'⟩ := objectPdx_rows hrows call
  unfold pdxStep at hstep
  rw [hpdx, Option.bind_some] at hstep
  dsimp only at hstep
  split_ifs at hstep with hok
  obtain rfl := Option.some.inj hstep
  refine ⟨_, hrows', hstale' ?_ hstale, fun proc passwd => ?_⟩
  · by_cases hnil : call.entrypts = []
    · exact Or.inl (hrows.nPdx ▸ hroomy hnil)
    · exact Or.inr (Or.inr ⟨hnil, hok⟩)
  · rw [pdxLookup_insert hok, lastPdx_concat]
    by_cases hp : passwd = call.passwd
    · rw [if_pos hp, hp, Function.update_self, Option.bind_some]
    · rw [if_neg hp, Function.update_of_ne hp, hlookup]

/-- An empty table whose slots are empty. -/
theorem pdxTabled_nil {obj : Obj} (hn : obj.info.nPdx = 0) (hstale : obj.info.Stale) :
    PdxTabled [] obj :=
  ⟨[], ⟨hn, by decide, by decide, List.nodup_nil, by simp, fun l row l' hl => by simp at hl⟩,
    hstale, fun _ _ => rfl⟩

/-- **The PDX table goes by the last call for each password**, in every run of successful
calls none of which deletes from a full table. -/
theorem pdx_registered {obj₀ : Obj} (hn : obj₀.info.nPdx = 0) (hstale : obj₀.info.Stale)
    {calls : List PdxCall} (hroomy : Along pdxStep RoomyDelete obj₀ calls) {obj : Obj}
    (hrun : run pdxStep obj₀ calls = some obj) :
    PdxOrder obj.info ∧ ∀ passwd proc pdxSlot,
      ((doValidatePasswdPdx obj passwd proc pdxSlot).1 = .allowed ↔
        ∃ call, lastPdx calls passwd = some call ∧ proc ∈ call.entrypts) ∧
      ∀ call, lastPdx calls passwd = some call → proc ∈ call.entrypts →
        objectPdxGetClist obj proc passwd = ⟨call.clist.address, passwd⟩ := by
  obtain ⟨rows, hrows, hstale, hlookup⟩ : PdxTabled calls obj :=
    run_induction_along (C := PdxTabled) (fun _ _ _ _ h hG hs => h.step hG hs) calls [] _ obj
      (pdxTabled_nil hn hstale) hroomy hrun
  refine ⟨hrows.pdxOrder, fun passwd proc pdxSlot => ⟨?_, fun call hlast hproc => ?_⟩⟩
  · rw [hrows.validate, hlookup]
    cases hlast : lastPdx calls passwd with
    | none => simp
    | some call =>
      rw [Option.bind_some]
      split_ifs with hproc
      · exact iff_of_true nofun ⟨call, rfl, hproc⟩
      · refine iff_of_false (fun h => h rfl) ?_
        rintro ⟨call', ⟨⟩, hproc'⟩
        exact hproc hproc'
  · rw [hrows.getClist hstale, hlookup, hlast, Option.bind_some, if_pos hproc]
    rfl

/-- An object without PDX passwords. -/
def plainObj : Obj := ⟨0x1000, 0x3000, blankInfo⟩

/-- A password with one entry point. -/
def oneEntry (passwd clist e : ℕ) : PdxCall := ⟨passwd, ⟨clist, 0⟩, [e], Nat.le_of_ble_eq_true rfl⟩

/-- A password is deleted. -/
def noEntry (passwd : ℕ) : PdxCall := ⟨passwd, Cap.null, [], by decide⟩

theorem pdx_registered_plainObj : ∃ obj,
    run pdxStep plainObj [oneEntry 5 0x9000 0x1000, oneEntry 6 0xa000 0x2000, noEntry 5]
        = some obj ∧
      (doValidatePasswdPdx obj 6 0x2000 (-1)).1 = .allowed ∧
      objectPdxGetClist obj 0x2000 6 = ⟨0xa000, 6⟩ := by
  have hroomy : Along pdxStep RoomyDelete plainObj
      [oneEntry 5 0x9000 0x1000, oneEntry 6 0xa000 0x2000, noEntry 5] := by
    refine ⟨nofun, ?_⟩
    rintro s' ⟨⟩
    refine ⟨nofun, ?_⟩
    rintro s' ⟨⟩
    exact ⟨fun _ => by decide, fun _ _ => trivial⟩
  have hempty : plainObj.info.nPdx = 0 := rfl
  obtain ⟨-, h⟩ := pdx_registered hempty (fun i _ _ => le_rfl) hroomy rfl
  obtain ⟨hallowed, hclist⟩ := h 6 0x2000 (-1)
  exact ⟨_, rfl, hallowed.mpr ⟨oneEntry 6 0xa000 0x2000, rfl, by decide⟩,
    hclist (oneEntry 6 0xa000 0x2000) rfl (by decide)⟩

/-- Sixteen passwords, and the sixth is deleted. -/
def fullThenDelete : List PdxCall :=
  [oneEntry 1 0x9000 0x1000, oneEntry 2 0x9000 0x1001, oneEntry (2 ^ 32) 0x9000 0x1002] ++
    (List.range 13).map (fun n => oneEntry (n + 4) 0x9000 (0x1003 + n)) ++ [noEntry 6]

/-- The last slot takes its password from what lies behind the array, the first indices. -/
theorem pdx_leftover : ∃ obj, run pdxStep plainObj fullThenDelete = some obj ∧
    lastPdx fullThenDelete (2 ^ 32) = some (oneEntry (2 ^ 32) 0x9000 0x1002) ∧
    0x1002 ∈ (oneEntry (2 ^ 32) 0x9000 0x1002).entrypts ∧
    objectPdxGetClist obj 0x1002 (2 ^ 32) ≠ ⟨0x9000, 2 ^ 32⟩ := by
  have hclist : (run pdxStep plainObj fullThenDelete).map
      (fun obj => objectPdxGetClist obj 0x1002 (2 ^ 32)) = some ⟨1, 2 ^ 32⟩ := by
    decide +kernel
  obtain ⟨obj, hobj, heq⟩ := Option.map_eq_some_iff.mp hclist
  refine ⟨obj, hobj, rfl, by decide, ?_⟩
  rw [heq]
  decide

end Mungi
