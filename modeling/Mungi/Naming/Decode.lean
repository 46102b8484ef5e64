import Mathlib.Data.BitVec
import Mungi.Lib.Bytes
import Mungi.Lib.Spans

/-!
# Enumerating a directory

`ns_decode_enum` is given entries of a directory, each the first of the entries with one hash, and
packs them into the caller's buffer: a first record with how many there are and where to go on, and
for every entry a record with its name behind it.  The first record is written without a look at the
size of the buffer, the others before it; and what the size is compared with leaves the record out
that is in front of the name.

Places in the buffer are counted from its start; what is written outside is part of the model, so
that it can be said when nothing is.

## Main definitions

* `NsEnt`, `NsChain` — entries, and those with one hash.
* `nsDecodeEnum` — the function of `nstree.c`.
* `EnumBuf.Respects` — it stays in its buffer, and what it reports can be read there.
* `Roomy` — the condition on the names and the buffer.

## Main results

* `decodeChains_buf` — what is written depends on the entries that are asked for only.
* `decodeEnum_respects_iff` — **it stays in its buffer if and only if the buffer is roomy.**
-/

namespace Mungi.Naming

open Bytes Spans

/-! ### The code -/

/-- `nsent_t`, as far as it is enumerated.  The name is a string. -/
structure NsEnt where
  value : BitVec 64
  flags : BitVec 64
  name : List (BitVec 8)
  hash : ℕ
  noNul : 0#8 ∉ name

/-- `strlen(cur->name) + 1` -/
def NsEnt.size (e : NsEnt) : ℕ := e.name.length + 1

/-- An entry of the tree, with those behind it. -/
structure NsChain where
  head : NsEnt
  tail : List NsEnt

/-- The entries of the chain. -/
def NsChain.ents (c : NsChain) : List NsEnt := c.head :: c.tail

/-- The buffer while it is filled. -/
structure EnumBuf where
  mem : ℕ → BitVec 8
  /-- What has been written to. -/
  writes : List Span
  coff : BitVec 32
  /-- The entries that have been copied, of which `num_found` is the number. -/
  found : List NsEnt

/-- The bytes `f` are written. -/
def EnumBuf.copy (b : EnumBuf) (p n : ℕ) (f : ℕ → BitVec 8) : EnumBuf :=
  { b with mem := Bytes.copy b.mem p n f, writes := b.writes ++ [⟨p, p + n⟩] }

/-- A number is written. -/
def EnumBuf.store (o : ByteOrder) (b : EnumBuf) (p n v : ℕ) : EnumBuf := b.copy p n (o.byte n v)

/-- The place of `dat[i]`; the offset is a product of 64 bits, and a record has 24 bytes. -/
def cellAt (i : BitVec 32) : ℕ := (24#64 * i.signExtend 64).toNat

/-- `arrnext` for a name of length `len` at `coff`. -/
def nextCell (coff len : BitVec 32) : BitVec 32 :=
  let next := ((1#32 + coff).signExtend 64 + len.signExtend 64 / 24#64).setWidth 32
  if len.signExtend 64 % 24#64 ≠ 0 then next + 1#32 else next

/-- `outlen <= coff * sizeof( nsenum_t ) + len` -/
def noSpace (outlen coff len : BitVec 32) : Bool :=
  (outlen.signExtend 64).ule (24#64 * coff.signExtend 64 + len.signExtend 64)

/-- What is done with an entry that is asked for, and whether there is no space for it. -/
def EnumBuf.put (o : ByteOrder) (outlen : BitVec 32) (b : EnumBuf) (cur : NsEnt) : EnumBuf × Bool :=
  let len := BitVec.ofNat 32 cur.size
  let arrnext := nextCell b.coff len
  let dat := cellAt b.coff
  let b' := ((b.store o dat 8 cur.value.toNat).store o (dat + 8) 8 cur.flags.toNat).store o
    (dat + 16) 4 arrnext.toNat
  if noSpace outlen b.coff len then (b', true)
  else
    ({ b'.copy (cellAt (b.coff + 1)) cur.size (fun i => cur.name.getD i 0) with
        coff := arrnext
        found := b.found ++ [cur] }, false)

/-- What `ns_decode_enum` is called with; the value for a lookup by value. -/
structure EnumArgs where
  start : ℕ
  overflow : ℕ
  outlen : BitVec 32
  maxNum : BitVec 32
  value : Option (BitVec 64)

/-- `bValue` is set, and the entry has another value. -/
def EnumArgs.other (a : EnumArgs) (e : NsEnt) : Bool := a.value.any fun v => v ≠ e.value

/-- The variables of the loops. -/
structure DecodeState where
  buf : EnumBuf
  chainPos : ℕ
  lastHash : ℕ
  lastOverflow : ℕ
  bSpace : Bool

variable (o : ByteOrder) (a : EnumArgs)

/-- The inner loop, and whether it leaves the outer one. -/
def decodeChain : List NsEnt → DecodeState → DecodeState × Bool
  | [], s => (s, false)
  | cur :: rest, s =>
    let passed := cur.hash = a.start ∧ s.chainPos < a.overflow
    let s := if cur.hash = a.start then { s with chainPos := s.chainPos + 1 } else s
    if passed ∨ a.other cur then decodeChain rest { s with lastOverflow := s.lastOverflow + 1 }
    else
      match s.buf.put o a.outlen cur with
      | (buf, true) => ({ s with buf := buf, bSpace := true }, true)
      | (buf, false) =>
        let s := { s with buf := buf, lastOverflow := s.lastOverflow + 1 }
        if a.maxNum.toInt ≤ buf.found.length then (s, true) else decodeChain rest s

/-- The outer loop. -/
def decodeChains : List NsChain → DecodeState → DecodeState
  | [], s => s
  | chain :: rest, s =>
    match decodeChain o a chain.ents { s with lastHash := chain.head.hash, lastOverflow := 0 } with
    | (s, true) => s
    | (s, false) => decodeChains rest s

/-- `NST_OK`, `NST_FAIL` and `NST_MOREMEM`. -/
inductive NsCode where
  | ok
  | fail
  | moremem
  deriving DecidableEq

/-- What `ns_decode_enum` returns, with the buffer and what it writes to the first record. -/
structure Decoded where
  code : NsCode
  buf : EnumBuf
  nextStart : ℕ
  nextOverflow : ℕ

/-- The variables at the start. -/
def decodeInit (m : ℕ → BitVec 8) : DecodeState where
  buf := { mem := m, writes := [], coff := 1#32, found := [] }
  chainPos := 0
  lastHash := 0
  lastOverflow := 0
  bSpace := false

/-- `ns_decode_enum` -/
def nsDecodeEnum (eout : List NsChain) (m : ℕ → BitVec 8) : Decoded :=
  let s := decodeChains o a eout (decodeInit m)
  { code := if s.buf.found = [] ∧ s.bSpace then .moremem else .ok
    buf := ((s.buf.store o 0 8 s.buf.found.length).store o 8 8 s.lastHash).store o 16 8
      s.lastOverflow
    nextStart := s.lastHash
    nextOverflow := s.lastOverflow }

/-! ### What it is meant to do -/

/-- The records of the entries can be followed from `i` on, each with its name, and the names end in
the buffer. -/
def Walkable (m : ℕ → BitVec 8) (outlen : ℤ) : List NsEnt → ℕ → Prop
  | [], _ => True
  | e :: l, i =>
    load o m (24 * i) 8 = e.value.toNat ∧ load o m (24 * i + 8) 8 = e.flags.toNat ∧
      (∀ j (hj : j < e.name.length), m (24 * (i + 1) + j) = e.name[j]) ∧
        m (24 * (i + 1) + e.name.length) = 0 ∧ (24 * (i + 1) + e.size : ℕ) ≤ outlen ∧
          Walkable m outlen l (load o m (24 * i + 16) 4)

/-- **Nothing is written outside the buffer, and what it reports can be read there.** -/
structure EnumBuf.Respects (b : EnumBuf) (outlen : ℤ) : Prop where
  inside : ∀ w ∈ b.writes, (w.hi : ℤ) ≤ outlen
  num : load o b.mem 0 8 = b.found.length
  walk : Walkable o b.mem outlen b.found 1

/-- The entries that are asked for, of those that are given: the ones from the cursor on, with the
value. -/
def EnumArgs.hits : List NsEnt → ℕ → List NsEnt
  | [], _ => []
  | cur :: rest, pos =>
    let pos' := if cur.hash = a.start then pos + 1 else pos
    if (cur.hash = a.start ∧ pos < a.overflow) ∨ a.other cur then EnumArgs.hits rest pos'
    else cur :: EnumArgs.hits rest pos'

/-- How many entries are copied at most. -/
def EnumArgs.most : ℕ := (max 1 a.maxNum.toInt).toNat

/-- How many records an entry takes with its name. -/
def NsEnt.cells (e : NsEnt) : ℕ := 1 + (e.size + 23) / 24

/-- **A buffer is roomy for entries** from a place on, in records: an entry fits with its name, or
only what is written of it before the look at the size does, and the look shows that there is no
space. -/
def Roomy (outlen : BitVec 32) : ℕ → List NsEnt → Prop
  | _, [] => True
  | p, e :: l =>
    ((24 * p + 20 : ℕ) : ℤ) ≤ outlen.toInt ∧
      (((24 * (p + 1) + e.size : ℕ) : ℤ) ≤ outlen.toInt ∧ Roomy outlen (p + e.cells) l ∨
        noSpace outlen (BitVec.ofNat 32 p) (BitVec.ofNat 32 e.size))

/-! ### What is copied -/

variable {o a} {s s' : DecodeState} {b b' : EnumBuf} {e : NsEnt} {l ents : List NsEnt} {n p pos : ℕ}
  {outlen : BitVec 32}

/-- Entries are copied one after the other, as long as there is space. -/
def EnumBuf.fill (o : ByteOrder) (outlen : BitVec 32) : List NsEnt → EnumBuf → EnumBuf × Bool
  | [], b => (b, false)
  | e :: l, b =>
    match b.put o outlen e with
    | (b, true) => (b, true)
    | (b, false) => EnumBuf.fill o outlen l b

/-- The position behind entries in those with the hash of the cursor. -/
def EnumArgs.posAfter (a : EnumArgs) (ents : List NsEnt) (pos : ℕ) : ℕ :=
  pos + ents.countP fun e => e.hash = a.start

/-- How many entries are still to be copied at most. -/
def EnumArgs.left (a : EnumArgs) (b : EnumBuf) : ℕ :=
  (max 1 (a.maxNum.toInt - b.found.length)).toNat

theorem EnumArgs.posAfter_cons : a.posAfter (e :: ents) pos =
    a.posAfter ents (if e.hash = a.start then pos + 1 else pos) := by
  unfold EnumArgs.posAfter
  by_cases he : e.hash = a.start
  · simp only [List.countP_cons, he, decide_true, if_true]
    omega
  · simp [he]

theorem EnumArgs.hits_append (l l' : List NsEnt) (pos : ℕ) :
    a.hits (l ++ l') pos = a.hits l pos ++ a.hits l' (a.posAfter l pos) := by
  induction l generalizing pos with
  | nil => rfl
  | cons e l ih =>
    rw [List.cons_append, EnumArgs.hits, EnumArgs.hits, EnumArgs.posAfter_cons, ih]
    split <;> rfl

/-- What has been found stays, with one entry more unless there is no space. -/
theorem EnumBuf.found_put (b : EnumBuf) (e : NsEnt) : (b.put o outlen e).1.found =
    if (b.put o outlen e).2 then b.found else b.found ++ [e] := by
  unfold EnumBuf.put
  dsimp only
  split <;> rfl

/-- **The inner loop copies the entries that are asked for**, until it leaves. -/
theorem decodeChain_buf {out : Bool} (hspace : s.bSpace = false)
    (h : decodeChain o a ents s = (s', out)) :
    (out = true ∧ ∀ l, EnumBuf.fill o a.outlen ((a.hits ents s.chainPos ++ l).take (a.left s.buf))
      s.buf = (s'.buf, s'.bSpace)) ∨
    (out = false ∧ s'.bSpace = false ∧ s'.chainPos = a.posAfter ents s.chainPos ∧
      ∀ l, EnumBuf.fill o a.outlen ((a.hits ents s.chainPos ++ l).take (a.left s.buf)) s.buf =
        EnumBuf.fill o a.outlen (l.take (a.left s'.buf)) s'.buf) := by
  induction ents generalizing s with
  | nil =>
    obtain ⟨rfl, rfl⟩ := Prod.mk.inj h
    exact Or.inr ⟨rfl, hspace, rfl, fun l => rfl⟩
  | cons cur rest ih =>
    rw [decodeChain] at h
    rw [EnumArgs.hits, EnumArgs.posAfter_cons]
    set s₁ : DecodeState :=
      if cur.hash = a.start then { s with chainPos := s.chainPos + 1 } else s with hs₁
    have hbuf : s₁.buf = s.buf := by
      rw [hs₁]
      split <;> rfl
    have hspace₁ : s₁.bSpace = false := by
      rw [hs₁]
      split <;> exact hspace
    have hpos : s₁.chainPos = if cur.hash = a.start then s.chainPos + 1 else s.chainPos := by
      rw [hs₁]
      split <;> rfl
    dsimp only at h ⊢
    rw [← hpos, ← hbuf]
    by_cases hpass : (cur.hash = a.start ∧ s.chainPos < a.overflow) ∨ a.other cur
    · rw [if_pos hpass] at h ⊢
      exact ih (s := { s₁ with lastOverflow := s₁.lastOverflow + 1 }) hspace₁ h
    · rw [if_neg hpass] at h ⊢
      have hfound : (s₁.buf.put o a.outlen cur).1.found = _ := EnumBuf.found_put s₁.buf cur
      -- one entry is copied at least
      have hleft : a.left s₁.buf = (a.left s₁.buf - 1) + 1 := by
        unfold EnumArgs.left
        omega
      rw [hleft]
      simp only [List.cons_append, List.take_succ_cons, EnumBuf.fill]
      cases hput : s₁.buf.put o a.outlen cur with
      | mk buf full =>
        rw [hput] at h hfound
        cases full with
        | true =>
          obtain ⟨rfl, rfl⟩ := Prod.mk.inj h
          exact Or.inl ⟨rfl, fun l => rfl⟩
        | false =>
          dsimp only at h hfound ⊢
          rw [if_neg Bool.false_ne_true] at hfound
          have hlen : (buf.found.length : ℤ) = s₁.buf.found.length + 1 := by
            rw [hfound, List.length_append]
            rfl
          by_cases hmax : a.maxNum.toInt ≤ buf.found.length
          · rw [if_pos hmax] at h
            obtain ⟨rfl, rfl⟩ := Prod.mk.inj h
            refine Or.inl ⟨rfl, fun l => ?_⟩
            have hlast : a.left s₁.buf - 1 = 0 := by
              unfold EnumArgs.left
              omega
            rw [hlast, List.take_zero, EnumBuf.fill, hspace₁]
          · rw [if_neg hmax] at h
            have hmore : a.left s₁.buf - 1 = a.left buf := by
              unfold EnumArgs.left
              omega
            rw [hmore]
            exact ih (s := { s₁ with buf := buf, lastOverflow := s₁.lastOverflow + 1 }) hspace₁ h

/-- **What is written depends on the entries that are asked for only.** -/
theorem decodeChains_buf (eout : List NsChain) (hspace : s.bSpace = false) :
    EnumBuf.fill o a.outlen ((a.hits (eout.flatMap NsChain.ents) s.chainPos).take (a.left s.buf))
      s.buf = ((decodeChains o a eout s).buf, (decodeChains o a eout s).bSpace) := by
  induction eout generalizing s with
  | nil =>
    rw [List.flatMap_nil, EnumArgs.hits, List.take_nil, EnumBuf.fill, decodeChains, hspace]
  | cons chain rest ih =>
    rw [List.flatMap_cons, EnumArgs.hits_append, decodeChains]
    cases hchain : decodeChain o a chain.ents
      { s with lastHash := chain.head.hash, lastOverflow := 0 } with
    | mk s₁ out =>
      rcases decodeChain_buf (s := { s with lastHash := chain.head.hash, lastOverflow := 0 })
        hspace hchain with ⟨rfl, hfill⟩ | ⟨rfl, hspace₁, hpos, hfill⟩
      · exact hfill _
      · dsimp only at hpos hfill ⊢
        rw [hfill, ← hpos]
        exact ih hspace₁

/-! ### Numbers of 32 bits -/

theorem signExtend_toNat {x : BitVec 32} (h : x.toNat < 2 ^ 31) :
    (x.signExtend 64).toNat = x.toNat := by
  have hmsb : x.msb = false := by
    rw [BitVec.msb_eq_false_iff_two_mul_lt]
    omega
  rw [BitVec.signExtend_eq_setWidth_of_msb_false hmsb, BitVec.toNat_setWidth]
  exact Nat.mod_eq_of_lt (by omega)

theorem ofNat_toNat (h : n < 2 ^ 31) : (BitVec.ofNat 32 n).toNat = n := by
  rw [BitVec.toNat_ofNat]
  exact Nat.mod_eq_of_lt (by omega)

theorem cellAt_ofNat (h : n < 2 ^ 31) : cellAt (BitVec.ofNat 32 n) = 24 * n := by
  have hn := ofNat_toNat h
  unfold cellAt
  rw [BitVec.toNat_mul, signExtend_toNat (by omega), hn]
  exact Nat.mod_eq_of_lt (by change 24 * n < _; omega)

theorem nextCell_ofNat (hp : p + 1 < 2 ^ 31) (hn : n < 2 ^ 31) (hpn : p + 1 + n < 2 ^ 31) :
    nextCell (BitVec.ofNat 32 p) (BitVec.ofNat 32 n) =
      BitVec.ofNat 32 (p + (1 + (n + 23) / 24)) := by
  have hlen := signExtend_toNat (x := BitVec.ofNat 32 n) (by rw [ofNat_toNat hn]; exact hn)
  have hcoff : (1#32 + BitVec.ofNat 32 p).toNat = p + 1 := by
    rw [BitVec.toNat_add, ofNat_toNat (n := p) (by omega)]
    change (1 + p) % _ = _
    omega
  have hcoff' := signExtend_toNat (x := 1#32 + BitVec.ofNat 32 p) (by rw [hcoff]; exact hp)
  rw [ofNat_toNat hn] at hlen
  rw [hcoff] at hcoff'
  have hnext : (((1#32 + BitVec.ofNat 32 p).signExtend 64 +
      (BitVec.ofNat 32 n).signExtend 64 / 24#64).setWidth 32).toNat = p + 1 + n / 24 := by
    rw [BitVec.toNat_setWidth, BitVec.toNat_add, BitVec.toNat_udiv, hlen, hcoff']
    change (p + 1 + n / 24) % _ % _ = _
    omega
  have hmod : (BitVec.ofNat 32 n).signExtend 64 % 24#64 ≠ 0 ↔ n % 24 ≠ 0 := by
    rw [Ne, ← BitVec.toNat_inj, BitVec.toNat_umod, hlen]
    rfl
  unfold nextCell
  dsimp only
  apply BitVec.eq_of_toNat_eq
  rw [ofNat_toNat (by omega)]
  by_cases h : n % 24 ≠ 0
  · rw [if_pos (hmod.mpr h), BitVec.toNat_add, hnext]
    change (p + 1 + n / 24 + 1) % _ = _
    omega
  · rw [if_neg (fun h' => h (hmod.mp h')), hnext]
    omega

theorem noSpace_ofNat (hout : outlen.toNat < 2 ^ 31) (hp : p < 2 ^ 31) (hn : n < 2 ^ 31) :
    noSpace outlen (BitVec.ofNat 32 p) (BitVec.ofNat 32 n) = true ↔
      outlen.toNat ≤ 24 * p + n := by
  have hlen := signExtend_toNat (x := BitVec.ofNat 32 n) (by rw [ofNat_toNat hn]; exact hn)
  have hcoff := signExtend_toNat (x := BitVec.ofNat 32 p) (by rw [ofNat_toNat hp]; exact hp)
  rw [ofNat_toNat hn] at hlen
  rw [ofNat_toNat hp] at hcoff
  unfold noSpace
  rw [BitVec.ule_eq_decide, decide_eq_true_eq, signExtend_toNat hout, BitVec.toNat_add,
    BitVec.toNat_mul, hlen, hcoff]
  change _ ≤ (24 * p % _ + n) % _ ↔ _
  omega

/-! ### Where it is written -/

/-- A span ends in the buffer. -/
def Within (outlen : BitVec 32) (l : List Span) : Prop := ∀ w ∈ l, (w.hi : ℤ) ≤ outlen.toInt

theorem within_append {l l' : List Span} :
    Within outlen (l ++ l') ↔ Within outlen l ∧ Within outlen l' := by
  unfold Within
  simp only [List.mem_append, or_imp, forall_and]

theorem within_singleton {w : Span} : Within outlen [w] ↔ (w.hi : ℤ) ≤ outlen.toInt := by
  simp [Within]

/-- What is written of an entry before the look at the size. -/
def EnumBuf.header (o : ByteOrder) (b : EnumBuf) (cur : NsEnt) : EnumBuf :=
  ((b.store o (cellAt b.coff) 8 cur.value.toNat).store o (cellAt b.coff + 8) 8
    cur.flags.toNat).store o (cellAt b.coff + 16) 4
      (nextCell b.coff (BitVec.ofNat 32 cur.size)).toNat

/-- What is written after it, and the step to the next record. -/
def EnumBuf.string (b : EnumBuf) (cur : NsEnt) : EnumBuf :=
  { b.copy (cellAt (b.coff + 1)) cur.size (fun i => cur.name.getD i 0) with
    coff := nextCell b.coff (BitVec.ofNat 32 cur.size)
    found := b.found ++ [cur] }

@[simp] theorem coff_header (b : EnumBuf) (e : NsEnt) : (b.header o e).coff = b.coff := rfl

theorem mem_string (b : EnumBuf) (e : NsEnt) : (b.string e).mem =
    copy b.mem (cellAt (b.coff + 1)) e.size fun i => e.name.getD i 0 := rfl

theorem EnumBuf.put_eq (b : EnumBuf) (e : NsEnt) : b.put o outlen e =
    if noSpace outlen b.coff (BitVec.ofNat 32 e.size) then (b.header o e, true)
    else ((b.header o e).string e, false) := rfl

theorem EnumBuf.fill_cons (b : EnumBuf) (e : NsEnt) (l : List NsEnt) :
    EnumBuf.fill o outlen (e :: l) b =
      if noSpace outlen b.coff (BitVec.ofNat 32 e.size) then (b.header o e, true)
      else EnumBuf.fill o outlen l ((b.header o e).string e) := by
  rw [EnumBuf.fill, EnumBuf.put_eq]
  split
  · next h => split at h <;> simp_all
  · next h => split at h <;> simp_all

theorem within_header : Within outlen (b.header o e).writes ↔
    Within outlen b.writes ∧ ((cellAt b.coff + 20 : ℕ) : ℤ) ≤ outlen.toInt := by
  unfold EnumBuf.header EnumBuf.store EnumBuf.copy
  simp only [within_append, within_singleton]
  constructor
  · exact fun h => ⟨h.1.1.1, h.2⟩
  · exact fun h => ⟨⟨⟨h.1, by omega⟩, by omega⟩, h.2⟩

theorem within_string : Within outlen (b.string e).writes ↔
    Within outlen b.writes ∧ ((cellAt (b.coff + 1) + e.size : ℕ) : ℤ) ≤ outlen.toInt := by
  unfold EnumBuf.string EnumBuf.copy
  simp only [within_append, within_singleton]

/-- What has been written is not taken back. -/
theorem within_of_fill (h : Within outlen (EnumBuf.fill o outlen l b).1.writes) :
    Within outlen b.writes := by
  induction l generalizing b with
  | nil => exact h
  | cons e l ih =>
    rw [EnumBuf.fill_cons] at h
    split at h
    · exact (within_header.mp h).1
    · exact (within_header.mp (within_string.mp (ih h)).1).1

theorem toInt_eq_toNat (h : 0 ≤ outlen.toInt) :
    outlen.toInt = outlen.toNat ∧ outlen.toNat < 2 ^ 31 := by
  have hlt := outlen.isLt
  rw [BitVec.toInt_eq_toNat_cond] at h ⊢
  split at h <;> omega

/-- **Entries stay in the buffer if and only if it is roomy for them.** -/
theorem fill_within_iff (hout : 0 ≤ outlen.toInt) (l : List NsEnt) : ∀ (b : EnumBuf) (p : ℕ),
    Within outlen b.writes → b.coff = BitVec.ofNat 32 p → 24 * p ≤ outlen.toNat + 24 →
      (Within outlen (EnumBuf.fill o outlen l b).1.writes ↔ Roomy outlen p l) := by
  obtain ⟨hnat, hlt⟩ := toInt_eq_toNat hout
  induction l with
  | nil => exact fun b p hb _ _ => iff_of_true hb trivial
  | cons e l ih =>
    intro b p hb hcoff hp
    have hcell : cellAt b.coff = 24 * p := by
      rw [hcoff, cellAt_ofNat (by omega)]
    have hnext : cellAt (b.coff + 1) = 24 * (p + 1) := by
      rw [hcoff, ← cellAt_ofNat (n := p + 1) (by omega)]
      congr 1
      exact (BitVec.ofNat_add p 1).symm
    rw [EnumBuf.fill_cons, Roomy, hcoff]
    by_cases hheader : ((24 * p + 20 : ℕ) : ℤ) ≤ outlen.toInt
    · have hb' : Within outlen (b.header o e).writes :=
        within_header.mpr ⟨hb, hcell ▸ hheader⟩
      by_cases hno : noSpace outlen (BitVec.ofNat 32 p) (BitVec.ofNat 32 e.size) = true
      · rw [if_pos hno]
        exact iff_of_true hb' ⟨hheader, Or.inr hno⟩
      · rw [if_neg hno]
        have hstring : Within outlen ((b.header o e).string e).writes ↔
            ((24 * (p + 1) + e.size : ℕ) : ℤ) ≤ outlen.toInt := by
          rw [within_string, ← hnext]
          exact and_iff_right hb'
        by_cases hfit : ((24 * (p + 1) + e.size : ℕ) : ℤ) ≤ outlen.toInt
        · have hcoff' : ((b.header o e).string e).coff = BitVec.ofNat 32 (p + e.cells) := by
            change nextCell b.coff _ = _
            rw [hcoff, nextCell_ofNat (by omega) (by omega) (by omega)]
            rfl
          rw [ih _ (p + e.cells) (hstring.mpr hfit) hcoff' (by unfold NsEnt.cells; omega)]
          simp only [hheader, hfit, hno, true_and, or_false, Bool.false_eq_true]
        · refine iff_of_false (fun h => hfit (hstring.mp (within_of_fill h))) ?_
          rintro ⟨-, ⟨hfit', -⟩ | hno'⟩
          · exact hfit hfit'
          · exact hno hno'
    · refine iff_of_false (fun h => hheader ?_) fun h => hheader h.1
      rw [← hcell]
      split at h
      · exact (within_header.mp h).2
      · exact (within_header.mp (within_string.mp (within_of_fill h)).1).2

/-! ### What is found there -/

theorem load_congr {m m' : ℕ → BitVec 8} {q k : ℕ} (h : ∀ i < k, m' (q + i) = m (q + i)) :
    load o m' q k = load o m q k :=
  o.number_congr _ _ _ h

/-- What an entry leaves in memory. -/
structure Written (o : ByteOrder) (m : ℕ → BitVec 8) (e : NsEnt) (p next : ℕ) : Prop where
  value : load o m (24 * p) 8 = e.value.toNat
  flags : load o m (24 * p + 8) 8 = e.flags.toNat
  next : load o m (24 * p + 16) 4 = next
  name : ∀ j (hj : j < e.name.length), m (24 * (p + 1) + j) = e.name[j]
  nul : m (24 * (p + 1) + e.name.length) = 0

/-- It is there as long as the memory is not written to again. -/
theorem Written.congr {m m' : ℕ → BitVec 8} {next : ℕ} (h : Written o m e p next)
    (hsame : ∀ q, 24 * p ≤ q → q < 24 * (p + 1) + e.size → m' q = m q) :
    Written o m' e p next := by
  have hname : ∀ j ≤ e.name.length, m' (24 * (p + 1) + j) = m (24 * (p + 1) + j) := by
    intro j hj
    refine hsame _ (by omega) ?_
    unfold NsEnt.size
    omega
  refine ⟨?_, ?_, ?_, fun j hj => (hname j hj.le).trans (h.name j hj), ?_⟩
  · rw [← h.value]
    exact load_congr fun i hi => hsame _ (by omega) (by omega)
  · rw [← h.flags]
    exact load_congr fun i hi => hsame _ (by omega) (by omega)
  · rw [← h.next]
    exact load_congr fun i hi => hsame _ (by omega) (by omega)
  · exact (hname _ le_rfl).trans h.nul

/-- An entry that is copied to its place. -/
theorem written_string (hcell : cellAt b.coff = 24 * p)
    (hnext : cellAt (b.coff + 1) = 24 * (p + 1)) :
    Written o ((b.header o e).string e).mem e p
      (nextCell b.coff (BitVec.ofNat 32 e.size)).toNat := by
  have hmem : ((b.header o e).string e).mem = copy (b.header o e).mem (24 * (p + 1)) e.size
      fun i => e.name.getD i 0 := by
    rw [mem_string, coff_header, hnext]
  have hheader : (b.header o e).mem = store o (store o (store o b.mem (24 * p) 8 e.value.toNat)
      (24 * p + 8) 8 e.flags.toNat) (24 * p + 16) 4
        (nextCell b.coff (BitVec.ofNat 32 e.size)).toNat := by
    rw [← hcell]
    rfl
  rw [hmem]
  refine ⟨?_, ?_, ?_, fun j hj => ?_, ?_⟩
  · rw [load_copy_of_apart (by omega), hheader, load_store_of_apart (by omega),
      load_store_of_apart (by omega), load_store_self]
    exact Nat.mod_eq_of_lt e.value.isLt
  · rw [load_copy_of_apart (by omega), hheader, load_store_of_apart (by omega), load_store_self]
    exact Nat.mod_eq_of_lt e.flags.isLt
  · rw [load_copy_of_apart (by omega), hheader, load_store_self]
    exact Nat.mod_eq_of_lt (BitVec.isLt _)
  · rw [copy_inside (by unfold NsEnt.size; omega), List.getD_eq_getElem?_getD,
      List.getElem?_eq_getElem hj, Option.getD_some]
  · have hend : e.name.length < e.size := Nat.lt_succ_self _
    rw [copy_inside hend, List.getD_eq_getElem?_getD,
      List.getElem?_eq_none le_rfl, Option.getD_none]

/-- Memory in front of a record is not written to. -/
theorem mem_header {q : ℕ} (hcell : cellAt b.coff = 24 * p) (hq : q < 24 * p) :
    (b.header o e).mem q = b.mem q := by
  have hheader : (b.header o e).mem = store o (store o (store o b.mem (24 * p) 8 e.value.toNat)
      (24 * p + 8) 8 e.flags.toNat) (24 * p + 16) 4
        (nextCell b.coff (BitVec.ofNat 32 e.size)).toNat := by
    rw [← hcell]
    rfl
  rw [hheader]
  unfold store
  rw [copy_outside (by omega), copy_outside (by omega), copy_outside (by omega)]

/-- **Entries that are copied to a roomy buffer can be followed there**, whatever is done to the
memory in front of them. -/
theorem fill_walkable (hout : 0 ≤ outlen.toInt) (l : List NsEnt) : ∀ (b : EnumBuf) (p : ℕ),
    b.coff = BitVec.ofNat 32 p → 24 * p ≤ outlen.toNat + 24 → Roomy outlen p l →
      ∃ new, (EnumBuf.fill o outlen l b).1.found = b.found ++ new ∧
        24 * (p + new.length) ≤ outlen.toNat + 24 ∧
        (∀ q < 24 * p, (EnumBuf.fill o outlen l b).1.mem q = b.mem q) ∧
        ∀ m, (∀ q, 24 * p ≤ q → m q = (EnumBuf.fill o outlen l b).1.mem q) →
          Walkable o m outlen.toInt new p := by
  obtain ⟨hnat, hlt⟩ := toInt_eq_toNat hout
  induction l with
  | nil =>
    intro b p _ hp _
    exact ⟨[], (List.append_nil _).symm, hp, fun _ _ => rfl, fun _ _ => trivial⟩
  | cons e l ih =>
    intro b p hcoff hp hroomy
    have hcell : cellAt b.coff = 24 * p := by
      rw [hcoff, cellAt_ofNat (by omega)]
    have hnext : cellAt (b.coff + 1) = 24 * (p + 1) := by
      rw [hcoff, ← cellAt_ofNat (n := p + 1) (by omega)]
      congr 1
      exact (BitVec.ofNat_add p 1).symm
    obtain ⟨hheader, hrest⟩ := hroomy
    rw [EnumBuf.fill_cons, hcoff]
    by_cases hno : noSpace outlen (BitVec.ofNat 32 p) (BitVec.ofNat 32 e.size) = true
    · rw [if_pos hno]
      exact ⟨[], (List.append_nil _).symm, hp, fun q hq => mem_header hcell hq, fun _ _ => trivial⟩
    · rw [if_neg hno]
      obtain ⟨hfit, hrest⟩ := hrest.resolve_right hno
      have hcoff' : ((b.header o e).string e).coff = BitVec.ofNat 32 (p + e.cells) := by
        change nextCell b.coff _ = _
        rw [hcoff, nextCell_ofNat (by omega) (by omega) (by omega)]
        rfl
      have hwritten := written_string (o := o) (e := e) hcell hnext
      obtain ⟨new, hfound, hlen, hbefore, hwalk⟩ :=
        ih _ (p + e.cells) hcoff' (by unfold NsEnt.cells; omega) hrest
      have hcells : 24 * (p + 1) + e.size ≤ 24 * (p + e.cells) := by
        unfold NsEnt.cells
        omega
      refine ⟨e :: new, ?_, ?_, fun q hq => ?_, fun m hm => ?_⟩
      · rw [hfound]
        change (b.found ++ [e]) ++ new = _
        rw [List.append_assoc]
        rfl
      · rw [List.length_cons]
        unfold NsEnt.cells at hlen
        omega
      · have hafter : q < cellAt ((b.header o e).coff + 1) := by
          rw [coff_header, hnext]
          omega
        rw [hbefore q (by omega), ← mem_header (o := o) (e := e) hcell hq, mem_string,
          copy_outside (Or.inl hafter)]
      · -- the rest leaves this entry as it is
        have hsame : ∀ q, 24 * p ≤ q → q < 24 * (p + 1) + e.size →
            m q = ((b.header o e).string e).mem q := by
          intro q hlow hhigh
          rw [hm q hlow]
          exact hbefore q (by omega)
        have hhere := hwritten.congr hsame
        have hnext' : (nextCell b.coff (BitVec.ofNat 32 e.size)).toNat = p + e.cells := by
          change ((b.header o e).string e).coff.toNat = _
          rw [hcoff', ofNat_toNat (by unfold NsEnt.cells; omega)]
        rw [hnext'] at hhere
        refine ⟨hhere.value, hhere.flags, hhere.name, hhere.nul, hfit, ?_⟩
        rw [hhere.next]
        exact hwalk m fun q hq => hm q (by omega)

/-- **`ns_decode_enum` stays in its buffer if and only if the buffer has the first record and is
roomy for the entries that are asked for.** -/
theorem decodeEnum_respects_iff (o : ByteOrder) (a : EnumArgs) (eout : List NsChain)
    (m : ℕ → BitVec 8) : (nsDecodeEnum o a eout m).buf.Respects o a.outlen.toInt ↔
      24 ≤ a.outlen.toInt ∧
        Roomy a.outlen 1 ((a.hits (eout.flatMap NsChain.ents) 0).take a.most) := by
  have hfill := decodeChains_buf (o := o) (a := a) (s := decodeInit m) eout rfl
  have hmost : a.left (decodeInit m).buf = a.most := by
    unfold EnumArgs.left EnumArgs.most
    simp [decodeInit]
  rw [hmost] at hfill
  change EnumBuf.fill o a.outlen ((a.hits (eout.flatMap NsChain.ents) 0).take a.most) _ = _ at hfill
  set l := (a.hits (eout.flatMap NsChain.ents) 0).take a.most
  set s := decodeChains o a eout (decodeInit m)
  have hwrites : (nsDecodeEnum o a eout m).buf.writes =
      s.buf.writes ++ [⟨0, 0 + 8⟩] ++ [⟨8, 8 + 8⟩] ++ [⟨16, 16 + 8⟩] := rfl
  have hmem : (nsDecodeEnum o a eout m).buf.mem =
      store o (store o (store o s.buf.mem 0 8 s.buf.found.length) 8 8 s.lastHash) 16 8
        s.lastOverflow := rfl
  have hwithin : Within a.outlen (nsDecodeEnum o a eout m).buf.writes ↔
      Within a.outlen s.buf.writes ∧ 24 ≤ a.outlen.toInt := by
    rw [hwrites]
    simp only [within_append, within_singleton]
    constructor
    · exact fun h => ⟨h.1.1.1, h.2⟩
    · exact fun h => ⟨⟨⟨h.1, by omega⟩, by omega⟩, h.2⟩
  have hfilled : (EnumBuf.fill o a.outlen l (decodeInit m).buf).1 = s.buf := by
    rw [hfill]
  by_cases hout : 24 ≤ a.outlen.toInt
  · have hnonneg : 0 ≤ a.outlen.toInt := by
      omega
    obtain ⟨hnat, hlt⟩ := toInt_eq_toNat hnonneg
    have hiff := fill_within_iff (o := o) hnonneg l (decodeInit m).buf 1 nofun rfl (by omega)
    rw [hfilled] at hiff
    constructor
    · intro h
      exact ⟨hout, hiff.mp (hwithin.mp h.inside).1⟩
    · rintro ⟨-, hroomy⟩
      obtain ⟨new, hfound, hlen, -, hwalk⟩ := fill_walkable (o := o) hnonneg l
        (decodeInit m).buf 1 rfl (by omega) hroomy
      rw [hfilled] at hfound hwalk
      change s.buf.found = [] ++ new at hfound
      rw [List.nil_append] at hfound
      refine ⟨hwithin.mpr ⟨hiff.mpr hroomy, hout⟩, ?_, ?_⟩
      · rw [hmem, load_store_of_apart (by omega), load_store_of_apart (by omega), load_store_self]
        change s.buf.found.length % _ = s.buf.found.length
        rw [hfound]
        exact Nat.mod_eq_of_lt (by omega)
      · change Walkable o _ _ s.buf.found 1
        rw [hfound, hmem]
        refine hwalk _ fun q hq => ?_
        unfold store
        rw [copy_outside (by omega), copy_outside (by omega), copy_outside (by omega)]
  · exact iff_of_false (fun h => hout (hwithin.mp h.inside).2) fun h => hout h.1

/-- An entry with a name of one letter. -/
def letterEnt : NsEnt where
  value := 7
  flags := 0
  name := [97]
  hash := 97
  noNul := by decide

/-- **A buffer that is not respected**: for 49 bytes there is room for the records, but not for the
name behind the second one. -/
theorem decodeEnum_not_respects :
    ¬ (nsDecodeEnum .little
        { start := 0, overflow := 0, outlen := 49#32, maxNum := 1#32, value := none }
          [⟨letterEnt, []⟩] fun _ => 0).buf.Respects .little 49 := by
  intro h
  have hwrites : (⟨48, 50⟩ : Span) ∈ (nsDecodeEnum .little
      { start := 0, overflow := 0, outlen := 49#32, maxNum := 1#32, value := none }
        [⟨letterEnt, []⟩] fun _ => 0).buf.writes := by
    decide +kernel
  have hle : ((50 : ℕ) : ℤ) ≤ 49 := h.inside _ hwrites
  omega

end Mungi.Naming
