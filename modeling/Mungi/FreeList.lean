import Mungi.Lib.Spans
import Mungi.Words

/-!
# The free list

The pages that no object uses are kept in a list of chunks in the order of their
addresses (`mm.c`).  Giving a chunk back joins it to its neighbours, allocation takes
the front of the first chunk that is large enough, and an object grows into the
chunk behind it.

An access through a null pointer has no result.  A chunk record that is freed while it
is still linked stays in the list.

## Main definitions

* `FreeChunk` — entries of the list.
* `kfreeObj`, `kmallocObj`, `kmallocObjAddr` — the functions.
* `FreeOk`, `GrowOk` — when they do right.

## Main results

* `kfreeObj_spec`, `kmallocObj_spec`, `kmallocObjAddr_spec` — what they do to the spans
  of the list.
-/

namespace Mungi

open Spans

/-- `freelist_t` -/
structure FreeChunk where
  address : ℕ
  size : ℕ
  deriving DecidableEq

/-- The end of a chunk, as the code computes it. -/
def FreeChunk.stop (c : FreeChunk) : ℕ := wordAdd c.address c.size

/-! ### The code -/

/-- `FreeInit` -/
def freeInit (address size : ℕ) : List FreeChunk := [⟨address, size⟩]

/-- The end of `kfree_obj` when the chunk does not join the one before it: the list from
`ptr` on. -/
def linkChunk (address size : ℕ) : List FreeChunk → List FreeChunk
  | [] => [⟨address, size⟩]
  | ptr :: rest =>
    if ptr.address = wordAdd address size then ⟨address, wordAdd ptr.size size⟩ :: rest
    else ⟨address, size⟩ :: ptr :: rest

/-- The end of `kfree_obj` when the chunk joins `ptr2`, the one before it: the list from
`ptr2` on. -/
def joinChunk (address size : ℕ) (ptr2 : FreeChunk) : List FreeChunk → List FreeChunk
  | [] => [{ ptr2 with size := wordAdd ptr2.size size }]
  | ptr :: rest =>
    if ptr.address = wordAdd address size then
      -- `ptr` is freed, but nothing takes it out of the list
      { ptr2 with size := wordAdd (wordAdd ptr2.size size) ptr.size } :: ptr :: rest
    else { ptr2 with size := wordAdd ptr2.size size } :: ptr :: rest

/-- `kfree_obj` once the place of the chunk is found, behind `ptr2`. -/
def kfreeBehind (address size : ℕ) (ptr2 : FreeChunk) (ptr : List FreeChunk) : List FreeChunk :=
  if ptr2.stop = address then joinChunk address size ptr2 ptr
  else ptr2 :: linkChunk address size ptr

/-- The loop of `kfree_obj`, at a chunk `ptr2` in front of the address. -/
def kfreeWalk (address size : ℕ) (ptr2 : FreeChunk) : List FreeChunk → List FreeChunk
  | [] => kfreeBehind address size ptr2 []
  | ptr :: rest =>
    if ptr.address < address then ptr2 :: kfreeWalk address size ptr rest
    else kfreeBehind address size ptr2 (ptr :: rest)

/-- `kfree_obj` -/
def kfreeObj (pageSize : ℕ) (freelist : List FreeChunk) (address size : ℕ) : List FreeChunk :=
  match freelist with
  | [] => freeInit address size
  | first :: rest =>
    if size = 0 then freelist
    else
      let size := pageRoundUp pageSize size
      if first.address < address then kfreeWalk address size first rest
      else if first.stop = address then
        -- no chunk lies in front: `ptr2` and `ptr` both are the first one
        let first := { first with size := wordAdd first.size size }
        if first.address = wordAdd address size then
          { first with size := wordAdd first.size first.size } :: rest
        else first :: rest
      else linkChunk address size freelist

/-- The loop of `kmalloc_obj`: the address of the first chunk that is large enough, and
the list from where the loop starts. -/
def firstFit (size : ℕ) : List FreeChunk → Option (ℕ × List FreeChunk)
  | [] => none
  | fit :: rest =>
    if fit.size ≥ size then
      some (fit.address,
        if fit.size ≠ size then ⟨wordAdd fit.address size, wordSub fit.size size⟩ :: rest
        else rest)
    else (firstFit size rest).map fun r => (r.1, fit :: r.2)

/-- `kmalloc_obj`: the address, 0 for `NULL`, and the list. -/
def kmallocObj (pageSize : ℕ) (freelist : List FreeChunk) (size : ℕ) : ℕ × List FreeChunk :=
  if freelist = [] then (0, freelist)
  else if size = 0 then (0, freelist)
  else (firstFit (pageRoundUp pageSize size) freelist).getD (0, freelist)

/-- `kmalloc_obj_addr` at the chunk `ptr`, the last of `front`, that starts in front of the
address; `rest` lies behind it. -/
def takeInside (freelist front : List FreeChunk) (ptr : FreeChunk) (rest : List FreeChunk)
    (address size : ℕ) : List FreeChunk :=
  if wordAdd address size ≤ ptr.stop then
    let leftover := wordSub ptr.stop (wordAdd address size)
    front.dropLast ++ { ptr with size := wordSub address ptr.address } ::
      (if leftover ≠ 0 then ⟨wordAdd address size, leftover⟩ :: rest else rest)
  else freelist

/-- `kmalloc_obj_addr` at the chunk `ptr` that starts at the address, behind `front`. -/
def takeStart (freelist front : List FreeChunk) (ptr : FreeChunk) (rest : List FreeChunk)
    (address size : ℕ) : Option (List FreeChunk) :=
  if wordAdd address size ≤ ptr.stop then
    if wordSub ptr.stop (wordAdd address size) = 0 then
      -- `prev` is the last but one of the chunks in front: `NULL`, the head of the list,
      -- or a chunk whose successor is lost with `ptr`
      if front.length < 2 then none
      else if front.length = 2 then some []
      else some (front.dropLast ++ rest)
    else some (front ++ ⟨wordAdd address size, wordSub ptr.size size⟩ :: rest)
  else some freelist

/-- `kmalloc_obj_addr`: the address, 0 for `NULL`, and the list.  The address comes back
also when the chunk found is too small. -/
def kmallocObjAddr (pageSize : ℕ) (freelist : List FreeChunk) (address size : ℕ) :
    Option (ℕ × List FreeChunk) :=
  let address := pageRoundDown pageSize address
  let front := freelist.takeWhile fun c => c.address < address
  let rest := freelist.dropWhile fun c => c.address < address
  let size := pageRoundUp pageSize size
  match rest.head? with
  | some tmp =>
    if tmp.address = address then
      (takeStart freelist front tmp rest.tail address size).map fun l => (address, l)
    else
      match front.getLast? with
      | some ptr => some (address, takeInside freelist front ptr rest address size)
      | none => some (0, freelist)
  | none =>
    match front.getLast? with
    | some ptr => some (address, takeInside freelist front ptr rest address size)
    | none => some (0, freelist)

/-! ### Where a chunk goes -/

section Place
variable {pageSize address size : ℕ} {front back : List FreeChunk} {ptr2 : FreeChunk}

theorem kfreeWalk_behind {first : FreeChunk} {rest : List FreeChunk}
    (heq : first :: rest = front ++ ptr2 :: back) (hfront : ∀ c ∈ front, c.address < address)
    (hptr2 : ptr2.address < address) (hback : ∀ c ∈ back.head?, ¬ c.address < address) :
    kfreeWalk address size first rest = front ++ kfreeBehind address size ptr2 back := by
  induction front generalizing first rest with
  | nil =>
    obtain ⟨rfl, rfl⟩ := List.cons.inj heq
    cases rest with
    | nil => rfl
    | cons c rest => exact if_neg (hback c rfl)
  | cons a front ih =>
    rw [List.cons_append] at heq
    obtain ⟨rfl, rfl⟩ := List.cons.inj heq
    have hfront' : ∀ c ∈ front, c.address < address := fun c hc =>
      hfront c (List.mem_cons_of_mem _ hc)
    obtain ⟨b, l, hl⟩ := List.exists_cons_of_ne_nil (show front ++ ptr2 :: back ≠ [] by simp)
    have hb : b.address < address := by
      have hmem : b ∈ front ++ [ptr2] := by
        cases front with
        | nil => simpa using (List.cons.inj hl).1.symm
        | cons a front => exact (List.cons.inj hl).1 ▸ List.mem_cons_self
      rcases List.mem_append.mp hmem with hmem | hmem
      · exact hfront' b hmem
      · exact List.mem_singleton.mp hmem ▸ hptr2
    rw [hl, kfreeWalk, if_pos hb, ih hl.symm hfront']
    rfl

/-- The chunk goes behind `ptr2`, the last one in front of its address. -/
theorem kfreeObj_behind (h0 : size ≠ 0) (hfront : ∀ c ∈ front, c.address < address)
    (hptr2 : ptr2.address < address) (hback : ∀ c ∈ back.head?, ¬ c.address < address) :
    kfreeObj pageSize (front ++ ptr2 :: back) address size =
      front ++ kfreeBehind address (pageRoundUp pageSize size) ptr2 back := by
  obtain ⟨first, rest, hl⟩ := List.exists_cons_of_ne_nil (show front ++ ptr2 :: back ≠ [] by simp)
  have hfirst : first.address < address := by
    cases front with
    | nil => exact (List.cons.inj hl).1 ▸ hptr2
    | cons a front => exact (List.cons.inj hl).1 ▸ hfront a List.mem_cons_self
  rw [hl, kfreeObj, if_neg h0]
  dsimp only
  rw [if_pos hfirst, kfreeWalk_behind hl.symm hfront hptr2 hback]

/-- Chunks that are too small are passed over. -/
theorem firstFit_append (hfront : ∀ c ∈ front, c.size < size) (l : List FreeChunk) :
    firstFit size (front ++ l) = (firstFit size l).map fun r => (r.1, front ++ r.2) := by
  induction front with
  | nil => simp
  | cons c front ih =>
    have hc : ¬ c.size ≥ size := Nat.not_le.mpr (hfront c List.mem_cons_self)
    rw [List.cons_append, firstFit, if_neg hc,
      ih fun c hc => hfront c (List.mem_cons_of_mem _ hc), Option.map_map]
    rfl

section Cut
variable (hfront : ∀ c ∈ front, c.address < address) (hback : ∀ c ∈ back.head?, ¬ c.address < address)
include hfront hback

theorem takeWhile_front : (front ++ back).takeWhile (fun c => c.address < address) = front := by
  rw [List.takeWhile_append_of_pos fun c hc => decide_eq_true (hfront c hc)]
  cases back with
  | nil => simp
  | cons c back =>
    rw [List.takeWhile_cons_of_neg (by simpa using hback c rfl), List.append_nil]

theorem dropWhile_front : (front ++ back).dropWhile (fun c => c.address < address) = back := by
  rw [List.dropWhile_append_of_pos fun c hc => decide_eq_true (hfront c hc)]
  cases back with
  | nil => rfl
  | cons c back => rw [List.dropWhile_cons_of_neg (by simpa using hback c rfl)]

end Cut

/-- A chunk starts at the address. -/
theorem kmallocObjAddr_start {ptr : FreeChunk} {rest : List FreeChunk}
    (hfront : ∀ c ∈ front, c.address < pageRoundDown pageSize address)
    (hptr : ptr.address = pageRoundDown pageSize address) (size : ℕ) :
    kmallocObjAddr pageSize (front ++ ptr :: rest) address size =
      (takeStart (front ++ ptr :: rest) front ptr rest (pageRoundDown pageSize address)
        (pageRoundUp pageSize size)).map fun l => (pageRoundDown pageSize address, l) := by
  have hback : ∀ c ∈ (ptr :: rest).head?, ¬ c.address < pageRoundDown pageSize address := by
    rintro _ ⟨⟩
    exact Nat.not_lt.mpr hptr.ge
  unfold kmallocObjAddr
  dsimp only
  rw [takeWhile_front hfront hback, dropWhile_front hfront hback, List.head?_cons, List.tail_cons]
  exact if_pos hptr

/-- The last chunk in front of the address, with none that starts at the address. -/
theorem kmallocObjAddr_inside (hfront : ∀ c ∈ front, c.address < pageRoundDown pageSize address)
    (hptr2 : ptr2.address < pageRoundDown pageSize address)
    (hback : ∀ c ∈ back.head?, pageRoundDown pageSize address < c.address) (size : ℕ) :
    kmallocObjAddr pageSize (front ++ [ptr2] ++ back) address size =
      some (pageRoundDown pageSize address, takeInside (front ++ [ptr2] ++ back) (front ++ [ptr2])
        ptr2 back (pageRoundDown pageSize address) (pageRoundUp pageSize size)) := by
  have hall : ∀ c ∈ front ++ [ptr2], c.address < pageRoundDown pageSize address := by
    intro c hc
    rcases List.mem_append.mp hc with hc | hc
    · exact hfront c hc
    · exact List.mem_singleton.mp hc ▸ hptr2
  have hback' : ∀ c ∈ back.head?, ¬ c.address < pageRoundDown pageSize address :=
    fun c hc => Nat.not_lt.mpr (hback c hc).le
  have hlast : (front ++ [ptr2]).getLast? = some ptr2 := by simp
  unfold kmallocObjAddr
  dsimp only
  rw [takeWhile_front hall hback', dropWhile_front hall hback', hlast]
  cases back with
  | nil => rfl
  | cons c back => exact if_neg (hback c rfl).ne'

end Place

/-! ### Chunks in a region -/

/-- The addresses in a chunk. -/
def FreeChunk.span (c : FreeChunk) : Span := ⟨c.address, c.address + c.size⟩

/-- A chunk of whole pages in the region from `lo` to `hi`. -/
structure ChunkIn (pageSize lo hi : ℕ) (c : FreeChunk) : Prop where
  address : pageSize ∣ c.address
  size : pageSize ∣ c.size
  lo_le : lo ≤ c.address
  le_hi : c.address + c.size ≤ hi

/-- The list `l'` has the addresses of `l`, and those from `address` on, and its chunks are
in order. -/
structure Given (pageSize lo hi address size : ℕ) (l l' : List FreeChunk) : Prop where
  chunks : ∀ c ∈ l', ChunkIn pageSize lo hi c
  same : Same (l'.map FreeChunk.span) (⟨address, address + size⟩ :: l.map FreeChunk.span)

section Region
variable {pageSize lo hi : ℕ} (hhi : hi < 2 ^ 64)
include hhi

theorem ChunkIn.stop {c : FreeChunk} (h : ChunkIn pageSize lo hi c) :
    c.stop = c.address + c.size := wordAdd_eq (lt_of_le_of_lt h.le_hi hhi)

variable {address size : ℕ}

/-- A chunk that does not join the one before it. -/
theorem linkChunk_given (hchunk : ChunkIn pageSize lo hi ⟨address, size⟩) {l : List FreeChunk}
    (hl : ∀ c ∈ l, ChunkIn pageSize lo hi c) :
    Given pageSize lo hi address size l (linkChunk address size l) := by
  have hstop := hchunk.le_hi
  dsimp only at hstop
  cases l with
  | nil => exact ⟨by simpa [linkChunk] using hchunk, .refl _⟩
  | cons ptr rest =>
    obtain ⟨hptr, hrest⟩ := List.forall_mem_cons.mp hl
    rw [linkChunk, wordAdd_eq (show address + size < 2 ^ 64 by omega)]
    by_cases hadj : ptr.address = address + size
    · have hle := hptr.le_hi
      rw [if_pos hadj, wordAdd_eq (show ptr.size + size < 2 ^ 64 by omega)]
      refine ⟨List.forall_mem_cons.mpr ⟨⟨hchunk.address, Nat.dvd_add hptr.size hchunk.size,
        hchunk.lo_le, by dsimp only; omega⟩, hrest⟩, ?_⟩
      have hsplit := same_split (show address ≤ address + size by omega)
        (show address + size ≤ ptr.address + ptr.size by omega) (rest.map FreeChunk.span)
      rw [List.map_cons, List.map_cons]
      unfold FreeChunk.span at hsplit ⊢
      dsimp only at hsplit ⊢
      rw [show address + (ptr.size + size) = ptr.address + ptr.size by omega, hadj]
      rwa [hadj] at hsplit
    · rw [if_neg hadj]
      exact ⟨List.forall_mem_cons.mpr ⟨hchunk, hl⟩, .refl _⟩

/-- A chunk that joins the one before it, and not the one behind. -/
theorem joinChunk_given (hchunk : ChunkIn pageSize lo hi ⟨address, size⟩) {ptr2 : FreeChunk}
    {l : List FreeChunk} (hptr2 : ChunkIn pageSize lo hi ptr2) (hstop : ptr2.stop = address)
    (hl : ∀ c ∈ l, ChunkIn pageSize lo hi c) (hno : ∀ c ∈ l, c.address ≠ wordAdd address size) :
    Given pageSize lo hi address size (ptr2 :: l) (joinChunk address size ptr2 l) := by
  have hle := hchunk.le_hi
  dsimp only at hle
  rw [hptr2.stop hhi] at hstop
  have heq : joinChunk address size ptr2 l = ⟨ptr2.address, ptr2.size + size⟩ :: l := by
    cases l with
    | nil => rw [joinChunk, wordAdd_eq (by omega)]
    | cons ptr rest =>
      rw [joinChunk, if_neg (hno ptr List.mem_cons_self), wordAdd_eq (by omega)]
  rw [heq]
  refine ⟨List.forall_mem_cons.mpr ⟨⟨hptr2.address, Nat.dvd_add hptr2.size hchunk.size,
    hptr2.lo_le, by dsimp only; omega⟩, hl⟩, ?_⟩
  have hsplit := same_split (show ptr2.address ≤ address by omega)
    (show address ≤ address + size by omega) (l.map FreeChunk.span)
  rw [List.map_cons, List.map_cons]
  unfold FreeChunk.span at hsplit ⊢
  dsimp only
  rw [← Nat.add_assoc, hstop]
  exact hsplit.trans (same_swap ..)

/-- The chunk goes behind `ptr2`. -/
theorem kfreeBehind_given (hchunk : ChunkIn pageSize lo hi ⟨address, size⟩) {ptr2 : FreeChunk}
    {l : List FreeChunk} (hl : ∀ c ∈ ptr2 :: l, ChunkIn pageSize lo hi c)
    (hno : ptr2.stop = address → ∀ c ∈ l, c.address ≠ wordAdd address size) :
    Given pageSize lo hi address size (ptr2 :: l) (kfreeBehind address size ptr2 l) := by
  obtain ⟨hptr2, hrest⟩ := List.forall_mem_cons.mp hl
  unfold kfreeBehind
  by_cases hstop : ptr2.stop = address
  · rw [if_pos hstop]
    exact joinChunk_given hhi hchunk hptr2 hstop hrest (hno hstop)
  · rw [if_neg hstop]
    obtain ⟨hchunks, hsame⟩ := linkChunk_given hhi hchunk hrest
    exact ⟨List.forall_mem_cons.mpr ⟨hptr2, hchunks⟩, (hsame.cons _).trans (same_swap ..)⟩

theorem kfreeWalk_given (hchunk : ChunkIn pageSize lo hi ⟨address, size⟩) {ptr2 : FreeChunk}
    {l : List FreeChunk} (hl : ∀ c ∈ ptr2 :: l, ChunkIn pageSize lo hi c)
    (hno : ∀ a ∈ ptr2 :: l, a.stop = address → ∀ c ∈ ptr2 :: l, c.address ≠ wordAdd address size) :
    Given pageSize lo hi address size (ptr2 :: l) (kfreeWalk address size ptr2 l) := by
  induction l generalizing ptr2 with
  | nil => exact kfreeBehind_given hhi hchunk hl fun _ => by simp
  | cons ptr rest ih =>
    obtain ⟨hptr2, hrest⟩ := List.forall_mem_cons.mp hl
    rw [kfreeWalk]
    split_ifs
    · obtain ⟨hchunks, hsame⟩ := ih hrest fun a ha hs c hc =>
        hno a (List.mem_cons_of_mem _ ha) hs c (List.mem_cons_of_mem _ hc)
      exact ⟨List.forall_mem_cons.mpr ⟨hptr2, hchunks⟩, (hsame.cons _).trans (same_swap ..)⟩
    · exact kfreeBehind_given hhi hchunk hl fun hs c hc =>
        hno ptr2 List.mem_cons_self hs c (List.mem_cons_of_mem _ hc)

end Region

/-- What `kfree_obj` does right: a chunk of whole pages if the list is empty, and one that
does not lie between two free ones. -/
structure FreeOk (pageSize : ℕ) (l : List FreeChunk) (address size : ℕ) : Prop where
  whole : l = [] → pageSize ∣ size
  single : ¬ ((∃ a ∈ l, a.stop = address) ∧
    ∃ b ∈ l, b.address = wordAdd address (pageRoundUp pageSize size))

/-- **`kfree_obj`** adds the pages of the chunk to the list. -/
theorem kfreeObj_spec {pageSize lo hi address size : ℕ} (hpos : 0 < pageSize) (hhi : hi < 2 ^ 64)
    (hsize : size + pageSize ≤ 2 ^ 64)
    (hchunk : ChunkIn pageSize lo hi ⟨address, pageRoundUp pageSize size⟩) {l : List FreeChunk}
    (hl : ∀ c ∈ l, ChunkIn pageSize lo hi c) (hok : FreeOk pageSize l address size) :
    Given pageSize lo hi address (pageRoundUp pageSize size) l
      (kfreeObj pageSize l address size) := by
  unfold kfreeObj
  cases l with
  | nil =>
    rw [pageRoundUp_of_dvd hpos hsize (hok.whole rfl)] at hchunk ⊢
    exact ⟨by simpa [freeInit] using hchunk, .refl _⟩
  | cons first rest =>
    dsimp only
    by_cases h0 : size = 0
    · rw [if_pos h0, h0, pageRoundUp_of_dvd hpos (by omega) (Nat.dvd_zero _)]
      exact ⟨hl, (same_empty ..).symm⟩
    · rw [if_neg h0]
      have hno : ∀ a ∈ first :: rest, a.stop = address → ∀ c ∈ first :: rest,
          c.address ≠ wordAdd address (pageRoundUp pageSize size) := fun a ha hs c hc hadj =>
        hok.single ⟨⟨a, ha, hs⟩, c, hc, hadj⟩
      by_cases hlt : first.address < address
      · rw [if_pos hlt]
        exact kfreeWalk_given hhi hchunk hl hno
      · rw [if_neg hlt]
        by_cases hstop : first.stop = address
        · -- the first chunk is empty, and has the address itself
          have hadj := hno first List.mem_cons_self hstop first List.mem_cons_self
          rw [if_pos hstop, if_neg hadj]
          obtain ⟨hfirst, hrest⟩ := List.forall_mem_cons.mp hl
          have heq := hfirst.stop hhi
          rw [hstop] at heq
          have hz : first.size = 0 := by omega
          have haddr : first.address = address := by omega
          have hle := hchunk.le_hi
          dsimp only at hle
          rw [hz, haddr, wordAdd_eq (by omega), Nat.zero_add]
          refine ⟨List.forall_mem_cons.mpr ⟨hchunk, hrest⟩, ?_⟩
          rw [List.map_cons, List.map_cons, show first.span = ⟨address, address⟩ by
            unfold FreeChunk.span; rw [hz, haddr]; rfl]
          exact ((same_empty address _).symm.cons _)
        · rw [if_neg hstop]
          exact linkChunk_given hhi hchunk hl

/-- The list `l'` has the addresses of `l` but for those of a chunk of whole pages. -/
structure Taken (pageSize lo hi address size : ℕ) (l l' : List FreeChunk) : Prop where
  chunk : ChunkIn pageSize lo hi ⟨address, size⟩
  chunks : ∀ c ∈ l', ChunkIn pageSize lo hi c
  same : Same (⟨address, address + size⟩ :: l'.map FreeChunk.span) (l.map FreeChunk.span)

theorem Taken.append {pageSize lo hi address size : ℕ} {l l' : List FreeChunk}
    (h : Taken pageSize lo hi address size l l') {front : List FreeChunk}
    (hfront : ∀ c ∈ front, ChunkIn pageSize lo hi c) :
    Taken pageSize lo hi address size (front ++ l) (front ++ l') := by
  refine ⟨h.chunk, fun c hc => ?_, ?_⟩
  · exact (List.mem_append.mp hc).elim (hfront c) (h.chunks c)
  · rw [List.map_append, List.map_append]
    exact (same_of_perm List.perm_middle.symm).trans ((Same.refl _).append h.same)

section Region
variable {pageSize lo hi : ℕ} (hhi : hi < 2 ^ 64)
include hhi

/-- The front of a chunk is taken. -/
theorem taken_front {size : ℕ} (hsize : pageSize ∣ size) {c : FreeChunk} {l : List FreeChunk}
    (hl : ∀ a ∈ c :: l, ChunkIn pageSize lo hi a) (hfit : size ≤ c.size) :
    Taken pageSize lo hi c.address size (c :: l)
      (⟨wordAdd c.address size, wordSub c.size size⟩ :: l) := by
  obtain ⟨hc, hrest⟩ := List.forall_mem_cons.mp hl
  have hle := hc.le_hi
  rw [wordAdd_eq (by omega), wordSub_of_le hfit (by omega)]
  refine ⟨⟨hc.address, hsize, hc.lo_le, by dsimp only; omega⟩,
    List.forall_mem_cons.mpr ⟨⟨Nat.dvd_add hc.address hsize, Nat.dvd_sub hc.size hsize, ?_, ?_⟩,
      hrest⟩, ?_⟩
  · have := hc.lo_le
    dsimp only
    omega
  · dsimp only
    omega
  · have hsplit := same_split (show c.address ≤ c.address + size by omega)
      (show c.address + size ≤ c.address + c.size by omega) (l.map FreeChunk.span)
    rw [List.map_cons, List.map_cons]
    unfold FreeChunk.span at hsplit ⊢
    dsimp only
    rw [show c.address + size + (c.size - size) = c.address + c.size by omega]
    exact hsplit.symm

omit hhi in
/-- The chunk that is found, in the list before and after. -/
theorem firstFit_eq_some {size : ℕ} {l : List FreeChunk} {r : ℕ × List FreeChunk}
    (h : firstFit size l = some r) : ∃ l₁ fit l₂, l = l₁ ++ fit :: l₂ ∧ size ≤ fit.size ∧
      r = (fit.address, l₁ ++
        if fit.size ≠ size then ⟨wordAdd fit.address size, wordSub fit.size size⟩ :: l₂
        else l₂) := by
  induction l generalizing r with
  | nil => cases h
  | cons fit rest ih =>
    rw [firstFit] at h
    by_cases hge : fit.size ≥ size
    · rw [if_pos hge] at h
      exact ⟨[], fit, rest, rfl, hge, (Option.some.inj h).symm⟩
    · rw [if_neg hge] at h
      obtain ⟨r', hr', rfl⟩ := Option.map_eq_some_iff.mp h
      obtain ⟨l₁, c, l₂, rfl, hle, rfl⟩ := ih hr'
      exact ⟨fit :: l₁, c, l₂, rfl, hle, rfl⟩

/-- The first chunk that is large enough gives its front. -/
theorem firstFit_spec {size : ℕ} (hsize : pageSize ∣ size) {l : List FreeChunk}
    (hl : ∀ c ∈ l, ChunkIn pageSize lo hi c) {r : ℕ × List FreeChunk}
    (h : firstFit size l = some r) : Taken pageSize lo hi r.1 size l r.2 := by
  obtain ⟨l₁, fit, l₂, rfl, hle, rfl⟩ := firstFit_eq_some h
  have hback : ∀ c ∈ fit :: l₂, ChunkIn pageSize lo hi c := fun c hc =>
    hl c (List.mem_append_right _ hc)
  refine Taken.append ?_ fun c hc => hl c (List.mem_append_left _ hc)
  obtain ⟨hfit, hrest⟩ := List.forall_mem_cons.mp hback
  split_ifs with hne
  · exact taken_front hhi hsize hback hle
  · obtain rfl := not_not.mp hne
    exact ⟨hfit, hrest, .refl _⟩

/-- **`kmalloc_obj`** fails or takes pages off the list. -/
theorem kmallocObj_spec (hlo : 0 < lo) {l : List FreeChunk} (size : ℕ)
    (hl : ∀ c ∈ l, ChunkIn pageSize lo hi c) :
    kmallocObj pageSize l size = (0, l) ∨ (kmallocObj pageSize l size).1 ≠ 0 ∧
      Taken pageSize lo hi (kmallocObj pageSize l size).1 (pageRoundUp pageSize size) l
        (kmallocObj pageSize l size).2 := by
  unfold kmallocObj
  split_ifs with hnil h0
  · exact Or.inl rfl
  · exact Or.inl rfl
  · cases hf : firstFit (pageRoundUp pageSize size) l with
    | none => exact Or.inl rfl
    | some r =>
      have htaken := firstFit_spec hhi (dvd_pageRoundUp pageSize size) hl hf
      have := htaken.chunk.lo_le
      dsimp only at this
      exact Or.inr ⟨by dsimp only [Option.getD_some]; omega, htaken⟩

/-- What was just allocated can be given back, unless a chunk ends in front of it, or it was
all there was and is not of whole pages. -/
theorem kmallocObj_back (hpos : 0 < pageSize) {l : List FreeChunk} {size : ℕ}
    (hl : ∀ c ∈ l, ChunkIn pageSize lo hi c) (hsize : size + pageSize ≤ 2 ^ 64)
    (hne : (kmallocObj pageSize l size).1 ≠ 0) :
    ∃ c ∈ l, pageRoundUp pageSize size ≤ c.size ∧ (kmallocObj pageSize l size).1 = c.address ∧
      ((∀ a ∈ l, a.stop ≠ c.address) →
        (l = [c] → c.size = pageRoundUp pageSize size → pageSize ∣ size) →
        FreeOk pageSize (kmallocObj pageSize l size).2 c.address size) := by
  unfold kmallocObj at hne ⊢
  split_ifs at hne ⊢ with hnil h0
  · exact absurd rfl hne
  · exact absurd rfl hne
  · cases hf : firstFit (pageRoundUp pageSize size) l with
    | none =>
      rw [hf] at hne
      exact absurd rfl hne
    | some r =>
      obtain ⟨l₁, c, l₂, rfl, hle, rfl⟩ := firstFit_eq_some hf
      have hup := (pageRoundUp_spec hpos hsize).1
      have hc := hl c (by simp)
      have hcle := hc.le_hi
      refine ⟨c, by simp, hle, rfl, fun hno hwhole => ⟨fun hempty => ?_, ?_⟩⟩
      · obtain ⟨rfl, hrest⟩ := List.append_eq_nil_iff.mp hempty
        split_ifs at hrest with hex
        subst hrest
        exact hwhole rfl (not_not.mp hex)
      · rintro ⟨⟨a, ha, hstop⟩, -⟩
        rw [Option.getD_some, List.mem_append] at ha
        rcases ha with ha | ha
        · exact hno a (by simp [ha]) hstop
        · split_ifs at ha with hex
          · rcases List.mem_cons.mp ha with rfl | ha
            · -- what is left of the chunk ends behind the object
              unfold FreeChunk.stop at hstop
              dsimp only at hstop
              rw [wordAdd_eq (show c.address + pageRoundUp pageSize size < 2 ^ 64 by omega),
                wordSub_of_le hle (by omega), wordAdd_eq (by omega)] at hstop
              omega
            · exact hno a (by simp [ha]) hstop
          · exact hno a (by simp [ha]) hstop

end Region

/-- What `kmalloc_obj_addr` does right: no chunk starts at the page of the address or in
front of it, so that it fails, or one starts at the address that is larger than what is
asked for. -/
def GrowOk (pageSize : ℕ) (l : List FreeChunk) (address size : ℕ) : Prop :=
  (∀ c, l.head? = some c → pageRoundDown pageSize address < c.address) ∨
    pageSize ∣ address ∧ ∃ l₁ c l₂, l = l₁ ++ c :: l₂ ∧ (∀ a ∈ l₁, a.address < address) ∧
      c.address = address ∧ pageRoundUp pageSize size < c.size

/-- It fails where no chunk lies at the page of the address or in front of it. -/
theorem kmallocObjAddr_none {pageSize : ℕ} {l : List FreeChunk} {address : ℕ} (size : ℕ)
    (h : ∀ c, l.head? = some c → pageRoundDown pageSize address < c.address) :
    kmallocObjAddr pageSize l address size = some (0, l) := by
  unfold kmallocObjAddr
  cases l with
  | nil => rfl
  | cons first rest =>
    have hgt := h first rfl
    have hnot : decide (first.address < pageRoundDown pageSize address) = false :=
      decide_eq_false (by omega)
    dsimp only
    rw [List.takeWhile_cons_of_neg (by simpa using hnot),
      List.dropWhile_cons_of_neg (by simpa using hnot), List.head?_cons]
    dsimp only
    rw [if_neg (by omega)]
    rfl

/-- **`kmalloc_obj_addr`** fails or takes the pages from the address on. -/
theorem kmallocObjAddr_spec {pageSize lo hi : ℕ} (hhi : hi < 2 ^ 64) {l : List FreeChunk}
    {address size : ℕ} (hl : ∀ c ∈ l, ChunkIn pageSize lo hi c)
    (hok : GrowOk pageSize l address size) :
    kmallocObjAddr pageSize l address size = some (0, l) ∨
      pageSize ∣ address ∧ ∃ l', kmallocObjAddr pageSize l address size = some (address, l') ∧
        Taken pageSize lo hi address (pageRoundUp pageSize size) l l' := by
  rcases hok with hnone | ⟨hdvd, l₁, c, l₂, rfl, hfront, rfl, hlt⟩
  · exact Or.inl (kmallocObjAddr_none size hnone)
  · refine Or.inr ⟨hdvd, l₁ ++ ⟨wordAdd c.address (pageRoundUp pageSize size),
      wordSub c.size (pageRoundUp pageSize size)⟩ :: l₂, ?_, ?_⟩
    · have hc := hl c (by simp)
      have hle := hc.le_hi
      unfold kmallocObjAddr
      dsimp only
      rw [pageRoundDown_of_dvd hdvd, List.takeWhile_append_of_pos (by simpa using hfront),
        List.dropWhile_append_of_pos (by simpa using hfront),
        List.takeWhile_cons_of_neg (by simp), List.dropWhile_cons_of_neg (by simp),
        List.append_nil, List.head?_cons, List.tail_cons]
      dsimp only
      rw [if_pos rfl, takeStart, hc.stop hhi, wordAdd_eq (by omega), if_pos (by omega),
        wordSub_of_le (by omega) (by omega), if_neg (by omega)]
      rfl
    · have hl' : ∀ a ∈ l₁, ChunkIn pageSize lo hi a := fun a ha => hl a (by simp [ha])
      refine Taken.append (taken_front hhi (dvd_pageRoundUp ..) (fun a ha => hl a ?_) hlt.le) hl'
      exact List.mem_append_right _ ha

end Mungi
