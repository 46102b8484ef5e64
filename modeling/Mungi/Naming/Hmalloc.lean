import Mungi.Words
import Mungi.Lib.Heap
import Mungi.Lib.Runs
import Mungi.Lib.Spans
import Mathlib.Data.List.Range

/-!
# The heap of the naming library

The naming library keeps its trees in an object, and gives out the memory of the object with an
allocator of its own (`hmalloc.c`).  Requests up to half a page are served from pages of chunks
of one size, others by runs of pages; what a page is used for stands in the page directory, an
object that is indexed by the number of the page.  Free runs are on a list.

`malloc_init` takes memory for the first record of that list before there is a list, and the
page that it is on is mapped behind the pages that were reserved.  Then everything up to the end
of the heap is put on the list, with that page.

## Main definitions

* `Mdat` — `mdat_t` and the memory it refers to.
* `imalloc`, `ifree` — the allocator, with `mallocPages`, `mallocBytes`, `freePages` and
  `freeBytes`.
* `mallocInit` — the initialisation.
* `HmRun.Sound` — what is to hold of the heap.

## Main results

* `mallocInit_isSome_iff` — the initialisation goes through, but for the end of the directory.
* `hmalloc_unsound` — **the heap is not sound from the start.**
* `hmalloc_overlap` — two calls are enough to hand out the same memory twice.
-/

namespace Mungi.Naming

open Runs Chain Spans

/-! ### The data -/

/-- `struct pginfo`, the bits as one array. -/
structure PgInfo where
  next : ℕ
  page : ℕ
  size : ℕ
  shift : ℕ
  free : ℕ
  total : ℕ
  bits : ℕ → Bool

/-- `struct pgfree` -/
structure PgFree where
  next : ℕ
  prev : ℕ
  page : ℕ
  /-- `end` -/
  stop : ℕ
  size : ℕ
  deriving DecidableEq, Repr

/-- `MALLOC_FREE` -/
def mallocFree : ℕ := 1
/-- `MALLOC_FIRST` -/
def mallocFirst : ℕ := 2
/-- `MALLOC_FOLLOW` -/
def mallocFollow : ℕ := 3
/-- `MALLOC_MAGIC` -/
def mallocMagic : ℕ := 4

/-- `malloc_pagesize` -/
def mallocPagesize : ℕ := 4096
/-- `malloc_pageshift` -/
def mallocPageshift : ℕ := 12
/-- `malloc_maxsize` -/
def mallocMaxsize : ℕ := mallocPagesize / 2
/-- `malloc_minsize` -/
def mallocMinsize : ℕ := 16
/-- `MALLOC_BITS` -/
def mallocBits : ℕ := 32
/-- `MIN_PAGEDIR_SIZE` -/
def minPagedirSize : ℕ := 20
/-- `sizeof(*dat->page_dir)` -/
def sizeofEntry : ℕ := 8
/-- `sizeof(struct pgfree)` -/
def sizeofPgFree : ℕ := 40
/-- `offsetof(struct pginfo, bits[0])` -/
def offsetofBits : ℕ := 24

/-- `mdat_t`, with the page directory, of `dirLen` entries, and the records that are in the heap.
The record at 0 is `free_list`. -/
structure Mdat where
  mallocStarted : Bool
  mallocCache : ℕ
  mallocOrigo : ℕ
  lastIdx : ℕ
  pageDir : ℕ → ℕ
  dirLen : ℕ
  mallocNinfo : ℕ
  /-- The addresses of `page_dir_cap` and of `heap_cap`. -/
  pageDirCap : ℕ
  heapCap : ℕ
  heapSize : ℕ
  suicide : Bool
  px : ℕ
  infos : ℕ → PgInfo
  frees : ℕ → PgFree

/-- What the kernel answers. -/
structure Os where
  /-- `ObjCreate` of the page directory and of the heap: the address, or 0. -/
  dirCreate : ℕ → ℕ
  heapCreate : ℕ → ℕ
  /-- `ObjResize` succeeds. -/
  resize : ℕ → ℕ → Bool

/-- `hmalloc_init`: a new object, with the number of pages. -/
def hmallocInit (size : ℕ) : Mdat where
  mallocStarted := false
  mallocCache := size % 2 ^ 32
  mallocOrigo := 0
  lastIdx := 0
  pageDir := fun _ => 0
  dirLen := 0
  mallocNinfo := 0
  pageDirCap := 0
  heapCap := 0
  heapSize := 0
  suicide := false
  px := 0
  infos := fun _ => ⟨0, 0, 0, 0, 0, 0, fun _ => false⟩
  frees := fun _ => ⟨0, 0, 0, 0, 0⟩

namespace Mdat

/-- `ptr2idx` -/
def ptr2idx (s : Mdat) (foo : ℕ) : ℕ := wordSub (foo / mallocPagesize) s.mallocOrigo

/-- `dat->page_dir[i]` -/
def dir? (s : Mdat) (i : ℕ) : Option ℕ := if i < s.dirLen then some (s.pageDir i) else none

/-- `dat->page_dir[i] = v` -/
def setDir (s : Mdat) (i v : ℕ) : Option Mdat :=
  if i < s.dirLen then some { s with pageDir := Function.update s.pageDir i v } else none

def setInfo (s : Mdat) (p : ℕ) (info : PgInfo) : Mdat :=
  { s with infos := Function.update s.infos p info }

def setFree (s : Mdat) (p : ℕ) (pf : PgFree) : Mdat :=
  { s with frees := Function.update s.frees p pf }

def modFree (s : Mdat) (p : ℕ) (f : PgFree → PgFree) : Mdat := s.setFree p (f (s.frees p))

/-- The links of the list of free runs. -/
def nextFree (s : Mdat) (pf : ℕ) : ℕ := (s.frees pf).next

/-- The links of the lists of pages with free chunks. -/
def nextInfo (s : Mdat) (bp : ℕ) : ℕ := (s.infos bp).next

/-- `*mp = v`, where `mp` is a bucket or the `next` of a record. -/
def setSlot (s : Mdat) (bucket prev v : ℕ) : Option Mdat :=
  if prev = 0 then s.setDir bucket v else some (s.setInfo prev { s.infos prev with next := v })

/-- The length of the heap, as it is computed. -/
def heapBytes (s : Mdat) : ℕ := s.heapSize * mallocPagesize % 2 ^ 32

end Mdat

/-! ### Pages -/

/-- `extend_pgdir`, none when it fails. -/
def extendPgdir (os : Os) (s : Mdat) (idx : ℕ) : Option Mdat :=
  let newlen := wordAdd (pageRoundUp mallocPagesize (idx * sizeofEntry % 2 ^ 64)) mallocPagesize
  if os.resize s.pageDirCap newlen then
    some { s with
      dirLen := newlen / sizeofEntry
      mallocNinfo := newlen / sizeofEntry % 2 ^ 32 }
  else none

/-- The end of `map_pages`: the object is there. -/
def mapNew (os : Os) (s : Mdat) (pages : ℕ) : ℕ × Mdat :=
  let result := pageRoundUp mallocPagesize (wordAdd s.heapCap s.heapBytes)
  let s := { s with heapSize := (s.heapSize + pages) % 2 ^ 32 }
  let s := { s with lastIdx := wordSub (s.ptr2idx (wordAdd s.heapCap s.heapBytes)) 1 }
  if wordAdd s.lastIdx 1 ≥ s.mallocNinfo then
    match extendPgdir os s s.lastIdx with
    | none => (0, s)
    | some s => (result, s)
  else (result, s)

/-- `map_pages` -/
def mapPages (os : Os) (s : Mdat) (pages : ℕ) : ℕ × Mdat :=
  let bytes := (s.heapSize + pages) * mallocPagesize % 2 ^ 64
  if s.heapCap = 0 then
    let s := { s with heapCap := os.heapCreate bytes }
    if s.heapCap = 0 then (0, s) else mapNew os s pages
  else if os.resize s.heapCap bytes then mapNew os s pages
  else (0, s)

/-- A run is taken off the record `pf`: its address, and the record if it is not needed any
more. -/
def Mdat.takeRun (s : Mdat) (pf size : ℕ) : ℕ × ℕ × Mdat :=
  let f := s.frees pf
  if pf = 0 then (0, 0, s)
  else if f.size = size then
    let s := if f.next ≠ 0 then s.modFree f.next fun g => { g with prev := f.prev } else s
    (f.page, pf, s.modFree f.prev fun g => { g with next := f.next })
  else (f.page, 0, s.setFree pf { f with page := wordAdd f.page size, size := f.size - size })

/-- A run is entered in the page directory. -/
def Mdat.markRun (s : Mdat) (idx pages : ℕ) : Option Mdat :=
  (s.setDir idx mallocFirst).bind fun s =>
    (List.range' 1 (pages - 1)).foldlM (fun s i => s.setDir (idx + i) mallocFollow) s

/-- The loop of `free_pages` that counts the pages, from the `i`-th on. -/
def Mdat.unmarkFrom (idx : ℕ) : ℕ → Mdat → ℕ → Option (ℕ × Mdat)
  | 0, _, _ => none
  | n + 1, s, i =>
    (s.dir? (idx + i)).bind fun v =>
      if v = mallocFollow then
        (s.setDir (idx + i) mallocFree).bind fun s => unmarkFrom idx n s (i + 1)
      else some (i, s)

/-- `free_pages` puts the run of `px` on the list, and the record that is not needed any more. -/
def Mdat.putRun (s : Mdat) (fuel ptr l : ℕ) : Option (ℕ × Mdat) :=
  let tail := wordAdd ptr l
  let px := s.px
  let s := s.modFree px fun f => { f with page := ptr, stop := tail, size := l }
  let done := { s with px := 0 }
  if s.nextFree 0 = 0 then
    some (0, (done.modFree px fun f => { f with next := 0, prev := 0 }).modFree 0
      fun f => { f with next := px })
  else
    -- the first run that is not before `ptr`, or the last one
    (seek s.nextFree (fun pf => decide (ptr ≤ (s.frees pf).stop) || s.nextFree pf == 0) fuel
      (s.nextFree 0)).bind fun pf =>
      let f := s.frees pf
      if f.page > tail then
        some (0, ((done.modFree px fun g => { g with next := pf, prev := f.prev }).modFree pf
          fun g => { g with prev := px }).modFree f.prev fun g => { g with next := px })
      else if f.stop = ptr then
        let s := s.setFree pf { f with stop := wordAdd f.stop l, size := wordAdd f.size l }
        let f := s.frees pf
        let pt := f.next
        let g := s.frees pt
        if pt ≠ 0 ∧ f.stop = g.page then
          let s := s.setFree pf
            { f with stop := g.stop, size := wordAdd f.size g.size, next := g.next }
          some (pt, if g.next ≠ 0 then s.modFree g.next fun f => { f with prev := pf } else s)
        else some (0, s)
      else if f.page = tail then
        some (0, s.setFree pf { f with size := wordAdd f.size l, page := ptr })
      else if f.next = 0 then
        some (0, (done.modFree px fun g => { g with next := 0, prev := pf }).modFree pf
          fun g => { g with next := px })
      else
        -- "freelist is destroyed."
        some (0, { s with suicide := true })

/-! ### Chunks -/

/-- The loop of `malloc_bytes` that finds the bucket. -/
def bucketFor (size : ℕ) : ℕ := Nat.log2 (size - 1) + 1

/-- The length of a `struct pginfo`, with the bits for chunks of this bucket. -/
def adminLen (bits : ℕ) : ℕ :=
  offsetofBits + 4 * ((mallocPagesize / 2 ^ bits + mallocBits - 1) / mallocBits)

/-- The record for a page of chunks, with the first ones stolen if the record is on the page. -/
def PgInfo.fresh (info : PgInfo) (bp pp bits : ℕ) : PgInfo :=
  let total := mallocPagesize / 2 ^ bits
  let stolen := if bp = pp then (adminLen bits + 2 ^ bits - 1) / 2 ^ bits else 0
  { info with
    size := 2 ^ bits
    shift := bits
    free := total - stolen
    total := total - stolen
    page := pp
    bits := fun i => if i < stolen then false else if i < total then true else info.bits i }

/-- The record is entered in the page directory and goes to the front of its bucket. -/
def Mdat.linkInfo (s : Mdat) (bp pp bits : ℕ) : Option Mdat :=
  let s := s.setInfo bp ((s.infos bp).fresh bp pp bits)
  (s.setDir (s.ptr2idx pp) bp).bind fun s =>
    (s.dir? bits).bind fun next =>
      (s.setInfo bp { s.infos bp with next }).setDir bits bp

/-- `malloc_bytes`, once there is a page with free chunks. -/
def Mdat.takeChunk (s : Mdat) (j : ℕ) : Option (ℕ × Mdat) :=
  (s.dir? j).bind fun bp =>
    let info := s.infos bp
    ((List.range (mallocPagesize / mallocMinsize)).find? info.bits).bind fun k =>
      let info := { info with
        bits := Function.update info.bits k false
        free := (info.free + (2 ^ 16 - 1)) % 2 ^ 16 }
      let chunk := wordAdd info.page (k * 2 ^ info.shift)
      if info.free = 0 then
        ((s.setInfo bp { info with next := 0 }).setDir j info.next).map fun s => (chunk, s)
      else some (chunk, s.setInfo bp info)

/-! ### The allocator -/

mutual

/-- `malloc_pages`: the address, or 0. -/
def mallocPages (os : Os) : ℕ → Mdat → ℕ → Option (ℕ × Mdat)
  | 0, _, _ => none
  | n + 1, s, size =>
    let size := pageRoundUp mallocPagesize size
    (seek s.nextFree (fun pf => decide (size ≤ (s.frees pf).size)) n (s.nextFree 0)).bind fun pf =>
      let r := s.takeRun pf size
      let pages := size / mallocPagesize
      let m := if r.1 = 0 then mapPages os r.2.2 pages else (r.1, r.2.2)
      (if m.1 = 0 then some m.2 else m.2.markRun (m.2.ptr2idx m.1) pages).bind fun s =>
        if r.2.1 = 0 then some (m.1, s)
        else if s.px = 0 then some (m.1, { s with px := r.2.1 })
        else (ifree os n s r.2.1).map fun s => (m.1, s)
termination_by structural n => n

/-- `malloc_make_chunks`, and whether it succeeds. -/
def mallocMakeChunks (os : Os) : ℕ → Mdat → ℕ → Option (Bool × Mdat)
  | 0, _, _ => none
  | n + 1, s, bits =>
    (mallocPages os n s mallocPagesize).bind fun (pp, s) =>
      if pp = 0 then some (false, s)
      else if 2 ^ bits ≤ adminLen bits + adminLen bits then
        (s.linkInfo pp pp bits).map fun s => (true, s)
      else
        (imalloc os n s (adminLen bits)).bind fun (bp, s) =>
          if bp = 0 then (ifree os n s pp).map fun s => (false, s)
          else (s.linkInfo bp pp bits).map fun s => (true, s)
termination_by structural n => n

/-- `malloc_bytes` -/
def mallocBytes (os : Os) : ℕ → Mdat → ℕ → Option (ℕ × Mdat)
  | 0, _, _ => none
  | n + 1, s, size =>
    let size := if size < mallocMinsize then mallocMinsize else size
    let j := bucketFor size
    (s.dir? j).bind fun bp =>
      (if bp = 0 then mallocMakeChunks os n s j else some (true, s)).bind fun (ok, s) =>
        if ok then s.takeChunk j else some (0, s)
termination_by structural n => n

/-- `imalloc` -/
def imalloc (os : Os) : ℕ → Mdat → ℕ → Option (ℕ × Mdat)
  | 0, _, _ => none
  | n + 1, s, size =>
    if wordAdd size mallocPagesize < size then some (0, s)
    else if size ≤ mallocMaxsize then mallocBytes os n s size
    else mallocPages os n s size
termination_by structural n => n

/-- `free_pages` -/
def freePages (os : Os) : ℕ → Mdat → ℕ → ℕ → Option Mdat
  | 0, _, _, _ => none
  | n + 1, s, ptr, idx =>
    (s.setDir idx mallocFree).bind fun s =>
      (Mdat.unmarkFrom idx n s 1).bind fun (i, s) =>
        (if s.px = 0 then (imalloc os n s sizeofPgFree).map fun (p, s) => { s with px := p }
          else some s).bind fun s =>
          if s.px = 0 then none
          else
            (s.putRun n ptr (i * mallocPagesize)).bind fun (pt, s) =>
              if pt = 0 then some s else ifree os n s pt
termination_by structural n => n

/-- `free_bytes` -/
def freeBytes (os : Os) : ℕ → Mdat → ℕ → ℕ → ℕ → Option Mdat
  | 0, _, _, _, _ => none
  | n + 1, s, ptr, idx, bp =>
    let info := s.infos bp
    let i := ptr % mallocPagesize / 2 ^ info.shift
    if ptr % info.size ≠ 0 then some s
    else if info.bits i then some s
    else
      let s := s.setInfo bp
        { info with bits := Function.update info.bits i true, free := info.free + 1 }
      let info := s.infos bp
      (s.dir? info.shift).bind fun first =>
        if info.free = 1 then
          -- in the order of the addresses
          (chase s.nextInfo (fun x => s.nextInfo x == 0 ||
            decide (info.page ≤ (s.infos (s.nextInfo x)).page)) n 0 0 first).bind
              fun (_, prev, x) => (s.setInfo bp { info with next := x }).setSlot info.shift prev bp
        else if info.free ≠ info.total then some s
        else
          (chase s.nextInfo (fun x => x == bp) n 0 0 first).bind fun (_, prev, x) =>
            if x = 0 then none
            else
              (s.setSlot info.shift prev info.next).bind fun s =>
                (s.setDir idx mallocFirst).bind fun s =>
                  (if info.page ≠ bp then ifree os n s bp else some s).bind fun s =>
                    ifree os n s info.page
termination_by structural n => n

/-- `ifree` -/
def ifree (os : Os) : ℕ → Mdat → ℕ → Option Mdat
  | 0, _, _ => none
  | n + 1, s, ptr =>
    if ptr = 0 then some s
    else if ¬ s.mallocStarted then some s
    else if s.suicide then some s
    else
      let idx := s.ptr2idx ptr
      if idx < mallocPageshift then some s
      else if idx > s.lastIdx then some s
      else
        (s.dir? idx).bind fun info =>
          if info < mallocMagic then freePages os n s ptr idx else freeBytes os n s ptr idx info
termination_by structural n => n

end

/-- `malloc_init` before it takes memory. -/
def Mdat.prepare (s : Mdat) (cache dir : ℕ) : Mdat :=
  { s with
    mallocCache := cache
    pageDirCap := dir
    pageDir := fun _ => 0
    dirLen := minPagedirSize * mallocPagesize / sizeofEntry
    heapCap := 0
    heapSize := cache
    mallocOrigo := wordSub (pageRoundUp mallocPagesize 0 / mallocPagesize) mallocPageshift
    mallocNinfo := mallocPagesize / sizeofEntry }

/-- `malloc_init` makes the list of free runs, with one record. -/
def Mdat.firstRun (s : Mdat) (px : ℕ) : Mdat :=
  let s := s.setFree px
    { next := s.nextFree 0
      prev := 0
      page := s.heapCap
      stop := wordAdd s.heapCap s.heapBytes
      size := s.heapBytes }
  { s.modFree 0 fun f => { f with next := px } with px := 0, mallocStarted := true }

/-- `malloc_init` -/
def mallocInit (os : Os) (n : ℕ) (s : Mdat) : Option Mdat :=
  let cache := if s.mallocCache = 0 then 1 else s.mallocCache
  let dir := os.dirCreate (minPagedirSize * mallocPagesize)
  if dir = 0 then some { s with mallocCache := cache }
  else
    (imalloc os n (s.prepare cache dir) sizeofPgFree).bind fun (px, s) =>
      if px = 0 then none else some (s.firstRun px)

/-- `hmalloc` -/
def hmalloc (os : Os) (n : ℕ) (s : Mdat) (size : ℕ) : Option (ℕ × Mdat) :=
  (if s.mallocStarted then some s else mallocInit os n s).bind fun s => imalloc os n s size

/-- `hfree` -/
def hfree (os : Os) (n : ℕ) (s : Mdat) (ptr : ℕ) : Option Mdat := ifree os n s ptr

/-! ### A heap in use -/

/-- The heap with the memory that was handed out. -/
structure HmRun where
  dat : Mdat
  live : List Span

/-- The calls. -/
inductive HmOp where
  | malloc (size : ℕ)
  | free (k : ℕ)
  deriving DecidableEq, Repr

/-- One call; memory that is freed is in use. -/
def hmStep (os : Os) (n : ℕ) (s : HmRun) : HmOp → Option HmRun
  | .malloc size =>
    (hmalloc os n s.dat size).map fun r =>
      ⟨r.2, if r.1 = 0 then s.live else s.live ++ [⟨r.1, r.1 + size⟩]⟩
  | .free k =>
    s.live[k]?.bind fun x => (hfree os n s.dat x.lo).map fun dat => ⟨dat, s.live.eraseIdx k⟩

/-- The page of the address is in a run that is in use, or is a page of chunks. -/
def Mdat.InUse (s : Mdat) (a : ℕ) : Prop := mallocFirst ≤ s.pageDir (s.ptr2idx a)

/-- The pages of a record. -/
def PgFree.run (pf : PgFree) : Span := ⟨pf.page, pf.stop⟩

/-- What is to hold of the heap, with the records on the list of free runs. -/
structure HmRun.SoundBy (s : HmRun) (l : List ℕ) : Prop where
  chain : IsChain s.dat.nextFree (s.dat.nextFree 0) l
  free : ∀ pf ∈ l, ∀ a, (s.dat.frees pf).run.Has a → ¬ s.dat.InUse a
  disjoint : (l.map fun pf => (s.dat.frees pf).run).Pairwise fun x y => ∀ a, x.Has a → ¬ y.Has a
  inside : ∀ pf ∈ l, s.dat.heapCap ≤ (s.dat.frees pf).page ∧
    (s.dat.frees pf).stop ≤ s.dat.heapCap + s.dat.heapSize * mallocPagesize
  apart : s.live.Pairwise fun x y => ∀ a, x.Has a → ¬ y.Has a

/-- What is to hold of the heap at every moment. -/
def HmRun.Sound (s : HmRun) : Prop := ∃ l, s.SoundBy l

/-- The kernel gives an object of this length pages of the address space, and the end of the
object is an address. -/
structure Granted (a bytes : ℕ) : Prop where
  pos : 0 < a
  dvd : mallocPagesize ∣ a
  lt : a + bytes < 2 ^ 64

/-! ### The first page -/

/-- The number of pages reserved by `malloc_init`. -/
def cacheOf (size : ℕ) : ℕ := if size % 2 ^ 32 = 0 then 1 else size % 2 ^ 32

/-- The page that is mapped for the first record. -/
def firstPage (a cache : ℕ) : ℕ := a + cache % 2 ^ 20 * mallocPagesize

/-- What `malloc_init` leaves behind, for a heap at `a`. -/
structure Mdat.Begun (s : Mdat) (a cache : ℕ) : Prop where
  started : s.mallocStarted = true
  px : s.px = 0
  heapCap : s.heapCap = a
  head : s.nextFree 0 = firstPage a cache + 64
  first : s.frees (firstPage a cache + 64) =
    ⟨0, 0, a, a + (cache + 1) % 2 ^ 20 * mallocPagesize, (cache + 1) % 2 ^ 20 * mallocPagesize⟩
  origo : s.mallocOrigo = 2 ^ 64 - mallocPageshift
  lt_dirLen : a / mallocPagesize + (cache + 1) % 2 ^ 20 + 11 < s.dirLen
  bucket : s.pageDir 6 = firstPage a cache
  page : s.pageDir (s.ptr2idx (firstPage a cache)) = firstPage a cache
  info_page : (s.infos (firstPage a cache)).page = firstPage a cache
  info_shift : (s.infos (firstPage a cache)).shift = 6
  info_free : (s.infos (firstPage a cache)).free = 62
  info_bits : (s.infos (firstPage a cache)).bits 2 = true ∧
    ∀ i < 2, (s.infos (firstPage a cache)).bits i = false

section First
variable {os : Os} {s : Mdat} {a cache c n : ℕ}

theorem ptr2idx_eq {s : Mdat} (horigo : s.mallocOrigo = 2 ^ 64 - mallocPageshift) {p : ℕ}
    (hp : p ≤ 2 ^ 64) : s.ptr2idx p = p / mallocPagesize + 12 := by
  unfold Mdat.ptr2idx wordSub
  rw [horigo]
  unfold mallocPagesize mallocPageshift
  omega

/-- Where the object is counted to end: the length is computed in 32 bits. -/
theorem heapBytes_eq (s : Mdat) {k : ℕ} (h : s.heapSize = k % 2 ^ 32) :
    s.heapBytes = k % 2 ^ 20 * mallocPagesize := by
  unfold Mdat.heapBytes mallocPagesize
  rw [h]
  omega

/-- The page directory grows past the page that was counted last. -/
theorem newlen_spec {idx : ℕ} (h : idx < 2 ^ 53) :
    idx < wordAdd (pageRoundUp mallocPagesize (idx * sizeofEntry % 2 ^ 64)) mallocPagesize
        / sizeofEntry ∧
      wordAdd (pageRoundUp mallocPagesize (idx * sizeofEntry % 2 ^ 64)) mallocPagesize
        / sizeofEntry ≤ idx + 1024 := by
  have hmod : idx * sizeofEntry % 2 ^ 64 = idx * sizeofEntry :=
    Nat.mod_eq_of_lt (by unfold sizeofEntry; omega)
  rw [hmod]
  have hsize : idx * sizeofEntry + mallocPagesize ≤ 2 ^ 64 := by
    unfold sizeofEntry mallocPagesize
    omega
  obtain ⟨hle, hlt⟩ := pageRoundUp_spec (by decide : 0 < mallocPagesize) hsize
  rw [wordAdd_eq (by unfold mallocPagesize sizeofEntry at *; omega)]
  unfold mallocPagesize sizeofEntry at *
  omega

/-- The first page is mapped, and the directory reaches as far as the end of the heap is thought
to be. -/
theorem mapPages_first (hs : s.heapCap = 0 ∧ s.heapSize = cache ∧ s.mallocNinfo = 512 ∧
      s.dirLen = 10240 ∧ s.mallocOrigo = 2 ^ 64 - mallocPageshift)
    (hcache : cache < 2 ^ 32) (ha : os.heapCreate ((cache + 1) * mallocPagesize) = a)
    (hgrant : Granted a ((cache + 1) * mallocPagesize)) (hresize : ∀ b m, os.resize b m = true) :
    ∃ d m, mapPages os s 1 = (firstPage a cache, { s with
        heapCap := a
        heapSize := (cache + 1) % 2 ^ 32
        lastIdx := a / mallocPagesize + (cache + 1) % 2 ^ 20 + 11
        dirLen := d
        mallocNinfo := m }) ∧ 12 ≤ d ∧
      ((cache + 1) % 2 ^ 20 ≠ 0 → a / mallocPagesize + (cache + 1) % 2 ^ 20 + 11 < d) ∧
      ((cache + 1) % 2 ^ 20 = 0 → d ≤ a / mallocPagesize + 2 ^ 20 + 11) := by
  obtain ⟨hcap, hsize, hninfo, hlen, horigo⟩ := hs
  obtain ⟨hpos, hdvd, hlt⟩ := hgrant
  have hbytes : (s.heapSize + 1) * mallocPagesize % 2 ^ 64 = (cache + 1) * mallocPagesize := by
    rw [hsize]
    exact Nat.mod_eq_of_lt (by unfold mallocPagesize; omega)
  have hpage : cache % 2 ^ 20 * mallocPagesize + mallocPagesize ≤ (cache + 1) * mallocPagesize := by
    unfold mallocPagesize
    omega
  have hend : (cache + 1) % 2 ^ 20 * mallocPagesize ≤ (cache + 1) * mallocPagesize :=
    Nat.mul_le_mul_right _ (Nat.mod_le ..)
  -- the new page
  have hresult : pageRoundUp mallocPagesize (wordAdd a (cache % 2 ^ 20 * mallocPagesize))
      = firstPage a cache := by
    rw [wordAdd_eq (by omega)]
    exact pageRoundUp_of_dvd (by decide) (by omega) (Nat.dvd_add hdvd (Nat.dvd_mul_left ..))
  -- the last page, as it is counted
  have hlast : wordSub (s.ptr2idx (wordAdd a ((cache + 1) % 2 ^ 20 * mallocPagesize))) 1
      = a / mallocPagesize + (cache + 1) % 2 ^ 20 + 11 := by
    rw [wordAdd_eq (by omega), ptr2idx_eq horigo (by omega)]
    unfold mallocPagesize at *
    rw [wordSub_of_le (by omega) (by omega)]
    omega
  have hidx : a / mallocPagesize + (cache + 1) % 2 ^ 20 + 11 < 2 ^ 53 := by
    unfold mallocPagesize at *
    omega
  obtain ⟨hnew, hnew'⟩ := newlen_spec hidx
  have hold : ({ s with heapCap := a } : Mdat).heapBytes = cache % 2 ^ 20 * mallocPagesize :=
    heapBytes_eq _ (by rw [Nat.mod_eq_of_lt hcache]; exact hsize)
  have hbytes' : ({ s with heapCap := a, heapSize := (s.heapSize + 1) % 2 ^ 32 } : Mdat).heapBytes
      = (cache + 1) % 2 ^ 20 * mallocPagesize := heapBytes_eq _ (by rw [hsize])
  have hmap : mapPages os s 1 = mapNew os { s with heapCap := a } 1 := by
    unfold mapPages
    dsimp only
    rw [hbytes, ha, if_pos hcap, if_neg hpos.ne']
  rw [hmap]
  unfold mapNew
  dsimp only
  rw [hold, hbytes', hresult]
  have hlast' : wordSub (({ s with heapCap := a, heapSize := (s.heapSize + 1) % 2 ^ 32 }
      : Mdat).ptr2idx (wordAdd a ((cache + 1) % 2 ^ 20 * mallocPagesize))) 1
      = a / mallocPagesize + (cache + 1) % 2 ^ 20 + 11 := hlast
  rw [hlast', wordAdd_eq (by omega), hsize]
  clear hold hbytes' hmap hlast hlast' hresult hbytes hend hpage hlt hdvd
  generalize a / mallocPagesize = q at *
  by_cases hext : q + (cache + 1) % 2 ^ 20 + 11 + 1 ≥ s.mallocNinfo
  · rw [if_pos hext]
    unfold extendPgdir
    dsimp only
    rw [if_pos (hresize _ _)]
    exact ⟨_, _, rfl, by omega, fun _ => hnew, fun h => by omega⟩
  · rw [if_neg hext]
    exact ⟨s.dirLen, s.mallocNinfo, rfl, by omega, fun _ => by omega, fun _ => by omega⟩

/-- The number of the first page. -/
theorem ptr2idx_firstPage {s : Mdat} (horigo : s.mallocOrigo = 2 ^ 64 - mallocPageshift)
    (hle : firstPage a cache ≤ 2 ^ 64) :
    s.ptr2idx (firstPage a cache) = a / mallocPagesize + cache % 2 ^ 20 + 12 := by
  rw [ptr2idx_eq horigo hle]
  unfold firstPage
  rw [Nat.add_mul_div_right _ _ (by decide)]

/-- One page is marked. -/
theorem markRun_one (s : Mdat) (idx : ℕ) : s.markRun idx 1 = s.setDir idx mallocFirst := by
  unfold Mdat.markRun
  cases s.setDir idx mallocFirst <;> rfl

/-- With nothing on the list, a page comes from the kernel. -/
theorem mallocPages_map (hhead : s.nextFree 0 = 0) (hne : (mapPages os s 1).1 ≠ 0) :
    mallocPages os (n + 2) s mallocPagesize =
      ((mapPages os s 1).2.setDir ((mapPages os s 1).2.ptr2idx (mapPages os s 1).1)
        mallocFirst).map fun t => ((mapPages os s 1).1, t) := by
  have hround : pageRoundUp mallocPagesize mallocPagesize = mallocPagesize := by decide
  have hpages : mallocPagesize / mallocPagesize = 1 := by decide
  rw [mallocPages, hround, hhead]
  have hseek : ∀ p, seek s.nextFree p (n + 1) 0 = some 0 := fun _ => rfl
  rw [hseek, Option.bind_some]
  have htake : s.takeRun 0 mallocPagesize = (0, 0, s) := rfl
  rw [htake]
  dsimp only
  rw [if_pos rfl, hpages, if_neg hne, markRun_one]
  cases (mapPages os s 1).2.setDir ((mapPages os s 1).2.ptr2idx (mapPages os s 1).1) mallocFirst <;>
    rfl

/-- The record of a page of chunks of 64 bytes is on the page. -/
theorem mallocMakeChunks_map (hhead : s.nextFree 0 = 0) (hne : (mapPages os s 1).1 ≠ 0) :
    mallocMakeChunks os (n + 3) s 6 =
      (((mapPages os s 1).2.setDir ((mapPages os s 1).2.ptr2idx (mapPages os s 1).1)
        mallocFirst).bind fun t => t.linkInfo (mapPages os s 1).1 (mapPages os s 1).1 6).map
          fun t => (true, t) := by
  rw [mallocMakeChunks, mallocPages_map hhead hne]
  cases (mapPages os s 1).2.setDir ((mapPages os s 1).2.ptr2idx (mapPages os s 1).1)
    mallocFirst with
  | none => rfl
  | some t =>
    have hsmall : 2 ^ 6 ≤ adminLen 6 + adminLen 6 := by decide
    rw [Option.map_some, Option.bind_some, Option.bind_some]
    dsimp only
    rw [if_neg hne, if_pos hsmall]

/-- The first record is on the page that is mapped for it. -/
theorem imalloc_map (hhead : s.nextFree 0 = 0) (hbucket : s.dir? 6 = some 0)
    (hne : (mapPages os s 1).1 ≠ 0) :
    imalloc os (n + 5) s sizeofPgFree =
      ((mapPages os s 1).2.setDir ((mapPages os s 1).2.ptr2idx (mapPages os s 1).1)
        mallocFirst).bind fun t =>
          (t.linkInfo (mapPages os s 1).1 (mapPages os s 1).1 6).bind fun t => t.takeChunk 6 := by
  have hj : bucketFor sizeofPgFree = 6 := by decide
  rw [imalloc, if_neg (by decide), if_pos (by decide), mallocBytes]
  dsimp only
  rw [if_neg (by decide : ¬ sizeofPgFree < mallocMinsize), hj, hbucket, Option.bind_some,
    if_pos rfl, mallocMakeChunks_map hhead hne]
  cases (mapPages os s 1).2.setDir ((mapPages os s 1).2.ptr2idx (mapPages os s 1).1)
    mallocFirst with
  | none => rfl
  | some t =>
    rw [Option.bind_some, Option.bind_some]
    cases t.linkInfo (mapPages os s 1).1 (mapPages os s 1).1 6 with
    | none => rfl
    | some u => rw [Option.map_some, Option.bind_some, Option.bind_some]; rfl

/-- A chunk is taken from a page that has others. -/
theorem takeChunk_eq {j k : ℕ} (bp : ℕ) (hj : j < s.dirLen) (hbp : s.pageDir j = bp)
    (hk : k < mallocPagesize / mallocMinsize) (hbit : (s.infos bp).bits k = true)
    (hbefore : ∀ i < k, (s.infos bp).bits i = false)
    (hfree : ((s.infos bp).free + (2 ^ 16 - 1)) % 2 ^ 16 ≠ 0) :
    s.takeChunk j = some (wordAdd (s.infos bp).page (k * 2 ^ (s.infos bp).shift),
      s.setInfo bp { s.infos bp with
        bits := Function.update (s.infos bp).bits k false
        free := ((s.infos bp).free + (2 ^ 16 - 1)) % 2 ^ 16 }) := by
  have hdir : s.dir? j = some bp := by
    unfold Mdat.dir?
    rw [if_pos hj, hbp]
  have hfind : (List.range (mallocPagesize / mallocMinsize)).find? (s.infos bp).bits = some k := by
    rw [List.find?_range_eq_some]
    refine ⟨hbit, List.mem_range.mpr hk, fun i hi => ?_⟩
    rw [hbefore i hi]
    rfl
  unfold Mdat.takeChunk
  rw [hdir, Option.bind_some]
  dsimp only
  rw [hfind, Option.bind_some, if_neg hfree]

/-- A page becomes a page of chunks of 64 bytes. -/
theorem linkInfo_eq (s : Mdat) (pp : ℕ) (hdir : s.ptr2idx pp < s.dirLen) (hidx : s.ptr2idx pp ≠ 6)
    (hsix : 6 < s.dirLen) :
    s.linkInfo pp pp 6 = some { s with
      pageDir := Function.update (Function.update s.pageDir (s.ptr2idx pp) pp) 6 pp
      infos := Function.update s.infos pp
        { (s.infos pp).fresh pp pp 6 with next := s.pageDir 6 } } := by
  have hptr : ∀ infos, ({ s with infos } : Mdat).ptr2idx pp = s.ptr2idx pp := fun _ => rfl
  unfold Mdat.linkInfo Mdat.setDir Mdat.dir? Mdat.setInfo
  dsimp only
  rw [hptr, if_pos hdir, Option.bind_some]
  dsimp only
  rw [if_pos hsix, Option.bind_some, if_pos hsix, Function.update_self,
    Function.update_idem, Function.update_of_ne (Ne.symm hidx)]

/-- The record of a new page of chunks of 64 bytes: the first one is taken for it. -/
theorem fresh_spec (info : PgInfo) (pp : ℕ) :
    (info.fresh pp pp 6).page = pp ∧ (info.fresh pp pp 6).shift = 6 ∧
      (info.fresh pp pp 6).free = 63 ∧ (info.fresh pp pp 6).bits 0 = false ∧
        ∀ i, 0 < i → i < 64 → (info.fresh pp pp 6).bits i = true := by
  have hstolen : (adminLen 6 + 2 ^ 6 - 1) / 2 ^ 6 = 1 := by decide
  have htotal : mallocPagesize / 2 ^ 6 = 64 := by decide
  unfold PgInfo.fresh
  dsimp only
  rw [if_pos rfl, hstolen, htotal]
  refine ⟨rfl, rfl, rfl, rfl, fun i hpos hlt => ?_⟩
  rw [if_neg (by omega), if_pos hlt]

/-- The first page becomes a page of chunks, and one of them is taken. -/
theorem firstChunk {pp : ℕ} (hin : s.ptr2idx pp < s.dirLen) (hidx : 6 < s.ptr2idx pp)
    (hpp : pp + 64 < 2 ^ 64) :
    ∃ info : PgInfo, ((s.setDir (s.ptr2idx pp) mallocFirst).bind fun t =>
        (t.linkInfo pp pp 6).bind fun t => t.takeChunk 6) = some (pp + 64, { s with
          pageDir := Function.update (Function.update s.pageDir (s.ptr2idx pp) pp) 6 pp
          infos := Function.update s.infos pp info }) ∧
      info.page = pp ∧ info.shift = 6 ∧ info.free = 62 ∧ info.bits 2 = true ∧
        ∀ i < 2, info.bits i = false := by
  obtain ⟨hpage, hshift, hfree, hzero, hbits⟩ := fresh_spec (s.infos pp) pp
  have hset : s.setDir (s.ptr2idx pp) mallocFirst = some { s with
      pageDir := Function.update s.pageDir (s.ptr2idx pp) mallocFirst } := if_pos hin
  rw [hset, Option.bind_some]
  obtain ⟨v, hv⟩ : ∃ v : Mdat, v = { s with
      pageDir := Function.update (Function.update (Function.update s.pageDir (s.ptr2idx pp)
        mallocFirst) (s.ptr2idx pp) pp) 6 pp
      infos := Function.update s.infos pp
        { (s.infos pp).fresh pp pp 6 with
          next := Function.update s.pageDir (s.ptr2idx pp) mallocFirst 6 } } := ⟨_, rfl⟩
  have hlink : ({ s with
      pageDir := Function.update s.pageDir (s.ptr2idx pp) mallocFirst } : Mdat).linkInfo pp pp 6
      = some v := by
    rw [hv]
    exact linkInfo_eq _ pp hin hidx.ne' (hidx.trans hin)
  have hinfo : v.infos pp = { (s.infos pp).fresh pp pp 6 with
      next := Function.update s.pageDir (s.ptr2idx pp) mallocFirst 6 } := by
    rw [hv]
    exact Function.update_self pp _ s.infos
  have hbucket : v.pageDir 6 = pp := by
    rw [hv]
    dsimp only
    rw [Function.update_self]
  have htake := takeChunk_eq (k := 1) pp (show 6 < v.dirLen by rw [hv]; exact hidx.trans hin)
    hbucket (by decide) (by rw [hinfo]; exact hbits 1 (by decide) (by decide))
    (fun i hi => by rw [hinfo, Nat.lt_one_iff.mp hi]; exact hzero)
    (by rw [hinfo]; change (((s.infos pp).fresh pp pp 6).free + _) % _ ≠ 0; rw [hfree]; decide)
  refine ⟨{ (s.infos pp).fresh pp pp 6 with
      next := Function.update s.pageDir (s.ptr2idx pp) mallocFirst 6
      free := 62
      bits := Function.update ((s.infos pp).fresh pp pp 6).bits 1 false }, ?_, hpage, hshift, rfl,
    ?_, fun i hi => ?_⟩
  · have hchunk : 1 * 2 ^ 6 = 64 := by decide
    have hleft : (63 + (2 ^ 16 - 1)) % 2 ^ 16 = 62 := by decide
    rw [hlink, Option.bind_some, htake, hinfo]
    dsimp only
    rw [hpage, hshift, hfree, hchunk, hleft, wordAdd_eq hpp, hv, Mdat.setInfo,
      Function.update_idem, Function.update_idem]
  · change Function.update ((s.infos pp).fresh pp pp 6).bits 1 false 2 = true
    rw [Function.update_of_ne (by decide)]
    exact hbits 2 (by decide) (by decide)
  · change Function.update ((s.infos pp).fresh pp pp 6).bits 1 false i = false
    obtain rfl | rfl : i = 0 ∨ i = 1 := by omega
    · rw [Function.update_of_ne (by decide)]
      exact hzero
    · rw [Function.update_self]

/-- The page of the first record lies on the list that the record is for. -/
theorem Mdat.Begun.unsound {a : ℕ} (h : s.Begun a cache)
    (hgrant : Granted a ((cache + 1) * mallocPagesize)) (hnz : (cache + 1) % 2 ^ 20 ≠ 0)
    (live : List Span) : ¬ (HmRun.mk s live).Sound := by
  rintro ⟨l, hl⟩
  have hmem : firstPage a cache + 64 ∈ l := by
    cases l with
    | nil =>
      have := h.head.symm.trans hl.chain
      omega
    | cons pf l =>
      rw [← h.head, show s.nextFree 0 = pf from hl.chain.1]
      exact List.mem_cons_self ..
  have hhas : (s.frees (firstPage a cache + 64)).run.Has (firstPage a cache) := by
    rw [h.first]
    unfold PgFree.run Span.Has firstPage mallocPagesize
    dsimp only
    omega
  refine hl.free _ hmem _ hhas ?_
  unfold Mdat.InUse
  rw [h.page]
  have hle : mallocPagesize ≤ a := Nat.le_of_dvd hgrant.pos hgrant.dvd
  unfold firstPage mallocFirst mallocPagesize at *
  omega

/-- A run whose pages are in the directory can be marked. -/
theorem markRun_isSome {idx pages : ℕ} (h : idx + pages ≤ s.dirLen) (hpos : 0 < pages) :
    ∃ dir, s.markRun idx pages = some { s with pageDir := dir } := by
  have hfold : ∀ (l : List ℕ) (t : Mdat), (∀ i ∈ l, idx + i < t.dirLen) →
      ∃ dir, l.foldlM (fun s i => s.setDir (idx + i) mallocFollow) t
        = some { t with pageDir := dir } := by
    intro l
    induction l with
    | nil => exact fun t _ => ⟨t.pageDir, rfl⟩
    | cons i l ih =>
      intro t ht
      have hset : t.setDir (idx + i) mallocFollow = some { t with
          pageDir := Function.update t.pageDir (idx + i) mallocFollow } :=
        if_pos (ht i (List.mem_cons_self ..))
      obtain ⟨dir, hdir⟩ := ih { t with
        pageDir := Function.update t.pageDir (idx + i) mallocFollow } fun j hj =>
          ht j (List.mem_cons_of_mem _ hj)
      exact ⟨dir, by rw [List.foldlM_cons, hset]; exact hdir⟩
  have hset : s.setDir idx mallocFirst = some { s with
      pageDir := Function.update s.pageDir idx mallocFirst } := if_pos (by omega)
  unfold Mdat.markRun
  rw [hset, Option.bind_some]
  refine hfold _ _ fun i hi => ?_
  rw [List.mem_range'_1] at hi
  change idx + i < s.dirLen
  omega

/-- The first page is in the object. -/
theorem firstPage_add_le (a cache : ℕ) :
    firstPage a cache + mallocPagesize ≤ a + (cache + 1) * mallocPagesize := by
  unfold firstPage mallocPagesize
  omega

/-- The next chunk of 64 bytes is on the page of the first record. -/
theorem Mdat.Begun.chunk {a : ℕ} (h : s.Begun a cache) (os : Os) (n : ℕ)
    (hgrant : Granted a ((cache + 1) * mallocPagesize)) :
    ∃ info, hmalloc os (n + 2) s 64
      = some (firstPage a cache + 128, s.setInfo (firstPage a cache) info) := by
  have hj : bucketFor 64 = 6 := by decide
  have hlen : 6 < s.dirLen :=
    (by decide : 6 < 11).trans_le ((Nat.le_add_left 11 _).trans h.lt_dirLen.le)
  have hne : firstPage a cache ≠ 0 := by
    have := hgrant.pos
    unfold firstPage
    omega
  have hdir : s.dir? 6 = some (firstPage a cache) := by
    unfold Mdat.dir?
    rw [if_pos hlen, h.bucket]
  have htake := takeChunk_eq (k := 2) (firstPage a cache) hlen h.bucket (by decide) h.info_bits.1
    h.info_bits.2 (by rw [h.info_free]; decide)
  rw [hmalloc, if_pos h.started, Option.bind_some, imalloc, if_neg (by decide), if_pos (by decide),
    mallocBytes]
  dsimp only
  rw [if_neg (by decide : ¬ 64 < mallocMinsize), hj, hdir, Option.bind_some, if_neg hne,
    Option.bind_some]
  dsimp only
  rw [if_pos rfl, htake, h.info_page, h.info_shift, wordAdd_eq]
  · exact ⟨_, rfl⟩
  · have := firstPage_add_le a cache
    have := hgrant.lt
    unfold mallocPagesize at *
    omega

/-- **The record of the first page gives out the whole heap.** -/
theorem Mdat.Begun.whole {a : ℕ} (h : s.Begun a cache) (os : Os) (n : ℕ)
    (hgrant : Granted a ((cache + 1) * mallocPagesize)) (hnz : (cache + 1) % 2 ^ 20 ≠ 0)
    (info : PgInfo) :
    ∃ s', hmalloc os (n + 4) (s.setInfo (firstPage a cache) info)
      ((cache + 1) % 2 ^ 20 * mallocPagesize) = some (a, s') := by
  obtain ⟨len, hlen⟩ : ∃ len, len = (cache + 1) % 2 ^ 20 * mallocPagesize := ⟨_, rfl⟩
  obtain ⟨t, ht⟩ : ∃ t, t = s.setInfo (firstPage a cache) info := ⟨_, rfl⟩
  have hle : (cache + 1) % 2 ^ 20 * mallocPagesize ≤ (cache + 1) * mallocPagesize :=
    Nat.mul_le_mul_right _ (Nat.mod_le ..)
  have hge : mallocPagesize ≤ len := by
    rw [hlen]
    exact Nat.le_mul_of_pos_left _ (Nat.pos_of_ne_zero hnz)
  have hbound : len + mallocPagesize < 2 ^ 64 := by
    rw [hlen]
    unfold mallocPagesize
    omega
  have hround : pageRoundUp mallocPagesize len = len :=
    pageRoundUp_of_dvd (by decide) hbound.le (hlen ▸ Nat.dvd_mul_left ..)
  have hpages : len / mallocPagesize = (cache + 1) % 2 ^ 20 := by
    rw [hlen]
    exact Nat.mul_div_cancel _ (by decide)
  have hpx : firstPage a cache + 64 ≠ 0 := by omega
  have hhead : t.nextFree 0 = firstPage a cache + 64 := by rw [ht]; exact h.head
  have hfirst : t.frees (firstPage a cache + 64) = ⟨0, 0, a, a + len, len⟩ := by
    rw [ht, hlen]
    exact h.first
  have hseek : seek t.nextFree (fun pf => decide (len ≤ (t.frees pf).size)) (n + 2)
      (firstPage a cache + 64) = some (firstPage a cache + 64) := by
    rw [seek, if_neg hpx, if_pos (by rw [hfirst]; exact decide_eq_true le_rfl)]
  have htake : t.takeRun (firstPage a cache + 64) len
      = (a, firstPage a cache + 64, t.modFree 0 fun g => { g with next := 0 }) := by
    unfold Mdat.takeRun
    rw [if_neg hpx, hfirst]
    exact if_pos rfl
  have hover : ¬ wordAdd len mallocPagesize < len := by
    rw [wordAdd_eq hbound]
    omega
  have hlarge : ¬ len ≤ mallocMaxsize := by
    unfold mallocMaxsize mallocPagesize at *
    omega
  have horigo : t.mallocOrigo = 2 ^ 64 - mallocPageshift := by rw [ht]; exact h.origo
  have ha : a ≠ 0 := hgrant.pos.ne'
  obtain ⟨u, hu⟩ : ∃ u, u = t.modFree 0 fun g => { g with next := 0 } := ⟨_, rfl⟩
  rw [← hu] at htake
  have hidx : u.ptr2idx a = a / mallocPagesize + 12 := by
    rw [hu]
    exact ptr2idx_eq (s := t) horigo (by have := hgrant.lt; omega)
  have hpx' : u.px = 0 := by
    rw [hu, ht]
    exact h.px
  obtain ⟨dir, hmark⟩ : ∃ dir, u.markRun (u.ptr2idx a) ((cache + 1) % 2 ^ 20)
      = some { u with pageDir := dir } := by
    refine markRun_isSome ?_ (Nat.pos_of_ne_zero hnz)
    have hlt : a / mallocPagesize + (cache + 1) % 2 ^ 20 + 11 < u.dirLen := by
      rw [hu, ht]
      exact h.lt_dirLen
    rw [hidx]
    generalize a / mallocPagesize = q at *
    omega
  rw [← hlen, ← ht, hmalloc, if_pos (by rw [ht]; exact h.started), Option.bind_some, imalloc,
    if_neg hover, if_neg hlarge, mallocPages, hround, hhead, hseek, Option.bind_some, htake]
  dsimp only
  rw [if_neg ha]
  dsimp only
  rw [if_neg ha, hpages, hmark, Option.bind_some, if_neg hpx, if_pos hpx']
  exact ⟨_, rfl⟩

variable (hdir : os.dirCreate (minPagedirSize * mallocPagesize) ≠ 0)
  (hgrant : Granted (os.heapCreate ((cacheOf c + 1) * mallocPagesize))
    ((cacheOf c + 1) * mallocPagesize))
  (hresize : ∀ b m, os.resize b m = true)
include hdir hgrant hresize

/-- **The initialisation** goes through, or runs off the end of the page directory. -/
theorem mallocInit_spec :
    ((cacheOf c + 1) % 2 ^ 20 = 0 → mallocInit os (n + 5) (hmallocInit c) = none) ∧
      ((cacheOf c + 1) % 2 ^ 20 ≠ 0 → ∃ s, mallocInit os (n + 5) (hmallocInit c) = some s ∧
        s.Begun (os.heapCreate ((cacheOf c + 1) * mallocPagesize)) (cacheOf c)) := by
  have hcache : cacheOf c < 2 ^ 32 := by
    unfold cacheOf
    split_ifs
    · decide
    · exact Nat.mod_lt _ (by decide)
  set dir := os.dirCreate (minPagedirSize * mallocPagesize) with hdir'
  set a := os.heapCreate ((cacheOf c + 1) * mallocPagesize) with ha
  set s := (hmallocInit c).prepare (cacheOf c) dir with hs
  have hfresh : s.heapCap = 0 ∧ s.heapSize = cacheOf c ∧ s.mallocNinfo = 512 ∧
      s.dirLen = 10240 ∧ s.mallocOrigo = 2 ^ 64 - mallocPageshift := ⟨rfl, rfl, rfl, rfl, rfl⟩
  obtain ⟨d, m, hmap, hd, hlt, hle⟩ := mapPages_first hfresh hcache ha.symm hgrant hresize
  have hpage := firstPage_add_le a (cacheOf c)
  have hend := hgrant.lt
  have hpos := hgrant.pos
  have hne : firstPage a (cacheOf c) ≠ 0 := by
    unfold firstPage
    omega
  have hinit : mallocInit os (n + 5) (hmallocInit c) =
      (imalloc os (n + 5) s sizeofPgFree).bind fun r =>
        if r.1 = 0 then none else some (r.2.firstRun r.1) := if_neg hdir
  obtain ⟨u, hu⟩ : ∃ u : Mdat, u = { s with
      heapCap := a
      heapSize := (cacheOf c + 1) % 2 ^ 32
      lastIdx := a / mallocPagesize + (cacheOf c + 1) % 2 ^ 20 + 11
      dirLen := d
      mallocNinfo := m } := ⟨_, rfl⟩
  rw [← hu] at hmap
  rw [hinit, imalloc_map rfl rfl (by rw [hmap]; exact hne), hmap]
  dsimp only
  have horigo : u.mallocOrigo = 2 ^ 64 - mallocPageshift := by rw [hu]; rfl
  have hlen : u.dirLen = d := by rw [hu]
  have hidx : u.ptr2idx (firstPage a (cacheOf c)) = a / mallocPagesize + cacheOf c % 2 ^ 20 + 12 :=
    ptr2idx_firstPage horigo (by omega)
  refine ⟨fun hzero => ?_, fun hnz => ?_⟩
  · have hout : ¬ u.ptr2idx (firstPage a (cacheOf c)) < u.dirLen := by
      have := hle hzero
      rw [hidx, hlen]
      omega
    rw [Mdat.setDir, if_neg hout]
    rfl
  · have hin : u.ptr2idx (firstPage a (cacheOf c)) < u.dirLen := by
      have := hlt hnz
      rw [hidx, hlen]
      omega
    obtain ⟨info, hfirst, hpg, hshift, hfree, hbits⟩ :=
      firstChunk hin (by rw [hidx]; exact (by decide : 6 < 12).trans_le (Nat.le_add_left ..))
        (by unfold mallocPagesize at *; omega)
    rw [hfirst, Option.bind_some, if_neg (by dsimp only; omega)]
    refine ⟨_, rfl, ?_⟩
    have hbytes : ∀ pageDir infos, ({ u with pageDir, infos } : Mdat).heapBytes
        = (cacheOf c + 1) % 2 ^ 20 * mallocPagesize := fun _ _ => heapBytes_eq _ (by rw [hu])
    have hstop : wordAdd a ((cacheOf c + 1) % 2 ^ 20 * mallocPagesize)
        = a + (cacheOf c + 1) % 2 ^ 20 * mallocPagesize := wordAdd_eq (by
      have := Nat.mul_le_mul_right mallocPagesize (Nat.mod_le (cacheOf c + 1) (2 ^ 20))
      omega)
    have hne6 : u.ptr2idx (firstPage a (cacheOf c)) ≠ 6 := by
      rw [hidx]
      exact ((by decide : 6 < 12).trans_le (Nat.le_add_left ..)).ne'
    have hinfos : Function.update u.infos (firstPage a (cacheOf c)) info (firstPage a (cacheOf c))
        = info := Function.update_self ..
    refine
      { started := rfl
        px := rfl
        heapCap := by rw [hu]; rfl
        head := ?_
        first := ?_
        origo := horigo
        lt_dirLen := ?_
        bucket := ?_
        page := ?_
        info_page := (congrArg PgInfo.page hinfos).trans hpg
        info_shift := (congrArg PgInfo.shift hinfos).trans hshift
        info_free := (congrArg PgInfo.free hinfos).trans hfree
        info_bits := ?_ }
    · unfold Mdat.firstRun Mdat.modFree Mdat.setFree Mdat.nextFree
      dsimp only
      rw [Function.update_self]
    · unfold Mdat.firstRun Mdat.modFree Mdat.setFree Mdat.nextFree
      dsimp only
      rw [Function.update_of_ne (by omega), Function.update_self, hbytes, hu]
      dsimp only
      rw [hstop]
      rfl
    · change _ < u.dirLen
      rw [hlen]
      exact hlt hnz
    · change Function.update (Function.update u.pageDir (u.ptr2idx (firstPage a (cacheOf c)))
        (firstPage a (cacheOf c))) 6 (firstPage a (cacheOf c)) 6 = _
      rw [Function.update_self]
    · change Function.update (Function.update u.pageDir (u.ptr2idx (firstPage a (cacheOf c)))
        (firstPage a (cacheOf c))) 6 (firstPage a (cacheOf c))
          (u.ptr2idx (firstPage a (cacheOf c))) = _
      rw [Function.update_of_ne hne6, Function.update_self]
    · have hbits' := congrArg PgInfo.bits hinfos
      exact ⟨(congrFun hbits' 2).trans hbits.1,
        fun i hi => (congrFun hbits' i).trans (hbits.2 i hi)⟩

omit hgrant hresize in
/-- It takes as many calls as there are functions. -/
theorem mallocInit_fuel (h : mallocInit os n (hmallocInit c) = some s) : 5 ≤ n := by
  by_contra hlt
  have hinit : mallocInit os n (hmallocInit c) =
      (imalloc os n ((hmallocInit c).prepare (cacheOf c)
        (os.dirCreate (minPagedirSize * mallocPagesize))) sizeofPgFree).bind fun r =>
          if r.1 = 0 then none else some (r.2.firstRun r.1) := if_neg hdir
  generalize hs : (hmallocInit c).prepare (cacheOf c)
    (os.dirCreate (minPagedirSize * mallocPagesize)) = t at hinit
  have hbucket : t.dir? 6 = some 0 := by rw [← hs]; rfl
  have hj : bucketFor sizeofPgFree = 6 := by decide
  have hpages : ∀ m < 2, mallocPages os m t mallocPagesize = none := by
    intro m hm
    obtain rfl | rfl : m = 0 ∨ m = 1 := by omega
    · rfl
    · rw [mallocPages]
      rfl
  have hchunks : ∀ m < 3, mallocMakeChunks os m t 6 = none := by
    intro m hm
    cases m with
    | zero => rfl
    | succ m =>
      rw [mallocMakeChunks, hpages m (by omega)]
      rfl
  have hbytes : ∀ m < 4, mallocBytes os m t sizeofPgFree = none := by
    intro m hm
    cases m with
    | zero => rfl
    | succ m =>
      rw [mallocBytes]
      dsimp only
      rw [if_neg (by decide : ¬ sizeofPgFree < mallocMinsize), hj, hbucket, Option.bind_some,
        if_pos rfl, hchunks m (by omega)]
      rfl
  have hnone : imalloc os n t sizeofPgFree = none := by
    cases n with
    | zero => rfl
    | succ n =>
      rw [imalloc, if_neg (by decide), if_pos (by decide)]
      exact hbytes n (by omega)
  rw [hinit, hnone] at h
  cases h

/-- The initialisation goes through, but for the end of the directory. -/
theorem mallocInit_isSome_iff :
    (∃ n s, mallocInit os n (hmallocInit c) = some s) ↔ (cacheOf c + 1) % 2 ^ 20 ≠ 0 := by
  constructor
  · rintro ⟨n, s, h⟩ hzero
    obtain ⟨k, rfl⟩ := Nat.exists_eq_add_of_le' (mallocInit_fuel hdir h)
    rw [(mallocInit_spec hdir hgrant hresize).1 hzero] at h
    cases h
  · intro hnz
    obtain ⟨s, hs, -⟩ := (mallocInit_spec (n := 0) hdir hgrant hresize).2 hnz
    exact ⟨5, s, hs⟩

/-- **The heap is never sound from the start**, whatever is asked of it. -/
theorem hmalloc_unsound {s₀ : Mdat} (h₀ : mallocInit os n (hmallocInit c) = some s₀)
    (ops : List HmOp) :
    ¬ ∀ ops₁ s, ops₁ <+: ops → run (hmStep os n) ⟨s₀, []⟩ ops₁ = some s → s.Sound := by
  intro hsound
  obtain ⟨k, rfl⟩ := Nat.exists_eq_add_of_le' (mallocInit_fuel hdir h₀)
  have hnz := (mallocInit_isSome_iff hdir hgrant hresize).mp ⟨_, s₀, h₀⟩
  obtain ⟨s, hs, hbegun⟩ := (mallocInit_spec (n := k) hdir hgrant hresize).2 hnz
  obtain rfl := Option.some.inj (h₀.symm.trans hs)
  exact hbegun.unsound hgrant hnz [] (hsound [] _ List.nil_prefix rfl)

/-- **Two calls are enough to hand out the same memory twice.** -/
theorem hmalloc_overlap (hnz : (cacheOf c + 1) % 2 ^ 20 ≠ 0) :
    ∃ s₀ s₁ s₂ p q, mallocInit os (n + 5) (hmallocInit c) = some s₀ ∧
      hmalloc os (n + 5) s₀ 64 = some (p, s₁) ∧
      hmalloc os (n + 5) s₁ ((cacheOf c + 1) % 2 ^ 20 * mallocPagesize) = some (q, s₂) ∧
      q ≤ p ∧ p + 64 ≤ q + (cacheOf c + 1) % 2 ^ 20 * mallocPagesize := by
  obtain ⟨s₀, h₀, hbegun⟩ := (mallocInit_spec (n := n) hdir hgrant hresize).2 hnz
  obtain ⟨info, h₁⟩ := hbegun.chunk os (n + 3) hgrant
  obtain ⟨s₂, h₂⟩ := hbegun.whole os (n + 1) hgrant hnz info
  refine ⟨s₀, _, s₂, _, _, h₀, h₁, h₂, ?_, ?_⟩
  all_goals
    unfold firstPage mallocPagesize
    omega

end First

/-- A kernel that puts the page directory at 1 MB and the heap at 16 MB. -/
def someOs : Os := ⟨fun _ => 2 ^ 20, fun _ => 2 ^ 24, fun _ _ => true⟩

/-- One page in reserve. -/
theorem hmalloc_unsound_one : ∃ s₀, mallocInit someOs 8 (hmallocInit 1) = some s₀ ∧
    ¬ ∀ ops₁ s, ops₁ <+: [HmOp.malloc 64] →
      run (hmStep someOs 8) ⟨s₀, []⟩ ops₁ = some s → s.Sound := by
  have hgrant : Granted (someOs.heapCreate ((cacheOf 1 + 1) * mallocPagesize))
      ((cacheOf 1 + 1) * mallocPagesize) := ⟨by decide, by decide, by decide⟩
  obtain ⟨s₀, h₀, -⟩ :=
    (mallocInit_spec (n := 3) (by decide) hgrant fun _ _ => rfl).2 (by decide)
  exact ⟨s₀, h₀, hmalloc_unsound (by decide) hgrant (fun _ _ => rfl) h₀ _⟩

/-- With one page in reserve, a small piece of memory and then two pages: they overlap. -/
theorem hmalloc_not_sound : ¬ ∀ (os : Os) (size n : ℕ) (s₀ : Mdat) (ops : List HmOp) (s : HmRun),
    os.dirCreate (minPagedirSize * mallocPagesize) ≠ 0 →
    Granted (os.heapCreate ((cacheOf size + 1) * mallocPagesize))
      ((cacheOf size + 1) * mallocPagesize) →
    (∀ b m, os.resize b m = true) → mallocInit os n (hmallocInit size) = some s₀ →
    run (hmStep os n) ⟨s₀, []⟩ ops = some s → s.Sound := by
  intro h
  have hrun : ((mallocInit someOs 8 (hmallocInit 1)).bind fun s₀ =>
      run (hmStep someOs 8) ⟨s₀, []⟩ [.malloc 64, .malloc 8192]).map HmRun.live
        = some [⟨2 ^ 24 + 4096 + 128, 2 ^ 24 + 4096 + 192⟩, ⟨2 ^ 24, 2 ^ 24 + 8192⟩] := by
    decide +kernel
  obtain ⟨s, hs, hlive⟩ := Option.map_eq_some_iff.mp hrun
  obtain ⟨s₀, h₀, hs⟩ := Option.bind_eq_some_iff.mp hs
  obtain ⟨l, hl⟩ := h someOs 1 8 s₀ _ s (by decide) ⟨by decide, by decide, by decide⟩
    (fun _ _ => rfl) h₀ hs
  have hapart := hl.apart
  rw [hlive, List.pairwise_pair] at hapart
  exact hapart (2 ^ 24 + 4096 + 128) ⟨by decide, by decide⟩ ⟨by decide, by decide⟩

end Mungi.Naming
