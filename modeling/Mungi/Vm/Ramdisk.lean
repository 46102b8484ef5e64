import Mungi.Lib.ForLoop
import Mungi.Lib.Runs
import Mungi.Lib.SearchLoop
import Mungi.Words
import Mathlib.Data.List.Dedup
import Mathlib.Logic.Function.Iterate

/-!
# The RAM disk

The disk thread of a machine without a disk (`ramdisk.c`).  It owns the memory behind that of
the pager: a page with a magic number, a table that says which page every block holds, and the
blocks.  Requests come as messages, one after another; `ramdisk_main` looks at the message
over and over, and it is for the handlers to wait for the next one.

Memory is given in pages of words, so the table and the blocks are where the code puts them.

## Main definitions

* `formatDisk`, `ramdiskInit` — the start.
* `readRequest`, `writeRequest` — the handlers, as far as memory goes.
* `ramdiskRound` — a round of the main loop.
* `Served` — all messages have been handled, as by a store of pages.

## Main results

* `ramdisk_served_iff` — **when all messages are handled so.**
* `ramdisk_not_served` — a message that is not.
-/

namespace Mungi

open ForLoop SearchLoop Runs

/-! ### The code -/

/-- Where the RAM disk is. -/
structure RamdiskConf where
  /-- The page of `region_base`. -/
  regionBase : ℕ
  /-- The number of pages up to `k->kernel_data`. -/
  pages : ℕ
  /-- `L4_PAGESIZE / sizeof(uint64_t)` -/
  pageWords : ℕ

/-- `rsv` -/
def RamdiskConf.rsv (c : RamdiskConf) : ℕ := wordSub c.pages 1 / c.pageWords

/-- `total_blocks` -/
def RamdiskConf.totalBlocks (c : RamdiskConf) : ℕ := wordSub (wordSub c.pages 1) c.rsv

/-- The page of `disk_base`. -/
def RamdiskConf.diskBase (c : RamdiskConf) : ℕ := c.regionBase + c.rsv

/-- Memory: pages of words. -/
abbrev PageMem := ℕ → ℕ → ℕ

/-- `(uint64_t)-1` -/
def noBlock : ℕ := 2 ^ 64 - 1

/-- `RAMPAGER_MAGIC` -/
def rampagerMagic : ℕ := 4242

/-- The word at `MAGIC_OFFSET`. -/
def magicWord : ℕ := 2

/-- `blocks[i]`, from `TABLE_OFFSET` on. -/
def blockAt (c : RamdiskConf) (mem : PageMem) (i : ℕ) : ℕ :=
  mem (c.regionBase + 1 + i / c.pageWords) (i % c.pageWords)

/-- A word of memory is written. -/
def setWord (mem : PageMem) (page word value : ℕ) : PageMem :=
  Function.update mem page (Function.update (mem page) word value)

/-- `blocks[i] = value` -/
def setBlock (c : RamdiskConf) (mem : PageMem) (i value : ℕ) : PageMem :=
  setWord mem (c.regionBase + 1 + i / c.pageWords) (i % c.pageWords) value

/-- `memcpy` of a page. -/
def copyPage (mem : PageMem) (dest src : ℕ) : PageMem := Function.update mem dest (mem src)

/-- The disk is formatted. -/
def formatDisk (c : RamdiskConf) (mem : PageMem) : PageMem :=
  setWord (forUp (fun i mem => setBlock c mem i.toNat noBlock) 0 c.totalBlocks mem) c.regionBase
    magicWord rampagerMagic

/-- `ramdisk_init`: what was in memory is kept when the magic number is. -/
def ramdiskInit (c : RamdiskConf) (mem : PageMem) : PageMem :=
  if mem c.regionBase magicWord = rampagerMagic then mem else formatDisk c mem

/-- `READ_REQUEST` -/
def readRequestTag : ℕ := 0

/-- `WRITE_REQUEST` -/
def writeRequestTag : ℕ := 1

/-- `struct dirty_list` -/
structure DirtyEntry where
  frame : ℕ
  page : ℕ

/-- A message. -/
structure RdMsg where
  reg0 : ℕ
  reg2 : ℕ
  reg3 : ℕ
  /-- What is found at the address in `reg[2]` of a `WRITE_REQUEST`. -/
  list : ℕ → DirtyEntry

/-- The search of `write_request` for a block that holds the page, or else a free one. -/
def writeBlock (c : RamdiskConf) (mem : PageMem) (page : ℕ) : ℕ :=
  forUp (fun i blocknumber =>
    if blockAt c mem i.toNat = page then i.toNat
    else if blockAt c mem i.toNat = noBlock ∧ blocknumber = noBlock then i.toNat
    else blocknumber) 0 c.totalBlocks noBlock

/-- `write_request` -/
def writeRequest (c : RamdiskConf) (mem : PageMem) (msg : RdMsg) : PageMem :=
  forUp (fun req mem =>
    let frame := (msg.list req.toNat).frame
    let blocknumber := writeBlock c mem (msg.list req.toNat).page
    if blocknumber = noBlock then mem else copyPage mem (c.diskBase + blocknumber) frame)
    0 msg.reg3 mem

/-- `read_request`, up to the reply. -/
def readRequest (c : RamdiskConf) (mem : PageMem) (msg : RdMsg) : PageMem :=
  let found := findUp (fun i => if blockAt c mem i.toNat = msg.reg2 then some i else none) 0
    c.totalBlocks
  (found.map fun i => copyPage mem msg.reg3 (c.diskBase + i.toNat)).getD mem

/-- A handler has run: the message it looked at, and the memory before and after. -/
structure RdEvent where
  msg : RdMsg
  before : PageMem
  after : PageMem

/-- The state of the RAM disk. -/
structure RdState where
  mem : PageMem
  /-- `msg` -/
  msg : RdMsg
  /-- The messages that are still to come. -/
  inbox : List RdMsg
  /-- It waits for a message, and there is none. -/
  waiting : Bool
  /-- What has been handled, the last first. -/
  handled : List RdEvent

/-- `get_msg`, and `reply_msg` once the reply is sent. -/
def getMsg (s : RdState) : RdState :=
  match s.inbox with
  | [] => { s with waiting := true }
  | msg :: inbox => { s with msg, inbox }

/-- The message has been handled, and memory is now `mem`. -/
def RdState.handle (s : RdState) (mem : PageMem) : RdState :=
  { s with mem, handled := ⟨s.msg, s.mem, mem⟩ :: s.handled }

/-- A round of the loop of `ramdisk_main`. -/
def ramdiskRound (c : RamdiskConf) (s : RdState) : RdState :=
  if s.waiting then s
  else if s.msg.reg0 = readRequestTag then getMsg (s.handle (readRequest c s.mem s.msg))
  -- `write_request` neither replies nor waits
  else if s.msg.reg0 = writeRequestTag then s.handle (writeRequest c s.mem s.msg)
  else getMsg (s.handle s.mem)

/-- `ramdisk_main` up to the loop, with the messages that will come. -/
def ramdiskStart (c : RamdiskConf) (mem : PageMem) (msgs : List RdMsg) : RdState :=
  getMsg ⟨ramdiskInit c mem, ⟨0, 0, 0, fun _ => ⟨0, 0⟩⟩, msgs, false, []⟩

/-! ### A store of pages -/

/-- What a request writes for a page: the frame of the last entry for it. -/
def RdEvent.writes (e : RdEvent) (page : ℕ) : Option (ℕ → ℕ) :=
  if e.msg.reg0 = writeRequestTag then
    ((List.range e.msg.reg3).reverse.find? fun req => (e.msg.list req).page = page).map
      fun req => e.before (e.msg.list req).frame
  else none

/-- The contents given by the last write of a page. -/
def lastWrite (handled : List RdEvent) (page : ℕ) : Option (ℕ → ℕ) :=
  handled.findSome? (·.writes page)

/-- A read copies the contents of its page to the frame, and leaves the frame alone when the page
was never written. -/
def ReadsLast (e : RdEvent) (earlier : List RdEvent) : Prop :=
  e.msg.reg0 = readRequestTag →
    e.after e.msg.reg3 = (lastWrite earlier e.msg.reg2).getD (e.before e.msg.reg3)

/-- All messages have been handled, each of them once, as by a store of pages, and the next one is
awaited. -/
structure Served (c : RamdiskConf) (msgs : List RdMsg) (s : RdState) : Prop where
  waiting : s.waiting = true
  handled : s.handled.reverse.map RdEvent.msg = msgs
  reads : Each ReadsLast s.handled
  distinct : ∀ i j, i < c.totalBlocks → j < c.totalBlocks → i ≠ j →
    blockAt c s.mem i = blockAt c s.mem j → blockAt c s.mem i = noBlock

/-- A request that is handled as by a store of pages: it is not a `WRITE_REQUEST`, nor does it
read the page whose number marks free blocks, unless the frame holds what the first block does. -/
def Harmless (c : RamdiskConf) (mem : PageMem) (msg : RdMsg) : Prop :=
  msg.reg0 ≠ writeRequestTag ∧
    (msg.reg0 = readRequestTag → msg.reg2 = noBlock → 0 < c.totalBlocks →
      mem msg.reg3 = mem c.diskBase)

/-! ### Formatting -/

section Format
variable (c : RamdiskConf) (mem : PageMem)

theorem blockAt_setBlock_self (i value : ℕ) : blockAt c (setBlock c mem i value) i = value := by
  unfold blockAt setBlock setWord
  rw [Function.update_self, Function.update_self]

theorem blockAt_setBlock (i j value : ℕ) : blockAt c (setBlock c mem i value) j = value ∨
    blockAt c (setBlock c mem i value) j = blockAt c mem j := by
  unfold blockAt setBlock setWord
  by_cases hpage : c.regionBase + 1 + j / c.pageWords = c.regionBase + 1 + i / c.pageWords
  · rw [hpage, Function.update_self]
    by_cases hword : j % c.pageWords = i % c.pageWords
    · rw [hword, Function.update_self]
      exact Or.inl rfl
    · rw [Function.update_of_ne hword]
      exact Or.inr rfl
  · rw [Function.update_of_ne hpage]
    exact Or.inr rfl

/-- After formatting all blocks are free. -/
theorem blockAt_formatDisk {i : ℕ} (hi : i < c.totalBlocks) :
    blockAt c (formatDisk c mem) i = noBlock := by
  have hloop : ∀ n i, i < n →
      blockAt c (forUp (fun i mem => setBlock c mem i.toNat noBlock) 0 n mem) i = noBlock := by
    intro n
    induction n with
    | zero => exact fun i h => absurd h (Nat.not_lt_zero i)
    | succ n ih =>
      intro i h
      rw [forUp_succ, show ((0 : ℤ) + n).toNat = n by omega]
      rcases Nat.lt_succ_iff_lt_or_eq.mp h with h | rfl
      · rcases blockAt_setBlock c _ n i noBlock with hb | hb
        · exact hb
        · exact hb.trans (ih i h)
      · exact blockAt_setBlock_self ..
  -- the magic number is in the page before the table
  have hpage : c.regionBase + 1 + i / c.pageWords ≠ c.regionBase := by
    generalize i / c.pageWords = q
    omega
  unfold formatDisk
  rw [blockAt, setWord, Function.update_of_ne hpage]
  exact hloop _ i hi

/-- Among free blocks only their own number is found, at the first of them. -/
theorem findUp_blockAt {n : ℕ} (hfree : ∀ i, i < n → blockAt c mem i = noBlock) (page : ℕ) :
    findUp (fun i => if blockAt c mem i.toNat = page then some i else none) 0 n
      = if page = noBlock ∧ 0 < n then some 0 else none := by
  split_ifs with hfound
  · obtain ⟨rfl, hpos⟩ := hfound
    rw [findUp_eq_some]
    refine ⟨0, le_rfl, by omega, ?_, fun j h₁ h₂ => by omega⟩
    rw [Int.toNat_zero, if_pos (hfree 0 hpos)]
  · rw [findUp_eq_none]
    intro i h₁ h₂
    have hi : i.toNat < n := by omega
    rw [hfree i.toNat hi, if_neg]
    exact fun h => hfound ⟨h.symm, Nat.zero_lt_of_lt hi⟩

/-- What a read does on an empty disk. -/
theorem readRequest_formatDisk (msg : RdMsg) :
    readRequest c (formatDisk c mem) msg
      = if msg.reg2 = noBlock ∧ 0 < c.totalBlocks then
          copyPage (formatDisk c mem) msg.reg3 c.diskBase
        else formatDisk c mem := by
  unfold readRequest
  dsimp only
  rw [findUp_blockAt c (formatDisk c mem) fun _ hi => blockAt_formatDisk c mem hi]
  by_cases hfound : msg.reg2 = noBlock ∧ 0 < c.totalBlocks
  · rw [if_pos hfound, if_pos hfound, Option.map_some, Option.getD_some, Int.toNat_zero,
      Nat.add_zero]
  · rw [if_neg hfound, if_neg hfound, Option.map_none, Option.getD_none]

end Format

/-! ### The loop -/

section Loop
variable (c : RamdiskConf)

/-- A message that has not been answered is a write. -/
structure Blocked (s : RdState) : Prop where
  busy : s.waiting = false
  write : ∃ msg ∈ s.msg :: s.inbox, msg.reg0 = writeRequestTag

theorem Blocked.getMsg {s : RdState} (h : Blocked s) (hmsg : s.msg.reg0 ≠ writeRequestTag)
    (mem : PageMem) : Blocked (getMsg (s.handle mem)) := by
  obtain ⟨msg, hmem, hw⟩ := h.write
  rcases List.mem_cons.mp hmem with rfl | hmem
  · exact absurd hw hmsg
  · unfold Mungi.getMsg RdState.handle
    dsimp only
    cases hinbox : s.inbox with
    | nil => rw [hinbox] at hmem; cases hmem
    | cons m rest => exact ⟨h.busy, msg, hinbox ▸ hmem, hw⟩

/-- **A write is handled for ever.** -/
theorem Blocked.round {s : RdState} (h : Blocked s) : Blocked (ramdiskRound c s) := by
  unfold ramdiskRound
  rw [h.busy, if_neg Bool.false_ne_true]
  split_ifs with hread hwrite
  · apply h.getMsg
    rw [hread]
    decide
  · exact ⟨h.busy, h.write⟩
  · exact h.getMsg hwrite _

theorem Blocked.rounds {s : RdState} (h : Blocked s) (n : ℕ) :
    Blocked ((ramdiskRound c)^[n] s) := by
  induction n generalizing s with
  | zero => exact h
  | succ n ih => exact ih (h.round c)

theorem blocked_ramdiskStart (mem : PageMem) {msgs : List RdMsg} {msg : RdMsg}
    (hmem : msg ∈ msgs) (hw : msg.reg0 = writeRequestTag) : Blocked (ramdiskStart c mem msgs) := by
  unfold ramdiskStart getMsg
  cases msgs with
  | nil => cases hmem
  | cons m rest => exact ⟨rfl, msg, hmem, hw⟩

variable {c} {mem : PageMem}

/-- Without writes nothing has ever been written. -/
theorem lastWrite_eq_none {handled : List RdEvent}
    (h : ∀ e ∈ handled, e.msg.reg0 ≠ writeRequestTag) (page : ℕ) :
    lastWrite handled page = none := by
  unfold lastWrite
  rw [List.findSome?_eq_none_iff]
  intro e he
  exact if_neg (h e he)

/-- What holds of a run without writes on a formatted disk: as long as the reads are those of
a store, memory is as it was and all messages are harmless. -/
structure Unwritten (c : RamdiskConf) (mem : PageMem) (s : RdState) : Prop where
  inbox : s.waiting = false → ∀ msg ∈ s.msg :: s.inbox, msg.reg0 ≠ writeRequestTag
  log : ∀ e ∈ s.handled, e.msg.reg0 ≠ writeRequestTag
  harmless : Each ReadsLast s.handled → s.mem = formatDisk c mem ∧
    ∀ e ∈ s.handled, Harmless c (formatDisk c mem) e.msg

theorem Unwritten.getMsg {s : RdState} (h : Unwritten c mem s) (hbusy : s.waiting = false)
    {after : PageMem} (hafter : Each ReadsLast (s.handle after).handled → s.mem = formatDisk c mem →
      after = formatDisk c mem ∧ Harmless c (formatDisk c mem) s.msg) :
    Unwritten c mem (getMsg (s.handle after)) := by
  have hlog : ∀ e ∈ (s.handle after).handled, e.msg.reg0 ≠ writeRequestTag := by
    intro e he
    rcases List.mem_cons.mp he with rfl | he
    · exact h.inbox hbusy _ List.mem_cons_self
    · exact h.log e he
  have hharmless : Each ReadsLast (s.handle after).handled → after = formatDisk c mem ∧
      ∀ e ∈ (s.handle after).handled, Harmless c (formatDisk c mem) e.msg := by
    intro hreads
    obtain ⟨hmem, hold⟩ := h.harmless hreads.2
    obtain ⟨hnew, hthis⟩ := hafter hreads hmem
    refine ⟨hnew, fun e he => ?_⟩
    rcases List.mem_cons.mp he with rfl | he
    · exact hthis
    · exact hold e he
  unfold Mungi.getMsg
  cases hinbox : (s.handle after).inbox with
  | nil => exact ⟨nofun, hlog, hharmless⟩
  | cons m rest =>
    refine ⟨fun _ msg hmsg => ?_, hlog, hharmless⟩
    refine h.inbox hbusy msg (List.mem_cons_of_mem _ ?_)
    rw [show s.inbox = m :: rest from hinbox]
    exact hmsg

theorem Unwritten.round {s : RdState} (h : Unwritten c mem s) :
    Unwritten c mem (ramdiskRound c s) := by
  unfold ramdiskRound
  cases hbusy : s.waiting with
  | true => exact h
  | false =>
    have hnw := h.inbox hbusy s.msg List.mem_cons_self
    rw [if_neg Bool.false_ne_true]
    split_ifs with hread
    · refine h.getMsg hbusy fun hreads hmem => ?_
      have hlast := hreads.1 hread
      rw [lastWrite_eq_none h.log] at hlast
      dsimp only [Option.getD_none] at hlast
      rw [hmem, readRequest_formatDisk] at hlast ⊢
      split_ifs at hlast ⊢ with hfound
      · -- the frame is left alone only if it holds the first block already
        rw [copyPage, Function.update_self] at hlast
        refine ⟨?_, hnw, fun _ _ _ => hlast.symm⟩
        rw [copyPage, hlast, Function.update_eq_self]
      · exact ⟨rfl, hnw, fun _ hno hpos => absurd ⟨hno, hpos⟩ hfound⟩
    · exact h.getMsg hbusy fun _ hmem => ⟨hmem, hnw, fun h => absurd h hread⟩

theorem Unwritten.rounds {s : RdState} (h : Unwritten c mem s) (n : ℕ) :
    Unwritten c mem ((ramdiskRound c)^[n] s) := by
  induction n generalizing s with
  | zero => exact h
  | succ n ih => exact ih h.round

theorem ramdiskInit_eq (hformat : mem c.regionBase magicWord ≠ rampagerMagic) :
    ramdiskInit c mem = formatDisk c mem := if_neg hformat

theorem unwritten_ramdiskStart (hformat : mem c.regionBase magicWord ≠ rampagerMagic)
    {msgs : List RdMsg} (h : ∀ msg ∈ msgs, msg.reg0 ≠ writeRequestTag) :
    Unwritten c mem (ramdiskStart c mem msgs) := by
  unfold ramdiskStart getMsg
  rw [ramdiskInit_eq hformat]
  cases msgs with
  | nil => exact ⟨nofun, nofun, fun _ => ⟨rfl, nofun⟩⟩
  | cons m rest => exact ⟨fun _ => h, nofun, fun _ => ⟨rfl, nofun⟩⟩

/-- A harmless message leaves memory alone, and the next one is awaited. -/
theorem ramdiskRound_harmless {s : RdState} (hbusy : s.waiting = false)
    (hmem : s.mem = formatDisk c mem) (hmsg : Harmless c (formatDisk c mem) s.msg) :
    ramdiskRound c s = getMsg (s.handle (formatDisk c mem)) := by
  unfold ramdiskRound
  rw [hbusy, if_neg Bool.false_ne_true, if_neg hmsg.1, hmem]
  split_ifs with hread
  · rw [readRequest_formatDisk]
    split_ifs with hfound
    · rw [copyPage, ← hmsg.2 hread hfound.1 hfound.2, Function.update_eq_self]
    · rfl
  · rfl

/-- Harmless messages are handled one after another. -/
theorem rounds_harmless : ∀ (inbox : List RdMsg) (s : RdState), s.inbox = inbox →
    s.waiting = false → s.mem = formatDisk c mem →
    (∀ msg ∈ s.msg :: inbox, Harmless c (formatDisk c mem) msg) →
    ∃ n, ((ramdiskRound c)^[n] s).waiting = true ∧
      ((ramdiskRound c)^[n] s).mem = formatDisk c mem ∧
      ((ramdiskRound c)^[n] s).handled = ((s.msg :: inbox).map fun msg =>
        ⟨msg, formatDisk c mem, formatDisk c mem⟩).reverse ++ s.handled := by
  intro inbox
  induction inbox with
  | nil =>
    intro s hinbox hbusy hmem hall
    have hround := ramdiskRound_harmless hbusy hmem (hall s.msg List.mem_cons_self)
    refine ⟨1, ?_⟩
    rw [Function.iterate_one, hround, getMsg, RdState.handle]
    dsimp only
    rw [hinbox, hmem]
    exact ⟨rfl, rfl, rfl⟩
  | cons m rest ih =>
    intro s hinbox hbusy hmem hall
    have hround := ramdiskRound_harmless hbusy hmem (hall s.msg List.mem_cons_self)
    have hnext : ramdiskRound c s = { s with
        msg := m
        inbox := rest
        mem := formatDisk c mem
        handled := ⟨s.msg, formatDisk c mem, formatDisk c mem⟩ :: s.handled } := by
      rw [hround, getMsg, RdState.handle]
      dsimp only
      rw [hinbox, hmem]
    obtain ⟨n, hwait, hmem', hlog⟩ := ih (ramdiskRound c s) (by rw [hnext])
      (by rw [hnext]; exact hbusy) (by rw [hnext])
      (by rw [hnext]; exact fun msg hmsg => hall msg (List.mem_cons_of_mem _ hmsg))
    refine ⟨n + 1, hwait, hmem', ?_⟩
    rw [Function.iterate_succ_apply, hlog, hnext]
    simp

/-- Events that change nothing, with no write among them, are those of a store. -/
theorem each_readsLast {handled : List RdEvent}
    (h : ∀ e ∈ handled, e.after = e.before ∧ e.msg.reg0 ≠ writeRequestTag) :
    Each ReadsLast handled := by
  induction handled with
  | nil => trivial
  | cons e earlier ih =>
    have hearlier := fun x hx => h x (List.mem_cons_of_mem e hx)
    refine ⟨fun _ => ?_, ih hearlier⟩
    rw [lastWrite_eq_none fun x hx => (hearlier x hx).2, (h e List.mem_cons_self).1]
    rfl

theorem served_of_harmless (hformat : mem c.regionBase magicWord ≠ rampagerMagic)
    {msgs : List RdMsg} (h : ∀ msg ∈ msgs, Harmless c (formatDisk c mem) msg) :
    ∃ n, Served c msgs ((ramdiskRound c)^[n] (ramdiskStart c mem msgs)) := by
  have hdistinct : ∀ s : RdState, s.mem = formatDisk c mem → ∀ i j, i < c.totalBlocks →
      j < c.totalBlocks → i ≠ j → blockAt c s.mem i = blockAt c s.mem j →
        blockAt c s.mem i = noBlock := by
    intro s hmem i j hi _ _ _
    rw [hmem]
    exact blockAt_formatDisk c mem hi
  cases msgs with
  | nil => exact ⟨0, rfl, rfl, trivial, hdistinct _ (ramdiskInit_eq hformat)⟩
  | cons m rest =>
    obtain ⟨n, hwait, hmem, hlog⟩ := rounds_harmless rest
      (ramdiskStart c mem (m :: rest)) rfl rfl (ramdiskInit_eq hformat) h
    refine ⟨n, hwait, ?_, each_readsLast ?_, hdistinct _ hmem⟩
    · rw [hlog]
      simp [ramdiskStart, getMsg, Function.comp_def]
    · rw [hlog]
      intro e he
      rw [List.mem_append, List.mem_reverse, List.mem_map] at he
      rcases he with ⟨msg, hmsg, rfl⟩ | he
      · exact ⟨rfl, (h msg hmsg).1⟩
      · cases he

end Loop

/-- **When all messages are handled as by a store of pages.**  After formatting, all messages
are handled once and then the next is awaited, and all reads give what was last written,
just when none of the messages is a `WRITE_REQUEST`, which would be handled for ever, or a read
of the page whose number marks free blocks into a frame that differs from the first block. -/
theorem ramdisk_served_iff (c : RamdiskConf) (mem : PageMem)
    (hformat : mem c.regionBase magicWord ≠ rampagerMagic) (msgs : List RdMsg) :
    (∃ n, Served c msgs ((ramdiskRound c)^[n] (ramdiskStart c mem msgs))) ↔
      ∀ msg ∈ msgs, Harmless c (formatDisk c mem) msg := by
  refine ⟨fun ⟨n, hserved⟩ => ?_, served_of_harmless hformat⟩
  have hnw : ∀ msg ∈ msgs, msg.reg0 ≠ writeRequestTag := by
    intro msg hmsg hw
    have hbusy := ((blocked_ramdiskStart c mem hmsg hw).rounds c n).busy
    rw [hserved.waiting] at hbusy
    cases hbusy
  have hend := (unwritten_ramdiskStart hformat hnw).rounds n
  intro msg hmsg
  rw [← hserved.handled] at hmsg
  obtain ⟨e, he, rfl⟩ := List.mem_map.mp hmsg
  exact (hend.harmless hserved.reads).2 e (List.mem_reverse.mp he)

/-! ### Messages -/

/-- A message of a read. -/
def readMsg (page frame : ℕ) : RdMsg := ⟨readRequestTag, page, frame, fun _ => ⟨0, 0⟩⟩

/-- A message that writes one page. -/
def writeMsg (page frame : ℕ) : RdMsg := ⟨writeRequestTag, 0, 1, fun _ => ⟨frame, page⟩⟩

/-- A disk of two thousand pages or so, at page `0x100`. -/
def smallDisk : RamdiskConf := ⟨0x100, 2048, 512⟩

theorem ramdisk_served_readMsg :
    (∃ n, Served smallDisk [readMsg 7 3, readMsg 9 3]
      ((ramdiskRound smallDisk)^[n] (ramdiskStart smallDisk (fun _ _ => 0)
        [readMsg 7 3, readMsg 9 3]))) ↔
      ∀ msg ∈ [readMsg 7 3, readMsg 9 3],
        Harmless smallDisk (formatDisk smallDisk fun _ _ => 0) msg :=
  ramdisk_served_iff smallDisk (fun _ _ => 0) (by decide) _

/-- The pages that are asked for. -/
def RdMsg.pageList (msg : RdMsg) : List ℕ :=
  if msg.reg0 = readRequestTag then [msg.reg2]
  else if msg.reg0 = writeRequestTag then (List.range msg.reg3).map fun i => (msg.list i).page
  else []

/-- A page is written. -/
theorem ramdisk_not_served : ¬ ∀ (c : RamdiskConf) (mem : PageMem) (msgs : List RdMsg),
    mem c.regionBase magicWord ≠ rampagerMagic →
    (msgs.flatMap RdMsg.pageList).dedup.length < c.totalBlocks →
      ∃ n, Served c msgs ((ramdiskRound c)^[n] (ramdiskStart c mem msgs)) := by
  intro h
  obtain ⟨n, hserved⟩ := h smallDisk (fun _ _ => 0) [writeMsg 7 3] (by decide) (by decide)
  have hblocked := blocked_ramdiskStart smallDisk (fun _ _ => 0)
    (List.mem_singleton_self (writeMsg 7 3)) rfl
  have hbusy := (hblocked.rounds smallDisk n).busy
  rw [hserved.waiting] at hbusy
  cases hbusy

end Mungi
