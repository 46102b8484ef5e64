import Mungi.Lib.Runs
import Mathlib.Data.Fintype.Basic
import Mathlib.Data.List.Range
import Mathlib.Logic.Function.Basic
import Mathlib.Tactic.Common

/-!
# The serial driver

The driver of the serial line (`serial_tty/main.c`) keeps the characters that come in in
a ring until they are read.  Everything is done under one semaphore; a reader that finds
the ring empty leaves a flag and sleeps on a second semaphore, and the next character
finds the flag and signals it.

The semaphores are counters, and a step goes from one operation on them to the next:
what is between two of them is done under `serial_lock`.  Characters go on coming in, and
any number of readers call in, with buffers of any size.

One flag is not enough for two readers: the character takes the flag away, and signals
one of them.

## Main definitions

* `Ring` — the ring, with `Ring.full`, `Ring.put` and `Ring.take`.
* `Ring.contents` — the characters in it, in order.
* `serialStep` — the readers and the loop of the driver.
* `Serial.Sound` — what is to hold at every moment.
* `Heard` — a signal goes as far as it has to.

## Main results

* `Ring.contents_put`, `Ring.take_append` — the ring is a queue.
* `serial_exclusive` — one at a time holds the lock.
* `serial_sound_iff` — **when every reader is woken in time and nothing is lost.**
* `serial_alone` — it is when readers do not overlap.
* `serial_unsound` — it is not for two readers.
-/

namespace Mungi

open Runs

/-! ### The ring -/

/-- `SERIAL_BUF_SIZE` -/
def serialBufSize : ℕ := 42

/-- `serial_buf`, `write_pos` and `read_pos`. -/
structure Ring where
  buf : ℕ → ℕ
  writePos : ℕ
  readPos : ℕ

/-- The test of `serial_loop`: there is no room. -/
def Ring.Full (r : Ring) : Prop :=
  r.writePos + 1 = r.readPos ∨ (r.readPos = 0 ∧ r.writePos ≥ serialBufSize - 1)

instance (r : Ring) : Decidable r.Full := inferInstanceAs (Decidable (_ ∨ _))

/-- The test of `serial_pdx_read`: there is nothing to read. -/
def Ring.Empty (r : Ring) : Prop := r.readPos = r.writePos

instance (r : Ring) : Decidable r.Empty := inferInstanceAs (Decidable (_ = _))

/-- `serial_loop` adds a character. -/
def Ring.put (r : Ring) (c : ℕ) : Ring :=
  let r := { r with buf := Function.update r.buf r.writePos c, writePos := r.writePos + 1 }
  if r.writePos ≥ serialBufSize then { r with writePos := 0 } else r

/-- `memcpy` out of the ring. -/
def Ring.copy (r : Ring) (start len : ℕ) : List ℕ := (List.range' start len).map r.buf

/-- `serial_pdx_read` copies, in two parts, into a buffer of the given size. -/
def Ring.take (r : Ring) (size : ℕ) : List ℕ × Ring :=
  let start := r.readPos
  let len := serialBufSize - r.readPos
  let len := if r.writePos > r.readPos then r.writePos - r.readPos else len
  let len := if len > size then size else len
  let first := r.copy start len
  let total := len
  let r := { r with readPos := r.readPos + len }
  let r := if r.readPos ≥ serialBufSize then { r with readPos := 0 } else r
  if r.writePos < r.readPos ∧ size > total then
    let len := r.writePos
    let len := if len + total > size then size - total else len
    (first ++ r.copy 0 len, { r with readPos := r.readPos + len })
  else (first, r)

/-- Both positions are in the array. -/
structure Ring.WF (r : Ring) : Prop where
  write : r.writePos < serialBufSize
  read : r.readPos < serialBufSize

/-- The characters in the ring: up to the write position, or on to the end and from the start
again. -/
def Ring.contents (r : Ring) : List ℕ :=
  if r.readPos ≤ r.writePos then r.copy r.readPos (r.writePos - r.readPos)
  else r.copy r.readPos (serialBufSize - r.readPos) ++ r.copy 0 r.writePos

section Ring
variable {r : Ring}

theorem Ring.contents_eq_nil (h : r.WF) : r.contents = [] ↔ r.Empty := by
  have hread := h.read
  unfold contents copy Empty
  split_ifs with hle
  · rw [List.map_eq_nil_iff, List.range'_eq_nil_iff]
    omega
  · rw [List.append_eq_nil_iff, List.map_eq_nil_iff, List.range'_eq_nil_iff]
    refine iff_of_false (fun hnil => ?_) (by omega)
    have := hnil.1
    omega

/-- A place that is not read does not count. -/
theorem Ring.copy_update (buf : ℕ → ℕ) (w v : ℕ) (c : ℕ) {i start len : ℕ}
    (h : i < start ∨ start + len ≤ i) :
    (⟨Function.update buf i c, w, v⟩ : Ring).copy start len = (⟨buf, w, v⟩ : Ring).copy start len := by
  unfold copy
  refine List.map_congr_left fun j hj => ?_
  rw [List.mem_range'_1] at hj
  exact Function.update_of_ne (by omega) _ _

theorem Ring.copy_add (r : Ring) (start m n : ℕ) :
    r.copy start (m + n) = r.copy start m ++ r.copy (start + m) n := by
  unfold copy
  rw [← List.map_append, List.range'_append_1]

theorem Ring.copy_last (buf : ℕ → ℕ) (i w v c : ℕ) :
    (⟨Function.update buf i c, w, v⟩ : Ring).copy i 1 = [c] :=
  congrArg (fun x => [x]) (Function.update_self ..)

/-- **A character goes to the end.** -/
theorem Ring.contents_put (h : r.WF) (hfull : ¬ r.Full) (c : ℕ) :
    (r.put c).WF ∧ (r.put c).contents = r.contents ++ [c] := by
  obtain ⟨buf, w, v⟩ := r
  obtain ⟨hw, hv⟩ := h
  unfold Full at hfull
  unfold put
  dsimp only at *
  by_cases hle : v ≤ w
  · have hold : (⟨buf, w, v⟩ : Ring).contents = (⟨buf, w, v⟩ : Ring).copy v (w - v) := if_pos hle
    by_cases hwrap : w + 1 ≥ serialBufSize
    · -- the last place: the write position goes back to the start
      rw [if_pos hwrap, hold]
      refine ⟨⟨by dsimp only [serialBufSize]; omega, hv⟩, ?_⟩
      have hpos : ¬ v ≤ 0 := fun hv0 => hfull (Or.inr ⟨by omega, by omega⟩)
      rw [contents, if_neg hpos, show serialBufSize - v = w - v + 1 by omega, copy_add]
      dsimp only
      rw [copy_update buf 0 v c (Or.inr (by omega)), Nat.add_sub_cancel' hle, copy_last]
      exact List.append_nil _
    · rw [if_neg hwrap, hold]
      refine ⟨⟨by dsimp only; omega, hv⟩, ?_⟩
      rw [contents, if_pos (show v ≤ w + 1 by omega)]
      dsimp only
      rw [show w + 1 - v = w - v + 1 by omega, copy_add,
        copy_update buf (w + 1) v c (Or.inr (by omega)), Nat.add_sub_cancel' hle, copy_last]
      rfl
  · have hold : (⟨buf, w, v⟩ : Ring).contents = (⟨buf, w, v⟩ : Ring).copy v (serialBufSize - v)
        ++ (⟨buf, w, v⟩ : Ring).copy 0 w := if_neg hle
    have hnext : ¬ v ≤ w + 1 := fun h => hfull (Or.inl (by omega))
    rw [if_neg (show ¬ w + 1 ≥ serialBufSize by omega), hold]
    refine ⟨⟨by dsimp only; omega, hv⟩, ?_⟩
    rw [contents, if_neg hnext]
    dsimp only
    rw [copy_add _ 0 w 1, copy_update buf (w + 1) v c (Or.inl (by omega)),
      copy_update buf (w + 1) v c (Or.inr (by omega)), Nat.zero_add, copy_last, ← List.append_assoc]
    rfl

/-- What the copying comes to: the second part is never made. -/
theorem Ring.take_eq (h : r.WF) (hne : ¬ r.Empty) (size : ℕ) :
    r.take size =
      if r.readPos < r.writePos then
        if size < r.writePos - r.readPos then
          (r.copy r.readPos size, { r with readPos := r.readPos + size })
        else (r.copy r.readPos (r.writePos - r.readPos), { r with readPos := r.writePos })
      else if size < serialBufSize - r.readPos then
        (r.copy r.readPos size, { r with readPos := r.readPos + size })
      else (r.copy r.readPos (serialBufSize - r.readPos), { r with readPos := 0 }) := by
  obtain ⟨buf, w, v⟩ := r
  obtain ⟨hw, hv⟩ := h
  unfold Empty at hne
  unfold take
  dsimp only at *
  by_cases hlt : v < w
  · rw [if_pos hlt, if_pos (show w > v from hlt)]
    by_cases hsize : size < w - v
    · rw [if_pos hsize, if_pos (show w - v > size from hsize),
        if_neg (show ¬ v + size ≥ serialBufSize by omega), if_neg (by dsimp only; omega)]
    · rw [if_neg hsize, if_neg (show ¬ w - v > size from hsize), Nat.add_sub_cancel' hlt.le,
        if_neg (show ¬ w ≥ serialBufSize by omega), if_neg (by dsimp only; omega)]
  · rw [if_neg hlt, if_neg (show ¬ w > v from hlt)]
    by_cases hsize : size < serialBufSize - v
    · rw [if_pos hsize, if_pos (show serialBufSize - v > size from hsize),
        if_neg (show ¬ v + size ≥ serialBufSize by omega), if_neg (by dsimp only; omega)]
    · rw [if_neg hsize, if_neg (show ¬ serialBufSize - v > size from hsize),
        Nat.add_sub_cancel' hv.le, if_pos (show serialBufSize ≥ serialBufSize from le_rfl),
        if_neg (by dsimp only; omega)]

/-- **What is read comes from the front**, and the rest stays. -/
theorem Ring.take_append (h : r.WF) (hne : ¬ r.Empty) (size : ℕ) :
    (r.take size).2.WF ∧ (r.take size).1 ++ (r.take size).2.contents = r.contents := by
  rw [take_eq h hne]
  obtain ⟨buf, w, v⟩ := r
  obtain ⟨hw, hv⟩ := h
  unfold Empty at hne
  dsimp only at *
  have hcopy : ∀ v' start len, (⟨buf, w, v'⟩ : Ring).copy start len
      = (⟨buf, w, v⟩ : Ring).copy start len := fun _ _ _ => rfl
  unfold contents
  dsimp only
  by_cases hlt : v < w
  · rw [if_pos hlt, if_pos hlt.le]
    by_cases hsize : size < w - v
    · rw [if_pos hsize]
      dsimp only
      refine ⟨⟨hw, by dsimp only; omega⟩, ?_⟩
      rw [if_pos (show v + size ≤ w by omega), hcopy (v + size), ← copy_add]
      congr 1
      omega
    · rw [if_neg hsize]
      dsimp only
      refine ⟨⟨hw, hw⟩, ?_⟩
      rw [if_pos le_rfl, Nat.sub_self]
      exact List.append_nil _
  · rw [if_neg hlt, if_neg (show ¬ v ≤ w by omega)]
    by_cases hsize : size < serialBufSize - v
    · rw [if_pos hsize]
      dsimp only
      refine ⟨⟨hw, by dsimp only; omega⟩, ?_⟩
      rw [if_neg (show ¬ v + size ≤ w by omega), hcopy (v + size), hcopy (v + size),
        ← List.append_assoc, ← copy_add]
      congr 2
      omega
    · rw [if_neg hsize]
      dsimp only
      refine ⟨⟨hw, Nat.succ_pos _⟩, ?_⟩
      rw [if_pos (Nat.zero_le w)]
      rfl

end Ring

/-! ### Readers and the loop -/

/-- Where a reader is; it has a buffer of the given size. -/
inductive ReaderPc where
  | idle
  /-- At the first `SemWait` on `serial_lock`. -/
  | enter (size : ℕ)
  /-- It holds the lock. -/
  | first (size : ℕ)
  /-- At `SemWait` on `serial_block`. -/
  | sleep (size : ℕ)
  /-- At the second `SemWait` on `serial_lock`. -/
  | woken (size : ℕ)
  /-- It holds the lock again. -/
  | second (size : ℕ)
  deriving DecidableEq

/-- Where the loop is. -/
inductive LoopPc where
  /-- In `serial_waitchar`. -/
  | wait
  /-- At `SemWait` on `serial_lock`. -/
  | got (c : ℕ)
  /-- It holds the lock. -/
  | locked (c : ℕ)
  /-- It has signalled `serial_block` and holds the lock. -/
  | signalled
  deriving DecidableEq

/-- The driver, with what has gone through it. -/
structure Serial (ι : Type) where
  ring : Ring
  /-- `serial_blocked` -/
  blocked : Bool
  /-- The counters of `serial_lock` and `serial_block`. -/
  lock : ℕ
  block : ℕ
  reader : ι → ReaderPc
  loop : LoopPc
  /-- The characters put into the ring. -/
  accepted : List ℕ
  /-- What the readers were given, in the order in which they held the lock. -/
  returned : List ℕ
  /-- `assert(read_pos != write_pos)` has failed. -/
  failed : Bool

/-- What happens. -/
inductive SerialOp (ι : Type) where
  /-- A reader calls `serial_pdx_read`. -/
  | call (r : ι) (size : ℕ)
  /-- A reader goes on to the next semaphore operation. -/
  | reader (r : ι)
  /-- A character comes in. -/
  | char (c : ℕ)
  /-- So does the loop. -/
  | loop

variable {ι : Type}

/-- `serial_main` has created the semaphores. -/
def serialStart (buf : ℕ → ℕ) : Serial ι :=
  ⟨⟨buf, 0, 0⟩, false, 1, 0, fun _ => .idle, .wait, [], [], false⟩

/-- `SemWait` on `serial_lock` -/
def Serial.takeLock (s : Serial ι) : Option (Serial ι) :=
  if 0 < s.lock then some { s with lock := s.lock - 1 } else none

/-- `SemSignal` on `serial_lock` -/
def Serial.releaseLock (s : Serial ι) : Serial ι := { s with lock := s.lock + 1 }

/-- The reader copies into its buffer. -/
def Serial.copyOut (s : Serial ι) (size : ℕ) : Serial ι :=
  let r := s.ring.take size
  { s with ring := r.2, returned := s.returned ++ r.1 }

section Step
variable [DecidableEq ι]

/-- A reader is somewhere else. -/
def Serial.setReader (s : Serial ι) (r : ι) (pc : ReaderPc) : Serial ι :=
  { s with reader := Function.update s.reader r pc }

/-- `serial_pdx_read`, up to the next semaphore operation and with it. -/
def readerStep (s : Serial ι) (r : ι) : Option (Serial ι) :=
  match s.reader r with
  | .idle => none
  | .enter size => s.takeLock.map fun s => s.setReader r (.first size)
  | .first size =>
    if s.ring.Empty then some ({ s with blocked := true }.releaseLock.setReader r (.sleep size))
    else some ((s.copyOut size).releaseLock.setReader r .idle)
  | .sleep size =>
    if 0 < s.block then some ({ s with block := s.block - 1 }.setReader r (.woken size)) else none
  | .woken size => s.takeLock.map fun s => s.setReader r (.second size)
  | .second size =>
    let s := { s with failed := s.failed || decide s.ring.Empty }
    some ((s.copyOut size).releaseLock.setReader r .idle)

omit [DecidableEq ι] in
/-- `serial_loop`, up to the next semaphore operation and with it. -/
def loopStep (s : Serial ι) : Option (Serial ι) :=
  match s.loop with
  | .wait => none
  | .got c => s.takeLock.map fun s => { s with loop := .locked c }
  | .locked c =>
    if s.ring.Full then some ({ s with loop := .wait }.releaseLock)
    else
      let s := { s with ring := s.ring.put c, accepted := s.accepted ++ [c] }
      if s.blocked then
        some { s with blocked := false, block := s.block + 1, loop := .signalled }
      else some ({ s with loop := .wait }.releaseLock)
  | .signalled => some ({ s with loop := .wait }.releaseLock)

/-- One step; `serial_waitchar` makes a newline of a return. -/
def serialStep (s : Serial ι) : SerialOp ι → Option (Serial ι)
  | .call r size =>
    if s.reader r = .idle ∧ 0 < size then some (s.setReader r (.enter size)) else none
  | .reader r => readerStep s r
  | .char c =>
    if s.loop = .wait then some { s with loop := .got (if c = '\r'.toNat then '\n'.toNat else c) }
    else none
  | .loop => loopStep s

end Step

/-! ### What is to hold -/

/-- The reader is blocked on `serial_block`. -/
def ReaderPc.Asleep (pc : ReaderPc) : Prop := ∃ size, pc = .sleep size

instance : DecidablePred ReaderPc.Asleep
  | .sleep size => .isTrue ⟨size, rfl⟩
  | .idle | .enter _ | .first _ | .woken _ | .second _ => .isFalse nofun

/-- **What is to hold at every moment.** -/
structure Serial.Sound (s : Serial ι) : Prop where
  /-- The readers were given the characters in order, up to those still in the ring. -/
  fifo : s.returned ++ s.ring.contents = s.accepted
  /-- The assertion has not failed. -/
  asserted : s.failed = false
  /-- A reader that sleeps, with no signal on the way, is going to be woken by the next
  character. -/
  awaited : ∀ r, (s.reader r).Asleep → s.block = 0 → s.ring.Empty ∨ s.blocked = true

/-- **A signal goes as far as it has to.**  A reader that takes the last signal leaves no other
one asleep next to characters, a reader that was woken still finds some, and a character finds
the flag set, a signal on the way, or nobody asleep. -/
def Heard (s : Serial ι) : SerialOp ι → Prop
  | .reader r =>
    match s.reader r with
    | .sleep _ => (∃ r', r' ≠ r ∧ (s.reader r').Asleep) → s.block = 1 →
        s.ring.Empty ∨ s.blocked = true
    | .second _ => ¬ s.ring.Empty
    | _ => True
  | .loop =>
    match s.loop with
    | .locked _ => s.ring.Full ∨ s.blocked = true ∨ s.block ≠ 0 ∨ ∀ r, ¬ (s.reader r).Asleep
    | _ => True
  | _ => True

/-! ### One step -/

/-- What is to hold, and the positions are in the ring. -/
structure Serial.Kept (s : Serial ι) : Prop where
  sound : s.Sound
  ring : s.ring.WF

theorem ReaderPc.not_asleep {pc : ReaderPc} (h : ∀ size, pc ≠ .sleep size) : ¬ pc.Asleep :=
  fun ⟨size, hsize⟩ => h size hsize

theorem ReaderPc.not_asleep_idle : ¬ ReaderPc.idle.Asleep := ReaderPc.not_asleep nofun

section Step
variable [DecidableEq ι] {s s' : Serial ι} {r : ι}

/-- Who is asleep when one reader has gone on. -/
theorem asleep_update {reader : ι → ReaderPc} {pc : ReaderPc} {q : Prop} :
    (∀ r', (Function.update reader r pc r').Asleep → q) ↔
      (pc.Asleep → q) ∧ ∀ r', r' ≠ r → (reader r').Asleep → q := by
  constructor
  · intro h
    refine ⟨fun hpc => h r (by rwa [Function.update_self]), fun r' hr' hsleep => h r' ?_⟩
    rwa [Function.update_of_ne hr']
  · rintro ⟨hpc, hother⟩ r' hsleep
    by_cases hr' : r' = r
    · rw [hr', Function.update_self] at hsleep
      exact hpc hsleep
    · rw [Function.update_of_ne hr'] at hsleep
      exact hother r' hr' hsleep

/-- A reader goes on without touching anything but the lock. -/
theorem Serial.Kept.moved (h : s.Kept) {lock : ℕ} {pc : ReaderPc} (hpc : ¬ pc.Asleep) :
    ({ s with lock }.setReader r pc).Kept :=
  ⟨⟨h.sound.fifo, h.sound.asserted, asleep_update.mpr
    ⟨fun hsleep => absurd hsleep hpc, fun r' _ => h.sound.awaited r'⟩⟩, h.ring⟩

/-- A reader copies what there is and leaves. -/
theorem Serial.Kept.copied (h : s.Kept) (hne : ¬ s.ring.Empty) (size : ℕ) :
    ((s.copyOut size).releaseLock.setReader r .idle).Kept := by
  obtain ⟨hwf, happend⟩ := Ring.take_append h.ring hne size
  refine ⟨⟨?_, h.sound.asserted, asleep_update.mpr ⟨fun hsleep => ?_, fun r' _ hsleep hblock => ?_⟩⟩,
    hwf⟩
  · change s.returned ++ (s.ring.take size).1 ++ (s.ring.take size).2.contents = s.accepted
    rw [List.append_assoc, happend]
    exact h.sound.fifo
  · exact absurd hsleep (ReaderPc.not_asleep nofun)
  · exact Or.inr ((h.sound.awaited r' hsleep hblock).resolve_left hne)

/-- A reader goes to sleep and leaves the flag. -/
theorem Serial.Kept.slept (h : s.Kept) (size : ℕ) :
    ({ s with blocked := true }.releaseLock.setReader r (.sleep size)).Kept :=
  ⟨⟨h.sound.fifo, h.sound.asserted, fun _ _ _ => Or.inr rfl⟩, h.ring⟩

/-- **One step of a reader** keeps what is to hold just when it has been heard. -/
theorem readerStep_kept (h : s.Kept) (hs' : readerStep s r = some s') :
    (Heard s (.reader r) → s'.Kept) ∧ (s'.Sound → Heard s (.reader r)) := by
  unfold readerStep at hs'
  unfold Heard
  dsimp only
  cases hpc : s.reader r with
  | idle => rw [hpc] at hs'; cases hs'
  | enter size | woken size =>
    rw [hpc] at hs'
    obtain ⟨s₁, hs₁, rfl⟩ := Option.map_eq_some_iff.mp hs'
    unfold Serial.takeLock at hs₁
    split_ifs at hs₁ with hlock
    obtain rfl := Option.some.inj hs₁
    exact ⟨fun _ => h.moved (ReaderPc.not_asleep nofun), fun _ => trivial⟩
  | first size =>
    rw [hpc] at hs'
    dsimp only at hs'
    refine ⟨fun _ => ?_, fun _ => trivial⟩
    split_ifs at hs' with hempty
    · obtain rfl := Option.some.inj hs'
      exact h.slept size
    · obtain rfl := Option.some.inj hs'
      exact h.copied hempty size
  | sleep size =>
    rw [hpc] at hs'
    dsimp only at hs'
    split_ifs at hs' with hblock
    obtain rfl := Option.some.inj hs'
    constructor
    · intro hheard
      refine ⟨⟨h.sound.fifo, h.sound.asserted, asleep_update.mpr ⟨fun hsleep => ?_, ?_⟩⟩, h.ring⟩
      · exact absurd hsleep (ReaderPc.not_asleep nofun)
      · intro r' hr' hsleep hzero
        exact hheard ⟨r', hr', hsleep⟩ (by
          change s.block - 1 = 0 at hzero
          omega)
    · rintro hsound ⟨r', hr', hsleep⟩ hone
      refine (asleep_update.mp hsound.awaited).2 r' hr' hsleep ?_
      change s.block - 1 = 0
      omega
  | second size =>
    rw [hpc] at hs'
    obtain rfl := Option.some.inj hs'
    constructor
    · intro hne
      have hkept : ({ s with failed := s.failed || decide s.ring.Empty } : Serial ι).Kept :=
        ⟨⟨h.sound.fifo, by simp [h.sound.asserted, hne], h.sound.awaited⟩, h.ring⟩
      exact hkept.copied hne size
    · intro hsound hempty
      have hfailed := hsound.asserted
      change (s.failed || decide s.ring.Empty) = false at hfailed
      simp [hempty] at hfailed

omit [DecidableEq ι] in
/-- A ring with one character more is not empty. -/
theorem Ring.put_not_empty {ring : Ring} (h : ring.WF) (hfull : ¬ ring.Full) (c : ℕ) :
    ¬ (ring.put c).Empty := by
  obtain ⟨hwf, hcontents⟩ := Ring.contents_put h hfull c
  rw [← Ring.contents_eq_nil hwf, hcontents]
  simp

omit [DecidableEq ι] in
/-- **One step of the loop** keeps what is to hold just when it has been heard. -/
theorem loopStep_kept (h : s.Kept) (hs' : loopStep s = some s') :
    (Heard s .loop → s'.Kept) ∧ (s'.Sound → Heard s .loop) := by
  have hquiet : ∀ (lock : ℕ) (pc : LoopPc), ({ s with lock, loop := pc } : Serial ι).Kept :=
    fun _ _ => ⟨⟨h.sound.fifo, h.sound.asserted, h.sound.awaited⟩, h.ring⟩
  unfold loopStep at hs'
  unfold Heard
  dsimp only
  cases hpc : s.loop with
  | wait => rw [hpc] at hs'; cases hs'
  | got c =>
    rw [hpc] at hs'
    obtain ⟨s₁, hs₁, rfl⟩ := Option.map_eq_some_iff.mp hs'
    unfold Serial.takeLock at hs₁
    split_ifs at hs₁ with hlock
    obtain rfl := Option.some.inj hs₁
    exact ⟨fun _ => hquiet _ _, fun _ => trivial⟩
  | signalled =>
    rw [hpc] at hs'
    obtain rfl := Option.some.inj hs'
    exact ⟨fun _ => hquiet _ _, fun _ => trivial⟩
  | locked c =>
    rw [hpc] at hs'
    dsimp only at hs'
    by_cases hfull : s.ring.Full
    · rw [if_pos hfull] at hs'
      obtain rfl := Option.some.inj hs'
      exact ⟨fun _ => hquiet _ _, fun _ => Or.inl hfull⟩
    · rw [if_neg hfull] at hs'
      obtain ⟨hwf, hcontents⟩ := Ring.contents_put h.ring hfull c
      have hfifo : s.returned ++ (s.ring.put c).contents = s.accepted ++ [c] := by
        rw [hcontents, ← List.append_assoc, h.sound.fifo]
      by_cases hblocked : s.blocked = true
      · rw [if_pos hblocked] at hs'
        obtain rfl := Option.some.inj hs'
        exact ⟨fun _ => ⟨⟨hfifo, h.sound.asserted, fun _ _ hzero => nomatch hzero⟩, hwf⟩,
          fun _ => Or.inr (Or.inl hblocked)⟩
      · rw [if_neg hblocked] at hs'
        obtain rfl := Option.some.inj hs'
        constructor
        · intro hheard
          refine ⟨⟨hfifo, h.sound.asserted, fun r hsleep hzero => ?_⟩, hwf⟩
          rcases hheard with hf | hb | hblock | hnone
          · exact absurd hf hfull
          · exact absurd hb hblocked
          · exact absurd hzero hblock
          · exact absurd hsleep (hnone r)
        · intro hsound
          by_cases hblock : s.block = 0
          · refine Or.inr (Or.inr (Or.inr fun r hsleep => ?_))
            rcases hsound.awaited r hsleep hblock with hempty | hb
            · exact Ring.put_not_empty h.ring hfull c hempty
            · exact hblocked hb
          · exact Or.inr (Or.inr (Or.inl hblock))

/-- **One step** keeps what is to hold just when it has been heard. -/
theorem serialStep_kept (h : s.Kept) {op : SerialOp ι} (hs' : serialStep s op = some s') :
    (Heard s op → s'.Kept) ∧ (s'.Sound → Heard s op) := by
  cases op with
  | call r size =>
    dsimp only [serialStep] at hs'
    split_ifs at hs' with hidle
    obtain rfl := Option.some.inj hs'
    exact ⟨fun _ => h.moved (ReaderPc.not_asleep nofun), fun _ => trivial⟩
  | reader r => exact readerStep_kept h hs'
  | char c =>
    dsimp only [serialStep] at hs'
    by_cases hwait : s.loop = .wait
    · rw [if_pos hwait] at hs'
      obtain rfl := Option.some.inj hs'
      exact ⟨fun _ => ⟨⟨h.sound.fifo, h.sound.asserted, h.sound.awaited⟩, h.ring⟩, fun _ => trivial⟩
    · rw [if_neg hwait] at hs'
      cases hs'
  | loop => exact loopStep_kept h hs'

end Step

theorem kept_serialStart (buf : ℕ → ℕ) : (serialStart buf : Serial ι).Kept :=
  ⟨⟨rfl, rfl, fun _ hsleep => absurd hsleep (ReaderPc.not_asleep nofun)⟩,
    ⟨Nat.succ_pos _, Nat.succ_pos _⟩⟩

/-! ### Runs -/

/-- **When every reader is woken in time and nothing is lost**: as long as every signal goes as
far as it has to. -/
theorem serial_sound_iff [DecidableEq ι] (buf : ℕ → ℕ) (ops : List (SerialOp ι)) (s : Serial ι)
    (hs : run serialStep (serialStart buf) ops = some s) :
    (∀ ops₁ s₁, ops₁ <+: ops → run serialStep (serialStart buf) ops₁ = some s₁ → s₁.Sound) ↔
      Along serialStep Heard (serialStart buf) ops :=
  reached_iff_along (I := Serial.Kept) (P := Serial.Sound) (D := fun _ _ => True)
    (fun _ h => h.sound) (fun _ _ _ h _ hheard hs' => (serialStep_kept h hs').1 hheard)
    (fun _ _ _ h _ hs' => (serialStep_kept h hs').2) ops _ s (kept_serialStart buf)
    (Along.of_forall fun _ _ => trivial) hs

/-! ### The lock -/

/-- Who holds the lock: a reader, or the loop. -/
def Serial.Holds (s : Serial ι) : Option ι → Prop
  | some r => (∃ size, s.reader r = .first size) ∨ ∃ size, s.reader r = .second size
  | none => (∃ c, s.loop = .locked c) ∨ s.loop = .signalled

/-- One at a time: the lock is free and nobody holds it, or one does. -/
def Serial.Exclusive (s : Serial ι) : Prop :=
  (s.lock = 1 ∧ ∀ x, ¬ s.Holds x) ∨ (s.lock = 0 ∧ ∃! x, s.Holds x)

section Lock
variable {s s' : Serial ι} {x : Option ι}

theorem Serial.Exclusive.same (h : s.Exclusive) (hlock : s'.lock = s.lock)
    (hholds : ∀ y, s'.Holds y ↔ s.Holds y) : s'.Exclusive := by
  unfold Serial.Exclusive
  simp only [hlock, hholds]
  exact h

theorem Serial.Exclusive.taken (h : s.Exclusive) (hfree : 0 < s.lock) (hlock : s'.lock = s.lock - 1)
    (hholds : ∀ y, s'.Holds y ↔ y = x ∨ s.Holds y) : s'.Exclusive := by
  rcases h with ⟨hone, hnone⟩ | ⟨hzero, -⟩
  · refine Or.inr ⟨by omega, x, (hholds x).mpr (Or.inl rfl), fun y hy => ?_⟩
    exact ((hholds y).mp hy).resolve_right (hnone y)
  · omega

theorem Serial.Exclusive.released (h : s.Exclusive) (hx : s.Holds x) (hlock : s'.lock = s.lock + 1)
    (hholds : ∀ y, s'.Holds y ↔ y ≠ x ∧ s.Holds y) : s'.Exclusive := by
  rcases h with ⟨-, hnone⟩ | ⟨hzero, z, -, hunique⟩
  · exact absurd hx (hnone x)
  · refine Or.inl ⟨by omega, fun y hy => ?_⟩
    obtain ⟨hne, hy⟩ := (hholds y).mp hy
    exact hne ((hunique y hy).trans (hunique x hx).symm)

variable [DecidableEq ι] {r : ι}

/-- Who holds the lock when one reader has gone on. -/
theorem holds_setReader (pc : ReaderPc) (y : Option ι) : (s.setReader r pc).Holds y ↔
    (y = some r ∧ ((∃ size, pc = .first size) ∨ ∃ size, pc = .second size)) ∨
      (y ≠ some r ∧ s.Holds y) := by
  cases y with
  | none => simp [Serial.Holds, Serial.setReader]
  | some r' =>
    by_cases hr' : r' = r
    · subst hr'
      simp [Serial.Holds, Serial.setReader]
    · simp [Serial.Holds, Serial.setReader, hr']

/-- A reader leaves. -/
theorem Serial.Exclusive.left (h : s.Exclusive) (hr : s.Holds (some r)) (s' : Serial ι)
    (pc : ReaderPc) (hlock : s'.lock = s.lock + 1) (hreader : s'.reader = s.reader)
    (hloop : s'.loop = s.loop)
    (hpc : ¬ ((∃ size, pc = .first size) ∨ ∃ size, pc = .second size)) :
    (s'.setReader r pc).Exclusive := by
  refine h.released hr hlock fun y => ?_
  have hsame : s'.Holds y ↔ s.Holds y := by
    cases y <;> simp [Serial.Holds, hreader, hloop]
  rw [holds_setReader, hsame]
  simp only [hpc, and_false, false_or]

theorem readerStep_exclusive (h : s.Exclusive) (hs' : readerStep s r = some s') :
    s'.Exclusive := by
  unfold readerStep at hs'
  -- where the reader is says whether it holds the lock
  have hholds : s.Holds (some r) ↔
      (∃ size, s.reader r = .first size) ∨ ∃ size, s.reader r = .second size := Iff.rfl
  cases hpc : s.reader r with
  | idle => rw [hpc] at hs'; cases hs'
  | enter size | woken size =>
    rw [hpc] at hs' hholds
    obtain ⟨s₁, hs₁, rfl⟩ := Option.map_eq_some_iff.mp hs'
    unfold Serial.takeLock at hs₁
    split_ifs at hs₁ with hlock
    obtain rfl := Option.some.inj hs₁
    refine h.taken (x := some r) hlock rfl fun y => ?_
    rw [holds_setReader]
    by_cases hy : y = some r
    · simp [hy]
    · simp only [hy, false_and, false_or, ne_eq, not_false_eq_true, true_and]
      cases y <;> exact Iff.rfl
  | sleep size =>
    rw [hpc] at hs' hholds
    dsimp only at hs'
    split_ifs at hs' with hblock
    obtain rfl := Option.some.inj hs'
    refine h.same rfl fun y => ?_
    rw [holds_setReader]
    by_cases hy : y = some r
    · simp [hy, hholds]
    · simp only [hy, false_and, false_or, ne_eq, not_false_eq_true, true_and]
      cases y <;> exact Iff.rfl
  | first size =>
    rw [hpc] at hs'
    dsimp only at hs'
    have hr : s.Holds (some r) := Or.inl ⟨size, hpc⟩
    split_ifs at hs'
    · obtain rfl := Option.some.inj hs'
      exact h.left hr { s with blocked := true }.releaseLock (.sleep size) rfl rfl rfl (by simp)
    · obtain rfl := Option.some.inj hs'
      exact h.left hr (s.copyOut size).releaseLock .idle rfl rfl rfl (by simp)
  | second size =>
    rw [hpc] at hs'
    obtain rfl := Option.some.inj hs'
    exact h.left (Or.inr ⟨size, hpc⟩) ({ s with
      failed := s.failed || decide s.ring.Empty }.copyOut size).releaseLock .idle rfl rfl rfl
      (by simp)

omit [DecidableEq ι] in
theorem loopStep_exclusive (h : s.Exclusive) (hs' : loopStep s = some s') : s'.Exclusive := by
  unfold loopStep at hs'
  have hother : ∀ (s₁ : Serial ι), s₁.reader = s.reader →
      ∀ r, s₁.Holds (some r) ↔ s.Holds (some r) := by
    intro s₁ hreader r
    unfold Serial.Holds
    rw [hreader]
  have hleft : ∀ {s₁ : Serial ι}, s.Holds none → s₁.lock = s.lock + 1 → s₁.reader = s.reader →
      s₁.loop = .wait → s₁.Exclusive := by
    intro s₁ hnone hlock hreader hloop
    refine h.released hnone hlock fun y => ?_
    cases y with
    | none => simp [Serial.Holds, hloop]
    | some r => simp [hother s₁ hreader r]
  cases hpc : s.loop with
  | wait => rw [hpc] at hs'; cases hs'
  | got c =>
    rw [hpc] at hs'
    obtain ⟨s₁, hs₁, rfl⟩ := Option.map_eq_some_iff.mp hs'
    unfold Serial.takeLock at hs₁
    split_ifs at hs₁ with hlock
    obtain rfl := Option.some.inj hs₁
    refine h.taken (x := none) hlock rfl fun y => ?_
    cases y with
    | none => simp [Serial.Holds]
    | some r => simp [hother { s with lock := s.lock - 1, loop := .locked c } rfl r]
  | signalled =>
    rw [hpc] at hs'
    obtain rfl := Option.some.inj hs'
    exact hleft (Or.inr hpc) rfl rfl rfl
  | locked c =>
    rw [hpc] at hs'
    dsimp only at hs'
    have hnone : s.Holds none := Or.inl ⟨c, hpc⟩
    split_ifs at hs' with hfull hblocked
    · obtain rfl := Option.some.inj hs'
      exact hleft hnone rfl rfl rfl
    · -- it goes on holding the lock
      obtain rfl := Option.some.inj hs'
      refine h.same rfl fun y => ?_
      cases y with
      | none => exact iff_of_true (Or.inr rfl) hnone
      | some r => exact hother _ rfl r
    · obtain rfl := Option.some.inj hs'
      exact hleft hnone rfl rfl rfl

omit [DecidableEq ι] in
theorem serialStart_exclusive (buf : ℕ → ℕ) : (serialStart buf : Serial ι).Exclusive := by
  refine Or.inl ⟨rfl, fun x hx => ?_⟩
  cases x with
  | none => rcases hx with ⟨c, hc⟩ | hc <;> cases hc
  | some r => rcases hx with ⟨c, hc⟩ | ⟨c, hc⟩ <;> cases hc

theorem serialStep_exclusive (h : s.Exclusive) {op : SerialOp ι}
    (hs' : serialStep s op = some s') : s'.Exclusive := by
  cases op with
  | call r size =>
    dsimp only [serialStep] at hs'
    split_ifs at hs' with hidle
    obtain rfl := Option.some.inj hs'
    refine h.same rfl fun y => ?_
    rw [holds_setReader]
    by_cases hy : y = some r
    · simp [hy, Serial.Holds, hidle.1]
    · simp [hy]
  | reader r => exact readerStep_exclusive h hs'
  | char c =>
    dsimp only [serialStep] at hs'
    by_cases hwait : s.loop = .wait
    · rw [if_pos hwait] at hs'
      obtain rfl := Option.some.inj hs'
      refine h.same rfl fun y => ?_
      cases y with
      | none => simp [Serial.Holds, hwait]
      | some r => exact Iff.rfl
    · rw [if_neg hwait] at hs'
      cases hs'
  | loop => exact loopStep_exclusive h hs'

/-- **One at a time holds the lock**, so that nothing comes between two operations on the
semaphores. -/
theorem serial_exclusive (buf : ℕ → ℕ) {ops : List (SerialOp ι)} {s : Serial ι}
    (hs : run serialStep (serialStart buf) ops = some s) : s.Exclusive :=
  run_invariant (serialStart_exclusive buf) (fun _ _ _ h hs' => serialStep_exclusive h hs') hs

end Lock

/-! ### One reader at a time -/

/-- Nobody calls in while another reader has not returned. -/
def Alone (s : Serial ι) : SerialOp ι → Prop
  | .call _ _ => ∀ r, s.reader r = .idle
  | _ => True

instance [Fintype ι] (s : Serial ι) : DecidablePred (Alone s)
  | .call _ _ => inferInstanceAs (Decidable (∀ r, s.reader r = .idle))
  | .reader _ | .char _ | .loop => .isTrue trivial

/-- The reader has been woken. -/
def ReaderPc.Woken (pc : ReaderPc) : Prop := (∃ size, pc = .woken size) ∨ ∃ size, pc = .second size

theorem ReaderPc.not_woken {pc : ReaderPc} (h₁ : ∀ size, pc ≠ .woken size)
    (h₂ : ∀ size, pc ≠ .second size) : ¬ pc.Woken := by
  rintro (⟨size, hsize⟩ | ⟨size, hsize⟩)
  · exact h₁ size hsize
  · exact h₂ size hsize

/-- One reader at most: it sleeps with the flag set, or with a signal and a character on the way,
and has the character when it is woken. -/
structure Serial.Solo (s : Serial ι) : Prop where
  ring : s.ring.WF
  one : ∀ r r', s.reader r ≠ .idle → s.reader r' ≠ .idle → r = r'
  quiet : (∀ r, ¬ (s.reader r).Asleep) → s.block = 0 ∧ s.blocked = false
  asleep : ∀ r, (s.reader r).Asleep → (s.block = 0 ∧ s.blocked = true ∧ s.ring.Empty) ∨
    (s.block = 1 ∧ s.blocked = false ∧ ¬ s.ring.Empty)
  woken : ∀ r, (s.reader r).Woken → ¬ s.ring.Empty

section Solo
variable {s s' : Serial ι}

/-- Such a reader is heard. -/
theorem Serial.Solo.heard (h : s.Solo) (op : SerialOp ι) : Heard s op := by
  cases op with
  | call r size | char c => trivial
  | reader r =>
    unfold Heard
    dsimp only
    cases hpc : s.reader r with
    | idle | enter _ | first _ | woken _ => trivial
    | sleep size =>
      rintro ⟨r', hr', size', hsleep⟩
      exact absurd (h.one r' r (by rw [hsleep]; nofun) (by rw [hpc]; nofun)) hr'
    | second size => exact h.woken r (Or.inr ⟨size, hpc⟩)
  | loop =>
    unfold Heard
    dsimp only
    cases hpc : s.loop with
    | wait | got _ | signalled => trivial
    | locked c =>
      by_cases hsleep : ∃ r, (s.reader r).Asleep
      · obtain ⟨r, hr⟩ := hsleep
        rcases h.asleep r hr with ⟨-, hblocked, -⟩ | ⟨hblock, -⟩
        · exact Or.inr (Or.inl hblocked)
        · exact Or.inr (Or.inr (Or.inl (by omega)))
      · exact Or.inr (Or.inr (Or.inr fun r hr => hsleep ⟨r, hr⟩))

variable [DecidableEq ι] {r : ι}

/-- The one reader goes on: all others are idle. -/
theorem solo_setReader (s' : Serial ι) (pc : ReaderPc) (hr : ∀ r', r' ≠ r → s'.reader r' = .idle)
    (hring : s'.ring.WF) (hquiet : ¬ pc.Asleep → s'.block = 0 ∧ s'.blocked = false)
    (hasleep : pc.Asleep → (s'.block = 0 ∧ s'.blocked = true ∧ s'.ring.Empty) ∨
      (s'.block = 1 ∧ s'.blocked = false ∧ ¬ s'.ring.Empty))
    (hwoken : pc.Woken → ¬ s'.ring.Empty) : (s'.setReader r pc).Solo := by
  have hother : ∀ r', r' ≠ r → (s'.setReader r pc).reader r' = .idle := by
    intro r' hr'
    unfold Serial.setReader
    dsimp only
    rw [Function.update_of_ne hr', hr r' hr']
  have hself : (s'.setReader r pc).reader r = pc := Function.update_self ..
  have hone : ∀ r', (s'.setReader r pc).reader r' ≠ .idle → r' = r := by
    intro r' hne
    by_contra hr'
    exact hne (hother r' hr')
  refine ⟨hring, fun r₁ r₂ h₁ h₂ => (hone r₁ h₁).trans (hone r₂ h₂).symm, fun hnone => ?_,
    fun r' hsleep => ?_, fun r' hw => ?_⟩
  · exact hquiet (hself ▸ hnone r)
  · obtain rfl := hone r' (fun hidle => by
      rw [hidle] at hsleep
      exact ReaderPc.not_asleep_idle hsleep)
    exact hasleep (hself ▸ hsleep)
  · obtain rfl := hone r' (fun hidle => by
      rw [hidle] at hw
      exact absurd hw (ReaderPc.not_woken nofun nofun))
    exact hwoken (hself ▸ hw)

omit [DecidableEq ι] in
/-- All others are idle. -/
theorem Serial.Solo.others (h : s.Solo) (hr : s.reader r ≠ .idle) :
    ∀ r', r' ≠ r → s.reader r' = .idle := by
  intro r' hne
  by_contra hidle
  exact hne (h.one r' r hidle hr)

/-- Nobody is asleep while the one reader is somewhere else. -/
theorem Serial.Solo.quiet_of (h : s.Solo) (hr : s.reader r ≠ .idle)
    (hpc : ¬ (s.reader r).Asleep) : s.block = 0 ∧ s.blocked = false := by
  refine h.quiet fun r' hsleep => ?_
  by_cases hr' : r' = r
  · exact hpc (hr' ▸ hsleep)
  · rw [h.others hr r' hr'] at hsleep
    exact ReaderPc.not_asleep_idle hsleep

theorem readerStep_solo (h : s.Solo) (hs' : readerStep s r = some s') : s'.Solo := by
  unfold readerStep at hs'
  cases hpc : s.reader r with
  | idle => rw [hpc] at hs'; cases hs'
  | enter size | woken size =>
    have hr : s.reader r ≠ .idle := by rw [hpc]; nofun
    have hquiet := h.quiet_of hr (by rw [hpc]; exact ReaderPc.not_asleep nofun)
    have hwoken := h.woken r
    rw [hpc] at hs' hwoken
    obtain ⟨s₁, hs₁, rfl⟩ := Option.map_eq_some_iff.mp hs'
    unfold Serial.takeLock at hs₁
    split_ifs at hs₁ with hlock
    obtain rfl := Option.some.inj hs₁
    refine solo_setReader { s with lock := s.lock - 1 } _ (h.others hr) h.ring (fun _ => hquiet)
      (fun hsleep => absurd hsleep (ReaderPc.not_asleep nofun)) fun hw => ?_
    first
      | exact hwoken (Or.inl ⟨size, rfl⟩)
      | exact absurd hw (ReaderPc.not_woken nofun nofun)
  | first size =>
    have hr : s.reader r ≠ .idle := by rw [hpc]; nofun
    have hquiet := h.quiet_of hr (by rw [hpc]; exact ReaderPc.not_asleep nofun)
    rw [hpc] at hs'
    dsimp only at hs'
    by_cases hempty : s.ring.Empty
    · rw [if_pos hempty] at hs'
      obtain rfl := Option.some.inj hs'
      exact solo_setReader { s with blocked := true }.releaseLock _ (h.others hr) h.ring
        (fun hno => absurd ⟨size, rfl⟩ hno) (fun _ => Or.inl ⟨hquiet.1, rfl, hempty⟩)
        fun hw => absurd hw (ReaderPc.not_woken nofun nofun)
    · rw [if_neg hempty] at hs'
      obtain rfl := Option.some.inj hs'
      exact solo_setReader (s.copyOut size).releaseLock _ (h.others hr)
        (Ring.take_append h.ring hempty size).1 (fun _ => hquiet)
        (fun hsleep => absurd hsleep ReaderPc.not_asleep_idle)
        fun hw => absurd hw (ReaderPc.not_woken nofun nofun)
  | sleep size =>
    have hr : s.reader r ≠ .idle := by rw [hpc]; nofun
    have hasleep := h.asleep r ⟨size, hpc⟩
    rw [hpc] at hs'
    dsimp only at hs'
    split_ifs at hs' with hblock
    obtain rfl := Option.some.inj hs'
    rcases hasleep with ⟨hzero, -⟩ | ⟨hone, hblocked, hne⟩
    · omega
    · refine solo_setReader { s with block := s.block - 1 } _ (h.others hr) h.ring
        (fun _ => ⟨?_, hblocked⟩) (fun hsleep => absurd hsleep (ReaderPc.not_asleep nofun))
        fun _ => hne
      dsimp only
      omega
  | second size =>
    have hr : s.reader r ≠ .idle := by rw [hpc]; nofun
    have hquiet := h.quiet_of hr (by rw [hpc]; exact ReaderPc.not_asleep nofun)
    have hne := h.woken r (Or.inr ⟨size, hpc⟩)
    rw [hpc] at hs'
    obtain rfl := Option.some.inj hs'
    exact solo_setReader ({ s with failed := s.failed || decide s.ring.Empty }.copyOut
      size).releaseLock _ (h.others hr) (Ring.take_append h.ring hne size).1 (fun _ => hquiet)
      (fun hsleep => absurd hsleep ReaderPc.not_asleep_idle)
      fun hw => absurd hw (ReaderPc.not_woken nofun nofun)

omit [DecidableEq ι] in
theorem loopStep_solo (h : s.Solo) (hs' : loopStep s = some s') : s'.Solo := by
  have hquiet : ∀ (lock : ℕ) (pc : LoopPc), ({ s with lock, loop := pc } : Serial ι).Solo :=
    fun _ _ => ⟨h.ring, h.one, h.quiet, h.asleep, h.woken⟩
  unfold loopStep at hs'
  cases hpc : s.loop with
  | wait => rw [hpc] at hs'; cases hs'
  | got c =>
    rw [hpc] at hs'
    obtain ⟨s₁, hs₁, rfl⟩ := Option.map_eq_some_iff.mp hs'
    unfold Serial.takeLock at hs₁
    split_ifs at hs₁ with hlock
    obtain rfl := Option.some.inj hs₁
    exact hquiet _ _
  | signalled =>
    rw [hpc] at hs'
    obtain rfl := Option.some.inj hs'
    exact hquiet _ _
  | locked c =>
    rw [hpc] at hs'
    dsimp only at hs'
    by_cases hfull : s.ring.Full
    · rw [if_pos hfull] at hs'
      obtain rfl := Option.some.inj hs'
      exact hquiet _ _
    · rw [if_neg hfull] at hs'
      have hwf := (Ring.contents_put h.ring hfull c).1
      have hne := Ring.put_not_empty h.ring hfull c
      by_cases hblocked : s.blocked = true
      · -- the reader that left the flag is asleep, and there was no signal
        rw [if_pos hblocked] at hs'
        obtain rfl := Option.some.inj hs'
        refine ⟨hwf, h.one, fun hnone => ?_, fun r hsleep => ?_, fun _ _ => hne⟩
        · have hflag := (h.quiet hnone).2
          rw [hblocked] at hflag
          cases hflag
        · rcases h.asleep r hsleep with ⟨hzero, -⟩ | ⟨-, hflag, -⟩
          · refine Or.inr ⟨?_, rfl, hne⟩
            dsimp only
            omega
          · rw [hblocked] at hflag
            cases hflag
      · rw [if_neg hblocked] at hs'
        obtain rfl := Option.some.inj hs'
        refine ⟨hwf, h.one, h.quiet, fun r hsleep => ?_, fun _ _ => hne⟩
        rcases h.asleep r hsleep with ⟨-, hflag, -⟩ | ⟨hone, hflag, -⟩
        · exact absurd hflag hblocked
        · exact Or.inr ⟨hone, hflag, hne⟩

/-- **Readers that do not overlap** are all heard. -/
theorem serial_alone (buf : ℕ → ℕ) {ops : List (SerialOp ι)}
    (hops : Along serialStep Alone (serialStart buf) ops) :
    Along serialStep Heard (serialStart buf) ops := by
  have hstart : (serialStart buf : Serial ι).Solo :=
    ⟨⟨Nat.succ_pos _, Nat.succ_pos _⟩, fun _ _ h => absurd rfl h, fun _ => ⟨rfl, rfl⟩,
      fun _ hsleep => absurd hsleep ReaderPc.not_asleep_idle,
      fun _ hw => absurd hw (ReaderPc.not_woken nofun nofun)⟩
  refine Along.mono (I := Serial.Solo) (fun s op h _ => h.heard op) (fun s op s' h halone hs' => ?_)
    ops _ hstart hops
  cases op with
  | call r size =>
    dsimp only [serialStep] at hs'
    split_ifs at hs' with hidle
    obtain rfl := Option.some.inj hs'
    have hquiet := h.quiet fun r' hsleep => by
      rw [halone r'] at hsleep
      exact ReaderPc.not_asleep_idle hsleep
    exact solo_setReader s _ (fun r' _ => halone r') h.ring (fun _ => hquiet)
      (fun hsleep => absurd hsleep (ReaderPc.not_asleep nofun))
      fun hw => absurd hw (ReaderPc.not_woken nofun nofun)
  | reader r => exact readerStep_solo h hs'
  | char c =>
    dsimp only [serialStep] at hs'
    by_cases hwait : s.loop = .wait
    · rw [if_pos hwait] at hs'
      obtain rfl := Option.some.inj hs'
      exact ⟨h.ring, h.one, h.quiet, h.asleep, h.woken⟩
    · rw [if_neg hwait] at hs'
      cases hs'
  | loop => exact loopStep_solo h hs'

end Solo

/-! ### Two readers -/

/-- A reader calls in, finds the ring empty, and goes to sleep. -/
def fallAsleep (r : Bool) : List (SerialOp Bool) := [.call r 1, .reader r, .reader r]

/-- A character comes in and goes into the ring; with a reader asleep it is signalled. -/
def charIn : List (SerialOp Bool) := [.char 120, .loop, .loop, .loop]

/-- One reader, and a character. -/
theorem serial_sound_one : ∃ s,
    run serialStep (serialStart fun _ => 0) (fallAsleep true ++ charIn) = some s ∧
      ∀ ops₁ s₁, ops₁ <+: fallAsleep true ++ charIn →
        run serialStep (serialStart fun _ => 0) ops₁ = some s₁ → s₁.Sound := by
  obtain ⟨s, hs⟩ : ∃ s, run serialStep (serialStart fun _ => 0) (fallAsleep true ++ charIn)
      = some s := ⟨_, rfl⟩
  refine ⟨s, hs, ?_⟩
  refine (serial_sound_iff (fun _ => 0) (fallAsleep true ++ charIn) s hs).mpr (serial_alone _ ?_)
  decide

/-- Two readers sleep, and a character comes in: it wakes one of them, and the other one is left
asleep with the flag gone. -/
theorem serial_unsound : ¬ ∀ (buf : ℕ → ℕ) (ops : List (SerialOp Bool)) (s : Serial Bool),
    run serialStep (serialStart buf) ops = some s → s.Sound := by
  intro h
  have hend : (run serialStep (serialStart fun _ => 0)
      (fallAsleep true ++ fallAsleep false ++ charIn ++ [.reader true])).map
        (fun s => (s.reader false, s.block, decide s.ring.Empty, s.blocked))
      = some (.sleep 1, 0, false, false) := by
    decide
  obtain ⟨s, hrun, hs⟩ := Option.map_eq_some_iff.mp hend
  obtain ⟨hreader, hrest⟩ := Prod.mk.inj hs
  obtain ⟨hblock, hrest⟩ := Prod.mk.inj hrest
  obtain ⟨hempty, hblocked⟩ := Prod.mk.inj hrest
  rcases (h _ _ s hrun).awaited false ⟨1, hreader⟩ hblock with hemp | hb
  · exact of_decide_eq_false hempty hemp
  · rw [hblocked] at hb
    cases hb

end Mungi
