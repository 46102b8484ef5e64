import Mungi.Lib.Bytes
import Mungi.Lib.Spans
import Mungi.Vm.Ramdisk

/-!
# Where the RAM disk keeps what

The region of the RAM disk starts with a page for the magic number.  The block table is to fill the
pages after it, as many as are reserved for it, and the blocks are to come behind the table; but the
reserved pages are counted from the start of the region.

## Main definitions

* `RamdiskRegion` — the region, its table and its blocks, in bytes.
* `RamdiskRegion.LaidOut` — what is kept in the region is kept apart.
* `RamdiskRegion.Roomy` — the condition.

## Main results

* `ramdisk_layout_iff` — **when the table and the blocks are apart.**
-/

namespace Mungi

open Bytes Spans

/-- The region of the RAM disk, from `region_base` to `k->kernel_data`. -/
structure RamdiskRegion where
  regionBase : ℕ
  kernelData : ℕ

namespace RamdiskRegion

variable (d : RamdiskRegion)

/-- What `ramdisk_init` computes from. -/
def conf : RamdiskConf := ⟨d.regionBase / 2 ^ 12, (d.kernelData - d.regionBase) / 2 ^ 12, 512⟩

/-- `MAGIC_OFFSET` -/
def magicOffset : ℕ := 16

/-- `TABLE_OFFSET` -/
def tableOffset : ℕ := 2 ^ 12

/-- `total_blocks` -/
def totalBlocks : ℕ := d.conf.totalBlocks

/-- `disk_base` -/
def diskBase : ℕ := d.regionBase + d.conf.rsv * 2 ^ 12

/-- The magic number. -/
def magic : Span := ⟨d.regionBase + magicOffset, d.regionBase + magicOffset + 8⟩

/-- `blocks` -/
def blocks : ℕ := d.regionBase + tableOffset

/-- The block table. -/
def table : Span := ⟨d.blocks, d.blocks + 8 * d.totalBlocks⟩

/-- The blocks. -/
def data : Span := ⟨d.diskBase, d.diskBase + d.totalBlocks * 2 ^ 12⟩

/-- `blocks[i]` in memory. -/
def entry (o : ByteOrder) (m : ℕ → BitVec 8) (i : ℕ) : ℕ := load o m (d.blocks + 8 * i) 8

/-- The `memcpy` of `write_request`: a page goes to a block. -/
def copyToBlock (m : ℕ → BitVec 8) (i frame : ℕ) : ℕ → BitVec 8 :=
  copy m (d.diskBase + i * 2 ^ 12) (2 ^ 12) fun j => m (frame * 2 ^ 12 + j)

/-- **What is kept in the region is kept apart**: the table, the blocks and the magic number do not
overlap and are inside the region, and no write to a block changes an entry of the table. -/
structure LaidOut : Prop where
  apart : ∀ x, d.table.Has x → ¬ d.data.Has x
  magicTable : ∀ x, d.magic.Has x → ¬ d.table.Has x
  magicData : ∀ x, d.magic.Has x → ¬ d.data.Has x
  tableInside : ∀ x, d.table.Has x → d.regionBase ≤ x ∧ x < d.kernelData
  dataInside : ∀ x, d.data.Has x → d.regionBase ≤ x ∧ x < d.kernelData
  kept : ∀ (o : ByteOrder) m frame i j, i < d.totalBlocks → j < d.totalBlocks →
    d.entry o (d.copyToBlock m i frame) j = d.entry o m j

/-- **The condition**: the reserved pages are so many that there is one for the magic number. -/
def Roomy : Prop := (d.conf.pages - 1) % 512 + 512 ≤ (d.conf.pages - 1) / 512

variable {d}

/-- Blocks and reserved pages are all but one. -/
theorem totalBlocks_add (hfew : 2 ≤ d.conf.pages) (hword : d.kernelData < 2 ^ 64) :
    d.conf.rsv = (d.conf.pages - 1) / 512 ∧ d.totalBlocks + d.conf.rsv = d.conf.pages - 1 ∧
      2 ^ 12 * d.conf.pages ≤ d.kernelData - d.regionBase := by
  have hpages : d.conf.pages = (d.kernelData - d.regionBase) / 2 ^ 12 := rfl
  have hone : wordSub d.conf.pages 1 = d.conf.pages - 1 := by
    unfold wordSub
    omega
  have hrsv : d.conf.rsv = (d.conf.pages - 1) / 512 := by
    unfold RamdiskConf.rsv
    rw [hone]
    rfl
  refine ⟨hrsv, ?_, by omega⟩
  unfold totalBlocks RamdiskConf.totalBlocks
  rw [hone]
  unfold wordSub
  omega

end RamdiskRegion

/-- **When the table and the blocks are apart**: from a gigabyte on, and not for all sizes. -/
theorem ramdisk_layout_iff (d : RamdiskRegion) (hfew : 2 ≤ d.conf.pages)
    (hword : d.kernelData < 2 ^ 64) : d.LaidOut ↔ d.Roomy := by
  obtain ⟨hrsv, htotal, hinside⟩ := RamdiskRegion.totalBlocks_add hfew hword
  have hbase : d.diskBase = d.regionBase + d.conf.rsv * 2 ^ 12 := rfl
  have hblocks : d.blocks = d.regionBase + 2 ^ 12 := rfl
  have hmagic : ∀ x, d.magic.Has x ↔ d.regionBase + 16 ≤ x ∧ x < d.regionBase + 16 + 8 :=
    fun _ => Iff.rfl
  have htable : ∀ x, d.table.Has x ↔ d.blocks ≤ x ∧ x < d.blocks + 8 * d.totalBlocks :=
    fun _ => Iff.rfl
  have hdata : ∀ x, d.data.Has x ↔ d.diskBase ≤ x ∧ x < d.diskBase + d.totalBlocks * 2 ^ 12 :=
    fun _ => Iff.rfl
  unfold RamdiskRegion.Roomy
  constructor
  · intro h
    by_contra hcrowded
    by_cases hnone : d.conf.rsv = 0
    · -- the first block is the page of the magic number
      refine h.magicData (d.regionBase + 16) ((hmagic _).mpr (by omega)) ((hdata _).mpr ?_)
      omega
    · -- the first block is where the table still goes on
      exact h.apart d.diskBase ((htable _).mpr (by omega)) ((hdata _).mpr (by omega))
  · intro hroomy
    have hbefore : d.blocks + 8 * d.totalBlocks ≤ d.diskBase := by omega
    refine ⟨fun x hx => ?_, fun x hx => ?_, fun x hx => ?_, fun x hx => ?_, fun x hx => ?_,
      fun o m frame i j hi hj => ?_⟩
    · rw [hdata]
      rw [htable] at hx
      omega
    · rw [htable]
      rw [hmagic] at hx
      omega
    · rw [hdata]
      rw [hmagic] at hx
      omega
    · rw [htable] at hx
      omega
    · rw [hdata] at hx
      omega
    · unfold RamdiskRegion.entry RamdiskRegion.copyToBlock
      exact load_copy_of_apart (Or.inl (by omega))

/-- A gigabyte, and a page for the magic number. -/
def largeRegion : RamdiskRegion := ⟨2 ^ 22, 2 ^ 22 + (2 ^ 18 + 1) * 2 ^ 12⟩

theorem ramdisk_layout_iff_largeRegion : largeRegion.LaidOut :=
  (ramdisk_layout_iff largeRegion (by decide) (by decide)).mpr
    (show (largeRegion.conf.pages - 1) % 512 + 512 ≤ (largeRegion.conf.pages - 1) / 512 by decide)

/-- 4 megabytes. -/
def smallRegion : RamdiskRegion := ⟨2 ^ 22, 2 ^ 22 + 1024 * 2 ^ 12⟩

/-- **In 4 megabytes the table is among the blocks.** -/
theorem ramdisk_not_laidOut :
    ¬ ∀ d : RamdiskRegion, 2 ≤ d.conf.pages → d.kernelData < 2 ^ 64 → d.LaidOut := by
  intro h
  have hapart := (h smallRegion (by decide) (by decide)).apart smallRegion.blocks
  exact hapart ⟨by decide, by decide⟩ ⟨by decide, by decide⟩

end Mungi
