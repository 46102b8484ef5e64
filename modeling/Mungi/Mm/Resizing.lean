import Mungi.Mm.Locks
import Mungi.Mm.Taking
import Mungi.Objects

/-!
# Resizing an object

`object_resize` gives the pages behind the new end back with `kfree_obj`, or asks
`kmalloc_obj_addr` for those behind the old one, and takes their word for it.  The pages are right
if the arithmetic is, so that what may go wrong is what goes wrong in these two.

## Main definitions

* `Mm.objectResize` — `object_resize` with the free list in memory.
* `Obj.Placed` — an object and its pages.
* `Mm.Resized`, `ResizeRight` — what the call is to do, and when it does.

## Main results

* `object_resize_iff` — **it does just then.**
-/

namespace Mungi

open Chain

/-! ### The free addresses after `kfree_obj` -/

/-- With the chunk the list has the whole address space in one chunk, whose size is taken for 0. -/
def Whole (l : List FreeChunk) (address n : ℕ) : Prop :=
  (∃ a ∈ l, a.span.lo = 0 ∧ a.span.hi = address) ∧
    (address + n = 2 ^ 64 ∨ ∃ b ∈ l, b.span.lo = address + n ∧ b.span.hi = 2 ^ 64)

section FreeSet
variable {pageSize address n : ℕ} {f l back : List FreeChunk} {ptr2 : FreeChunk}

/-- A chunk away from address 0 that is linked, or joins the one behind it. -/
theorem free_linkChunk (h0 : 0 < address) (hend : address + n ≤ 2 ^ 64)
    (hin : ∀ b ∈ back, 0 < b.size ∧ b.span.hi ≤ 2 ^ 64)
    (hback : ∀ b ∈ back, address + n ≤ b.span.lo) (x : ℕ) : Free (linkChunk address n back) x ↔
      Free back x ∨ address ≤ x ∧ x < address + n := by
  cases back with
  | nil => rw [linkChunk, free_cons, or_comm]; rfl
  | cons b rest =>
    obtain ⟨hb0, hb⟩ := hin b List.mem_cons_self
    have hle := hback b List.mem_cons_self
    rw [span_hi] at hb
    rw [span_lo] at hle
    rw [linkChunk, wordAdd_eq (by omega)]
    by_cases hjoin : b.address = address + n
    · rw [if_pos hjoin, wordAdd_eq (by omega), free_cons, free_cons]
      simp only [Spans.Span.Has, span_lo, span_hi]
      have hsplit : address ≤ x ∧ x < address + (b.size + n) ↔
          (b.address ≤ x ∧ x < b.address + b.size) ∨ address ≤ x ∧ x < address + n := by omega
      rw [hsplit]
      tauto
    · rw [if_neg hjoin, free_cons, or_comm]
      rfl

/-- A chunk that joins the one in front of it. -/
theorem free_joinChunk (hl : SortedChunks pageSize (f ++ ptr2 :: back)) (h0 : 0 < n)
    (hend : address + n ≤ 2 ^ 64) (hptr2 : ptr2.span.hi = address)
    (hback : ∀ b ∈ back, address + n ≤ b.span.lo) :
    (∀ x, Free (f ++ joinChunk address n ptr2 back) x ↔
      Free (f ++ ptr2 :: back) x ∨ address ≤ x ∧ x < address + n) ↔
      ¬ Whole (f ++ ptr2 :: back) address n := by
  obtain ⟨-, hafter, horder⟩ := List.pairwise_append.mp hl.order
  have hpos2 := hl.pos ptr2 (by simp)
  have hin : ∀ b ∈ back, 0 < b.size ∧ b.address + b.size ≤ 2 ^ 64 := fun b hb =>
    ⟨(hl.pos b (by simp [hb])).1, hl.inside b (by simp [hb])⟩
  rw [span_hi] at hptr2
  have hfront : ∀ {x}, Free f x → x < ptr2.address := by
    rintro x ⟨a, ha, -, hlt⟩
    exact hlt.trans_le (horder a ha ptr2 List.mem_cons_self)
  -- the chunks at the two ends of the range
  have hwhole : Whole (f ++ ptr2 :: back) address n ↔ ptr2.address = 0 ∧ (address + n = 2 ^ 64 ∨
      ∃ b ∈ back, b.address = address + n ∧ b.address + b.size = 2 ^ 64) := by
    constructor
    · rintro ⟨⟨a, ha, hlo, hhi⟩, hends⟩
      rw [span_lo] at hlo
      rw [span_hi] at hhi
      have hptr : ptr2.address = 0 := by
        rcases List.mem_append.mp ha with ha | ha
        · have hle := horder a ha ptr2 List.mem_cons_self
          rw [span_hi, span_lo] at hle
          omega
        · rcases List.mem_cons.mp ha with rfl | ha
          · exact hlo
          · have hle := hback a ha
            rw [span_lo] at hle
            omega
      refine ⟨hptr, hends.imp_right fun ⟨b, hb, hlo, hhi⟩ => ⟨b, ?_, hlo, hhi⟩⟩
      rw [span_lo] at hlo
      rcases List.mem_append.mp hb with hb | hb
      · have hle := horder b hb ptr2 List.mem_cons_self
        rw [span_hi, span_lo] at hle
        omega
      · rcases List.mem_cons.mp hb with rfl | hb
        · omega
        · exact hb
    · rintro ⟨h0, hends⟩
      exact ⟨⟨ptr2, by simp, h0, hptr2⟩,
        hends.imp_right fun ⟨b, hb, hlo, hhi⟩ => ⟨b, by simp [hb], hlo, hhi⟩⟩
  rw [hwhole]
  -- an empty chunk does not have the address
  have hlost : ¬ ∀ x, Free (f ++ ⟨ptr2.address, 0⟩ :: back) x ↔
      Free (f ++ ptr2 :: back) x ∨ address ≤ x ∧ x < address + n := by
    intro hall
    have hx := (hall address).mpr (Or.inr ⟨le_rfl, by omega⟩)
    rw [free_append, free_cons] at hx
    rcases hx with hx | ⟨-, hlt⟩ | ⟨b, hb, hle, -⟩
    · have := hfront hx
      omega
    · rw [span_hi] at hlt
      dsimp only at hlt
      omega
    · have := hback b hb
      omega
  -- a chunk that grows by the range, and by what is free behind it
  have hgrown : ∀ m, n ≤ m → (∀ x, address + n ≤ x → x < address + m → Free back x) →
      ∀ x, Free (f ++ ⟨ptr2.address, ptr2.size + m⟩ :: back) x ↔
        Free (f ++ ptr2 :: back) x ∨ address ≤ x ∧ x < address + n := by
    intro m hm hbehind x
    rw [free_append, free_append, free_cons, free_cons, or_assoc]
    apply or_congr_right
    simp only [Spans.Span.Has, span_lo, span_hi]
    constructor
    · rintro (hx | hx)
      · by_cases hmid : x < address + n
        · omega
        · exact Or.inl (Or.inr (hbehind x (by omega) (by omega)))
      · exact Or.inl (Or.inr hx)
    · rintro ((hx | hx) | hx)
      · exact Or.inl (by omega)
      · exact Or.inr hx
      · exact Or.inl (by omega)
  cases back with
  | nil =>
    rw [joinChunk]
    by_cases hall : ptr2.address = 0 ∧ address + n = 2 ^ 64
    · have hsize : wordAdd ptr2.size n = 0 := by
        unfold wordAdd
        omega
      rw [hsize]
      exact iff_of_false hlost fun hno => hno ⟨hall.1, Or.inl hall.2⟩
    · rw [wordAdd_eq (by omega)]
      refine iff_of_true (hgrown n le_rfl fun x _ _ => by omega) ?_
      rintro ⟨h0, h64 | ⟨b, hb, -⟩⟩
      · exact hall ⟨h0, h64⟩
      · cases hb
  | cons ptr rest =>
    obtain ⟨hptr0, hptr⟩ := hin ptr List.mem_cons_self
    have hle := hback ptr List.mem_cons_self
    rw [span_lo] at hle
    rw [joinChunk, wordAdd_eq (show address + n < 2 ^ 64 by omega)]
    by_cases hjoin : ptr.address = address + n
    · rw [if_pos hjoin, wordAdd_eq (show ptr2.size + n < 2 ^ 64 by omega)]
      by_cases hall : ptr2.address = 0 ∧ ptr.address + ptr.size = 2 ^ 64
      · have hsize : wordAdd (ptr2.size + n) ptr.size = 0 := by
          unfold wordAdd
          omega
        rw [hsize]
        exact iff_of_false hlost fun hno =>
          hno ⟨hall.1, Or.inr ⟨ptr, List.mem_cons_self, hjoin, hall.2⟩⟩
      · rw [wordAdd_eq (by omega), Nat.add_assoc]
        refine iff_of_true (hgrown (n + ptr.size) (by omega) fun x _ _ =>
          ⟨ptr, List.mem_cons_self, ?_, ?_⟩) ?_
        · rw [span_lo]
          omega
        · rw [span_hi]
          omega
        · rintro ⟨h0, h64 | ⟨b, hb, hlo, hhi⟩⟩
          · omega
          · rcases List.mem_cons.mp hb with rfl | hb
            · exact hall ⟨h0, hhi⟩
            · have hafter' := (List.pairwise_cons.mp (List.pairwise_cons.mp hafter).2).1 b hb
              rw [span_hi, span_lo] at hafter'
              omega
    · rw [if_neg hjoin, wordAdd_eq (by omega)]
      refine iff_of_true (hgrown n le_rfl fun x _ _ => by omega) ?_
      rintro ⟨h0, h64 | ⟨b, hb, hlo, hhi⟩⟩
      · omega
      · rcases List.mem_cons.mp hb with rfl | hb
        · exact hjoin hlo
        · have hafter' := (List.pairwise_cons.mp (List.pairwise_cons.mp hafter).2).1 b hb
          rw [span_hi, span_lo] at hafter'
          omega

/-- A chunk away from address 0: **when the free addresses are right.**  Where they are not, it
needs no record. -/
theorem kfreeObj_set_iff {size : ℕ} (hpos : 0 < pageSize) (hword : pageSize ∣ 2 ^ 64)
    (hl : SortedChunks pageSize l) (h0 : 0 < address) (hsize : 0 < size)
    (hend : address + pageCeil pageSize size ≤ 2 ^ 64)
    (hdis : ∀ x, address ≤ x → x < address + pageCeil pageSize size → ¬ Free l x) :
    ((∀ x, Free (kfreeObj pageSize l address size) x ↔
      Free l x ∨ address ≤ x ∧ x < address + pageCeil pageSize size) ↔
        (l = [] → pageSize ∣ size) ∧ ¬ Whole l address (pageCeil pageSize size)) ∧
    (NeedsChunk pageSize l address size → ¬ Whole l address (pageCeil pageSize size)) := by
  have hceil := pageCeil_spec hpos size
  by_cases hnil : l = []
  · subst hnil
    have hno : ¬ Whole [] address (pageCeil pageSize size) := by
      rintro ⟨⟨a, ha, -⟩, -⟩
      cases ha
    refine ⟨?_, fun _ => hno⟩
    rw [and_iff_left hno]
    show (∀ x, Free [⟨address, size⟩] x ↔ _) ↔ _
    constructor
    · intro hall _
      by_contra hdvd
      have hlt : size < pageCeil pageSize size := by
        refine lt_of_le_of_ne hceil.1 fun heq => hdvd ?_
        rw [heq]
        exact dvd_pageCeil ..
      obtain ⟨c, hc, -, hhi⟩ := (hall (address + size)).mpr (Or.inr ⟨by omega, by omega⟩)
      obtain rfl := List.mem_singleton.mp hc
      exact absurd hhi (Nat.lt_irrefl _)
    · intro hdvd x
      rw [pageCeil_of_dvd hpos (hdvd rfl), free_cons, or_comm]
      rfl
  have hup := pageRoundUp_eq_pageCeil hpos (add_le_of_free hpos hword hl hend hdis hnil)
  rw [and_iff_right fun hempty => absurd hempty hnil]
  obtain ⟨front, back, rfl, hfront, hback, hbefore, hbehind⟩ := hl.exists_apart (by omega) hdis
  unfold NeedsChunk
  rw [takeWhile_front hfront hback, dropWhile_front hfront hback, or_iff_right hnil]
  generalize pageCeil pageSize size = n at *
  have hin : ∀ b ∈ back, 0 < b.size ∧ b.span.hi ≤ 2 ^ 64 := fun b hb =>
    ⟨(hl.pos b (List.mem_append_right _ hb)).1, hl.inside b (List.mem_append_right _ hb)⟩
  rcases List.eq_nil_or_concat' front with rfl | ⟨f, ptr2, rfl⟩
  · obtain ⟨first, rest, rfl⟩ := List.exists_cons_of_ne_nil hnil
    have hno : ¬ Whole ([] ++ first :: rest) address n := by
      rintro ⟨⟨a, ha, -, hhi⟩, -⟩
      have hle := hbehind a ha
      rw [span_hi] at hhi
      rw [span_lo] at hle
      omega
    refine ⟨?_, fun _ => hno⟩
    have hfirst := hin first List.mem_cons_self
    have hge := hbehind first List.mem_cons_self
    have hstop : first.stop ≠ address := by
      rw [span_hi] at hfirst
      rw [span_lo] at hge
      unfold FreeChunk.stop wordAdd
      omega
    have hlist : kfreeObj pageSize ([] ++ first :: rest) address size =
        linkChunk address n (first :: rest) := by
      rw [List.nil_append, kfreeObj, if_neg hsize.ne', hup]
      dsimp only
      rw [if_neg (hback first rfl), if_neg hstop]
    rw [hlist]
    exact iff_of_true (free_linkChunk h0 hend hin hbehind) hno
  · have happ : f ++ [ptr2] ++ back = f ++ ptr2 :: back := by simp
    have hle := hbefore ptr2 (by simp)
    have hlt := hfront ptr2 (by simp)
    have hlist : kfreeObj pageSize (f ++ ptr2 :: back) address size =
        f ++ kfreeBehind address n ptr2 back := by
      rw [← hup]
      exact kfreeObj_behind hsize.ne' (fun a ha => hfront a (List.mem_append_left _ ha)) hlt hback
    have hstop : ptr2.stop = ptr2.span.hi := by
      rw [span_hi] at hle ⊢
      exact wordAdd_eq (by omega)
    have hlast : (f ++ [ptr2]).getLast? = some ptr2 := by simp
    rw [happ] at hl ⊢
    rw [hlist, kfreeBehind, hstop, hlast]
    by_cases hjoin : ptr2.span.hi = address
    · rw [if_pos hjoin]
      exact ⟨free_joinChunk hl (by omega) hend hjoin hbehind,
        fun hneeds => absurd (hstop.trans hjoin) (hneeds.2.1 ptr2 rfl)⟩
    · have hno : ¬ Whole (f ++ ptr2 :: back) address n := by
        rintro ⟨⟨a, ha, -, hhi⟩, -⟩
        obtain ⟨-, -, horder⟩ := List.pairwise_append.mp hl.order
        have ha0 := hl.pos a ha
        have hpos2 := hl.pos ptr2 (by simp)
        rcases List.mem_append.mp ha with ha | ha
        · have hle' := horder a ha ptr2 List.mem_cons_self
          rw [span_lo] at hle'
          rw [span_hi] at hle hjoin
          omega
        · rcases List.mem_cons.mp ha with rfl | ha
          · exact hjoin hhi
          · have hge := hbehind a ha
            rw [span_hi] at hhi
            rw [span_lo] at hge
            omega
      rw [if_neg hjoin]
      refine ⟨iff_of_true (fun x => ?_) hno, fun _ => hno⟩
      rw [free_append, free_cons, free_linkChunk h0 hend hin hbehind, free_append, free_cons]
      tauto

end FreeSet

/-! ### The free addresses after `kmalloc_obj_addr` -/

section Behind
variable {pageSize address size a : ℕ} {f r l l' : List FreeChunk} {ptr : FreeChunk}

/-- What lies behind the address stays free, or a chunk in front of it is lost. -/
theorem kmallocObjAddr_back (hl : SortedChunks pageSize (f ++ ptr :: r))
    (hptr : ptr.address ≤ pageRoundDown pageSize address)
    (hr : ∀ c ∈ r, pageRoundDown pageSize address < c.address)
    (h : kmallocObjAddr pageSize (f ++ ptr :: r) address size = some (a, l')) :
    (∀ x, Free r x → Free l' x) ∨ ∃ b ∈ f, ¬ Free l' b.address := by
  have hfront : ∀ b ∈ f, b.address < pageRoundDown pageSize address := by
    intro b hb
    have hle := (List.pairwise_append.mp hl.order).2.2 b hb ptr List.mem_cons_self
    have hb0 := hl.pos b (List.mem_append_left _ hb)
    rw [span_hi, span_lo] at hle
    omega
  have hsub : (∀ c ∈ r, c ∈ l') → ∀ x, Free r x → Free l' x := fun hall x ⟨c, hc, hx⟩ =>
    ⟨c, hall c hc, hx⟩
  by_cases hat : ptr.address = pageRoundDown pageSize address
  · rw [kmallocObjAddr_start hfront hat] at h
    obtain ⟨l'', htake, heq⟩ := Option.map_eq_some_iff.mp h
    obtain rfl := (Prod.mk.inj heq).2
    unfold takeStart at htake
    split_ifs at htake with hfit hall hshort htwo
    · obtain rfl := Option.some.inj htake
      obtain ⟨b, hb⟩ := List.exists_mem_of_length_pos (show 0 < f.length by omega)
      exact Or.inr ⟨b, hb, fun ⟨_, hc, _⟩ => nomatch hc⟩
    · obtain rfl := Option.some.inj htake
      exact Or.inl (hsub fun c hc => List.mem_append_right _ hc)
    · obtain rfl := Option.some.inj htake
      exact Or.inl (hsub fun c hc => List.mem_append_right _ (List.mem_cons_of_mem _ hc))
    · obtain rfl := Option.some.inj htake
      exact Or.inl (hsub fun c hc => List.mem_append_right _ (List.mem_cons_of_mem _ hc))
  · have happ : f ++ ptr :: r = f ++ [ptr] ++ r := by simp
    rw [happ, kmallocObjAddr_inside hfront (Nat.lt_of_le_of_ne hptr hat) fun c hc =>
      hr c (List.mem_of_mem_head? hc)] at h
    obtain rfl := (Prod.mk.inj (Option.some.inj h)).2
    refine Or.inl (hsub fun c hc => ?_)
    unfold takeInside
    split_ifs
    · dsimp only
      split_ifs <;> simp [hc]
    · simp [hc]

/-- An address comes back only where a chunk starts at it or in front of it. -/
theorem kmallocObjAddr_ne_zero (hl : SortedChunks pageSize l)
    (h : kmallocObjAddr pageSize l address size = some (a, l')) (hne : a ≠ 0) :
    a = pageRoundDown pageSize address ∧ ∃ f ptr r, l = f ++ ptr :: r ∧
      ptr.address ≤ pageRoundDown pageSize address ∧
        ∀ c ∈ r, pageRoundDown pageSize address < c.address := by
  obtain ⟨front, r, rfl, hfront, hr⟩ := hl.exists_behind (pageRoundDown pageSize address)
  rcases List.eq_nil_or_concat' front with rfl | ⟨f, ptr, rfl⟩
  · rw [List.nil_append, kmallocObjAddr_none size fun c hc => hr c (List.mem_of_mem_head? hc)] at h
    exact absurd (Prod.mk.inj (Option.some.inj h)).1.symm hne
  · have happ : f ++ [ptr] ++ r = f ++ ptr :: r := by simp
    have hptr := hfront ptr (by simp)
    rw [happ] at hl h ⊢
    exact ⟨kmallocObjAddr_fst hl hptr hr h, f, ptr, r, rfl, hptr, hr⟩

end Behind

/-! ### Objects -/

/-- An object as `object_create` makes it: it is not at address 0, ends where its length says, and
its pages are not free. -/
structure Obj.Placed (pageSize : ℕ) (l : List FreeChunk) (obj : Obj) : Prop where
  base_pos : 0 < obj.base
  base_lt : obj.base < 2 ^ 64
  base_dvd : pageSize ∣ obj.base
  limit : obj.limit = wordAdd obj.base obj.info.length
  inside : obj.base + pageCeil pageSize obj.info.length ≤ 2 ^ 64
  apart : ∀ x, obj.base ≤ x → x < obj.base + pageCeil pageSize obj.info.length → ¬ Free l x

/-- The pages behind the object, up to the size `n`, are taken if an address came back. -/
def Obj.Grown (pageSize : ℕ) (l : List FreeChunk) (obj : Obj) (n a : ℕ) (l' : List FreeChunk) :
    Prop :=
  if a = 0 then ∀ x, Free l' x ↔ Free l x
  else ∀ x, (obj.base + pageCeil pageSize obj.info.length ≤ x → x < obj.base + n → Free l x) ∧
    (Free l' x ↔ Free l x ∧ ¬ (obj.base + pageCeil pageSize obj.info.length ≤ x ∧ x < obj.base + n))

section Grow
variable {pageSize n : ℕ} (hpos : 0 < pageSize) {l : List FreeChunk} {obj : Obj}
  (h : obj.Placed pageSize l)
include hpos h

theorem Obj.Placed.length_le : obj.info.length < 2 ^ 64 ∧
    obj.info.length ≤ pageCeil pageSize obj.info.length := by
  have hceil := pageCeil_spec hpos obj.info.length
  have hbase := h.base_pos
  have hin := h.inside
  omega

variable (hword : pageSize ∣ 2 ^ 64) (hl : SortedChunks pageSize l)
include hword hl

/-- **When an object grows right.** -/
theorem grown_iff (hn : n < 2 ^ 64) (hdvd : pageSize ∣ n)
    (hlt : pageCeil pageSize obj.info.length < n) :
    (∃ a l', kmallocObjAddr pageSize l obj.limit (n - obj.info.length) = some (a, l') ∧
      obj.Grown pageSize l n a l') ↔ AtRight pageSize l obj.limit (n - obj.info.length) := by
  obtain ⟨hlen, hle⟩ := h.length_le hpos
  obtain ⟨hbase, -, hbase_dvd, hlimit, hin, hapart⟩ := h
  have haddr : obj.limit < 2 ^ 64 := hlimit ▸ Nat.mod_lt _ (by decide)
  obtain ⟨hset, hall⟩ := kmallocObjAddr_right hpos hword hl haddr
    (show 0 < n - obj.info.length by omega) (show n - obj.info.length < 2 ^ 64 by omega)
  have hdown : pageRoundDown pageSize obj.limit ≤ obj.limit := Nat.div_mul_le_self ..
  -- an address only comes back if the end of the object is not 0
  have hplace : ∀ {a l'}, kmallocObjAddr pageSize l obj.limit (n - obj.info.length) = some (a, l') →
      a ≠ 0 → obj.limit = obj.base + obj.info.length ∧
        obj.base ≤ pageRoundDown pageSize obj.limit := by
    intro a l' hcall hne
    obtain ⟨rfl, -⟩ := kmallocObjAddr_ne_zero hl hcall hne
    have hend : obj.limit = obj.base + obj.info.length := by
      rw [hlimit, wordAdd] at hne ⊢
      by_cases h64 : obj.base + obj.info.length = 2 ^ 64
      · rw [h64, Nat.mod_self] at hne
        exact absurd (Nat.le_zero.mp (Nat.div_mul_le_self ..)) hne
      · exact Nat.mod_eq_of_lt (by omega)
    refine ⟨hend, ?_⟩
    calc obj.base = obj.base / pageSize * pageSize := (Nat.div_mul_cancel hbase_dvd).symm
      _ ≤ obj.limit / pageSize * pageSize :=
        Nat.mul_le_mul_right _ (Nat.div_le_div_right (by omega))
  have hhi : obj.limit = obj.base + obj.info.length →
      pageCeil pageSize (obj.limit + (n - obj.info.length)) = obj.base + n := by
    intro hend
    rw [hend, show obj.base + obj.info.length + (n - obj.info.length) = obj.base + n by omega]
    exact pageCeil_of_dvd hpos (Nat.dvd_add hbase_dvd hdvd)
  -- where the first page is free, it lies right behind the object
  have hfirst : ∀ {f ptr r}, l = f ++ ptr :: r → obj.limit = obj.base + obj.info.length →
      obj.base ≤ pageRoundDown pageSize obj.limit → ptr.address ≤ pageRoundDown pageSize obj.limit →
      pageRoundDown pageSize obj.limit < ptr.span.hi →
      pageRoundDown pageSize obj.limit = obj.base + pageCeil pageSize obj.info.length := by
    intro f ptr r heq hend hlo hptr hhas
    by_contra hne
    refine hapart _ hlo (by omega) ⟨ptr, ?_, hptr, hhas⟩
    rw [heq]
    simp
  generalize hP : pageCeil pageSize obj.info.length = P at *
  constructor
  · rintro ⟨a, l', hcall, hgrown⟩
    unfold Obj.Grown at hgrown
    rw [hP] at hgrown
    refine hset ⟨a, l', hcall, fun h0 => ?_, fun hne => ?_⟩
    · rwa [if_pos h0] at hgrown
    · rw [if_neg hne] at hgrown
      obtain ⟨hend, hlo⟩ := hplace hcall hne
      obtain ⟨-, f, ptr, r, rfl, hptr, hr⟩ := kmallocObjAddr_ne_zero hl hcall hne
      rw [hhi hend]
      by_cases hfit : pageRoundDown pageSize obj.limit < ptr.span.hi ∧ obj.base + n ≤ ptr.span.hi
      · have hpage := hfirst rfl hend hlo hptr hfit.1
        rw [hpage] at hptr ⊢
        exact ⟨⟨ptr, by simp, hptr, hfit.2⟩, fun x => (hgrown x).2⟩
      · exfalso
        -- a page that is to be taken lies in one of the chunks behind
        obtain ⟨x, hx₁, hx₂, hx⟩ : ∃ x, obj.base + P ≤ x ∧ x < obj.base + n ∧ Free r x := by
          have hpage := hfirst rfl hend hlo hptr
          have hx₁ : obj.base + P ≤ max ptr.span.hi (obj.base + P) := le_max_right ..
          have hx₂ : max ptr.span.hi (obj.base + P) < obj.base + n := by omega
          refine ⟨_, hx₁, hx₂, ?_⟩
          obtain ⟨c, hc, hle', hlt'⟩ := (hgrown _).1 hx₁ hx₂
          rcases List.mem_append.mp hc with hc | hc
          · have hle'' := (List.pairwise_append.mp hl.order).2.2 c hc ptr List.mem_cons_self
            rw [span_lo] at hle''
            omega
          · rcases List.mem_cons.mp hc with rfl | hc
            · omega
            · exact ⟨c, hc, hle', hlt'⟩
        rcases kmallocObjAddr_back hl hptr hr hcall with hback | ⟨b, hb, hlost⟩
        · exact ((hgrown x).2.mp (hback x hx)).2 ⟨hx₁, hx₂⟩
        · have hle' := (List.pairwise_append.mp hl.order).2.2 b hb ptr List.mem_cons_self
          have hb0 := hl.pos b (List.mem_append_left _ hb)
          rw [span_hi, span_lo] at hle'
          refine hlost ((hgrown b.address).2.mpr ⟨⟨b, List.mem_append_left _ hb, le_rfl, ?_⟩, ?_⟩)
          · rw [span_hi]
            omega
          · omega
  · intro hright
    obtain ⟨a, l', hcall, htakes⟩ := hall hright
    refine ⟨a, l', hcall, ?_⟩
    unfold Obj.Grown
    rw [hP]
    by_cases h0 : a = 0
    · rw [if_pos h0]
      exact htakes.set.null h0
    · rw [if_neg h0]
      obtain ⟨hend, hlo⟩ := hplace hcall h0
      obtain ⟨⟨c, hc, hlo', hhi'⟩, hfree⟩ := htakes.set.taken h0
      rw [hhi hend] at hhi' hfree
      obtain ⟨f, r, rfl⟩ := List.append_of_mem hc
      have hpage := hfirst rfl hend hlo hlo' (by omega)
      rw [hpage] at hlo' hfree
      exact fun x => ⟨fun hx₁ hx₂ => ⟨c, hc, hlo'.trans hx₁, hx₂.trans_le hhi'⟩, hfree x⟩

end Grow

/-! ### The call -/

/-- The object with another size. -/
def Obj.resize (obj : Obj) (n : ℕ) : Obj :=
  { obj with limit := wordAdd obj.base n, info := { obj.info with length := n } }

namespace Mm

/-- `object_resize`: whether it succeeds, and the object. -/
def objectResize (c : HeapConf) (fuel : ℕ) (s : Mm) (obj : Obj) (newSize : ℕ) :
    Option (Bool × Obj × Mm) :=
  let newSize := pageRoundUp c.pageSize newSize
  let objEnd := wordAdd obj.base newSize
  let curSize := obj.info.length
  if pageRoundUp c.pageSize objEnd ≠ pageRoundUp c.pageSize obj.limit then
    if newSize = curSize then some (true, obj.resize newSize, s)
    else if newSize < curSize then
      (s.kfreeObj c fuel objEnd (curSize - newSize)).map fun (ok, s) =>
        if ok then (true, obj.resize newSize, s) else (false, obj, s)
    else
      (s.kmallocObjAddr c fuel obj.limit (newSize - curSize)).map fun (address, s) =>
        if address = 0 then (false, obj, s) else (true, obj.resize newSize, s)
  else some (true, obj.resize newSize, s)

/-- `object_resize` has succeeded: the object has the least size of whole pages, and just the pages
that left it or joined it are free now, or no longer.  Or it has failed, and all is as it was. -/
def Resized (pageSize : ℕ) (s : Mm) (l : List ℕ) (obj : Obj) (newSize : ℕ)
    (r : Bool × Obj × Mm) : Prop :=
  ∃ l', IsChain r.2.2.next r.2.2.freelist l' ∧
    if r.1 then
      r.2.1 = obj.resize (pageCeil pageSize newSize) ∧
      ∀ x, (obj.base + pageCeil pageSize obj.info.length ≤ x →
          x < obj.base + pageCeil pageSize newSize → Free (s.chunks l) x) ∧
        (Free (r.2.2.chunks l') x ↔
          (Free (s.chunks l) x ∨ obj.base + pageCeil pageSize newSize ≤ x ∧
            x < obj.base + pageCeil pageSize obj.info.length) ∧
          ¬ (obj.base + pageCeil pageSize obj.info.length ≤ x ∧
            x < obj.base + pageCeil pageSize newSize))
    else r.2.1 = obj ∧ ∀ x, Free (r.2.2.chunks l') x ↔ Free (s.chunks l) x

end Mm

/-- What `object_resize` does right.  If the size can be rounded up: the object keeps its pages;
`kfree_obj` gets the first chunk of whole pages, does not make the address space one chunk, and has
memory for the first record; or `kmalloc_obj_addr` does right and has memory for its record.  If it
cannot: `kfree_obj` fails for want of memory. -/
def ResizeRight (pageSize : ℕ) (l : List FreeChunk) (hasNode : Prop) (obj : Obj) (newSize : ℕ) :
    Prop :=
  let n := pageCeil pageSize newSize
  let pages := pageCeil pageSize obj.info.length
  if newSize + pageSize ≤ 2 ^ 64 then
    (n < pages → (l = [] → pageSize ∣ obj.info.length ∧ hasNode) ∧
      ¬ Whole l (obj.base + n) (pages - n)) ∧
    (pages < n → AtRight pageSize l obj.limit (n - obj.info.length) ∧
      (Mm.Splits pageSize l obj.limit (n - obj.info.length) → hasNode))
  else l ≠ [] ∧ obj.info.length ≠ 0 ∧ NeedsChunk pageSize l obj.base obj.info.length ∧ ¬ hasNode

section Resize
variable {pageSize : ℕ}

/-- The end of the last page. -/
theorem pageRoundUp_limit (hpos : 0 < pageSize) (hword : pageSize ∣ 2 ^ 64) {base n : ℕ}
    (hdvd : pageSize ∣ base) (hbase : 0 < base) (hend : base + pageCeil pageSize n ≤ 2 ^ 64) :
    pageRoundUp pageSize (wordAdd base n) = wordAdd base (pageCeil pageSize n) := by
  have hceil := pageCeil_spec hpos n
  have hsum : pageCeil pageSize (base + n) = base + pageCeil pageSize n := by
    obtain ⟨m, rfl⟩ := hdvd
    unfold pageCeil
    rw [Nat.add_assoc, Nat.mul_add_div hpos, Nat.add_mul, Nat.mul_comm m]
  by_cases h64 : base + pageCeil pageSize n = 2 ^ 64
  · have hzero : wordAdd base (pageCeil pageSize n) = 0 := by
      rw [wordAdd, h64, Nat.mod_self]
    rw [hzero]
    by_cases hn : base + n = 2 ^ 64
    · rw [wordAdd, hn, Nat.mod_self]
      exact pageRoundUp_of_dvd hpos (by have := Nat.le_of_dvd (by decide) hword; omega)
        (Nat.dvd_zero _)
    · rw [wordAdd_eq (by omega)]
      exact pageRoundUp_of_lt (Nat.le_of_dvd (by decide) hword) (by omega) (by omega)
  · rw [wordAdd_eq (by omega), wordAdd_eq (by omega), ← hsum]
    exact pageRoundUp_eq_pageCeil hpos (add_le_of_pageCeil hpos hword (by omega))

/-- Whole pages taken off a size. -/
theorem pageCeil_sub (hpos : 0 < pageSize) {m n : ℕ} (hdvd : pageSize ∣ n) (hle : n ≤ m) :
    pageCeil pageSize (m - n) = pageCeil pageSize m - n := by
  obtain ⟨k, rfl⟩ := hdvd
  have hm : m = pageSize * k + (m - pageSize * k) := by omega
  generalize m - pageSize * k = d at hm ⊢
  subst hm
  unfold pageCeil
  rw [Nat.add_assoc, Nat.mul_add_div hpos, Nat.add_mul, Nat.mul_comm k, Nat.add_sub_cancel_left]

end Resize

section Call
variable (c : HeapConf) {s : Mm} {l : List ℕ} (h : s.Lists c l) (hlock : s.locked = false)
  (hheap : s.heap.locked = false) {fuel : ℕ} (hfuel : l.length < fuel)
  (hsorted : SortedChunks c.pageSize (s.chunks l)) {obj : Obj}
  (hobj : obj.Placed c.pageSize (s.chunks l))
include h hlock hheap hfuel hsorted hobj

/-- The end of the object moves back. -/
theorem objectResize_smaller {newSize : ℕ}
    (hlt : pageCeil c.pageSize newSize < pageCeil c.pageSize obj.info.length) :
    (∃ r, (s.kfreeObj c fuel (obj.base + pageCeil c.pageSize newSize)
        (obj.info.length - pageCeil c.pageSize newSize)).map (fun (ok, s) =>
          if ok then (true, obj.resize (pageCeil c.pageSize newSize), s) else (false, obj, s)) =
          some r ∧ s.Resized c.pageSize l obj newSize r) ↔
      (s.chunks l = [] → c.pageSize ∣ obj.info.length ∧ Mm.HasNode s.heap) ∧
        ¬ Whole (s.chunks l) (obj.base + pageCeil c.pageSize newSize)
          (pageCeil c.pageSize obj.info.length - pageCeil c.pageSize newSize) := by
  have hpos := c.pageSize_pos
  have hn := dvd_pageCeil c.pageSize newSize
  have hbase := hobj.base_pos
  have hin := hobj.inside
  have hunfold : ∀ r, s.Resized c.pageSize l obj newSize r ↔ ∃ l',
      IsChain r.2.2.next r.2.2.freelist l' ∧
      if r.1 then
        r.2.1 = obj.resize (pageCeil c.pageSize newSize) ∧ ∀ x, Free (r.2.2.chunks l') x ↔
          Free (s.chunks l) x ∨ obj.base + pageCeil c.pageSize newSize ≤ x ∧
            x < obj.base + pageCeil c.pageSize obj.info.length
      else r.2.1 = obj ∧ ∀ x, Free (r.2.2.chunks l') x ↔ Free (s.chunks l) x := by
    intro r
    refine exists_congr fun l' => and_congr_right fun _ => ?_
    split_ifs
    · refine and_congr_right fun _ => forall_congr' fun x => ?_
      rw [and_iff_right (fun _ _ => by omega), and_iff_left (fun hx => by omega)]
    · rfl
  simp only [hunfold]
  have hle : pageCeil c.pageSize newSize < obj.info.length := by
    by_contra hge
    have := pageCeil_le hpos hn (Nat.not_lt.mp hge)
    omega
  have hsub := pageCeil_sub hpos hn hle.le
  have hdvd : c.pageSize ∣ obj.info.length - pageCeil c.pageSize newSize ↔
      c.pageSize ∣ obj.info.length := by
    constructor
    · intro hd
      have hsum := Nat.dvd_add hd hn
      rwa [Nat.sub_add_cancel hle.le] at hsum
    · exact fun hd => Nat.dvd_sub hd hn
  have hset := kfreeObj_set_iff hpos c.pageSize_dvd hsorted
    (show 0 < obj.base + pageCeil c.pageSize newSize by omega)
    (show 0 < obj.info.length - pageCeil c.pageSize newSize by omega) (by omega)
    (fun x hx₁ hx₂ => hobj.apart x (by omega) (by omega))
  have hend : obj.base + pageCeil c.pageSize newSize +
      (pageCeil c.pageSize obj.info.length - pageCeil c.pageSize newSize) =
        obj.base + pageCeil c.pageSize obj.info.length := by omega
  rw [hsub, hend, hdvd] at hset
  have hspec := Mm.kfreeObj_spec h hlock hheap hfuel (obj.base + pageCeil c.pageSize newSize)
    (obj.info.length - pageCeil c.pageSize newSize)
  have hlen : (s.chunks l).length = l.length := List.length_map _
  generalize s.kfreeObj c fuel _ _ = r at hspec
  cases hspec with
  | panic hempty hfull =>
    refine iff_of_false nofun fun hright => hfull (hright.1 ?_).2
    rw [hempty]
    rfl
  | noNode hne hfull hgrows =>
    refine iff_of_true ⟨_, rfl, l, h.chain, rfl, fun x => Iff.rfl⟩ ⟨fun hnil => ?_, ?_⟩
    · exact absurd (List.map_eq_nil_iff.mp hnil) hne
    · refine hset.2 (length_kfreeObj.mp ?_)
      rw [hgrows, hlen]
      exact Nat.succ_ne_self _
  | done s' l' _ _ hchain hchunks _ hnode =>
    have hfirst : s.chunks l = [] → Mm.HasNode s.heap := by
      intro hnil
      refine hnode.resolve_right fun hsame => ?_
      rw [hnil] at hchunks
      have hone : l'.length = 1 := by
        rw [← List.length_map (f := fun p => (s'.node p).chunk)]
        exact congrArg List.length hchunks
      rw [hnil] at hlen
      rw [hone, ← hlen] at hsame
      cases hsame
    have hright : (s.chunks l = [] → c.pageSize ∣ obj.info.length ∧ Mm.HasNode s.heap) ↔
        (s.chunks l = [] → c.pageSize ∣ obj.info.length) :=
      forall_congr' fun hnil => and_iff_left (hfirst hnil)
    rw [hright, ← hset.1, ← hchunks]
    constructor
    · rintro ⟨_, ⟨⟩, l'', hchain'', -, hfree⟩
      obtain rfl := hchain.unique hchain''
      exact hfree
    · exact fun hfree => ⟨_, rfl, l', hchain, rfl, hfree⟩

/-- The end of the object moves on. -/
theorem objectResize_larger {newSize : ℕ} (hword : pageCeil c.pageSize newSize < 2 ^ 64)
    (hlt : pageCeil c.pageSize obj.info.length < pageCeil c.pageSize newSize) :
    (∃ r, (s.kmallocObjAddr c fuel obj.limit
        (pageCeil c.pageSize newSize - obj.info.length)).map (fun (address, s) =>
          if address = 0 then (false, obj, s)
          else (true, obj.resize (pageCeil c.pageSize newSize), s)) = some r ∧
        s.Resized c.pageSize l obj newSize r) ↔
      AtRight c.pageSize (s.chunks l) obj.limit (pageCeil c.pageSize newSize - obj.info.length) ∧
        (Mm.Splits c.pageSize (s.chunks l) obj.limit
          (pageCeil c.pageSize newSize - obj.info.length) → Mm.HasNode s.heap) := by
  have hgrown := grown_iff c.pageSize_pos hobj c.pageSize_dvd hsorted hword
    (dvd_pageCeil c.pageSize newSize) hlt
  rcases Mm.kmallocObjAddr_spec h hlock hheap hfuel obj.limit
      (pageCeil c.pageSize newSize - obj.info.length) with
    ⟨hnone, hwhy⟩ | ⟨hnode, a, s', l', hcall, -, -, hchain, -, hchunks⟩
  · rw [hnone]
    refine iff_of_false nofun fun ⟨hright, hnode⟩ => ?_
    rcases hwhy with hlost | ⟨hsplits, hfull⟩
    · obtain ⟨a, l', hsome, -⟩ := hgrown.mpr hright
      rw [hlost] at hsome
      cases hsome
    · exact hfull (hnode hsplits)
  · rw [hcall, Option.map_some, and_iff_left hnode, ← hgrown, hchunks]
    have hiff : s.Resized c.pageSize l obj newSize
        (if a = 0 then (false, obj, s')
          else (true, obj.resize (pageCeil c.pageSize newSize), s')) ↔
        obj.Grown c.pageSize (s.chunks l) (pageCeil c.pageSize newSize) a (s'.chunks l') := by
      unfold Mm.Resized Obj.Grown
      by_cases h0 : a = 0
      · rw [if_pos h0, if_pos h0]
        constructor
        · rintro ⟨l'', hchain'', -, hfree⟩
          obtain rfl := hchain.unique hchain''
          exact hfree
        · exact fun hfree => ⟨l', hchain, rfl, hfree⟩
      · rw [if_neg h0, if_neg h0]
        have hnone : ∀ x, (Free (s.chunks l) x ∨ obj.base + pageCeil c.pageSize newSize ≤ x ∧
            x < obj.base + pageCeil c.pageSize obj.info.length) ↔ Free (s.chunks l) x :=
          fun x => or_iff_left fun hx => by omega
        constructor
        · rintro ⟨l'', hchain'', -, hfree⟩ x
          obtain rfl := hchain.unique hchain''
          have hx := hfree x
          rwa [hnone] at hx
        · intro hfree
          refine ⟨l', hchain, rfl, fun x => ?_⟩
          rw [hnone]
          exact hfree x
    constructor
    · rintro ⟨_, ⟨⟩, hresized⟩
      exact ⟨a, _, rfl, hiff.mp hresized⟩
    · rintro ⟨_, _, ⟨⟩, hfree⟩
      exact ⟨_, rfl, hiff.mpr hfree⟩

omit hsorted hobj in
/-- A size that cannot be rounded up is taken for 0. -/
theorem objectResize_huge {newSize : ℕ} (hpos : 0 < pageCeil c.pageSize newSize) :
    (∃ r, (s.kfreeObj c fuel obj.base obj.info.length).map (fun (ok, s) =>
          if ok then (true, obj.resize 0, s) else (false, obj, s)) = some r ∧
        s.Resized c.pageSize l obj newSize r) ↔
      s.chunks l ≠ [] ∧ NeedsChunk c.pageSize (s.chunks l) obj.base obj.info.length ∧
        ¬ Mm.HasNode s.heap := by
  have hspec := Mm.kfreeObj_spec h hlock hheap hfuel obj.base obj.info.length
  have hlen : (s.chunks l).length = l.length := List.length_map _
  rw [← length_kfreeObj, hlen]
  generalize s.kfreeObj c fuel _ _ = r at hspec
  cases hspec with
  | panic hempty hfull =>
    refine iff_of_false nofun fun hright => hright.1 ?_
    rw [hempty]
    rfl
  | noNode hne hfull hgrows =>
    refine iff_of_true ⟨_, rfl, l, h.chain, rfl, fun x => Iff.rfl⟩ ⟨fun hnil => ?_, ?_, hfull⟩
    · exact hne (List.map_eq_nil_iff.mp hnil)
    · rw [hgrows]
      exact Nat.succ_ne_self _
  | done s' l' _ _ hchain hchunks _ hnode =>
    refine iff_of_false ?_ ?_
    · rintro ⟨_, ⟨⟩, _, -, hsize, -⟩
      have hzero : 0 = pageCeil c.pageSize newSize := congrArg (fun o => o.info.length) hsize
      omega
    · rintro ⟨-, hneeds, hfull⟩
      rw [← hchunks, Mm.chunks, List.length_map] at hneeds
      exact hneeds (hnode.resolve_left hfull)

end Call

/-- **Resizing an object.**  The object may be any with its pages in place, the free list any in
order, and the size any word.  `object_resize` is exact and atomic just as `ResizeRight` says. -/
theorem object_resize_iff (c : HeapConf) {s : Mm} {l : List ℕ} (h : s.Lists c l)
    (hlock : s.locked = false) (hheap : s.heap.locked = false) {fuel : ℕ} (hfuel : l.length < fuel)
    (hsorted : SortedChunks c.pageSize (s.chunks l)) {obj : Obj}
    (hobj : obj.Placed c.pageSize (s.chunks l)) {newSize : ℕ} (hnew : newSize < 2 ^ 64) :
    (∃ r, s.objectResize c fuel obj newSize = some r ∧ s.Resized c.pageSize l obj newSize r) ↔
      ResizeRight c.pageSize (s.chunks l) (Mm.HasNode s.heap) obj newSize := by
  have hpos := c.pageSize_pos
  have hword := c.pageSize_dvd
  have hbase := hobj.base_pos
  have hin := hobj.inside
  obtain ⟨hlen, hle⟩ := hobj.length_le hpos
  have hold : pageRoundUp c.pageSize obj.limit =
      wordAdd obj.base (pageCeil c.pageSize obj.info.length) := by
    rw [hobj.limit]
    exact pageRoundUp_limit hpos hword hobj.base_dvd hbase hin
  unfold Mm.objectResize ResizeRight
  dsimp only
  by_cases hround : newSize + c.pageSize ≤ 2 ^ 64
  · have hceil := pageCeil_spec hpos newSize
    have hdvd : c.pageSize ∣ wordAdd obj.base (pageCeil c.pageSize newSize) :=
      (Nat.dvd_mod_iff hword).mpr (Nat.dvd_add hobj.base_dvd (dvd_pageCeil ..))
    have hnewPage := pageRoundUp_of_dvd hpos
      (add_le_of_dvd hword hdvd (Nat.mod_lt _ (by decide))) hdvd
    rw [if_pos hround, pageRoundUp_eq_pageCeil hpos hround, hnewPage, hold]
    by_cases hsame : pageCeil c.pageSize newSize = pageCeil c.pageSize obj.info.length
    · rw [if_neg (by rw [hsame]; exact fun hne => hne rfl)]
      refine iff_of_true ⟨_, rfl, l, h.chain, rfl, fun x => ⟨fun _ _ => by omega, ?_⟩⟩
        ⟨fun hlt => by omega, fun hlt => by omega⟩
      rw [or_iff_left (fun hx => by omega), and_iff_left (fun hx => by omega)]
    · have hpages : wordAdd obj.base (pageCeil c.pageSize newSize) ≠
          wordAdd obj.base (pageCeil c.pageSize obj.info.length) := by
        unfold wordAdd
        omega
      rw [if_pos hpages]
      rcases Nat.lt_or_gt_of_ne hsame with hlt | hlt
      · have hlt' : pageCeil c.pageSize newSize < obj.info.length := by
          by_contra hge
          have := pageCeil_le hpos (dvd_pageCeil c.pageSize newSize) (Nat.not_lt.mp hge)
          omega
        rw [if_neg hlt'.ne, if_pos hlt', wordAdd_eq (by omega),
          and_iff_left (fun hgt => by omega), forall_prop_of_true hlt]
        exact objectResize_smaller c h hlock hheap hfuel hsorted hobj hlt
      · rw [if_neg (by omega), if_neg (by omega), and_iff_right (fun hgt => by omega),
          forall_prop_of_true hlt]
        exact objectResize_larger c h hlock hheap hfuel hsorted hobj (by omega) hlt
  · have hceil := pageCeil_spec hpos newSize
    have hpagesize := Nat.le_of_dvd (by decide) hword
    have hzero : wordAdd obj.base 0 = obj.base := wordAdd_eq hobj.base_lt
    rw [if_neg hround, pageRoundUp_of_lt hpagesize hnew (Nat.lt_of_not_le hround), hzero, hold,
      pageRoundUp_of_dvd hpos (add_le_of_dvd hword hobj.base_dvd hobj.base_lt) hobj.base_dvd]
    by_cases hempty : obj.info.length = 0
    · have hno : pageCeil c.pageSize obj.info.length = 0 := by
        rw [hempty]
        exact pageCeil_of_dvd hpos (Nat.dvd_zero _)
      rw [hno, hzero, if_neg (fun hne => hne rfl)]
      refine iff_of_false ?_ fun hright => hright.2.1 hempty
      rintro ⟨_, ⟨⟩, _, -, hsize, -⟩
      have hzero' : 0 = pageCeil c.pageSize newSize := congrArg (fun o => o.info.length) hsize
      omega
    · have hpages : obj.base ≠ wordAdd obj.base (pageCeil c.pageSize obj.info.length) := by
        unfold wordAdd
        omega
      rw [if_pos hpages, if_neg (Ne.symm hempty), if_pos (Nat.pos_of_ne_zero hempty), Nat.sub_zero,
        and_iff_right hempty]
      exact objectResize_huge c h hlock hheap hfuel (by omega)

/-- An object in the memory of the two chunks. -/
def someObject (base length : ℕ) : Obj := objectInit blankInfo base length 22

/-- Two pages above the chunks, the second of which is used in part. -/
theorem someObject_placed : (someObject 0x5000 0x1800).Placed smallHeap.pageSize
    (twoChunks.chunks [2 ^ 32 + 4104, 2 ^ 32 + 4136]) := by
  refine ⟨by decide, by decide, by decide, by decide, by decide, fun x hx _ => ?_⟩
  rw [twoChunks_chunks]
  exact twoChunks_above (Nat.le_trans (by decide) hx)

/-- The second page is given back. -/
theorem object_resize_back : ∃ r,
    twoChunks.objectResize smallHeap 3 (someObject 0x5000 0x1800) 0xc00 = some r ∧
      twoChunks.Resized smallHeap.pageSize [2 ^ 32 + 4104, 2 ^ 32 + 4136]
        (someObject 0x5000 0x1800) 0xc00 r := by
  refine (object_resize_iff smallHeap twoChunks_lists rfl (by decide +kernel) (by decide : _ < 3)
    twoChunks_sorted' someObject_placed (by decide : 0xc00 < 2 ^ 64)).mpr ?_
  unfold ResizeRight
  dsimp only
  rw [if_pos (by decide), twoChunks_chunks]
  refine ⟨fun _ => ⟨nofun, ?_⟩, fun hlt => absurd hlt (by decide)⟩
  rintro ⟨⟨a, ha, hlo, -⟩, -⟩
  revert a
  decide

/-- An object that does not end at a page, with a free chunk in front of it, grows over a page that
stays free. -/
theorem object_resize_over : ¬ ∀ (c : HeapConf) (s : Mm) (l : List ℕ) (fuel : ℕ) (obj : Obj)
    (newSize : ℕ) (r : Bool × Obj × Mm), s.Lists c l → s.locked = false → s.heap.locked = false →
    l.length < fuel → SortedChunks c.pageSize (s.chunks l) → obj.Placed c.pageSize (s.chunks l) →
    newSize < 2 ^ 64 → s.objectResize c fuel obj newSize = some r →
    s.Resized c.pageSize l obj newSize r := by
  intro h
  have hcall : (twoChunks.objectResize smallHeap 3 (someObject 0x2000 0x800) 0x2000).map
      (fun r => (r.1, r.2.2.freelist, r.2.2.next (2 ^ 32 + 4104), r.2.2.next (2 ^ 32 + 4136),
        r.2.2.chunks [2 ^ 32 + 4104, 2 ^ 32 + 4136])) =
      some (true, 2 ^ 32 + 4104, 2 ^ 32 + 4136, 0, [⟨0x1000, 0x1000⟩, ⟨0x3000, 0x1000⟩]) := by
    decide +kernel
  obtain ⟨⟨ok, obj, s'⟩, hr, hfacts⟩ := Option.map_eq_some_iff.mp hcall
  simp only [Prod.mk.injEq] at hfacts
  obtain ⟨rfl, hhead, hnext, hend, hchunks⟩ := hfacts
  have hplaced : (someObject 0x2000 0x800).Placed smallHeap.pageSize
      (twoChunks.chunks [2 ^ 32 + 4104, 2 ^ 32 + 4136]) := by
    refine ⟨by decide, by decide, by decide, by decide, by decide, fun x hlo hhi => ?_⟩
    have hceil : pageCeil smallHeap.pageSize (someObject 0x2000 0x800).info.length = 0x1000 := by
      decide
    have hbase : (someObject 0x2000 0x800).base = 0x2000 := rfl
    rw [twoChunks_chunks]
    rintro ⟨c, hc, hle, hlt⟩
    rw [span_lo] at hle
    rw [span_hi] at hlt
    simp only [List.mem_cons, List.not_mem_nil, or_false] at hc
    rcases hc with rfl | rfl <;> dsimp only at hle hlt <;> omega
  obtain ⟨l', hchain', hsize, hfree⟩ := h smallHeap twoChunks _ 3 _ _ _ twoChunks_lists rfl
    (by decide +kernel) (by decide) twoChunks_sorted' hplaced (by decide) hr
  have hchain : IsChain s'.next s'.freelist [2 ^ 32 + 4104, 2 ^ 32 + 4136] :=
    ⟨hhead, by decide, hnext, by decide, hend⟩
  obtain rfl := hchain.unique hchain'
  dsimp only at hfree
  rw [hchunks] at hfree
  have hpage := (hfree 0x3000).2.mp ⟨⟨0x3000, 0x1000⟩, by simp, by decide, by decide⟩
  exact hpage.2 (by decide)

end Mungi
