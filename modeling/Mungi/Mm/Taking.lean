import Mungi.Mm.Freeing

/-!
# Allocating object memory

`kmalloc_obj` takes the front of the first chunk that is large enough, and `kmalloc_obj_addr` the
pages from an address on, for an object that grows.  Both lists are in order.

## Main definitions

* `TakesFirst`, `FirstRight` — what `kmalloc_obj` is to do, and when it does.
* `TakesAt`, `AtRight` — the same of `kmalloc_obj_addr`.

## Main results

* `kmalloc_obj_iff`, `kmalloc_obj_addr_iff` — **they do right just then.**
-/

namespace Mungi

open Chain

section Lists
variable {pageSize : ℕ} {l f r : List FreeChunk} {c : FreeChunk} {x : ℕ}

/-- A chunk of a list in order has no address in common with the others. -/
theorem SortedChunks.free_rest (h : SortedChunks pageSize (f ++ c :: r)) (hx : c.span.Has x) :
    ¬ Free (f ++ r) x := by
  obtain ⟨-, h₂, h₁₂⟩ := List.pairwise_append.mp h.order
  obtain ⟨hlo, hhi⟩ := hx
  rw [free_append]
  rintro (⟨a, ha, -, hlt⟩ | ⟨b, hb, hle, -⟩)
  · have horder := h₁₂ a ha c List.mem_cons_self
    omega
  · have horder := (List.pairwise_cons.mp h₂).1 b hb
    omega

/-- Chunks that lie in one chunk of a list in order take its place. -/
theorem SortedChunks.replace (h : SortedChunks pageSize (f ++ c :: r)) {m : List FreeChunk}
    (hm : SortedChunks pageSize m) (hlo : ∀ a ∈ m, c.span.lo ≤ a.span.lo)
    (hhi : ∀ a ∈ m, a.span.hi ≤ c.span.hi) : SortedChunks pageSize (f ++ (m ++ r)) := by
  have hall : ∀ {P : FreeChunk → Prop}, (∀ a ∈ m, P a) → (∀ a ∈ f ++ c :: r, P a) →
      ∀ a ∈ f ++ (m ++ r), P a := by
    intro P hPm hP a ha
    rcases List.mem_append.mp ha with ha | ha
    · exact hP a (List.mem_append_left _ ha)
    · rcases List.mem_append.mp ha with ha | ha
      · exact hPm a ha
      · exact hP a (List.mem_append_right _ (List.mem_cons_of_mem _ ha))
  obtain ⟨h₁, h₂, h₁₂⟩ := List.pairwise_append.mp h.order
  obtain ⟨hcr, hr⟩ := List.pairwise_cons.mp h₂
  refine ⟨hall hm.pages h.pages, hall hm.pos h.pos, hall hm.inside h.inside, ?_⟩
  refine List.pairwise_append.mpr ⟨h₁, List.pairwise_append.mpr ⟨hm.order, hr, ?_⟩, ?_⟩
  · exact fun a ha b hb => (hhi a ha).trans (hcr b hb)
  · intro a ha b hb
    rcases List.mem_append.mp hb with hb | hb
    · exact (h₁₂ a ha c List.mem_cons_self).trans (hlo b hb)
    · exact h₁₂ a ha b (List.mem_cons_of_mem _ hb)

/-- The addresses from `lo` to `hi` as a chunk, if there are any. -/
def piece (lo hi : ℕ) : List FreeChunk := if lo = hi then [] else [⟨lo, hi - lo⟩]

theorem mem_piece {lo hi : ℕ} (hle : lo ≤ hi) (hc : c ∈ piece lo hi) :
    c.span.lo = lo ∧ c.span.hi = hi := by
  unfold piece at hc
  split_ifs at hc with heq
  · cases hc
  · obtain rfl := List.mem_singleton.mp hc
    exact ⟨rfl, by rw [span_hi]; dsimp only; omega⟩

theorem free_piece {lo hi : ℕ} (hle : lo ≤ hi) : Free (piece lo hi) x ↔ lo ≤ x ∧ x < hi := by
  constructor
  · rintro ⟨c, hc, hx⟩
    obtain ⟨hlo, hhi⟩ := mem_piece hle hc
    exact ⟨hlo ▸ hx.1, hhi ▸ hx.2⟩
  · intro hx
    unfold piece
    rw [if_neg (by omega)]
    exact ⟨_, List.mem_singleton_self _, hx.1, by rw [span_hi]; dsimp only; omega⟩

theorem sorted_piece {lo hi : ℕ} (hle : lo ≤ hi) (hlo : pageSize ∣ lo) (hhi : pageSize ∣ hi)
    (hend : hi ≤ 2 ^ 64) (hsize : hi - lo < 2 ^ 64) : SortedChunks pageSize (piece lo hi) := by
  unfold piece
  split_ifs with heq
  · exact ⟨nofun, nofun, nofun, .nil⟩
  · refine ⟨?_, ?_, ?_, List.pairwise_singleton ..⟩ <;> intro c hc <;>
      obtain rfl := List.mem_singleton.mp hc
    · exact ⟨hlo, Nat.dvd_sub hhi hlo⟩
    · dsimp only
      omega
    · rw [span_hi]
      dsimp only
      omega

/-- **A chunk cut out of a list in order**, with what is left of it in front and behind. -/
theorem SortedChunks.cut (h : SortedChunks pageSize (f ++ c :: r)) {lo hi : ℕ}
    (hlo : c.span.lo ≤ lo) (hlohi : lo ≤ hi) (hhi : hi ≤ c.span.hi) (hdvd : pageSize ∣ lo)
    (hdvd' : pageSize ∣ hi) :
    SortedChunks pageSize (f ++ (piece c.span.lo lo ++ piece hi c.span.hi ++ r)) ∧
      ∀ x, Free (f ++ (piece c.span.lo lo ++ piece hi c.span.hi ++ r)) x ↔
        Free (f ++ c :: r) x ∧ ¬ (lo ≤ x ∧ x < hi) := by
  have hpages := h.pages c (by simp)
  have hpos := h.pos c (by simp)
  have hin := h.inside c (by simp)
  have hspan : c.span.hi - c.span.lo = c.size := Nat.add_sub_cancel_left ..
  have hfront := sorted_piece hlo hpages.1 hdvd (by omega) (by omega)
  have hback := sorted_piece hhi hdvd' (Nat.dvd_add hpages.1 hpages.2) hin (by omega)
  constructor
  · refine h.replace ⟨?_, ?_, ?_, ?_⟩ ?_ ?_
    · exact List.forall_mem_append.mpr ⟨hfront.pages, hback.pages⟩
    · exact List.forall_mem_append.mpr ⟨hfront.pos, hback.pos⟩
    · exact List.forall_mem_append.mpr ⟨hfront.inside, hback.inside⟩
    · refine List.pairwise_append.mpr ⟨hfront.order, hback.order, fun a ha b hb => ?_⟩
      rw [(mem_piece hlo ha).2, (mem_piece hhi hb).1]
      exact hlohi
    · refine List.forall_mem_append.mpr ⟨fun a ha => ?_, fun b hb => ?_⟩
      · exact (mem_piece hlo ha).1.ge
      · exact (hlo.trans hlohi).trans (mem_piece hhi hb).1.ge
    · refine List.forall_mem_append.mpr ⟨fun a ha => ?_, fun b hb => ?_⟩
      · exact (mem_piece hlo ha).2.le.trans (hlohi.trans hhi)
      · exact (mem_piece hhi hb).2.le
  · intro x
    have hother : Free (f ++ r) x → ¬ (lo ≤ x ∧ x < hi) := fun hfree hx =>
      h.free_rest (x := x) ⟨hlo.trans hx.1, Nat.lt_of_lt_of_le hx.2 hhi⟩ hfree
    rw [free_append] at hother
    rw [free_append, free_append, free_append, free_append, free_cons, free_piece hlo,
      free_piece hhi]
    unfold Spans.Span.Has
    constructor
    · rintro (hf | (hp | hp) | hr)
      · exact ⟨Or.inl hf, hother (Or.inl hf)⟩
      · exact ⟨Or.inr (Or.inl (by omega)), by omega⟩
      · exact ⟨Or.inr (Or.inl (by omega)), by omega⟩
      · exact ⟨Or.inr (Or.inr hr), hother (Or.inr hr)⟩
    · rintro ⟨hf | hc | hr, hx⟩
      · exact Or.inl hf
      · exact Or.inr (Or.inl (by omega))
      · exact Or.inr (Or.inr hr)

end Lists

/-! ### First fit -/

/-- `kmalloc_obj` returns the address `a` and leaves the list `l'`: nothing if nothing is asked for
or no chunk is large enough, and otherwise the front of the first chunk that is. -/
structure TakesFirst (pageSize : ℕ) (l : List FreeChunk) (size a : ℕ) (l' : List FreeChunk) :
    Prop where
  null : size = 0 ∨ (∀ c ∈ l, c.size < size) → a = 0 ∧ l' = l
  first : size ≠ 0 → (∃ c ∈ l, size ≤ c.size) → ∃ f c r, l = f ++ c :: r ∧
    (∀ b ∈ f, b.size < size) ∧ size ≤ c.size ∧ a = c.address ∧ a ≠ 0 ∧
      l' = f ++ (piece (a + pageCeil pageSize size) c.span.hi ++ r) ∧ SortedChunks pageSize l' ∧
        ∀ x, Free l' x ↔ Free l x ∧ ¬ (a ≤ x ∧ x < a + pageCeil pageSize size)

/-- What `kmalloc_obj` does right: no chunk at address 0 is large enough.  A size that cannot be
rounded up is taken for 0, so that the first chunk must be at address 0. -/
def FirstRight (pageSize : ℕ) (l : List FreeChunk) (size : ℕ) : Prop :=
  size = 0 ∨ l = [] ∨
    if size + pageSize ≤ 2 ^ 64 then ∀ c ∈ l, c.address = 0 → c.size < size
    else ∃ c ∈ l, c.address = 0

/-- A size so large that it is rounded up to 0. -/
theorem pageRoundUp_of_lt {pageSize size : ℕ} (hle : pageSize ≤ 2 ^ 64) (hsize : size < 2 ^ 64)
    (hbig : 2 ^ 64 < size + pageSize) : pageRoundUp pageSize size = 0 := by
  unfold pageRoundUp wordAdd
  rw [Nat.mod_eq_sub_mod (by omega), Nat.mod_eq_of_lt (by omega), Nat.div_eq_of_lt (by omega),
    Nat.zero_mul]

section First
variable {pageSize size : ℕ} (hpos : 0 < pageSize) (hword : pageSize ∣ 2 ^ 64) {l : List FreeChunk}
  (hl : SortedChunks pageSize l)
include hl

/-- Nothing lies in front of a chunk at address 0. -/
theorem SortedChunks.zero_mem_left {f r : List FreeChunk} {c b : FreeChunk} (heq : l = f ++ c :: r)
    (hc : c.address ≠ 0) (hb : b ∈ l) (h0 : b.address = 0) : b ∈ f := by
  subst heq
  rcases List.mem_append.mp hb with hb | hb
  · exact hb
  · rcases List.mem_cons.mp hb with rfl | hb
    · exact absurd h0 hc
    · have hle := (List.pairwise_cons.mp (List.pairwise_append.mp hl.order).2.1).1 b hb
      rw [span_hi, span_lo] at hle
      omega

include hpos hword in
/-- **When `kmalloc_obj` does right**, on the chunks. -/
theorem kmallocObj_first_iff (hsize : size < 2 ^ 64) :
    TakesFirst pageSize l size (kmallocObj pageSize l size).1 (kmallocObj pageSize l size).2 ↔
      FirstRight pageSize l size := by
  unfold kmallocObj
  by_cases hnil : l = []
  · subst hnil
    rw [if_pos rfl]
    refine iff_of_true ⟨fun _ => ⟨rfl, rfl⟩, ?_⟩ (Or.inr (Or.inl rfl))
    rintro _ ⟨_, hc, _⟩
    cases hc
  rw [if_neg hnil]
  by_cases h0 : size = 0
  · rw [if_pos h0]
    exact iff_of_true ⟨fun _ => ⟨rfl, rfl⟩, fun hne => absurd h0 hne⟩ (Or.inl h0)
  rw [if_neg h0]
  unfold FirstRight
  rw [or_iff_right h0, or_iff_right hnil]
  have hwhole : ∀ c ∈ l, c.size + pageSize ≤ 2 ^ 64 := fun c hc =>
    add_le_of_dvd hword (hl.pages c hc).2 (hl.pos c hc).2
  by_cases hround : size + pageSize ≤ 2 ^ 64
  · rw [if_pos hround, pageRoundUp_eq_pageCeil hpos hround]
    have hceil := pageCeil_spec hpos size
    have hfits : ∀ c ∈ l, size ≤ c.size ↔ pageCeil pageSize size ≤ c.size := fun c hc =>
      ⟨pageCeil_le hpos (hl.pages c hc).2, hceil.1.trans⟩
    by_cases hex : ∃ c ∈ l, size ≤ c.size
    · obtain ⟨f, c, r, rfl, hfront, hc⟩ : ∃ f c r, l = f ++ c :: r ∧ (∀ b ∈ f, b.size < size) ∧
          size ≤ c.size := by
        obtain ⟨f, back, rfl, hfront, hback⟩ := exists_first (fun c => size ≤ c.size) l
        obtain ⟨c, hc, hle⟩ := hex
        rcases List.mem_append.mp hc with hc | hc
        · exact absurd hle (hfront c hc)
        · obtain ⟨first, r, rfl⟩ := List.exists_cons_of_ne_nil (List.ne_nil_of_mem hc)
          exact ⟨f, first, r, rfl, fun b hb => Nat.lt_of_not_le (hfront b hb), hback first rfl⟩
      have hmem : c ∈ f ++ c :: r := by simp
      have hin := hl.inside c hmem
      have hc0 := hl.pos c hmem
      have hc' := (hfits c hmem).mp hc
      rw [span_hi] at hin
      have hfit : firstFit (pageCeil pageSize size) (f ++ c :: r) = some (c.address,
          f ++ (piece (c.address + pageCeil pageSize size) c.span.hi ++ r)) := by
        rw [firstFit_append fun b hb => (hfront b hb).trans_le hceil.1, firstFit, if_pos hc']
        unfold piece
        rw [span_hi]
        by_cases hexact : c.size = pageCeil pageSize size
        · rw [if_neg (not_not.mpr hexact), if_pos (by omega)]
          rfl
        · rw [if_pos hexact, if_neg (by omega), wordAdd_eq (by omega), wordSub_of_le hc' hc0.2,
            Nat.add_sub_add_left]
          rfl
      rw [hfit, Option.getD_some]
      dsimp only
      constructor
      · intro h b hb hzero
        obtain ⟨-, -, -, -, -, -, -, hne, -⟩ := h.first h0 hex
        exact hfront b (hl.zero_mem_left rfl hne hb hzero)
      · intro hright
        have hne : c.address ≠ 0 := fun hzero => absurd (hright c hmem hzero) (Nat.not_lt.mpr hc)
        have hhi : c.address + pageCeil pageSize size ≤ c.span.hi := by
          rw [span_hi]
          omega
        obtain ⟨hsorted, hfree⟩ := hl.cut (Nat.le_refl c.address) (Nat.le_add_right ..) hhi
          (hl.pages c hmem).1 (Nat.dvd_add (hl.pages c hmem).1 (dvd_pageCeil ..))
        have hnone : piece c.span.lo c.address = [] := if_pos rfl
        rw [hnone, List.nil_append] at hsorted hfree
        refine ⟨fun hnull => ?_,
          fun _ _ => ⟨f, c, r, rfl, hfront, hc, rfl, hne, rfl, hsorted, hfree⟩⟩
        rcases hnull with hzero | hnull
        · exact absurd hzero h0
        · exact absurd hc (Nat.not_le.mpr (hnull c hmem))
    · have hsmall : ∀ c ∈ l, c.size < size := fun c hc =>
        Nat.lt_of_not_le fun hle => hex ⟨c, hc, hle⟩
      have hnone : firstFit (pageCeil pageSize size) l = none := by
        have h := firstFit_append (fun c hc => (hsmall c hc).trans_le hceil.1) []
        rwa [List.append_nil] at h
      rw [hnone, Option.getD_none]
      exact iff_of_true ⟨fun _ => ⟨rfl, rfl⟩, fun _ h => absurd h hex⟩ fun c hc _ => hsmall c hc
  · rw [if_neg hround, pageRoundUp_of_lt (Nat.le_of_dvd (by decide) hword) hsize
      (Nat.lt_of_not_le hround)]
    have hsmall : ∀ c ∈ l, c.size < size := fun c hc => by
      have := hwhole c hc
      omega
    obtain ⟨first, rest, rfl⟩ := List.exists_cons_of_ne_nil hnil
    have hfirst := hl.pos first List.mem_cons_self
    have hin := hl.inside first List.mem_cons_self
    rw [span_hi] at hin
    have hfit : firstFit 0 (first :: rest) = some (first.address, first :: rest) := by
      rw [firstFit, if_pos (Nat.zero_le _), if_pos hfirst.1.ne', wordAdd_eq (by omega),
        wordSub_of_le (Nat.zero_le _) hfirst.2]
      rfl
    rw [hfit, Option.getD_some]
    dsimp only
    constructor
    · intro h
      exact ⟨first, List.mem_cons_self, (h.null (Or.inr hsmall)).1⟩
    · rintro ⟨c, hc, hzero⟩
      have hz : first.address = 0 := by
        by_contra hne
        have hmem := hl.zero_mem_left (f := []) rfl hne hc hzero
        cases hmem
      refine ⟨fun _ => ⟨hz, rfl⟩, ?_⟩
      rintro _ ⟨c, hc, hle⟩
      exact absurd hle (Nat.not_le.mpr (hsmall c hc))

end First

/-! ### At an address -/

/-- All addresses from `lo` to `hi` lie in one chunk. -/
def InOne (l : List FreeChunk) (lo hi : ℕ) : Prop := ∃ c ∈ l, c.span.lo ≤ lo ∧ hi ≤ c.span.hi

/-- `kmalloc_obj_addr` returns the address `a` and leaves the list `l'`: without the pages from
`lo` to `hi` if they lie in one chunk, and otherwise as it was. -/
structure TakesAt (pageSize lo hi : ℕ) (l : List FreeChunk) (a : ℕ) (l' : List FreeChunk) :
    Prop where
  null : ¬ InOne l lo hi → a = 0 ∧ l' = l
  taken : InOne l lo hi → a ≠ 0 ∧ SortedChunks pageSize l' ∧
    (∀ b ∈ l, ¬ (b.span.lo ≤ lo ∧ hi ≤ b.span.hi) → b ∈ l') ∧
      ∀ x, Free l' x ↔ Free l x ∧ ¬ (lo ≤ x ∧ x < hi)

/-- The same of the free addresses alone. -/
structure TakesSet (lo hi : ℕ) (l : List FreeChunk) (a : ℕ) (l' : List FreeChunk) : Prop where
  null : a = 0 → ∀ x, Free l' x ↔ Free l x
  taken : a ≠ 0 → InOne l lo hi ∧ ∀ x, Free l' x ↔ Free l x ∧ ¬ (lo ≤ x ∧ x < hi)

theorem TakesAt.set {pageSize lo hi a : ℕ} {l l' : List FreeChunk}
    (h : TakesAt pageSize lo hi l a l') : TakesSet lo hi l a l' := by
  constructor
  · intro h0 x
    have hout : ¬ InOne l lo hi := fun hin => (h.taken hin).1 h0
    rw [(h.null hout).2]
  · intro hne
    have hin : InOne l lo hi := by
      by_contra hout
      exact hne (h.null hout).1
    exact ⟨hin, (h.taken hin).2.2.2⟩

/-- What `kmalloc_obj_addr` does right.  At address 0 it must not find what it looks for.  Elsewhere
no chunk lies at the address or in front of it; or the pages lie in one, are as many as the size is
rounded up to, are not all of it, and if it ends with the address space so do they. -/
def AtRight (pageSize : ℕ) (l : List FreeChunk) (address size : ℕ) : Prop :=
  let lo := pageRoundDown pageSize address
  let hi := pageCeil pageSize (address + size)
  let n := pageRoundUp pageSize size
  if lo = 0 then n = 0 ∨ ∀ c ∈ l, c.address = 0 → c.size < n
  else (∀ c ∈ l, lo < c.address) ∨
    ∃ c ∈ l, c.span.lo ≤ lo ∧ hi ≤ c.span.hi ∧ lo + n = hi ∧ (c.span.lo = lo → hi ≠ c.span.hi) ∧
      (c.span.hi = 2 ^ 64 → hi = 2 ^ 64)

theorem wordSub_self (a : ℕ) : wordSub a a = 0 := by
  unfold wordSub
  omega

/-- The chunks at an address or in front of it, and those behind it. -/
theorem SortedChunks.exists_behind {pageSize : ℕ} {l : List FreeChunk}
    (hl : SortedChunks pageSize l) (lo : ℕ) : ∃ front r, l = front ++ r ∧
      (∀ c ∈ front, c.address ≤ lo) ∧ ∀ c ∈ r, lo < c.address := by
  obtain ⟨front, r, rfl, hfront, hback⟩ := exists_first (fun c => lo < c.address) l
  refine ⟨front, r, rfl, fun c hc => Nat.not_lt.mp (hfront c hc), fun c hc => ?_⟩
  obtain ⟨first, rest, rfl⟩ := List.exists_cons_of_ne_nil (List.ne_nil_of_mem hc)
  have hfirst := hback first rfl
  rcases List.mem_cons.mp hc with rfl | hc
  · exact hfirst
  · have hle := (List.pairwise_cons.mp (List.pairwise_append.mp hl.order).2.1).1 c hc
    rw [span_hi, span_lo] at hle
    omega

section At
variable {pageSize : ℕ} {f r : List FreeChunk} {ptr : FreeChunk} {address size : ℕ}
  (hl : SortedChunks pageSize (f ++ ptr :: r))
  (hptr : ptr.address ≤ pageRoundDown pageSize address)
  (hr : ∀ c ∈ r, pageRoundDown pageSize address < c.address)
include hl hptr hr

/-- The chunk with the address is the last one that starts at it or in front of it. -/
theorem eq_of_has {c : FreeChunk} (hc : c ∈ f ++ ptr :: r)
    (hhas : c.span.Has (pageRoundDown pageSize address)) : c = ptr := by
  obtain ⟨hlo, hhi⟩ := hhas
  rcases List.mem_append.mp hc with hc | hc
  · have hle := (List.pairwise_append.mp hl.order).2.2 c hc ptr List.mem_cons_self
    rw [span_lo] at hle
    omega
  · rcases List.mem_cons.mp hc with rfl | hc
    · rfl
    · have hgt := hr c hc
      rw [span_lo] at hlo
      omega

theorem inOne_iff {hi : ℕ} (hlt : pageRoundDown pageSize address < hi) :
    InOne (f ++ ptr :: r) (pageRoundDown pageSize address) hi ↔ hi ≤ ptr.span.hi := by
  constructor
  · rintro ⟨c, hc, hlo, hhi⟩
    obtain rfl := eq_of_has hl hptr hr hc ⟨hlo, hlt.trans_le hhi⟩
    exact hhi
  · intro hle
    exact ⟨ptr, by simp, hptr, hle⟩

/-- The address comes back. -/
theorem kmallocObjAddr_fst {a : ℕ} {l' : List FreeChunk}
    (h : kmallocObjAddr pageSize (f ++ ptr :: r) address size = some (a, l')) :
    a = pageRoundDown pageSize address := by
  have hfront : ∀ b ∈ f, b.address < pageRoundDown pageSize address := by
    intro b hb
    have hle := (List.pairwise_append.mp hl.order).2.2 b hb ptr List.mem_cons_self
    have hb0 := hl.pos b (List.mem_append_left _ hb)
    rw [span_hi, span_lo] at hle
    omega
  by_cases hat : ptr.address = pageRoundDown pageSize address
  · rw [kmallocObjAddr_start hfront hat] at h
    obtain ⟨m, -, heq⟩ := Option.map_eq_some_iff.mp h
    exact (Prod.mk.inj heq).1.symm
  · have happ : f ++ ptr :: r = f ++ [ptr] ++ r := by simp
    rw [happ, kmallocObjAddr_inside hfront (Nat.lt_of_le_of_ne hptr hat) fun c hc =>
      hr c (List.mem_of_mem_head? hc)] at h
    exact (Prod.mk.inj (Option.some.inj h)).1.symm

/-- What `kmalloc_obj_addr` does where there are enough pages behind the address. -/
theorem kmallocObjAddr_fits (h0 : 0 < pageRoundUp pageSize size)
    (hfit : pageRoundDown pageSize address + pageRoundUp pageSize size ≤ ptr.span.hi) :
    (ptr.span.hi = 2 ^ 64 ∧ pageRoundDown pageSize address + pageRoundUp pageSize size < 2 ^ 64 →
      kmallocObjAddr pageSize (f ++ ptr :: r) address size =
        some (pageRoundDown pageSize address, f ++ ptr :: r)) ∧
    (ptr.span.lo = pageRoundDown pageSize address →
      pageRoundDown pageSize address + pageRoundUp pageSize size = ptr.span.hi →
      kmallocObjAddr pageSize (f ++ ptr :: r) address size = none ∨
      ∃ l', kmallocObjAddr pageSize (f ++ ptr :: r) address size =
        some (pageRoundDown pageSize address, l') ∧ ∃ b ∈ f, ¬ Free l' b.address) ∧
    ((ptr.span.hi = 2 ^ 64 →
        pageRoundDown pageSize address + pageRoundUp pageSize size = 2 ^ 64) →
      (ptr.span.lo = pageRoundDown pageSize address →
        pageRoundDown pageSize address + pageRoundUp pageSize size ≠ ptr.span.hi) →
      kmallocObjAddr pageSize (f ++ ptr :: r) address size =
        some (pageRoundDown pageSize address,
          f ++ (piece ptr.span.lo (pageRoundDown pageSize address) ++
            piece (pageRoundDown pageSize address + pageRoundUp pageSize size) ptr.span.hi ++
              r))) := by
  have hpos := hl.pos ptr (by simp)
  have hin := hl.inside ptr (by simp)
  have hfront : ∀ b ∈ f, b.span.hi ≤ ptr.address := fun b hb =>
    (List.pairwise_append.mp hl.order).2.2 b hb ptr List.mem_cons_self
  have hfront' : ∀ b ∈ f, b.address < pageRoundDown pageSize address := by
    intro b hb
    have hle := hfront b hb
    have hb0 := hl.pos b (List.mem_append_left _ hb)
    rw [span_hi] at hle
    omega
  rw [span_hi] at hin hfit
  have hstop : ptr.stop = if ptr.span.hi = 2 ^ 64 then 0 else ptr.span.hi := by
    rw [FreeChunk.stop, wordAdd, span_hi]
    split_ifs with heq
    · rw [heq, Nat.mod_self]
    · exact Nat.mod_eq_of_lt (by omega)
  rw [span_lo]
  by_cases hat : ptr.address = pageRoundDown pageSize address
  · rw [kmallocObjAddr_start hfront' hat]
    generalize pageRoundDown pageSize address = lo at *
    generalize pageRoundUp pageSize size = n at *
    unfold takeStart
    rw [hstop, span_hi]
    refine ⟨?_, fun _ hexact => ?_, fun hend hpart => ?_⟩
    · rintro ⟨hend, hlt⟩
      rw [if_pos hend, wordAdd_eq hlt, if_neg (by omega)]
      rfl
    · have hle : wordAdd lo n = if ptr.address + ptr.size = 2 ^ 64 then 0
          else ptr.address + ptr.size := by
        rw [wordAdd, hexact]
        split_ifs with heq
        · rw [heq, Nat.mod_self]
        · exact Nat.mod_eq_of_lt (by omega)
      rw [hle, if_pos (Nat.le_refl _), if_pos (wordSub_self _)]
      split_ifs with hshort htwo
      · exact Or.inl rfl
      · obtain ⟨b, hb⟩ := List.exists_mem_of_length_pos (l := f) (by omega)
        refine Or.inr ⟨[], rfl, b, hb, ?_⟩
        rintro ⟨_, hc, _⟩
        cases hc
      · have hne : f ≠ [] := by
          rintro rfl
          simp at hshort
        obtain ⟨g, b, rfl⟩ := (List.eq_nil_or_concat' f).resolve_left hne
        have happ : g ++ [b] ++ ptr :: r = g ++ b :: (ptr :: r) := by simp
        have hb0 := hl.pos b (by simp)
        refine Or.inr ⟨_, rfl, b, by simp, ?_⟩
        -- the last chunk in front is lost
        rw [List.dropLast_concat]
        rintro ⟨c, hc, hx⟩
        rw [happ] at hl
        refine hl.free_rest (x := b.address) ⟨le_rfl, by rw [span_hi]; omega⟩ ⟨c, ?_, hx⟩
        rcases List.mem_append.mp hc with hc | hc
        · exact List.mem_append_left _ hc
        · exact List.mem_append_right _ (List.mem_cons_of_mem _ hc)
    · have hne : ptr.address + ptr.size ≠ 2 ^ 64 := fun heq =>
        hpart hat ((hend heq).trans heq.symm)
      have hlt : lo + n ≠ ptr.address + ptr.size := hpart hat
      rw [if_neg hne, wordAdd_eq (by omega), if_pos hfit, wordSub_of_le hfit (by omega),
        if_neg (by omega), wordSub_of_le (by omega) (by omega)]
      have hfirst : piece ptr.address lo = [] := if_pos hat
      have hback : piece (lo + n) (ptr.address + ptr.size) = [⟨lo + n, ptr.size - n⟩] := by
        unfold piece
        rw [if_neg hlt, ← hat, Nat.add_sub_add_left]
      rw [hfirst, hback]
      rfl
  · have happ : f ++ ptr :: r = f ++ [ptr] ++ r := by simp
    have hback : ∀ c ∈ r.head?, pageRoundDown pageSize address < c.address := fun c hc =>
      hr c (List.mem_of_mem_head? hc)
    rw [happ, kmallocObjAddr_inside hfront' (Nat.lt_of_le_of_ne hptr hat) hback]
    generalize pageRoundDown pageSize address = lo at *
    generalize pageRoundUp pageSize size = n at *
    unfold takeInside
    rw [hstop, span_hi]
    refine ⟨?_, fun heq => absurd heq hat, fun hend _ => ?_⟩
    · rintro ⟨hend, hlt⟩
      rw [if_pos hend, wordAdd_eq hlt, if_neg (by omega)]
    · have hleft : wordAdd lo n ≤ (if ptr.address + ptr.size = 2 ^ 64 then 0
            else ptr.address + ptr.size) ∧
          wordSub (if ptr.address + ptr.size = 2 ^ 64 then 0 else ptr.address + ptr.size)
            (wordAdd lo n) = ptr.address + ptr.size - (lo + n) := by
        split_ifs with heq
        · have hzero : wordAdd lo n = 0 := by
            rw [wordAdd, hend heq, Nat.mod_self]
          rw [hzero, wordSub_self]
          omega
        · rw [wordAdd_eq (by omega), wordSub_of_le hfit (by omega)]
          omega
      have hfirst : piece ptr.address lo = [⟨ptr.address, wordSub lo ptr.address⟩] := by
        unfold piece
        rw [if_neg hat, wordSub_of_le hptr (by omega)]
      have hlast : (if ptr.address + ptr.size - (lo + n) ≠ 0 then
          (⟨wordAdd lo n, ptr.address + ptr.size - (lo + n)⟩ : FreeChunk) :: r else r) =
            piece (lo + n) (ptr.address + ptr.size) ++ r := by
        unfold piece
        by_cases heq : lo + n = ptr.address + ptr.size
        · rw [if_pos heq, if_neg (by omega)]
          rfl
        · rw [if_neg heq, if_pos (by omega), wordAdd_eq (by omega)]
          rfl
      rw [if_pos hleft.1, hleft.2, List.dropLast_concat]
      dsimp only
      rw [hlast, hfirst]
      rfl

end At

section At
variable {pageSize size : ℕ} (hpos : 0 < pageSize) (hword : pageSize ∣ 2 ^ 64)
include hpos hword

/-- The pages the size is rounded up to are no more than those that are asked for. -/
theorem pages_le (address : ℕ) (h0 : 0 < size)
    (hend : pageCeil pageSize (address + size) < 2 ^ 64 + pageRoundDown pageSize address) :
    0 < pageRoundUp pageSize size ∧ pageRoundDown pageSize address + pageRoundUp pageSize size ≤
      pageCeil pageSize (address + size) := by
  have hdown : pageRoundDown pageSize address ≤ address := Nat.div_mul_le_self ..
  have hceil := pageCeil_spec hpos (address + size)
  have hbetween : size ≤ pageCeil pageSize (address + size) - pageRoundDown pageSize address := by
    omega
  have hle := pageCeil_le hpos
    (Nat.dvd_sub (dvd_pageCeil pageSize (address + size)) (dvd_pageRoundDown pageSize address))
    hbetween
  have hround : size + pageSize ≤ 2 ^ 64 := add_le_of_pageCeil hpos hword (by omega)
  have hsize := (pageCeil_spec hpos size).1
  rw [pageRoundUp_eq_pageCeil hpos hround]
  omega

variable {address : ℕ} {l : List FreeChunk} (hl : SortedChunks pageSize l)
include hl

/-- **When `kmalloc_obj_addr` does right**, on the chunks: then it does all that it should, and
otherwise not even the free addresses are right. -/
theorem kmallocObjAddr_right (haddr : address < 2 ^ 64) (h0 : 0 < size) (hsize : size < 2 ^ 64) :
    ((∃ a l', kmallocObjAddr pageSize l address size = some (a, l') ∧
      TakesSet (pageRoundDown pageSize address) (pageCeil pageSize (address + size)) l a l') →
        AtRight pageSize l address size) ∧
    (AtRight pageSize l address size →
      ∃ a l', kmallocObjAddr pageSize l address size = some (a, l') ∧
        TakesAt pageSize (pageRoundDown pageSize address) (pageCeil pageSize (address + size)) l a
          l') := by
  have hyes : ∀ {P Q R : Prop}, R → Q → (P → Q) ∧ (Q → R) := fun hR hQ =>
    ⟨fun _ => hQ, fun _ => hR⟩
  have hno : ∀ {P Q R : Prop}, ¬ P → ¬ Q → (P → Q) ∧ (Q → R) := fun hP hQ =>
    ⟨fun h => absurd h hP, fun h => absurd h hQ⟩
  have hdown : pageRoundDown pageSize address ≤ address := Nat.div_mul_le_self ..
  have hceil := pageCeil_spec hpos (address + size)
  have hdvd := dvd_pageRoundDown pageSize address
  have hdvd' := dvd_pageCeil pageSize (address + size)
  have hn := dvd_pageRoundUp pageSize size
  unfold AtRight
  dsimp only
  obtain ⟨front, r, rfl, hfront, hr⟩ := hl.exists_behind (pageRoundDown pageSize address)
  rcases List.eq_nil_or_concat' front with rfl | ⟨f, ptr, rfl⟩
  · -- no chunk at the address or in front of it
    rw [List.nil_append, kmallocObjAddr_none size fun c hc => hr c (List.mem_of_mem_head? hc)]
    have hout : ¬ InOne r (pageRoundDown pageSize address)
        (pageCeil pageSize (address + size)) := by
      rintro ⟨c, hc, hlo, -⟩
      have hgt := hr c hc
      rw [span_lo] at hlo
      omega
    refine hyes ⟨0, r, rfl, fun _ => ⟨rfl, rfl⟩, fun h => absurd h hout⟩ ?_
    split_ifs with hzero
    · refine Or.inr fun c hc h0 => ?_
      have hgt := hr c hc
      omega
    · exact Or.inl hr
  have happ : f ++ [ptr] ++ r = f ++ ptr :: r := by simp
  have hptr : ptr.address ≤ pageRoundDown pageSize address :=
    hfront ptr (by simp)
  rw [happ] at hl ⊢
  have hone : InOne (f ++ ptr :: r) (pageRoundDown pageSize address)
      (pageCeil pageSize (address + size)) ↔ pageCeil pageSize (address + size) ≤ ptr.span.hi :=
    inOne_iff hl hptr hr (by omega)
  have hmem : ptr ∈ f ++ ptr :: r := by simp
  have hpos0 := hl.pos ptr hmem
  have hend := hl.inside ptr hmem
  have hround := pages_le hpos hword address h0
  by_cases hzero : pageRoundDown pageSize address = 0
  · rw [if_pos hzero]
    rw [hzero] at hone hround hptr hr
    obtain rfl : f = [] := by
      refine List.eq_nil_iff_forall_not_mem.mpr fun b hb => ?_
      have hle := (List.pairwise_append.mp hl.order).2.2 b hb ptr List.mem_cons_self
      have hb0 := hl.pos b (List.mem_append_left _ hb)
      rw [span_hi, span_lo] at hle
      omega
    have hptr0 : ptr.address = 0 := Nat.le_zero.mp hptr
    have hn : pageRoundUp pageSize size < 2 ^ 64 :=
      (Nat.div_mul_le_self ..).trans_lt (Nat.mod_lt _ (by decide))
    have hstop : ptr.stop = ptr.size := by
      rw [FreeChunk.stop, hptr0, wordAdd_eq (by omega), Nat.zero_add]
    have hcond : (∀ c ∈ [] ++ ptr :: r, c.address = 0 → c.size < pageRoundUp pageSize size) ↔
        ptr.size < pageRoundUp pageSize size := by
      refine ⟨fun hall => hall ptr hmem hptr0, fun hlt c hc hc0 => ?_⟩
      rcases List.mem_cons.mp hc with rfl | hc
      · exact hlt
      · exact absurd hc0 (hr c hc).ne'
    rw [hcond, kmallocObjAddr_start (by simp) (hptr0.trans hzero.symm), hzero]
    unfold takeStart
    rw [hstop, wordAdd_eq (by omega), Nat.zero_add]
    rw [span_hi, hptr0, Nat.zero_add] at hone
    have hsmall : pageRoundUp pageSize size = 0 ∨ ptr.size < pageRoundUp pageSize size →
        ¬ InOne ([] ++ ptr :: r) 0 (pageCeil pageSize (address + size)) := by
      intro hcase hin
      have hle := hone.mp hin
      have hboth := hround (by omega)
      omega
    by_cases hle : pageRoundUp pageSize size ≤ ptr.size
    · rw [if_pos hle, wordSub_of_le hle hpos0.2]
      by_cases hall : ptr.size - pageRoundUp pageSize size = 0
      · rw [if_pos hall]
        refine hno ?_ ?_
        · rintro ⟨a, l', heq, -⟩
          cases heq
        · omega
      · rw [if_neg hall]
        by_cases hnone : pageRoundUp pageSize size = 0
        · refine hyes ⟨0, _, rfl, fun _ => ⟨rfl, ?_⟩,
            fun hin => absurd hin (hsmall (Or.inl hnone))⟩ (Or.inl hnone)
          rw [hnone, Nat.sub_zero, ← hptr0]
        · refine hno ?_ (by omega)
          rintro ⟨a, l', ⟨⟩, htakes⟩
          -- address 0 was free
          obtain ⟨c, hc, hlo, -⟩ := (htakes.null rfl 0).mpr
            ⟨ptr, hmem, hptr0.le, by rw [span_hi]; omega⟩
          rw [span_lo] at hlo
          rcases List.mem_cons.mp hc with rfl | hc
          · exact hnone (Nat.le_zero.mp hlo)
          · have hgt := hr c hc
            omega
    · rw [if_neg hle]
      have hlt := Nat.lt_of_not_le hle
      exact hyes ⟨0, _, rfl, fun _ => ⟨rfl, rfl⟩,
        fun hin => absurd hin (hsmall (Or.inr hlt))⟩ (Or.inr hlt)
  · rw [if_neg hzero]
    have hfirst : ¬ ∀ c ∈ f ++ ptr :: r, pageRoundDown pageSize address < c.address := fun hall =>
      absurd (hall ptr hmem) (Nat.not_lt.mpr hptr)
    rw [or_iff_right hfirst]
    by_cases hin : pageCeil pageSize (address + size) ≤ ptr.span.hi
    · obtain ⟨hn0, hle⟩ := hround (by omega)
      have hhas : ptr.span.Has (pageRoundDown pageSize address) := ⟨hptr, by omega⟩
      obtain ⟨hshort, hexact, hcut⟩ := kmallocObjAddr_fits hl hptr hr hn0 (hle.trans hin)
      have hcond : (∃ c ∈ f ++ ptr :: r, c.span.lo ≤ pageRoundDown pageSize address ∧
          pageCeil pageSize (address + size) ≤ c.span.hi ∧
          pageRoundDown pageSize address + pageRoundUp pageSize size =
            pageCeil pageSize (address + size) ∧
          (c.span.lo = pageRoundDown pageSize address →
            pageCeil pageSize (address + size) ≠ c.span.hi) ∧
          (c.span.hi = 2 ^ 64 → pageCeil pageSize (address + size) = 2 ^ 64)) ↔
          pageRoundDown pageSize address + pageRoundUp pageSize size =
            pageCeil pageSize (address + size) ∧
          (ptr.span.lo = pageRoundDown pageSize address →
            pageCeil pageSize (address + size) ≠ ptr.span.hi) ∧
          (ptr.span.hi = 2 ^ 64 → pageCeil pageSize (address + size) = 2 ^ 64) := by
        constructor
        · rintro ⟨c, hc, hlo, hhi, hrest⟩
          obtain rfl := eq_of_has hl hptr hr hc ⟨hlo, by omega⟩
          exact hrest
        · exact fun hrest => ⟨ptr, hmem, hptr, hin, hrest⟩
      rw [hcond]
      have hfree : Free (f ++ ptr :: r) (pageRoundDown pageSize address) := ⟨ptr, hmem, hhas⟩
      have hinone := hone.mpr hin
      generalize pageRoundUp pageSize size = n at *
      generalize pageCeil pageSize (address + size) = hi at *
      generalize pageRoundDown pageSize address = lo at *
      by_cases hlast : ptr.span.hi = 2 ^ 64 ∧ lo + n < 2 ^ 64
      · -- the end of the chunk is 0, so that it seems too small
        rw [hshort hlast]
        refine hno ?_ ?_
        · rintro ⟨a, l', ⟨⟩, htakes⟩
          exact (((htakes.taken hzero).2 lo).mp hfree).2 ⟨le_rfl, by omega⟩
        · rintro ⟨hsame, -, hall⟩
          have := hall hlast.1
          omega
      by_cases hwhole : ptr.span.lo = lo ∧ lo + n = ptr.span.hi
      · refine hno ?_ ?_
        · rintro ⟨a, l', heq, htakes⟩
          rcases hexact hwhole.1 hwhole.2 with hnone | ⟨l'', hsome, b, hb, hlost⟩
          · rw [hnone] at heq
            cases heq
          · rw [hsome] at heq
            cases heq
            have hle' := (List.pairwise_append.mp hl.order).2.2 b hb ptr List.mem_cons_self
            have hb0 := hl.pos b (List.mem_append_left _ hb)
            rw [span_hi] at hle'
            refine hlost (((htakes.taken hzero).2 b.address).mpr ⟨⟨b, List.mem_append_left _ hb,
              le_rfl, by rw [span_hi]; omega⟩, fun hx => ?_⟩)
            omega
        · rintro ⟨hsame, hpart, -⟩
          exact hpart hwhole.1 (hsame.symm.trans hwhole.2)
      · rw [hcut (fun h64 => by omega) fun hlo heq => hwhole ⟨hlo, heq⟩]
        obtain ⟨hsorted, hset⟩ := hl.cut hptr (Nat.le_add_right lo n) (hle.trans hin) hdvd
          (Nat.dvd_add hdvd hn)
        constructor
        · rintro ⟨a, l', ⟨⟩, htakes⟩
          -- otherwise the page behind those that were taken is to be taken as well
          have hall : lo + n = hi := by
            by_contra hne
            have hbehind := ((htakes.taken hzero).2 (lo + n)).mp ((hset (lo + n)).mpr
              ⟨⟨ptr, hmem, hptr.trans (Nat.le_add_right lo n), by omega⟩, by omega⟩)
            omega
          exact ⟨hall, fun hlo heq => hwhole ⟨hlo, hall.trans heq⟩, fun h64 => by omega⟩
        · rintro ⟨rfl, -, -⟩
          refine ⟨lo, _, rfl, fun hout => absurd hinone hout, fun _ => ⟨hzero, hsorted, ?_, hset⟩⟩
          intro b hb hother
          rcases List.mem_append.mp hb with hb | hb
          · exact List.mem_append_left _ hb
          · rcases List.mem_cons.mp hb with rfl | hb
            · exact absurd ⟨hptr, hin⟩ hother
            · simp [hb]
    · refine hno ?_ ?_
      · rintro ⟨a, l', heq, htakes⟩
        have ha := kmallocObjAddr_fst hl hptr hr heq
        exact hin (hone.mp (htakes.taken (ha ▸ hzero)).1)
      · rintro ⟨c, hc, hlo, hhi, -⟩
        obtain rfl := eq_of_has hl hptr hr hc ⟨hlo, by omega⟩
        exact hin hhi

/-- **When `kmalloc_obj_addr` does all that it should.** -/
theorem kmallocObjAddr_at_iff (haddr : address < 2 ^ 64) (h0 : 0 < size) (hsize : size < 2 ^ 64) :
    (∃ a l', kmallocObjAddr pageSize l address size = some (a, l') ∧
      TakesAt pageSize (pageRoundDown pageSize address) (pageCeil pageSize (address + size)) l a
        l') ↔ AtRight pageSize l address size := by
  obtain ⟨hset, hall⟩ := kmallocObjAddr_right hpos hword hl haddr h0 hsize
  exact ⟨fun ⟨a, l', h, htakes⟩ => hset ⟨a, l', h, htakes.set⟩, hall⟩

end At

/-! ### The functions -/

section Functions
variable (c : HeapConf) {s : Mm} {l : List ℕ} (h : s.Lists c l) (hlock : s.locked = false)
  (hheap : s.heap.locked = false) {fuel : ℕ} (hfuel : l.length < fuel)
  (hsorted : SortedChunks c.pageSize (s.chunks l)) {size : ℕ} (hsize : size < 2 ^ 64)
include h hlock hheap hfuel hsorted hsize

/-- **Allocating object memory.**  The free list may be any in order, and the size any word.
`kmalloc_obj` returns with the lock free and records that are in use, and it does right just as
`FirstRight` says. -/
theorem kmalloc_obj_iff : ∃ a s' l', s.kmallocObj c fuel size = some (a, s') ∧ s'.locked = false ∧
    IsChain s'.next s'.freelist l' ∧ (∀ p ∈ l', Mm.InUse s'.heap p) ∧
      (TakesFirst c.pageSize (s.chunks l) size a (s'.chunks l') ↔
        FirstRight c.pageSize (s.chunks l) size) := by
  obtain ⟨a, s', l', hcall, hul, -, hchain, hnodes, hchunks⟩ :=
    Mm.kmallocObj_spec h hlock hheap hfuel size
  have hright := kmallocObj_first_iff c.pageSize_pos c.pageSize_dvd hsorted hsize
  rw [hchunks] at hright
  exact ⟨a, s', l', hcall, hul, hchain, fun p hp => hnodes.inUse hp, hright⟩

/-- **Growing into the free list.**  The free list may be any in order, the address any word and the
size any but 0.  `kmalloc_obj_addr` does right just as `AtRight` says, if there is memory for the
record of a chunk that it cuts in two. -/
theorem kmalloc_obj_addr_iff {address : ℕ} (haddr : address < 2 ^ 64) (h0 : 0 < size) :
    (∃ a s' l', s.kmallocObjAddr c fuel address size = some (a, s') ∧
      IsChain s'.next s'.freelist l' ∧ (∀ p ∈ l', Mm.InUse s'.heap p) ∧
        TakesAt c.pageSize (pageRoundDown c.pageSize address)
          (pageCeil c.pageSize (address + size)) (s.chunks l) a (s'.chunks l')) ↔
      AtRight c.pageSize (s.chunks l) address size ∧
        (Mm.Splits c.pageSize (s.chunks l) address size → Mm.HasNode s.heap) := by
  rw [← kmallocObjAddr_at_iff c.pageSize_pos c.pageSize_dvd hsorted haddr h0 hsize]
  rcases Mm.kmallocObjAddr_spec h hlock hheap hfuel address size with
    ⟨hnone, hwhy⟩ | ⟨hnode, a, s', l', hcall, -, -, hchain, hnodes, hchunks⟩
  · rw [hnone]
    refine iff_of_false nofun ?_
    rintro ⟨⟨a, l', hsome, -⟩, hnode⟩
    rcases hwhy with hlost | ⟨hsplits, hfull⟩
    · rw [hlost] at hsome
      cases hsome
    · exact hfull (hnode hsplits)
  · rw [hcall, hchunks]
    constructor
    · rintro ⟨_, _, l'', ⟨⟩, hchain'', -, htakes⟩
      obtain rfl := hchain.unique hchain''
      exact ⟨⟨a, _, rfl, htakes⟩, hnode⟩
    · rintro ⟨⟨_, _, ⟨⟩, htakes⟩, -⟩
      exact ⟨a, s', l', rfl, hchain, fun p hp => hnodes.inUse hp, htakes⟩

end Functions

theorem twoChunks_sorted' :
    SortedChunks smallHeap.pageSize (twoChunks.chunks [2 ^ 32 + 4104, 2 ^ 32 + 4136]) := by
  rw [twoChunks_chunks]
  exact twoChunks_sorted

/-- Half a page of the first chunk. -/
theorem kmalloc_obj_half : ∃ a s' l', twoChunks.kmallocObj smallHeap 3 0x800 = some (a, s') ∧
    IsChain s'.next s'.freelist l' ∧ TakesFirst smallHeap.pageSize
      (twoChunks.chunks [2 ^ 32 + 4104, 2 ^ 32 + 4136]) 0x800 a (s'.chunks l') := by
  obtain ⟨a, s', l', hcall, -, hchain, -, hright⟩ := kmalloc_obj_iff smallHeap twoChunks_lists rfl
    (by decide +kernel) (by decide : _ < 3) twoChunks_sorted' (by decide : 0x800 < 2 ^ 64)
  refine ⟨a, s', l', hcall, hchain, hright.mpr (Or.inr (Or.inr ?_))⟩
  rw [if_pos (by decide), twoChunks_chunks]
  decide

/-- The largest size there is: the base of the first chunk comes back, and no page is taken. -/
theorem kmalloc_obj_huge : ¬ ∀ (c : HeapConf) (s : Mm) (l : List ℕ) (fuel size a : ℕ) (s' : Mm),
    s.Lists c l → s.locked = false → s.heap.locked = false → l.length < fuel →
    SortedChunks c.pageSize (s.chunks l) → size < 2 ^ 64 →
    s.kmallocObj c fuel size = some (a, s') → ∃ l', IsChain s'.next s'.freelist l' ∧
      TakesFirst c.pageSize (s.chunks l) size a (s'.chunks l') := by
  intro h
  have hbase : (twoChunks.kmallocObj smallHeap 3 (2 ^ 64 - 1)).map Prod.fst = some 0x1000 := by
    decide +kernel
  obtain ⟨⟨a, s'⟩, hr, rfl⟩ := Option.map_eq_some_iff.mp hbase
  obtain ⟨l', -, htakes⟩ := h _ _ _ _ _ _ _ twoChunks_lists rfl (by decide +kernel)
    (by decide : _ < 3) twoChunks_sorted' (by decide) hr
  have hnull := htakes.null (Or.inr fun c hc => by
    rw [twoChunks_chunks] at hc
    revert c
    decide)
  exact absurd hnull.1 (by decide)

/-- The second chunk has two pages. -/
def threePages : Mm := twoChunks.setChunk (2 ^ 32 + 4136) ⟨0x3000, 0x2000⟩

theorem threePages_chunks : threePages.chunks [2 ^ 32 + 4104, 2 ^ 32 + 4136] =
    [⟨0x1000, 0x1000⟩, ⟨0x3000, 0x2000⟩] := by decide +kernel

theorem threePages_sorted :
    SortedChunks smallHeap.pageSize (threePages.chunks [2 ^ 32 + 4104, 2 ^ 32 + 4136]) := by
  rw [threePages_chunks]
  exact ⟨by decide, by decide, by decide, by decide⟩

/-- The second page of the second chunk. -/
theorem kmalloc_obj_addr_second : ∃ a s' l',
    threePages.kmallocObjAddr smallHeap 3 0x4000 0x1000 = some (a, s') ∧
      IsChain s'.next s'.freelist l' ∧ (∀ p ∈ l', Mm.InUse s'.heap p) ∧
        TakesAt smallHeap.pageSize (pageRoundDown smallHeap.pageSize 0x4000)
          (pageCeil smallHeap.pageSize (0x4000 + 0x1000))
          (threePages.chunks [2 ^ 32 + 4104, 2 ^ 32 + 4136]) a (s'.chunks l') := by
  have hright : AtRight smallHeap.pageSize (threePages.chunks [2 ^ 32 + 4104, 2 ^ 32 + 4136]) 0x4000
      0x1000 := by
    rw [threePages_chunks]
    unfold AtRight
    dsimp only
    rw [if_neg (by decide)]
    exact Or.inr ⟨⟨0x3000, 0x2000⟩, by decide⟩
  have hwhole : ¬ Mm.Splits smallHeap.pageSize
      (threePages.chunks [2 ^ 32 + 4104, 2 ^ 32 + 4136]) 0x4000 0x1000 := by
    rw [threePages_chunks]
    rintro ⟨-, ptr, hptr, -, hleft⟩
    obtain rfl := Option.some.inj hptr
    exact hleft (by decide)
  exact (kmalloc_obj_addr_iff smallHeap (twoChunks_lists.setChunk _ _) rfl (by decide +kernel)
    (by decide : _ < 3) threePages_sorted (by decide : 0x1000 < 2 ^ 64)
    (by decide : 0x4000 < 2 ^ 64) (by decide)).mpr ⟨hright, fun hsplits => absurd hsplits hwhole⟩

/-- Two pages where one is free: the address comes back. -/
theorem kmalloc_obj_addr_short : ¬ ∀ (c : HeapConf) (s : Mm) (l : List ℕ)
    (fuel address size a : ℕ) (s' : Mm), s.Lists c l → s.locked = false → s.heap.locked = false →
    l.length < fuel → SortedChunks c.pageSize (s.chunks l) → address < 2 ^ 64 → size < 2 ^ 64 →
    0 < size → s.kmallocObjAddr c fuel address size = some (a, s') →
      ∃ l', IsChain s'.next s'.freelist l' ∧ TakesAt c.pageSize (pageRoundDown c.pageSize address)
        (pageCeil c.pageSize (address + size)) (s.chunks l) a (s'.chunks l') := by
  intro h
  have hbase : (twoChunks.kmallocObjAddr smallHeap 3 0x1000 0x2000).map Prod.fst = some 0x1000 := by
    decide +kernel
  obtain ⟨⟨a, s'⟩, hr, rfl⟩ := Option.map_eq_some_iff.mp hbase
  obtain ⟨l', -, htakes⟩ := h _ _ _ _ _ _ _ _ twoChunks_lists rfl (by decide +kernel)
    (by decide : _ < 3) twoChunks_sorted' (by decide) (by decide) (by decide) hr
  have hnull := htakes.null (by
    rw [twoChunks_chunks]
    unfold InOne
    decide)
  exact absurd hnull.1 (by decide)

end Mungi
