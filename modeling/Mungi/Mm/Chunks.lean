import Mungi.FreeList
import Mathlib.Data.List.TakeWhile

/-!
# Free lists in order

A free list in order has chunks of whole pages, one behind the other, and no two that touch.
`kfree_obj` keeps it so and adds the pages of the chunk, unless the chunk lies between two free
ones, is the first one and not of whole pages, or meets the end of the address space.

## Main definitions

* `SortedChunks`, `Coalesced` — free lists in order.
* `Free` — the addresses that are free.
* `FreesRight` — when `kfree_obj` does right.

## Main results

* `kfreeObj_frees_iff` — **it does right exactly then.**
-/

namespace Mungi

/-- The chunks are of whole pages and lie one behind the other. -/
structure SortedChunks (pageSize : ℕ) (l : List FreeChunk) : Prop where
  pages : ∀ c ∈ l, pageSize ∣ c.address ∧ pageSize ∣ c.size
  pos : ∀ c ∈ l, 0 < c.size ∧ c.size < 2 ^ 64
  inside : ∀ c ∈ l, c.span.hi ≤ 2 ^ 64
  order : l.Pairwise fun a b => a.span.hi ≤ b.span.lo

/-- No two chunks touch. -/
def Coalesced (l : List FreeChunk) : Prop := l.Pairwise fun a b => a.span.hi ≠ b.span.lo

/-- The addresses that are free. -/
def Free (l : List FreeChunk) (x : ℕ) : Prop := ∃ c ∈ l, c.span.Has x

@[simp] theorem span_lo (c : FreeChunk) : c.span.lo = c.address := rfl

@[simp] theorem span_hi (c : FreeChunk) : c.span.hi = c.address + c.size := rfl

/-- What `kfree_obj` does right.  The first chunk has to be of whole pages.  A chunk that joins a
free one must not join another one behind it.  At address 0 the only chunk must not end with the
address space, and the chunk must not make the address space one chunk. -/
def FreesRight (pageSize : ℕ) (l : List FreeChunk) (address size : ℕ) : Prop :=
  if l = [] then size ≠ 0 ∧ pageSize ∣ size
  else size = 0 ∨
    ¬ ((∃ a ∈ l, a.span.hi = address) ∧
        ∃ b ∈ l, b.span.lo = address + pageCeil pageSize size) ∧
      ¬ (address = 0 ∧ ∃ a, l = [a] ∧ a.span.hi = 2 ^ 64) ∧
      ¬ ((∃ a ∈ l, a.span.lo = 0 ∧ a.span.hi = address) ∧
        address + pageCeil pageSize size = 2 ^ 64)

/-- The list `l'` is in order, and has the addresses of `l` and those of the chunk. -/
structure Frees (pageSize address size : ℕ) (l l' : List FreeChunk) : Prop where
  sorted : SortedChunks pageSize l'
  coalesced : Coalesced l'
  free : ∀ x, Free l' x ↔ Free l x ∨ address ≤ x ∧ x < address + pageCeil pageSize size

section Lists
variable {pageSize : ℕ} {f r l : List FreeChunk} {c : FreeChunk} {x : ℕ}

theorem free_append : Free (f ++ r) x ↔ Free f x ∨ Free r x := by
  simp only [Free, List.mem_append, or_and_right, exists_or]

theorem free_cons : Free (c :: l) x ↔ c.span.Has x ∨ Free l x := by
  simp only [Free, List.mem_cons, or_and_right, exists_or, exists_eq_left]

theorem free_insert : Free (f ++ c :: r) x ↔ Free (f ++ r) x ∨ c.span.Has x := by
  rw [free_append, free_cons, free_append]
  tauto

theorem SortedChunks.sublist (h : SortedChunks pageSize l) (hf : f.Sublist l) :
    SortedChunks pageSize f :=
  ⟨fun c hc => h.pages c (hf.subset hc), fun c hc => h.pos c (hf.subset hc),
    fun c hc => h.inside c (hf.subset hc), h.order.sublist hf⟩

/-- A chunk that lies between the others and does not touch them. -/
theorem SortedChunks.insert (h : SortedChunks pageSize (f ++ r)) (hc : Coalesced (f ++ r))
    (hpages : pageSize ∣ c.address ∧ pageSize ∣ c.size) (hpos : 0 < c.size ∧ c.size < 2 ^ 64)
    (hend : c.span.hi ≤ 2 ^ 64) (hf : ∀ a ∈ f, a.span.hi < c.span.lo)
    (hr : ∀ b ∈ r, c.span.hi < b.span.lo) :
    SortedChunks pageSize (f ++ c :: r) ∧ Coalesced (f ++ c :: r) := by
  have hall : ∀ {P : FreeChunk → Prop}, P c → (∀ a ∈ f ++ r, P a) → ∀ a ∈ f ++ c :: r, P a := by
    intro P hPc hP a ha
    rcases List.mem_append.mp ha with ha | ha
    · exact hP a (List.mem_append_left _ ha)
    · rcases List.mem_cons.mp ha with rfl | ha
      · exact hPc
      · exact hP a (List.mem_append_right _ ha)
  have hpair : ∀ {R : FreeChunk → FreeChunk → Prop}, (f ++ r).Pairwise R → (∀ a ∈ f, R a c) →
      (∀ b ∈ r, R c b) → (f ++ c :: r).Pairwise R := by
    intro R hR hRf hRr
    obtain ⟨h₁, h₂, h₁₂⟩ := List.pairwise_append.mp hR
    refine List.pairwise_append.mpr ⟨h₁, List.pairwise_cons.mpr ⟨hRr, h₂⟩, fun a ha b hb => ?_⟩
    rcases List.mem_cons.mp hb with rfl | hb
    · exact hRf a ha
    · exact h₁₂ a ha b hb
  refine ⟨⟨hall hpages h.pages, hall hpos h.pos, hall hend h.inside, ?_⟩, ?_⟩
  · exact hpair h.order (fun a ha => (hf a ha).le) fun b hb => (hr b hb).le
  · exact hpair hc (fun a ha => (hf a ha).ne) fun b hb => (hr b hb).ne

/-- A list cut in front of the first chunk with a property. -/
theorem exists_first (p : FreeChunk → Prop) [DecidablePred p] (l : List FreeChunk) :
    ∃ front back, l = front ++ back ∧ (∀ c ∈ front, ¬ p c) ∧ ∀ c ∈ back.head?, p c := by
  refine ⟨l.takeWhile fun c => ¬ p c, l.dropWhile fun c => ¬ p c,
    List.takeWhile_append_dropWhile.symm, fun c hc => ?_, fun c hc => ?_⟩
  · simpa using List.mem_takeWhile_imp hc
  · have hnot := List.head?_dropWhile_not (fun c => decide (¬ p c)) l
    rw [Option.mem_def.mp hc] at hnot
    simpa using hnot

/-- The chunks in front of an address, and the others. -/
theorem exists_place (l : List FreeChunk) (address : ℕ) : ∃ front back, l = front ++ back ∧
    (∀ c ∈ front, c.address < address) ∧ ∀ c ∈ back.head?, ¬ c.address < address := by
  obtain ⟨front, back, hl, hfront, hback⟩ := exists_first (fun c => ¬ c.address < address) l
  exact ⟨front, back, hl, fun c hc => not_not.mp (hfront c hc), hback⟩

/-- A chunk that has no address in common with a range lies in front of it or behind it. -/
theorem SortedChunks.around (h : SortedChunks pageSize l) {lo n : ℕ} (hn : 0 < n)
    (hdis : ∀ x, lo ≤ x → x < lo + n → ¬ Free l x) (hc : c ∈ l) :
    c.span.hi ≤ lo ∨ lo + n ≤ c.span.lo := by
  by_contra hno
  rw [not_or, Nat.not_le, Nat.not_le] at hno
  obtain ⟨h₁, h₂⟩ := hno
  have hpos := (h.pos c hc).1
  refine hdis (max lo c.span.lo) (le_max_left ..) ?_ ⟨c, hc, le_max_right .., ?_⟩
  · exact Nat.max_lt.mpr ⟨by omega, by omega⟩
  · exact Nat.max_lt.mpr ⟨h₁, by rw [span_lo, span_hi]; omega⟩

/-- Where the first chunk behind an end does not touch it, none does. -/
theorem SortedChunks.apart (h : SortedChunks pageSize l) {n : ℕ} (hl : ∀ b ∈ l, n ≤ b.span.lo)
    (hhead : ∀ b ∈ l.head?, b.span.lo ≠ n) : ∀ b ∈ l, n < b.span.lo := by
  cases l with
  | nil => nofun
  | cons a l =>
    have ha : n < a.span.lo := Nat.lt_of_le_of_ne (hl a List.mem_cons_self) (hhead a rfl).symm
    intro b hb
    rcases List.mem_cons.mp hb with rfl | hb
    · exact ha
    · have horder := (List.pairwise_cons.mp h.order).1 b hb
      rw [span_hi] at horder
      rw [span_lo] at ha
      omega

end Lists

section Frees
variable {pageSize address size : ℕ} {front back : List FreeChunk}
  (hl : SortedChunks pageSize (front ++ back)) (hc : Coalesced (front ++ back))
  (haddr : pageSize ∣ address) (h0 : 0 < size) (hend : address + size ≤ 2 ^ 64)
  (hpage : pageSize ∣ size) (hback : ∀ b ∈ back, address + size ≤ b.span.lo)
include hl hc haddr h0 hend hpage hback

/-- A chunk that joins none in front of it. -/
theorem linkChunk_frees (hfront : ∀ a ∈ front, a.span.hi < address) (hsize : size < 2 ^ 64)
    (hfit : address ≠ 0 ∨ ∀ b ∈ back.head?, b.span.hi < 2 ^ 64) :
    SortedChunks pageSize (front ++ linkChunk address size back) ∧
      Coalesced (front ++ linkChunk address size back) ∧
      ∀ x, Free (front ++ linkChunk address size back) x ↔
        Free (front ++ back) x ∨ address ≤ x ∧ x < address + size := by
  by_cases htouch : ∃ b ∈ back.head?, b.span.lo = address + size
  · obtain ⟨b, hb, htouch⟩ := htouch
    obtain ⟨rest, rfl⟩ : ∃ rest, back = b :: rest := by
      cases back with
      | nil => cases hb
      | cons a rest => exact ⟨rest, by rw [Option.some.inj hb]⟩
    rw [span_lo] at htouch
    have hin := hl.inside b (by simp)
    have hb0 := hl.pos b (by simp)
    have hbpages := hl.pages b (by simp)
    rw [span_hi] at hin
    have hsum : b.size + size < 2 ^ 64 := by
      rcases hfit with hne | hlt
      · omega
      · have hlt := hlt b rfl
        rw [span_hi] at hlt
        omega
    have hlink : linkChunk address size (b :: rest) = ⟨address, b.size + size⟩ :: rest := by
      rw [linkChunk, wordAdd_eq (by omega), if_pos htouch, wordAdd_eq hsum]
    have hsub : (front ++ rest).Sublist (front ++ b :: rest) :=
      List.Sublist.append_left (List.sublist_cons_self ..) _
    obtain ⟨-, horder, -⟩ := List.pairwise_append.mp hl.order
    obtain ⟨-, hapart, -⟩ := List.pairwise_append.mp hc
    rw [hlink]
    obtain ⟨hs, hco⟩ := (hl.sublist hsub).insert (c := ⟨address, b.size + size⟩) (hc.sublist hsub)
      ⟨haddr, Nat.dvd_add hbpages.2 hpage⟩ ⟨by dsimp only; omega, hsum⟩
      (by rw [span_hi]; dsimp only; omega) hfront (fun a ha => by
        have h₁ := (List.pairwise_cons.mp horder).1 a ha
        have h₂ := (List.pairwise_cons.mp hapart).1 a ha
        rw [span_hi] at h₁ h₂ ⊢
        dsimp only
        omega)
    refine ⟨hs, hco, fun x => ?_⟩
    rw [free_insert, free_insert, or_assoc]
    apply or_congr_right
    simp only [Spans.Span.Has, span_lo, span_hi]
    omega
  · have hbehind := (hl.sublist (List.sublist_append_right ..)).apart hback fun b hb heq =>
      htouch ⟨b, hb, heq⟩
    have hlink : linkChunk address size back = ⟨address, size⟩ :: back := by
      cases back with
      | nil => rfl
      | cons b rest =>
        have hb := hl.inside b (by simp)
        have hb0 := hl.pos b (by simp)
        have hlt := hbehind b List.mem_cons_self
        rw [span_hi] at hb
        rw [span_lo] at hlt
        rw [linkChunk, wordAdd_eq (by omega), if_neg hlt.ne']
    rw [hlink]
    obtain ⟨hs, hco⟩ := hl.insert (c := ⟨address, size⟩) hc ⟨haddr, hpage⟩ ⟨h0, hsize⟩ hend hfront
      hbehind
    exact ⟨hs, hco, fun x => free_insert⟩

end Frees

/-- The place of a range that is not free: the chunks end in front of it, or start behind it. -/
theorem SortedChunks.exists_apart {pageSize address n : ℕ} {l : List FreeChunk}
    (h : SortedChunks pageSize l) (hn : 0 < n)
    (hdis : ∀ x, address ≤ x → x < address + n → ¬ Free l x) :
    ∃ front back, l = front ++ back ∧ (∀ c ∈ front, c.address < address) ∧
      (∀ c ∈ back.head?, ¬ c.address < address) ∧ (∀ a ∈ front, a.span.hi ≤ address) ∧
        ∀ b ∈ back, address + n ≤ b.span.lo := by
  obtain ⟨front, back, rfl, hfront, hback⟩ := exists_place l address
  have haround := fun c hc => h.around (c := c) hn hdis hc
  refine ⟨front, back, rfl, hfront, hback, fun a ha => ?_, fun b hb => ?_⟩
  · rcases haround a (List.mem_append_left _ ha) with hle | hge
    · exact hle
    · have := hfront a ha
      rw [span_lo] at hge
      omega
  · rcases haround b (List.mem_append_right _ hb) with hle | hge
    · -- it would lie in front of the address
      have hb0 := h.pos b (List.mem_append_right _ hb)
      obtain ⟨first, rest, rfl⟩ := List.exists_cons_of_ne_nil (List.ne_nil_of_mem hb)
      have hfirst := hback first rfl
      rw [span_hi] at hle
      rcases List.mem_cons.mp hb with rfl | hb
      · omega
      · have horder := (List.pairwise_append.mp h.order).2.1
        have hle' := (List.pairwise_cons.mp horder).1 b hb
        rw [span_hi, span_lo] at hle'
        omega
    · exact hge

theorem length_joinChunk (address size : ℕ) (ptr2 : FreeChunk) (back : List FreeChunk) :
    (joinChunk address size ptr2 back).length = back.length + 1 := by
  cases back with
  | nil => rfl
  | cons ptr rest =>
    rw [joinChunk]
    split_ifs <;> rfl

/-- **Between two free chunks** the record of the second one stays in the list, and the chunks
overlap. -/
theorem joinChunk_clash {pageSize address size : ℕ} {f rest : List FreeChunk} {ptr2 ptr : FreeChunk}
    (hstop : ptr2.stop = address) (htouch : ptr.address = wordAdd address size) :
    ¬ SortedChunks pageSize
      (f ++ { ptr2 with size := wordAdd (wordAdd ptr2.size size) ptr.size } :: ptr :: rest) := by
  intro hs
  have hpos := (hs.pos { ptr2 with size := wordAdd (wordAdd ptr2.size size) ptr.size }
    (by simp)).1
  have hptr := hs.pos ptr (by simp)
  have hin := hs.inside ptr (by simp)
  obtain ⟨-, hafter, -⟩ := List.pairwise_append.mp hs.order
  have hle := (List.pairwise_cons.mp hafter).1 ptr List.mem_cons_self
  rw [span_hi] at hin hle
  rw [span_lo] at hle
  unfold FreeChunk.stop at hstop
  unfold wordAdd at hpos hle hstop htouch
  dsimp only at hpos hle
  omega

/-- The same with the first chunk in both places. -/
theorem first_clash {pageSize address size : ℕ} {rest : List FreeChunk} {first : FreeChunk}
    (hstop : first.stop = address) (htouch : first.address = wordAdd address size) :
    ¬ SortedChunks pageSize
      ({ first with size := wordAdd (wordAdd first.size size) (wordAdd first.size size) } ::
        rest) := by
  intro hs
  have hpos := (hs.pos _ List.mem_cons_self).1
  unfold FreeChunk.stop at hstop
  unfold wordAdd at hpos hstop htouch
  dsimp only at hpos
  omega

section Joins
variable {pageSize address size : ℕ} {f back : List FreeChunk} {ptr2 : FreeChunk}
  (hl : SortedChunks pageSize (f ++ ptr2 :: back)) (hend : address + size ≤ 2 ^ 64)
  (hptr2 : ptr2.span.hi = address) (hback : ∀ b ∈ back, address + size ≤ b.span.lo)
include hl hend hptr2 hback

/-- A chunk that joins the one in front of it, and none behind it. -/
theorem joinChunk_frees (hc : Coalesced (f ++ ptr2 :: back)) (h0 : 0 < size)
    (hpage : pageSize ∣ size) (hno : ∀ b ∈ back, b.span.lo ≠ address + size)
    (hfit : ptr2.span.lo ≠ 0 ∨ address + size < 2 ^ 64) :
    SortedChunks pageSize (f ++ joinChunk address size ptr2 back) ∧
      Coalesced (f ++ joinChunk address size ptr2 back) ∧
      ∀ x, Free (f ++ joinChunk address size ptr2 back) x ↔
        Free (f ++ ptr2 :: back) x ∨ address ≤ x ∧ x < address + size := by
  have hptr0 := hl.pos ptr2 (by simp)
  have hpages := hl.pages ptr2 (by simp)
  rw [span_hi] at hptr2
  rw [span_lo] at hfit
  have hsum : ptr2.size + size < 2 ^ 64 := by omega
  have hjoin : joinChunk address size ptr2 back = ⟨ptr2.address, ptr2.size + size⟩ :: back := by
    cases back with
    | nil => rw [joinChunk, wordAdd_eq hsum]
    | cons b rest =>
      have hb := hback b List.mem_cons_self
      have hb' := hno b List.mem_cons_self
      have hin := hl.inside b (by simp)
      have hb0 := hl.pos b (by simp)
      rw [span_lo] at hb hb'
      rw [span_hi] at hin
      rw [joinChunk, wordAdd_eq (by omega), if_neg hb', wordAdd_eq hsum]
  have hsub : (f ++ back).Sublist (f ++ ptr2 :: back) :=
    List.Sublist.append_left (List.sublist_cons_self ..) _
  obtain ⟨-, -, horder⟩ := List.pairwise_append.mp hl.order
  obtain ⟨-, -, hapart⟩ := List.pairwise_append.mp hc
  rw [hjoin]
  obtain ⟨hs, hco⟩ := (hl.sublist hsub).insert (c := ⟨ptr2.address, ptr2.size + size⟩)
    (hc.sublist hsub) ⟨hpages.1, Nat.dvd_add hpages.2 hpage⟩ ⟨by dsimp only; omega, hsum⟩
    (by rw [span_hi]; dsimp only; omega)
    (fun a ha => Nat.lt_of_le_of_ne (horder a ha ptr2 List.mem_cons_self)
      (hapart a ha ptr2 List.mem_cons_self))
    (fun b hb => by
      have h₁ := hback b hb
      have h₂ := hno b hb
      rw [span_hi]
      dsimp only
      omega)
  refine ⟨hs, hco, fun x => ?_⟩
  rw [free_insert, free_insert, or_assoc]
  apply or_congr_right
  simp only [Spans.Span.Has, span_lo, span_hi]
  omega

theorem joinChunk_both (hboth : ∃ b ∈ back, b.span.lo = address + size) :
    ¬ SortedChunks pageSize (f ++ joinChunk address size ptr2 back) := by
  obtain ⟨b, hb, htouch⟩ := hboth
  cases back with
  | nil => cases hb
  | cons ptr rest =>
    have hptr := hl.pos ptr (by simp)
    have hin := hl.inside ptr (by simp)
    have hbelow := hback ptr List.mem_cons_self
    rw [span_hi] at hptr2 hin
    rw [span_lo] at hbelow
    have hadj : ptr.address = wordAdd address size := by
      rw [wordAdd_eq (by omega)]
      rcases List.mem_cons.mp hb with rfl | hb
      · exact htouch
      · obtain ⟨-, hafter, -⟩ := List.pairwise_append.mp hl.order
        have hle := (List.pairwise_cons.mp (List.pairwise_cons.mp hafter).2).1 b hb
        rw [span_hi, htouch] at hle
        omega
    rw [joinChunk, if_pos hadj]
    refine joinChunk_clash ?_ hadj
    rw [FreeChunk.stop, wordAdd_eq (by omega), hptr2]

omit hend in
/-- A chunk that would be as large as the address space. -/
theorem joinChunk_whole (hlo : ptr2.span.lo = 0) (hhi : address + size = 2 ^ 64) :
    ¬ SortedChunks pageSize (f ++ joinChunk address size ptr2 back) := by
  cases back with
  | nil =>
    intro hs
    have hpos := (hs.pos { ptr2 with size := wordAdd ptr2.size size } (by simp [joinChunk])).1
    rw [span_hi] at hptr2
    rw [span_lo] at hlo
    unfold wordAdd at hpos
    dsimp only at hpos
    omega
  | cons ptr rest =>
    have hptr := hl.pos ptr (by simp)
    have hin := hl.inside ptr (by simp)
    have hbelow := hback ptr List.mem_cons_self
    rw [span_hi] at hin
    rw [span_lo] at hbelow
    omega

end Joins

/-- The chunk goes behind the one in front of it. -/
theorem kfreeBehind_iff {pageSize address size : ℕ} {f back : List FreeChunk} {ptr2 : FreeChunk}
    (hl : SortedChunks pageSize (f ++ ptr2 :: back))
    (hc : Coalesced (f ++ ptr2 :: back)) (haddr : pageSize ∣ address) (hlt : address < 2 ^ 64)
    (h0 : 0 < size) (hend : address + size ≤ 2 ^ 64) (hpage : pageSize ∣ size)
    (hptr2 : ptr2.span.hi ≤ address) (hback : ∀ b ∈ back, address + size ≤ b.span.lo) :
    ((SortedChunks pageSize (f ++ kfreeBehind address size ptr2 back) ∧
      Coalesced (f ++ kfreeBehind address size ptr2 back) ∧
      ∀ x, Free (f ++ kfreeBehind address size ptr2 back) x ↔
        Free (f ++ ptr2 :: back) x ∨ address ≤ x ∧ x < address + size) ↔
      ¬ (ptr2.span.hi = address ∧ ((∃ b ∈ back, b.span.lo = address + size) ∨
        ptr2.span.lo = 0 ∧ address + size = 2 ^ 64))) ∧
    (ptr2.span.hi = address → (kfreeBehind address size ptr2 back).length = back.length + 1) := by
  have hstop : ptr2.stop = ptr2.span.hi := by
    rw [span_hi] at hptr2 ⊢
    exact wordAdd_eq (by omega)
  unfold kfreeBehind
  rw [hstop]
  by_cases hjoin : ptr2.span.hi = address
  · rw [if_pos hjoin]
    refine ⟨?_, fun _ => length_joinChunk ..⟩
    by_cases hboth : ∃ b ∈ back, b.span.lo = address + size
    · exact iff_of_false (fun h => joinChunk_both hl hend hjoin hback hboth h.1) fun hno =>
        hno ⟨hjoin, Or.inl hboth⟩
    by_cases hwhole : ptr2.span.lo = 0 ∧ address + size = 2 ^ 64
    · exact iff_of_false (fun h => joinChunk_whole hl hjoin hback hwhole.1 hwhole.2 h.1) fun hno =>
        hno ⟨hjoin, Or.inr hwhole⟩
    · refine iff_of_true (joinChunk_frees hl hend hjoin hback hc h0 hpage ?_ ?_) ?_
      · exact fun b hb heq => hboth ⟨b, hb, heq⟩
      · omega
      · rintro ⟨-, h | h⟩
        · exact hboth h
        · exact hwhole h
  · rw [if_neg hjoin]
    refine ⟨iff_of_true ?_ fun h => hjoin h.1, fun h => absurd h hjoin⟩
    have happ : ∀ l : List FreeChunk, f ++ ptr2 :: l = f ++ [ptr2] ++ l := fun l => by simp
    have hptr0 := hl.pos ptr2 (by simp)
    rw [happ back] at hl hc
    rw [happ (linkChunk address size back), happ back]
    rw [span_hi] at hptr2 hjoin
    refine linkChunk_frees hl hc haddr h0 hend hpage hback (fun a ha => ?_) (by omega)
      (Or.inl (by omega))
    rcases List.mem_append.mp ha with ha | ha
    · rw [← happ back] at hl
      have hle := (List.pairwise_append.mp hl.order).2.2 a ha ptr2 List.mem_cons_self
      rw [span_lo] at hle
      omega
    · rw [List.mem_singleton.mp ha, span_hi]
      omega

section Frees
variable {pageSize : ℕ} (hpos : 0 < pageSize) (hword : pageSize ∣ 2 ^ 64) {l : List FreeChunk}
  (hl : SortedChunks pageSize l) (hc : Coalesced l) {address size : ℕ} (haddr : pageSize ∣ address)
  (hlt : address < 2 ^ 64) (hend : address + pageCeil pageSize size ≤ 2 ^ 64)
  (hdis : ∀ x, address ≤ x → x < address + pageCeil pageSize size → ¬ Free l x)

include hpos haddr hend in
/-- The first chunk. -/
theorem kfreeObj_nil_iff (hsize : size < 2 ^ 64) :
    Frees pageSize address size [] (kfreeObj pageSize [] address size) ↔
      FreesRight pageSize [] address size := by
  unfold FreesRight
  rw [if_pos rfl]
  show Frees pageSize address size [] [⟨address, size⟩] ↔ _
  constructor
  · intro h
    have hmem : (⟨address, size⟩ : FreeChunk) ∈ [(⟨address, size⟩ : FreeChunk)] :=
      List.mem_singleton_self _
    exact ⟨(h.sorted.pos _ hmem).1.ne', (h.sorted.pages _ hmem).2⟩
  · rintro ⟨hne, hdvd⟩
    have hceil := pageCeil_of_dvd hpos hdvd
    rw [hceil] at hend
    refine ⟨⟨?_, ?_, ?_, List.pairwise_singleton ..⟩, List.pairwise_singleton .., fun x => ?_⟩
    · simpa using ⟨haddr, hdvd⟩
    · simpa using ⟨Nat.pos_of_ne_zero hne, hsize⟩
    · simpa using hend
    · rw [free_cons, hceil]
      exact or_comm

include hpos hword hl hend hdis in
/-- With another chunk in the list, the size can be rounded up. -/
theorem add_le_of_free (hne : l ≠ []) : size + pageSize ≤ 2 ^ 64 := by
  apply add_le_of_pageCeil hpos hword
  obtain ⟨c, l, rfl⟩ := List.exists_cons_of_ne_nil hne
  have hin := hl.inside c List.mem_cons_self
  have hc0 := hl.pos c List.mem_cons_self
  by_contra hge
  rw [span_hi] at hin
  refine hdis c.address (by omega) (by omega) ⟨c, List.mem_cons_self, ?_⟩
  simp only [Spans.Span.Has, span_lo, span_hi]
  omega

include hpos hword hl hc haddr hlt hend hdis in
/-- **When `kfree_obj` does right**; where it does not, the list gets no longer. -/
theorem kfreeObj_frees_iff (hsize : size < 2 ^ 64) :
    (Frees pageSize address size l (kfreeObj pageSize l address size) ↔
      FreesRight pageSize l address size) ∧
    (l ≠ [] → ¬ FreesRight pageSize l address size →
      (kfreeObj pageSize l address size).length = l.length) := by
  by_cases hnil : l = []
  · subst hnil
    exact ⟨kfreeObj_nil_iff hpos haddr hend hsize, fun hne => absurd rfl hne⟩
  have hround := add_le_of_free hpos hword hl hend hdis hnil
  by_cases hzero : size = 0
  · have hceil : pageCeil pageSize size = 0 := by
      rw [hzero, pageCeil_of_dvd hpos (Nat.dvd_zero _)]
    have hright : FreesRight pageSize l address size := by
      unfold FreesRight
      rw [if_neg hnil]
      exact Or.inl hzero
    have hsame : kfreeObj pageSize l address size = l := by
      obtain ⟨first, rest, rfl⟩ := List.exists_cons_of_ne_nil hnil
      exact if_pos hzero
    refine ⟨iff_of_true ⟨?_, ?_, fun x => ?_⟩ hright, fun _ hno => absurd hright hno⟩
    · rwa [hsame]
    · rwa [hsame]
    · rw [hsame, hceil]
      exact ⟨Or.inl, fun h => h.elim id fun hx => absurd hx.2 (by omega)⟩
  have hup := pageRoundUp_eq_pageCeil hpos hround
  have hceil := pageCeil_spec hpos size
  have hpage := dvd_pageCeil pageSize size
  have hiff : Frees pageSize address size l (kfreeObj pageSize l address size) ↔
      SortedChunks pageSize (kfreeObj pageSize l address size) ∧
        Coalesced (kfreeObj pageSize l address size) ∧
        ∀ x, Free (kfreeObj pageSize l address size) x ↔
          Free l x ∨ address ≤ x ∧ x < address + pageCeil pageSize size :=
    ⟨fun h => ⟨h.sorted, h.coalesced, h.free⟩, fun h => ⟨h.1, h.2.1, h.2.2⟩⟩
  rw [hiff]
  unfold FreesRight
  rw [if_neg hnil]
  obtain ⟨front, back, rfl, hfront, hback, hbefore, hbehind⟩ := hl.exists_apart (by omega) hdis
  generalize pageCeil pageSize size = n at *
  rcases List.eq_nil_or_concat' front with rfl | ⟨f, ptr2, rfl⟩
  · rw [List.nil_append] at *
    obtain ⟨first, rest, rfl⟩ := List.exists_cons_of_ne_nil hnil
    have hge := hbehind first List.mem_cons_self
    have hfirst := hl.pos first List.mem_cons_self
    have hin := hl.inside first List.mem_cons_self
    have hnot := hback first rfl
    have hnone : ∀ a ∈ first :: rest, a.span.hi ≠ address := by
      intro a ha
      have hle := hbehind a ha
      rw [span_lo] at hle
      rw [span_hi]
      have ha0 := hl.pos a ha
      omega
    have hkfree : kfreeObj pageSize (first :: rest) address size =
        if first.stop = address then
          (if first.address = wordAdd address n then
            { first with size := wordAdd (wordAdd first.size n) (wordAdd first.size n) } :: rest
          else { first with size := wordAdd first.size n } :: rest)
        else linkChunk address n (first :: rest) := by
      rw [kfreeObj, if_neg hzero, hup]
      dsimp only
      rw [if_neg hnot]
    rw [span_lo] at hge
    rw [span_hi] at hin
    by_cases hwrap : address = 0 ∧ first.span.hi = 2 ^ 64
    · -- the end of the only chunk is taken for address 0, and it grows beyond the address space
      obtain ⟨rfl, hhi⟩ := hwrap
      have hrest : rest = [] := by
        cases rest with
        | nil => rfl
        | cons b rest =>
          have hle := (List.pairwise_cons.mp hl.order).1 b List.mem_cons_self
          have hb := hl.inside b (by simp)
          have hb0 := hl.pos b (by simp)
          rw [hhi, span_lo] at hle
          rw [span_hi] at hb
          omega
      subst hrest
      have hstop : first.stop = 0 := by
        rw [span_hi] at hhi
        rw [FreeChunk.stop, wordAdd, hhi, Nat.mod_self]
      rw [hkfree, if_pos hstop]
      refine ⟨iff_of_false (fun h => ?_) fun h => ?_, fun _ _ => ?_⟩
      · rw [span_hi] at hhi
        have hhead := h.1
        unfold wordAdd at hhead
        split_ifs at hhead with htouch
        · have hpos' := (hhead.pos _ List.mem_cons_self).1
          dsimp only at hpos'
          omega
        · have hin' := hhead.inside _ List.mem_cons_self
          rw [span_hi] at hin'
          dsimp only at hin'
          omega
      · rcases h with h | ⟨-, h, -⟩
        · exact hzero h
        · exact h ⟨rfl, first, rfl, hhi⟩
      · split_ifs <;> rfl
    · have hstop : first.stop ≠ address := by
        unfold FreeChunk.stop wordAdd
        rw [span_hi] at hwrap
        omega
      rw [hkfree, if_neg hstop]
      have hl' : SortedChunks pageSize ([] ++ first :: rest) := hl
      have hright := linkChunk_frees hl' hc haddr (by omega) hend hpage hbehind (by rintro _ ⟨⟩)
        (by omega) (by
          by_cases h0 : address = 0
          · refine Or.inr fun b hb => ?_
            obtain rfl := Option.some.inj hb
            rw [span_hi] at hwrap ⊢
            omega
          · exact Or.inl h0)
      have hcond : size = 0 ∨
          ¬ ((∃ a ∈ first :: rest, a.span.hi = address) ∧
            ∃ b ∈ first :: rest, b.span.lo = address + n) ∧
          ¬ (address = 0 ∧ ∃ a, first :: rest = [a] ∧ a.span.hi = 2 ^ 64) ∧
          ¬ ((∃ a ∈ first :: rest, a.span.lo = 0 ∧ a.span.hi = address) ∧
            address + n = 2 ^ 64) := by
        refine Or.inr ⟨?_, ?_, ?_⟩
        · rintro ⟨⟨a, ha, heq⟩, -⟩
          exact hnone a ha heq
        · rintro ⟨h0, a, hone, heq⟩
          obtain ⟨rfl, -⟩ := List.cons.inj hone
          exact hwrap ⟨h0, heq⟩
        · rintro ⟨⟨a, ha, -, heq⟩, -⟩
          exact hnone a ha heq
      exact ⟨iff_of_true hright hcond, fun _ hno => absurd hcond hno⟩
  · have happ : f ++ [ptr2] ++ back = f ++ ptr2 :: back := by simp
    have hptr2 := hbefore ptr2 (by simp)
    have hpos2 := hl.pos ptr2 (by simp)
    have hlist : kfreeObj pageSize (f ++ ptr2 :: back) address size =
        f ++ kfreeBehind address n ptr2 back := by
      rw [← hup]
      exact kfreeObj_behind hzero (fun a ha => hfront a (List.mem_append_left _ ha))
        (hfront ptr2 (by simp)) hback
    have hbelow := hfront ptr2 (by simp)
    rw [happ] at hl hc ⊢
    obtain ⟨-, -, horder⟩ := List.pairwise_append.mp hl.order
    have hhi : ∀ a ∈ f ++ ptr2 :: back, a.span.hi = address → a = ptr2 := by
      intro a ha heq
      have ha0 := hl.pos a ha
      rcases List.mem_append.mp ha with ha | ha
      · have hle := horder a ha ptr2 List.mem_cons_self
        rw [span_lo] at hle
        rw [span_hi] at hptr2
        omega
      · rcases List.mem_cons.mp ha with rfl | ha
        · rfl
        · have hle := hbehind a ha
          rw [span_hi] at heq
          rw [span_lo] at hle
          omega
    have hlo : ∀ b ∈ f ++ ptr2 :: back, b.span.lo = address + n → b ∈ back := by
      intro b hb heq
      rw [← happ] at hb
      rcases List.mem_append.mp hb with hb | hb
      · have hlt := hfront b hb
        rw [span_lo] at heq
        omega
      · exact hb
    rw [hlist]
    obtain ⟨hright, hlen⟩ := kfreeBehind_iff hl hc haddr hlt (by omega) hend hpage hptr2 hbehind
    have hcond : (size = 0 ∨
        ¬ ((∃ a ∈ f ++ ptr2 :: back, a.span.hi = address) ∧
          ∃ b ∈ f ++ ptr2 :: back, b.span.lo = address + n) ∧
        ¬ (address = 0 ∧ ∃ a, f ++ ptr2 :: back = [a] ∧ a.span.hi = 2 ^ 64) ∧
        ¬ ((∃ a ∈ f ++ ptr2 :: back, a.span.lo = 0 ∧ a.span.hi = address) ∧
          address + n = 2 ^ 64)) ↔
        ¬ (ptr2.span.hi = address ∧ ((∃ b ∈ back, b.span.lo = address + n) ∨
          ptr2.span.lo = 0 ∧ address + n = 2 ^ 64)) := by
      constructor
      · rintro (h | ⟨hboth, -, hwhole⟩) ⟨hj, ⟨b, hb, heq⟩ | hw⟩
        · exact hzero h
        · exact hzero h
        · exact hboth ⟨⟨ptr2, by simp, hj⟩, b, by simp [hb], heq⟩
        · exact hwhole ⟨⟨ptr2, by simp, hw.1, hj⟩, hw.2⟩
      · refine fun hno => Or.inr ⟨?_, ?_, ?_⟩
        · rintro ⟨⟨a, ha, hj⟩, b, hb, heq⟩
          obtain rfl := hhi a ha hj
          exact hno ⟨hj, Or.inl ⟨b, hlo b hb heq, heq⟩⟩
        · rintro ⟨h0, -⟩
          omega
        · rintro ⟨⟨a, ha, h0, hj⟩, hw⟩
          obtain rfl := hhi a ha hj
          exact hno ⟨hj, Or.inr ⟨h0, hw⟩⟩
    rw [hcond]
    refine ⟨hright, fun _ hno => ?_⟩
    rw [List.length_append, hlen (not_not.mp hno).1, List.length_append, List.length_cons]

end Frees

end Mungi
