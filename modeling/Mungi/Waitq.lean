import Mungi.Lib.Heap

/-!
# Wait queues

A wait queue is a linked list of items, each with the address of the pointer that leads to
it (`waitq.c`).  The queue heads are fields of other records, which the type `H` names.
Reading through `NULL` has no result here, and neither has a loop that does not end.

## Main definitions

* `Waitqs` — the items, and the heads.
* `waitqAdd`, `waitqRemove`, `waitqCancel` — the operations.

## Main results

* `waitqAdd_spec` — an item goes to the end of the queue.
* `waitqRemove_spec` — the first item goes, when it knows the head of the queue.
* `waitqRemove_stuck` — **otherwise the head goes on leading to it**, though it is freed.
-/

namespace Mungi

open Chain

/-- A `waitq_t **`: a queue head, or the `next` field of an item. -/
inductive WaitqLink (H : Type) where
  | head (q : H)
  | next (p : ℕ)
  deriving DecidableEq

/-- `struct waitq` -/
structure WaitqItem (H : Type) where
  thread : ℕ
  next : ℕ
  pprev : WaitqLink H

/-- All wait queues. -/
structure Waitqs (H : Type) where
  items : Heap (WaitqItem H)
  head : H → ℕ

variable {H : Type} [DecidableEq H]

namespace Waitqs

/-- The `next` fields. -/
def next (w : Waitqs H) (p : ℕ) : ℕ := (w.items.cell p).next

/-- `*link = p` -/
def write (w : Waitqs H) (link : WaitqLink H) (p : ℕ) : Waitqs H :=
  match link with
  | .head q => { w with head := Function.update w.head q p }
  | .next q => { w with items := w.items.modify q fun item => { item with next := p } }

/-- `kfree(p)` -/
def free (w : Waitqs H) (p : ℕ) : Waitqs H := { w with items := w.items.free p }

end Waitqs

/-- `waitq_add`, with the answer `new` of `kmalloc`; `true` for `success`. -/
def waitqAdd (w : Waitqs H) (fuel : ℕ) (q : H) (thread new : ℕ) : Option (Bool × Waitqs H) :=
  if new = 0 then some (false, w)
  else
    (seek w.next (fun p => w.next p = 0) fuel (w.head q)).bind fun ptr =>
      let link := if ptr = 0 then .head q else .next ptr
      (w.items.alloc new ⟨thread, 0, link⟩).map fun items =>
        (true, { w with items }.write link new)

/-- `waitq_remove`: the thread, 0 for `NULL`. -/
def waitqRemove (w : Waitqs H) (q : H) : ℕ × Waitqs H :=
  let ptr := w.head q
  if ptr = 0 then (0, w)
  else
    let item := w.items.cell ptr
    (item.thread, (w.write item.pprev item.next).free ptr)

/-- The loop of `waitq_cancel` from `ptr` on.  After an item that goes, `ptr` moves twice. -/
def waitqCancelFrom (thread : ℕ) : ℕ → ℕ → Waitqs H → Option (Waitqs H)
  | 0, _, _ => none
  | n + 1, ptr, w =>
    if ptr = 0 then some w
    else if (w.items.cell ptr).thread = thread then
      let w' := w.write (w.items.cell ptr).pprev (w.next ptr)
      let ptr' := w'.next ptr
      let w' := w'.free ptr
      if ptr' = 0 then none else waitqCancelFrom thread n (w'.next ptr') w'
    else waitqCancelFrom thread n (w.next ptr) w

/-- `waitq_cancel` -/
def waitqCancel (w : Waitqs H) (fuel : ℕ) (q : H) (thread : ℕ) : Option (Waitqs H) :=
  waitqCancelFrom thread fuel (w.head q) w

/-! ### What the operations do -/

section Spec
variable {w w' : Waitqs H} {q : H} {l : List ℕ} {fuel thread new : ℕ}

namespace Waitqs

/-- The items of a queue, all of them allocated. -/
def Queue (w : Waitqs H) (q : H) (l : List ℕ) : Prop :=
  IsChain w.next (w.head q) l ∧ ∀ p ∈ l, w.items.live p = true

/-- The threads that wait, for the items of a queue. -/
def threads (w : Waitqs H) (l : List ℕ) : List ℕ := l.map fun p => (w.items.cell p).thread

omit [DecidableEq H] in
theorem Queue.unique {l' : List ℕ} (h : w.Queue q l) (h' : w.Queue q l') : l = l' :=
  h.1.unique h'.1

omit [DecidableEq H] in
theorem Queue.nil_iff (h : w.Queue q l) : l = [] ↔ w.head q = 0 := by
  cases l with
  | nil => exact iff_of_true rfl h.1
  | cons p l => exact iff_of_false nofun (by rw [h.1.1]; exact h.1.2.1)

end Waitqs

/-- An item goes to the end of the queue. -/
theorem waitqAdd_spec (thread : ℕ) (h : w.Queue q l) (hfuel : l.length < fuel) (hnew : new ≠ 0)
    (hlive : w.items.live new = false) :
    ∃ w', waitqAdd w fuel q thread new = some (true, w') ∧ w'.Queue q (l ++ [new]) ∧
      w'.threads (l ++ [new]) = w.threads l ++ [thread] ∧
      (∀ p, p ≠ new → (w'.items.cell p).pprev = (w.items.cell p).pprev) ∧
      (w'.items.cell new).pprev = if l = [] then .head q else .next (l.getLast?.getD 0) := by
  have hfresh : new ∉ l := fun hmem => by simp [h.2 new hmem] at hlive
  obtain ⟨items, halloc⟩ : ∃ items, w.items.alloc new ⟨thread, 0, if l.getLast?.getD 0 = 0 then
      .head q else .next (l.getLast?.getD 0)⟩ = some items :=
    ⟨_, if_neg (by simp [hlive])⟩
  rw [waitqAdd, if_neg hnew, h.1.seek_last hfuel, Option.bind_some]
  dsimp only
  rw [halloc, Option.map_some]
  refine ⟨_, rfl, ?_⟩
  rcases List.eq_nil_or_concat l with rfl | ⟨l, z, hl⟩
  · have hcell := Heap.cell_alloc_self halloc
    simp only [List.getLast?_nil, Option.getD_none, if_true, Waitqs.write, List.nil_append] at hcell ⊢
    refine ⟨⟨⟨Function.update_self .., hnew, ?_⟩, ?_⟩, ?_, ?_, ?_⟩
    · change (items.cell new).next = 0
      rw [hcell]
    · intro p hp
      rw [List.mem_singleton.mp hp]
      exact Heap.live_alloc_self halloc
    · simp [Waitqs.threads, hcell]
    · intro p hp
      rw [Heap.cell_alloc_of_ne halloc hp]
    · rw [hcell]
  · rw [List.concat_eq_append] at hl
    subst hl
    have hz : z ≠ 0 := h.1.ne_zero (by simp)
    have hzn : z ≠ new := fun heq => hfresh (by simp [heq])
    simp only [List.getLast?_concat, Option.getD_some, if_neg hz, Waitqs.write] at halloc ⊢
    have hold : ∀ p, p ≠ new → items.cell p = w.items.cell p := fun p hp =>
      Heap.cell_alloc_of_ne halloc hp
    have hcell : items.cell new = ⟨thread, 0, .next z⟩ := Heap.cell_alloc_self halloc
    have hthread : ∀ p, ((items.modify z fun item => { item with next := new }).cell p).thread
        = (items.cell p).thread := Heap.modify_field (fun _ => rfl)
    have hprev : ∀ p, ((items.modify z fun item => { item with next := new }).cell p).pprev
        = (items.cell p).pprev := Heap.modify_field (fun _ => rfl)
    refine ⟨⟨?_, ?_⟩, ?_, ?_, ?_⟩
    · refine h.1.concat (y := z) (by simp) ?_ ?_ hnew ?_
      · intro p hp hpz
        have hpn : p ≠ new := fun heq => hfresh (heq ▸ hp)
        simp only [Waitqs.next]
        rw [Heap.cell_modify_of_ne hpz, hold p hpn]
      · simp only [Waitqs.next]
        rw [Heap.cell_modify_self]
      · simp only [Waitqs.next]
        rw [Heap.cell_modify_of_ne (Ne.symm hzn), hcell]
    · intro p hp
      rw [Heap.live_modify, Heap.live_alloc halloc]
      rcases List.mem_append.mp hp with hp | hp
      · split
        · rfl
        · exact h.2 p hp
      · rw [if_pos (List.mem_singleton.mp hp)]
    · rw [Waitqs.threads, Waitqs.threads, List.map_append, List.map_singleton, hthread, hcell]
      congr 1
      refine List.map_congr_left fun p hp => ?_
      rw [hthread, hold p fun heq => hfresh (heq ▸ hp)]
    · intro p hp
      rw [hprev, hold p hp]
    · rw [hprev, hcell]
      simp

/-- The first item goes, when it knows the head of the queue. -/
theorem waitqRemove_spec {p : ℕ} (h : w.Queue q (p :: l))
    (hprev : (w.items.cell p).pprev = .head q) :
    (waitqRemove w q).1 = (w.items.cell p).thread ∧ (waitqRemove w q).2.Queue q l ∧
      (waitqRemove w q).2.items.cell = w.items.cell := by
  obtain ⟨⟨hhead, hp, hchain⟩, hlive⟩ := h
  have hwhole : IsChain w.next (w.head q) (p :: l) := ⟨hhead, hp, hchain⟩
  have hpl : p ∉ l := (List.nodup_cons.mp hwhole.nodup).1
  simp only [waitqRemove, hhead, if_neg hp, hprev, Waitqs.write, Waitqs.free]
  refine ⟨trivial, ⟨?_, ?_⟩, rfl⟩
  · change IsChain w.next (Function.update w.head q (w.next p) q) l
    rw [Function.update_self]
    exact hchain
  · intro y hy
    have hne : y ≠ p := fun heq => hpl (heq ▸ hy)
    rw [Heap.live_free_of_ne hne]
    exact hlive y (List.mem_cons_of_mem p hy)

/-- An item that knows another place is freed, and the head goes on leading to it. -/
theorem waitqRemove_stuck {p : ℕ} (h : w.Queue q (p :: l))
    (hprev : (w.items.cell p).pprev ≠ .head q) (l' : List ℕ) : ¬ (waitqRemove w q).2.Queue q l' := by
  obtain ⟨⟨hhead, hp, hchain⟩, -⟩ := h
  intro hq
  simp only [waitqRemove, hhead, if_neg hp] at hq
  generalize hprev' : (w.items.cell p).pprev = link at hprev hq
  have hhead' : (w.write link (w.items.cell p).next).head q = p := by
    cases link with
    | head q' =>
      rw [← hhead]
      exact Function.update_of_ne (fun heq => hprev (by rw [heq])) _ _
    | next y => exact hhead
  cases l' with
  | nil => exact hp (hhead'.symm.trans hq.1)
  | cons y l' =>
    have hy : y = p := hq.1.1.symm.trans hhead'
    have hlive := hq.2 y List.mem_cons_self
    rw [hy] at hlive
    simp [Waitqs.free] at hlive

end Spec

end Mungi
