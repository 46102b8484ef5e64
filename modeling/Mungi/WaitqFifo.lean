import Mathlib.Data.List.Nodup
import Mungi.Lib.Runs
import Mungi.Waitq

/-!
# Wait queues as lists

What a sequence of `waitq_add`, `waitq_remove` and `waitq_cancel` does to a queue that starts
empty.  The item behind one that goes still has the address of its `next` field, so only an
item that was put into the empty queue, or whose predecessor is still there, is taken out
where it is; and `waitq_cancel` moves on twice after an item that goes.

## Main definitions

* `waitqLinkOf` — the link that leads to an item.
* `waitqCancelFrees`, `waitqRemoveFrees` — what goes to `kfree`.
* `WaitqRun`, `waitqStep` — the life of a queue, with the list that it should be.
* `WaitqRun.IsFifo` — what is to hold at every moment.
* `WaitqKnows` — the calls that find the links as they are.

## Main results

* `waitqCancelFrom_spec` — what `waitq_cancel` does then.
* `waitqCancelFrom_fine` — **nothing else leaves a queue in order.**
* `waitq_fifo_iff` — **when a queue is a list.**
-/

namespace Mungi

open Chain Runs

variable {H : Type} [DecidableEq H]

/-! ### Links -/

/-- The link that leads to the item behind the items `l` of a queue. -/
def waitqLinkOf (q : H) (l : List ℕ) : WaitqLink H :=
  match l.getLast? with
  | none => .head q
  | some z => .next z

section LinkOf
variable {q : H} {l l' : List ℕ}

omit [DecidableEq H] in
@[simp] theorem waitqLinkOf_nil : waitqLinkOf q [] = .head q := rfl

omit [DecidableEq H] in
@[simp] theorem waitqLinkOf_concat {z : ℕ} : waitqLinkOf q (l ++ [z]) = .next z := by
  simp [waitqLinkOf]

omit [DecidableEq H] in
/-- It depends on the last item only. -/
theorem waitqLinkOf_append (hl' : l' ≠ []) : waitqLinkOf q (l ++ l') = waitqLinkOf q l' := by
  obtain rfl | ⟨l', z, rfl⟩ := List.eq_nil_or_concat l'
  · exact absurd rfl hl'
  · rw [List.concat_eq_append, ← List.append_assoc, waitqLinkOf_concat, waitqLinkOf_concat]

omit [DecidableEq H] in
theorem waitqLinkOf_cons {p : ℕ} : ∃ z ∈ p :: l, waitqLinkOf q (p :: l) = .next z := by
  obtain hnil | ⟨l', z, hl'⟩ := List.eq_nil_or_concat (p :: l)
  · cases hnil
  · rw [List.concat_eq_append] at hl'
    rw [hl']
    exact ⟨z, by simp, waitqLinkOf_concat⟩

omit [DecidableEq H] in
theorem waitqLinkOf_ne_next {p : ℕ} (hp : p ∉ l) : waitqLinkOf q l ≠ .next p := by
  rcases List.eq_nil_or_concat l with rfl | ⟨l, z, rfl⟩
  · exact nofun
  · rw [List.concat_eq_append, waitqLinkOf_concat]
    rintro ⟨rfl⟩
    exact hp (by simp)

end LinkOf

namespace Waitqs

variable {w : Waitqs H} {q : H} {link : WaitqLink H} {p x : ℕ}

theorem write_next : (w.write link p).next x = if link = .next x then p else w.next x := by
  cases link with
  | head q' => rfl
  | next y =>
    simp only [write, Waitqs.next, WaitqLink.next.injEq]
    rw [Heap.cell_modify]
    by_cases hx : x = y
    · rw [if_pos hx, if_pos hx.symm]
    · rw [if_neg hx, if_neg (Ne.symm hx)]

theorem write_head : (w.write link p).head q = if link = .head q then p else w.head q := by
  cases link with
  | head q' =>
    simp only [write, WaitqLink.head.injEq, eq_comm (a := q'), Function.update_apply]
  | next y => rfl

@[simp] theorem write_thread :
    ((w.write link p).items.cell x).thread = (w.items.cell x).thread := by
  cases link with
  | head q' => rfl
  | next y =>
    have hfield : ∀ x, ((w.items.modify y fun item => { item with next := p }).cell x).thread
        = (w.items.cell x).thread := Heap.modify_field (fun _ => rfl)
    exact hfield x

@[simp] theorem write_pprev :
    ((w.write link p).items.cell x).pprev = (w.items.cell x).pprev := by
  cases link with
  | head q' => rfl
  | next y =>
    have hfield : ∀ x, ((w.items.modify y fun item => { item with next := p }).cell x).pprev
        = (w.items.cell x).pprev := Heap.modify_field (fun _ => rfl)
    exact hfield x

@[simp] theorem write_live : (w.write link p).items.live = w.items.live := by
  cases link <;> rfl

omit [DecidableEq H] in
@[simp] theorem free_next : (w.free p).next = w.next := rfl

omit [DecidableEq H] in
@[simp] theorem free_head : (w.free p).head = w.head := rfl

omit [DecidableEq H] in
@[simp] theorem free_cell : (w.free p).items.cell = w.items.cell := rfl

omit [DecidableEq H] in
theorem free_live : (w.free p).items.live x = if x = p then false else w.items.live x :=
  Heap.live_free ..

/-- **An item is taken out** by the link that leads to it. -/
theorem write_linkOf {pre l : List ℕ} (h : IsChain w.next (w.head q) (pre ++ p :: l)) :
    IsChain (w.write (waitqLinkOf q pre) (w.next p)).next
      ((w.write (waitqLinkOf q pre) (w.next p)).head q) (pre ++ l) := by
  have hnodup := h.nodup
  obtain ⟨y, hlead, rfl, hp, hl⟩ := isChain_append.mp h
  rcases List.eq_nil_or_concat pre with rfl | ⟨pre, z, rfl⟩
  · rw [write_head, waitqLinkOf_nil, if_pos rfl, List.nil_append]
    exact hl.congr fun x _ => by rw [write_next, if_neg nofun]
  · rw [List.concat_eq_append] at hlead hnodup ⊢
    obtain ⟨hlead, hz, hzp⟩ := leads_concat.mp hlead
    rw [List.append_assoc, List.singleton_append, List.nodup_middle, List.nodup_cons] at hnodup
    have hsame : ∀ x, x ≠ z →
        (w.write (waitqLinkOf q (pre ++ [z])) (w.next y)).next x = w.next x := by
      intro x hx
      rw [write_next, waitqLinkOf_concat, if_neg fun heq => hx (WaitqLink.next.inj heq).symm]
    rw [write_head, waitqLinkOf_concat, if_neg nofun, isChain_append]
    refine ⟨w.next y, leads_concat.mpr ⟨?_, hz, ?_⟩, ?_⟩
    · rw [waitqLinkOf_concat] at hsame
      refine hlead.congr fun x hx => hsame x ?_
      rintro rfl
      exact hnodup.1 (List.mem_append_left _ hx)
    · rw [write_next, if_pos rfl]
    · rw [waitqLinkOf_concat] at hsame
      refine hl.congr fun x hx => hsame x ?_
      rintro rfl
      exact hnodup.1 (List.mem_append_right _ (List.mem_cons_of_mem _ hx))

end Waitqs

/-! ### Cancelling -/

/-- What `waitq_cancel` passes to `kfree`, from `ptr` on. -/
def waitqCancelFrees (thread : ℕ) : ℕ → ℕ → Waitqs H → List ℕ
  | 0, _, _ => []
  | n + 1, ptr, w =>
    if ptr = 0 then []
    else if (w.items.cell ptr).thread = thread then
      let w' := w.write (w.items.cell ptr).pprev (w.next ptr)
      let ptr' := w'.next ptr
      let w' := w'.free ptr
      ptr :: if ptr' = 0 then [] else waitqCancelFrees thread n (w'.next ptr') w'
    else waitqCancelFrees thread n (w.next ptr) w

/-- **The items `l` behind `pre` can be cancelled**: every item for the thread knows the link that
leads to it, and there is one behind it, which is for another thread. -/
def CancelFine (w : Waitqs H) (q : H) (thread : ℕ) (pre l : List ℕ) : Prop :=
  ∀ a p b, l = a ++ p :: b → (w.items.cell p).thread = thread →
    (w.items.cell p).pprev = waitqLinkOf q (pre ++ a) ∧
      ∃ s b', b = s :: b' ∧ (w.items.cell s).thread ≠ thread

/-- The items that stay. -/
def Waitqs.others (w : Waitqs H) (thread : ℕ) (l : List ℕ) : List ℕ :=
  l.filter fun p => (w.items.cell p).thread ≠ thread

/-- What is left when the items `l` behind `pre` have been looked at. -/
structure WaitqCancelled (w w' : Waitqs H) (q : H) (thread : ℕ) (pre l : List ℕ) : Prop where
  chain : IsChain w'.next (w'.head q) (pre ++ w.others thread l)
  sameThread : ∀ x, (w'.items.cell x).thread = (w.items.cell x).thread
  samePprev : ∀ x, (w'.items.cell x).pprev = (w.items.cell x).pprev
  live : ∀ x, w'.items.live x = true ↔
    w.items.live x = true ∧ ¬ (x ∈ l ∧ (w.items.cell x).thread = thread)

section Cancel
variable {w w' : Waitqs H} {q : H} {pre l : List ℕ} {thread n p s : ℕ}

omit [DecidableEq H] in
theorem Waitqs.others_congr (h : ∀ x, (w'.items.cell x).thread = (w.items.cell x).thread) :
    w'.others thread l = w.others thread l := by
  unfold Waitqs.others
  simp only [h]

omit [DecidableEq H] in
/-- One item further. -/
theorem CancelFine.tail (h : CancelFine w q thread pre (p :: l)) :
    CancelFine w q thread (pre ++ [p]) l := by
  intro a x b hl hx
  have := h (p :: a) x b (by rw [hl, List.cons_append]) hx
  rwa [List.append_assoc, List.singleton_append]

omit [DecidableEq H] in
/-- Two items further, when the first one is gone. -/
theorem CancelFine.skip (h : CancelFine w q thread pre (p :: s :: l))
    (hthread : ∀ x, (w'.items.cell x).thread = (w.items.cell x).thread)
    (hpprev : ∀ x, (w'.items.cell x).pprev = (w.items.cell x).pprev) :
    CancelFine w' q thread (pre ++ [s]) l := by
  intro a x b hl hx
  rw [hthread] at hx
  obtain ⟨hlink, r, b', hb, hr⟩ := h (p :: s :: a) x b (by simp [hl]) hx
  refine ⟨?_, r, b', hb, by rwa [hthread]⟩
  rw [hpprev, hlink, List.append_assoc, List.singleton_append,
    waitqLinkOf_append (List.cons_ne_nil p _), waitqLinkOf_append (List.cons_ne_nil s a)]
  exact waitqLinkOf_append (l := [p]) (List.cons_ne_nil s a)

/-- The queue after an item that knows the link to it has gone. -/
theorem waitqCancelled_item (h : IsChain w.next (w.head q) (pre ++ p :: s :: l))
    (hprev : (w.items.cell p).pprev = waitqLinkOf q pre)
    {w₁ : Waitqs H} (hw₁ : w₁ = (w.write (w.items.cell p).pprev (w.next p)).free p) :
    w.next p = s ∧ s ≠ 0 ∧ w₁.next p = s ∧ IsChain w₁.next (w₁.head q) (pre ++ s :: l) := by
  obtain ⟨y, hlead, rfl, hp, hs, hs0, -⟩ := isChain_append.mp h
  have hpre : y ∉ pre := by
    have hnodup := h.nodup
    rw [List.nodup_middle, List.nodup_cons] at hnodup
    exact fun hmem => hnodup.1 (List.mem_append_left _ hmem)
  subst hw₁
  refine ⟨hs, hs0, ?_, ?_⟩
  · rw [Waitqs.free_next, Waitqs.write_next, hprev, if_neg (waitqLinkOf_ne_next hpre), hs]
  · rw [Waitqs.free_next, Waitqs.free_head, hprev]
    exact Waitqs.write_linkOf h

/-- **`waitq_cancel` takes out the items for the thread**, if they can be cancelled. -/
theorem waitqCancelFrom_spec {ptr : ℕ} (hlead : Leads w.next (w.head q) pre ptr)
    (hl : IsChain w.next ptr l) (hn : l.length < n) (hfine : CancelFine w q thread pre l) :
    ∃ w', waitqCancelFrom thread n ptr w = some w' ∧ WaitqCancelled w w' q thread pre l ∧
      waitqCancelFrees thread n ptr w = l.filter fun p => (w.items.cell p).thread = thread := by
  induction n generalizing ptr w pre l with
  | zero => exact absurd hn (Nat.not_lt_zero _)
  | succ n ih =>
    cases l with
    | nil =>
      obtain rfl : ptr = 0 := hl
      rw [waitqCancelFrom, waitqCancelFrees, if_pos rfl, if_pos rfl]
      exact ⟨w, rfl, ⟨isChain_append.mpr ⟨0, hlead, rfl⟩, fun _ => rfl, fun _ => rfl, by simp⟩, rfl⟩
    | cons p l =>
      have hwhole : IsChain w.next (w.head q) (pre ++ p :: l) := isChain_append.mpr ⟨ptr, hlead, hl⟩
      obtain ⟨rfl, hp, htail⟩ := hl
      rw [waitqCancelFrom, waitqCancelFrees, if_neg hp, if_neg hp]
      rw [List.length_cons] at hn
      by_cases hthread : (w.items.cell ptr).thread = thread
      · obtain ⟨hprev, s, l, rfl, hs⟩ := hfine [] ptr l rfl hthread
        rw [List.append_nil] at hprev
        rw [if_pos hthread, if_pos hthread]
        dsimp only
        generalize hw₁ : (w.write (w.items.cell ptr).pprev (w.next ptr)).free ptr = w₁
        have hnext : (w.write (w.items.cell ptr).pprev (w.next ptr)).next ptr = w₁.next ptr := by
          rw [← hw₁]
          rfl
        obtain ⟨-, hs0, hnext₁, hchain₁⟩ := waitqCancelled_item hwhole hprev hw₁.symm
        have hthread₁ : ∀ x, (w₁.items.cell x).thread = (w.items.cell x).thread := by
          simp [← hw₁]
        have hpprev₁ : ∀ x, (w₁.items.cell x).pprev = (w.items.cell x).pprev := by
          simp [← hw₁]
        have hlive₁ : ∀ x, w₁.items.live x = if x = ptr then false else w.items.live x := by
          intro x
          rw [← hw₁, Waitqs.free_live, Waitqs.write_live]
        rw [hnext, hnext₁, if_neg hs0, if_neg hs0]
        obtain ⟨y, hlead₁, rfl, -, hl₁⟩ := isChain_append.mp hchain₁
        rw [List.length_cons] at hn
        obtain ⟨w', hrun, hcancel, hfrees⟩ := ih (leads_concat.mpr ⟨hlead₁, hs0, rfl⟩) hl₁
          (by omega) (hfine.skip hthread₁ hpprev₁)
        have hothers : w.others thread (ptr :: y :: l) = y :: w₁.others thread l := by
          rw [Waitqs.others_congr hthread₁]
          unfold Waitqs.others
          rw [List.filter_cons_of_neg (by simpa using hthread),
            List.filter_cons_of_pos (by simpa using hs)]
        refine ⟨w', hrun, ⟨?_, fun x => (hcancel.sameThread x).trans (hthread₁ x),
          fun x => (hcancel.samePprev x).trans (hpprev₁ x), fun x => ?_⟩, ?_⟩
        · rw [hothers]
          have := hcancel.chain
          rwa [List.append_assoc] at this
        · rw [hcancel.live, hlive₁, hthread₁]
          by_cases hx : x = ptr
          · simp [hx, hthread]
          · by_cases hxy : x = y
            · subst hxy
              simp [hs, hx]
            · simp [hx, hxy]
        · rw [hfrees, List.filter_cons_of_pos (by simpa using hthread),
            List.filter_cons_of_neg (by simpa using hs)]
          simp only [hthread₁]
      · rw [if_neg hthread, if_neg hthread]
        obtain ⟨w', hrun, hcancel, hfrees⟩ := ih (leads_concat.mpr ⟨hlead, hp, rfl⟩) htail
          (by omega) hfine.tail
        refine ⟨w', hrun, ⟨?_, hcancel.sameThread, hcancel.samePprev, fun x => ?_⟩, ?_⟩
        · have := hcancel.chain
          unfold Waitqs.others at this ⊢
          rwa [List.filter_cons_of_pos (by simpa using hthread), List.append_cons]
        · rw [hcancel.live]
          by_cases hx : x = ptr
          · simp [hx, hthread]
          · simp [hx]
        · rw [hfrees, List.filter_cons_of_neg (by simpa using hthread)]

/-- The loop does not change whom the items are for. -/
theorem waitqCancelFrom_thread {ptr : ℕ} (hrun : waitqCancelFrom thread n ptr w = some w') (x : ℕ) :
    (w'.items.cell x).thread = (w.items.cell x).thread := by
  induction n generalizing ptr w with
  | zero => cases hrun
  | succ n ih =>
    rw [waitqCancelFrom] at hrun
    dsimp only at hrun
    split_ifs at hrun
    · rw [← Option.some.inj hrun]
    · rw [ih hrun]
      simp
    · exact ih hrun

/-- **A loop that has got among the items `S` stays there**, and leaves the links of `front` as
they are, if no item of `S` has the address of one of them. -/
theorem waitqCancelFrom_stray {ptr : ℕ} (front : List ℕ) (S : ℕ → Prop) (hptr : ptr = 0 ∨ S ptr)
    (hclosed : ∀ x, S x → w.next x = 0 ∨ S (w.next x))
    (hhead : ∀ x, S x → (w.items.cell x).pprev ≠ .head q)
    (hpre : ∀ x, S x → ∀ z ∈ front, (w.items.cell x).pprev ≠ .next z)
    (hrun : waitqCancelFrom thread n ptr w = some w') :
    w'.head q = w.head q ∧ (∀ z ∈ front, w'.next z = w.next z) ∧
      ∀ x, ¬ S x → w'.items.live x = w.items.live x := by
  induction n generalizing ptr w with
  | zero => cases hrun
  | succ n ih =>
    rw [waitqCancelFrom] at hrun
    by_cases h0 : ptr = 0
    · rw [if_pos h0] at hrun
      obtain rfl := Option.some.inj hrun
      exact ⟨rfl, fun _ _ => rfl, fun _ _ => rfl⟩
    have hS := hptr.resolve_left h0
    rw [if_neg h0] at hrun
    by_cases hthread : (w.items.cell ptr).thread = thread
    · rw [if_pos hthread] at hrun
      dsimp only at hrun
      generalize hw₁ : (w.write (w.items.cell ptr).pprev (w.next ptr)).free ptr = w₁ at hrun
      have hnext : ∀ x, w₁.next x =
          if (w.items.cell ptr).pprev = .next x then w.next ptr else w.next x := by
        intro x
        rw [← hw₁, Waitqs.free_next, Waitqs.write_next]
      have hclosed₁ : ∀ x, S x → w₁.next x = 0 ∨ S (w₁.next x) := by
        intro x hx
        rw [hnext]
        split_ifs
        · exact hclosed ptr hS
        · exact hclosed x hx
      have hpprev₁ : ∀ x, (w₁.items.cell x).pprev = (w.items.cell x).pprev := by
        simp [← hw₁]
      have hlast : (w.write (w.items.cell ptr).pprev (w.next ptr)).next ptr = w₁.next ptr := by
        rw [← hw₁]
        rfl
      rw [hlast] at hrun
      by_cases hend : w₁.next ptr = 0
      · rw [if_pos hend] at hrun
        cases hrun
      rw [if_neg hend] at hrun
      have hskip := (hclosed₁ ptr hS).resolve_left hend
      obtain ⟨hhead', hpre', hlive'⟩ := ih (hclosed₁ _ hskip) hclosed₁
        (fun x hx => by rw [hpprev₁]; exact hhead x hx)
        (fun x hx => by rw [hpprev₁]; exact hpre x hx) hrun
      refine ⟨hhead'.trans ?_, fun z hz => (hpre' z hz).trans ?_,
        fun x hx => (hlive' x hx).trans ?_⟩
      · rw [← hw₁, Waitqs.free_head, Waitqs.write_head, if_neg (hhead ptr hS)]
      · rw [hnext, if_neg (hpre ptr hS z hz)]
      · have hne : x ≠ ptr := fun heq => hx (heq ▸ hS)
        rw [← hw₁, Waitqs.free_live, if_neg hne, Waitqs.write_live]
    · rw [if_neg hthread] at hrun
      exact ih (hclosed ptr hS) hclosed hhead hpre hrun

/-- **The items `l` behind `pre` know an item before them or one that was there when they came.**
That one has gone since, or comes behind them now. -/
def LinksOrdered (w : Waitqs H) (q : H) (pre l : List ℕ) : Prop :=
  ∀ a p b, l = a ++ p :: b → (w.items.cell p).pprev = waitqLinkOf q (pre ++ a) ∨
    ∃ m, (w.items.cell p).pprev = .next m ∧ m ∉ pre ++ a ∧ m ≠ p

omit [DecidableEq H] in
theorem LinksOrdered.tail (h : LinksOrdered w q pre (p :: l)) :
    LinksOrdered w q (pre ++ [p]) l := by
  intro a x b hl
  have := h (p :: a) x b (by rw [hl, List.cons_append])
  rwa [List.append_assoc, List.singleton_append]

omit [DecidableEq H] in
theorem LinksOrdered.skip (h : LinksOrdered w q pre (p :: s :: l))
    (hpprev : ∀ x, (w'.items.cell x).pprev = (w.items.cell x).pprev) :
    LinksOrdered w' q (pre ++ [s]) l := by
  intro a x b hl
  rw [hpprev]
  refine (h (p :: s :: a) x b (by simp [hl])).imp (fun hlink => ?_) ?_
  · rw [hlink, List.append_assoc, List.singleton_append,
      waitqLinkOf_append (List.cons_ne_nil p _), waitqLinkOf_append (List.cons_ne_nil s a)]
    exact waitqLinkOf_append (l := [p]) (List.cons_ne_nil s a)
  · rintro ⟨m, hm, hnot, hne⟩
    refine ⟨m, hm, fun hmem => hnot ?_, hne⟩
    rw [List.append_assoc, List.singleton_append, List.mem_append] at hmem
    exact List.mem_append.mpr (hmem.imp_right (List.mem_cons_of_mem p))

omit [DecidableEq H] in
/-- Behind the first item no item has the address of a link up to it. -/
theorem LinksOrdered.behind (h : LinksOrdered w q pre (p :: l)) (hnodup : (pre ++ p :: l).Nodup)
    {x : ℕ} (hx : x ∈ l) :
    (w.items.cell x).pprev ≠ .head q ∧ ∀ z ∈ pre, (w.items.cell x).pprev ≠ .next z := by
  obtain ⟨a, b, rfl⟩ := List.append_of_mem hx
  rcases h (p :: a) x b rfl with hlink | ⟨m, hm, hnot, -⟩
  · rw [waitqLinkOf_append (List.cons_ne_nil p a)] at hlink
    obtain ⟨y, hy, hlast⟩ := waitqLinkOf_cons (q := q) (p := p) (l := a)
    rw [hlink, hlast]
    refine ⟨nofun, ?_⟩
    rintro z hz ⟨rfl⟩
    have hdisjoint := List.disjoint_of_nodup_append hnodup
    refine hdisjoint hz ?_
    rw [← List.cons_append]
    exact List.mem_append_left _ hy
  · rw [hm]
    refine ⟨nofun, ?_⟩
    rintro z hz ⟨rfl⟩
    exact hnot (List.mem_append_left _ hz)

omit [DecidableEq H] in
/-- The first item and the others. -/
theorem CancelFine.cons (h : CancelFine w q thread (pre ++ [p]) l)
    (hp : (w.items.cell p).thread ≠ thread) : CancelFine w q thread pre (p :: l) := by
  intro a x b hl hx
  cases a with
  | nil =>
    obtain ⟨rfl, rfl⟩ := List.cons.inj hl
    exact absurd hx hp
  | cons y a =>
    obtain ⟨rfl, rfl⟩ := List.cons.inj hl
    have := h a x b rfl hx
    rwa [List.append_assoc, List.singleton_append] at this

omit [DecidableEq H] in
/-- An item for the thread that goes, the one behind it, and the others. -/
theorem CancelFine.cons_cons (h : CancelFine w' q thread (pre ++ [s]) l)
    (hprev : (w.items.cell p).pprev = waitqLinkOf q pre)
    (hs : (w.items.cell s).thread ≠ thread)
    (hthread : ∀ x, (w'.items.cell x).thread = (w.items.cell x).thread)
    (hpprev : ∀ x, (w'.items.cell x).pprev = (w.items.cell x).pprev) :
    CancelFine w q thread pre (p :: s :: l) := by
  intro a x b hl hx
  cases a with
  | nil =>
    obtain ⟨rfl, rfl⟩ := List.cons.inj hl
    exact ⟨by rwa [List.append_nil], s, l, rfl, hs⟩
  | cons y a =>
    obtain ⟨rfl, htail⟩ := List.cons.inj hl
    cases a with
    | nil =>
      obtain ⟨rfl, rfl⟩ := List.cons.inj htail
      exact absurd hx hs
    | cons y' a =>
      obtain ⟨rfl, rfl⟩ := List.cons.inj htail
      obtain ⟨hlink, r, b', hb, hr⟩ := h a x b rfl ((hthread x).trans hx)
      refine ⟨?_, r, b', hb, by rwa [← hthread]⟩
      rw [← hpprev, hlink, List.append_assoc, List.singleton_append,
        waitqLinkOf_append (List.cons_ne_nil s a), waitqLinkOf_append (List.cons_ne_nil p _)]
      exact (waitqLinkOf_append (l := [p]) (List.cons_ne_nil s a)).symm

/-- **Only items that can be cancelled leave the queue in order.**  Here `l'` is the queue that
is left: all its items are in use, none is for the thread, and of the items looked at those in
use are in it. -/
theorem waitqCancelFrom_fine {ptr : ℕ} {l' : List ℕ} (hlead : Leads w.next (w.head q) pre ptr)
    (hl : IsChain w.next ptr l) (hordered : LinksOrdered w q pre l)
    (hlive : ∀ x ∈ l, w.items.live x = true) (hrun : waitqCancelFrom thread n ptr w = some w')
    (hqueue : w'.Queue q l') (hothers : ∀ x ∈ l', (w.items.cell x).thread ≠ thread)
    (hall : ∀ x ∈ l, w'.items.live x = true → x ∈ l') : CancelFine w q thread pre l := by
  induction n generalizing ptr w pre l with
  | zero => cases hrun
  | succ n ih =>
    cases l with
    | nil => exact fun a p b hl => by simp at hl
    | cons p l =>
      have hwhole : IsChain w.next (w.head q) (pre ++ p :: l) := isChain_append.mpr ⟨ptr, hlead, hl⟩
      have hnodup := hwhole.nodup
      obtain ⟨rfl, hp, htail⟩ := hl
      rw [waitqCancelFrom, if_neg hp] at hrun
      by_cases hthread : (w.items.cell ptr).thread = thread
      swap
      · rw [if_neg hthread] at hrun
        refine CancelFine.cons ?_ hthread
        exact ih (leads_concat.mpr ⟨hlead, hp, rfl⟩) htail hordered.tail
          (fun x hx => hlive x (List.mem_cons_of_mem _ hx)) hrun hothers
          fun x hx => hall x (List.mem_cons_of_mem _ hx)
      rw [if_pos hthread] at hrun
      dsimp only at hrun
      generalize hw₁ : (w.write (w.items.cell ptr).pprev (w.next ptr)).free ptr = w₁ at hrun
      have hlast : (w.write (w.items.cell ptr).pprev (w.next ptr)).next ptr = w₁.next ptr := by
        rw [← hw₁]
        rfl
      rw [hlast] at hrun
      by_cases hend : w₁.next ptr = 0
      · rw [if_pos hend] at hrun
        cases hrun
      rw [if_neg hend] at hrun
      have hthread₁ : ∀ x, (w₁.items.cell x).thread = (w.items.cell x).thread := by
        simp [← hw₁]
      have hpprev₁ : ∀ x, (w₁.items.cell x).pprev = (w.items.cell x).pprev := by
        simp [← hw₁]
      have hlive₁ : ∀ x, w₁.items.live x = if x = ptr then false else w.items.live x := by
        intro x
        rw [← hw₁, Waitqs.free_live, Waitqs.write_live]
      obtain ⟨hpre, hpl⟩ : ptr ∉ pre ∧ ptr ∉ l := by
        rw [List.nodup_middle, List.nodup_cons] at hnodup
        exact not_or.mp (List.mem_append.not.mp hnodup.1)
      rcases hordered [] ptr l rfl with hprev | ⟨m, hm, hmpre, hmp⟩
      · rw [List.append_nil] at hprev
        cases l with
        | nil =>
          -- the last item: the loop goes on from `NULL`
          refine absurd ?_ hend
          rw [← hw₁, Waitqs.free_next, Waitqs.write_next, hprev, if_neg (waitqLinkOf_ne_next hpre)]
          exact htail
        | cons s l =>
          obtain ⟨-, hs0, hnext₁, hchain₁⟩ := waitqCancelled_item hwhole hprev hw₁.symm
          rw [hnext₁] at hrun
          obtain ⟨y, hlead₁, rfl, -, hl₁⟩ := isChain_append.mp hchain₁
          by_cases hs : (w.items.cell y).thread = thread
          · -- the loop passes over the next item, and does not come back
            exfalso
            obtain ⟨-, -, hlive'⟩ := waitqCancelFrom_stray [] (· ∈ l)
              (by
                cases l with
                | nil => exact Or.inl hl₁
                | cons z l => exact Or.inr (hl₁.1 ▸ List.mem_cons_self))
              (fun x hx => hl₁.next_mem hx)
              (fun x hx => by
                rw [hpprev₁]
                exact (hordered.behind hnodup (List.mem_cons_of_mem _ hx)).1)
              (fun x _ z hz => by cases hz) hrun
            have hyl : y ∉ l := by
              have := hchain₁.nodup
              rw [List.nodup_middle, List.nodup_cons] at this
              exact fun hmem => this.1 (List.mem_append_right _ hmem)
            have hyp : y ≠ ptr := fun heq => hpl (heq ▸ List.mem_cons_self)
            refine hothers y (hall y (by simp) ?_) hs
            rw [hlive' y hyl, hlive₁, if_neg hyp]
            exact hlive y (by simp)
          · refine CancelFine.cons_cons ?_ hprev hs hthread₁ hpprev₁
            refine ih (leads_concat.mpr ⟨hlead₁, hs0, rfl⟩) hl₁ (hordered.skip hpprev₁)
              (fun x hx => ?_) hrun (fun x hx => by rw [hthread₁]; exact hothers x hx)
              fun x hx => hall x (by simp [hx])
            have hne : x ≠ ptr := fun heq => hpl (heq ▸ List.mem_cons_of_mem _ hx)
            rw [hlive₁, if_neg hne]
            exact hlive x (by simp [hx])
      · -- the link that leads to the item stays, and leads to it when it is freed
        exfalso
        rw [List.append_nil] at hmpre
        rw [hm] at hw₁
        have hnext : ∀ x, w₁.next x = if m = x then w.next ptr else w.next x := by
          intro x
          rw [← hw₁, Waitqs.free_next, Waitqs.write_next]
          simp only [WaitqLink.next.injEq]
        have hfirst : w.next ptr = 0 ∨ w.next ptr ∈ l := by
          cases l with
          | nil => exact Or.inl htail
          | cons z l => exact Or.inr (htail.1 ▸ List.mem_cons_self)
        have hclosed : ∀ x ∈ l, w₁.next x = 0 ∨ w₁.next x ∈ l := by
          intro x hx
          rw [hnext]
          split_ifs
          · exact hfirst
          · exact htail.next_mem hx
        have hstart : w₁.next ptr ∈ l := by
          rw [hnext, if_neg hmp] at hend ⊢
          exact hfirst.resolve_left hend
        obtain ⟨hhead', hpre', hlive'⟩ := waitqCancelFrom_stray pre (· ∈ l)
          (hclosed _ hstart) hclosed
          (fun x hx => by rw [hpprev₁]; exact (hordered.behind hnodup hx).1)
          (fun x hx => by rw [hpprev₁]; exact (hordered.behind hnodup hx).2) hrun
        have hlead' : Leads w'.next (w'.head q) pre ptr := by
          rw [hhead', ← hw₁, Waitqs.free_head, Waitqs.write_head, if_neg nofun]
          refine hlead.congr fun z hz => ?_
          rw [hpre' z hz, hnext, if_neg fun heq : m = z => hmpre (heq ▸ hz)]
        have hmem := hqueue.1.mem_of_reaches (hlead'.reaches hp)
        have hdead := hqueue.2 ptr hmem
        rw [hlive' ptr hpl, hlive₁, if_pos rfl] at hdead
        cases hdead

omit [DecidableEq H] in
/-- Items that go leave the others as `LinksOrdered` says. -/
theorem LinksOrdered.sublist {l' : List ℕ} (h : LinksOrdered w q [] l) (hsub : l'.Sublist l)
    (hnodup : l.Nodup) (hpprev : ∀ p ∈ l', (w'.items.cell p).pprev = (w.items.cell p).pprev) :
    LinksOrdered w' q [] l' := by
  rintro a p b rfl
  obtain ⟨l₁, l₂, rfl, ha, hb⟩ := List.append_sublist_iff.mp hsub
  obtain ⟨r₁, r₂, rfl, hp, -⟩ := List.cons_sublist_iff.mp hb
  obtain ⟨c, d, rfl⟩ := List.append_of_mem hp
  have ha' : a.Sublist (l₁ ++ c) := ha.trans (List.sublist_append_left l₁ c)
  have hsplit : l₁ ++ (c ++ p :: d ++ r₂) = (l₁ ++ c) ++ p :: (d ++ r₂) := by simp
  rw [hsplit] at h hnodup
  rw [hpprev p (by simp), List.nil_append]
  rw [List.nodup_middle, List.nodup_cons] at hnodup
  obtain ⟨hpc, hnodup⟩ := hnodup
  have hdisjoint := (List.nodup_append.mp hnodup).1
  rcases h (l₁ ++ c) p (d ++ r₂) rfl with hlink | ⟨m, hm, hnot, hne⟩
  · rw [List.nil_append] at hlink
    rw [hlink]
    have hpc' : p ∉ l₁ ++ c := fun hmem => hpc (List.mem_append_left _ hmem)
    generalize l₁ ++ c = front at ha' hdisjoint hpc'
    -- the item before may have gone
    rcases List.eq_nil_or_concat front with rfl | ⟨front, z, rfl⟩
    · obtain rfl := List.sublist_nil.mp ha'
      exact Or.inl rfl
    · rw [List.concat_eq_append] at ha' hdisjoint hpc' ⊢
      obtain ⟨a₁, a₂, rfl, h₁, h₂⟩ := List.sublist_append_iff.mp ha'
      rw [waitqLinkOf_concat]
      rcases List.sublist_singleton.mp h₂ with rfl | rfl
      · refine Or.inr ⟨z, rfl, fun hz => ?_, fun heq => hpc' (by simp [heq])⟩
        rw [List.append_nil] at hz
        exact List.disjoint_of_nodup_append hdisjoint (h₁.subset hz) (List.mem_singleton_self z)
      · exact Or.inl waitqLinkOf_concat.symm
  · exact Or.inr ⟨m, hm, fun hmem => hnot (by simpa using ha'.subset hmem), hne⟩

end Cancel

/-! ### Runs -/

/-- What `waitq_remove` passes to `kfree`. -/
def waitqRemoveFrees (w : Waitqs H) (q : H) : List ℕ := if w.head q = 0 then [] else [w.head q]

/-- Every item that is freed was in use, and is freed once. -/
def FreedOnce (w : Waitqs H) (frees : List ℕ) : Prop :=
  frees.Nodup ∧ ∀ p ∈ frees, w.items.live p = true

instance (w : Waitqs H) (frees : List ℕ) : Decidable (FreedOnce w frees) :=
  inferInstanceAs (Decidable (_ ∧ _))

/-- The life of a queue. -/
structure WaitqRun (H : Type) where
  w : Waitqs H
  /-- The threads, in the order in which they are to leave. -/
  wanted : List ℕ
  /-- So far the answers have been those of a list, and no item was freed twice. -/
  right : Bool

/-- The calls. -/
inductive WaitqAct where
  /-- `kmalloc` gives the block `new`. -/
  | add (thread new : ℕ)
  | remove
  | cancel (thread : ℕ)

/-- One call; there is no next state when it does not return. -/
def waitqStep (q : H) (fuel : ℕ) (s : WaitqRun H) : WaitqAct → Option (WaitqRun H)
  | .add thread new => (waitqAdd s.w fuel q thread new).map fun r =>
    ⟨r.2, s.wanted ++ [thread], s.right && r.1⟩
  | .remove =>
    let r := waitqRemove s.w q
    some ⟨r.2, s.wanted.tail, s.right && decide (r.1 = s.wanted.head?.getD 0 ∧
      (r.1 = 0 ↔ s.wanted = []) ∧ FreedOnce s.w (waitqRemoveFrees s.w q))⟩
  | .cancel thread => (waitqCancel s.w fuel q thread).map fun w =>
    ⟨w, s.wanted.filter (· ≠ thread), s.right &&
      decide (FreedOnce s.w (waitqCancelFrees thread fuel (s.w.head q) s.w))⟩

/-- There is memory, what is added is a thread, and the loops may go on to the end of the
queue. -/
def WaitqAllowed (fuel : ℕ) (s : WaitqRun H) : WaitqAct → Prop
  | .add thread new => s.wanted.length < fuel ∧ thread ≠ 0 ∧ new ≠ 0 ∧ s.w.items.live new = false
  | .remove => True
  | .cancel _ => s.wanted.length < fuel

instance (fuel : ℕ) (s : WaitqRun H) : ∀ act, Decidable (WaitqAllowed fuel s act)
  | .add _ _ => inferInstanceAs (Decidable (_ ∧ _ ∧ _ ∧ _))
  | .remove => .isTrue trivial
  | .cancel _ => inferInstanceAs (Decidable (_ < _))

/-- **The queue is the list that it should be.**  The items in use are those in the queue, and
what was in use before. -/
def WaitqRun.IsFifo (w₀ : Waitqs H) (q : H) (s : WaitqRun H) : Prop :=
  s.right = true ∧ ∃ l, s.w.Queue q l ∧ s.w.threads l = s.wanted ∧
    ∀ p, s.w.items.live p = true ↔ w₀.items.live p = true ∨ p ∈ l

/-- **The calls that find the links as they are.**  The first item knows the head of the queue
when it is removed; where items are cancelled, they know the links that lead to them, and none
is the last one or has another one for the thread behind it. -/
def WaitqKnows (q : H) (s : WaitqRun H) : WaitqAct → Prop
  | .add _ _ => True
  | .remove => s.w.head q ≠ 0 → (s.w.items.cell (s.w.head q)).pprev = .head q
  | .cancel thread => ∀ l, IsChain s.w.next (s.w.head q) l → CancelFine s.w q thread [] l

/-- The invariant. -/
structure WaitqInv (w₀ : Waitqs H) (q : H) (s : WaitqRun H) (l : List ℕ) : Prop where
  right : s.right = true
  queue : s.w.Queue q l
  threads : s.w.threads l = s.wanted
  live : ∀ p, s.w.items.live p = true ↔ w₀.items.live p = true ∨ p ∈ l
  apart : ∀ p ∈ l, w₀.items.live p = false
  ordered : LinksOrdered s.w q [] l
  nonzero : 0 ∉ s.wanted

section Run
variable {w₀ w w' : Waitqs H} {q : H} {fuel thread new : ℕ} {s s' : WaitqRun H} {l : List ℕ}

omit [DecidableEq H] in
theorem WaitqInv.length_eq (h : WaitqInv w₀ q s l) : s.wanted.length = l.length := by
  rw [← h.threads, Waitqs.threads, List.length_map]

/-- What `waitq_add` allocates. -/
theorem waitqAdd_live {b : Bool} (hnew : new ≠ 0) (h : waitqAdd w fuel q thread new = some (b, w'))
    (p : ℕ) : w'.items.live p = if p = new then true else w.items.live p := by
  rw [waitqAdd, if_neg hnew] at h
  obtain ⟨ptr, -, h⟩ := Option.bind_eq_some_iff.mp h
  obtain ⟨items, halloc, h⟩ := Option.map_eq_some_iff.mp h
  obtain ⟨-, rfl⟩ := Prod.mk.inj h
  rw [Waitqs.write_live]
  exact Heap.live_alloc halloc p

/-- **An item that is added** knows the link that leads to it. -/
theorem WaitqInv.add (h : WaitqInv w₀ q s l) (hfuel : s.wanted.length < fuel) (hthread : thread ≠ 0)
    (hnew : new ≠ 0) (hlive : s.w.items.live new = false) :
    ∃ s', waitqStep q fuel s (.add thread new) = some s' ∧ WaitqInv w₀ q s' (l ++ [new]) := by
  obtain ⟨w', hadd, hqueue, hthreads, hold, hprev⟩ :=
    waitqAdd_spec thread h.queue (h.length_eq ▸ hfuel) hnew hlive
  have hfresh : new ∉ l := fun hmem => by simp [h.queue.2 new hmem] at hlive
  have halive := waitqAdd_live hnew hadd
  rw [waitqStep, hadd, Option.map_some]
  refine ⟨_, rfl, by rw [h.right]; rfl, hqueue, by rw [hthreads, h.threads], fun p => ?_, ?_, ?_,
    ?_⟩
  · dsimp only
    rw [halive]
    by_cases hp : p = new
    · simp [hp]
    · simp [hp, h.live]
  · intro p hp
    rcases List.mem_append.mp hp with hp | hp
    · exact h.apart p hp
    · rw [List.mem_singleton.mp hp]
      by_contra hboot
      have := (h.live new).mpr (Or.inl (by simpa using hboot))
      rw [hlive] at this
      cases this
  · intro a p b hab
    rcases List.eq_nil_or_concat b with rfl | ⟨b, z, rfl⟩
    · obtain ⟨rfl, hp⟩ := List.append_inj' hab rfl
      obtain rfl := List.head_eq_of_cons_eq hp
      left
      dsimp only
      rw [hprev, List.nil_append]
      rcases List.eq_nil_or_concat l with rfl | ⟨l, z, rfl⟩
      · rfl
      · simp
    · rw [List.concat_eq_append, ← List.cons_append, ← List.append_assoc] at hab
      obtain ⟨rfl, -⟩ := List.append_inj' hab rfl
      have hpn : p ≠ new := fun heq => hfresh (by simp [heq])
      dsimp only
      rw [hold p hpn]
      exact h.ordered a p b rfl
  · simpa using ⟨h.nonzero, hthread.symm⟩

/-- **The first item is removed** if it knows the head of the queue. -/
theorem WaitqInv.remove (h : WaitqInv w₀ q s l) (hknows : WaitqKnows q s .remove) :
    ∃ s' l', waitqStep q fuel s .remove = some s' ∧ WaitqInv w₀ q s' l' := by
  have hthreads := h.threads
  cases l with
  | nil =>
    have hhead : s.w.head q = 0 := h.queue.1
    have hwanted : s.wanted = [] := hthreads.symm
    refine ⟨_, [], rfl, ?_, ?_, ?_, ?_, nofun, ?_, ?_⟩
    · simp [h.right, waitqRemove, waitqRemoveFrees, hhead, hwanted, FreedOnce]
    · rw [waitqRemove, if_pos hhead]
      exact h.queue
    · rw [hwanted]
      rfl
    · rw [waitqRemove, if_pos hhead]
      exact h.live
    · exact fun a p b hab => by simp at hab
    · rw [hwanted]
      exact List.not_mem_nil
  | cons p l =>
    obtain ⟨hhead, hp, -⟩ := h.queue.1
    have hprev : (s.w.items.cell p).pprev = .head q := by
      have := hknows (by rw [hhead]; exact hp)
      rwa [hhead] at this
    obtain ⟨hanswer, hqueue, hcell⟩ := waitqRemove_spec h.queue hprev
    have hnodup := h.queue.1.nodup
    have hpl : p ∉ l := (List.nodup_cons.mp hnodup).1
    have hlive : ∀ x, (waitqRemove s.w q).2.items.live x
        = if x = p then false else s.w.items.live x := by
      intro x
      rw [waitqRemove, if_neg (by rw [hhead]; exact hp), hhead]
      dsimp only
      rw [Waitqs.free_live, Waitqs.write_live]
    rw [Waitqs.threads, List.map_cons] at hthreads
    have hnonzero := h.nonzero
    rw [← hthreads, List.mem_cons, not_or] at hnonzero
    refine ⟨_, l, rfl, ?_, hqueue, ?_, fun x => ?_,
      fun x hx => h.apart x (List.mem_cons_of_mem p hx), ?_, ?_⟩
    · have hfrees : waitqRemoveFrees s.w q = [p] := by
        rw [waitqRemoveFrees, if_neg (by rw [hhead]; exact hp), hhead]
      dsimp only
      rw [h.right, hfrees, hanswer, ← hthreads, Bool.true_and, decide_eq_true_eq]
      refine ⟨rfl, iff_of_false (Ne.symm hnonzero.1) (List.cons_ne_nil _ _),
        List.nodup_singleton p, fun x hx => ?_⟩
      rw [List.mem_singleton.mp hx]
      exact h.queue.2 p List.mem_cons_self
    · dsimp only
      rw [Waitqs.threads, hcell, ← hthreads]
      rfl
    · dsimp only
      rw [hlive]
      by_cases hx : x = p
      · subst hx
        simp [hpl, h.apart x List.mem_cons_self]
      · simp [hx, h.live]
    · refine h.ordered.sublist (List.sublist_cons_self p l) hnodup fun x _ => ?_
      dsimp only
      rw [hcell]
    · dsimp only
      rw [← hthreads]
      exact hnonzero.2

/-- **The items for a thread are cancelled** if they can be. -/
theorem WaitqInv.cancel (h : WaitqInv w₀ q s l) (hfuel : s.wanted.length < fuel)
    (hknows : WaitqKnows q s (.cancel thread)) :
    ∃ s' l', waitqStep q fuel s (.cancel thread) = some s' ∧ WaitqInv w₀ q s' l' := by
  have hlead : Leads s.w.next (s.w.head q) [] (s.w.head q) := rfl
  obtain ⟨w', hrun, hcancel, hfrees⟩ := waitqCancelFrom_spec hlead h.queue.1
    (h.length_eq ▸ hfuel) (hknows l h.queue.1)
  have hnodup := h.queue.1.nodup
  have hothers : ∀ x, x ∈ s.w.others thread l ↔
      x ∈ l ∧ (s.w.items.cell x).thread ≠ thread := by
    intro x
    simp [Waitqs.others]
  have hsub : (s.w.others thread l).Sublist l := List.filter_sublist
  rw [waitqStep, waitqCancel, hrun, Option.map_some]
  refine ⟨_, s.w.others thread l, rfl, ?_, ⟨hcancel.chain, fun x hx => ?_⟩, ?_, fun x => ?_,
    fun x hx => h.apart x (hsub.subset hx), ?_, ?_⟩
  · rw [h.right, hfrees, Bool.true_and, decide_eq_true_eq]
    exact ⟨hnodup.filter _, fun x hx => h.queue.2 x (List.mem_of_mem_filter hx)⟩
  · obtain ⟨hx, hne⟩ := (hothers x).mp hx
    exact (hcancel.live x).mpr ⟨h.queue.2 x hx, fun hboth => hne hboth.2⟩
  · dsimp only
    rw [← h.threads, Waitqs.threads, Waitqs.threads, Waitqs.others, List.filter_map]
    simp only [hcancel.sameThread]
    rfl
  · dsimp only
    rw [hcancel.live, h.live, hothers]
    constructor
    · rintro ⟨hboot | hx, hnot⟩
      · exact Or.inl hboot
      · exact Or.inr ⟨hx, fun heq => hnot ⟨hx, heq⟩⟩
    · rintro (hboot | ⟨hx, hne⟩)
      · refine ⟨Or.inl hboot, fun hboth => ?_⟩
        rw [h.apart x hboth.1] at hboot
        cases hboot
      · exact ⟨Or.inr hx, fun hboth => hne hboth.2⟩
  · exact h.ordered.sublist hsub hnodup fun x _ => hcancel.samePprev x
  · exact fun hmem => h.nonzero (List.mem_of_mem_filter hmem)

/-- **The calls that leave the queue a list** find the links as they are. -/
theorem WaitqInv.exact (h : WaitqInv w₀ q s l) {act : WaitqAct}
    (hstep : waitqStep q fuel s act = some s') (hfifo : s'.IsFifo w₀ q) : WaitqKnows q s act := by
  obtain ⟨-, l', hqueue, hthreads, hlive⟩ := hfifo
  cases act with
  | add thread new => trivial
  | remove =>
    intro hne
    cases l with
    | nil => exact absurd h.queue.1 hne
    | cons p l =>
      rw [waitqStep] at hstep
      obtain rfl := Option.some.inj hstep
      rw [h.queue.1.1]
      by_contra hprev
      exact waitqRemove_stuck h.queue hprev l' hqueue
  | cancel thread =>
    intro l₁ hl₁
    obtain rfl := h.queue.1.unique hl₁
    rw [waitqStep, waitqCancel] at hstep
    obtain ⟨w', hrun, rfl⟩ := Option.map_eq_some_iff.mp hstep
    have hlead : Leads s.w.next (s.w.head q) [] (s.w.head q) := rfl
    have hsame : ∀ x, (w'.items.cell x).thread = (s.w.items.cell x).thread :=
      waitqCancelFrom_thread hrun
    refine waitqCancelFrom_fine hlead h.queue.1 h.ordered h.queue.2 hrun hqueue
      (fun x hx heq => ?_) fun x hx hx' => ?_
    · have hmem : thread ∈ w'.threads l' := List.mem_map.mpr ⟨x, hx, (hsame x).trans heq⟩
      rw [hthreads] at hmem
      simp at hmem
    · have hor := (hlive x).mp hx'
      rw [h.apart x hx] at hor
      exact hor.resolve_left Bool.false_ne_true

end Run

/-- **A wait queue is a list** in every run whose calls find the links as they are, and in no
other: then every call returns, answers as for the list and frees each item it takes out once,
and what is in use of the items is what is in the queue. -/
theorem waitq_fifo_iff {w₀ : Waitqs H} {q : H} (hempty : w₀.head q = 0) {fuel : ℕ}
    {acts : List WaitqAct}
    (hallowed : Along (waitqStep q fuel) (WaitqAllowed fuel) ⟨w₀, [], true⟩ acts) :
    ((∃ s, run (waitqStep q fuel) ⟨w₀, [], true⟩ acts = some s) ∧
        ∀ acts₁ s₁, acts₁ <+: acts → run (waitqStep q fuel) ⟨w₀, [], true⟩ acts₁ = some s₁ →
          s₁.IsFifo w₀ q) ↔
      Along (waitqStep q fuel) (WaitqKnows q) ⟨w₀, [], true⟩ acts := by
  refine served_iff_along (I := fun s => ∃ l, WaitqInv w₀ q s l) ?_ ?_ ?_ ?_ hallowed
  · rintro s ⟨l, h⟩
    exact ⟨h.right, l, h.queue, h.threads, h.live⟩
  · rintro s act ⟨l, h⟩ hD hG
    cases act with
    | add thread new =>
      obtain ⟨hfuel, hthread, hnew, hlive⟩ := hD
      obtain ⟨s', hstep, h'⟩ := h.add hfuel hthread hnew hlive
      exact ⟨s', hstep, _, h'⟩
    | remove =>
      obtain ⟨s', l', hstep, h'⟩ := h.remove hG
      exact ⟨s', hstep, l', h'⟩
    | cancel thread =>
      obtain ⟨s', l', hstep, h'⟩ := h.cancel hD hG
      exact ⟨s', hstep, l', h'⟩
  · rintro s act s' ⟨l, h⟩ - hstep hfifo
    exact h.exact hstep hfifo
  · exact ⟨[], rfl, ⟨hempty, nofun⟩, rfl, fun p => by simp, nofun,
      fun a p b hab => by simp at hab, List.not_mem_nil⟩

/-- No items, and one queue. -/
def noItems : Waitqs Unit := ⟨⟨fun _ => ⟨0, 0, .head ()⟩, fun _ => false⟩, fun _ => 0⟩

/-- Two threads wait one after the other. -/
theorem waitq_fifo_noItems :
    (∃ s, run (waitqStep () 9) ⟨noItems, [], true⟩
        [.add 1 100, .remove, .add 2 100, .remove] = some s) ∧
      ∀ acts₁ s₁, acts₁ <+: [.add 1 100, .remove, .add 2 100, .remove] →
        run (waitqStep () 9) ⟨noItems, [], true⟩ acts₁ = some s₁ → s₁.IsFifo noItems () := by
  have hallowed : Along (waitqStep () 9) (WaitqAllowed 9) ⟨noItems, [], true⟩
      [.add 1 100, .remove, .add 2 100, .remove] := by
    decide +kernel
  refine (waitq_fifo_iff rfl hallowed).mpr ⟨trivial, ?_⟩
  rintro s ⟨⟩
  refine ⟨fun _ => rfl, ?_⟩
  rintro s ⟨⟩
  refine ⟨trivial, ?_⟩
  rintro s ⟨⟩
  exact ⟨fun _ => rfl, fun _ _ => trivial⟩

/-- Two threads wait, and both are woken: the second item still has the address of the first. -/
theorem waitq_not_fifo : ¬ ∀ (fuel : ℕ) (acts : List WaitqAct),
    Along (waitqStep () fuel) (WaitqAllowed fuel) ⟨noItems, [], true⟩ acts →
    (∃ s, run (waitqStep () fuel) ⟨noItems, [], true⟩ acts = some s) ∧
      ∀ acts₁ s₁, acts₁ <+: acts → run (waitqStep () fuel) ⟨noItems, [], true⟩ acts₁ = some s₁ →
        s₁.IsFifo noItems () := by
  intro hall
  have hallowed : Along (waitqStep () 9) (WaitqAllowed 9) ⟨noItems, [], true⟩
      [.add 1 100, .add 2 200, .remove, .remove] := by
    decide +kernel
  obtain ⟨-, hfifo⟩ := hall 9 _ hallowed
  have hlast : (run (waitqStep () 9) ⟨noItems, [], true⟩
      [.add 1 100, .add 2 200, .remove, .remove]).map
        (fun s => (s.w.head (), s.w.items.live 200)) = some (200, false) := by
    decide +kernel
  obtain ⟨s, hrun, heq⟩ := Option.map_eq_some_iff.mp hlast
  obtain ⟨hhead, hdead⟩ := Prod.mk.inj heq
  obtain ⟨-, l, hqueue, -⟩ := hfifo _ s (List.prefix_refl _) hrun
  cases l with
  | nil =>
    have : s.w.head () = 0 := hqueue.1
    omega
  | cons p l =>
    have hlive := hqueue.2 p List.mem_cons_self
    rw [← hqueue.1.1, hhead, hdead] at hlive
    cases hlive

end Mungi
