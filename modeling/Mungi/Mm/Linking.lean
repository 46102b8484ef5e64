import Mungi.Mm.Chunks
import Mungi.Mm.Nodes

/-!
# From records to chunks

The functions of `mm.c` that go through the records of the free list do to its chunks what the
functions of `FreeList` say, as long as there is memory for a record.

## Main definitions

* `Mm.Lists` — the records of the free list, in the heap.
* `Mm.chunks` — their chunks.

## Main results

* `Mm.kfreeObj_spec`, `Mm.kmallocObj_spec`, `Mm.kmallocObjAddr_spec` — **the functions on records
  do what those on chunks do.**
-/

namespace Mungi

open Chain

namespace Mm

/-- The links of the records. -/
def next (s : Mm) (p : ℕ) : ℕ := (s.node p).next

/-- The chunks of the records `l`. -/
def chunks (s : Mm) (l : List ℕ) : List FreeChunk := l.map fun p => (s.node p).chunk

/-- The free list has the records `l`, blocks of the heap in use. -/
structure Lists (c : HeapConf) (s : Mm) (l : List ℕ) : Prop where
  chain : IsChain s.next s.freelist l
  nodes : NodesIn c s.heap l
  room : Room s.heap

section Changes
variable {s : Mm} {p q x : ℕ} {b : FreeChunk} {n : FreeNode} {l l₁ l₂ : List ℕ}

@[simp] theorem chunks_nil (s : Mm) : s.chunks [] = [] := rfl

@[simp] theorem chunks_cons (s : Mm) (p : ℕ) (l : List ℕ) :
    s.chunks (p :: l) = (s.node p).chunk :: s.chunks l := rfl

@[simp] theorem chunks_append (s : Mm) (l₁ l₂ : List ℕ) :
    s.chunks (l₁ ++ l₂) = s.chunks l₁ ++ s.chunks l₂ := List.map_append

theorem node_put_of_ne (h : q ≠ p) : (s.put p n).node q = s.node q := Function.update_of_ne h ..

@[simp] theorem node_put_self : (s.put p n).node p = n := Function.update_self ..

@[simp] theorem node_setChunk_self : (s.setChunk p b).node p = ⟨b, (s.node p).next⟩ :=
  Function.update_self ..

@[simp] theorem node_setNext_self : (s.setNext p q).node p = ⟨(s.node p).chunk, q⟩ :=
  Function.update_self ..

/-- Records that are left alone have the chunks they had. -/
theorem chunks_put (h : p ∉ l) : (s.put p n).chunks l = s.chunks l := by
  apply List.map_congr_left
  intro q hq
  have hne : q ≠ p := by
    rintro rfl
    exact h hq
  rw [node_put_of_ne hne]

theorem chunks_setChunk_of_notMem (h : p ∉ l) : (s.setChunk p b).chunks l = s.chunks l :=
  chunks_put h

@[simp] theorem next_put_self : (s.put p n).next p = n.next := by
  unfold next
  rw [node_put_self]

theorem next_put_of_ne (h : q ≠ p) : (s.put p n).next q = s.next q := by
  unfold next
  rw [node_put_of_ne h]

@[simp] theorem next_setNext_self : (s.setNext p q).next p = q := next_put_self

@[simp] theorem next_setChunk : (s.setChunk p b).next = s.next := by
  funext q
  unfold next
  by_cases hq : q = p
  · subst hq
    rw [node_setChunk_self]
  · rw [setChunk, node_put_of_ne hq]

@[simp] theorem freelist_setChunk : (s.setChunk p b).freelist = s.freelist := rfl

@[simp] theorem heap_setChunk : (s.setChunk p b).heap = s.heap := rfl

theorem next_setNext_of_ne (h : p ≠ q) : (s.setNext q x).next p = s.next p := next_put_of_ne h

@[simp] theorem chunks_setNext : (s.setNext p x).chunks l = s.chunks l := by
  apply List.map_congr_left
  intro q _
  by_cases hq : q = p
  · rw [hq, node_setNext_self]
  · rw [setNext, node_put_of_ne hq]

/-- One chunk of the list changes. -/
theorem chunks_setChunk (h : (l₁ ++ p :: l₂).Nodup) :
    (s.setChunk p b).chunks (l₁ ++ p :: l₂) = s.chunks l₁ ++ b :: s.chunks l₂ := by
  obtain ⟨-, h₂, hdis⟩ := List.nodup_append.mp h
  rw [chunks_append, chunks_cons, node_setChunk_self, setChunk,
    chunks_put fun hp => hdis p hp p List.mem_cons_self rfl, chunks_put (List.nodup_cons.mp h₂).1]

/-- A record of another chunk. -/
theorem Lists.setChunk {c : HeapConf} (h : s.Lists c l) (p : ℕ) (b : FreeChunk) :
    (s.setChunk p b).Lists c l := by
  refine ⟨?_, h.nodes, h.room⟩
  rw [next_setChunk]
  exact h.chain

end Changes

/-- `kfree_obj` gives the chunk back, or has no memory for a record.  Without memory for the
first record it panics, and otherwise leaves the list as it was but keeps both locks. -/
inductive KfreeOutcome (c : HeapConf) (s : Mm) (l : List ℕ) (address size : ℕ) :
    Option (Bool × Mm) → Prop where
  | panic (empty : l = []) (full : ¬ HasNode s.heap) : KfreeOutcome c s l address size none
  | noNode (ne : l ≠ []) (full : ¬ HasNode s.heap)
      (grows : (Mungi.kfreeObj c.pageSize (s.chunks l) address size).length = l.length + 1) :
      KfreeOutcome c s l address size
        (some (false, { s with heap := { s.heap with locked := true }, locked := true }))
  | done (s' : Mm) (l' : List ℕ) (unlocked : s'.locked = false) (heap : s'.heap.locked = false)
      (chain : IsChain s'.next s'.freelist l')
      (chunks : s'.chunks l' = Mungi.kfreeObj c.pageSize (s.chunks l) address size)
      (nodes : NodesIn c s'.heap l' ∨ ¬ SortedChunks c.pageSize (s'.chunks l'))
      (node : HasNode s.heap ∨ l'.length = l.length) :
      KfreeOutcome c s l address size (some (true, s'))

section Insert
variable {s : Mm} {entry ptr2 : ℕ} {b : FreeChunk} {f l : List ℕ}

/-- A new record in front of the list. -/
theorem insert_first (h : IsChain s.next s.freelist l) (hnew : entry ∉ l) (hne : entry ≠ 0) :
    IsChain (s.put entry ⟨b, s.freelist⟩).next entry (entry :: l) ∧
      (s.put entry ⟨b, s.freelist⟩).chunks (entry :: l) = b :: s.chunks l := by
  constructor
  · refine ⟨rfl, hne, ?_⟩
    rw [next_put_self]
    refine h.congr fun q hq => next_put_of_ne ?_
    rintro rfl
    exact hnew hq
  · rw [chunks_cons, node_put_self, chunks_put hnew]

/-- A new record behind `ptr2`. -/
theorem insert_behind (h : IsChain s.next s.freelist (f ++ ptr2 :: l))
    (hnew : entry ∉ f ++ ptr2 :: l) (hne : entry ≠ 0) :
    IsChain ((s.put entry ⟨b, s.next ptr2⟩).setNext ptr2 entry).next s.freelist
        (f ++ ptr2 :: entry :: l) ∧
      ((s.put entry ⟨b, s.next ptr2⟩).setNext ptr2 entry).chunks (f ++ ptr2 :: entry :: l)
        = s.chunks f ++ (s.node ptr2).chunk :: b :: s.chunks l := by
  obtain ⟨x, hlead, hx, hne2, hl⟩ := isChain_append.mp h
  obtain rfl : x = ptr2 := hx
  obtain ⟨-, hnodup, hdis⟩ := List.nodup_append.mp h.nodup
  have hxl : x ∉ l := (List.nodup_cons.mp hnodup).1
  rw [List.mem_append, List.mem_cons, not_or, not_or] at hnew
  obtain ⟨hf, hxe, hnl⟩ := hnew
  have hother : ∀ {q}, q ≠ x → q ≠ entry →
      ((s.put entry ⟨b, s.next x⟩).setNext x entry).next q = s.next q := by
    intro q hq hqe
    rw [next_setNext_of_ne hq, next_put_of_ne hqe]
  constructor
  · refine isChain_append.mpr ⟨x, hlead.congr fun q hq => hother ?_ ?_, rfl, hne2, ?_⟩
    · exact hdis q hq x List.mem_cons_self
    · rintro rfl
      exact hf hq
    · rw [next_setNext_self]
      refine ⟨rfl, hne, ?_⟩
      rw [next_setNext_of_ne hxe, next_put_self]
      refine hl.congr fun q hq => hother ?_ ?_
      · rintro rfl
        exact hxl hq
      · rintro rfl
        exact hnl hq
  · rw [chunks_setNext, chunks_append, chunks_cons, chunks_cons, node_put_self, chunks_put hf,
      chunks_put hnl, node_put_of_ne (Ne.symm hxe)]

/-- The link of `ptr2` leads to a later record. -/
theorem relink_behind (h : IsChain s.next s.freelist (f ++ ptr2 :: l)) {m : List ℕ}
    {ptr : ℕ} (hptr : IsChain s.next ptr m) (hnot : ptr2 ∉ m) :
    IsChain (s.setNext ptr2 ptr).next s.freelist (f ++ ptr2 :: m) := by
  obtain ⟨x, hlead, hx, hne, -⟩ := isChain_append.mp h
  obtain rfl : x = ptr2 := hx
  obtain ⟨-, -, hdis⟩ := List.nodup_append.mp h.nodup
  refine isChain_append.mpr ⟨x, hlead.congr fun q hq => next_setNext_of_ne ?_, rfl, hne, ?_⟩
  · exact hdis q hq x List.mem_cons_self
  · rw [next_setNext_self]
    refine hptr.congr fun q hq => next_setNext_of_ne ?_
    rintro rfl
    exact hnot hq

end Insert

section Between
variable {c : HeapConf} {s : Mm} {l : List ℕ} {address : ℕ} (size : ℕ)

/-- A chunk that does not join the one before it goes between the records `l₁` and `l₂`. -/
theorem kfreeBetween_link {l₁ l₂ : List ℕ} (h : s.Lists c (l₁ ++ l₂))
    (hlock : s.heap.locked = false)
    {ptr2 ptr : ℕ} (hptr2 : ∀ f y, l₁ = f ++ [y] → ptr2 = y) (hptr : IsChain s.next ptr l₂)
    (hno : ¬ (s.node ptr2).chunk.stop = address) (hne : l₁ ++ l₂ ≠ []) :
    (∃ s' l', s.kfreeBetween ptr2 ptr address size = some (true, s') ∧ s'.locked = false ∧
      s'.heap.locked = false ∧ IsChain s'.next s'.freelist l' ∧ NodesIn c s'.heap l' ∧
      s'.chunks l' = s.chunks l₁ ++ linkChunk address size (s.chunks l₂) ∧
      (HasNode s.heap ∨ l'.length = (l₁ ++ l₂).length)) ∨
    ¬ HasNode s.heap ∧ linkChunk address size (s.chunks l₂) = ⟨address, size⟩ :: s.chunks l₂ ∧
      s.kfreeBetween ptr2 ptr address size =
        some (false, { s with heap := { s.heap with locked := true } }) := by
  unfold kfreeBetween
  dsimp only
  rw [decide_eq_false hno, if_neg Bool.false_ne_true, if_neg Bool.false_ne_true,
    if_neg Bool.false_ne_true]
  by_cases htouch : ptr ≠ 0 ∧ (s.node ptr).chunk.address = wordAdd address size
  · rw [if_pos htouch]
    obtain ⟨r, rfl⟩ : ∃ r, l₂ = ptr :: r := by
      cases l₂ with
      | nil => exact absurd hptr htouch.1
      | cons y r => exact ⟨r, by rw [hptr.1]⟩
    refine Or.inl ⟨_, l₁ ++ ptr :: r, rfl, rfl, hlock, ?_, h.nodes, ?_, Or.inr rfl⟩
    · exact (next_setChunk (s := s)).symm ▸ h.chain
    · rw [chunks_cons, linkChunk, if_pos htouch.2]
      exact chunks_setChunk h.chain.nodup
  · rw [if_neg htouch]
    have hlink : linkChunk address size (s.chunks l₂) = ⟨address, size⟩ :: s.chunks l₂ := by
      cases l₂ with
      | nil => rfl
      | cons y r =>
        obtain ⟨rfl, hy, -⟩ := hptr
        rw [chunks_cons, linkChunk, if_neg fun heq => htouch ⟨hy, heq⟩]
    obtain ⟨entry, heap, hcall, hhas, hnone, hsome⟩ := kmallocNode_spec h.nodes h.room hlock
    rw [newNode, hcall, hlink]
    dsimp only [Option.map_some]
    by_cases h0 : entry = 0
    · rw [if_pos h0, hnone h0]
      exact Or.inr ⟨fun hn => hhas.mpr hn h0, rfl, rfl⟩
    · obtain ⟨hnew, hunlocked, hnodes⟩ := hsome h0
      rw [if_neg h0]
      rcases List.eq_nil_or_concat' l₁ with rfl | ⟨f, y, rfl⟩
      · have hfirst : ptr = s.freelist := by
          cases l₂ with
          | nil => exact absurd rfl hne
          | cons y r => exact hptr.1.trans h.chain.1.symm
        obtain ⟨hchain, hchunks⟩ := insert_first (s := s) (b := ⟨address, size⟩) h.chain hnew h0
        rw [if_pos hfirst, hfirst]
        exact Or.inl ⟨_, entry :: l₂, rfl, rfl, hunlocked, hchain, hnodes, hchunks,
          Or.inl (hhas.mp h0)⟩
      · obtain rfl := hptr2 f y rfl
        obtain ⟨z, hlead, hz⟩ := isChain_append.mp h.chain
        obtain ⟨-, -, rfl⟩ := leads_concat.mp hlead
        obtain rfl := hz.start_unique hptr
        have hnot : ¬ s.next ptr2 = s.freelist := by
          intro heq
          have hlen := congrArg List.length (hz.unique (heq ▸ h.chain))
          simp only [List.length_append, List.length_cons] at hlen
          omega
        have happ : f ++ [ptr2] ++ l₂ = f ++ ptr2 :: l₂ := by simp
        rw [happ] at h hnew hnodes
        obtain ⟨hchain, hchunks⟩ := insert_behind (b := ⟨address, size⟩) h.chain hnew h0
        rw [if_neg hnot]
        have hleft : s.chunks (f ++ [ptr2]) ++ ⟨address, size⟩ :: s.chunks l₂ =
            s.chunks f ++ (s.node ptr2).chunk :: ⟨address, size⟩ :: s.chunks l₂ := by simp
        rw [hleft]
        exact Or.inl ⟨_, f ++ ptr2 :: entry :: l₂, rfl, rfl, hunlocked, hchain, hnodes.insert,
          hchunks, Or.inl (hhas.mp h0)⟩

/-- A chunk that joins the record `ptr2` before it. -/
theorem kfreeBetween_join {f l₂ : List ℕ} {ptr2 ptr : ℕ} (h : s.Lists c (f ++ ptr2 :: l₂))
    (hlock : s.heap.locked = false) (hptr : s.next ptr2 = ptr)
    (hstop : (s.node ptr2).chunk.stop = address) :
    ∃ s', s.kfreeBetween ptr2 ptr address size = some (true, s') ∧ s'.locked = false ∧
      s'.heap.locked = false ∧ IsChain s'.next s'.freelist (f ++ ptr2 :: l₂) ∧
      s'.chunks (f ++ ptr2 :: l₂) = s.chunks f ++
        joinChunk address size (s.node ptr2).chunk (s.chunks l₂) ∧
      (NodesIn c s'.heap (f ++ ptr2 :: l₂) ∨
        ¬ SortedChunks c.pageSize (s'.chunks (f ++ ptr2 :: l₂))) := by
  obtain ⟨-, hnodup, hdis⟩ := List.nodup_append.mp h.chain.nodup
  obtain ⟨x, -, hx, hne2, hl₂⟩ := isChain_append.mp h.chain
  obtain rfl : x = ptr2 := hx
  have hother : ∀ {q ch}, q ∈ l₂ → (s.setChunk x ch).node q = s.node q := by
    intro q ch hq
    refine node_put_of_ne ?_
    rintro rfl
    exact (List.nodup_cons.mp hnodup).1 hq
  unfold kfreeBetween
  dsimp only
  rw [decide_eq_true hstop, if_pos rfl, if_pos rfl, if_pos rfl]
  rw [hptr] at hl₂
  by_cases htouch : ptr ≠ 0 ∧ (s.node ptr).chunk.address = wordAdd address size
  · obtain ⟨r, rfl⟩ : ∃ r, l₂ = ptr :: r := by
      cases l₂ with
      | nil => exact absurd hl₂ htouch.1
      | cons y r => exact ⟨r, by rw [hl₂.1]⟩
    obtain ⟨heap, hfree, hunlocked, -⟩ :=
      kfreeNode_spec h.nodes hlock (show ptr ∈ f ++ x :: ptr :: r by simp)
    have hjoin : joinChunk address size (s.node x).chunk (s.chunks (ptr :: r)) =
        { (s.node x).chunk with
          size := wordAdd (wordAdd (s.node x).chunk.size size) (s.node ptr).chunk.size } ::
            s.chunks (ptr :: r) := by
      rw [chunks_cons, joinChunk, if_pos htouch.2]
    rw [hother List.mem_cons_self, if_pos htouch, node_setChunk_self, kfreeNode, heap_setChunk,
      heap_setChunk, hfree, hjoin]
    have hchunks : ∀ ch ch', ((s.setChunk x ch).setChunk x ch').chunks (f ++ x :: ptr :: r) =
        s.chunks f ++ ch' :: s.chunks (ptr :: r) := by
      intro ch ch'
      have hf : x ∉ f := fun hx => hdis x hx x List.mem_cons_self rfl
      have hr : x ∉ ptr :: r := (List.nodup_cons.mp hnodup).1
      rw [chunks_setChunk h.chain.nodup, chunks_setChunk_of_notMem hf, chunks_setChunk_of_notMem hr]
    refine ⟨_, rfl, rfl, hunlocked, ?_, hchunks .., Or.inr ?_⟩
    · show IsChain ((s.setChunk x _).setChunk x _).next s.freelist _
      rw [next_setChunk, next_setChunk]
      exact h.chain
    · show ¬ SortedChunks _ (((s.setChunk x _).setChunk x _).chunks (f ++ x :: ptr :: r))
      rw [hchunks]
      exact joinChunk_clash hstop htouch.2
  · have hjoin : joinChunk address size (s.node x).chunk (s.chunks l₂) =
        { (s.node x).chunk with size := wordAdd (s.node x).chunk.size size } :: s.chunks l₂ := by
      cases l₂ with
      | nil => rfl
      | cons y r =>
        obtain ⟨rfl, hy, -⟩ := hl₂
        rw [chunks_cons, joinChunk, if_neg fun heq => htouch ⟨hy, heq⟩]
    rw [if_neg, hjoin]
    · refine ⟨_, rfl, rfl, hlock, ?_, chunks_setChunk h.chain.nodup, Or.inl h.nodes⟩
      show IsChain (s.setChunk x _).next s.freelist _
      rw [next_setChunk]
      exact h.chain
    · rintro ⟨hne, htouch'⟩
      have hin : ptr ∈ l₂ := by
        cases l₂ with
        | nil => exact absurd hl₂ hne
        | cons y r => exact hl₂.1 ▸ List.mem_cons_self
      rw [hother hin] at htouch'
      exact htouch ⟨hne, htouch'⟩

/-- A chunk that joins the first record, with no record in front of it. -/
theorem kfreeBetween_first {x : ℕ} {r : List ℕ} (h : s.Lists c (x :: r))
    (hlock : s.heap.locked = false) (hstop : (s.node x).chunk.stop = address) :
    ∃ s', s.kfreeBetween x x address size = some (true, s') ∧ s'.locked = false ∧
      s'.heap.locked = false ∧ IsChain s'.next s'.freelist (x :: r) ∧
      s'.chunks (x :: r) =
        (let first := { (s.node x).chunk with size := wordAdd (s.node x).chunk.size size }
        if first.address = wordAdd address size then
          { first with size := wordAdd first.size first.size } :: s.chunks r
        else first :: s.chunks r) ∧
      (NodesIn c s'.heap (x :: r) ∨ ¬ SortedChunks c.pageSize (s'.chunks (x :: r))) := by
  have hx : x ≠ 0 := h.chain.ne_zero List.mem_cons_self
  have hr : x ∉ r := (List.nodup_cons.mp h.chain.nodup).1
  have hnodup : ([] ++ x :: r).Nodup := h.chain.nodup
  unfold kfreeBetween
  dsimp only
  rw [decide_eq_true hstop, if_pos rfl, if_pos rfl, if_pos rfl, node_setChunk_self]
  dsimp only
  by_cases htouch : (s.node x).chunk.address = wordAdd address size
  · obtain ⟨heap, hfree, hunlocked, -⟩ := kfreeNode_spec h.nodes hlock List.mem_cons_self
    rw [if_pos ⟨hx, htouch⟩, if_pos htouch, kfreeNode, heap_setChunk, heap_setChunk, hfree]
    have hchunks : ∀ ch ch', ((s.setChunk x ch).setChunk x ch').chunks (x :: r) =
        ch' :: s.chunks r := by
      intro ch ch'
      rw [chunks_cons, node_setChunk_self, chunks_setChunk_of_notMem hr,
        chunks_setChunk_of_notMem hr]
    refine ⟨_, rfl, rfl, hunlocked, ?_, hchunks .., Or.inr ?_⟩
    · show IsChain ((s.setChunk x _).setChunk x _).next s.freelist _
      rw [next_setChunk, next_setChunk]
      exact h.chain
    · show ¬ SortedChunks _ (((s.setChunk x _).setChunk x _).chunks (x :: r))
      rw [hchunks]
      exact first_clash hstop htouch
  · rw [if_neg fun hboth => htouch hboth.2, if_neg htouch]
    refine ⟨_, rfl, rfl, hlock, ?_, chunks_setChunk hnodup, Or.inl h.nodes⟩
    show IsChain (s.setChunk x _).next s.freelist _
    rw [next_setChunk]
    exact h.chain

end Between

section Calls
variable {c : HeapConf} {fuel : ℕ} {s : Mm} {l : List ℕ}

/-- **`kfree_obj` on the records** does what it does on the chunks. -/
theorem kfreeObj_spec (h : s.Lists c l) (hlock : s.locked = false) (hheap : s.heap.locked = false)
    (hfuel : l.length < fuel) (address size : ℕ) :
    KfreeOutcome c s l address size (s.kfreeObj c fuel address size) := by
  unfold kfreeObj lock
  rw [hlock, if_neg Bool.false_ne_true, Option.bind_some]
  cases l with
  | nil =>
    have hempty : s.freelist = 0 := h.chain
    obtain ⟨p, heap, hcall, hhas, hnone, hsome⟩ := kmallocNode_spec h.nodes h.room hheap
    dsimp only
    rw [if_pos hempty, freeInit, newNode]
    dsimp only
    rw [hcall, Option.map_some, Option.bind_some]
    dsimp only
    by_cases h0 : p = 0
    · rw [if_pos h0]
      exact .panic rfl fun hn => hhas.mpr hn h0
    · obtain ⟨-, hunlocked, hnodes⟩ := hsome h0
      rw [if_neg h0]
      refine .done _ [p] rfl hunlocked ⟨rfl, h0, next_put_self⟩ ?_ (Or.inl hnodes)
        (Or.inl (hhas.mp h0))
      show [((s.put p ⟨⟨address, size⟩, 0⟩).node p).chunk] = _
      rw [node_put_self]
      rfl
  | cons x rest =>
    obtain ⟨rfl, hx, -⟩ := h.chain
    dsimp only
    rw [if_neg hx]
    by_cases h0 : size = 0
    · rw [if_pos h0]
      refine .done _ _ rfl hheap h.chain ?_ (Or.inl h.nodes) (Or.inr rfl)
      show s.chunks (s.freelist :: rest) = _
      rw [chunks_cons, Mungi.kfreeObj, if_pos h0]
    rw [if_neg h0]
    have h₁ : Lists c { s with locked := true } (s.freelist :: rest) := ⟨h.chain, h.nodes, h.room⟩
    obtain ⟨l₁, l₂, ptr, hsplit, hfront, hback, hptr, hchase⟩ :=
      h₁.chain.chase (fun p => ¬ (s.node p).chunk.address < address) hfuel s.freelist s.freelist
    have hchase' : chase (fun p => (s.node p).next) (fun p => ¬ (s.node p).chunk.address < address)
        fuel s.freelist s.freelist s.freelist = _ := hchase
    rw [hchase', Option.bind_some]
    dsimp only
    have hback' : ∀ c ∈ (s.chunks l₂).head?, ¬ c.address < address := by
      cases l₂ with
      | nil =>
        rintro _ ⟨⟩
      | cons z l₂ =>
        rintro _ ⟨⟩
        exact of_decide_eq_true (hback z rfl)
    rw [hsplit] at h₁ ⊢
    rcases List.eq_nil_or_concat' l₁ with rfl | ⟨f, ptr2, rfl⟩
    · have h₂ := h₁
      rw [List.nil_append] at hsplit h₁ ⊢
      subst hsplit
      obtain rfl : ptr = s.freelist := hptr.1
      have hge := hback' _ rfl
      rw [lastTwo_nil]
      by_cases hstop : (s.node s.freelist).chunk.stop = address
      · obtain ⟨s', heq, hul, hh, hchain, hchunks, hnodes⟩ :=
          kfreeBetween_first (pageRoundUp c.pageSize size) h₁ hheap hstop
        rw [heq]
        refine .done s' _ hul hh hchain ?_ hnodes (Or.inr rfl)
        rw [hchunks, chunks_cons, Mungi.kfreeObj, if_neg h0]
        dsimp only
        rw [if_neg hge, if_pos hstop]
        rfl
      · have hlist : Mungi.kfreeObj c.pageSize (s.chunks (s.freelist :: rest)) address size =
            linkChunk address (pageRoundUp c.pageSize size) (s.chunks (s.freelist :: rest)) := by
          rw [chunks_cons, Mungi.kfreeObj, if_neg h0]
          dsimp only
          rw [if_neg hge, if_neg hstop]
        rcases kfreeBetween_link (pageRoundUp c.pageSize size) h₂ hheap
          (fun f y hf => by simp at hf) hptr hstop (by simp) with
          ⟨s', l', heq, hul, hh, hchain, hnodes, hchunks, hnode⟩ | ⟨hnone, hgrows, heq⟩
        · rw [heq]
          exact .done s' l' hul hh hchain (hchunks.trans hlist.symm) (Or.inl hnodes) hnode
        · rw [heq]
          refine .noNode (by simp) hnone ?_
          rw [hlist]
          exact (congrArg List.length hgrows).trans (congrArg (· + 1) (List.length_map _))
    · rw [lastTwo_concat]
      have hlist : Mungi.kfreeObj c.pageSize (s.chunks (f ++ [ptr2] ++ l₂)) address size =
          s.chunks f ++ kfreeBehind address (pageRoundUp c.pageSize size) (s.node ptr2).chunk
            (s.chunks l₂) := by
        have hlt := hfront ptr2 (by simp)
        have heq : s.chunks (f ++ [ptr2] ++ l₂) =
            s.chunks f ++ (s.node ptr2).chunk :: s.chunks l₂ := by
          simp
        rw [heq]
        refine kfreeObj_behind h0 (fun a ha => ?_) (by simpa using hlt) hback'
        obtain ⟨q, hq, rfl⟩ := List.mem_map.mp ha
        simpa using hfront q (List.mem_append_left _ hq)
      by_cases hstop : (s.node ptr2).chunk.stop = address
      · have happ : f ++ [ptr2] ++ l₂ = f ++ ptr2 :: l₂ := by simp
        rw [happ] at h₁ hlist ⊢
        obtain ⟨z, -, hz, -, hl₂⟩ := isChain_append.mp h₁.chain
        obtain rfl : z = ptr2 := hz
        obtain ⟨s', heq, hul, hh, hchain, hchunks, hnodes⟩ := kfreeBetween_join
          (pageRoundUp c.pageSize size) h₁ hheap (hl₂.start_unique hptr) hstop
        rw [heq]
        rw [kfreeBehind, if_pos hstop] at hlist
        exact .done s' _ hul hh hchain (hchunks.trans hlist.symm) hnodes (Or.inr rfl)
      · rw [kfreeBehind, if_neg hstop] at hlist
        rcases kfreeBetween_link (pageRoundUp c.pageSize size) h₁ hheap
          (fun g y hg => (List.cons.inj (List.append_inj' hg rfl).2).1) hptr hstop (by simp) with
          ⟨s', l', heq, hul, hh, hchain, hnodes, hchunks, hnode⟩ | ⟨hnone, hgrows, heq⟩
        · rw [heq]
          refine .done s' l' hul hh hchain ?_ (Or.inl hnodes) hnode
          rw [hchunks, hlist]
          show s.chunks (f ++ [ptr2]) ++ linkChunk address _ (s.chunks l₂) = _
          simp
        · rw [heq]
          refine .noNode (by simp) hnone ?_
          have hlen : (linkChunk address (pageRoundUp c.pageSize size) (s.chunks l₂)).length =
              l₂.length + 1 :=
            (congrArg List.length hgrows).trans (congrArg (· + 1) (List.length_map _))
          rw [hlist, List.length_append, List.length_cons, hlen, chunks, List.length_map]
          simp only [List.length_append, List.length_cons, List.length_nil]
          omega

/-- `kmalloc_obj_addr` at the record `ptr` whose chunk starts at the address. -/
theorem takePages_start {l₁ r : List ℕ} {ptr address : ℕ} (size : ℕ)
    (h : s.Lists c (l₁ ++ ptr :: r)) (hheap : s.heap.locked = false)
    (haddr : (s.node ptr).chunk.address = address) :
    (s.takePages (lastTwo 0 0 l₁).1 ptr address size = none ∧
      takeStart (s.chunks (l₁ ++ ptr :: r)) (s.chunks l₁) (s.node ptr).chunk (s.chunks r) address
        size = none) ∨
    ∃ s' l', s.takePages (lastTwo 0 0 l₁).1 ptr address size = some (address, s') ∧
      s'.locked = false ∧ s'.heap.locked = false ∧ IsChain s'.next s'.freelist l' ∧
      NodesIn c s'.heap l' ∧
      takeStart (s.chunks (l₁ ++ ptr :: r)) (s.chunks l₁) (s.node ptr).chunk (s.chunks r) address
        size = some (s'.chunks l') := by
  have hnodup := h.chain.nodup
  obtain ⟨x, hlead, hx, hne, hr⟩ := isChain_append.mp h.chain
  obtain rfl : x = ptr := hx
  unfold takePages takeStart
  dsimp only
  by_cases hfit : wordAdd address size ≤ (s.node x).chunk.stop
  · rw [if_pos hfit, if_pos haddr, if_pos hfit]
    by_cases hleft : wordSub (s.node x).chunk.stop (wordAdd address size) = 0
    · rw [if_pos hleft, if_pos hleft]
      obtain ⟨heap, hfree, hunlocked, hnodes⟩ :=
        kfreeNode_spec h.nodes hheap (show x ∈ l₁ ++ x :: r by simp)
      have hfirst : s.freelist ≠ 0 := by
        intro h0
        have hchain := h.chain
        rw [h0] at hchain
        cases l₁ with
        | nil => exact hne hchain.1.symm
        | cons y l₁ => exact hchain.2.1 hchain.1.symm
      have hlen : (s.chunks l₁).length = l₁.length := List.length_map _
      rw [hlen]
      rcases List.eq_nil_or_concat' l₁ with rfl | ⟨g, y, rfl⟩
      · rw [lastTwo_nil]
        dsimp only
        rw [if_pos hfirst.symm, if_pos rfl]
        exact Or.inl ⟨rfl, rfl⟩
      rcases List.eq_nil_or_concat' g with rfl | ⟨g, prev, rfl⟩
      · rw [List.nil_append, lastTwo_singleton]
        dsimp only
        rw [if_pos hfirst.symm, if_pos rfl]
        exact Or.inl ⟨rfl, rfl⟩
      rw [lastTwo_concat, lastTwo_concat]
      dsimp only
      have happ : ∀ m : List ℕ, g ++ [prev] ++ [y] ++ m = g ++ prev :: y :: m := fun m => by simp
      have hchain := h.chain
      rw [happ] at hchain hnodes
      obtain ⟨z, hlead', hz, hprev, -⟩ := isChain_append.mp hchain
      obtain rfl : z = prev := hz
      obtain ⟨-, hnodup', hdis⟩ := List.nodup_append.mp hchain.nodup
      cases g with
      | nil =>
        have heq : s.freelist = z := hlead'
        rw [if_neg (not_not.mpr heq.symm), if_neg (by simp), if_pos (by simp), Option.bind_some,
          kfreeNode]
        dsimp only
        rw [hfree]
        exact Or.inr ⟨_, [], rfl, rfl, hunlocked, rfl, hnodes [] nofun, rfl⟩
      | cons w g =>
        have hw : s.freelist = w := hlead'.1
        have hwz : z ≠ s.freelist := fun heq =>
          hdis w List.mem_cons_self z List.mem_cons_self (hw.symm.trans heq.symm)
        have hzr : z ∉ r := fun hin =>
          (List.nodup_cons.mp hnodup').1 (List.mem_cons_of_mem _ (List.mem_cons_of_mem _ hin))
        rw [if_pos hwz, if_neg hprev, if_neg (by simp), if_neg (by simp), Option.bind_some,
          kfreeNode]
        show _ ∨ ∃ s' l', Option.map _ (Option.map _ (kfree s.heap x)) = _ ∧ _
        rw [hfree]
        refine Or.inr ⟨_, w :: g ++ z :: r, rfl, rfl, hunlocked, relink_behind hchain hr hzr,
          hnodes _ fun q hq => ?_, ?_⟩
        · have hxr : x ∉ r := by
            have htail := (List.nodup_cons.mp (List.nodup_cons.mp hnodup').2).2
            exact (List.nodup_cons.mp htail).1
          rcases List.mem_append.mp hq with hq | hq
          · exact ⟨List.mem_append_left _ hq, hdis q hq x (by simp)⟩
          · rcases List.mem_cons.mp hq with rfl | hq
            · refine ⟨by simp, ?_⟩
              rintro rfl
              exact (List.nodup_cons.mp hnodup').1 (by simp)
            · refine ⟨by simp [hq], ?_⟩
              rintro rfl
              exact hxr hq
        · refine congrArg some ?_
          have hdrop : (s.chunks (w :: g ++ [z] ++ [y])).dropLast = s.chunks (w :: g ++ [z]) := by
            rw [chunks_append, chunks_cons, chunks_nil, List.dropLast_concat]
          rw [hdrop]
          show _ = (s.setNext z _).chunks (w :: g ++ z :: r)
          rw [chunks_setNext]
          simp
    · rw [if_neg hleft, if_neg hleft]
      refine Or.inr ⟨_, l₁ ++ x :: r, rfl, rfl, hheap, ?_, h.nodes, ?_⟩
      · show IsChain (s.setChunk x _).next s.freelist _
        rw [next_setChunk]
        exact h.chain
      · exact congrArg _ (chunks_setChunk hnodup).symm
  · rw [if_neg hfit, if_neg hfit]
    exact Or.inr ⟨_, l₁ ++ x :: r, rfl, rfl, hheap, h.chain, h.nodes, rfl⟩

/-- `kmalloc_obj_addr` cuts the chunk in two, so that it needs a record more. -/
def Cuts (chunk : FreeChunk) (address size : ℕ) : Prop :=
  wordAdd address size ≤ chunk.stop ∧ wordSub chunk.stop (wordAdd address size) ≠ 0

/-- `kmalloc_obj_addr` at the record `ptr` whose chunk starts in front of the address. -/
theorem takePages_inside {f r : List ℕ} {prev ptr address : ℕ} (size : ℕ)
    (h : s.Lists c (f ++ ptr :: r)) (hheap : s.heap.locked = false)
    (haddr : (s.node ptr).chunk.address ≠ address) :
    (s.takePages prev ptr address size = none ∧ Cuts (s.node ptr).chunk address size ∧
      ¬ HasNode s.heap) ∨
    (Cuts (s.node ptr).chunk address size → HasNode s.heap) ∧
    ∃ s' l', s.takePages prev ptr address size = some (address, s') ∧
      s'.locked = false ∧ s'.heap.locked = false ∧ IsChain s'.next s'.freelist l' ∧
      NodesIn c s'.heap l' ∧
      takeInside (s.chunks (f ++ ptr :: r)) (s.chunks (f ++ [ptr])) (s.node ptr).chunk (s.chunks r)
        address size = s'.chunks l' := by
  have hnodup := h.chain.nodup
  unfold takePages takeInside Cuts
  dsimp only
  by_cases hfit : wordAdd address size ≤ (s.node ptr).chunk.stop
  · rw [if_pos hfit, if_neg haddr, if_pos hfit]
    have hdrop : (s.chunks (f ++ [ptr])).dropLast = s.chunks f := by
      rw [chunks_append, chunks_cons, chunks_nil, List.dropLast_concat]
    rw [hdrop]
    have hchain : IsChain (s.setChunk ptr ⟨(s.node ptr).chunk.address,
        wordSub address (s.node ptr).chunk.address⟩).next s.freelist (f ++ ptr :: r) := by
      rw [next_setChunk]
      exact h.chain
    have hcut := chunks_setChunk (s := s) (b := ⟨(s.node ptr).chunk.address,
      wordSub address (s.node ptr).chunk.address⟩) hnodup
    by_cases hleft : wordSub (s.node ptr).chunk.stop (wordAdd address size) = 0
    · rw [if_neg (not_not.mpr hleft), if_neg (not_not.mpr hleft)]
      exact Or.inr ⟨fun hc => absurd hleft hc.2, _, f ++ ptr :: r, rfl, rfl, hheap, hchain, h.nodes,
        hcut.symm⟩
    · rw [if_pos hleft, if_pos hleft, newNode, heap_setChunk]
      obtain ⟨tmp, heap, hcall, hhas, hnone, hsome⟩ := kmallocNode_spec h.nodes h.room hheap
      rw [hcall, Option.map_some, Option.bind_some]
      dsimp only
      by_cases h0 : tmp = 0
      · rw [if_pos h0]
        exact Or.inl ⟨rfl, ⟨hfit, hleft⟩, fun hn => hhas.mpr hn h0⟩
      · obtain ⟨hnew, hunlocked, hnodes⟩ := hsome h0
        rw [if_neg h0]
        obtain ⟨hins, hchunks⟩ := insert_behind (b := ⟨wordAdd address size,
          wordSub (s.node ptr).chunk.stop (wordAdd address size)⟩) hchain hnew h0
        refine Or.inr ⟨fun _ => hhas.mp h0, _, f ++ ptr :: tmp :: r, rfl, rfl, hunlocked, hins, ?_,
          ?_⟩
        · exact hnodes.insert
        · obtain ⟨-, hr, hdis⟩ := List.nodup_append.mp hnodup
          have hf : ptr ∉ f := fun hin => hdis ptr hin ptr List.mem_cons_self rfl
          refine Eq.trans ?_ hchunks.symm
          rw [node_setChunk_self, chunks_setChunk_of_notMem hf,
            chunks_setChunk_of_notMem (List.nodup_cons.mp hr).1]
  · rw [if_neg hfit, if_neg hfit]
    exact Or.inr ⟨fun hc => absurd hc.1 hfit, _, f ++ ptr :: r, rfl, rfl, hheap, h.chain, h.nodes,
      rfl⟩

/-- **`kmalloc_obj` on the records** does what it does on the chunks. -/
theorem kmallocObj_spec (h : s.Lists c l) (hlock : s.locked = false) (hheap : s.heap.locked = false)
    (hfuel : l.length < fuel) (size : ℕ) :
    ∃ a s' l', s.kmallocObj c fuel size = some (a, s') ∧ s'.locked = false ∧
      s'.heap.locked = false ∧ IsChain s'.next s'.freelist l' ∧ NodesIn c s'.heap l' ∧
      Mungi.kmallocObj c.pageSize (s.chunks l) size = (a, s'.chunks l') := by
  unfold kmallocObj lock Mungi.kmallocObj
  rw [hlock, if_neg Bool.false_ne_true, Option.bind_some]
  dsimp only
  cases l with
  | nil =>
    have hempty : s.freelist = 0 := h.chain
    rw [if_pos hempty, chunks_nil, if_pos rfl]
    exact ⟨_, _, [], rfl, rfl, hheap, h.chain, h.nodes, rfl⟩
  | cons x rest =>
    obtain ⟨rfl, hx, -⟩ := h.chain
    rw [if_neg hx, chunks_cons, if_neg (List.cons_ne_nil _ _), ← chunks_cons]
    by_cases h0 : size = 0
    · rw [if_pos h0, if_pos h0]
      exact ⟨_, _, _, rfl, rfl, hheap, h.chain, h.nodes, rfl⟩
    rw [if_neg h0, if_neg h0]
    generalize pageRoundUp c.pageSize size = size
    obtain ⟨l₁, l₂, fit, hsplit, hfront, hback, hfit, hchase⟩ :=
      h.chain.chase (fun p => size ≤ (s.node p).chunk.size) hfuel s.freelist s.freelist
    have hchase' : chase (fun p => (s.node p).next) (fun p => size ≤ (s.node p).chunk.size)
        fuel s.freelist s.freelist s.freelist = _ := hchase
    rw [hchase', Option.bind_some]
    dsimp only
    have hsmall : ∀ c ∈ s.chunks l₁, c.size < size := by
      intro c hc
      obtain ⟨q, hq, rfl⟩ := List.mem_map.mp hc
      simpa using hfront q hq
    have hchain := h.chain
    rw [hsplit] at hchain ⊢
    rw [chunks_append, firstFit_append hsmall]
    cases l₂ with
    | nil =>
      obtain rfl : fit = 0 := hfit
      rw [if_pos rfl]
      refine ⟨_, _, _, rfl, rfl, hheap, hchain, hsplit ▸ h.nodes, ?_⟩
      simp only [chunks_nil, firstFit, Option.map_none, Option.getD_none, List.append_nil]
      rfl
    | cons y r =>
      obtain ⟨rfl, hy, hr⟩ := hfit
      have hge : size ≤ (s.node fit).chunk.size := of_decide_eq_true (hback fit rfl)
      rw [if_neg hy, chunks_cons, firstFit, if_pos hge]
      dsimp only [Option.map_some, Option.getD_some]
      have hnodup := hchain.nodup
      by_cases hsize : (s.node fit).chunk.size ≠ size
      · rw [if_pos hsize, if_pos hsize]
        refine ⟨_, _, l₁ ++ fit :: r, rfl, rfl, hheap, ?_, hsplit ▸ h.nodes, ?_⟩
        · show IsChain (s.setChunk fit _).next s.freelist _
          rw [next_setChunk]
          exact hchain
        · exact congrArg _ (chunks_setChunk hnodup).symm
      · obtain ⟨heap, hfree, hunlocked, hnodes⟩ :=
          kfreeNode_spec h.nodes hheap (show fit ∈ s.freelist :: rest by simp [hsplit])
        have hleft : NodesIn c heap (l₁ ++ r) := by
          refine hnodes _ fun q hq => ⟨?_, ?_⟩
          · rw [hsplit]
            simp only [List.mem_append, List.mem_cons] at hq ⊢
            exact hq.imp_right Or.inr
          · rintro rfl
            obtain ⟨-, hr', hdis⟩ := List.nodup_append.mp hnodup
            rcases List.mem_append.mp hq with hq | hq
            · exact hdis q hq q List.mem_cons_self rfl
            · exact (List.nodup_cons.mp hr').1 hq
        rw [if_neg hsize, if_neg hsize]
        rcases List.eq_nil_or_concat' l₁ with rfl | ⟨f, ptr2, rfl⟩
        · have hfirst : fit = s.freelist := (List.cons.inj hsplit).1.symm
          rw [if_pos hfirst, kfreeNode]
          dsimp only
          rw [hfree]
          exact ⟨_, _, r, rfl, rfl, hunlocked, hr, hleft, rfl⟩
        · rw [lastTwo_concat]
          dsimp only
          have hnot : ¬ fit = s.freelist := by
            intro heq
            have hself : IsChain s.next s.freelist (fit :: r) := ⟨heq.symm, hy, hr⟩
            have hlen := congrArg List.length (hself.unique hchain)
            simp only [List.length_append, List.length_cons] at hlen
            omega
          have happ : ∀ m : List ℕ, f ++ [ptr2] ++ m = f ++ ptr2 :: m := fun m => by simp
          have hptr2 : ptr2 ∉ r := by
            rw [happ] at hnodup
            intro hin
            have htail := (List.nodup_append.mp hnodup).2.1
            exact (List.nodup_cons.mp htail).1 (List.mem_cons_of_mem _ hin)
          rw [if_neg hnot, kfreeNode]
          show ∃ a s' l', Option.map _ (Option.map _ (kfree s.heap fit)) = _ ∧ _
          rw [hfree]
          refine ⟨_, _, f ++ ptr2 :: r, rfl, rfl, hunlocked, ?_, happ r ▸ hleft, ?_⟩
          · rw [happ] at hchain
            exact relink_behind hchain hr hptr2
          · refine congrArg _ ?_
            show s.chunks (f ++ [ptr2]) ++ s.chunks r = (s.setNext ptr2 _).chunks (f ++ ptr2 :: r)
            rw [chunks_setNext, ← happ r, ← chunks_append]

/-- `kmalloc_obj_addr` needs a record more: the last chunk in front of the address is cut in two,
and none starts at the address. -/
def Splits (pageSize : ℕ) (l : List FreeChunk) (address size : ℕ) : Prop :=
  let address := pageRoundDown pageSize address
  (∀ c ∈ (l.dropWhile fun c => c.address < address).head?, c.address ≠ address) ∧
    ∃ ptr ∈ (l.takeWhile fun c => c.address < address).getLast?,
      Cuts ptr address (pageRoundUp pageSize size)

/-- **`kmalloc_obj_addr` on the records** does what it does on the chunks. -/
theorem kmallocObjAddr_spec (h : s.Lists c l) (hlock : s.locked = false)
    (hheap : s.heap.locked = false) (hfuel : l.length < fuel) (address size : ℕ) :
    (s.kmallocObjAddr c fuel address size = none ∧
      (Mungi.kmallocObjAddr c.pageSize (s.chunks l) address size = none ∨
        Splits c.pageSize (s.chunks l) address size ∧ ¬ HasNode s.heap)) ∨
    (Splits c.pageSize (s.chunks l) address size → HasNode s.heap) ∧
    ∃ a s' l', s.kmallocObjAddr c fuel address size = some (a, s') ∧ s'.locked = false ∧
      s'.heap.locked = false ∧ IsChain s'.next s'.freelist l' ∧ NodesIn c s'.heap l' ∧
      Mungi.kmallocObjAddr c.pageSize (s.chunks l) address size = some (a, s'.chunks l') := by
  unfold kmallocObjAddr lock Splits
  rw [hlock, if_neg Bool.false_ne_true, Option.bind_some]
  dsimp only
  have h₁ : Lists c { s with locked := true } l := ⟨h.chain, h.nodes, h.room⟩
  obtain ⟨l₁, l₂, tmp, rfl, hfront, hback, htmp, hchase⟩ := h₁.chain.chase
    (fun p => ¬ (s.node p).chunk.address < pageRoundDown c.pageSize address) hfuel 0 0
  have hchase' : chase (fun p => (s.node p).next)
      (fun p => ¬ (s.node p).chunk.address < pageRoundDown c.pageSize address)
      fuel 0 0 s.freelist = _ := hchase
  have hlt : ∀ b ∈ s.chunks l₁, b.address < pageRoundDown c.pageSize address := by
    intro b hb
    obtain ⟨q, hq, rfl⟩ := List.mem_map.mp hb
    simpa using hfront q hq
  have hge : ∀ b ∈ (s.chunks l₂).head?, ¬ b.address < pageRoundDown c.pageSize address := by
    cases l₂ with
    | nil => nofun
    | cons z l₂ =>
      rintro _ ⟨⟩
      exact of_decide_eq_true (hback z rfl)
  rw [hchase', Option.bind_some, chunks_append, takeWhile_front hlt hge, dropWhile_front hlt hge]
  dsimp only
  by_cases hat : tmp ≠ 0 ∧ (s.node tmp).chunk.address = pageRoundDown c.pageSize address
  · obtain ⟨r, rfl⟩ : ∃ r, l₂ = tmp :: r := by
      cases l₂ with
      | nil => exact absurd htmp hat.1
      | cons z r => exact ⟨r, by rw [htmp.1]⟩
    rw [if_pos hat, chunks_cons, kmallocObjAddr_start hlt hat.2]
    rcases takePages_start (pageRoundUp c.pageSize size) h₁ hheap hat.2 with ⟨hnone, hlist⟩ |
      ⟨s', l', heq, hul, hh, hchain, hnodes, hchunks⟩
    · refine Or.inl ⟨hnone, Or.inl ?_⟩
      rw [chunks_append, chunks_cons] at hlist
      exact congrArg _ hlist
    · refine Or.inr ⟨fun hs => absurd hat.2 (hs.1 _ rfl), _, s', l', heq, hul, hh, hchain, hnodes,
        ?_⟩
      rw [chunks_append, chunks_cons] at hchunks
      exact congrArg _ hchunks
  · have hgt : ∀ b ∈ (s.chunks l₂).head?, pageRoundDown c.pageSize address < b.address := by
      cases l₂ with
      | nil => nofun
      | cons z r =>
        rintro _ ⟨⟩
        refine Nat.lt_of_le_of_ne (Nat.not_lt.mp (hge _ rfl)) fun heq => hat ?_
        exact htmp.1 ▸ ⟨htmp.2.1, heq.symm⟩
    rw [if_neg hat]
    rcases List.eq_nil_or_concat' l₁ with rfl | ⟨f, ptr, rfl⟩
    · rw [lastTwo_nil, chunks_nil, List.nil_append, kmallocObjAddr_none size hgt]
      dsimp only
      rw [if_pos (Or.inl rfl)]
      exact Or.inr ⟨fun ⟨_, _, hptr, _⟩ => (nomatch hptr), 0, _, l₂, rfl, rfl, hheap, h.chain,
        h.nodes, rfl⟩
    · have hptr : ptr ∈ f ++ [ptr] := by simp
      have hbelow : (s.node ptr).chunk.address < pageRoundDown c.pageSize address := by
        simpa using hfront ptr hptr
      have hptr0 : ptr ≠ 0 := h.chain.ne_zero (List.mem_append_left _ hptr)
      rw [lastTwo_concat]
      dsimp only
      rw [if_neg (not_or.mpr ⟨hptr0, Nat.not_lt.mpr hbelow.le⟩)]
      have hlast : (s.chunks (f ++ [ptr])).getLast? = some (s.node ptr).chunk := by simp
      have hone : s.chunks (f ++ [ptr]) = s.chunks f ++ [(s.node ptr).chunk] := by simp
      have hlist := kmallocObjAddr_inside (fun b hb => hlt b (hone ▸ List.mem_append_left _ hb))
        hbelow hgt size
      rw [hlast, hone, hlist]
      have h₂ : Lists c { s with locked := true } (f ++ ptr :: l₂) :=
        ⟨by simpa using h₁.chain, by simpa using h₁.nodes, h.room⟩
      have htwo : s.chunks f ++ [(s.node ptr).chunk] ++ s.chunks l₂ =
          s.chunks (f ++ ptr :: l₂) := by
        simp
      rcases takePages_inside (pageRoundUp c.pageSize size) h₂ hheap hbelow.ne with
        ⟨hnone, hcuts, hfull⟩ | ⟨hhas, s', l', heq, hul, hh, hchain, hnodes, hchunks⟩
      · refine Or.inl ⟨hnone, Or.inr ⟨⟨fun b hb => (hgt b hb).ne', _, rfl, hcuts⟩, hfull⟩⟩
      · refine Or.inr ⟨fun ⟨_, b, hb, hcuts⟩ => hhas (Option.some.inj hb ▸ hcuts), _, s', l', heq,
          hul, hh, hchain, hnodes, ?_⟩
        rw [htwo, ← hone]
        exact congrArg (fun m => some (_, m)) hchunks

end Calls

end Mm

end Mungi
