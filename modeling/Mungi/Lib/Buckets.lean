import Mungi.Lib.Heap

/-!
# Hash tables of linked lists

A bucket of a hash table leads to a list of records, and each record knows the place that leads
to it, so that it can be taken out without a search.

## Main definitions

* `Place` — a place that leads to a record.
* `Backs` — the records of a list know their places.
* `Buckets`, `Buckets.insert`, `Buckets.remove` — the table, and its operations.
* `Buckets.Holds` — the lists have the records of a set, each in its bucket.

## Main results

* `Buckets.Holds.insert`, `Buckets.Holds.remove` — **the operations change the set by one record.**
* `Buckets.Holds.seek` — a search of a bucket ends.
-/

namespace Chain

/-- A place that leads to a record: a bucket, or the link of another record. -/
inductive Place (β : Type*) where
  | head (b : β)
  | next (p : ℕ)
  deriving DecidableEq

/-- The buckets, the links, and the places that the records know. -/
@[ext]
structure Buckets (β : Type*) where
  head : β → ℕ
  next : ℕ → ℕ
  pprev : ℕ → Place β

variable {β : Type*} {next next' : ℕ → ℕ} {pprev pprev' : ℕ → Place β} {q : Place β} {x y p : ℕ}
  {l : List ℕ}

/-- The records of a list know the places that lead to them, the first one `q`. -/
def Backs (pprev : ℕ → Place β) : Place β → List ℕ → Prop
  | _, [] => True
  | q, x :: l => pprev x = q ∧ Backs pprev (.next x) l

theorem Backs.congr (h : Backs pprev q l) (hsame : ∀ x ∈ l, pprev' x = pprev x) :
    Backs pprev' q l := by
  induction l generalizing q with
  | nil => trivial
  | cons x l ih =>
    refine ⟨(hsame x List.mem_cons_self).trans h.1, ih h.2 fun y hy => ?_⟩
    exact hsame y (List.mem_cons_of_mem x hy)

/-- From `x` the list is `l`, and its records know their places. -/
structure Doubly (next : ℕ → ℕ) (pprev : ℕ → Place β) (q : Place β) (x : ℕ) (l : List ℕ) :
    Prop where
  chain : IsChain next x l
  backs : Backs pprev q l

namespace Doubly

theorem congr (h : Doubly next pprev q x l) (hnext : ∀ p ∈ l, next' p = next p)
    (hpprev : ∀ p ∈ l, pprev' p = pprev p) : Doubly next' pprev' q x l :=
  ⟨h.chain.congr hnext, h.backs.congr hpprev⟩

theorem tail (h : Doubly next pprev q x (y :: l)) :
    Doubly next pprev (.next x) (next x) l := by
  obtain ⟨⟨rfl, -, hchain⟩, -, hbacks⟩ := h
  exact ⟨hchain, hbacks⟩

/-- A record is the first one, or the link of another one leads to it. -/
theorem place (h : Doubly next pprev q x l) (hy : y ∈ l) :
    (y = x ∧ pprev y = q) ∨ ∃ p ∈ l, p ≠ y ∧ next p = y ∧ pprev y = .next p := by
  induction l generalizing x q with
  | nil => cases hy
  | cons z l ih =>
    have hnodup := h.chain.nodup
    obtain ⟨rfl, -, -⟩ := h.chain
    rcases List.mem_cons.mp hy with rfl | hyl
    · exact Or.inl ⟨rfl, h.backs.1⟩
    · right
      have hne : x ≠ y := by
        rintro rfl
        exact (List.nodup_cons.mp hnodup).1 hyl
      rcases ih h.tail hyl with ⟨rfl, hback⟩ | ⟨p, hp, hback⟩
      · exact ⟨x, List.mem_cons_self, hne, rfl, hback⟩
      · exact ⟨p, List.mem_cons_of_mem x hp, hback⟩

/-- A record is followed by another one, or is the last one. -/
theorem next_mem (h : Doubly next pprev q x l) (hy : y ∈ l) (hnext : next y ≠ 0) :
    next y ∈ l ∧ next y ≠ x := by
  have hnodup := h.chain.nodup
  obtain ⟨l₁, l₂, rfl, hchain⟩ := h.chain.suffix hy
  obtain ⟨-, -, hrest⟩ := hchain
  cases l₂ with
  | nil => exact absurd hrest hnext
  | cons z l₂ =>
    obtain ⟨rfl, -⟩ := hrest
    refine ⟨by simp, ?_⟩
    intro hx
    cases l₁ with
    | nil =>
      have hxy : x = y := h.chain.1
      rw [List.nil_append, hx, hxy] at hnodup
      simp at hnodup
    | cons w l₁ =>
      have hxw : x = w := h.chain.1
      rw [hx, hxw] at hnodup
      simp at hnodup

/-- The record that follows another one knows its link. -/
theorem next_back (h : Doubly next pprev q x l) (hy : y ∈ l) (hnext : next y ≠ 0) :
    pprev (next y) = .next y := by
  induction l generalizing x q with
  | nil => cases hy
  | cons z l ih =>
    obtain ⟨rfl, -, hchain⟩ := h.chain
    rcases List.mem_cons.mp hy with rfl | hyl
    · cases l with
      | nil => exact absurd hchain hnext
      | cons w l =>
        obtain ⟨rfl, -⟩ := hchain
        exact h.backs.2.1
    · exact ih h.tail hyl

/-- **A record is taken out** when the place that leads to it leads on, and the next record knows
that place. -/
theorem remove (h : Doubly next pprev q x l) (hq : ∀ p ∈ l, q ≠ .next p) (hy : y ∈ l)
    (hnext : ∀ p, pprev y = .next p → next' p = next y)
    (hnextOther : ∀ p, pprev y ≠ .next p → next' p = next p)
    (hpprev : next y ≠ 0 → pprev' (next y) = pprev y)
    (hpprevOther : ∀ p, p ≠ next y → pprev' p = pprev p) :
    Doubly next' pprev' q (if y = x then next y else x) (l.erase y) := by
  induction l generalizing x q with
  | nil => cases hy
  | cons z l ih =>
    obtain ⟨hzl, hrestNodup⟩ := List.nodup_cons.mp h.chain.nodup
    obtain ⟨rfl, hx, hchain⟩ := h.chain
    by_cases hyx : y = x
    · -- the first record goes
      subst hyx
      have hback : pprev y = q := h.backs.1
      rw [if_pos rfl, List.erase_cons_head]
      have hnext' : ∀ p ∈ l, next' p = next p := by
        intro p hp
        refine hnextOther p ?_
        rw [hback]
        exact hq p (List.mem_cons_of_mem y hp)
      refine ⟨hchain.congr hnext', ?_⟩
      cases l with
      | nil => trivial
      | cons w l =>
        obtain ⟨rfl, hw, -⟩ := hchain
        refine ⟨(hpprev hw).trans hback, h.backs.2.2.congr fun p hp => hpprevOther p ?_⟩
        rintro rfl
        exact (List.nodup_cons.mp hrestNodup).1 hp
    · have hyl : y ∈ l := (List.mem_cons.mp hy).resolve_left hyx
      have hplaces : ∀ p ∈ l, (Place.next x : Place β) ≠ .next p := by
        rintro p hp heq
        cases heq
        exact hzl hp
      have hrest := ih h.tail hplaces hyl
      rw [if_neg hyx, List.erase_cons_tail (by simpa using Ne.symm hyx)]
      refine ⟨⟨rfl, hx, ?_⟩, ?_, hrest.backs⟩
      · -- the link of the first record leads to what follows
        have hlink : next' x = if y = next x then next y else next x := by
          split_ifs with hyn
          · refine hnext x ?_
            cases l with
            | nil => cases hyl
            | cons w l =>
              obtain ⟨rfl, -⟩ := hchain
              rw [hyn]
              exact h.backs.2.1
          · refine hnextOther x fun hback => ?_
            rcases h.tail.place hyl with ⟨heq, -⟩ | ⟨p, hp, -, -, hback'⟩
            · exact hyn heq
            · rw [hback] at hback'
              cases hback'
              exact hzl hp
        rw [hlink]
        exact hrest.chain
      · refine (hpprevOther x ?_).trans h.backs.1
        intro heq
        by_cases hzero : next y = 0
        · exact hx (heq.trans hzero)
        · exact hzl (heq ▸ (h.tail.next_mem hyl hzero).1)

end Doubly

/-! ### Tables -/

namespace Buckets

variable {t t' : Buckets β} {b : β} {U : ℕ → Prop} {hash f : ℕ → β}

section Operations
variable [DecidableEq β]

/-- `*q = x` -/
def write (t : Buckets β) (q : Place β) (x : ℕ) : Buckets β :=
  match q with
  | .head b => { t with head := Function.update t.head b x }
  | .next p => { t with next := Function.update t.next p x }

/-- The record `x` is put in front of the list of its bucket. -/
def insert (t : Buckets β) (b : β) (x : ℕ) : Buckets β where
  head := Function.update t.head b x
  next := Function.update t.next x (t.head b)
  pprev := Function.update
    (if t.head b = 0 then t.pprev else Function.update t.pprev (t.head b) (.next x)) x (.head b)

/-- The record `x` is taken out. -/
def remove (t : Buckets β) (x : ℕ) : Buckets β :=
  let t' := t.write (t.pprev x) (t.next x)
  if t'.next x = 0 then t'
  else { t' with pprev := Function.update t'.pprev (t'.next x) (t'.pprev x) }

/-- There is nothing behind the last record. -/
theorem remove_of_last {x : ℕ} (h : t.next x = 0) : t.remove x = t.write (t.pprev x) 0 := by
  unfold remove
  dsimp only
  rw [h, if_pos]
  cases t.pprev x with
  | head b => exact h
  | next p =>
    show Function.update t.next p 0 x = 0
    rw [Function.update_apply, h, ite_self]

end Operations

/-- The lists have the records of the set `U`, each in its bucket. -/
def Holds (t : Buckets β) (U : ℕ → Prop) (hash : ℕ → β) : Prop :=
  ∀ b, ∃ l, Doubly t.next t.pprev (.head b) (t.head b) l ∧ ∀ x, x ∈ l ↔ U x ∧ hash x = b

namespace Holds

/-- The table of no records. -/
theorem empty (h : ∀ b, t.head b = 0) : t.Holds (fun _ => False) hash :=
  fun b => ⟨[], ⟨h b, trivial⟩, fun _ => iff_of_false nofun fun h => h.1⟩

/-- A table depends on its own records only. -/
theorem congr (h : t.Holds U hash) {V : ℕ → Prop} (hU : ∀ x, V x ↔ U x) (hhead : t'.head = t.head)
    (hsame : ∀ x, U x → t'.next x = t.next x ∧ t'.pprev x = t.pprev x ∧ f x = hash x) :
    t'.Holds V f := by
  intro b
  obtain ⟨l, hl, hmem⟩ := h b
  refine ⟨l, ?_, fun x => ?_⟩
  · rw [hhead]
    exact hl.congr (fun x hx => (hsame x ((hmem x).mp hx).1).1)
      fun x hx => (hsame x ((hmem x).mp hx).1).2.1
  · rw [hmem, hU]
    refine and_congr_right fun hx => ?_
    rw [(hsame x hx).2.2]

variable [DecidableEq β]

/-- **A record that is put in front of its list** is in the table. -/
theorem insert (h : t.Holds U hash) (hx : ¬ U x) (hne : x ≠ 0) (hb : f x = b)
    (hhash : ∀ y, U y → f y = hash y) : (t.insert b x).Holds (fun y => y = x ∨ U y) f := by
  intro b'
  obtain ⟨l, hl, hmem⟩ := h b'
  have hnot : x ∉ l := fun hxl => hx ((hmem x).mp hxl).1
  have hnext : ∀ y ∈ l, (t.insert b x).next y = t.next y := by
    intro y hy
    refine Function.update_of_ne ?_ ..
    rintro rfl
    exact hnot hy
  by_cases hbb : b' = b
  · subst hbb
    refine ⟨x :: l, ⟨⟨Function.update_self .., hne, ?_⟩, Function.update_self .., ?_⟩, fun y => ?_⟩
    · have hhead : (t.insert b' x).next x = t.head b' := Function.update_self ..
      rw [hhead]
      exact hl.chain.congr hnext
    · cases l with
      | nil => trivial
      | cons z l =>
        obtain ⟨hz, hz0, -⟩ := hl.chain
        have hzx : z ≠ x := by
          rintro rfl
          exact hnot List.mem_cons_self
        refine ⟨?_, hl.backs.2.congr fun p hp => ?_⟩
        · simp [Buckets.insert, hz, hz0, hzx]
        · have hpz : p ≠ z := by
            rintro rfl
            exact (List.nodup_cons.mp hl.chain.nodup).1 hp
          have hpx : p ≠ x := by
            rintro rfl
            exact hnot (List.mem_cons_of_mem z hp)
          simp [Buckets.insert, hz, hz0, hpz, hpx]
    · rw [List.mem_cons, hmem]
      constructor
      · rintro (rfl | ⟨hy, hyb⟩)
        · exact ⟨Or.inl rfl, hb⟩
        · exact ⟨Or.inr hy, (hhash y hy).trans hyb⟩
      · rintro ⟨rfl | hy, hyb⟩
        · exact Or.inl rfl
        · exact Or.inr ⟨hy, (hhash y hy).symm.trans hyb⟩
  · have hhead : (t.insert b x).head b' = t.head b' := Function.update_of_ne hbb ..
    refine ⟨l, ?_, fun y => ?_⟩
    · rw [hhead]
      refine hl.congr hnext fun p hp => ?_
      have hpx : p ≠ x := by
        rintro rfl
        exact hnot hp
      obtain ⟨l₀, hl₀, hmem₀⟩ := h b
      have hph : t.head b ≠ 0 → p ≠ t.head b := by
        rintro hhead rfl
        have hin : t.head b ∈ l₀ := hl₀.chain.mem_of_reaches (.here hhead)
        exact hbb (((hmem _).mp hp).2.symm.trans ((hmem₀ _).mp hin).2)
      by_cases hzero : t.head b = 0
      · simp [Buckets.insert, hzero, hpx]
      · simp [Buckets.insert, hzero, hpx, hph hzero]
    · rw [hmem]
      constructor
      · rintro ⟨hy, hyb⟩
        exact ⟨Or.inr hy, (hhash y hy).trans hyb⟩
      · rintro ⟨rfl | hy, hyb⟩
        · exact absurd (hyb.symm.trans hb) hbb
        · exact ⟨hy, (hhash y hy).symm.trans hyb⟩

/-- What taking out a record does to links and places. -/
theorem remove_fields (h : t.Holds U hash) (hx : U x) :
    (∀ b, (t.remove x).head b = if t.pprev x = .head b then t.next x else t.head b) ∧
    (∀ p, (t.remove x).next p = if t.pprev x = .next p then t.next x else t.next p) ∧
    (t.next x ≠ 0 → (t.remove x).pprev (t.next x) = t.pprev x) ∧
    ∀ p, p ≠ t.next x → (t.remove x).pprev p = t.pprev p := by
  obtain ⟨l, hl, hmem⟩ := h (hash x)
  have hself : (t.write (t.pprev x) (t.next x)).next x = t.next x ∧
      (t.write (t.pprev x) (t.next x)).pprev = t.pprev := by
    rcases hl.place ((hmem x).mpr ⟨hx, rfl⟩) with ⟨-, hback⟩ | ⟨p, -, hp, -, hback⟩
    · rw [hback]
      exact ⟨rfl, rfl⟩
    · rw [hback]
      exact ⟨Function.update_of_ne (Ne.symm hp) .., rfl⟩
  have hwrite : (∀ b, (t.write (t.pprev x) (t.next x)).head b
        = if t.pprev x = .head b then t.next x else t.head b) ∧
      ∀ p, (t.write (t.pprev x) (t.next x)).next p
        = if t.pprev x = .next p then t.next x else t.next p := by
    cases t.pprev x with
    | head b₀ => simp [write, Function.update_apply, eq_comm]
    | next p₀ => simp [write, Function.update_apply, eq_comm]
  unfold remove
  dsimp only
  rw [hself.1, hself.2]
  split_ifs with hzero
  · rw [hself.2]
    exact ⟨hwrite.1, hwrite.2, fun hne => absurd hzero hne, fun p _ => rfl⟩
  · exact ⟨hwrite.1, hwrite.2, fun _ => Function.update_self .., fun p hp =>
      Function.update_of_ne hp ..⟩

/-- **A record that is taken out** is not in the table any more. -/
theorem remove (h : t.Holds U hash) (hx : U x) :
    (t.remove x).Holds (fun y => U y ∧ y ≠ x) hash := by
  obtain ⟨hhead, hnext, hpprev, hpprevOther⟩ := h.remove_fields hx
  obtain ⟨l₀, hl₀, hmem₀⟩ := h (hash x)
  have hxl₀ : x ∈ l₀ := (hmem₀ x).mpr ⟨hx, rfl⟩
  intro b
  by_cases hb : hash x = b
  · subst hb
    refine ⟨l₀.erase x, ?_, fun y => ?_⟩
    · have hfirst : (t.remove x).head (hash x) = if x = t.head (hash x) then t.next x
          else t.head (hash x) := by
        rw [hhead]
        rcases hl₀.place hxl₀ with ⟨heq, hback⟩ | ⟨p, hp, hpx, hlink, hback⟩
        · rw [if_pos hback, if_pos heq]
        · rw [if_neg (by rw [hback]; nofun), if_neg]
          -- the first record is not behind another one
          intro heq
          obtain ⟨-, hne⟩ := hl₀.next_mem hp (hlink ▸ hl₀.chain.ne_zero hxl₀)
          exact hne (hlink.trans heq)
      rw [hfirst]
      refine hl₀.remove (fun p _ => nofun) hxl₀ (fun p hp => ?_) (fun p hp => ?_) hpprev hpprevOther
      · rw [hnext, if_pos hp]
      · rw [hnext, if_neg hp]
    · rw [hl₀.chain.nodup.mem_erase_iff, hmem₀]
      tauto
  · obtain ⟨l, hl, hmem⟩ := h b
    have hdisj : ∀ p ∈ l, p ∉ l₀ := fun p hp hp₀ =>
      hb (((hmem₀ p).mp hp₀).2.symm.trans ((hmem p).mp hp).2)
    refine ⟨l, ?_, fun y => ?_⟩
    · have hsame : (t.remove x).head b = t.head b := by
        rw [hhead, if_neg]
        rcases hl₀.place hxl₀ with ⟨-, hback⟩ | ⟨p, -, -, -, hback⟩
        · rw [hback]
          intro heq
          cases heq
          exact hb rfl
        · rw [hback]
          nofun
      rw [hsame]
      refine hl.congr (fun p hp => ?_) fun p hp => hpprevOther p ?_
      · rw [hnext, if_neg]
        rcases hl₀.place hxl₀ with ⟨-, hback⟩ | ⟨p₀, hp₀, -, -, hback⟩
        · rw [hback]
          nofun
        · rw [hback]
          intro heq
          cases heq
          exact hdisj p hp hp₀
      · rintro rfl
        exact hdisj _ hp (hl₀.next_mem hxl₀ (hl.chain.ne_zero hp)).1
    · rw [hmem]
      constructor
      · rintro ⟨hy, hyb⟩
        refine ⟨⟨hy, ?_⟩, hyb⟩
        rintro rfl
        exact hb hyb
      · rintro ⟨⟨hy, -⟩, hyb⟩
        exact ⟨hy, hyb⟩

omit [DecidableEq β] in
/-- **A search of a bucket ends**, and finds records of the table. -/
theorem seek (h : t.Holds U hash) (test : ℕ → Bool) (b : β) :
    ∃ n₀ y, (∀ n, n₀ < n → Chain.seek t.next test n (t.head b) = some y) ∧
      (y ≠ 0 → U y ∧ test y = true) := by
  obtain ⟨l, hl, hmem⟩ := h b
  refine ⟨l.length, (l.find? test).getD 0, fun n hn => hl.chain.seek_eq test hn, ?_⟩
  cases hfind : l.find? test with
  | none => exact fun hne => absurd rfl hne
  | some y =>
    exact fun _ => ⟨((hmem y).mp (List.mem_of_find?_eq_some hfind)).1, List.find?_some hfind⟩

end Holds

end Buckets

end Chain
