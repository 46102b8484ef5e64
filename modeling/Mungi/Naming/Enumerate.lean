import Mungi.Naming.Decode
import Mungi.Naming.Tree

/-!
# Cursors in a directory

`ns_enum` and `ns_rlookup` go through a directory in parts.  A cursor is a hash and a number of
entries with that hash; a call collects entries of the tree from the hash on, packs what fits into
the buffer, and returns the cursor behind the last entry that it looked at.  Both take the size of
the buffer as an `unsigned long` and hand it on as an `int`.

## Main definitions

* `NsDir` — directories.
* `nsEnum`, `nsRlookup` — the functions of `nstree.c`, for a directory that has been found.
* `enumAll`, `rlookupAll` — calls until nothing is returned.
* `remaining` — the entries from a cursor on.

## Main results

* `decodeEnum_accounts` — **what is returned and what is left from the new cursor on is what was
  left from the old one on.**
* `enumAll_complete`, `rlookupAll_complete` — **all entries are returned once**, if the buffer has
  space for each of them; `enumAll_space`, `rlookupAll_space` — only then.
-/

namespace Mungi.Naming

/-! ### The code -/

/-- A tree of entries, with the hash of the first of each chain. -/
def dirConf : BTConf NsChain := nsConf fun c => c.head.hash

/-- **A directory**: a well-formed tree of chains of entries with one hash. -/
structure NsDir where
  tree : NsTree NsChain
  wf : tree.WF dirConf
  same : ∀ c ∈ tree.toList, ∀ e ∈ c.ents, e.hash = c.head.hash

/-- The entries of a directory, in order of hash and chain position. -/
def NsDir.entries (d : NsDir) : List NsEnt := d.tree.toList.flatMap NsChain.ents

/-- `min( max, num + 1 )` -/
def enumMax (num : BitVec 32) : ℕ :=
  if 100 < (num + 1).toNat then 100 else (num + 1).toNat

/-- What `ns_decode_enum` is called with.  `outlen` is an `int` there. -/
def enumArgs (start overflow : ℕ) (outlen : BitVec 64) (num : BitVec 32)
    (value : Option (BitVec 64)) : EnumArgs where
  start := start
  overflow := overflow
  outlen := outlen.setWidth 32
  maxNum := num
  value := value

variable (o : Bytes.ByteOrder) (t : NsTree NsChain) (outlen : BitVec 64) (num : BitVec 32)

/-- `ns_enum` in the tree of a directory. -/
def nsEnum (start overflow : ℕ) (m : ℕ → BitVec 8) : Decoded :=
  nsDecodeEnum o (enumArgs start overflow outlen num none)
    (btEnum dirConf t (enumMax num) start) m

/-- The loop of `ns_rlookup`. -/
def nsRlookup (value : BitVec 64) : ℕ → ℕ → ℕ → (ℕ → BitVec 8) → Option Decoded
  | 0, _, _, _ => none
  | n + 1, start, overflow, m =>
    let eout := btEnum dirConf t (enumMax num) start
    let r := nsDecodeEnum o (enumArgs start overflow outlen num (some value)) eout m
    if r.code ≠ .ok then some r
    else if r.buf.found ≠ [] ∨ eout.length < enumMax num then some r
    else nsRlookup value n r.nextStart r.nextOverflow r.buf.mem

/-- Calls of `ns_enum`, each with the cursor that the one before returned, until one returns
nothing. -/
def enumAll : ℕ → ℕ → ℕ → (ℕ → BitVec 8) → Option (List NsEnt)
  | 0, _, _, _ => none
  | n + 1, start, overflow, m =>
    let r := nsEnum o t outlen num start overflow m
    if r.buf.found = [] then some []
    else (enumAll n r.nextStart r.nextOverflow r.buf.mem).map (r.buf.found ++ ·)

/-- The same with `ns_rlookup`, whose loop may take up to `fuel` turns. -/
def rlookupAll (value : BitVec 64) (fuel : ℕ) : ℕ → ℕ → ℕ → (ℕ → BitVec 8) → Option (List NsEnt)
  | 0, _, _, _ => none
  | n + 1, start, overflow, m =>
    (nsRlookup o t outlen num value fuel start overflow m).bind fun r =>
      if r.buf.found = [] then some []
      else (rlookupAll value fuel n r.nextStart r.nextOverflow r.buf.mem).map (r.buf.found ++ ·)

/-! ### Entries from a cursor on -/

/-- An entry is asked for. -/
def EnumArgs.keeps (a : EnumArgs) (e : NsEnt) : Bool := !a.other e

/-- **The entries from a cursor on.** -/
def remaining (chains : List NsChain) (start overflow : ℕ) : List NsEnt :=
  chains.flatMap fun c =>
    if c.head.hash = start then c.ents.drop overflow
    else if start < c.head.hash then c.ents else []

variable {o t outlen num} {a : EnumArgs} {chains : List NsChain} {ents : List NsEnt} {c : NsChain}
  {start overflow pos k : ℕ}

theorem hits_of_start (h : ∀ e ∈ ents, e.hash = a.start) (pos : ℕ) :
    a.hits ents pos = (ents.drop (a.overflow - pos)).filter a.keeps := by
  induction ents generalizing pos with
  | nil => simp [EnumArgs.hits]
  | cons e ents ih =>
    have he := h e List.mem_cons_self
    rw [EnumArgs.hits]
    simp only [he, true_and, if_true]
    rw [ih fun e' he' => h e' (List.mem_cons_of_mem e he')]
    by_cases hpos : pos < a.overflow
    · obtain ⟨n, hn⟩ : ∃ n, a.overflow - pos = n + 1 := ⟨a.overflow - pos - 1, by omega⟩
      rw [if_pos (Or.inl hpos), hn, List.drop_succ_cons]
      congr 2
      omega
    · have hzero : a.overflow - pos = 0 := by
        omega
      have hzero' : a.overflow - (pos + 1) = 0 := by
        omega
      rw [hzero, hzero', List.drop_zero, List.drop_zero, List.filter_cons]
      by_cases hother : a.other e
      · simp [EnumArgs.keeps, hother]
      · simp [EnumArgs.keeps, hother, hpos]

theorem hits_of_ne (h : ∀ e ∈ ents, e.hash ≠ a.start) (pos : ℕ) :
    a.hits ents pos = ents.filter a.keeps := by
  induction ents generalizing pos with
  | nil => rfl
  | cons e ents ih =>
    have he := h e List.mem_cons_self
    rw [EnumArgs.hits, List.filter_cons]
    simp only [he, false_and, false_or, if_false]
    rw [ih fun e' he' => h e' (List.mem_cons_of_mem e he')]
    by_cases hother : a.other e <;> simp [EnumArgs.keeps, hother]

/-- Chains in order of their hashes, each of entries with one hash. -/
structure Chained (chains : List NsChain) : Prop where
  sorted : chains.Pairwise fun c d => c.head.hash < d.head.hash
  same : ∀ c ∈ chains, ∀ e ∈ c.ents, e.hash = c.head.hash

theorem NsDir.chained (d : NsDir) : Chained d.tree.toList := ⟨d.wf.sorted, d.same⟩

theorem Chained.sublist {chains' : List NsChain} (h : Chained chains)
    (hsub : chains'.Sublist chains) : Chained chains' :=
  ⟨h.sorted.sublist hsub, fun c hc => h.same c (hsub.subset hc)⟩

/-- Chains behind the cursor are left as they are. -/
theorem remaining_of_lt (h : ∀ c ∈ chains, start < c.head.hash) :
    remaining chains start overflow = chains.flatMap NsChain.ents := by
  refine List.flatMap_congr fun c hc => ?_
  have hlt := h c hc
  rw [if_neg (Nat.ne_of_gt hlt), if_pos hlt]

theorem remaining_append (chains chains' : List NsChain) :
    remaining (chains ++ chains') start overflow =
      remaining chains start overflow ++ remaining chains' start overflow :=
  List.flatMap_append

/-- Chains in front of the cursor are left out. -/
theorem remaining_of_gt (h : ∀ c ∈ chains, c.head.hash < start) :
    remaining chains start overflow = [] := by
  refine List.flatMap_eq_nil_iff.mpr fun c hc => ?_
  have hlt := h c hc
  rw [if_neg (Nat.ne_of_lt hlt), if_neg (by omega)]

/-- What is left from a place in a chain on. -/
theorem remaining_at {before after : List NsChain} (h : Chained (before ++ c :: after)) (k : ℕ) :
    remaining (before ++ c :: after) c.head.hash k =
      c.ents.drop k ++ after.flatMap NsChain.ents := by
  have hsorted := List.pairwise_append.mp h.sorted
  have hbefore : remaining before c.head.hash k = [] :=
    remaining_of_gt fun d hd => hsorted.2.2 d hd c List.mem_cons_self
  have hafter : remaining after c.head.hash k = after.flatMap NsChain.ents :=
    remaining_of_lt (List.pairwise_cons.mp hsorted.2.1).1
  have hhere : remaining [c] c.head.hash k = c.ents.drop k := by
    simp [remaining]
  rw [remaining_append, hbefore, List.nil_append, ← List.singleton_append, remaining_append, hhere,
    hafter]

/-- Chains in front of where it is looked from are left out. -/
theorem remaining_filter (h : k ≤ start) :
    remaining (chains.filter (k ≤ ·.head.hash)) start overflow =
      remaining chains start overflow := by
  induction chains with
  | nil => rfl
  | cons c chains ih =>
    by_cases hc : k ≤ c.head.hash
    · rw [List.filter_cons_of_pos (by simpa using hc)]
      exact congrArg (_ ++ ·) ih
    · have hout : remaining [c] start overflow = [] :=
        remaining_of_gt fun d hd => by
          rw [List.mem_singleton.mp hd]
          omega
      rw [List.filter_cons_of_neg (by simpa using hc), ih, ← List.singleton_append (l := chains),
        remaining_append, hout, List.nil_append]

theorem mem_hits {e : NsEnt} (h : e ∈ a.hits ents pos) : e ∈ ents ∧ a.keeps e = true := by
  induction ents generalizing pos with
  | nil => exact absurd h List.not_mem_nil
  | cons cur ents ih =>
    rw [EnumArgs.hits] at h
    by_cases hpass : (cur.hash = a.start ∧ pos < a.overflow) ∨ a.other cur
    · rw [if_pos hpass] at h
      exact ⟨List.mem_cons_of_mem cur (ih h).1, (ih h).2⟩
    · rw [if_neg hpass] at h
      rcases List.mem_cons.mp h with rfl | h
      · refine ⟨List.mem_cons_self, ?_⟩
        have hother : a.other e ≠ true := fun h => hpass (Or.inr h)
        simpa [EnumArgs.keeps] using hother
      · exact ⟨List.mem_cons_of_mem cur (ih h).1, (ih h).2⟩

/-- The entries that are asked for, of the chains from the hash of the cursor on. -/
theorem hits_chained (h : Chained chains) (hge : ∀ c ∈ chains, a.start ≤ c.head.hash) :
    a.hits (chains.flatMap NsChain.ents) 0 =
      (remaining chains a.start a.overflow).filter a.keeps := by
  cases chains with
  | nil => rfl
  | cons c rest =>
    obtain ⟨hlt, -⟩ := List.pairwise_cons.mp h.sorted
    have hge_c := hge c List.mem_cons_self
    have hrest : ∀ d ∈ rest, a.start < d.head.hash := fun d hd => hge_c.trans_lt (hlt d hd)
    have hne : ∀ e ∈ rest.flatMap NsChain.ents, e.hash ≠ a.start := by
      intro e he
      obtain ⟨d, hd, hed⟩ := List.mem_flatMap.mp he
      rw [h.same d (List.mem_cons_of_mem c hd) e hed]
      exact Nat.ne_of_gt (hrest d hd)
    have hsame := h.same c List.mem_cons_self
    rw [← List.singleton_append, remaining_append, remaining_of_lt hrest, List.flatMap_append,
      EnumArgs.hits_append, hits_of_ne hne, List.filter_append]
    congr 1
    by_cases hc : c.head.hash = a.start
    · rw [hc] at hsame
      simp [remaining, hc, hits_of_start hsame]
    · have hsame' : ∀ e ∈ c.ents, e.hash ≠ a.start := fun e he => by
        rw [hsame e he]
        exact hc
      have hltc : a.start < c.head.hash := by omega
      simp [remaining, hc, hltc, hits_of_ne hsame']

/-- The same for those behind a place in a chain, which the cursor is not behind. -/
theorem hits_behind {before after : List NsChain} (h : Chained (before ++ c :: after))
    (hge : ∀ d ∈ before ++ c :: after, a.start ≤ d.head.hash) (hk : k ≤ c.ents.length)
    (hcursor : c.head.hash = a.start → a.overflow ≤ k ∨ k = c.ents.length) :
    a.hits (c.ents.drop k ++ after.flatMap NsChain.ents)
        (a.posAfter (before.flatMap NsChain.ents ++ c.ents.take k) 0) =
      (c.ents.drop k ++ after.flatMap NsChain.ents).filter a.keeps := by
  have hsorted := List.pairwise_append.mp h.sorted
  have hge_c := hge c (by simp)
  have hafter : ∀ e ∈ after.flatMap NsChain.ents, e.hash ≠ a.start := by
    intro e he
    obtain ⟨d, hd, hed⟩ := List.mem_flatMap.mp he
    have hlt := (List.pairwise_cons.mp hsorted.2.1).1 d hd
    rw [h.same d (by simp [hd]) e hed]
    omega
  have hsame := h.same c (by simp)
  rw [EnumArgs.hits_append, hits_of_ne hafter, List.filter_append]
  congr 1
  by_cases hc : c.head.hash = a.start
  · rw [hc] at hsame
    -- it is the first chain
    obtain rfl : before = [] := by
      cases before with
      | nil => rfl
      | cons d before =>
        have hlt := hsorted.2.2 d List.mem_cons_self c List.mem_cons_self
        have hged := hge d (by simp)
        omega
    have hpos : a.posAfter (([] : List NsChain).flatMap NsChain.ents ++ c.ents.take k) 0 = k := by
      have hcount : (c.ents.take k).countP (fun e => e.hash = a.start) =
          (c.ents.take k).length := by
        rw [List.countP_eq_length]
        intro e he
        simpa using hsame e (List.mem_of_mem_take he)
      unfold EnumArgs.posAfter
      rw [List.flatMap_nil, List.nil_append, hcount, List.length_take]
      omega
    rw [hpos, hits_of_start fun e he => hsame e (List.mem_of_mem_drop he)]
    rcases hcursor hc with hle | rfl
    · rw [Nat.sub_eq_zero_of_le hle, List.drop_zero]
    · rw [List.drop_length, List.drop_nil]
  · refine hits_of_ne (fun e he => ?_) _
    rw [hsame e (List.mem_of_mem_drop he)]
    exact hc

/-! ### The cursor after the loops -/

variable {s s' : DecodeState} {m : ℕ → BitVec 8}

/-- How far the inner loop gets in a chain. -/
theorem decodeChain_cursor {out : Bool} (hspace : s.bSpace = false)
    (h : decodeChain o a ents s = (s', out)) : ∃ k ≤ ents.length,
      s'.lastHash = s.lastHash ∧ s'.lastOverflow = s.lastOverflow + k ∧
        s'.buf.found = s.buf.found ++ a.hits (ents.take k) s.chainPos ∧
          ((out = false ∧ k = ents.length ∧ s'.bSpace = false ∧
              s'.chainPos = a.posAfter ents s.chainPos) ∨
            (out = true ∧ (s'.buf.found ≠ [] ∨ s'.bSpace = true) ∧
              ((∀ e ∈ ents, e.hash = a.start) → a.overflow ≤ s.chainPos + k))) := by
  induction ents generalizing s with
  | nil =>
    obtain ⟨rfl, rfl⟩ := Prod.mk.inj h
    exact ⟨0, le_rfl, rfl, rfl, (List.append_nil _).symm, Or.inl ⟨rfl, rfl, hspace, rfl⟩⟩
  | cons cur rest ih =>
    rw [decodeChain] at h
    set s₁ : DecodeState :=
      if cur.hash = a.start then { s with chainPos := s.chainPos + 1 } else s with hs₁
    have hbuf : s₁.buf = s.buf := by
      rw [hs₁]
      split <;> rfl
    have hspace₁ : s₁.bSpace = false := by
      rw [hs₁]
      split <;> exact hspace
    have hhash : s₁.lastHash = s.lastHash := by
      rw [hs₁]
      split <;> rfl
    have hover : s₁.lastOverflow = s.lastOverflow := by
      rw [hs₁]
      split <;> rfl
    have hpos : s₁.chainPos = if cur.hash = a.start then s.chainPos + 1 else s.chainPos := by
      rw [hs₁]
      split <;> rfl
    dsimp only at h
    -- the rest of the chain, behind an entry that is skipped or copied
    have hrest : ∀ buf, decodeChain o a rest
        { s₁ with buf := buf, lastOverflow := s₁.lastOverflow + 1 } = (s', out) →
          (∀ k, buf.found ++ a.hits (rest.take k) s₁.chainPos =
            s.buf.found ++ a.hits (cur :: rest.take k) s.chainPos) →
          ∃ k ≤ (cur :: rest).length, s'.lastHash = s.lastHash ∧
            s'.lastOverflow = s.lastOverflow + k ∧
            s'.buf.found = s.buf.found ++ a.hits ((cur :: rest).take k) s.chainPos ∧
            ((out = false ∧ k = (cur :: rest).length ∧ s'.bSpace = false ∧
                s'.chainPos = a.posAfter (cur :: rest) s.chainPos) ∨
              (out = true ∧ (s'.buf.found ≠ [] ∨ s'.bSpace = true) ∧
                ((∀ e ∈ cur :: rest, e.hash = a.start) → a.overflow ≤ s.chainPos + k))) := by
      intro buf hloop htake
      obtain ⟨k, hk, hhash', hover', hfound, hout⟩ :=
        ih (s := { s₁ with buf := buf, lastOverflow := s₁.lastOverflow + 1 }) hspace₁ hloop
      refine ⟨k + 1, Nat.succ_le_succ hk, hhash'.trans hhash, ?_, ?_, ?_⟩
      · rw [hover']
        change s₁.lastOverflow + 1 + k = _
        rw [hover]
        omega
      · rw [hfound, List.take_succ_cons]
        exact htake k
      · rcases hout with ⟨rfl, rfl, hno, hp⟩ | ⟨rfl, hsome, hle⟩
        · refine Or.inl ⟨rfl, rfl, hno, ?_⟩
          rw [hp, EnumArgs.posAfter_cons, ← hpos]
        · refine Or.inr ⟨rfl, hsome, fun hall => ?_⟩
          have := hle fun e he => hall e (List.mem_cons_of_mem cur he)
          change a.overflow ≤ s₁.chainPos + k at this
          rw [hpos, if_pos (hall cur List.mem_cons_self)] at this
          omega
    by_cases hpass : (cur.hash = a.start ∧ s.chainPos < a.overflow) ∨ a.other cur
    · rw [if_pos hpass] at h
      have hskip : ∀ l, a.hits (cur :: l) s.chainPos = a.hits l s₁.chainPos := by
        intro l
        rw [EnumArgs.hits, if_pos hpass, hpos]
      exact hrest s₁.buf h fun k => by rw [hskip, hbuf]
    · rw [if_neg hpass] at h
      have hkeep : ∀ l, a.hits (cur :: l) s.chainPos = cur :: a.hits l s₁.chainPos := by
        intro l
        rw [EnumArgs.hits, if_neg hpass, hpos]
      have hcursor : (∀ e ∈ cur :: rest, e.hash = a.start) → a.overflow ≤ s.chainPos := by
        intro hall
        by_contra hlt
        exact hpass (Or.inl ⟨hall cur List.mem_cons_self, by omega⟩)
      have hfound : (s₁.buf.put o a.outlen cur).1.found = _ := EnumBuf.found_put s₁.buf cur
      cases hput : s₁.buf.put o a.outlen cur with
      | mk buf full =>
        rw [hput] at h hfound
        cases full with
        | true =>
          obtain ⟨rfl, rfl⟩ := Prod.mk.inj h
          dsimp only at hfound
          rw [if_pos rfl, hbuf] at hfound
          refine ⟨0, Nat.zero_le _, hhash, hover, ?_, Or.inr ⟨rfl, Or.inr rfl, fun hall => ?_⟩⟩
          · rw [List.take_zero, EnumArgs.hits, List.append_nil]
            exact hfound
          · exact hcursor hall
        | false =>
          dsimp only at h hfound
          rw [if_neg Bool.false_ne_true, hbuf] at hfound
          by_cases hmax : a.maxNum.toInt ≤ buf.found.length
          · rw [if_pos hmax] at h
            obtain ⟨rfl, rfl⟩ := Prod.mk.inj h
            refine ⟨1, by simp, hhash, congrArg (· + 1) hover, ?_,
              Or.inr ⟨rfl, Or.inl ?_, fun hall => ?_⟩⟩
            · rw [List.take_succ_cons, List.take_zero, hkeep]
              exact hfound
            · change buf.found ≠ []
              rw [hfound]
              simp
            · exact (hcursor hall).trans (Nat.le_succ _)
          · rw [if_neg hmax] at h
            refine hrest buf h fun k => ?_
            rw [hkeep, hfound, List.append_assoc]
            rfl

/-- **Where the loops leave the cursor**: behind the last entry that was looked at. -/
theorem decodeChains_cursor (hspace : s.bSpace = false) (hne : chains ≠ []) :
    ∃ before c after k, chains = before ++ c :: after ∧ k ≤ c.ents.length ∧
      (decodeChains o a chains s).lastHash = c.head.hash ∧
      (decodeChains o a chains s).lastOverflow = k ∧
      (decodeChains o a chains s).buf.found = s.buf.found ++
        a.hits (before.flatMap NsChain.ents ++ c.ents.take k) s.chainPos ∧
      ((after = [] ∧ k = c.ents.length ∧ (decodeChains o a chains s).bSpace = false) ∨
        (((decodeChains o a chains s).buf.found ≠ [] ∨
            (decodeChains o a chains s).bSpace = true) ∧
          (before = [] → (∀ e ∈ c.ents, e.hash = a.start) → a.overflow ≤ s.chainPos + k))) := by
  induction chains generalizing s with
  | nil => exact absurd rfl hne
  | cons chain rest ih =>
    rw [decodeChains]
    cases hchain : decodeChain o a chain.ents
      { s with lastHash := chain.head.hash, lastOverflow := 0 } with
    | mk s₁ out =>
      obtain ⟨k, hk, hhash, hover, hfound, hout⟩ := decodeChain_cursor
        (s := { s with lastHash := chain.head.hash, lastOverflow := 0 }) hspace hchain
      have hover' : s₁.lastOverflow = k := hover.trans (Nat.zero_add k)
      rcases hout with ⟨rfl, rfl, hno, hpos⟩ | ⟨rfl, hsome, hle⟩
      · dsimp only
        by_cases hrest : rest = []
        · subst hrest
          refine ⟨[], chain, [], chain.ents.length, rfl, le_rfl, hhash, hover', ?_,
            Or.inl ⟨rfl, rfl, hno⟩⟩
          exact hfound
        · obtain ⟨before, c, after, k, rfl, hk, hhash, hover, hfound', hdone⟩ := ih hno hrest
          refine ⟨chain :: before, c, after, k, rfl, hk, hhash, hover, ?_, ?_⟩
          · rw [hfound', hfound, List.take_length, hpos, List.flatMap_cons,
              List.append_assoc chain.ents, EnumArgs.hits_append chain.ents]
            exact List.append_assoc _ _ _
          · rcases hdone with hdone | ⟨hsome, -⟩
            · exact Or.inl hdone
            · refine Or.inr ⟨hsome, ?_⟩
              rintro ⟨⟩
      · exact ⟨[], chain, rest, k, rfl, hk, hhash, hover', hfound, Or.inr ⟨hsome, fun _ => hle⟩⟩

/-- What is given to `ns_decode_enum`: the chains from the hash of the cursor on, at most `max`. -/
def given (chains : List NsChain) (start max : ℕ) : List NsChain :=
  (chains.filter (start ≤ ·.head.hash)).take max

theorem given_ge {d : NsChain} {max : ℕ} (hd : d ∈ given chains start max) :
    start ≤ d.head.hash := by
  simpa using (List.mem_filter.mp (List.mem_of_mem_take hd)).2

/-- **What is returned and what is left from the new cursor on is what was left from the old one
on**, of the entries that are asked for. -/
theorem decodeEnum_accounts (h : Chained chains) {max : ℕ}
    (hne : given chains a.start max ≠ []) :
    (remaining chains a.start a.overflow).filter a.keeps =
      (nsDecodeEnum o a (given chains a.start max) m).buf.found ++
        (remaining chains (nsDecodeEnum o a (given chains a.start max) m).nextStart
          (nsDecodeEnum o a (given chains a.start max) m).nextOverflow).filter a.keeps := by
  obtain ⟨before, c, after, k, hgiven, hk, hhash, hover, hfound, hdone⟩ :=
    decodeChains_cursor (o := o) (a := a) (s := decodeInit m) rfl hne
  set ge := chains.filter (a.start ≤ ·.head.hash) with hge
  have hchained : Chained ge := h.sublist List.filter_sublist
  have hall : ∀ d ∈ ge, a.start ≤ d.head.hash := fun d hd => by
    simpa using (List.mem_filter.mp hd).2
  have hsplit : ge = before ++ c :: (after ++ ge.drop max) := by
    conv_lhs => rw [← List.take_append_drop max ge]
    change given chains a.start max ++ _ = _
    rw [hgiven, List.append_assoc, List.cons_append]
  have hstart : a.start ≤ c.head.hash := hall c (by rw [hsplit]; simp)
  change _ = (decodeChains o a _ _).buf.found ++ (remaining chains (decodeChains o a _ _).lastHash
    (decodeChains o a _ _).lastOverflow).filter a.keeps
  rw [hfound, hhash, hover, ← remaining_filter le_rfl, ← remaining_filter hstart, ← hge,
    ← hits_chained hchained hall]
  change _ = ([] ++ a.hits _ 0) ++ _
  rw [List.nil_append]
  rw [hsplit] at hchained hall ⊢
  rw [remaining_at hchained, ← hits_behind hchained hall hk ?_, ← EnumArgs.hits_append]
  · congr 1
    rw [List.flatMap_append, List.flatMap_cons, ← List.append_assoc, ← List.append_assoc,
      List.append_assoc _ (c.ents.take k), List.take_append_drop]
  · intro hc
    rcases hdone with ⟨-, hk, -⟩ | ⟨-, hle⟩
    · exact Or.inr hk
    · left
      have hsame := hchained.same c (by simp)
      rw [hc] at hsame
      have hbefore : before = [] := by
        cases before with
        | nil => rfl
        | cons d before =>
          have hlt := (List.pairwise_append.mp hchained.sorted).2.2 d List.mem_cons_self c
            List.mem_cons_self
          have hged := hall d (by simp)
          omega
      have := hle hbefore hsame
      rwa [show (decodeInit m).chainPos = 0 from rfl, Nat.zero_add] at this

/-! ### Single calls -/

/-- What has been found stays, and some of the entries are found. -/
theorem fill_found (outlen : BitVec 32) (l : List NsEnt) (b : EnumBuf) :
    ∃ new, (EnumBuf.fill o outlen l b).1.found = b.found ++ new ∧ new.Sublist l := by
  induction l generalizing b with
  | nil => exact ⟨[], (List.append_nil _).symm, List.Sublist.slnil⟩
  | cons e l ih =>
    rw [EnumBuf.fill_cons]
    split
    · exact ⟨[], (List.append_nil _).symm, List.nil_sublist _⟩
    · obtain ⟨new, hnew, hsub⟩ := ih ((b.header o e).string e)
      refine ⟨e :: new, hnew.trans ?_, hsub.cons_cons e⟩
      change (b.found ++ [e]) ++ new = _
      rw [List.append_assoc]
      rfl

/-- There is space for an entry in an empty buffer. -/
def HasSpace (outlen : BitVec 64) (e : NsEnt) : Prop :=
  noSpace (outlen.setWidth 32) 1#32 (BitVec.ofNat 32 e.size) = false

instance (outlen : BitVec 64) (e : NsEnt) : Decidable (HasSpace outlen e) :=
  inferInstanceAs (Decidable (_ = _))

/-- A call does not ask for a bigger buffer if there is space for each entry. -/
theorem decodeEnum_code {value : Option (BitVec 64)} {eout : List NsChain}
    (hfit : ∀ c ∈ eout, ∀ e ∈ c.ents, (enumArgs start overflow outlen num value).keeps e = true →
      HasSpace outlen e) :
    (nsDecodeEnum o (enumArgs start overflow outlen num value) eout m).code = .ok := by
  set a := enumArgs start overflow outlen num value
  have hfill := decodeChains_buf (o := o) (a := a) (s := decodeInit m) eout rfl
  refine if_neg ?_
  rintro ⟨hnil, hspace⟩
  cases hl : (a.hits (eout.flatMap NsChain.ents) (decodeInit m).chainPos).take
    (a.left (decodeInit m).buf) with
  | nil =>
    rw [hl] at hfill
    have hno : false = (decodeChains o a eout (decodeInit m)).bSpace :=
      congrArg Prod.snd hfill
    rw [hspace] at hno
    cases hno
  | cons e l =>
    have hmem : e ∈ a.hits (eout.flatMap NsChain.ents) (decodeInit m).chainPos := by
      refine List.mem_of_mem_take (i := a.left (decodeInit m).buf) ?_
      rw [hl]
      exact List.mem_cons_self
    obtain ⟨hin, hkeep⟩ := mem_hits hmem
    obtain ⟨c, hc, hec⟩ := List.mem_flatMap.mp hin
    have hroom := hfit c hc e hec hkeep
    -- so the first one is copied
    rw [hl, EnumBuf.fill_cons, if_neg] at hfill
    · obtain ⟨new, hnew, -⟩ := fill_found (o := o) a.outlen l
        (((decodeInit m).buf.header o e).string e)
      rw [hfill, hnil] at hnew
      exact List.cons_ne_nil e new hnew.symm
    · rw [Bool.not_eq_true]
      exact hroom

/-- **What a call does with the cursor**, if it has space: it returns nothing and nothing is left;
or it returns nothing, and there are chains further on of which nothing is asked for; or it returns
something. -/
theorem decodeEnum_outcome (h : Chained chains) {max : ℕ} (hmax : 2 ≤ max) {r : Decoded}
    (hstart : a.start = start) (hr : nsDecodeEnum o a (given chains start max) m = r)
    (hcode : r.code = .ok) :
    (r.buf.found = [] ∧ (given chains start max).length < max ∧
      (remaining chains start a.overflow).filter a.keeps = []) ∨
    (r.buf.found = [] ∧ ¬ (given chains start max).length < max ∧
      (∃ c ∈ chains, start < c.head.hash ∧ a.keeps c.head = false) ∧
      (∃ d ∈ chains, start ≤ d.head.hash ∧ d.head.hash < r.nextStart) ∧
      (remaining chains start a.overflow).filter a.keeps =
        (remaining chains r.nextStart r.nextOverflow).filter a.keeps) ∨
    (r.buf.found ≠ [] ∧ (remaining chains start a.overflow).filter a.keeps =
      r.buf.found ++ (remaining chains r.nextStart r.nextOverflow).filter a.keeps) := by
  subst hstart hr
  by_cases hne : given chains a.start max = []
  · left
    have hfilter : chains.filter (a.start ≤ ·.head.hash) = [] := by
      rcases List.take_eq_nil_iff.mp hne with hzero | hnil
      · omega
      · exact hnil
    refine ⟨?_, ?_, ?_⟩
    · rw [hne]
      rfl
    · rw [hne]
      change 0 < max
      omega
    · rw [← remaining_filter le_rfl, hfilter]
      rfl
  · have haccounts := decodeEnum_accounts (o := o) (m := m) h hne
    by_cases hfound : (nsDecodeEnum o a (given chains a.start max) m).buf.found = []
    · have hspace :
          (decodeChains o a (given chains a.start max) (decodeInit m)).bSpace = false := by
        by_contra hspace
        have hmore : (nsDecodeEnum o a (given chains a.start max) m).code = .moremem :=
          if_pos ⟨hfound, by simpa using hspace⟩
        rw [hmore] at hcode
        cases hcode
      obtain ⟨before, c, after, k, hgiven, -, hhash, -, hhits, hdone⟩ :=
        decodeChains_cursor (o := o) (a := a) (s := decodeInit m) rfl hne
      rcases hdone with ⟨rfl, rfl, -⟩ | ⟨hsome | hspace', -⟩
      · have hchained : Chained (given chains a.start max) :=
          h.sublist ((List.take_sublist _ _).trans List.filter_sublist)
        have hnone : (remaining (given chains a.start max) a.start a.overflow).filter a.keeps
            = [] := by
          rw [← hits_chained hchained fun d hd => given_ge hd, hgiven, List.flatMap_append,
            List.flatMap_singleton]
          rw [List.take_length] at hhits
          exact (hhits.symm.trans hfound :)
        by_cases hlen : (given chains a.start max).length < max
        · left
          have hall : given chains a.start max = chains.filter (a.start ≤ ·.head.hash) := by
            unfold given at hlen ⊢
            rw [List.length_take] at hlen
            exact List.take_of_length_le (by omega)
          refine ⟨hfound, hlen, ?_⟩
          rw [hall, remaining_filter le_rfl] at hnone
          exact hnone
        · right
          left
          -- there are two chains at least
          obtain ⟨d, rest, rfl⟩ : ∃ d rest, before = d :: rest := by
            cases before with
            | nil =>
              rw [hgiven] at hlen
              simp at hlen
              omega
            | cons d rest => exact ⟨d, rest, rfl⟩
          have hsub : ∀ e ∈ given chains a.start max, e ∈ chains :=
            fun e he => List.mem_of_mem_filter (List.mem_of_mem_take he)
          have hd : d ∈ given chains a.start max := by
            rw [hgiven]
            simp
          have hc : c ∈ given chains a.start max := by
            rw [hgiven]
            simp
          have hlt : d.head.hash < c.head.hash := by
            have hsorted := hchained.sorted
            rw [hgiven] at hsorted
            exact (List.pairwise_append.mp hsorted).2.2 d List.mem_cons_self c List.mem_cons_self
          have hstart := (given_ge hd).trans_lt hlt
          refine ⟨hfound, hlen, ⟨c, hsub c hc, hstart, ?_⟩, ⟨d, hsub d hd, given_ge hd, ?_⟩, ?_⟩
          · have hleft : c.head ∈ remaining (given chains a.start max) a.start a.overflow := by
              refine List.mem_flatMap.mpr ⟨c, hc, ?_⟩
              rw [if_neg (Nat.ne_of_gt hstart), if_pos hstart]
              exact List.mem_cons_self
            simpa using List.filter_eq_nil_iff.mp hnone c.head hleft
          · exact hlt.trans_eq hhash.symm
          · rw [haccounts, hfound, List.nil_append]
      · exact absurd hfound hsome
      · rw [hspace] at hspace'
        cases hspace'
    · exact Or.inr (Or.inr ⟨hfound, haccounts⟩)

/-! ### Calls until nothing is returned -/

variable {d : NsDir} {value : BitVec 64} {n : ℕ}

theorem two_le_enumMax (h₁ : 1 ≤ num.toNat) (h₂ : num.toNat < 2 ^ 32 - 1) : 2 ≤ enumMax num := by
  have hnum : (num + 1).toNat = num.toNat + 1 := by
    rw [BitVec.toNat_add]
    exact Nat.mod_eq_of_lt (show num.toNat + 1 < 2 ^ 32 by omega)
  unfold enumMax
  rw [hnum]
  split <;> omega

theorem btEnum_given (d : NsDir) {max : ℕ} (hmax : 0 < max) (start : ℕ) :
    btEnum dirConf d.tree max start = given d.tree.toList start max :=
  btEnum_eq (nsConf_odd _) d.wf hmax start

/-- From the start on, all entries are left. -/
theorem remaining_zero (d : NsDir) : remaining d.tree.toList 0 0 = d.entries := by
  refine List.flatMap_congr fun c _ => ?_
  rcases Nat.eq_zero_or_pos c.head.hash with hc | hc
  · rw [if_pos hc, List.drop_zero]
  · rw [if_neg (Nat.ne_of_gt hc), if_pos hc]

theorem mem_entries_of_given {max : ℕ} {c : NsChain} {e : NsEnt}
    (hc : c ∈ given d.tree.toList start max) (he : e ∈ c.ents) : e ∈ d.entries :=
  List.mem_flatMap.mpr ⟨c, List.mem_of_mem_filter (List.mem_of_mem_take hc), he⟩

theorem keeps_none (start overflow : ℕ) (e : NsEnt) :
    (enumArgs start overflow outlen num none).keeps e = true := rfl

theorem keeps_some (start overflow : ℕ) (e : NsEnt) :
    (enumArgs start overflow outlen num (some value)).keeps e = decide (e.value = value) := by
  unfold EnumArgs.keeps EnumArgs.other enumArgs
  by_cases h : e.value = value
  · simp [h]
  · simp [h, Ne.symm h]

/-- **Calls of `ns_enum` return what is left from the cursor on**, if there is space for each
entry. -/
theorem enumAll_complete (h₁ : 1 ≤ num.toNat) (h₂ : num.toNat < 2 ^ 32 - 1)
    (hfit : ∀ e ∈ d.entries, HasSpace outlen e) (n : ℕ) : ∀ start overflow m,
      (remaining d.tree.toList start overflow).length < n →
        enumAll o d.tree outlen num n start overflow m =
          some (remaining d.tree.toList start overflow) := by
  have hmax := two_le_enumMax h₁ h₂
  induction n with
  | zero => exact fun _ _ _ hlen => absurd hlen (Nat.not_lt_zero _)
  | succ n ih =>
    intro start overflow m hlen
    have hcode : (nsDecodeEnum o (enumArgs start overflow outlen num none)
        (given d.tree.toList start (enumMax num)) m).code = .ok :=
      decodeEnum_code fun c hc e he _ => hfit e (mem_entries_of_given hc he)
    have hfilter : ∀ l : List NsEnt,
        l.filter (enumArgs start overflow outlen num none).keeps = l :=
      fun l => List.filter_eq_self.mpr fun e _ => keeps_none start overflow e
    have hcall : nsEnum o d.tree outlen num start overflow m = nsDecodeEnum o
        (enumArgs start overflow outlen num none) (given d.tree.toList start (enumMax num)) m := by
      unfold nsEnum
      rw [btEnum_given d (by omega)]
    set r := nsDecodeEnum o (enumArgs start overflow outlen num none)
      (given d.tree.toList start (enumMax num)) m with hr
    have houtcome := decodeEnum_outcome d.chained hmax rfl hr.symm hcode
    rw [enumAll, hcall]
    simp only [hfilter] at houtcome
    rcases houtcome with ⟨hnil, -, hnone⟩ | ⟨-, -, ⟨c, -, -, hout⟩, -⟩ | ⟨hsome, hleft⟩
    · rw [if_pos hnil]
      exact congrArg some hnone.symm
    · rw [keeps_none] at hout
      cases hout
    · rw [if_neg hsome]
      change remaining d.tree.toList start overflow =
        r.buf.found ++ remaining d.tree.toList r.nextStart r.nextOverflow at hleft
      rw [hleft, List.length_append] at hlen
      have hpos := List.length_pos_of_ne_nil hsome
      rw [ih _ _ _ (by omega), Option.map_some, ← hleft]

/-- The entries from a cursor on that have a value. -/
def matching (chains : List NsChain) (value : BitVec 64) (start overflow : ℕ) : List NsEnt :=
  (remaining chains start overflow).filter fun e => e.value = value

/-- **What a call of `ns_rlookup` does**: its loop ends, and it returns nothing only if nothing is
left or there is no space for an entry; what it returns and what is left is what was left. -/
theorem nsRlookup_outcome (o : Bytes.ByteOrder) (d : NsDir) (outlen : BitVec 64)
    (value : BitVec 64) (h₁ : 1 ≤ num.toNat) (h₂ : num.toNat < 2 ^ 32 - 1) (n : ℕ) :
    ∀ start overflow m, (d.tree.toList.filter (start ≤ ·.head.hash)).length < n →
      ∃ r, nsRlookup o d.tree outlen num value n start overflow m = some r ∧
        ((r.buf.found = [] ∧ ((∀ e ∈ d.entries, e.value = value → HasSpace outlen e) →
            matching d.tree.toList value start overflow = [])) ∨
          (r.buf.found ≠ [] ∧ matching d.tree.toList value start overflow =
            r.buf.found ++ matching d.tree.toList value r.nextStart r.nextOverflow)) := by
  have hmax := two_le_enumMax h₁ h₂
  induction n with
  | zero => exact fun _ _ _ hlen => absurd hlen (Nat.not_lt_zero _)
  | succ n ih =>
    intro start overflow m hlen
    set a := enumArgs start overflow outlen num (some value) with ha
    set r := nsDecodeEnum o a (given d.tree.toList start (enumMax num)) m with hr
    have hkeeps : a.keeps = fun e => decide (e.value = value) :=
      funext fun e => keeps_some start overflow e
    rw [nsRlookup, btEnum_given d (by omega), ← ha, ← hr]
    by_cases hcode : r.code = .ok
    · have hstart : a.start = start := rfl
      have houtcome := decodeEnum_outcome d.chained hmax hstart hr.symm hcode
      rw [hkeeps] at houtcome
      rw [if_neg (not_not.mpr hcode)]
      rcases houtcome with ⟨hnil, hshort, hnone⟩ | ⟨hnil, hshort, -, ⟨c, hc, hlow, hhigh⟩, hleft⟩ |
        ⟨hsome, hleft⟩
      · rw [if_pos (Or.inr hshort)]
        exact ⟨r, rfl, Or.inl ⟨hnil, fun _ => hnone⟩⟩
      · rw [if_neg (not_or.mpr ⟨not_not.mpr hnil, hshort⟩)]
        -- there are fewer chains from the new cursor on
        have hfewer : (d.tree.toList.filter (r.nextStart ≤ ·.head.hash)).length <
            (d.tree.toList.filter (start ≤ ·.head.hash)).length := by
          have hsame : d.tree.toList.filter (r.nextStart ≤ ·.head.hash) =
              (d.tree.toList.filter (start ≤ ·.head.hash)).filter (r.nextStart ≤ ·.head.hash) := by
            rw [List.filter_filter]
            refine List.filter_congr fun x _ => ?_
            rw [Bool.eq_iff_iff]
            simp only [decide_eq_true_eq, Bool.and_eq_true]
            omega
          rw [hsame, List.length_filter_lt_length_iff_exists]
          refine ⟨c, List.mem_filter.mpr ⟨hc, decide_eq_true hlow⟩, ?_⟩
          simpa using hhigh
        obtain ⟨r', hcall, hdone⟩ := ih r.nextStart r.nextOverflow r.buf.mem (by omega)
        refine ⟨r', hcall, ?_⟩
        change matching d.tree.toList value start overflow =
          matching d.tree.toList value _ _ at hleft
        rw [hleft]
        exact hdone
      · rw [if_pos (Or.inl hsome)]
        exact ⟨r, rfl, Or.inr ⟨hsome, hleft⟩⟩
    · rw [if_pos hcode]
      refine ⟨r, rfl, Or.inl ⟨?_, fun hfit => absurd ?_ hcode⟩⟩
      · by_contra hsome
        exact hcode (if_neg fun h => hsome h.1)
      · refine decodeEnum_code fun c hc e he hkeep => hfit e (mem_entries_of_given hc he) ?_
        rw [keeps_some] at hkeep
        exact of_decide_eq_true hkeep

/-- **Calls of `ns_rlookup` return the entries with the value that are left**, if there is space for
each. -/
theorem rlookupAll_complete (h₁ : 1 ≤ num.toNat) (h₂ : num.toNat < 2 ^ 32 - 1)
    (hfit : ∀ e ∈ d.entries, e.value = value → HasSpace outlen e) {fuel : ℕ}
    (hfuel : d.tree.toList.length < fuel) (n : ℕ) : ∀ start overflow m,
      (matching d.tree.toList value start overflow).length < n →
        rlookupAll o d.tree outlen num value fuel n start overflow m =
          some (matching d.tree.toList value start overflow) := by
  induction n with
  | zero => exact fun _ _ _ hlen => absurd hlen (Nat.not_lt_zero _)
  | succ n ih =>
    intro start overflow m hlen
    obtain ⟨r, hcall, hdone⟩ := nsRlookup_outcome o d outlen value h₁ h₂ fuel start overflow m
      ((List.length_filter_le _ _).trans_lt hfuel)
    rw [rlookupAll, hcall, Option.bind_some]
    rcases hdone with ⟨hnil, hnone⟩ | ⟨hsome, hleft⟩
    · rw [if_pos hnil, hnone hfit]
    · rw [if_neg hsome]
      rw [hleft, List.length_append] at hlen
      have hpos := List.length_pos_of_ne_nil hsome
      rw [ih _ _ _ (by omega), Option.map_some, ← hleft]

/-! ### Only entries there is space for are returned -/

/-- **An entry that is copied would fit into an empty buffer.** -/
theorem fill_space {outlen : BitVec 32} (hout : 0 ≤ outlen.toInt) (l : List NsEnt) :
    ∀ (b : EnumBuf) (p : ℕ), b.coff = BitVec.ofNat 32 p → 1 ≤ p → 24 * p ≤ outlen.toNat + 48 →
      (∀ e ∈ l, e.size < 2 ^ 31) → ∀ e ∈ (EnumBuf.fill o outlen l b).1.found, e ∈ b.found ∨
        noSpace outlen 1#32 (BitVec.ofNat 32 e.size) = false := by
  have hlt : outlen.toNat < 2 ^ 31 := by
    have := toInt_eq_toNat hout
    have := outlen.toInt_lt
    omega
  induction l with
  | nil => exact fun b p _ _ _ _ e he => Or.inl he
  | cons cur l ih =>
    intro b p hcoff hp hle hsize e he
    have hcur := hsize cur List.mem_cons_self
    rw [EnumBuf.fill_cons, hcoff] at he
    by_cases hno : noSpace outlen (BitVec.ofNat 32 p) (BitVec.ofNat 32 cur.size) = true
    · rw [if_pos hno] at he
      exact Or.inl he
    · rw [if_neg hno] at he
      rw [noSpace_ofNat hlt (by omega) hcur, not_le] at hno
      have hcoff' : ((b.header o cur).string cur).coff = BitVec.ofNat 32 (p + cur.cells) := by
        change nextCell b.coff _ = _
        rw [hcoff, nextCell_ofNat (by omega) hcur (by omega)]
        rfl
      have hcells : 24 * (p + cur.cells) ≤ outlen.toNat + 48 := by
        unfold NsEnt.cells
        omega
      rcases ih _ _ hcoff' (by omega) hcells (fun e he => hsize e (List.mem_cons_of_mem cur he)) e
        he with hmem | hspace
      · rcases List.mem_append.mp hmem with hmem | hmem
        · exact Or.inl hmem
        · obtain rfl := List.mem_singleton.mp hmem
          right
          -- it has been copied at a place behind the first one
          rw [← Bool.not_eq_true]
          intro hfirst
          have := (noSpace_ofNat hlt (p := 1) (by omega) hcur).mp hfirst
          omega
      · exact Or.inr hspace

/-- A size that is negative as an `int` is a big one when it is compared. -/
theorem hasSpace_of_neg {e : NsEnt} (hneg : (outlen.setWidth 32).toInt < 0)
    (hsize : e.size < 2 ^ 31) : HasSpace outlen e := by
  have hlen : ((BitVec.ofNat 32 e.size).signExtend 64).toNat = e.size := by
    rw [signExtend_toNat (by rw [ofNat_toNat hsize]; exact hsize), ofNat_toNat hsize]
  have hmsb : (outlen.setWidth 32).msb = true := BitVec.msb_eq_toInt.trans (decide_eq_true hneg)
  have hbig : 2 ^ 63 ≤ ((outlen.setWidth 32).signExtend 64).toNat := by
    rw [BitVec.toNat_signExtend, hmsb, if_pos rfl]
    omega
  have hone : ((1#32).signExtend 64).toNat = 1 := signExtend_toNat (by decide)
  unfold HasSpace noSpace
  rw [BitVec.ule_eq_decide, decide_eq_false_iff_not, BitVec.toNat_add, BitVec.toNat_mul, hlen, hone]
  simp only [BitVec.toNat_ofNat]
  omega

/-- **There is space for each entry that a call returns.** -/
theorem decodeEnum_space {value : Option (BitVec 64)} {eout : List NsChain}
    (hsize : ∀ c ∈ eout, ∀ e ∈ c.ents, e.size < 2 ^ 31) {e : NsEnt}
    (he : e ∈ (nsDecodeEnum o (enumArgs start overflow outlen num value) eout m).buf.found) :
    HasSpace outlen e := by
  set a := enumArgs start overflow outlen num value
  have hhits : ∀ e ∈ (a.hits (eout.flatMap NsChain.ents) (decodeInit m).chainPos).take
      (a.left (decodeInit m).buf), e.size < 2 ^ 31 := by
    intro e he
    obtain ⟨c, hc, hec⟩ := List.mem_flatMap.mp (mem_hits (List.mem_of_mem_take he)).1
    exact hsize c hc e hec
  have hfill : (EnumBuf.fill o a.outlen _ _).1 = (decodeChains o a eout (decodeInit m)).buf :=
    congrArg Prod.fst (decodeChains_buf eout rfl)
  change e ∈ (decodeChains o a eout (decodeInit m)).buf.found at he
  rw [← hfill] at he
  rcases lt_or_ge (outlen.setWidth 32).toInt 0 with hneg | hout
  · obtain ⟨new, hnew, hsub⟩ := fill_found (o := o) a.outlen _ (decodeInit m).buf
    rw [hnew] at he
    exact hasSpace_of_neg hneg (hhits e (hsub.subset he))
  · have hp : 24 * 1 ≤ (outlen.setWidth 32).toNat + 48 := by omega
    rcases fill_space (o := o) hout _ _ 1 rfl le_rfl hp hhits e he with hmem | hspace
    · exact absurd hmem List.not_mem_nil
    · exact hspace

theorem enumAll_space (h₁ : 1 ≤ num.toNat) (h₂ : num.toNat < 2 ^ 32 - 1)
    (hsize : ∀ e ∈ d.entries, e.size < 2 ^ 31) : ∀ start overflow m l,
      enumAll o d.tree outlen num n start overflow m = some l → ∀ e ∈ l, HasSpace outlen e := by
  have hmax := two_le_enumMax h₁ h₂
  induction n with
  | zero => exact nofun
  | succ n ih =>
    intro start overflow m l hall e he
    rw [enumAll] at hall
    by_cases hnil : (nsEnum o d.tree outlen num start overflow m).buf.found = []
    · rw [if_pos hnil] at hall
      obtain rfl := Option.some.inj hall
      exact absurd he List.not_mem_nil
    · rw [if_neg hnil] at hall
      obtain ⟨rest, hrest, rfl⟩ := Option.map_eq_some_iff.mp hall
      rcases List.mem_append.mp he with he | he
      · unfold nsEnum at he
        rw [btEnum_given d (by omega)] at he
        exact decodeEnum_space (fun c hc e he => hsize e (mem_entries_of_given hc he)) he
      · exact ih _ _ _ _ hrest e he

theorem nsRlookup_space (h₁ : 1 ≤ num.toNat) (h₂ : num.toNat < 2 ^ 32 - 1)
    (hsize : ∀ e ∈ d.entries, e.size < 2 ^ 31) {r : Decoded} : ∀ start overflow m,
      nsRlookup o d.tree outlen num value n start overflow m = some r →
        ∀ e ∈ r.buf.found, HasSpace outlen e := by
  have hmax := two_le_enumMax h₁ h₂
  induction n with
  | zero => exact nofun
  | succ n ih =>
    intro start overflow m hcall e he
    rw [nsRlookup, btEnum_given d (by omega)] at hcall
    have hspace : ∀ e ∈ (nsDecodeEnum o (enumArgs start overflow outlen num (some value))
        (given d.tree.toList start (enumMax num)) m).buf.found, HasSpace outlen e :=
      fun e he => decodeEnum_space (fun c hc e he => hsize e (mem_entries_of_given hc he)) he
    set r' := nsDecodeEnum o (enumArgs start overflow outlen num (some value))
      (given d.tree.toList start (enumMax num)) m
    by_cases hcode : r'.code = .ok
    · rw [if_neg (not_not.mpr hcode)] at hcall
      by_cases hdone : r'.buf.found ≠ [] ∨ (given d.tree.toList start (enumMax num)).length <
        enumMax num
      · rw [if_pos hdone] at hcall
        obtain rfl := Option.some.inj hcall
        exact hspace e he
      · rw [if_neg hdone] at hcall
        exact ih _ _ _ hcall e he
    · rw [if_pos hcode] at hcall
      obtain rfl := Option.some.inj hcall
      exact hspace e he

theorem rlookupAll_space (h₁ : 1 ≤ num.toNat) (h₂ : num.toNat < 2 ^ 32 - 1)
    (hsize : ∀ e ∈ d.entries, e.size < 2 ^ 31) {fuel : ℕ} : ∀ start overflow m l,
      rlookupAll o d.tree outlen num value fuel n start overflow m = some l →
        ∀ e ∈ l, HasSpace outlen e := by
  induction n with
  | zero => exact nofun
  | succ n ih =>
    intro start overflow m l hall e he
    rw [rlookupAll] at hall
    obtain ⟨r, hcall, hall⟩ := Option.bind_eq_some_iff.mp hall
    by_cases hnil : r.buf.found = []
    · rw [if_pos hnil] at hall
      obtain rfl := Option.some.inj hall
      exact absurd he List.not_mem_nil
    · rw [if_neg hnil] at hall
      obtain ⟨rest, hrest, rfl⟩ := Option.map_eq_some_iff.mp hall
      rcases List.mem_append.mp he with he | he
      · exact nsRlookup_space h₁ h₂ hsize _ _ _ hcall e he
      · exact ih _ _ _ _ hrest e he

/-! ### Whole directories -/

/-- **Calls of `ns_enum` from the start on end**, and return every entry once, in order of hash and
place in the chain; whatever is in the buffer before. -/
def Enumerated (o : Bytes.ByteOrder) (d : NsDir) (outlen : BitVec 64) (num : BitVec 32) : Prop :=
  ∀ m, ∀ n > d.entries.length, enumAll o d.tree outlen num n 0 0 m = some d.entries

/-- **Calls of `ns_rlookup` end.**  From any cursor on, nothing is returned only if no entry is left
with the value; and from the start on they return every entry with the value once. -/
structure LookedUp (o : Bytes.ByteOrder) (d : NsDir) (outlen : BitVec 64) (num : BitVec 32)
    (value : BitVec 64) : Prop where
  ends : ∀ start overflow m, ∀ n > d.tree.toList.length,
    ∃ r, nsRlookup o d.tree outlen num value n start overflow m = some r ∧
      (r.buf.found = [] → matching d.tree.toList value start overflow = [])
  all : ∀ m, ∀ fuel > d.tree.toList.length, ∀ n > d.entries.length,
    rlookupAll o d.tree outlen num value fuel n 0 0 m =
      some (d.entries.filter fun e => e.value = value)

/-- **A directory is enumerated if and only if there is space for each of its entries.** -/
theorem nsEnum_complete (o : Bytes.ByteOrder) (d : NsDir) (outlen : BitVec 64) (num : BitVec 32)
    (h₁ : 1 ≤ num.toNat) (h₂ : num.toNat < 2 ^ 32 - 1) :
    ((∀ e ∈ d.entries, HasSpace outlen e) → Enumerated o d outlen num) ∧
    ((∀ e ∈ d.entries, e.size < 2 ^ 31) → Enumerated o d outlen num →
      ∀ e ∈ d.entries, HasSpace outlen e) := by
  refine ⟨fun hfit m n hn => ?_, fun hsize hall => ?_⟩
  · have hall := enumAll_complete (o := o) h₁ h₂ hfit n 0 0 m
    rw [remaining_zero] at hall
    exact hall hn
  · exact enumAll_space h₁ h₂ hsize 0 0 _ _ (hall (fun _ => 0) _ (Nat.lt_succ_self _))

/-- **A lookup by value finds what there is if and only if there is space for each entry with the
value.** -/
theorem nsRlookup_complete (o : Bytes.ByteOrder) (d : NsDir) (outlen : BitVec 64) (num : BitVec 32)
    (value : BitVec 64) (h₁ : 1 ≤ num.toNat) (h₂ : num.toNat < 2 ^ 32 - 1) :
    ((∀ e ∈ d.entries, e.value = value → HasSpace outlen e) → LookedUp o d outlen num value) ∧
    ((∀ e ∈ d.entries, e.size < 2 ^ 31) → LookedUp o d outlen num value →
      ∀ e ∈ d.entries, e.value = value → HasSpace outlen e) := by
  refine ⟨fun hfit => ⟨fun start overflow m n hn => ?_, fun m fuel hfuel n hn => ?_⟩,
    fun hsize hall e he hvalue => ?_⟩
  · obtain ⟨r, hcall, hdone⟩ := nsRlookup_outcome o d outlen value h₁ h₂ n start overflow m
      ((List.length_filter_le _ _).trans_lt hn)
    refine ⟨r, hcall, fun hnil => ?_⟩
    rcases hdone with ⟨-, hnone⟩ | ⟨hsome, -⟩
    · exact hnone hfit
    · exact absurd hnil hsome
  · have hall := rlookupAll_complete (o := o) h₁ h₂ hfit hfuel n 0 0 m
    unfold matching at hall
    rw [remaining_zero] at hall
    exact hall ((List.length_filter_le _ _).trans_lt hn)
  · have hrun := hall.all (fun _ => 0) _ (Nat.lt_succ_self _) _ (Nat.lt_succ_self _)
    have hmem : e ∈ d.entries.filter fun e => e.value = value :=
      List.mem_filter.mpr ⟨he, decide_eq_true hvalue⟩
    exact rlookupAll_space h₁ h₂ hsize 0 0 _ _ hrun e hmem

/-- A directory with one entry. -/
def letterDir : NsDir where
  tree := ⟨.page ⟨0, 0, true, fun _ => 0, fun _ => .obj ⟨letterEnt, []⟩⟩, 1⟩
  wf :=
    { shaped := ⟨0, rfl, ⟨rfl, fun _ _ _ => ⟨_, rfl⟩⟩, le_rfl, by decide, nofun⟩
      exact := ⟨fun i h₁ h₂ => absurd (lt_of_le_of_lt h₁ h₂) (lt_irrefl _), fun _ _ _ => trivial⟩
      sorted := List.pairwise_singleton _ _ }
  same := by
    intro c hc e he
    obtain rfl := List.mem_singleton.mp hc
    obtain rfl := List.mem_singleton.mp he
    rfl

/-- An entry is enumerated in a buffer of 64 bytes. -/
theorem nsEnum_complete_letter : Enumerated .little letterDir 64 1 :=
  (nsEnum_complete .little letterDir 64 1 (by decide) (by decide)).1 fun e he => by
    obtain rfl := List.mem_singleton.mp he
    decide

theorem nsRlookup_complete_letter : LookedUp .little letterDir 64 1 7 :=
  (nsRlookup_complete .little letterDir 64 1 7 (by decide) (by decide)).1 fun e he _ => by
    obtain rfl := List.mem_singleton.mp he
    decide

/-- **It is not in one of 4 GiB**: as an `int`, that is no space at all. -/
theorem nsEnum_not_complete : ¬ Enumerated .little letterDir (2 ^ 32) 1 := by
  intro h
  have hrun : (enumAll .little letterDir.tree (2 ^ 32) 1 2 0 0 fun _ => 0).map List.length =
      some 0 := by
    decide +kernel
  rw [h _ 2 (by decide)] at hrun
  cases hrun

/-- **Nor is it found there by its value.** -/
theorem nsRlookup_not_complete : ¬ LookedUp .little letterDir (2 ^ 32) 1 7 := by
  intro h
  have hrun : (rlookupAll .little letterDir.tree (2 ^ 32) 1 7 2 2 0 0 fun _ => 0).map List.length =
      some 0 := by
    decide +kernel
  rw [h.all _ 2 (by decide) 2 (by decide)] at hrun
  revert hrun
  decide

end Mungi.Naming
