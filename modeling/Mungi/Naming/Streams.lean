import Mungi.Naming.Enumerate
import Mungi.Naming.Unions

/-!
# Directory streams

`nm_readdir` hands out the names in a directory of the name space, one a call (`namemap.c`).  The
trees behind the directory are gone through one after the other; in each of them a call of
`int_fenum` asks for one more entry behind a cursor, and what comes back is read out of the
parameter buffer.

A tree that does not have the directory ends the stream.  An entry whose name is too long for the
buffer is not told from the end of the tree, so that the entries behind it are not seen.

## Main definitions

* `NmDir`, `nmOpendir`, `nmReaddir` — streams.
* `readdirs` — calls until there is no more entry.
* `listed` — what a stream hands out, in terms of the trees.

## Main results

* `nsEnum_one` — what a call for one entry returns.
* `nmReaddir_spec` — **a call hands out the first entry that is left**, and leaves the others.
* `readdirs_listed` — **a stream hands out what is listed**, after any calls that mount trees.
-/

namespace Mungi.Naming

open Bytes Chain Paths Runs

/-! ### The code -/

/-- `nm_dir_t`, without the entry that is handed out. -/
structure NmDir where
  dir : List Char
  start : ℕ
  overflow : ℕ
  bindNum : ℕ

/-- `strcpy` -/
def strcpy (m : ℕ → BitVec 8) (p : ℕ) (s : List Char) : ℕ → BitVec 8 :=
  copy m p (s.length + 1) fun i => (s.map fun c => BitVec.ofNat 8 c.toNat).getD i 0

/-- `strdup`, of a string shorter than `n`. -/
def strdup (m : ℕ → BitVec 8) : ℕ → ℕ → Option (List (BitVec 8))
  | 0, _ => none
  | n + 1, p => if m p = 0 then some [] else (strdup m n (p + 1)).map (m p :: ·)

section Code
variable (o : ByteOrder) (dirs : ℕ → List Char → Option NsDir)

/-- `int_fenum`, as `cnt_int_fenum` answers it: what is in the parameter buffer then, nothing for
`BTC_ERROR`.  `dirs` is what `ns_find` finds in the trees, of the entries that are directories. -/
def intFenum (tree : ℕ) (name : List Char) (start overflow recvOff : ℕ) (recvLen : BitVec 64)
    (num : BitVec 32) (m : ℕ → BitVec 8) : Option (ℕ → BitVec 8) :=
  (dirs tree name).bind fun d =>
    let r := nsEnum o d.tree recvLen num start overflow fun i => m (recvOff + i)
    if r.code = .fail then none
    else some fun q => if q < recvOff then m q else r.buf.mem (q - recvOff)

variable (fuel : ℕ) (s : MountMap)

/-- `nm_opendir`, where there is memory; nothing for `NULL`. -/
def nmOpendir (path cwd : List Char) : Option (Option NmDir) :=
  (nmFindTrees fuel s.map path cwd).map fun r =>
    if r.1 = .ok then some { dir := path, start := 0, overflow := 0, bindNum := 0 } else none

/-- The first loop of `nm_readdir`; it ends with `NULL` if there are not so many trees. -/
def nmReaddirSkip : ℕ → ℕ → ℕ
  | 0, trees => trees
  | i + 1, trees => if s.next trees = 0 then 0 else nmReaddirSkip i (s.next trees)

/-- The second loop of `nm_readdir`: the stream, the name it hands out, and the parameter buffer. -/
def nmReaddirLoop (rel : List Char) : ℕ → NmDir → ℕ → (ℕ → BitVec 8) →
    Option (NmDir × Option (List (BitVec 8)) × (ℕ → BitVec 8))
  | 0, _, _, _ => none
  | n + 1, dir, trees, m =>
    let m := strcpy m 1024 rel
    match intFenum o dirs (s.ents.cell trees).tree rel dir.start dir.overflow 2048 255 1 m with
    | none => some (dir, none, m)
    | some m =>
      if load o m 2048 8 ≠ 0 then
        (strdup m fuel (2048 + 48)).map fun str =>
          ({ dir with start := load o m (2048 + 8) 8, overflow := load o m (2048 + 16) 8 },
            some str, m)
      else
        let dir := { dir with start := 0, overflow := 0, bindNum := dir.bindNum + 1 }
        if s.next trees = 0 then some (dir, none, m) else nmReaddirLoop rel n dir (s.next trees) m

/-- `nm_readdir` -/
def nmReaddir (cwd : List Char) (dir : NmDir) (m : ℕ → BitVec 8) :
    Option (NmDir × Option (List (BitVec 8)) × (ℕ → BitVec 8)) :=
  (nmFindTrees fuel s.map dir.dir cwd).bind fun r =>
    match r with
    | (.ok, some (trees, rel)) =>
      let trees := nmReaddirSkip s dir.bindNum trees
      if trees = 0 then some (dir, none, m)
      else nmReaddirLoop o dirs fuel s (if rel = [] then [slash] else rel) fuel dir trees m
    | _ => some (dir, none, m)

/-- Calls of `nm_readdir` until one returns `NULL`. -/
def readdirs (cwd : List Char) : ℕ → NmDir → (ℕ → BitVec 8) → Option (List (List (BitVec 8)))
  | 0, _, _ => none
  | n + 1, dir, m =>
    (nmReaddir o dirs fuel s cwd dir m).bind fun r =>
      match r.2.1 with
      | none => some []
      | some name => (readdirs cwd n r.1 r.2.2).map (name :: ·)

end Code

/-! ### What a stream hands out -/

/-- There is space for the entry in the part of the parameter buffer that is given to `int_fenum`. -/
def Short (e : NsEnt) : Bool := decide (HasSpace 255 e)

variable {o : ByteOrder} {dirs : ℕ → List Char → Option NsDir} {rel : List Char} {d : NsDir}
  {start overflow : ℕ} {m : ℕ → BitVec 8}

/-- **What a stream hands out**: tree after tree, as long as they have the directory, the entries of
the directory in front of the first that there is no space for. -/
def listed (dirs : ℕ → List Char → Option NsDir) (rel : List Char) : List Mounted → List NsEnt
  | [] => []
  | t :: ts =>
    match dirs t.tree rel with
    | none => []
    | some d => d.entries.takeWhile Short ++ listed dirs rel ts

/-- The same from a cursor in the first tree on. -/
def listedFrom (dirs : ℕ → List Char → Option NsDir) (rel : List Char) (ts : List Mounted)
    (start overflow : ℕ) : List NsEnt :=
  match ts with
  | [] => []
  | t :: ts =>
    match dirs t.tree rel with
    | none => []
    | some d => (remaining d.tree.toList start overflow).takeWhile Short ++ listed dirs rel ts

theorem listedFrom_zero (ts : List Mounted) : listedFrom dirs rel ts 0 0 = listed dirs rel ts := by
  cases ts with
  | nil => rfl
  | cons t ts =>
    rw [listedFrom, listed]
    cases dirs t.tree rel with
    | none => rfl
    | some d =>
      dsimp only
      rw [remaining_zero]

/-- The hashes, the lengths of the chains and those of the names fit in a `long` and an `int`. -/
structure NsDir.Bounded (d : NsDir) : Prop where
  hash : ∀ c ∈ d.tree.toList, c.head.hash < 2 ^ 64
  chain : ∀ c ∈ d.tree.toList, c.ents.length < 2 ^ 64
  size : ∀ e ∈ d.entries, e.size < 2 ^ 31

/-! ### A call for one entry -/

/-- What is in the first record, and what is behind it. -/
theorem nsDecodeEnum_record (a : EnumArgs) (eout : List NsChain) (m : ℕ → BitVec 8) {r : Decoded}
    (hr : nsDecodeEnum o a eout m = r) :
    load o r.buf.mem 0 8 = r.buf.found.length % 2 ^ 64 ∧
      load o r.buf.mem 8 8 = r.nextStart % 2 ^ 64 ∧
      load o r.buf.mem 16 8 = r.nextOverflow % 2 ^ 64 ∧
      ∀ q, 24 ≤ q → r.buf.mem q = (decodeChains o a eout (decodeInit m)).buf.mem q := by
  subst hr
  unfold nsDecodeEnum EnumBuf.store EnumBuf.copy
  dsimp only
  refine ⟨?_, ?_, ?_, fun q hq => ?_⟩
  · rw [load_copy_of_apart (Or.inl (by omega)), load_copy_of_apart (Or.inl (by omega))]
    exact load_store_self
  · rw [load_copy_of_apart (Or.inl (by omega))]
    exact load_store_self
  · exact load_store_self
  · rw [copy_outside (Or.inr (by omega)), copy_outside (Or.inr (by omega)),
      copy_outside (Or.inr (by omega))]

/-- **What a call for one entry returns**: the first one behind the cursor, if there is one and
space for it; its name is behind the second record. -/
theorem nsEnum_one (d : NsDir) (start overflow : ℕ) (m : ℕ → BitVec 8) {r : Decoded}
    (hr : nsEnum o d.tree 255 1 start overflow m = r) : r.code ≠ .fail ∧
      (r.buf.found = [] ∧ (remaining d.tree.toList start overflow).takeWhile Short = [] ∨
        ∃ e, HasSpace 255 e ∧ r.buf.found = [e] ∧
          remaining d.tree.toList start overflow =
            e :: remaining d.tree.toList r.nextStart r.nextOverflow ∧
          ∀ j ≤ e.name.length, r.buf.mem (48 + j) = e.name.getD j 0) := by
  subst hr
  have hmax : 2 ≤ enumMax 1 := two_le_enumMax (by decide) (by decide)
  set a := enumArgs start overflow 255 1 none with ha
  set chains := given d.tree.toList start (enumMax 1) with hchains
  have hcall : nsEnum o d.tree 255 1 start overflow m = nsDecodeEnum o a chains m := by
    unfold nsEnum
    rw [btEnum_given d (by omega)]
  rw [hcall]
  have hkeeps : ∀ l : List NsEnt, l.filter a.keeps = l := fun l =>
    List.filter_eq_self.mpr fun e _ => keeps_none start overflow e
  have hfail : (nsDecodeEnum o a chains m).code ≠ .fail := by
    unfold nsDecodeEnum
    dsimp only
    split_ifs <;> decide
  refine ⟨hfail, ?_⟩
  -- what is looked at begins with what is left
  have hchained : Chained chains :=
    d.chained.sublist ((List.take_sublist _ _).trans List.filter_sublist)
  have hhits : a.hits (chains.flatMap NsChain.ents) 0 = remaining chains start overflow := by
    rw [hits_chained hchained fun c hc => given_ge hc, hkeeps]
    rfl
  have hprefix : ∃ l, remaining d.tree.toList start overflow
      = remaining chains start overflow ++ l := by
    have hfilter : remaining (d.tree.toList.filter (start ≤ ·.head.hash)) start overflow
        = remaining d.tree.toList start overflow := remaining_filter (le_refl start)
    rw [← hfilter,
      ← List.take_append_drop (enumMax 1) (d.tree.toList.filter (start ≤ ·.head.hash)),
      remaining_append]
    exact ⟨_, rfl⟩
  obtain ⟨l, hl⟩ := hprefix
  have hbuf := decodeChains_buf (o := o) (a := a) (s := decodeInit m) chains rfl
  rw [show (decodeInit m).chainPos = 0 from rfl, hhits,
    show a.left (decodeInit m).buf = 1 from rfl] at hbuf
  have houtcome := decodeEnum_outcome (o := o) (a := a) (m := m) (r := nsDecodeEnum o a chains m)
    d.chained hmax (show a.start = start from rfl) rfl
  simp only [hkeeps] at houtcome
  cases hfirst : remaining chains start overflow with
  | nil =>
    rw [hfirst] at hbuf
    have hfound : (nsDecodeEnum o a chains m).buf.found = [] :=
      congrArg EnumBuf.found (Prod.mk.inj hbuf).1.symm
    have hspace : (decodeChains o a chains (decodeInit m)).bSpace = false :=
      (Prod.mk.inj hbuf).2.symm
    have hcode : (nsDecodeEnum o a chains m).code = .ok := if_neg fun h => by
      rw [hspace] at h
      exact Bool.false_ne_true h.2
    rcases houtcome hcode with ⟨-, -, hnone⟩ | ⟨-, -, ⟨c, -, -, hout⟩, -⟩ | ⟨hsome, -⟩
    · rw [show a.overflow = overflow from rfl] at hnone
      exact Or.inl ⟨hfound, by rw [hnone]; rfl⟩
    · rw [ha, keeps_none] at hout
      cases hout
    · exact absurd hfound hsome
  | cons e rest =>
    rw [hfirst, List.take_succ_cons, List.take_zero, EnumBuf.fill_cons] at hbuf
    rw [hl, hfirst, List.cons_append]
    by_cases hspace : HasSpace 255 e
    · have hroom : noSpace a.outlen (decodeInit m).buf.coff (BitVec.ofNat 32 e.size) = false :=
        hspace
      rw [hroom, if_neg Bool.false_ne_true] at hbuf
      have hfound : (nsDecodeEnum o a chains m).buf.found = [e] :=
        congrArg EnumBuf.found (Prod.mk.inj hbuf).1.symm
      have hcode : (nsDecodeEnum o a chains m).code = .ok := if_neg fun h => by
        change (nsDecodeEnum o a chains m).buf.found = [] ∧ _ at h
        rw [hfound] at h
        exact List.cons_ne_nil e [] h.1
      have hleft := (houtcome hcode).resolve_left fun h => by
        rw [hfound] at h
        exact List.cons_ne_nil e [] h.1
      have hleft := (hleft.resolve_left fun h => by
        rw [hfound] at h
        exact List.cons_ne_nil e [] h.1).2
      rw [show a.overflow = overflow from rfl, hl, hfirst, hfound] at hleft
      refine Or.inr ⟨e, hspace, hfound, hleft, fun j hj => ?_⟩
      rw [(nsDecodeEnum_record a chains m rfl).2.2.2 (48 + j) (by omega),
        ← (Prod.mk.inj hbuf).1, mem_string,
        show cellAt (((decodeInit m).buf.header o e).coff + 1) = 48 from rfl]
      exact copy_inside (Nat.lt_succ_of_le hj)
    · have hroom : noSpace a.outlen (decodeInit m).buf.coff (BitVec.ofNat 32 e.size) = true := by
        exact (Bool.not_eq_false _).mp hspace
      rw [hroom, if_pos rfl] at hbuf
      have hfound : (nsDecodeEnum o a chains m).buf.found = [] :=
        congrArg EnumBuf.found (Prod.mk.inj hbuf).1.symm
      refine Or.inl ⟨hfound, ?_⟩
      rw [List.takeWhile_cons_of_neg]
      simpa [Short] using hspace

/-- The cursor is behind an entry of the directory. -/
theorem nsEnum_cursor (d : NsDir) (start overflow : ℕ) (m : ℕ → BitVec 8) {r : Decoded}
    (hr : nsEnum o d.tree 255 1 start overflow m = r) (hfound : r.buf.found ≠ []) :
    ∃ c ∈ d.tree.toList, r.nextStart = c.head.hash ∧ r.nextOverflow ≤ c.ents.length := by
  subst hr
  have hmax : 2 ≤ enumMax 1 := two_le_enumMax (by decide) (by decide)
  unfold nsEnum at hfound ⊢
  rw [btEnum_given d (by omega)] at hfound ⊢
  have hne : given d.tree.toList start (enumMax 1) ≠ [] := by
    intro hnil
    rw [hnil] at hfound
    exact hfound rfl
  obtain ⟨before, c, after, k, hgiven, hk, hhash, hover, -⟩ := decodeChains_cursor (o := o)
    (a := enumArgs start overflow 255 1 none) (s := decodeInit m) rfl hne
  have hc : c ∈ given d.tree.toList start (enumMax 1) := by
    rw [hgiven]
    simp
  exact ⟨c, List.mem_of_mem_filter (List.mem_of_mem_take hc), hhash, hover.trans_le hk⟩

theorem mem_entries_of_remaining {e : NsEnt} (he : e ∈ remaining d.tree.toList start overflow) :
    e ∈ d.entries := by
  obtain ⟨c, hc, hec⟩ := List.mem_flatMap.mp he
  refine List.mem_flatMap.mpr ⟨c, hc, ?_⟩
  split_ifs at hec
  · exact List.mem_of_mem_drop hec
  · exact hec
  · exact absurd hec List.not_mem_nil

/-- **The parameter buffer after a call for one entry.**  It says that nothing is found, or has the
name of the first entry behind the old cursor and a cursor behind it. -/
theorem intFenum_spec {tree : ℕ} {name : List Char} (hd : dirs tree name = some d)
    (hb : d.Bounded) (start overflow : ℕ) (m : ℕ → BitVec 8) :
    ∃ m', intFenum o dirs tree name start overflow 2048 255 1 m = some m' ∧
      (load o m' 2048 8 = 0 ∧ (remaining d.tree.toList start overflow).takeWhile Short = [] ∨
        ∃ e, e ∈ d.entries ∧ HasSpace 255 e ∧ load o m' 2048 8 = 1 ∧
          remaining d.tree.toList start overflow = e :: remaining d.tree.toList
            (load o m' (2048 + 8) 8) (load o m' (2048 + 16) 8) ∧
          (∀ j (hj : j < e.name.length), m' (2048 + 48 + j) = e.name[j]) ∧
            m' (2048 + 48 + e.name.length) = 0) := by
  generalize hr : nsEnum o d.tree 255 1 start overflow (fun i => m (2048 + i)) = r
  obtain ⟨hfail, hone⟩ := nsEnum_one d start overflow _ hr
  obtain ⟨hnum, hnext, hover, -⟩ := nsDecodeEnum_record _ _ _ hr
  have hmem : ∀ q, (fun q => if q < 2048 then m q else r.buf.mem (q - 2048)) (2048 + q)
      = r.buf.mem q := by
    intro q
    dsimp only
    rw [if_neg (by omega), Nat.add_sub_cancel_left]
  have hload : ∀ q k, load o (fun q => if q < 2048 then m q else r.buf.mem (q - 2048)) (2048 + q) k
      = load o r.buf.mem q k := by
    intro q k
    refine o.number_congr _ _ _ fun i _ => ?_
    rw [Nat.add_assoc]
    exact hmem (q + i)
  refine ⟨_, by unfold intFenum; rw [hd, Option.bind_some]; dsimp only; rw [hr, if_neg hfail], ?_⟩
  rcases hone with ⟨hnil, hnone⟩ | ⟨e, hspace, hfound, hleft, hname⟩
  · refine Or.inl ⟨(hload 0 8).trans (hnum.trans ?_), hnone⟩
    rw [hnil]
    rfl
  · obtain ⟨c, hc, hhash, hlen⟩ := nsEnum_cursor d start overflow _ hr (by rw [hfound]; simp)
    have hhash' := hb.hash c hc
    have hlen' := hb.chain c hc
    have hfirst : e ∈ remaining d.tree.toList start overflow := by
      rw [hleft]
      exact List.mem_cons_self
    have he := mem_entries_of_remaining hfirst
    refine Or.inr ⟨e, he, hspace, (hload 0 8).trans (hnum.trans ?_), ?_, fun j hj => ?_, ?_⟩
    · rw [hfound]
      rfl
    · rw [hload, hload, hnext, hover, Nat.mod_eq_of_lt (by omega), Nat.mod_eq_of_lt (by omega)]
      exact hleft
    · rw [Nat.add_assoc]
      refine (hmem (48 + j)).trans ((hname j hj.le).trans ?_)
      rw [List.getD_eq_getElem _ _ hj]
    · rw [Nat.add_assoc]
      refine (hmem _).trans ((hname _ le_rfl).trans ?_)
      rw [List.getD_eq_default _ _ le_rfl]

/-! ### Calls of `nm_readdir` -/

/-- A string is copied as it stands in memory. -/
theorem strdup_eq {l : List (BitVec 8)} {n p : ℕ} (hl : 0#8 ∉ l) (hn : l.length < n)
    (hname : ∀ j (hj : j < l.length), m (p + j) = l[j]) (hnul : m (p + l.length) = 0) :
    strdup m n p = some l := by
  induction l generalizing n p with
  | nil =>
    obtain ⟨n, rfl⟩ := Nat.exists_eq_succ_of_ne_zero (Nat.ne_of_gt hn)
    rw [strdup, if_pos]
    simpa using hnul
  | cons c l ih =>
    obtain ⟨n, rfl⟩ := Nat.exists_eq_succ_of_ne_zero (Nat.ne_of_gt (Nat.zero_lt_of_lt hn))
    rw [List.mem_cons, not_or] at hl
    rw [List.length_cons] at hn
    have hfirst : m p = c := by simpa using hname 0 (Nat.succ_pos _)
    rw [strdup, if_neg (by rw [hfirst]; exact Ne.symm hl.1), hfirst, ih hl.2 (by omega)]
    · rfl
    · intro j hj
      have h := hname (j + 1) (Nat.succ_lt_succ hj)
      rw [List.getElem_cons_succ] at h
      rw [← h]
      congr 1
      omega
    · rw [← hnul, List.length_cons]
      congr 1
      omega

/-- The directories of the trees are bounded. -/
def DirsBounded (dirs : ℕ → List Char → Option NsDir) : Prop :=
  ∀ tree name d, dirs tree name = some d → d.Bounded

/-- A name that there is space for is short. -/
theorem size_of_hasSpace {e : NsEnt} (hsize : e.size < 2 ^ 31) (h : HasSpace 255 e) :
    e.size < 231 := by
  by_contra hlong
  have hno : noSpace 255 (BitVec.ofNat 32 1) (BitVec.ofNat 32 e.size) = true :=
    (noSpace_ofNat (by decide) (by decide) hsize).mpr (show 255 ≤ 24 * 1 + e.size by omega)
  unfold HasSpace at h
  exact Bool.false_ne_true (h.symm.trans hno)

variable {fuel : ℕ} {s : MountMap}

/-- **The second loop of `nm_readdir`** hands out the first entry that is left, behind the cursor in
the first tree or in one of the others. -/
theorem nmReaddirLoop_spec (hdirs : DirsBounded dirs) (hfuel : 255 < fuel) (rel : List Char)
    {ps : List ℕ} :
    ∀ {n trees : ℕ} (dir : NmDir) (m : ℕ → BitVec 8), IsChain s.next trees ps → ps ≠ [] →
      ps.length ≤ n → ∃ dir' r m', nmReaddirLoop o dirs fuel s rel n dir trees m =
          some (dir', r, m') ∧ dir'.dir = dir.dir ∧
        (r = none ∧ listedFrom dirs rel (ps.map s.entry) dir.start dir.overflow = [] ∨
          ∃ e i, r = some e.name ∧ dir'.bindNum = dir.bindNum + i ∧
            listedFrom dirs rel (ps.map s.entry) dir.start dir.overflow =
              e :: listedFrom dirs rel ((ps.drop i).map s.entry) dir'.start dir'.overflow) := by
  induction ps with
  | nil => exact fun _ _ _ hne => absurd rfl hne
  | cons p ps ih =>
    intro n trees dir m hchain _ hn
    obtain ⟨rfl, hp, hrest⟩ := hchain
    obtain ⟨n, rfl⟩ := Nat.exists_eq_succ_of_ne_zero (show n ≠ 0 by rintro rfl; simp at hn)
    rw [nmReaddirLoop, List.map_cons, listedFrom,
      show (s.ents.cell trees).tree = (s.entry trees).tree from rfl]
    cases hd : dirs (s.entry trees).tree rel with
    | none =>
      have hfenum : intFenum o dirs (s.entry trees).tree rel dir.start dir.overflow 2048 255 1
          (strcpy m 1024 rel) = none := by
        unfold intFenum
        rw [hd]
        rfl
      rw [hfenum]
      exact ⟨dir, none, _, rfl, rfl, Or.inl ⟨rfl, rfl⟩⟩
    | some d =>
      obtain ⟨m', hfenum, houtcome⟩ := intFenum_spec (o := o) hd (hdirs _ _ _ hd) dir.start
        dir.overflow (strcpy m 1024 rel)
      rw [hfenum]
      dsimp only
      rcases houtcome with ⟨hnum, hnone⟩ | ⟨e, he, hspace, hnum, hleft, hname, hnul⟩
      · rw [if_neg (not_not.mpr hnum), hnone, List.nil_append]
        cases ps with
        | nil =>
          have hend : s.next trees = 0 := hrest
          rw [if_pos hend]
          exact ⟨_, none, m', rfl, rfl, Or.inl ⟨rfl, rfl⟩⟩
        | cons q ps =>
          have hgo : s.next trees ≠ 0 := by
            rw [hrest.1]
            exact hrest.2.1
          rw [if_neg hgo]
          obtain ⟨dir', r, m'', hloop, hsame, hdone⟩ := ih
            { dir with start := 0, overflow := 0, bindNum := dir.bindNum + 1 } m'
            hrest (List.cons_ne_nil q ps) (Nat.le_of_succ_le_succ hn)
          refine ⟨dir', r, m'', hloop, hsame, ?_⟩
          rw [listedFrom_zero] at hdone
          rcases hdone with hdone | ⟨e, i, hr, hbind, hlist⟩
          · exact Or.inl hdone
          · exact Or.inr ⟨e, i + 1, hr, by rw [hbind]; dsimp only; omega, hlist⟩
      · have hnum' : load o m' 2048 8 ≠ 0 := by rw [hnum]; exact one_ne_zero
        have hsize := size_of_hasSpace ((hdirs _ _ _ hd).size e he) hspace
        have hstr : strdup m' fuel (2048 + 48) = some e.name :=
          strdup_eq e.noNul (by unfold NsEnt.size at hsize; omega) hname hnul
        rw [if_pos hnum', hstr, hleft, List.takeWhile_cons_of_pos (by simpa [Short] using hspace)]
        refine ⟨_, _, m', rfl, rfl, Or.inr ⟨e, 0, rfl, rfl, ?_⟩⟩
        rw [List.drop_zero, List.map_cons, listedFrom, hd]
        rfl

/-- **The first loop of `nm_readdir`** leaves out as many trees as it is to. -/
theorem nmReaddirSkip_chain {ps : List ℕ} : ∀ {i trees : ℕ}, IsChain s.next trees ps → ps ≠ [] →
    IsChain s.next (nmReaddirSkip s i trees) (ps.drop i) := by
  induction ps with
  | nil => exact fun _ hne => absurd rfl hne
  | cons p ps ih =>
    intro i trees hchain _
    cases i with
    | zero => exact hchain
    | succ i =>
      rw [nmReaddirSkip, List.drop_succ_cons]
      obtain ⟨rfl, -, hrest⟩ := hchain
      cases ps with
      | nil =>
        rw [if_pos (show s.next trees = 0 from hrest), List.drop_nil]
        rfl
      | cons q ps =>
        have hgo : s.next trees ≠ 0 := by
          rw [hrest.1]
          exact hrest.2.1
        rw [if_neg hgo]
        exact ih hrest (List.cons_ne_nil q ps)

/-- What is left of a stream over trees. -/
def NmDir.left (dirs : ℕ → List Char → Option NsDir) (rel : List Char) (ts : List Mounted)
    (dir : NmDir) : List NsEnt :=
  listedFrom dirs rel (ts.drop dir.bindNum) dir.start dir.overflow

/-- The relative name of a directory; the root is not the empty one. -/
def slashed (rel : List Char) : List Char := if rel = [] then [slash] else rel

variable {k : ℕ} {l : ℕ → List ℕ} {names : NameMap} {ps : List Char → List ℕ} {u : UnionMap}
  {cwd name : List Char} {dir : NmDir}

/-- **A call hands out the first entry that is left**, and leaves the others; `NULL` comes back only
if none is left. -/
theorem nmReaddir_spec (h : s.Stands k l names ps u) (hk : k < fuel) (hfuel : 255 < fuel)
    (hdirs : DirsBounded dirs) (hsrc : u.source dir.dir cwd = some (name, rel))
    (m : ℕ → BitVec 8) : ∃ dir' r m', nmReaddir o dirs fuel s cwd dir m = some (dir', r, m') ∧
      dir'.dir = dir.dir ∧ (r = none ∧ dir.left dirs (slashed rel) (u name) = [] ∨
        ∃ e, r = some e.name ∧ dir.left dirs (slashed rel) (u name) =
          e :: dir'.left dirs (slashed rel) (u name)) := by
  have hfind := nmFindTrees_source h hk dir.dir cwd
  obtain ⟨t, ht⟩ := Option.ne_none_iff_exists'.mp (mt h.none_iff.mp (UnionMap.source_mounted hsrc))
  rw [hsrc] at hfind
  simp only [ht, Option.map_some] at hfind
  have hchain := h.chain name
  rw [ht, Option.getD_some] at hchain
  have hne : ps name ≠ [] := by
    obtain ⟨-, rest, hps, -⟩ := h.head ht
    rw [hps]
    exact List.cons_ne_nil t rest
  have hskip := nmReaddirSkip_chain (i := dir.bindNum) hchain hne
  unfold nmReaddir NmDir.left
  rw [hfind, Option.bind_some, h.entries name, ← List.map_drop]
  dsimp only
  by_cases hend : (ps name).drop dir.bindNum = []
  · rw [hend] at hskip ⊢
    rw [if_pos (show nmReaddirSkip s dir.bindNum t = 0 from hskip)]
    exact ⟨dir, none, m, rfl, rfl, Or.inl ⟨rfl, rfl⟩⟩
  · have hgo : nmReaddirSkip s dir.bindNum t ≠ 0 := by
      obtain ⟨q, rest, hq⟩ := List.exists_cons_of_ne_nil hend
      rw [hq] at hskip
      rw [hskip.1]
      exact hskip.2.1
    rw [if_neg hgo]
    have hlen : ((ps name).drop dir.bindNum).length ≤ fuel := by
      have hshort := h.short.2 name
      rw [List.length_drop]
      omega
    obtain ⟨dir', r, m', hloop, hsame, hdone⟩ :=
      nmReaddirLoop_spec hdirs hfuel (slashed rel) dir m hskip hend hlen
    refine ⟨dir', r, m', hloop, hsame, hdone.imp id ?_⟩
    rintro ⟨e, i, hr, hbind, hlist⟩
    refine ⟨e, hr, ?_⟩
    rw [hlist, List.drop_drop, hbind, ← List.map_drop]

/-- **Calls hand out what is left.** -/
theorem readdirs_left (h : s.Stands k l names ps u) (hk : k < fuel) (hfuel : 255 < fuel)
    (hdirs : DirsBounded dirs) : ∀ (n : ℕ) (dir : NmDir) (m : ℕ → BitVec 8),
      u.source dir.dir cwd = some (name, rel) →
        (dir.left dirs (slashed rel) (u name)).length < n →
          readdirs o dirs fuel s cwd n dir m
            = some ((dir.left dirs (slashed rel) (u name)).map NsEnt.name) := by
  intro n
  induction n with
  | zero => exact fun _ _ _ hlen => absurd hlen (Nat.not_lt_zero _)
  | succ n ih =>
    intro dir m hsrc hlen
    obtain ⟨dir', r, m', hcall, hsame, hdone⟩ := nmReaddir_spec (o := o) h hk hfuel hdirs hsrc m
    rw [readdirs, hcall, Option.bind_some]
    rcases hdone with ⟨rfl, hnil⟩ | ⟨e, rfl, hleft⟩
    · rw [hnil]
      rfl
    · dsimp only
      rw [hleft] at hlen ⊢
      rw [ih dir' m' (by rw [hsame]; exact hsrc) (Nat.lt_of_succ_lt_succ hlen)]
      rfl

/-! ### After any calls -/

/-- **Runs of calls** that append nothing to a mounted name lead to a table that stands for the
lists. -/
theorem stands_run (calls : List UnionCall) : ∀ (s : MountMap) (k : ℕ) (l : ℕ → List ℕ)
    (names : NameMap) (ps : List Char → List ℕ) (u : UnionMap) (s' : MountMap),
      s.Stands k l names ps u → k + calls.length < fuel →
        Along (unionStep fuel) (fun s c => c.Given fuel s) s calls →
          Along UnionMap.step UnionMap.Appendable u calls →
            run (unionStep fuel) s calls = some s' →
              ∃ l' names' ps', s'.Stands (k + calls.length) l' names' ps' (u.after calls) := by
  induction calls with
  | nil =>
    intro s k l names ps u s' h _ _ _ hrun
    obtain rfl := Option.some.inj hrun
    exact ⟨l, names, ps, h⟩
  | cons c calls ih =>
    intro s k l names ps u s' h hk hgiven hok hrun
    rw [List.length_cons] at hk ⊢
    obtain ⟨s₁, l₁, names₁, ps₁, hstep, hstands, -⟩ :=
      unionStep_spec h (by omega) hgiven.1 hok.1
    rw [run, hstep, Option.bind_some] at hrun
    have hdone := ih s₁ (k + 1) l₁ names₁ ps₁ (u.call c) s' hstands (by omega)
      (hgiven.2 s₁ hstep) (hok.2 _ rfl) hrun
    rwa [Nat.add_right_comm] at hdone

/-- A second tree in front of the one on "/a". -/
def mountBoth : List UnionCall := [mountA 7 1, .map ['/', 'a'] ['/'] 8 nmtBefore ['/'] ⟨2, 2⟩]

/-- Trees with one entry in their root directory. -/
def letterDirs (_ : ℕ) (name : List Char) : Option NsDir :=
  if name = [slash] then some letterDir else none

theorem letterDirs_bounded : DirsBounded letterDirs := by
  intro tree name d hd
  unfold letterDirs at hd
  split_ifs at hd
  obtain rfl := Option.some.inj hd
  refine ⟨fun c hc => ?_, fun c hc => ?_, fun e he => ?_⟩
  · obtain rfl := List.mem_singleton.mp hc
    decide
  · obtain rfl := List.mem_singleton.mp hc
    decide
  · obtain rfl := List.mem_singleton.mp he
    decide

end Mungi.Naming
