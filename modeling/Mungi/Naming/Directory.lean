import Mathlib.Data.BitVec
import Mungi.Naming.Decode
import Mungi.Naming.Delete

/-!
# Entries of a directory

A directory is a tree of chains, each of the entries whose names have one hash.  An entry is found by
going through the chain of its hash, is put in at the end of it, and is taken out wherever it is.
The loop that looks whether a new name is there already stops in front of the last entry of the
chain and does not compare with it.

What is assigned to an entry of a chain, or to the pointer to its first one, is assigned at the place
of the chain in the tree.

## Main definitions

* `hashpjw` — the hash of a name.
* `NsItem`, `ItemChain` — entries, and those with one hash.
* `nsFindItem`, `nsInsertEnt`, `nsDeleteEnt` — the functions of `nstree.c`.
* `NsTree.bucket` — the entries with a hash.
* `DirOk` — directories.

## Main results

* `hashpjw_lt` — a hash is positive as a `long`, too.
* `nsFindItem_eq`, `nsInsertEnt_spec`, `nsDeleteEnt_spec`, `nsAssign_spec` — **what the functions do
  to the entries with a hash**; those with others stay as they are.
-/

namespace Mungi.Naming

variable {α : Type}

/-! ### The code -/

/-- A turn of the loop of `hashpjw`; a `char` has a sign. -/
def hashStep (h : BitVec 64) (ch : BitVec 8) : BitVec 64 :=
  let h := (h <<< 4) + ch.signExtend 64
  let g := h &&& 0xf000000000000000#64
  if g ≠ 0 then (h ^^^ (g >>> 24)) ^^^ g else h

/-- `hashpjw`, with `HASHTABLE_SIZE`. -/
def hashpjw (s : List (BitVec 8)) : ℕ := (s.foldl hashStep 0).toNat % 18446744073709551557

/-- `nsent_t` -/
structure NsItem extends NsEnt where
  /-- The address of the tree of a directory. -/
  child : Option ℕ

/-- An entry of the tree, with those behind it. -/
structure ItemChain where
  head : NsItem
  tail : List NsItem

/-- The entries of the chain. -/
def ItemChain.items (c : ItemChain) : List NsItem := c.head :: c.tail

/-- A tree of entries, with the hash of the first of each chain. -/
def itemConf : BTConf ItemChain := nsConf fun c => c.head.hash

/-- What `ns_find_item` finds: `*data` with the entries in front of it and behind it in its chain.
It is the first one, and returned with `FIND_FIRST`, if there are none in front; `*dprev` is the
last of these. -/
structure NsFound where
  before : List NsItem
  ent : NsItem
  after : List NsItem

/-- The comparisons of `ns_find_item` along a chain. -/
def chainFind (name : List (BitVec 8)) (before : List NsItem) : List NsItem → Option NsFound
  | [] => none
  | ent :: rest =>
    if ent.name = name then some ⟨before, ent, rest⟩ else chainFind name (before ++ [ent]) rest

/-- `ns_find_item` -/
def nsFindItem (tree : NsTree ItemChain) (name : List (BitVec 8)) : Option NsFound :=
  match nsBtSearch itemConf tree (hashpjw name) with
  | (.ok, some chain) => chainFind name [] chain.items
  | _ => none

/-- The chain with other entries. -/
def ItemChain.relink (items : List NsItem) (c : ItemChain) : ItemChain :=
  match items with
  | [] => c
  | ent :: rest => ⟨ent, rest⟩

/-- The entries of a chain are assigned to, at the place of the chain in the tree. -/
def nsAssign (tree : NsTree ItemChain) (hash : ℕ) (items : List NsItem) : NsTree ItemChain :=
  (nsBtModify itemConf tree hash (ItemChain.relink items)).2

/-- The loop of `ns_insert_ent` along a chain: whether the name is that of an entry with another
one behind it. -/
def chainHolds (name : List (BitVec 8)) : List NsItem → Bool
  | [] => false
  | [_] => false
  | existing :: next :: rest => existing.name = name || chainHolds name (next :: rest)

/-- `ns_insert_ent`; none when its assertion fails. -/
def nsInsertEnt (tree : NsTree ItemChain) (ent : NsItem) (pages : ℕ) :
    Option (NsCode × NsTree ItemChain) :=
  let r := nsBtIns itemConf tree ⟨ent, []⟩ pages
  if r.1 = .ok then some (.ok, r.2)
  else if r.1 ≠ .duplicate then some (.fail, r.2)
  else
    match nsBtSearch itemConf r.2 ent.hash with
    | (.ok, some existing) =>
      if chainHolds ent.name existing.items then some (.fail, r.2)
      else some (.ok, nsAssign r.2 ent.hash (existing.items ++ [ent]))
    | _ => none

/-- `ns_delete_ent`: its code, the tree, and `*pent`; none when a page of the tree is left. -/
def nsDeleteEnt (tree : NsTree ItemChain) (name : List (BitVec 8)) :
    Option (NsCode × NsTree ItemChain × Option NsItem) :=
  match nsFindItem tree name with
  | none => some (.fail, tree, none)
  | some ⟨before, ent, after⟩ =>
    if before = [] ∧ after = [] then
      (nsBtDel itemConf tree ent.hash).map fun r => (.ok, r.2.1, some ent)
    -- the first entry goes through `BTModify`, and another one leaves the chain
    else some (.ok, nsAssign tree ent.hash (before ++ after), some ent)

/-! ### The hash -/

theorem hashStep_lt (h : BitVec 64) (ch : BitVec 8) : (hashStep h ch).toNat < 2 ^ 60 := by
  unfold hashStep
  dsimp only
  generalize (h <<< 4) + ch.signExtend 64 = x
  refine Nat.lt_pow_two_of_testBit _ fun i hi => ?_
  rw [BitVec.testBit_toNat]
  by_cases hlt : i < 64
  · -- the four bits that are masked
    have hcases : i = 60 ∨ i = 61 ∨ i = 62 ∨ i = 63 := by
      omega
    split_ifs with hg
    · rcases hcases with h | h | h | h <;> subst h <;> simp
    · have hzero : x &&& 0xf000000000000000#64 = 0 := by
        simpa using hg
      have hbit := congrArg (fun y => y.getLsbD i) hzero
      rcases hcases with h | h | h | h <;> subst h <;> simpa using hbit
  · exact BitVec.getLsbD_of_ge _ _ (by omega)

theorem foldl_hashStep_lt (s : List (BitVec 8)) : ∀ {h : BitVec 64}, h.toNat < 2 ^ 60 →
    (s.foldl hashStep h).toNat < 2 ^ 60 := by
  induction s with
  | nil => exact fun h => h
  | cons ch s ih =>
    intro h _
    exact ih (hashStep_lt h ch)

/-- **A hash is positive as a `long`, too**: `ns_find_item` keeps it in one. -/
theorem hashpjw_lt (s : List (BitVec 8)) : hashpjw s < 2 ^ 60 :=
  lt_of_le_of_lt (Nat.mod_le _ _) (foldl_hashStep_lt s (by decide))

/-! ### Trees -/

section Trees
variable {c : BTConf α} {t : NsTree α} {obj : α}

/-- `BTIns` puts an entry in where nothing stands in the way. -/
theorem nsBtIns_of_inserts (hc : Hashed c) (ht : t.WF c) {pages : ℕ} (hpages : t.depth < pages)
    (hins : Inserts c t obj) : NsInsSpec c t obj (nsBtIns c t obj pages) := by
  have hmM := hc.odd.bounds
  have hready := ready_of_wf hc ht obj
  have hshaped := ht.shaped
  unfold NsTree.Shaped at hshaped
  cases hroot : t.root with
  | obj x =>
    rw [hroot] at hshaped
    exact hshaped.elim
  | null =>
    obtain ⟨root, depth⟩ := t
    dsimp only at hroot
    subst hroot
    change depth = 0 at hshaped
    subst hshaped
    obtain ⟨pages, rfl⟩ := Nat.exists_eq_succ_of_ne_zero (show pages ≠ 0 by
      rintro rfl
      exact absurd hpages (lt_irrefl _))
    have hleaf : Shape c 0 ((newRoot 0 0 true).setChild 0 (.obj obj)) := by
      refine ⟨rfl, fun i h₁ h₂ => ?_⟩
      change i ≤ 0 at h₂
      obtain rfl : i = 0 := by omega
      exact ⟨obj, rfl⟩
    refine Iff.mpr ?_ hins
    refine nsInsSpec_iff_of_inserted hc ht [] [] rfl ⟨0, rfl, hleaf, le_rfl, ?_, by omega⟩ rfl rfl
      ⟨by simp, by simp⟩ ⟨fun _ => rfl, fun _ => ⟨fun i h₁ h₂ => ?_, fun i h₁ h₂ => ?_⟩⟩
    · change 0 ≤ c.btMaxkey
      omega
    · change i < 0 at h₂
      omega
    · change i ≤ 0 at h₂
      obtain rfl : i = 0 := by omega
      trivial
  | page p =>
    rw [hroot] at hshaped hready
    obtain ⟨n, hdepth, hsh, h0, hmax, hpos⟩ := hshaped
    have hlist : t.toList = (BTPtr.page p).toList := by
      unfold NsTree.toList
      rw [hroot]
    have hn : n < pages := by omega
    rw [nsBtIns_page t obj pages hroot]
    dsimp only
    cases nsBtInsert_outcome hc obj p hsh h0 hmax hready hn with
    | refused ret current dup first =>
      rw [if_neg (by rw [ret]; decide), current, ret]
      rw [← hlist] at dup
      have hsame : ({ t with root := .page p } : NsTree α) = t := by rw [← hroot]
      rw [hsame]
      exact ⟨iff_of_true rfl dup, fun _ => rfl, fun h => absurd rfl h, fun h => absurd rfl h,
        fun h => absurd rfl h, fun h => absurd rfl h⟩
    | lost first pages_le done => exact absurd (hroot ▸ first) hins.1
    | placed q l₁ l₂ ret current shape count_le count_max old new full between exact_iff =>
      rw [if_neg (by rw [ret]; decide), current]
      refine Iff.mpr ?_ hins
      refine nsInsSpec_iff_of_inserted hc ht l₁ l₂ ret
        ⟨n, hdepth, shape, by omega, count_max, by omega⟩ (hlist.trans old) new between ?_
      rw [hroot]
      exact exact_iff
    | promoted q q' l₁ l₂ ret pages_le current ppromoted shape shape' count count' old new full
        between exact_iff kpromoted fourth =>
      obtain ⟨left, hleft⟩ := Nat.exists_eq_succ_of_ne_zero
        (show (nsBtInsert c obj pages (.page p)).pages ≠ 0 by omega)
      rw [if_pos ret, hleft, current, ppromoted]
      refine Iff.mpr ?_ hins
      refine nsInsSpec_iff_of_inserted hc ht l₁ l₂ rfl ⟨n + 1, ?_,
        rootOver_shape _ _ hc.odd shape shape' count count', Int.one_nonneg, ?_, fun _ => le_rfl⟩
        (hlist.trans old) ((rootOver_toList _ _ _ _).trans new) between ?_
      · dsimp only
        rw [hdepth]
        push_cast
        rfl
      · change 1 ≤ c.btMaxkey
        omega
      · rw [hroot, ← exact_iff]
        exact rootOver_exact_iff _ _ fun _ _ => kpromoted

/-- `BTSearch` finds nothing where there is nothing. -/
theorem nsBtSearch_absent (hc : Hashed c) (ht : t.WF c) {k : ℕ}
    (h : ∀ o ∈ t.toList, c.btGetObjKey o ≠ k) : (nsBtSearch c t k).1 = .notFound := by
  have hshaped := ht.shaped
  obtain ⟨root, depth⟩ := t
  cases root with
  | null => rfl
  | obj x => exact hshaped.elim
  | page p =>
    obtain ⟨n, -, hsh, h0, -⟩ := hshaped
    obtain ⟨o, ho, hfind⟩ := btSearchPage_mem hc.odd k hsh h0
    have hne := h o ho
    unfold nsBtSearch
    dsimp only
    rw [hfind]
    dsimp only
    rw [if_neg]
    rw [btObjMatch_iff, hc.lim]
    omega

end Trees

/-! ### The entries with a hash -/

/-- The entries with a hash, of a list of chains. -/
def itemsAt (chains : List ItemChain) (hash : ℕ) : List NsItem :=
  chains.flatMap fun c => if c.head.hash = hash then c.items else []

/-- **The entries of a directory with a hash**, in the order of their chain. -/
def NsTree.bucket (t : NsTree ItemChain) (hash : ℕ) : List NsItem := itemsAt t.toList hash

/-- **Directories**: well-formed trees of chains, each of entries whose names have one hash. -/
structure DirOk (t : NsTree ItemChain) : Prop where
  wf : t.WF itemConf
  hash : ∀ c ∈ t.toList, ∀ e ∈ c.items, e.hash = c.head.hash
  name : ∀ c ∈ t.toList, ∀ e ∈ c.items, hashpjw e.name = e.hash

theorem itemConf_hashed : Hashed itemConf := nsConf_hashed _

theorem itemsAt_append (l l' : List ItemChain) (hash : ℕ) :
    itemsAt (l ++ l') hash = itemsAt l hash ++ itemsAt l' hash := List.flatMap_append

theorem itemsAt_cons (c : ItemChain) (l : List ItemChain) (hash : ℕ) :
    itemsAt (c :: l) hash = (if c.head.hash = hash then c.items else []) ++ itemsAt l hash := rfl

theorem itemsAt_of_ne {l : List ItemChain} {hash : ℕ} (h : ∀ c ∈ l, c.head.hash ≠ hash) :
    itemsAt l hash = [] := by
  rw [itemsAt, List.flatMap_eq_nil_iff]
  intro c hc
  rw [if_neg (h c hc)]

section Focus
variable {t : NsTree ItemChain} {c : ItemChain} {l₁ l₂ : List ItemChain}

/-- The hashes of other chains are others. -/
theorem ne_of_focus (h : (l₁ ++ c :: l₂).Pairwise itemConf.Lt) :
    ∀ d ∈ l₁ ++ l₂, d.head.hash ≠ c.head.hash := by
  obtain ⟨-, h₂, h₁₂⟩ := List.pairwise_append.mp h
  intro d hd
  rcases List.mem_append.mp hd with hd | hd
  · exact Nat.ne_of_lt (h₁₂ d hd c List.mem_cons_self)
  · exact Nat.ne_of_gt ((List.pairwise_cons.mp h₂).1 d hd)

/-- The entries with a hash where one chain is singled out. -/
theorem itemsAt_focus (h : (l₁ ++ c :: l₂).Pairwise itemConf.Lt) :
    itemsAt (l₁ ++ c :: l₂) = Function.update (itemsAt (l₁ ++ l₂)) c.head.hash c.items := by
  funext hash
  have hnil : ∀ l, l = l₁ ∨ l = l₂ → itemsAt l c.head.hash = [] := by
    intro l hl
    refine itemsAt_of_ne fun d hd => ne_of_focus h d (List.mem_append.mpr ?_)
    rcases hl with rfl | rfl
    · exact Or.inl hd
    · exact Or.inr hd
  rw [itemsAt_append, itemsAt_cons]
  by_cases heq : hash = c.head.hash
  · rw [heq, Function.update_self, hnil l₁ (Or.inl rfl), hnil l₂ (Or.inr rfl), if_pos rfl,
      List.nil_append, List.append_nil]
  · rw [Function.update_of_ne heq, if_neg (Ne.symm heq), List.nil_append, itemsAt_append]

theorem itemsAt_focus_none (h : (l₁ ++ c :: l₂).Pairwise itemConf.Lt) :
    itemsAt (l₁ ++ l₂) c.head.hash = [] := itemsAt_of_ne (ne_of_focus h)

theorem bucket_focus (h : t.WF itemConf) (hlist : t.toList = l₁ ++ c :: l₂) :
    t.bucket = Function.update (itemsAt (l₁ ++ l₂)) c.head.hash c.items := by
  have hsorted := h.sorted
  rw [hlist] at hsorted
  change itemsAt t.toList = _
  rw [hlist, itemsAt_focus hsorted]

/-- The entries with the hash of a chain are its own. -/
theorem DirOk.bucket_eq (h : DirOk t) (hc : c ∈ t.toList) : t.bucket c.head.hash = c.items := by
  obtain ⟨l₁, l₂, hlist⟩ := List.append_of_mem hc
  rw [bucket_focus h.wf hlist, Function.update_self]

end Focus

variable {t : NsTree ItemChain} {name : List (BitVec 8)} {hash : ℕ}

/-- There are no entries with a hash, or there is their chain. -/
theorem DirOk.bucket_cases (h : DirOk t) (hash : ℕ) :
    (t.bucket hash = [] ∧ ∀ c ∈ t.toList, c.head.hash ≠ hash) ∨
      ∃ c ∈ t.toList, c.head.hash = hash ∧ t.bucket hash = c.items := by
  by_cases hex : ∃ c ∈ t.toList, c.head.hash = hash
  · obtain ⟨c, hc, rfl⟩ := hex
    exact Or.inr ⟨c, hc, rfl, h.bucket_eq hc⟩
  · refine Or.inl ⟨itemsAt_of_ne fun c hc heq => hex ⟨c, hc, heq⟩, fun c hc heq => hex ⟨c, hc, heq⟩⟩

/-- Entries with a hash have it, and their names, too. -/
theorem DirOk.of_mem_bucket (h : DirOk t) {e : NsItem} (he : e ∈ t.bucket hash) :
    e.hash = hash ∧ hashpjw e.name = hash := by
  rcases h.bucket_cases hash with ⟨hnil, -⟩ | ⟨c, hc, rfl, hitems⟩
  · rw [hnil] at he
    exact absurd he List.not_mem_nil
  · rw [hitems] at he
    have hhash := h.hash c hc e he
    exact ⟨hhash, (h.name c hc e he).trans hhash⟩

/-! ### What the functions do -/

/-- What is found in a chain, with what is in front of it. -/
theorem chainFind_some {f : NsFound} : ∀ {l pre : List NsItem}, chainFind name pre l = some f →
    ∃ l₁, f.before = pre ++ l₁ ∧ l = l₁ ++ f.ent :: f.after ∧ f.ent.name = name ∧
      ∀ e ∈ l₁, e.name ≠ name := by
  intro l
  induction l with
  | nil => exact fun h => by cases h
  | cons ent rest ih =>
    intro pre h
    rw [chainFind] at h
    by_cases heq : ent.name = name
    · rw [if_pos heq] at h
      cases h
      exact ⟨[], (List.append_nil pre).symm, rfl, heq, by simp⟩
    · rw [if_neg heq] at h
      obtain ⟨l₁, hbefore, hl, hname, hnone⟩ := ih h
      refine ⟨ent :: l₁, by rw [hbefore]; simp, by rw [hl]; rfl, hname, fun e he => ?_⟩
      rcases List.mem_cons.mp he with rfl | he
      · exact heq
      · exact hnone e he

theorem chainFind_none {l : List NsItem} (pre : List NsItem) :
    chainFind name pre l = none ↔ ∀ e ∈ l, e.name ≠ name := by
  induction l generalizing pre with
  | nil => simp [chainFind]
  | cons ent rest ih =>
    rw [chainFind, List.forall_mem_cons]
    by_cases heq : ent.name = name
    · simp [heq]
    · rw [if_neg heq, ih, and_iff_right heq]

/-- The loop of `ns_insert_ent` goes past all entries but the last. -/
theorem chainHolds_iff : ∀ {l : List NsItem},
    chainHolds name l = true ↔ ∃ e ∈ l.dropLast, e.name = name
  | [] => by simp [chainHolds]
  | [_] => by simp [chainHolds]
  | existing :: next :: rest => by
    rw [chainHolds, Bool.or_eq_true, decide_eq_true_eq, chainHolds_iff, List.dropLast_cons_cons]
    simp

/-- `BTSearch` leads to the chain of a hash. -/
theorem DirOk.search (h : DirOk t) {c : ItemChain} (hc : c ∈ t.toList) :
    nsBtSearch itemConf t c.head.hash = (.ok, some c) := nsBtSearch_found itemConf_hashed h.wf hc

/-- **`ns_find_item` finds the first entry with a name** among those with its hash. -/
theorem nsFindItem_eq (h : DirOk t) (name : List (BitVec 8)) :
    nsFindItem t name = chainFind name [] (t.bucket (hashpjw name)) := by
  unfold nsFindItem
  rcases h.bucket_cases (hashpjw name) with ⟨hnil, hno⟩ | ⟨c, hc, hhash, hitems⟩
  · have hfind := nsBtSearch_absent itemConf_hashed h.wf hno
    rw [hnil]
    split
    · next heq => rw [heq] at hfind; cases hfind
    · rfl
  · rw [← hhash, h.search hc, h.bucket_eq hc]

/-- **Entries of a chain assigned to.** -/
theorem nsAssign_spec (h : DirOk t) {items : List NsItem} (hb : t.bucket hash ≠ [])
    (hne : items ≠ []) (hitems : ∀ e ∈ items, e.hash = hash ∧ hashpjw e.name = hash) :
    DirOk (nsAssign t hash items) ∧
      (nsAssign t hash items).bucket = Function.update t.bucket hash items := by
  rcases h.bucket_cases hash with ⟨hnil, -⟩ | ⟨c, hc, rfl, -⟩
  · exact absurd hnil hb
  obtain ⟨ent, rest, rfl⟩ := List.exists_cons_of_ne_nil hne
  have hent := hitems ent List.mem_cons_self
  have hkey : itemConf.btGetObjKey (ItemChain.relink (ent :: rest) c) = c.head.hash := hent.1
  obtain ⟨t', l₁, l₂, hmod, hwf, hold, hnew⟩ := nsBtModify_spec itemConf_hashed h.wf hc hkey
  have hres : nsAssign t c.head.hash (ent :: rest) = t' := congrArg Prod.snd hmod
  have hmem : ∀ d ∈ t'.toList, d = ⟨ent, rest⟩ ∨ d ∈ t.toList := by
    intro d hd
    rw [hnew] at hd
    rw [hold]
    simp only [List.mem_append, List.mem_cons] at hd ⊢
    rcases hd with hd | rfl | hd
    · exact Or.inr (Or.inl hd)
    · exact Or.inl rfl
    · exact Or.inr (Or.inr (Or.inr hd))
  rw [hres]
  refine ⟨⟨hwf, fun d hd e he => ?_, fun d hd e he => ?_⟩, ?_⟩
  · rcases hmem d hd with rfl | hd
    · exact (hitems e he).1.trans hent.1.symm
    · exact h.hash d hd e he
  · rcases hmem d hd with rfl | hd
    · exact (hitems e he).2.trans (hitems e he).1.symm
    · exact h.name d hd e he
  · rw [bucket_focus hwf hnew, bucket_focus h.wf hold, Function.update_idem]
    change Function.update (itemsAt (l₁ ++ l₂)) ent.hash (ent :: rest) = _
    rw [hent.1]

/-- **A new entry is put at the end of the chain of its hash**, unless the chain has one of its name
with another one behind it. -/
theorem nsInsertEnt_spec (h : DirOk t) {ent : NsItem} (hent : hashpjw ent.name = ent.hash)
    {pages : ℕ} (hpages : t.depth < pages) (hins : Inserts itemConf t ⟨ent, []⟩) :
    (chainHolds ent.name (t.bucket ent.hash) = true ∧ nsInsertEnt t ent pages = some (.fail, t)) ∨
      (chainHolds ent.name (t.bucket ent.hash) = false ∧
        ∃ t', nsInsertEnt t ent pages = some (.ok, t') ∧ DirOk t' ∧
          t'.bucket = Function.update t.bucket ent.hash (t.bucket ent.hash ++ [ent])) := by
  have hspec := nsBtIns_of_inserts itemConf_hashed h.wf hpages hins
  unfold nsInsertEnt
  dsimp only
  rcases h.bucket_cases ent.hash with ⟨hnil, hno⟩ | ⟨c, hc, hhash, hitems⟩
  · -- the first entry with its hash
    have hnew : (nsBtIns itemConf t ⟨ent, []⟩ pages).1 ≠ .duplicate := fun hdup => by
      obtain ⟨c, hc, hkey⟩ := hspec.duplicate_iff.mp hdup
      exact hno c hc hkey
    obtain ⟨l₁, l₂, hold, hlist⟩ := hspec.inserted hnew
    have hwf := hspec.wf hnew
    rw [hnil, if_pos (hspec.ok hnew)]
    refine Or.inr ⟨rfl, _, rfl, ⟨hwf, fun d hd e he => ?_, fun d hd e he => ?_⟩, ?_⟩
    · rw [hlist] at hd
      rcases List.mem_append.mp hd with hd | hd
      · exact h.hash d (by rw [hold]; exact List.mem_append_left l₂ hd) e he
      · rcases List.mem_cons.mp hd with rfl | hd
        · rw [List.mem_singleton.mp he]
        · exact h.hash d (by rw [hold]; exact List.mem_append_right l₁ hd) e he
    · rw [hlist] at hd
      rcases List.mem_append.mp hd with hd | hd
      · exact h.name d (by rw [hold]; exact List.mem_append_left l₂ hd) e he
      · rcases List.mem_cons.mp hd with rfl | hd
        · rw [List.mem_singleton.mp he]
          exact hent
        · exact h.name d (by rw [hold]; exact List.mem_append_right l₁ hd) e he
    · rw [bucket_focus hwf hlist, ← hold]
      rfl
  · have hdup : (nsBtIns itemConf t ⟨ent, []⟩ pages).1 = .duplicate :=
      hspec.duplicate_iff.mpr ⟨c, hc, hhash⟩
    rw [hspec.unchanged hdup, hdup, if_neg (by decide), if_neg (by simp), ← hhash, h.search hc,
      h.bucket_eq hc]
    dsimp only
    cases hholds : chainHolds ent.name c.items with
    | true => exact Or.inl ⟨rfl, rfl⟩
    | false =>
      rw [if_neg (by simp), hhash]
      have hne : t.bucket ent.hash ≠ [] := by
        rw [hitems]
        exact List.cons_ne_nil _ _
      have hall : ∀ e ∈ c.items ++ [ent], e.hash = ent.hash ∧ hashpjw e.name = ent.hash := by
        intro e he
        rcases List.mem_append.mp he with he | he
        · exact h.of_mem_bucket (hitems ▸ he)
        · rw [List.mem_singleton.mp he]
          exact ⟨rfl, hent⟩
      obtain ⟨hok, hbucket⟩ := nsAssign_spec h hne (by simp) hall
      exact Or.inr ⟨rfl, _, rfl, hok, hbucket⟩

/-- **The first entry with a name is taken out**, unless it is the only one with its hash and
deletion from the tree leaves a page. -/
theorem nsDeleteEnt_spec (h : DirOk t) {f : NsFound}
    (hfind : chainFind name [] (t.bucket (hashpjw name)) = some f)
    (hover : f.before = [] → f.after = [] → nsOverruns itemConf (hashpjw name) t.root = false) :
    ∃ t', nsDeleteEnt t name = some (.ok, t', some f.ent) ∧ DirOk t' ∧
      t'.bucket = Function.update t.bucket (hashpjw name) (f.before ++ f.after) := by
  obtain ⟨before, ent, after⟩ := f
  obtain ⟨l₁, hbefore, hbucket, hname, -⟩ := chainFind_some hfind
  obtain rfl : before = l₁ := hbefore
  have hmem : ent ∈ t.bucket (hashpjw name) := by
    rw [hbucket]
    simp
  have hhash := (h.of_mem_bucket hmem).1
  unfold nsDeleteEnt
  rw [nsFindItem_eq h, hfind]
  dsimp only at hover hbucket ⊢
  rw [hhash]
  by_cases halone : before = [] ∧ after = []
  · obtain ⟨rfl, rfl⟩ := halone
    rw [if_pos ⟨rfl, rfl⟩]
    rcases h.bucket_cases (hashpjw name) with ⟨hnil, -⟩ | ⟨c, hc, hkey, -⟩
    · rw [hnil] at hmem
      exact absurd hmem List.not_mem_nil
    have hout := nsBtDel_outcome itemConf_hashed.odd h.wf (hashpjw name)
    generalize nsBtDel itemConf t (hashpjw name) = res at hout ⊢
    cases hout with
    | notFound absent => exact absurd hkey (absent c hc)
    | outside o mem key overrun =>
      rw [hover rfl rfl] at overrun
      cases overrun
    | deleted t' l₁ l₂ o wf key old new within =>
      have hsub : ∀ d ∈ t'.toList, d ∈ t.toList := by
        intro d hd
        rw [new] at hd
        rw [old]
        simp only [List.mem_append, List.mem_cons] at hd ⊢
        tauto
      refine ⟨t', rfl, ⟨wf, fun d hd => h.hash d (hsub d hd), fun d hd => h.name d (hsub d hd)⟩, ?_⟩
      have hsorted := h.wf.sorted
      rw [old] at hsorted
      rw [bucket_focus h.wf old]
      change itemsAt t'.toList = _
      change o.head.hash = hashpjw name at key
      rw [new, ← key, Function.update_idem, List.append_nil, ← itemsAt_focus_none hsorted,
        Function.update_eq_self]
  · rw [if_neg halone]
    have hne : before ++ after ≠ [] := fun heq => halone (List.append_eq_nil_iff.mp heq)
    obtain ⟨hok, hnew⟩ := nsAssign_spec h (List.ne_nil_of_mem hmem) hne fun e he => by
      refine h.of_mem_bucket ?_
      rw [hbucket]
      simp only [List.mem_append, List.mem_cons] at he ⊢
      tauto
    exact ⟨_, rfl, hok, hnew⟩

end Mungi.Naming
