import Mungi.Lib.Paths

/-!
# Absolute names

`nh_absolute` makes an absolute name of a name and the current directory.  It cuts the full name
into tokens, each a string of its own, squashes "." and ".." out of the array of tokens, and puts
the rest together again.  Memory is taken to be available, and lengths to fit an `int`; how large
each buffer is, how much of it is filled and which tokens are freed is part of what the functions
return.

## Main definitions

* `nhPathtok`, `nhSquash`, `nhCompress`, `nhTok2str`, `nhAbsolute` — the functions of `namehash.c`.
* `absoluteName` — what the absolute name is meant to be.
* `Canonical` — absolute names.

## Main results

* `nhCompressLoop_eq` — squashing resolves the tokens.
* `nhAbsolute_eq` — **`nh_absolute` resolves the full name.**
* `nhAbsolute_canonical` — what that means for names.
-/

namespace Mungi.Naming

open Paths

/-! ### The code -/

/-- `SLASH` -/
def slash : Char := '/'

/-- A token, in memory of its own. -/
structure Token where
  /-- Which of the allocations it is. -/
  id : ℕ
  name : List Char

/-- A buffer that is filled. -/
structure Fill where
  size : ℕ
  /-- How far it is written to. -/
  used : ℕ

/-- The first loop of `nh_pathtok`: `toks` when it ends. -/
def countToks : List Char → Bool → ℕ → ℕ
  | [], _, toks => toks
  | ch :: path, inName, toks =>
    let inName := if ch = slash ∧ inName then false else inName
    if ch ≠ slash ∧ inName = false then countToks path true (toks + 1)
    else countToks path inName toks

/-- The second loop of `nh_pathtok`, for a number of tokens still to come, at position `i` of the
path.  After a token without a slash behind it there is no position, and none is needed. -/
def pathtokLoop (path : List Char) (len : ℕ) : ℕ → Option ℕ → Option (List (List Char))
  | 0, _ => some []
  | _ + 1, none => none
  | n + 1, some i =>
    let i := i + (((path.take len).drop i).takeWhile (· = slash)).length
    if i = len then some []
    else
      let next := (path.drop i).findIdx? (· = slash)
      let newlen := next.getD (len - i)
      (pathtokLoop path len n (next.map fun d => i + d + 1)).map fun l =>
        (path.drop i).take newlen :: l

/-- The array of tokens, with its size, and the fills so far. -/
structure Tokens where
  /-- `names[..]`, with `NULL` behind the last token. -/
  names : ℕ → Option Token
  cells : ℕ
  fills : List Fill

/-- `nh_pathtok` -/
def nhPathtok (path : List Char) (len : ℕ) : Option Tokens :=
  let toks := countToks (path.take len) false 0
  (pathtokLoop path len toks (some 0)).map fun l =>
    { names := fun i => (l[i]?).map fun name => ⟨i, name⟩
      cells := toks + 1
      fills := l.map (fun name => ⟨name.length + 1, name.length + 1⟩) ++
        [⟨toks + 1, l.length + 1⟩] }

/-- `nh_squash`, with what it writes to. -/
def nhSquash (t : Tokens) (start total count : ℕ) : Tokens :=
  -- `m1` is negative where the subtraction is cut off
  let m1 := start - (count - 1)
  let m2 := min (start + 1) total
  let mcount := total - m2 + 1
  { t with
    names := fun i => if m1 ≤ i ∧ i < m1 + mcount then t.names (i - m1 + m2) else t.names i
    fills := t.fills ++ [⟨t.cells, m1 + mcount⟩] }

/-- The loop of `nh_compress`, with the tokens it frees.  None when it does not end. -/
def nhCompressLoop : ℕ → Tokens → ℕ → ℕ → List ℕ → Option (Tokens × List ℕ)
  | 0, _, _, _, _ => none
  | fuel + 1, t, cur, num, freed =>
    match t.names cur with
    | none => some (t, freed)
    | some tok =>
      if tok.name = ['.'] then
        nhCompressLoop fuel (nhSquash t cur num 1) cur (num - 1) (freed ++ [tok.id])
      else if tok.name = ['.', '.'] then
        if 0 < cur then
          nhCompressLoop fuel (nhSquash t cur num 2) (cur - 1) (num - 2)
            (freed ++ ((t.names (cur - 1)).map Token.id).toList ++ [tok.id])
        else nhCompressLoop fuel (nhSquash t cur num 2) cur (num - 1) (freed ++ [tok.id])
      else nhCompressLoop fuel t (cur + 1) num freed

/-- The tokens before the `NULL`, from `i` on.  None when there is no `NULL` in the array. -/
def countNames (t : Tokens) : ℕ → ℕ → Option ℕ
  | 0, _ => none
  | fuel + 1, i =>
    match t.names i with
    | none => some i
    | some _ => countNames t fuel (i + 1)

/-- `nh_compress` -/
def nhCompress (t : Tokens) : Option (Tokens × List ℕ) :=
  (countNames t t.cells 0).bind fun num => nhCompressLoop (num + 1) t 0 num []

/-- The loop of `nh_tok2str`, with the buffer and the tokens it frees. -/
def nhTok2strLoop (t : Tokens) : ℕ → ℕ → List Char → List ℕ → Option (List Char × List ℕ)
  | 0, _, _, _ => none
  | fuel + 1, i, buf, freed =>
    match t.names i with
    | none => some (buf, freed)
    | some tok =>
      nhTok2strLoop t fuel (i + 1) ((if i ≠ 0 then buf ++ [slash] else buf) ++ tok.name)
        (freed ++ [tok.id])

/-- `nh_tok2str` -/
def nhTok2str (t : Tokens) : Option (List Char × List ℕ) := nhTok2strLoop t t.cells 0 [slash] []

/-- What `nh_absolute` returns, and what it did to get it. -/
structure Absolute where
  name : List Char
  fills : List Fill
  freed : List ℕ

/-- `full_name` in `nh_absolute`, and `len`. -/
def fullName (name cwd : List Char) : List Char × ℕ :=
  if name.head? = some slash then (name, name.length)
  else (cwd ++ slash :: name, name.length + (cwd.length + 1))

/-- `nh_absolute` -/
def nhAbsolute (name cwd : List Char) : Option Absolute :=
  let full := fullName name cwd
  let size := if name.head? = some slash then full.1.length + 1 else full.2 + 100
  (nhPathtok full.1 full.2).bind fun t =>
    (nhCompress t).bind fun s =>
      (nhTok2str s.1).map fun r =>
        { name := r.1
          fills := ⟨size, full.1.length + 1⟩ :: s.1.fills ++ [⟨full.2 + 2, r.1.length + 1⟩]
          freed := s.2 ++ r.2 }

/-! ### What it is meant to be -/

/-- The component ".". -/
def isDot (c : List Char) : Bool := c = ['.']

/-- The component "..". -/
def isUp (c : List Char) : Bool := c = ['.', '.']

/-- The components that are read: those of the current directory, for a relative name, and of the
name. -/
def givenComponents (name cwd : List Char) : List (List Char) :=
  if name.head? = some slash then components slash name
  else components slash cwd ++ components slash name

/-- The components of the absolute name. -/
def absoluteComponents (name cwd : List Char) : List (List Char) :=
  resolve isDot isUp (givenComponents name cwd)

/-- **The absolute name**: components are read from left to right; "." is dropped, and ".." removes
the one before it, or nothing at the root. -/
def absoluteName (name cwd : List Char) : List Char := render slash (absoluteComponents name cwd)

/-- A component of absolute names. -/
def Plain (c : List Char) : Prop := c ≠ [] ∧ slash ∉ c ∧ c ≠ ['.'] ∧ c ≠ ['.', '.']

/-- **Absolute names**: the root, or a slash and plain components between slashes. -/
def Canonical (s : List Char) : Prop :=
  s = [slash] ∨ s.head? = some slash ∧ ∀ c ∈ pieces slash s.tail, Plain c

/-! ### Tokens -/

theorem components_cons_of_ne {ch : Char} (hch : ch ≠ slash) (path : List Char) :
    ∃ p, components slash (ch :: path) = (ch :: p) :: (pieces slash path).tail.filter (· ≠ []) := by
  unfold components
  rw [pieces, if_neg hch]
  cases hp : pieces slash path with
  | nil => exact absurd hp (pieces_ne_nil path)
  | cons p l =>
    refine ⟨p, ?_⟩
    rw [List.filter_cons_of_pos (by simp)]
    rfl

/-- The tokens that are counted: the components, without the one that goes on. -/
theorem countToks_eq (path : List Char) : ∀ toks,
    countToks path false toks = toks + (components slash path).length ∧
      countToks path true toks =
        toks + ((pieces slash path).tail.filter (· ≠ [])).length := by
  induction path with
  | nil =>
    intro toks
    exact ⟨rfl, rfl⟩
  | cons ch path ih =>
    intro toks
    by_cases hch : ch = slash
    · subst hch
      simp only [countToks, pieces_sep, components_sep, List.tail_cons]
      simpa [components] using (ih toks).1
    · obtain ⟨p, hp⟩ := components_cons_of_ne hch path
      have htail : (pieces slash (ch :: path)).tail = (pieces slash path).tail := by
        rw [pieces, if_neg hch]
        cases hq : pieces slash path with
        | nil => exact absurd hq (pieces_ne_nil path)
        | cons q l => rfl
      constructor
      · rw [hp, List.length_cons]
        simp only [countToks, hch, false_and, if_false, ne_eq, not_false_eq_true, true_and, if_true]
        rw [(ih (toks + 1)).2]
        simp only [ne_eq]
        omega
      · rw [htail]
        simp only [countToks, hch, false_and, if_false, ne_eq, not_false_eq_true, true_and]
        simpa using (ih toks).2

/-- Slashes are skipped. -/
theorem components_skip (s : List Char) :
    components slash (s.dropWhile (· = slash)) = components slash s := by
  induction s with
  | nil => rfl
  | cons ch s ih =>
    by_cases hch : ch = slash
    · subst hch
      rw [List.dropWhile_cons_of_pos (by simp), ih, components_sep]
    · rw [List.dropWhile_cons_of_neg (by simpa using hch)]

/-- **The tokens are the components.** -/
theorem pathtokLoop_eq (path : List Char) (n : ℕ) : ∀ i ≤ path.length,
    n ≤ (components slash (path.drop i)).length →
      pathtokLoop path path.length n (some i) = some ((components slash (path.drop i)).take n) := by
  induction n with
  | zero =>
    intro i _ _
    rw [List.take_zero]
    rfl
  | succ n ih =>
    intro i hi hn
    rw [pathtokLoop, List.take_length]
    dsimp only
    set j := i + ((path.drop i).takeWhile (· = slash)).length with hj
    have hdrop : path.drop j = (path.drop i).dropWhile (· = slash) := by
      have hsplit := List.takeWhile_append_dropWhile (p := (· = slash)) (l := path.drop i)
      have hcut := congrArg (List.drop ((path.drop i).takeWhile (· = slash)).length) hsplit
      rw [List.drop_left, List.drop_drop] at hcut
      exact hcut.symm
    have hle : j ≤ path.length := by
      have := (List.takeWhile_prefix (p := (· = slash)) (l := path.drop i)).length_le
      rw [List.length_drop] at this
      omega
    rw [← components_skip, ← hdrop] at hn ⊢
    have hend : j ≠ path.length := by
      intro hend
      rw [hend, List.drop_length] at hn
      exact absurd hn (Nat.not_succ_le_zero n)
    rw [if_neg hend]
    cases hnext : (path.drop j).findIdx? (· = slash) with
    | none =>
      -- the last token
      have hno : slash ∉ path.drop j := by
        intro hmem
        have := List.findIdx?_eq_none_iff.mp hnext slash hmem
        simp at this
      have hne : path.drop j ≠ [] := by
        rw [Ne, List.drop_eq_nil_iff]
        omega
      rw [components_of_not_mem hno hne] at hn ⊢
      obtain rfl : n = 0 := by
        rw [List.length_singleton] at hn
        omega
      rw [Option.map_none, pathtokLoop, Option.map_some, Option.getD_none,
        List.take_of_length_le (by rw [List.length_drop])]
      rfl
    | some d =>
      obtain ⟨hd, hslash, hbefore⟩ := List.findIdx?_eq_some_iff_getElem.mp hnext
      have hcut : path.drop j = (path.drop j).take d ++ slash :: path.drop (j + d + 1) := by
        conv_lhs => rw [← List.take_append_drop d (path.drop j), List.drop_eq_getElem_cons hd]
        rw [List.drop_drop, ← Nat.add_assoc]
        congr 2
        simpa using hslash
      have hno : slash ∉ (path.drop j).take d := by
        intro hmem
        obtain ⟨k, hk, hget⟩ := List.getElem_of_mem hmem
        rw [List.length_take] at hk
        have := hbefore k (by omega)
        rw [List.getElem_take] at hget
        rw [hget] at this
        simp at this
      have hne : (path.drop j).take d ≠ [] := by
        intro hnil
        rw [hnil, List.nil_append] at hcut
        have hhead := List.head?_dropWhile_not (· = slash) (path.drop i)
        rw [← hdrop, hcut] at hhead
        simp at hhead
      have hcomp : components slash (path.drop j) =
          (path.drop j).take d :: components slash (path.drop (j + d + 1)) := by
        conv_lhs => rw [hcut]
        rw [components_append, components_of_not_mem hno hne]
        rfl
      rw [hcomp, List.length_cons] at hn
      have hlen := List.length_drop (i := j) (l := path)
      rw [Option.map_some, ih (j + d + 1) (by omega) (by omega), hcomp, Option.map_some,
        Option.getD_some, List.take_succ_cons]

/-! ### Squashing -/

/-- The array has the tokens, and `NULL` behind them. -/
def Tokens.Holds (t : Tokens) (l : List Token) : Prop := ∀ i ≤ l.length, t.names i = l[i]?

theorem Tokens.Holds.squash {t : Tokens} {l : List Token} (h : t.Holds l) {start : ℕ}
    (hstart : start < l.length) (count : ℕ) :
    (nhSquash t start l.length count).Holds
      (l.take (start - (count - 1)) ++ l.drop (start + 1)) := by
  intro i hi
  rw [List.length_append, List.length_take, List.length_drop] at hi
  have hmin : min (start + 1) l.length = start + 1 := Nat.min_eq_left hstart
  simp only [nhSquash, hmin]
  by_cases hlow : i < start - (count - 1)
  · rw [if_neg (by omega), List.getElem?_append_left (by rw [List.length_take]; omega),
      List.getElem?_take_of_lt hlow]
    exact h i (by omega)
  · rw [if_pos (by omega), List.getElem?_append_right (by rw [List.length_take]; omega),
      List.length_take, List.getElem?_drop, h _ (by omega)]
    congr 1
    omega

/-- What is filled fits. -/
def Fits (l : List Fill) : Prop := ∀ f ∈ l, f.used ≤ f.size

theorem Fits.append {l l' : List Fill} (h : Fits l) (h' : Fits l') : Fits (l ++ l') := by
  intro f hf
  rcases List.mem_append.mp hf with hf | hf
  · exact h f hf
  · exact h' f hf

/-- What `nh_compress` makes of the tokens on the stack `st` and the ones that are left. -/
structure Compressed (t : Tokens) (freed : List ℕ) (st todo : List Token) (t' : Tokens)
    (freed' : List ℕ) (l : List Token) : Prop where
  holds : t'.Holds l
  names : l.map Token.name =
    resolveFrom isDot isUp (st.map Token.name) (todo.map Token.name)
  /-- Each token is freed, or it is one of those that are left. -/
  ids : (freed' ++ l.map Token.id).Perm (freed ++ (st.reverse ++ todo).map Token.id)
  cells : t'.cells = t.cells
  room : l.length < t.cells
  fits : Fits t.fills → Fits t'.fills

/-- **Squashing resolves the tokens.** -/
theorem nhCompressLoop_eq (todo : List Token) : ∀ (st : List Token) (t : Tokens) (freed : List ℕ)
    (fuel : ℕ), t.Holds (st.reverse ++ todo) → todo.length < fuel →
      (st.reverse ++ todo).length < t.cells → ∃ t' freed' l,
        nhCompressLoop fuel t st.length (st.reverse ++ todo).length freed = some (t', freed') ∧
          Compressed t freed st todo t' freed' l := by
  induction todo with
  | nil =>
    intro st t freed fuel h hfuel hroom
    obtain ⟨fuel, rfl⟩ : ∃ n, fuel = n + 1 := Nat.exists_eq_succ_of_ne_zero (by omega)
    have hnull : t.names st.length = none := by
      rw [h _ (by simp)]
      simp
    refine ⟨t, freed, st.reverse, ?_, ?_⟩
    · rw [nhCompressLoop, hnull]
    · rw [List.append_nil] at h hroom
      refine ⟨h, ?_, ?_, rfl, hroom, id⟩
      · rw [List.map_nil, resolveFrom, List.map_reverse]
      · rw [List.append_nil]
  | cons tok todo ih =>
    intro st t freed fuel h hfuel hroom
    obtain ⟨fuel, rfl⟩ : ∃ n, fuel = n + 1 := Nat.exists_eq_succ_of_ne_zero (by omega)
    have hlen : (st.reverse ++ tok :: todo).length = st.length + todo.length + 1 := by
      simp
      omega
    have hhere : t.names st.length = some tok := by
      rw [h _ (by omega), List.getElem?_append_right (by simp)]
      simp
    have hcut : ∀ count, (nhSquash t st.length (st.reverse ++ tok :: todo).length count).Holds
        ((st.reverse ++ tok :: todo).take (st.length - (count - 1)) ++ todo) := by
      intro count
      have hsquash := h.squash (show st.length < _ by omega) count
      have hdrop : (st.reverse ++ tok :: todo).drop (st.length + 1) = todo := by
        rw [List.drop_append, List.drop_of_length_le (by simp)]
        simp
      rwa [hdrop] at hsquash
    have hfits : ∀ count, 1 ≤ count → Fits t.fills →
        Fits (nhSquash t st.length (st.reverse ++ tok :: todo).length count).fills := by
      intro count hcount hf
      refine hf.append fun f hf => ?_
      rw [List.mem_singleton.mp hf]
      dsimp only
      omega
    rw [nhCompressLoop, hhere]
    dsimp only
    by_cases hdot : tok.name = ['.']
    · rw [if_pos hdot]
      have hkeep := hcut 1
      rw [Nat.sub_self, Nat.sub_zero, List.take_append_of_le_length (by simp),
        List.take_of_length_le (by simp)] at hkeep
      obtain ⟨t', freed', l, hloop, hc⟩ := ih st _ (freed ++ [tok.id]) fuel hkeep
        (by simpa using hfuel) (by
          rw [List.length_append, List.length_reverse]
          change _ < t.cells
          omega)
      have hnum : (st.reverse ++ tok :: todo).length - 1 = (st.reverse ++ todo).length := by
        simp
      rw [hnum]
      refine ⟨t', freed', l, hloop, hc.holds, ?_, hc.ids.trans ?_, hc.cells, hc.room,
        fun hf => hc.fits (hfits 1 le_rfl hf)⟩
      · rw [hc.names, List.map_cons, resolveFrom, if_pos (by simp [isDot, hdot])]
      · simp only [List.map_append, List.map_cons, List.append_assoc, List.singleton_append]
        exact List.Perm.append_left _ List.perm_middle.symm
    rw [if_neg hdot]
    by_cases hup : tok.name = ['.', '.']
    · rw [if_pos hup]
      have hresolve : ∀ st' : List (List Char), resolveFrom isDot isUp st'
          ((tok :: todo).map Token.name) = resolveFrom isDot isUp st'.tail
            (todo.map Token.name) := by
        intro st'
        rw [List.map_cons, resolveFrom, if_neg (by simp [isDot, hdot]),
          if_pos (by simp [isUp, hup])]
      cases st with
      | nil =>
        -- nothing to go back to
        have hkeep := hcut 2
        have hzero : ¬ 0 < ([] : List Token).length := Nat.lt_irrefl 0
        rw [if_neg hzero]
        obtain ⟨t', freed', l, hloop, hc⟩ := ih [] _ (freed ++ [tok.id]) fuel hkeep
          (by simpa using hfuel) (by
            change todo.length < t.cells
            simp only [List.length_nil] at hlen
            omega)
        refine ⟨t', freed', l, hloop, hc.holds, ?_, hc.ids.trans ?_, hc.cells, hc.room,
          fun hf => hc.fits (hfits 2 (by omega) hf)⟩
        · rw [hc.names, hresolve]
          rfl
        · simp
      | cons d st =>
        have hkeep := hcut 2
        have hprev : t.names st.length = some d := by
          rw [h _ (by simp), List.getElem?_append_left (by simp)]
          simp
        have htake : (((d :: st).reverse) ++ tok :: todo).take ((d :: st).length - (2 - 1))
            = st.reverse := by
          rw [List.reverse_cons, List.append_assoc, List.take_append_of_le_length (by simp)]
          exact List.take_of_length_le (by simp)
        rw [htake] at hkeep
        have hpos : 0 < (d :: st).length := Nat.succ_pos _
        have hcur : (d :: st).length - 1 = st.length := rfl
        rw [if_pos hpos, hcur, hprev]
        obtain ⟨t', freed', l, hloop, hc⟩ := ih st _
          (freed ++ ((some d).map Token.id).toList ++ [tok.id]) fuel hkeep
          (by simpa using hfuel) (by
            rw [List.length_append, List.length_reverse]
            change _ < t.cells
            simp only [List.length_cons] at hlen
            omega)
        have hnum : ((d :: st).reverse ++ tok :: todo).length - 2
            = (st.reverse ++ todo).length := by
          simp
          omega
        rw [hnum]
        refine ⟨t', freed', l, hloop, hc.holds, ?_, hc.ids.trans ?_, hc.cells, hc.room,
          fun hf => hc.fits (hfits 2 (by omega) hf)⟩
        · rw [hc.names, hresolve]
          rfl
        · simp only [Option.map_some, Option.toList_some, List.map_append, List.map_cons,
            List.reverse_cons, List.append_assoc, List.nil_append, List.cons_append]
          exact List.Perm.append_left _ (List.perm_append_comm_assoc [d.id, tok.id] _ _)
    · rw [if_neg hup]
      have hsame : st.reverse ++ tok :: todo = (tok :: st).reverse ++ todo := by
        simp
      rw [hsame] at h hroom ⊢
      obtain ⟨t', freed', l, hloop, hc⟩ := ih (tok :: st) t freed fuel h (by simpa using hfuel)
        hroom
      refine ⟨t', freed', l, hloop, hc.holds, ?_, hc.ids.trans (by simp), hc.cells, hc.room,
        hc.fits⟩
      rw [hc.names, List.map_cons, List.map_cons, resolveFrom, if_neg (by simp [isDot, hdot]),
        if_neg (by simp [isUp, hup])]

/-! ### Putting together -/

theorem countNames_eq {t : Tokens} {l : List Token} (h : t.Holds l) (fuel : ℕ) : ∀ i ≤ l.length,
    l.length - i < fuel → countNames t fuel i = some l.length := by
  induction fuel with
  | zero =>
    intro i _ hfuel
    exact absurd hfuel (Nat.not_lt_zero _)
  | succ fuel ih =>
    intro i hi hfuel
    rw [countNames, h i hi]
    rcases Nat.lt_or_eq_of_le hi with hlt | rfl
    · rw [List.getElem?_eq_getElem hlt]
      exact ih (i + 1) hlt (by omega)
    · rw [List.getElem?_eq_none le_rfl]

theorem nhTok2strLoop_eq {t : Tokens} {l : List Token} (h : t.Holds l) (fuel : ℕ) :
    ∀ i ≤ l.length, l.length - i < fuel → ∀ freed,
      nhTok2strLoop t fuel i (render slash ((l.take i).map Token.name)) freed =
        some (render slash (l.map Token.name), freed ++ (l.drop i).map Token.id) := by
  induction fuel with
  | zero =>
    intro i _ hfuel
    exact absurd hfuel (Nat.not_lt_zero _)
  | succ fuel ih =>
    intro i hi hfuel freed
    rw [nhTok2strLoop, h i hi]
    rcases Nat.lt_or_eq_of_le hi with hlt | rfl
    · rw [List.getElem?_eq_getElem hlt]
      dsimp only
      have hne : (l.take i).map Token.name ≠ [] ↔ i ≠ 0 := by
        rw [Ne, List.map_eq_nil_iff, List.take_eq_nil_iff]
        constructor
        · exact fun h hi => h (.inl hi)
        · rintro h (h' | h')
          · exact h h'
          · rw [h'] at hlt
            exact Nat.not_lt_zero i hlt
      have hbuf : (if i ≠ 0 then render slash ((l.take i).map Token.name) ++ [slash]
          else render slash ((l.take i).map Token.name)) ++ l[i].name
            = render slash ((l.take (i + 1)).map Token.name) := by
        rw [List.take_succ_eq_append_getElem hlt, List.map_append]
        unfold render
        rw [List.map_singleton, join_concat]
        simp only [hne]
        split <;> rfl
      rw [hbuf, ih (i + 1) hlt (by omega), List.drop_eq_getElem_cons hlt]
      simp only [List.map_cons, List.append_assoc, List.singleton_append]
    · rw [List.getElem?_eq_none le_rfl, List.take_length, List.drop_length]
      simp

/-! ### Absolute names -/

theorem fullName_length (name cwd : List Char) :
    (fullName name cwd).2 = (fullName name cwd).1.length := by
  unfold fullName
  split
  · rfl
  · rw [List.length_append, List.length_cons]
    omega

theorem components_fullName (name cwd : List Char) :
    components slash (fullName name cwd).1 = givenComponents name cwd := by
  unfold fullName givenComponents
  split
  · rfl
  · exact components_append cwd name

/-- What `nh_pathtok` makes of a path. -/
theorem nhPathtok_eq (path : List Char) : ∃ t l, nhPathtok path path.length = some t ∧
    t.Holds l ∧ l.map Token.name = components slash path ∧
      l.map Token.id = List.range (components slash path).length ∧
      t.cells = l.length + 1 ∧ Fits t.fills := by
  have htoks := (countToks_eq path 0).1
  rw [Nat.zero_add] at htoks
  have hloop := pathtokLoop_eq path _ 0 (Nat.zero_le _) (le_refl (components slash path).length)
  rw [List.drop_zero, List.take_length] at hloop
  have hpath : nhPathtok path path.length = some
      { names := fun i => ((components slash path)[i]?).map fun name => ⟨i, name⟩
        cells := (components slash path).length + 1
        fills := (components slash path).map (fun name => ⟨name.length + 1, name.length + 1⟩) ++
          [⟨(components slash path).length + 1, (components slash path).length + 1⟩] } := by
    unfold nhPathtok
    dsimp only
    rw [List.take_length, htoks, hloop, Option.map_some]
  refine ⟨_, (components slash path).mapIdx fun i name => ⟨i, name⟩, hpath, ?_, ?_, ?_, ?_, ?_⟩
  · intro i _
    rw [List.getElem?_mapIdx]
  · refine List.ext_getElem (by simp) fun i _ _ => ?_
    simp
  · refine List.ext_getElem (by simp) fun i _ _ => ?_
    simp
  · rw [List.length_mapIdx]
  · intro f hf
    rcases List.mem_append.mp hf with hf | hf
    · obtain ⟨name, -, rfl⟩ := List.mem_map.mp hf
      exact le_rfl
    · rw [List.mem_singleton.mp hf]

/-- The absolute name fits where it is put. -/
theorem length_absoluteName (name cwd : List Char) :
    (absoluteName name cwd).length ≤ (fullName name cwd).1.length + 1 := by
  have hresolve : (join slash (absoluteComponents name cwd)).length ≤
      (join slash (components slash (fullName name cwd).1)).length := by
    rw [components_fullName]
    exact length_join_le (resolve_sublist _)
  exact Nat.succ_le_succ (hresolve.trans (length_join_components _))

/-- **`nh_absolute` resolves the full name**, in buffers that are large enough, and frees no token
twice. -/
theorem nhAbsolute_eq (name cwd : List Char) : ∃ r, nhAbsolute name cwd = some r ∧
    r.name = absoluteName name cwd ∧ Fits r.fills ∧ r.freed.Nodup := by
  obtain ⟨t, l, htok, hholds, hnames, hids, hcells, hfits⟩ := nhPathtok_eq (fullName name cwd).1
  have hcount := countNames_eq hholds t.cells 0 (Nat.zero_le _) (by omega)
  obtain ⟨t', freed, l', hloop, hc⟩ := nhCompressLoop_eq l [] t [] (l.length + 1) hholds
    (Nat.lt_succ_self _) (by
      rw [hcells]
      exact Nat.lt_succ_self _)
  have hresolved : l'.map Token.name = absoluteComponents name cwd := by
    rw [hc.names, hnames, components_fullName]
    rfl
  have hcompress : nhCompress t = some (t', freed) := by
    unfold nhCompress
    rw [hcount]
    exact hloop
  have hstr : nhTok2str t' = some (absoluteName name cwd, l'.map Token.id) := by
    unfold nhTok2str absoluteName
    rw [← hresolved]
    refine nhTok2strLoop_eq hc.holds t'.cells 0 (Nat.zero_le _) ?_ []
    rw [hc.cells]
    exact hc.room
  have habsolute : nhAbsolute name cwd = some
      { name := absoluteName name cwd
        fills := ⟨if name.head? = some slash then (fullName name cwd).1.length + 1
          else (fullName name cwd).2 + 100, (fullName name cwd).1.length + 1⟩ :: t'.fills ++
            [⟨(fullName name cwd).2 + 2, (absoluteName name cwd).length + 1⟩]
        freed := freed ++ l'.map Token.id } := by
    unfold nhAbsolute
    dsimp only
    rw [fullName_length, htok, Option.bind_some, hcompress, Option.bind_some, hstr,
      Option.map_some]
  refine ⟨_, habsolute, rfl, ?_, ?_⟩
  · refine Fits.append (Fits.append (l := [_]) ?_ (hc.fits hfits)) ?_
    · intro f hf
      rw [List.mem_singleton.mp hf, fullName_length]
      dsimp only
      split <;> omega
    · intro f hf
      rw [List.mem_singleton.mp hf, fullName_length]
      exact Nat.succ_le_succ (length_absoluteName name cwd)
  · have hperm : (freed ++ l'.map Token.id).Perm (List.range (components slash
        (fullName name cwd).1).length) := by
      rw [← hids]
      exact hc.ids
    exact hperm.nodup_iff.mpr List.nodup_range

/-! ### Names that are absolute -/

theorem plain_of_mem_absoluteComponents {name cwd c : List Char}
    (h : c ∈ absoluteComponents name cwd) : Plain c := by
  obtain ⟨hdot, hup⟩ := plain_of_mem_resolve h
  have hmem := (resolve_sublist _).subset h
  have hcomp : c ≠ [] ∧ slash ∉ c := by
    rw [← components_fullName] at hmem
    exact ⟨ne_nil_of_mem_components hmem, not_mem_of_mem_components hmem⟩
  exact ⟨hcomp.1, hcomp.2, by simpa [isDot] using hdot, by simpa [isUp] using hup⟩

/-- A path of plain components is an absolute name. -/
theorem canonical_render {l : List (List Char)} (h : ∀ c ∈ l, Plain c) :
    Canonical (render slash l) := by
  by_cases hl : l = []
  · left
    rw [hl]
    rfl
  · right
    refine ⟨rfl, ?_⟩
    change ∀ c ∈ pieces slash (join slash l), Plain c
    rw [pieces_join hl fun c hc => (h c hc).2.1]
    exact h

/-- An absolute name is made of plain components. -/
theorem Canonical.exists_render {s : List Char} (h : Canonical s) :
    ∃ l, s = render slash l ∧ ∀ c ∈ l, Plain c := by
  rcases h with rfl | ⟨hhead, hplain⟩
  · exact ⟨[], rfl, nofun⟩
  · obtain ⟨t, rfl⟩ := List.head?_eq_some_iff.mp hhead
    exact ⟨pieces slash t, congrArg (slash :: ·) (join_pieces t).symm, hplain⟩

/-- A path of plain components has these components, wherever it is resolved. -/
theorem absoluteComponents_render {l : List (List Char)} (h : ∀ c ∈ l, Plain c)
    (cwd : List Char) : absoluteComponents (render slash l) cwd = l := by
  have hroot : (render slash l).head? = some slash := rfl
  unfold absoluteComponents givenComponents
  rw [if_pos hroot, components_render fun c hc => ⟨(h c hc).1, (h c hc).2.1⟩]
  refine resolve_of_plain fun c hc => ?_
  obtain ⟨-, -, hdot, hup⟩ := h c hc
  exact ⟨by simpa [isDot] using hdot, by simpa [isUp] using hup⟩

theorem canonical_absoluteName (name cwd : List Char) : Canonical (absoluteName name cwd) :=
  canonical_render fun _ hc => plain_of_mem_absoluteComponents hc

/-- An absolute name is its own absolute name. -/
theorem Canonical.absoluteName_eq {s : List Char} (h : Canonical s) (cwd : List Char) :
    absoluteName s cwd = s := by
  obtain ⟨l, rfl, hplain⟩ := h.exists_render
  exact congrArg (render slash) (absoluteComponents_render hplain cwd)

/-- **`nh_absolute` returns the absolute name**: it is one, resolving it again changes nothing,
from whatever directory, and the directory does not matter to a name that starts at the root.  What
is filled is large enough, and no token is freed twice. -/
theorem nhAbsolute_canonical (name cwd : List Char) : ∃ r, nhAbsolute name cwd = some r ∧
    r.name = absoluteName name cwd ∧ Canonical r.name ∧
      (∀ cwd', (nhAbsolute r.name cwd').map Absolute.name = some r.name) ∧
      (name.head? = some slash → ∀ cwd', nhAbsolute name cwd' = some r) ∧
      Fits r.fills ∧ r.freed.Nodup := by
  obtain ⟨r, hr, hname, hfits, hfreed⟩ := nhAbsolute_eq name cwd
  refine ⟨r, hr, hname, ?_, ?_, ?_, hfits, hfreed⟩
  · rw [hname]
    exact canonical_absoluteName name cwd
  · intro cwd'
    obtain ⟨r', hr', hname', -, -⟩ := nhAbsolute_eq r.name cwd'
    rw [hr', Option.map_some, hname', hname, (canonical_absoluteName name cwd).absoluteName_eq]
  · intro hroot cwd'
    rw [← hr]
    unfold nhAbsolute fullName
    rw [if_pos hroot, if_pos hroot]

end Mungi.Naming
