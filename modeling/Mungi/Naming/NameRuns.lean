import Mungi.Naming.Changes

/-!
# Runs of the name tree

What a call has to meet is said of the directories that it changes: that their trees take the new
entry in, or give the old one up.  Small directories do, whatever is in them.

## Main definitions

* `Accepts`, `Gives` — a directory takes an entry in, and gives one up.
* `NsClean` — the condition on a call.
* `NsFits` — the condition where directories are small.

## Main results

* `nsAdd_refines`, `nsDel_refines`, `nsLookup_refines`, `nsModify_refines` — single calls.
* `clean_of_fits` — runs on small directories meet the condition.
* `nsAnswers_refine` — **the name tree is a finite map on paths.**
-/

namespace Mungi.Naming

open Paths Walks Runs

/-! ### Conditions -/

/-- A directory takes an entry in: `BTIns` does what it is to do, and if the name is there already,
it is not the last one of its chain. -/
structure Accepts (t : NsTree ItemChain) (pages : ℕ) (ent : NsItem) : Prop where
  pages : t.depth < pages
  inserts : Inserts itemConf t ⟨ent, []⟩
  last : ∀ e, (t.bucket ent.hash).getLast? = some e → e.name ≠ ent.name

/-- A directory gives a name up: `BTDel` does what it is to do, if it is called. -/
def Gives (t : NsTree ItemChain) (n : List (BitVec 8)) : Prop :=
  ∀ f, chainFind n [] (t.bucket (hashpjw n)) = some f → f.before = [] → f.after = [] →
    nsOverruns itemConf (hashpjw n) t.root = false

/-- The root directory gives the entry up, and then the new one takes it in. -/
def Moves (s : NsSpace) (pages : ℕ) (n : List (BitVec 8)) (ent : NsItem) (w : NsPath) : Prop :=
  ∀ t, s.dirs s.root = some t → Gives t n ∧ ∀ t' e, nsDeleteEnt t n = some (.ok, t', e) →
    ∀ d t'', (s.setDir s.root (some t')).at (pathDirs w.chars) = some d →
      (s.setDir s.root (some t')).dirs d = some t'' →
      Accepts t'' pages (ent.rename (pathBase w.chars))

/-- What a rename has to meet: there is memory for the copies of paths, the entry is one of the root
directory, its name is copied, and it does not go below itself. -/
structure Renames (L : FlagLayout) (s : NsSpace) (m : NsMem) (name : NsPath)
    (flags value : BitVec 64) (w : NsPath) : Prop where
  path : ∀ i, m.path i = true
  base : pathBase name.chars ≠ []
  root : ∀ b, m.realloc = some b → name.names = [b.chars]
  apart : ¬ name.names <+: pathDirs w.chars
  moves : s.files.CanName L m w → ∀ f b s' ent, m.realloc = some b →
    s.FoundAt s.root b.chars f → nsModifyData L s m s.root f b flags value = some (.ok (s', ent)) →
    Moves s' m.pages b.chars ent w

/-- **What a call has to meet.**  A new entry is no directory; what is changed is no root directory,
and memory for a new directory is not in use. -/
def NsClean (L : FlagLayout) (s : NsSpace) (a : NsCall) : Prop :=
  match a.op with
  | .add path flags value => L.isDir flags = false ∧
      ∀ d t, s.at (pathDirs path.chars) = some d → s.dirs d = some t →
        Accepts t a.mem.pages (newItem flags value (pathBase path.chars))
  | .del path => ∀ d t, s.at (pathDirs path.chars) = some d → s.dirs d = some t →
      Gives t (pathBase path.chars)
  | .lookup _ => True
  | .modify name flags value newname => name.names ≠ [] ∧
      (∀ db, a.mem.db = some db → s.dirs db = none ∧ a.mem.pool = true) ∧
      ∀ w, newname = some w → w.chars ≠ name.chars → Renames L s a.mem name flags value w

/-! ### Names -/

theorem cString_eq {s : List (BitVec 8)} (h : 0#8 ∉ s) : cString s = s := by
  refine List.takeWhile_eq_self_iff.mpr fun a ha => ?_
  rw [decide_eq_true_eq]
  exact fun heq => h (heq ▸ ha)

/-- What is behind the last slash of a string is a string. -/
theorem NsPath.base_noNul (path : NsPath) : 0#8 ∉ pathBase path.chars := fun h =>
  path.noNul (mem_of_mem_pieces (List.getLast_mem (pieces_ne_nil path.chars)) h)

theorem newItem_name (flags value : BitVec 64) (path : NsPath) :
    (newItem flags value (pathBase path.chars)).name = pathBase path.chars :=
  cString_eq path.base_noNul

/-! ### Single calls -/

section Calls
variable {L : FlagLayout} {s : NsSpace} {m : NsMem}

/-- The directory that a call is about. -/
theorem dir_of_found {d : ℕ} {t : NsTree ItemChain} (ht : s.dirs d = some t)
    (data : Option (ℕ × NsFound)) (rest : List (BitVec 8)) :
    (⟨some d, data, rest⟩ : NsWalk).dir s = some (d, t) := by
  unfold NsWalk.dir
  rw [Option.bind_some, ht]
  rfl

/-- A call that finds nothing, for want of memory. -/
theorem nsFindR_refused (type : NsType) (path : List (BitVec 8)) :
    nsFindR L s type false path = .error .notFound := if_pos rfl

/-- **`ns_add` puts an entry into the map.** -/
theorem nsAdd_refines (hs : NsOk L s) {path : NsPath} {flags value : BitVec 64}
    (hclean : NsClean L s ⟨.add path flags value, m⟩) :
    ∃ s', nsStep L s ⟨.add path flags value, m⟩ =
        some (s', (filesStep L s.files ⟨.add path flags value, m⟩).2) ∧
      NsOk L s' ∧ s'.files = (filesStep L s.files ⟨.add path flags value, m⟩).1 := by
  obtain ⟨hflags, haccepts⟩ := hclean
  change L.isDir flags = false at hflags
  unfold nsStep filesStep nsAdd
  dsimp only at haccepts ⊢
  cases hpath : m.path 0 with
  | false =>
    rw [nsFindR_refused]
    refine ⟨s, ?_, hs, ?_⟩
    · simp [stopped]
    · simp
  | true =>
    rcases nsFindR_parent hs path.chars with ⟨hat, hfind⟩ | ⟨d, data, hat, hfind⟩
    · -- no directory
      have hdir : ¬ s.files.IsDir L (pathDirs path.chars) := by
        rw [hs.isDir_iff, hat]
        simp
      rw [hfind]
      refine ⟨s, ?_, hs, ?_⟩
      · simp [stopped, hdir]
      · simp [hdir]
    · obtain ⟨t, ht, hok⟩ := hs.dir _ d hat
      have hdir : s.files.IsDir L (pathDirs path.chars) := by
        rw [hs.isDir_iff, hat]
        simp
      rw [hfind]
      dsimp only
      by_cases hmem : m.ent = true ∧ m.copy = true
      · obtain ⟨hent, hcopy⟩ := hmem
        rw [hent, hcopy, if_neg (by simp), if_neg (by simp), dir_of_found ht, Option.bind_some]
        dsimp only
        obtain ⟨hpages, hins, hlast⟩ := haccepts d t hat ht
        have hname := newItem_name flags value path
        have hhash : hashpjw (newItem flags value (pathBase path.chars)).name =
            (newItem flags value (pathBase path.chars)).hash := rfl
        have heffect := insert_effect hok ht hhash hflags hpages hins hlast
        rw [hname] at heffect
        have htarget : s.files path.target = (s.entry d (pathBase path.chars)).map NsItem.node :=
          files_concat hat _
        rcases heffect with ⟨hsome, hres⟩ | ⟨hnone, t', hres, hok', hentry⟩
        · -- the name is there
          have hthere : s.files path.target ≠ none := by
            rw [htarget]
            simpa using hsome
          have hsame : s.setDir d (some t) = s := by
            unfold NsSpace.setDir
            rw [← ht, Function.update_eq_self]
          rw [hres]
          refine ⟨s, ?_, hs, ?_⟩
          · simp [hthere, hsame]
          · simp [hthere]
        · have hfree : s.files path.target = none := by
            rw [htarget, hnone]
            rfl
          have hsame : (some (newItem flags value (pathBase path.chars))).bind NsItem.child =
              (s.entry d (pathBase path.chars)).bind NsItem.child := by
            rw [hnone]
            rfl
          rw [hres]
          refine ⟨s.setDir d (some t'), ?_, hs.same hok' hentry hsame, ?_⟩
          · simp [hdir, hfree]
          · rw [files_same hs hat hentry rfl hsame]
            simp [hdir, hfree]
            rfl
      · refine ⟨s, ?_, hs, ?_⟩
        · cases hent : m.ent <;> cases hcopy : m.copy <;> simp_all
        · rw [if_neg]
          rintro ⟨-, hent, hcopy, -⟩
          exact hmem ⟨hent, hcopy⟩

/-- **`ns_del` takes an entry out of the map**, with all below it. -/
theorem nsDel_refines (hs : NsOk L s) {path : NsPath} (hclean : NsClean L s ⟨.del path, m⟩) :
    ∃ s', nsStep L s ⟨.del path, m⟩ = some (s', (filesStep L s.files ⟨.del path, m⟩).2) ∧
      NsOk L s' ∧ s'.files = (filesStep L s.files ⟨.del path, m⟩).1 := by
  change ∀ d t, _ at hclean
  unfold nsStep filesStep nsDel
  dsimp only
  cases hpath : m.path 0 with
  | false =>
    rw [nsFindR_refused]
    refine ⟨s, ?_, hs, ?_⟩
    · simp [stopped]
    · simp
  | true =>
    rcases nsFindR_parent hs path.chars with ⟨hat, hfind⟩ | ⟨d, data, hat, hfind⟩
    · have hnone : s.files path.target = none := files_concat_none hat _
      rw [hfind]
      refine ⟨s, ?_, hs, ?_⟩
      · simp [stopped, hnone]
      · simp [hnone]
    · obtain ⟨t, ht, hok⟩ := hs.dir _ d hat
      have htarget : s.files path.target = (s.entry d (pathBase path.chars)).map NsItem.node :=
        files_concat hat _
      rw [hfind]
      dsimp only
      rw [dir_of_found ht, Option.bind_some]
      dsimp only
      rcases nsFindItem_cases hok.toDirOk ht (pathBase path.chars) with ⟨hnone, hentry⟩ |
        ⟨f, -, hfound⟩
      · have hres : nsDeleteEnt t (pathBase path.chars) = some (.fail, t, none) := by
          unfold nsDeleteEnt
          rw [hnone]
        have hsame : s.setDir d (some t) = s := by
          unfold NsSpace.setDir
          rw [← ht, Function.update_eq_self]
        rw [hentry] at htarget
        rw [hres]
        refine ⟨s, ?_, hs, ?_⟩
        · simp [htarget, hsame]
        · simp [htarget]
      · have hgives : f.before = [] → f.after = [] →
            nsOverruns itemConf (hashpjw (pathBase path.chars)) t.root = false := by
          obtain ⟨t₀, ht₀, hchain⟩ := hfound
          obtain rfl : t₀ = t := Option.some.inj (ht₀.symm.trans ht)
          exact hclean d t₀ hat ht₀ f hchain
        obtain ⟨t', hres, hok', hentry⟩ := delete_effect hok ht hfound hgives
        have hthere : s.files path.target ≠ none := by
          rw [htarget, hfound.entry]
          simp
        rw [hres]
        refine ⟨s.setDir d (some t'), ?_, hs.dead hat hok' hentry rfl, ?_⟩
        · simp [hthere]
        · rw [files_removed hs hat hentry rfl]
          simp [hthere]
          rfl

/-- **What `ns_find` finds** is what the map says of the path. -/
theorem nsFindR_find (hs : NsOk L s) (path : NsPath) :
    (s.files.find L path = none ∧ nsFindR L s .item true path.chars = .error .notFound) ∨
      (path.names = [] ∧ s.files.find L path = some none ∧
        ∃ w, nsFindR L s .item true path.chars = .ok w ∧ w.data = none) ∨
      ∃ q n x f w, path.names = q ++ [n] ∧ s.at q = some x ∧ s.FoundAt x n f ∧
        s.files.find L path = some (some f.ent.node) ∧
        nsFindR L s .item true path.chars = .ok w ∧ w.data = some (x, f) := by
  unfold Files.find
  rcases nsFindR_item hs path.chars with ⟨hnil, hfind⟩ | ⟨hne, hnone, hfind⟩ |
    ⟨q, n, x, f, w, hnames, hq, hfound, hbase, hfind, hdata⟩
  · exact Or.inr (Or.inl ⟨hnil, if_pos hnil, hfind⟩)
  · refine Or.inl ⟨?_, hfind⟩
    rw [if_neg (show path.names ≠ [] from hne)]
    rcases hnone with hnone | ⟨hbase, hat⟩
    · have hfile : s.files path.names = none := by
        unfold NsSpace.files
        rw [show s.under path.names = none from hnone]
        rfl
      rw [hfile]
      split <;> rfl
    · rw [if_pos]
      refine ⟨hbase, ?_⟩
      rw [hs.isDir_iff, not_not]
      exact hat
  · refine Or.inr (Or.inr ⟨q, n, x, f, w, hnames, hq, hfound, ?_, hfind, hdata⟩)
    have hfile : s.files path.names = some f.ent.node := by
      have h := files_concat hq n
      rw [hfound.entry] at h
      exact (congrArg s.files hnames).trans h
    have hne : path.names ≠ [] := by
      rw [show path.names = q ++ [n] from hnames]
      simp
    rw [if_neg hne, if_neg, hfile]
    · rfl
    · rintro ⟨hnil, hdir⟩
      rw [hs.isDir_iff, not_not] at hdir
      exact hbase hnil hdir

/-- **`ns_lookup` looks an entry up in the map.** -/
theorem nsLookup_refines (hs : NsOk L s) {path : NsPath} :
    ∃ s', nsStep L s ⟨.lookup path, m⟩ = some (s', (filesStep L s.files ⟨.lookup path, m⟩).2) ∧
      NsOk L s' ∧ s'.files = (filesStep L s.files ⟨.lookup path, m⟩).1 := by
  unfold nsStep filesStep nsLookup
  dsimp only
  cases hpath : m.path 0 with
  | false =>
    rw [nsFindR_refused]
    exact ⟨s, by simp, hs, by simp⟩
  | true =>
    rw [if_pos rfl]
    rcases nsFindR_find hs path with ⟨hfile, hfind⟩ | ⟨-, hfile, w, hfind, hdata⟩ |
      ⟨q, n, x, f, w, -, -, -, hfile, hfind, hdata⟩
    · rw [hfind, hfile]
      exact ⟨s, rfl, hs, rfl⟩
    · rw [hfind, hfile]
      exact ⟨s, by dsimp only; rw [hdata]; rfl, hs, rfl⟩
    · rw [hfind, hfile]
      exact ⟨s, by dsimp only; rw [hdata]; rfl, hs, rfl⟩

end Calls

/-! ### Entries modified -/

section Modify
variable {L : FlagLayout} {s : NsSpace} {m : NsMem}

/-- **The rename of an entry of the root directory.** -/
theorem nsMove_spec {d' : ℕ} {n : List (BitVec 8)} {ent : NsItem} (hs : NsOk L s) (hent : s.entry s.root n = some ent) (hname : ent.name = n)
    {name w : NsPath} (hold : pathDirs name.chars = []) (hpath : m.path 3 = true)
    (data : Option (ℕ × NsFound)) (hp : s.at (pathDirs w.chars) = some d')
    (hapart : ¬ [n] <+: pathDirs w.chars) (hfree : s.files w.target = none)
    (hmoves : Moves s m.pages n ent w) :
    ∃ s', nsMove L s m name s.root ent ⟨some d', data, pathBase w.chars⟩ = some s' ∧
      NsOk L s' ∧ s'.files = s.files.move [n] w.target := by
  have hroot : s.at [] = some s.root := rfl
  obtain ⟨t, ht, hok⟩ := hs.dir [] s.root hroot
  obtain ⟨hgives, haccepts⟩ := hmoves t ht
  -- the entry is taken out of the root directory
  rcases nsFindItem_cases hok.toDirOk ht n with ⟨-, hnone⟩ | ⟨f, -, hfound⟩
  · rw [hent] at hnone
    cases hnone
  have hf : f.ent = ent := Option.some.inj (hfound.entry.symm.trans hent)
  have hover : f.before = [] → f.after = [] → nsOverruns itemConf (hashpjw n) t.root = false := by
    obtain ⟨t₀, ht₀, hchain⟩ := hfound
    obtain rfl : t₀ = t := Option.some.inj (ht₀.symm.trans ht)
    exact hgives f hchain
  obtain ⟨t', hdel, hok', hentry⟩ := delete_effect hok ht hfound hover
  have hs₁ := hs.dead hroot hok' hentry rfl
  -- and put in where it is to go
  have hp₁ : (s.setDir s.root (some t')).at (pathDirs w.chars) = some d' := by
    unfold NsSpace.at at hp hroot ⊢
    rw [hentry, NsSpace.setDir_root, walk_relabel_elsewhere hs.unshared hroot hapart]
    exact hp
  obtain ⟨t₁, ht₁, hok₁⟩ := hs₁.dir _ d' hp₁
  obtain ⟨hpages, hins, hlast⟩ := haccepts t' _ hdel d' t₁ hp₁ ht₁
  have hbase : (ent.rename (pathBase w.chars)).name = pathBase w.chars := cString_eq w.base_noNul
  have hdir : L.isDir (ent.rename (pathBase w.chars)).flags =
      (ent.rename (pathBase w.chars)).child.isSome := hf ▸ hok.child_iff ht hfound
  have hfree₁ : (s.setDir s.root (some t')).entry d' (pathBase w.chars) = none := by
    have h : s.entry d' (pathBase w.chars) = none := by
      have h := (files_concat hp (pathBase w.chars)).symm.trans hfree
      rwa [Option.map_eq_none_iff] at h
    rw [hentry]
    unfold relabel
    split
    · rfl
    · exact h
  have hinsert := insert_effect hok₁ ht₁ rfl hdir hpages hins hlast
  rw [hbase] at hinsert
  rcases hinsert with ⟨hthere, -⟩ | ⟨-, t'', hres, hok'', hentry'⟩
  · exact absurd hfree₁ hthere
  have hnode : (ent.rename (pathBase w.chars)).node = ent.node := rfl
  have hchild : (ent.rename (pathBase w.chars)).child = ent.child := rfl
  obtain ⟨hs₂, hfiles⟩ :=
    moved_ok hs hent hok' hentry hp hapart hfree₁ hok'' hnode hchild hentry'
  refine ⟨_, ?_, hs₂, hfiles hfree⟩
  unfold nsMove
  rcases nsFindR_parent hs name.chars with ⟨hat, -⟩ | ⟨d, data', -, hfind⟩
  · rw [hold] at hat
    cases hat
  rw [hpath, hfind]
  dsimp only
  rw [if_neg (by simp), ht, Option.bind_some, hname, hdel]
  dsimp only
  rw [dir_of_found ht₁, Option.bind_some]
  dsimp only
  rw [hres]

/-- A new name that can be given is the name of an entry that can be made. -/
theorem Files.CanName.free {fs : Files} {w : NsPath} (h : fs.CanName L m w) : fs w.target = none := by
  obtain ⟨hfind, hdir, -⟩ := h
  unfold Files.find at hfind
  by_cases hnil : w.names = []
  · rw [if_pos hnil] at hfind
    cases hfind
  rw [if_neg hnil] at hfind
  have hnames : w.names = if pathBase w.chars = [] then pathDirs w.chars else w.target :=
    components_eq w.chars
  by_cases hbase : pathBase w.chars = []
  · -- the directory itself
    rw [if_pos hbase] at hnames
    rw [← hnames] at hdir
    rw [if_neg fun h => h.2 hdir, Option.map_eq_none_iff] at hfind
    rcases hdir with hdir | ⟨n, hn, -⟩
    · exact absurd hdir hnil
    · rw [hfind] at hn
      cases hn
  · rw [if_neg hbase] at hnames
    rwa [if_neg fun h => hbase h.1, Option.map_eq_none_iff, hnames] at hfind

/-- **The checks before a rename.** -/
theorem nsRenameTo_spec (hs : NsOk L s) (hpath : ∀ i, m.path i = true) (w : NsPath) :
    (¬ s.files.CanName L m w ∧ nsRenameTo L s m w = some (.error .fail)) ∨
      (s.files.CanName L m w ∧ ∃ d data b, m.realloc = some b ∧ s.at (pathDirs w.chars) = some d ∧
        nsRenameTo L s m w = some (.ok (⟨some d, data, pathBase w.chars⟩, b))) := by
  unfold nsRenameTo
  rw [hpath 1, hpath 2]
  rcases nsFindR_find hs w with ⟨hfile, hfind⟩ | ⟨-, hfile, w', hfind, -⟩ |
    ⟨q, n, x, f, w', -, -, -, hfile, hfind, -⟩
  · rw [hfind]
    dsimp only
    rcases nsFindR_parent hs w.chars with ⟨hat, hparent⟩ | ⟨d, data, hat, hparent⟩
    · rw [hparent]
      refine Or.inl ⟨fun h => ?_, rfl⟩
      exact (hs.isDir_iff _).mp h.2.1 hat
    · have hdir : s.files.IsDir L (pathDirs w.chars) := by
        rw [hs.isDir_iff, hat]
        exact Option.some_ne_none d
      rw [hparent]
      dsimp only
      cases hmem : m.realloc with
      | none => exact Or.inl ⟨fun h => h.2.2 hmem, rfl⟩
      | some b =>
        refine Or.inr ⟨⟨hfile, hdir, ?_⟩, d, data, b, rfl, hat, rfl⟩
        rw [hmem]
        exact Option.some_ne_none b
  · rw [hfind]
    refine Or.inl ⟨fun h => ?_, rfl⟩
    rw [h.1] at hfile
    cases hfile
  · rw [hfind]
    refine Or.inl ⟨fun h => ?_, rfl⟩
    rw [h.1] at hfile
    cases hfile

/-- The same name in other memory is no change. -/
theorem nsBuffer_spec (hs : NsOk L s) {p : List (List (BitVec 8))} {d : ℕ} {n : List (BitVec 8)}
    {f : NsFound} (hp : s.at p = some d) (hfound : s.FoundAt d n f) {b : NsPath} (hb : b.chars = n) :
    ∃ s', nsBuffer s d f b = some s' ∧ NsOk L s' ∧ s'.files = s.files := by
  obtain ⟨t, ht, hok⟩ := hs.dir p d hp
  have hchild : (some (f.ent.buffer b)).bind NsItem.child = (s.entry d n).bind NsItem.child := by
    rw [hfound.entry]
    rfl
  have hnode : (f.ent.buffer b).node = f.ent.node := rfl
  have hname : (f.ent.buffer b).name = n := hb
  have hhash : (f.ent.buffer b).hash = f.ent.hash := rfl
  have hdir : L.isDir (f.ent.buffer b).flags = (f.ent.buffer b).child.isSome :=
    hok.child_iff ht hfound
  obtain ⟨hok', hentry⟩ := assign_effect hok ht hfound hname hhash hdir
  refine ⟨_, by rw [nsBuffer, ht]; rfl, hs.same hok' hentry hchild, ?_⟩
  rw [files_same hs hp hentry rfl hchild, hnode]
  funext q
  unfold Files.set
  by_cases hq : q = p ++ [n]
  · rw [if_pos hq, hq, files_concat hp, hfound.entry]
    rfl
  · rw [if_neg hq]

/-- **`ns_modify` changes an entry and gives it its new name.** -/
theorem nsModify_refines (hs : NsOk L s) {name : NsPath} {flags value : BitVec 64}
    {newname : Option NsPath} (hclean : NsClean L s ⟨.modify name flags value newname, m⟩) :
    ∃ s', nsStep L s ⟨.modify name flags value newname, m⟩ =
        some (s', (filesStep L s.files ⟨.modify name flags value newname, m⟩).2) ∧
      NsOk L s' ∧ s'.files = (filesStep L s.files ⟨.modify name flags value newname, m⟩).1 := by
  obtain ⟨hnames, hdb, hrename⟩ := hclean
  change ∀ w, newname = some w → _ at hrename
  unfold nsStep filesStep nsModify
  dsimp only at hdb ⊢
  cases hpath : m.path 0 with
  | false =>
    rw [nsFindR_refused]
    exact ⟨s, by simp [stopped], hs, by simp⟩
  | true =>
    rw [if_pos rfl]
    rcases nsFindR_find hs name with ⟨hfile, hfind⟩ | ⟨hnil, -⟩ |
      ⟨q, n, x, f, w₀, heq, hq, hfound, hfile, hfind, hdata⟩
    · rw [hfind, hfile]
      exact ⟨s, rfl, hs, rfl⟩
    · exact absurd hnil hnames
    obtain ⟨t, ht, hok⟩ := hs.dir q x hq
    obtain ⟨-, hname, -⟩ := found_bucket ht hfound
    rw [hfind, hfile]
    dsimp only
    rw [hdata, heq]
    dsimp only
    cases hnew : newname.filter fun w => decide (w.chars ≠ name.chars) with
    | none =>
      dsimp only
      have hno : ¬ ∃ w, (none : Option NsPath) = some w ∧ ¬ s.files.CanName L m w := by simp
      rcases nsModifyData_spec hs hq ht hok hfound (b := f.ent.path) hname hdb flags value with
        ⟨hstuck, hres⟩ | ⟨hstuck, s', ent, hres, hchanged⟩
      · rw [hres, if_pos (Or.inr hstuck)]
        exact ⟨s, rfl, hs, rfl⟩
      · rw [hres, if_neg (not_or.mpr ⟨hno, hstuck⟩)]
        exact ⟨s', rfl, hchanged.ok, hchanged.files⟩
    | some w =>
      obtain ⟨hsome, hother⟩ := Option.filter_eq_some_iff.mp hnew
      have hren := hrename w hsome (by simpa using hother)
      dsimp only
      rcases nsRenameTo_spec hs hren.path w with ⟨hcan, hto⟩ | ⟨hcan, d, data, b, hb, hat, hto⟩
      · rw [hto, if_pos (Or.inl ⟨w, rfl, hcan⟩)]
        exact ⟨s, rfl, hs, rfl⟩
      rw [hto, Option.bind_some]
      dsimp only
      -- the entry is one of the root directory
      have hsingle := heq.symm.trans (hren.root b hb)
      obtain ⟨rfl, rfl⟩ : q = [] ∧ n = b.chars := by
        cases q with
        | nil => exact ⟨rfl, (List.cons.inj hsingle).1⟩
        | cons a q => simp at hsingle
      obtain rfl : s.root = x := Option.some.inj hq
      have hno : ¬ ∃ w', some w = some w' ∧ ¬ s.files.CanName L m w' := by
        rintro ⟨w', h, h'⟩
        exact h' (Option.some.inj h ▸ hcan)
      rcases nsModifyData_spec hs hq ht hok hfound (b := b) rfl hdb flags value with
        ⟨hstuck, hres⟩ | ⟨hstuck, s', ent, hres, hchanged⟩
      · obtain ⟨s', hbuffer, hs', hfiles⟩ := nsBuffer_spec hs hq hfound (b := b) rfl
        rw [hres, if_pos (Or.inr hstuck), Option.bind_some]
        dsimp only
        rw [hbuffer]
        exact ⟨s', rfl, hs', hfiles⟩
      · rw [hres, if_neg (not_or.mpr ⟨hno, hstuck⟩), Option.bind_some]
        dsimp only
        rw [List.nil_append]
        have hapart : ¬ [b.chars] <+: pathDirs w.chars := by
          have h := hren.apart
          rwa [hren.root b hb] at h
        have hold : pathDirs name.chars = [] := by
          have h := (components_eq name.chars).symm.trans (hren.root b hb)
          rw [if_neg hren.base] at h
          exact (List.append_inj' (h.trans (List.nil_append _).symm) rfl).1
        have hfree : s'.files w.target = none := by
          rw [hchanged.files]
          unfold Files.set
          rw [if_neg, hcan.free]
          intro h
          have hthere := files_concat hq b.chars
          rw [hfound.entry, ← h, hcan.free] at hthere
          cases hthere
        have hat' := (hchanged.at_eq _ hapart).trans hat
        have hentry := hchanged.entry
        rw [← hchanged.root] at hentry
        obtain ⟨s'', hmove, hs'', hfiles⟩ := nsMove_spec hchanged.ok hentry hchanged.name hold
          (hren.path 3) data hat' hapart hfree (hren.moves hcan f b s' ent hb hfound hres)
        rw [hchanged.root] at hmove
        rw [hmove]
        refine ⟨s'', rfl, hs'', ?_⟩
        rw [hfiles, hchanged.files]
        rfl

end Modify

/-! ### Small directories -/

section Small
variable {L : FlagLayout} {s : NsSpace} {m : NsMem} {t : NsTree ItemChain}
  {p : List (List (BitVec 8))} {d : ℕ}

/-- Pages have at least as many entries as children. -/
theorem Shape.length_le {c : BTConf ItemChain} (hc : 0 ≤ c.btMinkey) {n : ℕ}
    {q : BTPage ItemChain} (h : Shape c n q) (h0 : 0 ≤ q.count) :
    q.count + 1 ≤ (BTPtr.page q).toList.length := by
  have hcat : ∀ k : ℕ, (k : ℤ) ≤ q.count + 1 →
      k ≤ (Cat.cat (fun i => (q.child i).toList) 0 k).length := by
    intro k
    induction k with
    | zero => exact fun _ => Nat.zero_le _
    | succ k ih =>
      intro hk
      have hne := h.child_ne_nil hc (show 0 ≤ 0 + (k : ℤ) by omega) (by omega)
      have hpos := List.length_pos_of_ne_nil hne
      rw [Cat.cat_succ, List.length_append]
      have := ih (by omega)
      omega
  have hall := hcat (q.count + 1).toNat (by omega)
  rw [toList_page]
  omega

/-- **A tree with at most 254 hashes is a leaf that is not full.** -/
theorem leaf_of_few (ht : t.WF itemConf) (h : t.toList.length ≤ 254) :
    (t.root = .null ∧ t.depth = 0) ∨
      ∃ q, t.root = .page q ∧ q.isleaf = true ∧ q.count < 254 ∧ t.depth = 1 := by
  have hshaped := ht.shaped
  obtain ⟨root, depth⟩ := t
  cases root with
  | null => exact Or.inl ⟨rfl, hshaped⟩
  | obj x => exact hshaped.elim
  | page q =>
    obtain ⟨n, hdepth, hsh, h0, -, hpos⟩ := hshaped
    have hmin : itemConf.btMinkey = 127 := by decide
    have hlen : (BTPtr.page q).toList.length ≤ 254 := h
    have hle := Shape.length_le (by omega) hsh h0
    cases n with
    | zero => exact Or.inr ⟨q, rfl, hsh.isleaf_zero, by omega, hdepth⟩
    | succ n =>
      -- there are two children, with 128 entries each
      have h1 := hpos (Nat.succ_pos n)
      have hchild : ∀ i, 0 ≤ i → i ≤ q.count → 128 ≤ (q.child i).toList.length := by
        intro i h₁ h₂
        obtain ⟨r, hr, hshr, hminr, -⟩ := hsh.2 i h₁ h₂
        have hler := Shape.length_le (by omega) hshr (by omega)
        rw [hr]
        omega
      have hlist := toList_focus q (show (0 : ℤ) ≤ 1 by omega) h1
      rw [show Int.toNat 1 = 1 from rfl, Cat.cat_one] at hlist
      have := hchild 0 le_rfl h0
      have := hchild 1 (by omega) h1
      rw [hlist] at hlen
      simp only [List.length_append] at hlen
      omega

/-- The names of a directory have at most 254 hashes. -/
def Files.Few (fs : Files) (p : List (List (BitVec 8))) : Prop :=
  ∃ hashes : Finset ℕ, hashes.card ≤ 254 ∧ ∀ n, fs (p ++ [n]) ≠ none → hashpjw n ∈ hashes

theorem Files.Few.mono {fs fs' : Files} (h : fs.Few p)
    (hle : ∀ n, fs' (p ++ [n]) ≠ none → fs (p ++ [n]) ≠ none) : fs'.Few p := by
  obtain ⟨hashes, hcard, hmem⟩ := h
  exact ⟨hashes, hcard, fun n hn => hmem n (hle n hn)⟩

/-- Such a directory has a small tree. -/
theorem Files.Few.length_le (h : s.files.Few p) (hp : s.at p = some d) (ht : s.dirs d = some t)
    (hok : NsDirOk L t) : t.toList.length ≤ 254 := by
  obtain ⟨hashes, hcard, hmem⟩ := h
  have hnodup : (t.toList.map fun c => c.head.hash).Nodup :=
    List.pairwise_map.mpr (hok.wf.sorted.imp Nat.ne_of_lt)
  have hsub : (t.toList.map fun c => c.head.hash).toFinset ⊆ hashes := by
    intro h hh
    rw [List.mem_toFinset] at hh
    obtain ⟨c, hc, rfl⟩ := List.mem_map.mp hh
    have hhead : c.head ∈ c.items := List.mem_cons_self
    have hhash := hok.name c hc c.head hhead
    rw [← hhash]
    refine hmem _ ?_
    rw [files_concat hp, NsSpace.entry_eq ht, hhash, hok.bucket_eq hc]
    intro hnone
    rw [Option.map_eq_none_iff, List.find?_eq_none] at hnone
    exact hnone c.head hhead (by simp)
  calc t.toList.length
      = (t.toList.map fun c => c.head.hash).toFinset.card := by
        rw [List.toFinset_card_of_nodup hnodup, List.length_map]
    _ ≤ hashes.card := Finset.card_le_card hsub
    _ ≤ 254 := hcard

theorem gives_of_few (ht : t.WF itemConf) (h : t.toList.length ≤ 254) (n : List (BitVec 8)) :
    Gives t n := by
  intro f _ _ _
  rcases leaf_of_few ht h with ⟨hroot, -⟩ | ⟨q, hroot, hleaf, -⟩
  · rw [hroot]
    rfl
  · rw [hroot, nsOverruns_page, hleaf]
    rfl

theorem accepts_of_few (ht : t.WF itemConf) (h : t.toList.length ≤ 254) {ent : NsItem} {pages : ℕ}
    (hpages : 2 ≤ pages) (hname : ∀ e ∈ t.bucket ent.hash, e.name ≠ ent.name) :
    Accepts t pages ent := by
  have hmax : itemConf.btMaxkey = 254 := by decide
  have hlast : ∀ e, (t.bucket ent.hash).getLast? = some e → e.name ≠ ent.name :=
    fun e he => hname e (List.mem_of_getLast? he)
  rcases leaf_of_few ht h with ⟨hroot, hdepth⟩ | ⟨q, hroot, hleaf, hcount, hdepth⟩
  · refine ⟨by omega, ⟨fun hfull => ?_, fun hsplit => ?_⟩, hlast⟩
    · have h := hfull.1
      rw [hroot] at h
      cases h
    · have h := hsplit.1
      rw [hroot] at h
      cases h
  · refine ⟨by omega, ⟨fun hfull => ?_, fun hsplit => ?_⟩, hlast⟩
    · have h := hfull.1
      rw [hroot, firstLeafFull_leaf hleaf] at h
      omega
    · have h := hsplit.1
      rw [hroot, splitsMiddle_leaf hleaf] at h
      cases h

/-- A name that is not in a directory is not in its chains. -/
theorem not_in_chain (hp : s.at p = some d) (ht : s.dirs d = some t) {n : List (BitVec 8)}
    (hfree : s.files (p ++ [n]) = none) : ∀ e ∈ t.bucket (hashpjw n), e.name ≠ n := by
  rw [files_concat hp, Option.map_eq_none_iff, NsSpace.entry_eq ht, List.find?_eq_none] at hfree
  intro e he
  simpa using hfree e he

/-- **What a call on small directories has to meet**: it adds names that are not there, with pages
for them, and memory for a new directory is not in use.  A rename is one of an entry of the root
directory, for which there is memory. -/
def NsFits (L : FlagLayout) (s : NsSpace) (a : NsCall) : Prop :=
  match a.op with
  | .add path flags _ => L.isDir flags = false ∧ 2 ≤ a.mem.pages ∧ s.files path.target = none ∧
      s.files.Few (pathDirs path.chars)
  | .del path => s.files.Few (pathDirs path.chars)
  | .lookup _ => True
  | .modify name _ _ newname => name.names ≠ [] ∧
      (∀ db, a.mem.db = some db → s.dirs db = none ∧ a.mem.pool = true) ∧
      ∀ w, newname = some w → w.chars ≠ name.chars → (∀ i, a.mem.path i = true) ∧
        pathBase name.chars ≠ [] ∧ (∀ b, a.mem.realloc = some b → name.names = [b.chars]) ∧
        ¬ name.names <+: pathDirs w.chars ∧ 2 ≤ a.mem.pages ∧ s.files.Few [] ∧
        s.files.Few (pathDirs w.chars)

/-- A rename in small directories. -/
theorem moves_of_few (hs : NsOk L s) {n : List (BitVec 8)} {ent : NsItem}
    (hent : s.entry s.root n = some ent) {w : NsPath} {pages : ℕ} (hpages : 2 ≤ pages)
    (hroot : s.files.Few []) (hdest : s.files.Few (pathDirs w.chars))
    (hfree : s.files w.target = none) : Moves s pages n ent w := by
  have hnil : s.at [] = some s.root := rfl
  intro t ht
  obtain ⟨t₀, ht₀, hok⟩ := hs.dir [] s.root hnil
  obtain rfl : t₀ = t := Option.some.inj (ht₀.symm.trans ht)
  have hlen := hroot.length_le hnil ht hok
  refine ⟨gives_of_few hok.wf hlen n, fun t' e hdel d t'' hd ht'' => ?_⟩
  -- what the deletion leaves
  rcases nsFindItem_cases hok.toDirOk ht n with ⟨-, hnone⟩ | ⟨f, -, hfound⟩
  · rw [hent] at hnone
    cases hnone
  have hover : f.before = [] → f.after = [] → nsOverruns itemConf (hashpjw n) t₀.root = false := by
    obtain ⟨t₁, ht₁, hchain⟩ := hfound
    obtain rfl : t₁ = t₀ := Option.some.inj (ht₁.symm.trans ht)
    exact gives_of_few hok.wf hlen n f hchain
  obtain ⟨t₁, hdel', hok', hentry⟩ := delete_effect hok ht hfound hover
  obtain rfl : t' = t₁ := by
    rw [hdel'] at hdel
    exact (Prod.mk.inj (Prod.mk.inj (Option.some.inj hdel)).2).1.symm
  have hs₁ := hs.dead hnil hok' hentry rfl
  have hfiles := files_removed hs hnil hentry rfl
  have hle : ∀ q, (s.setDir s.root (some t')).files q ≠ none → s.files q ≠ none := by
    intro q
    rw [hfiles]
    unfold Files.remove
    split
    · exact fun h => absurd rfl h
    · exact fun h => h
  obtain ⟨t₂, ht₂, hok₂⟩ := hs₁.dir _ d hd
  obtain rfl : t₂ = t'' := Option.some.inj (ht₂.symm.trans ht'')
  have hfew := hdest.mono fun n => hle (pathDirs w.chars ++ [n])
  have hbase : (ent.rename (pathBase w.chars)).name = pathBase w.chars := cString_eq w.base_noNul
  have hhash : (ent.rename (pathBase w.chars)).hash = hashpjw (pathBase w.chars) :=
    congrArg hashpjw hbase
  refine accepts_of_few hok₂.wf (hfew.length_le hd ht₂ hok₂) hpages ?_
  rw [hbase, hhash]
  refine not_in_chain hd ht₂ ?_
  by_contra hthere
  exact hle _ hthere hfree

/-- **Small directories meet what a call has to meet.** -/
theorem nsClean_of_fits (hs : NsOk L s) {a : NsCall} (h : NsFits L s a) : NsClean L s a := by
  obtain ⟨op, m⟩ := a
  cases op with
  | add path flags value =>
    obtain ⟨hflags, hpages, hfree, hfew⟩ := h
    refine ⟨hflags, fun d t hd ht => ?_⟩
    obtain ⟨t₀, ht₀, hok⟩ := hs.dir _ d hd
    obtain rfl : t₀ = t := Option.some.inj (ht₀.symm.trans ht)
    have hname := newItem_name flags value path
    have hhash : (newItem flags value (pathBase path.chars)).hash = hashpjw (pathBase path.chars) :=
      congrArg hashpjw hname
    refine accepts_of_few hok.wf (hfew.length_le hd ht hok) hpages ?_
    rw [hname, hhash]
    exact not_in_chain hd ht hfree
  | del path =>
    intro d t hd ht
    obtain ⟨t₀, ht₀, hok⟩ := hs.dir _ d hd
    obtain rfl : t₀ = t := Option.some.inj (ht₀.symm.trans ht)
    exact gives_of_few hok.wf (Files.Few.length_le h hd ht hok) _
  | lookup path => trivial
  | modify name flags value newname =>
    obtain ⟨hnames, hdb, hrename⟩ := h
    refine ⟨hnames, hdb, fun w hw hne => ?_⟩
    obtain ⟨hpath, hbase, hsingle, hapart, hpages, hroot, hdest⟩ := hrename w hw hne
    refine ⟨hpath, hbase, hsingle, hapart, fun hcan f b s' ent hb hfound hres => ?_⟩
    have hnil : s.at [] = some s.root := rfl
    obtain ⟨t, ht, hok⟩ := hs.dir [] s.root hnil
    rcases nsModifyData_spec hs hnil ht hok hfound (b := b) rfl hdb flags value with
      ⟨-, hstuck⟩ | ⟨-, s₁, ent₁, hres₁, hchanged⟩
    · rw [hstuck] at hres
      cases hres
    · obtain ⟨rfl, rfl⟩ : s₁ = s' ∧ ent₁ = ent := by
        rw [hres₁] at hres
        exact Prod.mk.inj (Except.ok.inj (Option.some.inj hres))
      have hthere : s.files [b.chars] ≠ none := by
        have h := files_concat hnil b.chars
        rw [hfound.entry] at h
        rw [← List.nil_append [b.chars], h]
        exact Option.some_ne_none _
      have hle : ∀ q, s₁.files q ≠ none → s.files q ≠ none := by
        intro q hq
        rw [hchanged.files, List.nil_append] at hq
        unfold Files.set at hq
        by_cases heq : q = [b.chars]
        · rw [heq]
          exact hthere
        · rwa [if_neg heq] at hq
      have hentry := hchanged.entry
      rw [← hchanged.root] at hentry
      refine moves_of_few hchanged.ok hentry hpages (hroot.mono fun n => hle _)
        (hdest.mono fun n => hle _) ?_
      by_contra hthere'
      exact hle _ hthere' hcan.free

end Small

/-! ### Runs -/

/-- **One call.** -/
theorem nsStep_refines (L : FlagLayout) : Refines (fun s fs => NsOk L s ∧ s.files = fs) (NsClean L)
    (nsStep L) (filesStep L) := by
  rintro s fs ⟨op, m⟩ ⟨hs, rfl⟩ hclean
  cases op with
  | add path flags value => exact nsAdd_refines hs hclean
  | del path => exact nsDel_refines hs hclean
  | lookup path => exact nsLookup_refines hs
  | modify name flags value newname => exact nsModify_refines hs hclean

theorem nsCreate_entry (a d : ℕ) (n : List (BitVec 8)) : (nsCreate a).entry d n = none := by
  unfold NsSpace.entry nsCreate
  by_cases h : d = a
  · rw [h]
    dsimp only
    rw [Function.update_self]
    rfl
  · dsimp only
    rw [Function.update_of_ne h]
    rfl

/-- Nothing is in a new name tree. -/
theorem nsCreate_ok (L : FlagLayout) (a : ℕ) :
    NsOk L (nsCreate a) ∧ (nsCreate a).files = fun _ => none := by
  have hnone := nsCreate_entry a
  have hat : ∀ p d, (nsCreate a).at p = some d → p = [] ∧ d = a := by
    intro p d h
    by_cases hp : p = []
    · rw [hp] at h
      exact ⟨hp, (Option.some.inj h).symm⟩
    · unfold NsSpace.at at h
      rw [walk_of_empty (hnone _) hp] at h
      cases h
  refine ⟨⟨fun p d h => ?_, fun p q x hp hq => ?_⟩, ?_⟩
  · obtain ⟨-, rfl⟩ := hat p d h
    have hroot : (nsCreate d).dirs d = some emptyTree :=
      NsSpace.setDir_self ⟨fun _ => none, d⟩ d (some emptyTree)
    exact ⟨emptyTree, hroot, emptyTree_ok L⟩
  · exact (hat p x hp).1.trans (hat q x hq).1.symm
  · funext p
    rcases List.eq_nil_or_concat p with rfl | ⟨q, n, rfl⟩
    · rfl
    · rw [List.concat_eq_append]
      cases hq : (nsCreate a).at q with
      | none => exact files_concat_none hq n
      | some d =>
        rw [files_concat hq, hnone]
        rfl

/-- Runs on small directories meet the condition. -/
theorem clean_of_fits {L : FlagLayout} {a : ℕ} (l : List NsCall)
    (h : Along (fun s c => (nsStep L s c).map Prod.fst) (NsFits L) (nsCreate a) l) :
    Along (fun s c => (nsStep L s c).map Prod.fst) (NsClean L) (nsCreate a) l := by
  refine Along.mono (I := NsOk L) (fun s c hs hfits => nsClean_of_fits hs hfits)
    (fun s c s' hs hfits hstep => ?_) l _
    (nsCreate_ok L a).1 h
  obtain ⟨s₁, hres, hs₁, -⟩ := nsStep_refines L s s.files c ⟨hs, rfl⟩ (nsClean_of_fits hs hfits)
  rw [hres] at hstep
  exact Option.some.inj hstep ▸ hs₁

/-- A heap with room: a new directory is at address 32. -/
def roomyMem : NsMem where
  path _ := true
  ent := true
  copy := true
  realloc := none
  pages := 8
  db := some 32
  pool := true

/-- An entry `h` is made, becomes a directory, and is looked up with a slash behind it. -/
def homeCalls : List NsCall :=
  [⟨.add ⟨[0x68#8], by decide⟩ 0#64 7#64, roomyMem⟩,
    ⟨.modify ⟨[0x68#8], by decide⟩ 1#64 8#64 none, roomyMem⟩,
    ⟨.lookup ⟨[0x68#8, 0x2f#8], by decide⟩, roomyMem⟩]

theorem homeCalls_fit : Along (fun s c => (nsStep .little s c).map Prod.fst) (NsFits .little)
    (nsCreate 16) homeCalls := by
  have hempty := (nsCreate_ok .little 16).2
  refine ⟨⟨rfl, by decide, ?_, ∅, by simp, fun n hn => ?_⟩, fun s hs => ⟨⟨by decide, ?_, ?_⟩,
    fun _ _ => ⟨trivial, fun _ _ => trivial⟩⟩⟩
  · rw [hempty]
  · rw [hempty] at hn
    exact absurd rfl hn
  · -- the address is not in use
    intro db hdb
    obtain rfl := Option.some.inj hdb
    have hfree : (((nsStep .little (nsCreate 16) ⟨.add ⟨[0x68#8], by decide⟩ 0#64 7#64, roomyMem⟩).map
        Prod.fst).bind fun s => s.dirs 32) = none := rfl
    dsimp only at hs
    rw [hs] at hfree
    exact ⟨hfree, rfl⟩
  · exact fun w hw => absurd hw (by simp)

end Mungi.Naming
