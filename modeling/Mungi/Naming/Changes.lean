import Mungi.Naming.NameTree

/-!
# Entries that change and entries that move

`ns_modify` assigns to an entry where it is, which may make a directory of it or none, and may then
take it out of the root directory and put it in elsewhere under its new name.

## Main results

* `nsModifyData_spec` — **what `ns_modify` does to an entry, or why it does not.**
* `moved_ok` — **an entry put in elsewhere takes all below it along.**
-/

namespace Mungi.Naming

open Paths Walks

/-! ### An entry changed -/

section Data
variable {L : FlagLayout} {s : NsSpace} {m : NsMem} {p : List (List (BitVec 8))} {d : ℕ}
  {n : List (BitVec 8)} {f : NsFound} {t : NsTree ItemChain}

theorem bucket_emptyTree (h : ℕ) : emptyTree.bucket h = [] := rfl

theorem emptyTree_ok (L : FlagLayout) : NsDirOk L emptyTree := by
  refine ⟨⟨⟨rfl, trivial, List.Pairwise.nil⟩, fun c hc => ?_, fun c hc => ?_⟩, fun h => ?_,
    fun h e he => ?_⟩
  · exact absurd hc List.not_mem_nil
  · exact absurd hc List.not_mem_nil
  · exact List.nodup_nil
  · exact absurd he List.not_mem_nil

/-- `BTEmpty` finds out whether there are entries. -/
theorem nsBtEmpty_cases (hok : DirOk t) :
    (nsBtEmpty t = .notFound ∧ ∀ h, t.bucket h = []) ∨
      (nsBtEmpty t ≠ .notFound ∧ ∃ e, e ∈ t.bucket (hashpjw e.name)) := by
  have hshaped := hok.wf.shaped
  obtain ⟨root, depth⟩ := t
  cases root with
  | null => exact Or.inl ⟨rfl, fun _ => rfl⟩
  | obj x => exact hshaped.elim
  | page q =>
    obtain ⟨k, -, hsh, h0, -⟩ := hshaped
    have hmM := itemConf_hashed.odd.bounds
    obtain ⟨c, hc⟩ := List.exists_mem_of_ne_nil _ (hsh.toList_ne_nil (by omega) h0)
    refine Or.inr ⟨nofun, c.head, ?_⟩
    have hhead : c.head ∈ c.items := List.mem_cons_self
    rw [hok.name c hc _ hhead, hok.bucket_eq hc]
    exact hhead

/-- **What `ns_modify` does to an entry**, before it renames it. -/
structure Changed (L : FlagLayout) (s : NsSpace) (p : List (List (BitVec 8))) (d : ℕ)
    (n : List (BitVec 8)) (old : NsNode) (flags value : BitVec 64) (s' : NsSpace) (ent : NsItem) :
    Prop where
  ok : NsOk L s'
  root : s'.root = s.root
  files : s'.files = s.files.set (p ++ [n])
    ⟨value, L.setUser (L.setDir old.flags (L.isDir flags)) flags⟩
  entry : s'.entry d n = some ent
  node : ent.node = ⟨value, L.setUser (L.setDir old.flags (L.isDir flags)) flags⟩
  name : ent.name = n
  /-- Other places are reached as before. -/
  at_eq : ∀ q, ¬ (p ++ [n]) <+: q → s'.at q = s.at q

variable (hs : NsOk L s) (hp : s.at p = some d) (ht : s.dirs d = some t) (hok : NsDirOk L t)
  (hfound : s.FoundAt d n f)
include hs hp ht hok hfound

omit hs ht hok in
/-- What is reached through an entry. -/
theorem at_found : s.at (p ++ [n]) = f.ent.child := by
  unfold NsSpace.at at hp ⊢
  rw [walk_concat, hp, Option.bind_some, hfound.entry]
  rfl

/-- An entry that stays a directory or no directory. -/
theorem changed_same {ent : NsItem} {flags value : BitVec 64} (hname : ent.name = n)
    (hhash : ent.hash = f.ent.hash) (hchild : ent.child = f.ent.child)
    (hdir : L.isDir f.ent.flags = L.isDir flags)
    (hnode : ent.node = ⟨value, L.setUser f.ent.flags flags⟩) :
    Changed L s p d n f.ent.node flags value
      (s.setDir d (some (nsAssign t f.ent.hash (f.before ++ ent :: f.after)))) ent := by
  have hflags : L.setDir f.ent.node.flags (L.isDir flags) = f.ent.flags := by
    rw [← hdir]
    exact L.setDir_isDir f.ent.flags
  have hent : L.isDir ent.flags = ent.child.isSome := by
    have h := hok.child_iff ht hfound
    rw [hchild, ← h, show ent.flags = L.setUser f.ent.flags flags from congrArg NsNode.flags hnode]
    exact L.isDir_setUser _ _
  obtain ⟨hok', hentry⟩ := assign_effect hok ht hfound hname hhash hent
  have hsame : (some ent).bind NsItem.child = (s.entry d n).bind NsItem.child := by
    rw [hfound.entry]
    exact hchild
  refine ⟨hs.same hok' hentry hsame, rfl, ?_, ?_, ?_, hname, fun q _ => ?_⟩
  · rw [files_same hs hp hentry rfl hsame, hnode, hflags]
  · rw [hentry, relabel_self]
  · rw [hnode, hflags]
  · unfold NsSpace.at
    rw [hentry]
    exact walk_relabel_same hsame q s.root

/-- An entry that becomes a directory. -/
theorem changed_made {db : ℕ} {ent : NsItem} {flags value : BitVec 64} (hdb : s.dirs db = none)
    (hname : ent.name = n) (hhash : ent.hash = f.ent.hash) (hchild : ent.child = some db)
    (hdir : L.isDir f.ent.flags = false) (hdir' : L.isDir flags = true)
    (hnode : ent.node = ⟨value, L.setUser (L.setDir f.ent.flags true) flags⟩) :
    Changed L s p d n f.ent.node flags value
      ((s.setDir db (some emptyTree)).setDir d
        (some (nsAssign t f.ent.hash (f.before ++ ent :: f.after)))) ent := by
  have hnew : ∀ q, s.at q ≠ some db := by
    intro q hq
    obtain ⟨t', ht', -⟩ := hs.dir q db hq
    rw [hdb] at ht'
    cases ht'
  have hne : d ≠ db := by
    rintro rfl
    exact hnew p hp
  have hnone : ∀ x, s.entry db x = none := by
    intro x
    unfold NsSpace.entry
    rw [hdb]
    rfl
  have hkeep : (s.setDir db (some emptyTree)).entry = s.entry :=
    entry_setDir_empty hnone fun t' h => by
      obtain rfl := Option.some.inj h
      exact bucket_emptyTree
  have hs₁ := hs.setDir_unreached hnew hkeep
  have hp₁ : (s.setDir db (some emptyTree)).at p = some d := by
    unfold NsSpace.at at hp ⊢
    rw [hkeep]
    exact hp
  have ht₁ : (s.setDir db (some emptyTree)).dirs d = some t := by
    rw [NsSpace.setDir_of_ne hne, ht]
  have hfound₁ : (s.setDir db (some emptyTree)).FoundAt d n f := by
    obtain ⟨t₀, ht₀, hfind⟩ := hfound
    exact ⟨t₀, by rw [NsSpace.setDir_of_ne hne, ht₀], hfind⟩
  have hflags : ent.flags = L.setUser (L.setDir f.ent.flags true) flags := congrArg NsNode.flags hnode
  have hent : L.isDir ent.flags = ent.child.isSome := by
    rw [hflags, L.isDir_setUser, L.isDir_setDir, hchild]
    rfl
  obtain ⟨hok', hentry⟩ := assign_effect hok ht₁ hfound₁ hname hhash hent
  have hv : (some ent).bind NsItem.child = some db := hchild
  have hold : ((s.setDir db (some emptyTree)).entry d n).bind NsItem.child = none := by
    rw [hfound₁.entry, Option.bind_some, ← Option.not_isSome_iff_eq_none, ← hok.child_iff ht hfound,
      hdir]
    simp
  have hnew₁ : ∀ q, walk (s.setDir db (some emptyTree)).entry NsItem.child s.root q ≠ some db := by
    rw [hkeep]
    exact hnew
  have hnone₁ : ∀ x, (s.setDir db (some emptyTree)).entry db x = none := by
    rw [hkeep]
    exact hnone
  have hfiles : (s.setDir db (some emptyTree)).files = s.files := by
    unfold NsSpace.files NsSpace.under
    rw [hkeep]
    rfl
  refine ⟨NsOk.setDir hok' hentry (Unshared.relabel_fresh hs₁.unshared hp₁ hv hnew₁ hnone₁)
    fun q x hx hxd => ?_, rfl, ?_, ?_, ?_, hname, fun q hq => ?_⟩
  · by_cases hpre : (p ++ [n]) <+: q
    · obtain ⟨l, rfl⟩ := hpre
      rw [walk_relabel_graft hs₁.unshared hp₁ hv (apart_of_empty hnew₁ hnone₁)] at hx
      by_cases hl : l = []
      · rw [hl] at hx
        obtain rfl := Option.some.inj hx
        exact ⟨emptyTree, s.setDir_self db _, emptyTree_ok L⟩
      · rw [walk_of_empty hnone₁ hl] at hx
        cases hx
    · rw [walk_relabel_elsewhere hs₁.unshared hp₁ hpre] at hx
      exact hs₁.dir q x hx
  · funext q
    rw [files_setDir hentry, under_relabel_fresh hs₁.unshared hp₁ hv hnew₁ hnone₁ hold, ← hfiles,
      hdir']
    unfold Files.set
    by_cases hq : q = p ++ [n]
    · rw [if_pos hq, if_pos hq]
      exact congrArg some hnode
    · rw [if_neg hq, if_neg hq]
      rfl
  · rw [hentry, relabel_self]
  · rw [hnode, hdir']
    rfl
  · unfold NsSpace.at
    rw [hentry, NsSpace.setDir_root, walk_relabel_elsewhere hs₁.unshared hp₁ hq, hkeep]
    rfl

/-- A directory without entries that becomes none. -/
theorem changed_cleared {c : ℕ} {ent : NsItem} {flags value : BitVec 64}
    (hc : f.ent.child = some c) (hempty : ∀ x, s.entry c x = none)
    (hname : ent.name = n) (hhash : ent.hash = f.ent.hash) (hchild : ent.child = none)
    (hdir' : L.isDir flags = false)
    (hnode : ent.node = ⟨value, L.setUser (L.setDir f.ent.flags false) flags⟩) :
    Changed L s p d n f.ent.node flags value
      ((s.setDir c none).setDir d
        (some (nsAssign t f.ent.hash (f.before ++ ent :: f.after)))) ent := by
  have hatc : s.at (p ++ [n]) = some c := (at_found hp hfound).trans hc
  have hne : d ≠ c := by
    rintro rfl
    have h := hs.unshared p (p ++ [n]) d hp hatc
    exact absurd h.symm (by simp)
  have hflags : ent.flags = L.setUser (L.setDir f.ent.flags false) flags := congrArg NsNode.flags hnode
  have hent : L.isDir ent.flags = ent.child.isSome := by
    rw [hflags, L.isDir_setUser, L.isDir_setDir, hchild]
    rfl
  obtain ⟨hok', hentry⟩ := assign_effect hok ht hfound hname hhash hent
  have hv : (some ent).bind NsItem.child = none := hchild
  have hs₁ := hs.dead hp hok' hentry hv
  -- in which order the two are assigned to does not matter
  have hcomm : (s.setDir c none).setDir d
      (some (nsAssign t f.ent.hash (f.before ++ ent :: f.after))) =
      (s.setDir d (some (nsAssign t f.ent.hash (f.before ++ ent :: f.after)))).setDir c none := by
    unfold NsSpace.setDir
    dsimp only
    rw [Function.update_comm hne]
  have hgone : ∀ q, (s.setDir d
      (some (nsAssign t f.ent.hash (f.before ++ ent :: f.after)))).at q ≠ some c := by
    intro q hq
    unfold NsSpace.at at hq
    rw [hentry, NsSpace.setDir_root] at hq
    by_cases hpre : (p ++ [n]) <+: q
    · obtain ⟨l, rfl⟩ := hpre
      rw [walk_relabel_through hs.unshared hp, hv] at hq
      cases hq
    · rw [walk_relabel_elsewhere hs.unshared hp hpre] at hq
      exact hpre (hs.unshared (p ++ [n]) q c hatc hq ▸ List.prefix_refl _)
  have hkeep : ((s.setDir d (some (nsAssign t f.ent.hash (f.before ++ ent :: f.after)))).setDir c
      none).entry = relabel s.entry d n (some ent) := by
    have hnone : ∀ x, (s.setDir d
        (some (nsAssign t f.ent.hash (f.before ++ ent :: f.after)))).entry c x = none := by
      intro x
      rw [hentry, relabel_of_ne fun h => hne h.1.symm, hempty]
    rw [entry_setDir_empty hnone (by simp), hentry]
  rw [hcomm]
  refine ⟨hs₁.setDir_unreached hgone (hkeep.trans hentry.symm), rfl, ?_, ?_, ?_, hname,
    fun q hq => ?_⟩
  · funext q
    unfold NsSpace.files NsSpace.under Files.set
    rw [hkeep]
    change (Walks.under (relabel s.entry d n (some ent)) NsItem.child s.root q).map NsItem.node = _
    rw [under_relabel_dead hs.unshared hp hv, hdir']
    by_cases hq : q = p ++ [n]
    · rw [if_pos hq, if_pos hq]
      exact congrArg some hnode
    · rw [if_neg hq, if_neg hq]
      by_cases hpre : (p ++ [n]) <+: q
      · -- there was nothing below
        obtain ⟨l, rfl⟩ := hpre
        rw [if_pos ⟨l, rfl⟩]
        rcases List.eq_nil_or_concat l with rfl | ⟨l, x, rfl⟩
        · exact absurd (List.append_nil _) hq
        · unfold NsSpace.at at hatc
          change Option.map NsItem.node none = Option.map NsItem.node _
          rw [List.concat_eq_append, ← List.append_assoc, under_concat, walk_append, hatc,
            Option.bind_some]
          by_cases hl : l = []
          · rw [hl, walk_nil, Option.bind_some, hempty]
          · rw [walk_of_empty hempty hl]
            rfl
      · rw [if_neg hpre]
  · rw [hkeep, relabel_self]
  · rw [hnode, hdir']
    rfl
  · unfold NsSpace.at
    rw [hkeep]
    exact walk_relabel_elsewhere hs.unshared hp hq

/-- **What `ns_modify` does to an entry, or why it does not.** -/
theorem nsModifyData_spec {b : NsPath} (hb : b.chars = n)
    (hdb : ∀ db, m.db = some db → s.dirs db = none ∧ m.pool = true) (flags value : BitVec 64) :
    (s.files.Stuck L m (p ++ [n]) f.ent.node flags ∧
        nsModifyData L s m d f b flags value = some (.error .fail)) ∨
      (¬ s.files.Stuck L m (p ++ [n]) f.ent.node flags ∧
        ∃ s' ent, nsModifyData L s m d f b flags value = some (.ok (s', ent)) ∧
          Changed L s p d n f.ent.node flags value s' ent) := by
  unfold nsModifyData nsModifyDir Files.Stuck
  have hnode : L.isDir f.ent.node.flags = L.isDir f.ent.flags := rfl
  have hbuffer : L.isDir (f.ent.buffer b).flags = L.isDir f.ent.flags := rfl
  rw [hnode, hbuffer]
  by_cases hdir : L.isDir f.ent.flags = L.isDir flags
  · rw [if_pos hdir]
    dsimp only
    rw [ht]
    refine Or.inr ⟨fun h => h.1 hdir, _, _, rfl, ?_⟩
    exact changed_same hs hp ht hok hfound hb rfl rfl hdir rfl
  · rw [if_neg hdir]
    have hchild := hok.child_iff ht hfound
    by_cases hdir' : L.isDir flags = true
    · rw [if_pos hdir']
      have hold : L.isDir f.ent.flags = false := by
        rw [hdir'] at hdir
        simpa using hdir
      cases hmem : m.db with
      | none => exact Or.inl ⟨⟨hdir, Or.inl ⟨hdir', rfl⟩⟩, rfl⟩
      | some db =>
        obtain ⟨hfree, hpool⟩ := hdb db hmem
        dsimp only
        rw [hpool, if_neg (by simp)]
        dsimp only
        have hne : d ≠ db := by
          rintro rfl
          rw [ht] at hfree
          cases hfree
        rw [NsSpace.setDir_of_ne hne, ht]
        refine Or.inr ⟨?_, _, _, rfl, changed_made hs hp ht hok hfound hfree hb rfl rfl hold hdir' rfl⟩
        rintro ⟨-, ⟨-, h⟩ | ⟨h, -⟩⟩
        · cases h
        · rw [hdir'] at h
          cases h
    · rw [Bool.not_eq_true] at hdir'
      rw [hdir', if_neg (by simp)]
      have hold : L.isDir f.ent.flags = true := by
        rw [hdir'] at hdir
        simpa using hdir
      obtain ⟨c, hc⟩ := Option.isSome_iff_exists.mp (hchild.symm.trans hold)
      have hc' : (f.ent.buffer b).child = some c := hc
      have hatc : s.at (p ++ [n]) = some c := (at_found hp hfound).trans hc
      obtain ⟨tc, htc, hokc⟩ := hs.dir _ c hatc
      rw [hc']
      dsimp only
      rw [htc]
      dsimp only
      rcases nsBtEmpty_cases hokc.toDirOk with ⟨hempty, hnone⟩ | ⟨hfull, e, he⟩
      · have hnone' : ∀ x, s.entry c x = none := by
          intro x
          rw [NsSpace.entry_eq htc, hnone]
          rfl
        have hne : d ≠ c := by
          rintro rfl
          have h := hs.unshared p (p ++ [n]) d hp hatc
          exact absurd h.symm (by simp)
        rw [if_neg (by simp [hempty])]
        dsimp only
        rw [NsSpace.setDir_of_ne hne, ht]
        refine Or.inr ⟨?_, _, _, rfl, changed_cleared hs hp ht hok hfound hc hnone' hb rfl rfl hdir' rfl⟩
        rintro ⟨-, ⟨h, -⟩ | ⟨-, x, hx⟩⟩
        · cases h
        · rw [files_concat hatc, hnone'] at hx
          exact hx rfl
      · rw [if_pos hfull]
        refine Or.inl ⟨⟨by rw [hold]; simp, Or.inr ⟨rfl, e.name, ?_⟩⟩, rfl⟩
        rw [files_concat hatc, NsSpace.entry_eq htc]
        intro h
        rw [Option.map_eq_none_iff, List.find?_eq_none] at h
        exact h e he (by simp)

end Data

/-! ### An entry moved -/

section Move
variable {L : FlagLayout} {s : NsSpace} {m : NsMem} {d' : ℕ} {n base : List (BitVec 8)}
  {ent ent' : NsItem} {t' t'' : NsTree ItemChain} {p l : List (List (BitVec 8))}

/-- Below an entry that leads nowhere there is nothing. -/
theorem files_below (h : (s.under (p ++ [n])).bind NsItem.child = none) (hl : l ≠ []) :
    s.files (p ++ [n] ++ l) = none := by
  rcases List.eq_nil_or_concat l with rfl | ⟨l, x, rfl⟩
  · exact absurd rfl hl
  · unfold NsSpace.files NsSpace.under
    rw [List.concat_eq_append, ← List.append_assoc, under_eq_none_of_walk]
    · rfl
    · rw [walk_eq_under]
      exact h

theorem files_below_none (h : s.files (p ++ [n]) = none) (hl : l ≠ []) :
    s.files (p ++ [n] ++ l) = none := by
  refine files_below ?_ hl
  unfold NsSpace.files at h
  rw [Option.map_eq_none_iff] at h
  rw [h]
  rfl

variable (hs : NsOk L s) (hent : s.entry s.root n = some ent)
  (hok' : NsDirOk L t') (hentry : (s.setDir s.root (some t')).entry = relabel s.entry s.root n none)
include hs hent hok' hentry

omit hs hok' hentry in
theorem under_root : s.under [n] = some ent := by
  unfold NsSpace.under
  rw [← List.nil_append [n], under_concat]
  exact hent

omit hs hok' hentry in
theorem walk_root (l : List (List (BitVec 8))) : walk s.entry NsItem.child s.root (n :: l) =
    ent.child.bind fun c => walk s.entry NsItem.child c l := by
  rw [walk, hent]
  rfl

/-- **An entry of the root directory that was taken out is put in elsewhere**, with all below it. -/
theorem moved_ok (hp : s.at p = some d') (hapart : ¬ [n] <+: p)
    (hfree : (s.setDir s.root (some t')).entry d' base = none) (hok'' : NsDirOk L t'')
    (hnode : ent'.node = ent.node) (hchild : ent'.child = ent.child)
    (hentry' : ((s.setDir s.root (some t')).setDir d' (some t'')).entry =
      relabel (s.setDir s.root (some t')).entry d' base (some ent')) :
    NsOk L ((s.setDir s.root (some t')).setDir d' (some t'')) ∧
      (s.files (p ++ [base]) = none →
        ((s.setDir s.root (some t')).setDir d' (some t'')).files =
          s.files.move [n] (p ++ [base])) := by
  have hroot : s.at [] = some s.root := rfl
  have hs₁ := hs.dead hroot hok' hentry rfl
  have hfiles₁ := files_removed hs hroot hentry rfl
  rw [List.nil_append] at hfiles₁
  have hp₁ : (s.setDir s.root (some t')).at p = some d' := by
    unfold NsSpace.at at hp hroot ⊢
    rw [hentry, NsSpace.setDir_root, walk_relabel_elsewhere hs.unshared hroot hapart]
    exact hp
  have hn : s.files [n] = some ent.node := by
    unfold NsSpace.files
    rw [under_root hent]
    rfl
  cases hc : ent.child with
  | none =>
    -- nothing else moves
    have hsame : (some ent').bind NsItem.child =
        ((s.setDir s.root (some t')).entry d' base).bind NsItem.child := by
      rw [hfree]
      exact hchild.trans hc
    refine ⟨hs₁.same hok'' hentry' hsame, fun hnone => ?_⟩
    rw [files_same hs₁ hp₁ hentry' rfl hsame, hfiles₁]
    funext q
    unfold Files.set Files.move
    by_cases hq : q = p ++ [base]
    · rw [if_pos hq, hq, if_pos (List.prefix_refl _), List.drop_length, List.append_nil, hn, hnode]
    · rw [if_neg hq]
      by_cases hpre : (p ++ [base]) <+: q
      · obtain ⟨l, rfl⟩ := hpre
        have hl : l ≠ [] := by
          rintro rfl
          exact hq (List.append_nil _)
        have hgone : s.files ([n] ++ l) = none := by
          rw [← List.nil_append [n]]
          refine files_below ?_ hl
          rw [List.nil_append, under_root hent]
          exact hc
        rw [if_pos ⟨l, rfl⟩, List.drop_left, hgone]
        unfold Files.remove
        rw [files_below_none hnone hl, ite_self]
      · rw [if_neg hpre]
  | some c =>
    have hv : (some ent').bind NsItem.child = some c := hchild.trans hc
    -- the places below the entry, as they were and as they are
    have hbelow : ∀ l, s.at (n :: l) = walk s.entry NsItem.child c l := by
      intro l
      unfold NsSpace.at
      rw [walk_root hent, hc]
      rfl
    have hback : ∀ l, walk s.entry NsItem.child c l ≠ some s.root := by
      intro l h
      exact absurd (hs.unshared (n :: l) [] s.root ((hbelow l).trans h) rfl) (List.cons_ne_nil _ _)
    have hstay : ∀ l, walk (s.setDir s.root (some t')).entry NsItem.child c l =
        walk s.entry NsItem.child c l := by
      intro l
      rw [hentry, walk_relabel_apart hback]
    have hold : ∀ q x, (s.setDir s.root (some t')).at q = some x →
        s.at q = some x ∧ ¬ [n] <+: q := by
      intro q x hx
      unfold NsSpace.at at hx hroot ⊢
      rw [hentry, NsSpace.setDir_root] at hx
      by_cases hpre : [n] <+: q
      · obtain ⟨l, rfl⟩ := hpre
        rw [← List.nil_append [n], walk_relabel_through hs.unshared hroot] at hx
        cases hx
      · rw [walk_relabel_elsewhere hs.unshared hroot hpre] at hx
        exact ⟨hx, hpre⟩
    have hside : ∀ q l x, walk (s.setDir s.root (some t')).entry NsItem.child s.root q = some x →
        walk (s.setDir s.root (some t')).entry NsItem.child c l ≠ some x := by
      intro q l x hx hl
      rw [hstay, ← hbelow] at hl
      obtain ⟨hx', hpre⟩ := hold q x hx
      exact hpre (hs.unshared q (n :: l) x hx' hl ▸ ⟨l, rfl⟩)
    have hun : Unshared (s.setDir s.root (some t')).entry NsItem.child c := by
      intro l l' x hl hl'
      rw [hstay, ← hbelow] at hl hl'
      exact (List.cons.inj (hs.unshared _ _ x hl hl')).2
    refine ⟨NsOk.setDir hok'' hentry'
      (Unshared.relabel_graft hs₁.unshared hp₁ hv hside hun) fun q x hx _ => ?_, fun hnone => ?_⟩
    · by_cases hpre : (p ++ [base]) <+: q
      · obtain ⟨l, rfl⟩ := hpre
        rw [walk_relabel_graft hs₁.unshared hp₁ hv hside, hstay] at hx
        have hne : x ≠ s.root := by
          rintro rfl
          exact hback l hx
        rw [NsSpace.setDir_of_ne hne]
        exact hs.dir (n :: l) x ((hbelow l).trans hx)
      · rw [walk_relabel_elsewhere hs₁.unshared hp₁ hpre] at hx
        exact hs₁.dir q x hx
    · funext q
      rw [files_setDir hentry']
      unfold Files.move
      by_cases hpre : (p ++ [base]) <+: q
      · obtain ⟨l, rfl⟩ := hpre
        rw [if_pos ⟨l, rfl⟩, List.drop_left]
        by_cases hl : l = []
        · rw [hl, List.append_nil, List.append_nil, under_relabel_self hs₁.unshared hp₁, hn]
          exact congrArg some hnode
        · rw [under_relabel_graft hs₁.unshared hp₁ hv hside l hl, hentry, under_relabel_apart hback]
          unfold NsSpace.files NsSpace.under
          rcases List.eq_nil_or_concat l with rfl | ⟨l, x, rfl⟩
          · exact absurd rfl hl
          · rw [List.concat_eq_append, ← List.append_assoc, under_concat, under_concat,
              List.singleton_append, ← hbelow]
            rfl
      · rw [if_neg hpre, under_relabel_elsewhere hs₁.unshared hp₁ hpre, ← hfiles₁]
        rfl

end Move

end Mungi.Naming
