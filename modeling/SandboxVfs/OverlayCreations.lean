import SandboxVfs.HandleRoutes
import SandboxVfs.MergedListings

/-! Creating through an overlay, where every ancestor is in sight as a directory. -/

namespace SandboxVfs

open MemoryFS NameGraph

namespace MemoryFS

variable {m : MemoryState} {p : PathBuf}

theorem createNode_makes (h : m.fs.WF m.sys.nextNodeId) (hv : m.fs.Vacant (m.fs.resolveParent p.toAbs))
    (hg : m.sys.grants 1 = true) (kind : VfsEntryKind) (mode : Mode) :
    ∃ m', createNode m p.toAbs kind mode = (some m.sys.nextNodeId, m') ∧
      m'.fs.view p = some (m.sys.nextNodeId, kind == .dir, mode &&& 0o7777) := by
  rw [createNode_eq]
  obtain ⟨id, hid⟩ := Option.isSome_iff_exists.mp
    ((createAt_isSome_iff m (m.fs.resolveParent p.toAbs) kind mode).mpr ⟨hv, hg⟩)
  have hc : createAt m (m.fs.resolveParent p.toAbs) kind mode =
      (some id, (createAt m (m.fs.resolveParent p.toAbs) kind mode).2) := Prod.ext hid rfl
  obtain ⟨rfl, hadd⟩ := createAt_added h hc
  exact ⟨_, hc, hadd.view⟩

theorem openNode_makes (h : m.fs.WF m.sys.nextNodeId) (hv : m.fs.Vacant (m.fs.resolveParent p.toAbs))
    (hg : m.sys.grants 2 = true) {flags : Flags} (hc : flags.has O_CREAT = true)
    (hd : flags.has O_DIRECTORY = false) (mode : Mode) :
    0 ≤ (openNode m p.toAbs flags mode).1.fd ∧
      (openNode m p.toAbs flags mode).2.fs.view p =
        some (m.sys.nextNodeId, false, mode &&& 0o7777) := by
  have hp := ((h.vacant_iff p).mp hv).1
  obtain ⟨d, x, n, m', ht, he, hid, hmode, hcr, hfile, hgrants⟩ :=
    openAt_creates h hc hv (Sys.grants_mono hg (by omega)) mode
  obtain ⟨q, rfl, hq⟩ := resolveParent_toAbs_eq_some ht
  rw [openNode_eq, resolve_toAbs, hp, he, openFound_fs]
  constructor
  · rw [openFound_fd_nonneg_iff, CanOpen, hgrants, hd]
    exact ⟨by simp, hg⟩
  · have hdir : n.isDir = false := by
      have hself := hcr.isDir_eq n.id
      rwa [if_pos rfl, hfile, eq_comm] at hself
    rw [hcr.view h hid hq, addPath, if_pos rfl, hdir, hmode, hid]

end MemoryFS

variable {ι : Type} [DecidableEq ι]

namespace OverlayFS

variable {o : OverlayFS (MemoryRef ι)} {w w' : World ι} {p r : PathBuf}

structure Creatable (o : OverlayFS (MemoryRef ι)) (w : World ι) (p : PathBuf) : Prop where
  absent : LowLevelFS.access o.top w p.toAbs F_OK ≠ 0
  above : ∀ r, r <+: p → r ≠ p → o.ReportsDir w r

/-- The path `p` is new in the top layer, and so are those of its ancestors that the top
layer lacked. -/
structure CopiesUp (o : OverlayFS (MemoryRef ι)) (w w' : World ι) (p : PathBuf) (dir : Bool)
    (mode : Mode) : Prop where
  node : ∃ id, (∀ i, (w.fs i).inodeOf id = none) ∧
    (w'.fs o.top.index).view p = some (id, dir, mode &&& 0o7777) ∧
    (LowLevelFS.stat o w' p.toAbs).map Stat.object = some (id, if dir then .dir else .file)
  ancestors : ∀ r, r <+: p → r ≠ p →
    ∃ c, (w'.fs o.top.index).resolveNames r = some c ∧ (w'.fs o.top.index).isDir c = true
  added : ∀ r : PathBuf, LowLevelFS.access o.top w' r.toAbs F_OK = 0 ↔
    LowLevelFS.access o.top w r.toAbs F_OK = 0 ∨ r <+: p
  kept : ∀ r : PathBuf, LowLevelFS.access o.top w r.toAbs F_OK = 0 →
    (w'.fs o.top.index).view r = (w.fs o.top.index).view r
  lower : ∀ f ∈ o.lower, w'.fs f.index = w.fs f.index

theorem stat_of_top (h : (w.fs o.top.index).resolveNames r ≠ none) :
    LowLevelFS.stat o w r.toAbs = LowLevelFS.stat o.top w r.toAbs := by
  show LowLevelFS.stat (o.visibleLayer w r.toAbs) w r.toAbs = _
  rw [visibleLayer_of_top h]

theorem isDir_of_reportsDir (hw : w.WF) (hm : ∀ i, (w.fs i).ModesMasked) (h : o.ReportsDir w r)
    {c : NodeId} (hc : (w.fs o.top.index).resolveNames r = some c) :
    (w.fs o.top.index).isDir c = true := by
  have hst : ∃ st, LowLevelFS.stat o.top w r.toAbs = some st ∧ st.isDir = true := by
    rw [← stat_of_top (by simp [hc])]
    exact h
  obtain ⟨d, hd, hdir⟩ := (World.memory_stat_isDir_iff hw hm o.top r).mp hst
  cases hc.symm.trans hd
  exact hdir

theorem exists_lower_of_reportsDir (hw : w.WF) (hm : ∀ i, (w.fs i).ModesMasked)
    (h : o.ReportsDir w r) (hr : (w.fs o.top.index).resolveNames r = none) :
    ∃ g ∈ o.lower, (w.fs g.index).resolveNames r ≠ none := by
  obtain ⟨d, hd, -⟩ := (World.memory_stat_isDir_iff hw hm (o.visibleLayer w r.toAbs) r).mp h
  rcases List.mem_cons.mp (o.visibleLayer_mem w r.toAbs) with ht | hl
  · rw [ht, hr] at hd
    cases hd
  · exact ⟨_, hl, by simp [hd]⟩

namespace Creatable

theorem missing (h : o.Creatable w p) : (w.fs o.top.index).resolveNames p = none :=
  not_not.mp fun hp => h.absent ((access_toAbs _ _ _ _).mpr hp)

theorem ne_nil (hw : w.WF) (h : o.Creatable w p) : p ≠ [] := by
  rintro rfl
  cases (hw.fs o.top.index).resolveNames_nil.symm.trans h.missing

theorem parent_ne (hw : w.WF) (h : o.Creatable w p) : p.dropLast ≠ p := by
  intro he
  have hlen := congrArg List.length he
  have hpos := List.length_pos_iff.mpr (h.ne_nil hw)
  rw [List.length_dropLast] at hlen
  omega

theorem canMakeDirs (hw : w.WF) (hm : ∀ i, (w.fs i).ModesMasked)
    (hg : ∀ n, w.sys.grants n = true) (h : o.Creatable w p) (hr : r <+: p) (hne : r ≠ p) :
    CanMakeDirs (w.state o.top) r := by
  refine ⟨?_, hg _⟩
  intro s c hs hc
  have hsp : s ≠ p := by
    rintro rfl
    exact hne (hr.eq_of_length_le hs.length_le)
  exact isDir_of_reportsDir hw hm (h.above s (hs.trans hr) hsp) hc

theorem makesDir_iff (hw : w.WF) (hm : ∀ i, (w.fs i).ModesMasked)
    (hg : ∀ n, w.sys.grants n = true) (h : o.Creatable w p) :
    o.MakesDir w p r ↔ r <+: p ∧ r ≠ p ∧ (w.fs o.top.index).resolveNames r = none := by
  have hpre := List.dropLast_prefix p
  constructor
  · intro hr
    exact ⟨hr.2.1.trans hpre, makesDir_ne hw hr, hr.2.2.1⟩
  · rintro ⟨hr, hne, hnone⟩
    have hparent : r <+: p.dropLast := by
      obtain ⟨q, x, rfl⟩ := (List.eq_nil_or_concat p).resolve_left (h.ne_nil hw)
      rw [List.concat_eq_append] at hr hne ⊢
      rw [List.dropLast_concat]
      exact (List.prefix_concat_iff.mp hr).resolve_left hne
    have htop := (hw.fs o.top.index).resolveNames_none_below hparent hnone
    have hlow := exists_lower_of_reportsDir hw hm (h.above _ hpre (h.parent_ne hw)) htop
    exact ⟨⟨htop, hlow⟩, hparent, hnone, h.canMakeDirs hw hm hg hr hne⟩

theorem hasTopParent (hw : w.WF) (hm : ∀ i, (w.fs i).ModesMasked)
    (hg : ∀ n, w.sys.grants n = true) (h : o.Creatable w p) : o.HasTopParent w p := by
  have hpre := List.dropLast_prefix p
  have hne := h.parent_ne hw
  cases hd : (w.fs o.top.index).resolveNames p.dropLast with
  | some d => exact Or.inl ⟨d, hd, isDir_of_reportsDir hw hm (h.above _ hpre hne) hd⟩
  | none => exact Or.inr ((h.makesDir_iff hw hm hg).mpr ⟨hpre, hne, hd⟩)

end Creatable

theorem write_copiesUp (hw : w.WF) (hm : ∀ i, (w.fs i).ModesMasked) (hown : o.layers.Nodup)
    (hg : ∀ n, w.sys.grants n = true) (h : o.Creatable w p) {c : WriteCall} (hc : c.Writes)
    (hm' : ∀ i, ((o.write w p c).fs i).ModesMasked) {id : NodeId} {dir : Bool} {mode : Mode}
    (hid : w.sys.nextNodeId ≤ id)
    (hp : ((o.write w p c).fs o.top.index).view p = some (id, dir, mode &&& 0o7777)) :
    CopiesUp o w (o.write w p c) p dir mode := by
  have hgrows := write_grows hw o p c
  have hw' := hgrows.wf hw
  have hmade (r : PathBuf) := h.makesDir_iff (r := r) hw hm hg
  have hkept (r : PathBuf) (hr : (w.fs o.top.index).resolveNames r ≠ none) :
      ((o.write w p c).fs o.top.index).view r = (w.fs o.top.index).view r := by
    have hne : r ≠ p := by
      rintro rfl
      exact hr h.missing
    rw [write_view hw hc hne, ensured_view_of_exists hw hr]
  have hnew (r : PathBuf) (hr : o.MakesDir w p r) :
      ∃ d, ((o.write w p c).fs o.top.index).view r = some (d, true, 0o755) := by
    rw [write_view hw hc (makesDir_ne hw hr)]
    exact ensured_view_made hw hr
  constructor
  · refine ⟨id, fun i => (hw.fs i).heap_fresh hid, hp, ?_⟩
    rw [stat_of_top (by simp [(isDir_of_view hp).1]), World.memory_stat_object hw' hm',
      (hw'.fs _).objectAt_eq, hp]
    rfl
  · intro r hr hne
    cases hc : (w.fs o.top.index).resolveNames r with
    | some d =>
      obtain ⟨i, hi⟩ := Option.isSome_iff_exists.mp
        ((hw.fs o.top.index).mem_heap d ((hw.fs o.top.index).resolveNames_mem hc))
      have hdir := isDir_of_reportsDir hw hm (h.above r hr hne) hc
      have hview : (w.fs o.top.index).view r = some (d, true, i.mode) := by
        rw [isDir_eq_inode, hi] at hdir
        have hdir' : i.isDir = true := hdir
        simp [MemoryFS.view, hc, hi, hdir']
      exact ⟨d, isDir_of_view ((hkept r (by simp [hc])).trans hview)⟩
    | none =>
      obtain ⟨d, hd⟩ := hnew r ((hmade r).mpr ⟨hr, hne, hc⟩)
      exact ⟨d, isDir_of_view hd⟩
  · intro r
    have hthere : LowLevelFS.access o.top (o.write w p c) r.toAbs F_OK = 0 ↔
        ((o.write w p c).fs o.top.index).view r ≠ none :=
      (access_toAbs o.top (o.write w p c) r F_OK).trans
        (not_congr (hw'.fs o.top.index).view_eq_none_iff.symm)
    rw [hthere, access_toAbs]
    by_cases hr : (w.fs o.top.index).resolveNames r = none
    swap
    · refine iff_of_true ?_ (Or.inl hr)
      rw [hkept r hr]
      exact fun hv => hr ((hw.fs _).view_eq_none_iff.mp hv)
    simp only [hr, ne_eq, not_true_eq_false, false_or]
    by_cases hne : r = p
    · subst hne
      exact iff_of_true (by simp [hp]) List.prefix_rfl
    · by_cases hmk : o.MakesDir w p r
      · obtain ⟨d, hd⟩ := hnew r hmk
        exact iff_of_true (by simp [hd]) ((hmade r).mp hmk).1
      · rw [write_view hw hc hne, ensured_view_eq hw hmk, (hw.fs _).view_eq_none_iff]
        refine iff_of_false (fun hh => hh hr) ?_
        exact fun hpre => hmk ((hmade r).mpr ⟨hpre, hne, hr⟩)
  · intro r hr
    exact hkept r ((access_toAbs _ _ _ _).mp hr)
  · intro f hf
    have hne : f.index ∉ ({o.top.index} : Set ι) := by
      intro hi
      have hft : f = o.top := congrArg MemoryRef.mk hi
      exact top_not_mem_lower hown (hft ▸ hf)
    exact hgrows.fs_eq hne

/-- Both calls succeed and make what the top layer lacks on the way, and nothing else. -/
theorem creates_copiesUp (hw : w.WF) (hm : ∀ i, (w.fs i).ModesMasked) (hown : o.layers.Nodup)
    (hg : ∀ n, w.sys.grants n = true) (h : o.Creatable w p) (mode : Mode) :
    ((LowLevelFS.mkdir o w p.toAbs mode).1 = 0 ∧
      CopiesUp o w (LowLevelFS.mkdir o w p.toAbs mode).2 p true mode) ∧
    (0 ≤ (LowLevelFS.openWithHandle o w p.toAbs (O_CREAT ||| O_WRONLY) mode).1.fd ∧
      CopiesUp o w (LowLevelFS.openWithHandle o w p.toAbs (O_CREAT ||| O_WRONLY) mode).2 p false
        mode) := by
  have hgrows := World.ensureTopParentDirs_grows hw o p.toAbs
  have hnext : w.sys.nextNodeId ≤ (o.ensureTopParentDirs w p.toAbs).sys.nextNodeId :=
    hgrows.later.next
  have hwf := (hgrows.wf hw).fs o.top.index
  have hparent := h.hasTopParent hw hm hg
  have hvacant : ((o.ensureTopParentDirs w p.toAbs).fs o.top.index).Vacant
      (((o.ensureTopParentDirs w p.toAbs).fs o.top.index).resolveParent p.toAbs) :=
    (hwf.vacant_iff p).mpr ⟨ensured_missing hw h.missing, (ensured_hasParent_iff hw).mpr hparent⟩
  have hgrant (n : Nat) : (o.ensureTopParentDirs w p.toAbs).sys.grants n = true := by
    rw [ensured_grants_of_parent hw hparent]
    exact hg _
  constructor
  · obtain ⟨m', hmade, hview⟩ := createNode_makes
      (m := (o.ensureTopParentDirs w p.toAbs).state o.top) hwf hvacant (hgrant 1) .dir mode
    have hcall : LowLevelFS.mkdir o w p.toAbs mode =
        (0, (o.ensureTopParentDirs w p.toAbs).put o.top m') := by
      show (createdStatus (createNode ((o.ensureTopParentDirs w p.toAbs).state o.top) p.toAbs .dir
        mode).1, _) = _
      rw [hmade]
      rfl
    refine ⟨by rw [hcall], ?_⟩
    have hmasked : ∀ i, ((o.write w p (.mkdir mode)).fs i).ModesMasked :=
      step_kept modesMasked_keptByPath hw hm o (.mkdir p mode)
    refine write_copiesUp hw hm hown hg h (c := .mkdir mode) trivial hmasked hnext ?_
    rw [write, hcall, World.put_fs]
    exact hview
  · have hc : (O_CREAT ||| O_WRONLY).has O_CREAT = true := by decide
    have hd : (O_CREAT ||| O_WRONLY).has O_DIRECTORY = false := by decide
    have hwr : writes (O_CREAT ||| O_WRONLY) = true := by decide
    obtain ⟨hfd, hview⟩ := openNode_makes (m := (o.ensureTopParentDirs w p.toAbs).state o.top) hwf
      hvacant (hgrant 2) hc hd mode
    have hcall := write_open_eq (o := o) hwr w p mode
    refine ⟨by rw [hcall]; exact hfd, ?_⟩
    have hmasked : ∀ i, ((o.write w p (.openPath (O_CREAT ||| O_WRONLY) mode)).fs i).ModesMasked :=
      step_kept modesMasked_keptByPath hw hm o (.openPath p _ mode)
    refine write_copiesUp hw hm hown hg h (c := .openPath _ mode) hwr hmasked hnext ?_
    rw [write, hcall, World.put_fs]
    exact hview

theorem lowest_answer (n : Nat) (live : Finset Int) : 0 ≤ Kernel.lowest.answer n live := by
  have hfree : ∃ k ∈ List.range (live.card + 1), (k : Int) ∉ live := by
    by_contra hno
    push Not at hno
    have hsub : (Finset.range (live.card + 1)).image (Int.ofNat) ⊆ live := by
      intro z hz
      obtain ⟨k, hk, rfl⟩ := Finset.mem_image.mp hz
      exact hno k (List.mem_range.mpr (Finset.mem_range.mp hk))
    have hcard := Finset.card_le_card hsub
    rw [Finset.card_image_of_injective _ Int.ofNat_injective, Finset.card_range] at hcard
    omega
  have hfound : ((List.range (live.card + 1)).find? fun k : Nat => (k : Int) ∉ live).isSome = true := by
    rw [List.find?_isSome]
    simpa using hfree
  obtain ⟨m, hm⟩ := Option.isSome_iff_exists.mp hfound
  simp only [Kernel.lowest]
  rw [hm]
  exact Int.natCast_nonneg m

theorem lowest_grants {s : Sys} (hs : s.kernel = .lowest) (n : Nat) : s.grants n = true := by
  induction n generalizing s with
  | zero => rfl
  | succ n ih =>
    have hfd : 0 ≤ s.newFd.1 := by
      show 0 ≤ s.kernel.answer s.calls s.live
      rw [hs]
      exact lowest_answer _ _
    rw [Sys.grants, decide_eq_true hfd, Bool.true_and]
    exact ih hs

theorem baseDir_creatable : twoLayers.Creatable (baseDir 0o755) [.d, .a] := by
  refine ⟨by decide +kernel, ?_⟩
  have hdirs : ∀ r ∈ [FileName.d, .a].inits, r ≠ [.d, .a] →
      (LowLevelFS.stat twoLayers (baseDir 0o755) (PathBuf.toAbs r)).map Stat.isDir = some true := by
    decide +kernel
  intro r hr hne
  exact Option.map_eq_some_iff.mp (hdirs r ((List.mem_inits r _).mpr hr) hne)

theorem baseDir_copiesUp :
    CopiesUp twoLayers (baseDir 0o755)
      (LowLevelFS.mkdir twoLayers (baseDir 0o755) (PathBuf.toAbs [.d, .a]) 0o755).2
      [.d, .a] true 0o755 :=
  (creates_copiesUp (baseDir_wf 0o755) (baseDir_treeInv 0o755).masked (by decide)
    (lowest_grants rfl) baseDir_creatable 0o755).1.2

end OverlayFS

end SandboxVfs
