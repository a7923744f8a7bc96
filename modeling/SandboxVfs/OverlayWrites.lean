import SandboxVfs.ReadOnlyLayers
import SandboxVfs.StatModes
import SandboxVfs.TopParents

/-! What a write through an overlay does to the other paths: the directories made on
the way down take the place of those that the lower layers show. -/

namespace SandboxVfs

open MemoryFS NameGraph

namespace MemoryFS

variable {fs : MemoryFS} {next : NodeId}

theorem createNode_view {m : MemoryState} (h : m.fs.WF m.sys.nextNodeId) {p q : PathBuf}
    (hq : q ≠ p) (kind : VfsEntryKind) (mode : Mode) :
    (createNode m p.toAbs kind mode).2.fs.view q = m.fs.view q := by
  rw [createNode_eq]
  rcases createAt_cases h (m.fs.resolveParent p.toAbs) kind mode with
    ⟨sys', hc, -⟩ | ⟨m', d, x, n, hc, ht, hid, -, -, -, hcr⟩
  · rw [hc]
  · obtain ⟨pa, rfl, hd⟩ := resolveParent_toAbs_eq_some ht
    rw [hc, hcr.view h hid hd, addPath, if_neg hq]

theorem openNode_fs (m : MemoryState) (p : PathBuf) (flags : Flags) (mode : Mode) :
    (openNode m p.toAbs flags mode).2.fs =
      if m.fs.resolveNames p = none ∧ flags.has O_CREAT = true then
        (createNode m p.toAbs .file mode).2.fs
      else m.fs := by
  rw [openNode_eq, resolve_toAbs]
  cases m.fs.resolveNames p with
  | some node => rw [openAt_fs_some, if_neg (by simp)]
  | none => simp [openAt_fs_none, createNode_eq]

theorem openNode_view {m : MemoryState} (h : m.fs.WF m.sys.nextNodeId) {p q : PathBuf}
    (hq : q ≠ p) (flags : Flags) (mode : Mode) :
    (openNode m p.toAbs flags mode).2.fs.view q = m.fs.view q := by
  rw [openNode_fs]
  split_ifs
  · exact createNode_view h hq .file mode
  · rfl

end MemoryFS

variable {ι : Type} [DecidableEq ι]

namespace OverlayFS

variable {o : OverlayFS (MemoryRef ι)} {w w' : World ι} {p q : PathBuf}

def visibleView (o : OverlayFS (MemoryRef ι)) (w : World ι) (q : PathBuf) :
    Option (NodeId × Bool × Mode) :=
  (o.visibleFs w q).view q

theorem stat_mode (hw : w.WF) (o : OverlayFS (MemoryRef ι)) (q : PathBuf) :
    (LowLevelFS.stat o w q.toAbs).map (·.stMode) = (o.visibleView w q).map statMode :=
  World.memory_stat_mode hw (o.visibleLayer w q.toAbs) q

theorem visibleLayer_of_top (h : (w.fs o.top.index).resolveNames q ≠ none) :
    o.visibleLayer w q.toAbs = o.top :=
  if_pos ((access_toAbs _ _ _ _).mpr h)

theorem visibleLayer_congr
    (h : ∀ f ∈ o.layers, (w'.fs f.index).resolveNames q = (w.fs f.index).resolveNames q) :
    o.visibleLayer w' q.toAbs = o.visibleLayer w q.toAbs := by
  unfold visibleLayer
  have htop := h o.top (by simp [layers])
  cases hm : o.middle with
  | none => simp only [access_toAbs, htop]
  | some m =>
    have hmid := h m (by simp [layers, hm])
    simp only [access_toAbs, htop, hmid]

theorem visibleView_congr (hw : w.WF) (hw' : w'.WF)
    (h : ∀ f ∈ o.layers, (w'.fs f.index).view q = (w.fs f.index).view q) :
    o.visibleView w' q = o.visibleView w q := by
  have hlayer : o.visibleLayer w' q.toAbs = o.visibleLayer w q.toAbs := by
    refine visibleLayer_congr fun f hf => ?_
    rw [← (hw.fs _).view_node, ← (hw'.fs _).view_node, h f hf]
  rw [visibleView, visibleFs, hlayer]
  exact h _ (o.visibleLayer_mem w q.toAbs)

theorem access_iff_view (hw : w.WF) {mode : Int} :
    LowLevelFS.access o w q.toAbs mode = 0 ↔ o.visibleView w q ≠ none := by
  have ha : LowLevelFS.access o w q.toAbs mode = 0 ↔ (o.visibleFs w q).resolveNames q ≠ none :=
    access_toAbs (o.visibleLayer w q.toAbs) w q mode
  exact ha.trans (not_congr (hw.fs _).view_eq_none_iff.symm)

theorem exists_of_visible {f : MemoryRef ι} (hf : f ∈ o.layers)
    (h : (w.fs f.index).resolveNames q ≠ none) :
    (w.fs (o.visibleLayer w q.toAbs).index).resolveNames q ≠ none := by
  unfold visibleLayer
  simp only [access_toAbs]
  split_ifs with htop
  · exact htop
  · cases hm : o.middle with
    | none =>
      dsimp only
      have hfb : f = o.top ∨ f = o.base := by simpa [layers, hm] using hf
      rcases hfb with rfl | rfl
      · exact absurd h htop
      · exact h
    | some m =>
      dsimp only
      split_ifs with hmid
      · exact hmid
      · have hfb : f = o.top ∨ f = m ∨ f = o.base := by simpa [layers, hm] using hf
        rcases hfb with rfl | rfl | rfl
        · exact absurd h htop
        · exact absurd h hmid
        · exact h

inductive WriteCall where
  | mkdir (mode : Mode)
  | openPath (flags : Flags) (mode : Mode)

/-- A write bit is what `OverlayFS::open` looks for. -/
def WriteCall.Writes : WriteCall → Prop
  | .mkdir _ => True
  | .openPath flags _ => writes flags = true

def write (o : OverlayFS (MemoryRef ι)) (w : World ι) (p : PathBuf) : WriteCall → World ι
  | .mkdir mode => (LowLevelFS.mkdir o w p.toAbs mode).2
  | .openPath flags mode => (LowLevelFS.openWithHandle o w p.toAbs flags mode).2

theorem write_grows (hw : w.WF) (o : OverlayFS (MemoryRef ι)) (p : PathBuf) (c : WriteCall) :
    World.Grows {o.top.index} w (o.write w p c) := by
  cases c with
  | mkdir mode => exact Backend.overlay_mkdir hw o p.toAbs mode
  | openPath flags mode => exact (Backend.overlay_openWithHandle hw o p.toAbs flags mode).1

/-- Apart from the path itself, a write shows in the top layer what the loop over the
parents has made. -/
theorem write_view (hw : w.WF) {c : WriteCall} (hc : c.Writes) (hq : q ≠ p) :
    ((o.write w p c).fs o.top.index).view q =
      ((o.ensureTopParentDirs w p.toAbs).fs o.top.index).view q := by
  have hwf := ((World.ensureTopParentDirs_grows hw o p.toAbs).wf hw).fs o.top.index
  cases c with
  | mkdir mode =>
    show (((o.ensureTopParentDirs w p.toAbs).put o.top
      (createNode ((o.ensureTopParentDirs w p.toAbs).state o.top) p.toAbs .dir mode).2).fs
        o.top.index).view q = _
    rw [World.put_fs]
    exact createNode_view (m := (o.ensureTopParentDirs w p.toAbs).state o.top) hwf hq .dir mode
  | openPath flags mode =>
    have he : LowLevelFS.openWithHandle o w p.toAbs flags mode =
        LowLevelFS.openWithHandle o.top (o.ensureTopParentDirs w p.toAbs) p.toAbs flags mode :=
      if_pos hc
    rw [write, he]
    show (((o.ensureTopParentDirs w p.toAbs).put o.top
      (openNode ((o.ensureTopParentDirs w p.toAbs).state o.top) p.toAbs flags mode).2).fs
        o.top.index).view q = _
    rw [World.put_fs]
    exact openNode_view (m := (o.ensureTopParentDirs w p.toAbs).state o.top) hwf hq flags mode

omit [DecidableEq ι] in
theorem makesDir_ne (hw : w.WF) {r : PathBuf} (h : o.MakesDir w p r) : r ≠ p := by
  rintro rfl
  by_cases hr : r = []
  · subst hr
    have hroot := (hw.fs o.top.index).resolveNames_nil
    exact absurd (hroot.symm.trans h.2.2.1) (by simp)
  · exact not_makesDir_self hr w h

theorem makesDir_visible (hw : w.WF) {r : PathBuf} (h : o.MakesDir w p r) {mode : Int} :
    LowLevelFS.access o w r.toAbs mode = 0 := by
  obtain ⟨⟨-, g, hg, hlow⟩, hpre, -, -⟩ := h
  rw [access_iff_view hw, visibleView, visibleFs, ne_eq, (hw.fs _).view_eq_none_iff]
  refine exists_of_visible (List.mem_cons_of_mem o.top hg) ?_
  exact fun hnone => hlow ((hw.fs g.index).resolveNames_none_below hpre hnone)

theorem write_visibleView_eq (hw : w.WF) (hown : o.layers.Nodup) {c : WriteCall} (hc : c.Writes)
    (hq : q ≠ p) (h : ¬ o.MakesDir w p q) :
    o.visibleView (o.write w p c) q = o.visibleView w q := by
  have hgrows := write_grows hw o p c
  refine visibleView_congr hw (hgrows.wf hw) ?_
  intro f hf
  rcases List.mem_cons.mp hf with rfl | hf
  · rw [write_view hw hc hq, ensured_view_eq hw h]
  · have hne : f.index ∉ ({o.top.index} : Set ι) := by
      intro hi
      have hft : f = o.top := congrArg MemoryRef.mk hi
      exact top_not_mem_lower hown (hft ▸ hf)
    rw [hgrows.fs_eq hne]

theorem write_visibleView_made (hw : w.WF) {c : WriteCall} (hc : c.Writes)
    (h : o.MakesDir w p q) :
    ∃ id, o.visibleView (o.write w p c) q = some (id, true, 0o755) := by
  obtain ⟨id, hid⟩ := ensured_view_made hw h
  have hv := (write_view (c := c) hw hc (makesDir_ne hw h)).trans hid
  have htop : o.visibleLayer (o.write w p c) q.toAbs = o.top := by
    refine visibleLayer_of_top ?_
    rw [(isDir_of_view hv).1]
    simp
  refine ⟨id, ?_⟩
  rw [visibleView, visibleFs, htop, hv]

/-- What was visible at other paths still is, and `stat` reports the same kind and mode. -/
def KeepsOthers (o : OverlayFS (MemoryRef ι)) (w w' : World ι) (p : PathBuf) : Prop :=
  ∀ q, q ≠ p → LowLevelFS.access o w q.toAbs F_OK = 0 →
    LowLevelFS.access o w' q.toAbs F_OK = 0 ∧
      (LowLevelFS.stat o w' q.toAbs).map (·.stMode) = (LowLevelFS.stat o w q.toAbs).map (·.stMode)

/-- A write leaves the other paths as they were if and only if every directory that it
makes on the way was visible as a directory of mode 0755. -/
theorem write_keepsOthers_iff (hw : w.WF) (hown : o.layers.Nodup) (p : PathBuf) (c : WriteCall)
    (hc : c.Writes) :
    KeepsOthers o w (o.write w p c) p ↔
      ∀ r, o.MakesDir w p r →
        (LowLevelFS.stat o w r.toAbs).map (·.stMode) = some (S_IFDIR ||| 0o755) := by
  have hw' := (write_grows hw o p c).wf hw
  have hmade (r : PathBuf) (hr : o.MakesDir w p r) :
      LowLevelFS.access o (o.write w p c) r.toAbs F_OK = 0 ∧
        (LowLevelFS.stat o (o.write w p c) r.toAbs).map (·.stMode) =
          some (S_IFDIR ||| 0o755) := by
    obtain ⟨id, hv⟩ := write_visibleView_made hw hc hr
    rw [access_iff_view hw', stat_mode hw', hv]
    exact ⟨by simp, rfl⟩
  constructor
  · intro hk r hr
    have hvis : LowLevelFS.access o w r.toAbs F_OK = 0 := makesDir_visible hw hr
    exact (hk r (makesDir_ne hw hr) hvis).2.symm.trans (hmade r hr).2
  · intro h q hq hvis
    by_cases hr : o.MakesDir w p q
    · exact ⟨(hmade q hr).1, (hmade q hr).2.trans (h q hr).symm⟩
    · have hv := write_visibleView_eq hw hown hc hq hr
      rw [access_iff_view hw', stat_mode hw', stat_mode hw, hv]
      exact ⟨(access_iff_view hw).mp hvis, rfl⟩

def baseDir (mode : Mode) : World (Fin 2) :=
  (LowLevelFS.mkdir World.snd (World.fresh 2 .boot) (PathBuf.toAbs [.d]) mode).2

theorem baseDir_wf (mode : Mode) : (baseDir mode).WF :=
  (World.memory_mkdir (World.fresh_wf 2 .boot) _ _ _).wf (World.fresh_wf 2 .boot)

theorem keepsOthers_baseDir :
    KeepsOthers twoLayers (baseDir 0o755)
      (twoLayers.write (baseDir 0o755) [.d, .a] (.openPath (O_CREAT ||| O_WRONLY) 0o644))
      [.d, .a] := by
  have hstat : ∀ r ∈ [FileName.d].inits,
      (LowLevelFS.stat twoLayers (baseDir 0o755) (PathBuf.toAbs r)).map (·.stMode) =
        some (S_IFDIR ||| 0o755) := by decide +kernel
  refine (write_keepsOthers_iff (baseDir_wf 0o755) (by decide) [.d, .a]
    (.openPath (O_CREAT ||| O_WRONLY) 0o644) (by show writes _ = true; decide)).mpr ?_
  intro r hr
  exact hstat r ((List.mem_inits r _).mpr hr.2.1)

/-- The new `/d` of the top layer has the mode 0755. -/
theorem not_keepsOthers_baseDir :
    (LowLevelFS.openWithHandle twoLayers (baseDir 0o700) (PathBuf.toAbs [.d, .a])
        (O_CREAT ||| O_WRONLY) 0o644).1.fd = 8 ∧
      ¬ KeepsOthers twoLayers (baseDir 0o700)
        (twoLayers.write (baseDir 0o700) [.d, .a] (.openPath (O_CREAT ||| O_WRONLY) 0o644))
        [.d, .a] := by
  refine ⟨by decide +kernel, ?_⟩
  intro h
  exact absurd (h [.d] (by decide) (by decide +kernel)).2 (by decide +kernel)

end OverlayFS

end SandboxVfs
