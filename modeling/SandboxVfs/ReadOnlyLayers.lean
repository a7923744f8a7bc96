import SandboxVfs.VfsSteps
import SandboxVfs.NamespaceView

/-! An overlay and its lower layers. Which calls leave these as they were is
decided call by call, and then for runs. -/

namespace SandboxVfs

open MemoryFS OverlayFS

variable {ι : Type} [DecidableEq ι]

namespace OverlayFS

def lowerViews (o : OverlayFS (MemoryRef ι)) (w : World ι) :
    List (PathBuf → Option (NodeId × Bool × Mode)) :=
  o.lower.map fun f => (w.fs f.index).view

def missingInTop (o : OverlayFS (MemoryRef ι)) (w : World ι) (p : PathBuf) : Prop :=
  LowLevelFS.access o.top w p.toAbs F_OK ≠ 0

def visibleFs (o : OverlayFS (MemoryRef ι)) (w : World ι) (p : PathBuf) : MemoryFS :=
  w.fs (o.visibleLayer w p.toAbs).index

def RemovesBelow (o : OverlayFS (MemoryRef ι)) (w : World ι) (p : PathBuf)
    (kind : VfsEntryKind) : Prop :=
  o.missingInTop w p ∧ (o.visibleFs w p).CanRemove p kind

def MovesBelow (o : OverlayFS (MemoryRef ι)) (w : World ι) (old new : PathBuf) : Prop :=
  o.missingInTop w old ∧ (o.visibleFs w old).CanMove old new

def SetsModeBelow (o : OverlayFS (MemoryRef ι)) (w : World ι) (p : PathBuf) (mode : Mode) :
    Prop :=
  o.missingInTop w p ∧ (o.visibleFs w p).SetsMode p mode

variable {o : OverlayFS (MemoryRef ι)} {w w' : World ι}

theorem visibleLayer_mem_lower {p : PathBuf} (h : o.missingInTop w p) :
    o.visibleLayer w p.toAbs ∈ o.lower := by
  unfold visibleLayer lower
  rw [if_neg h]
  cases o.middle with
  | none => simp
  | some middle =>
    dsimp only
    split_ifs <;> simp

theorem actingLayer_eq_top {p : AbsPath} (h : LowLevelFS.access o.top w p F_OK = 0) :
    o.actingLayer w p = o.top := if_pos h

theorem actingLayer_eq_visible {p : PathBuf} (h : o.missingInTop w p) :
    o.actingLayer w p.toAbs = o.visibleLayer w p.toAbs := if_neg h

omit [DecidableEq ι] in
theorem top_not_mem_lower (hown : o.layers.Nodup) : o.top ∉ o.lower :=
  (List.nodup_cons.mp hown).1

omit [DecidableEq ι] in
theorem lowerViews_congr (h : ∀ f ∈ o.lower, (w'.fs f.index).view = (w.fs f.index).view) :
    o.lowerViews w' = o.lowerViews w :=
  List.map_congr_left h

omit [DecidableEq ι] in
theorem lowerViews_top (hown : o.layers.Nodup) (h : World.Changes {o.top.index} w w') :
    o.lowerViews w' = o.lowerViews w := by
  apply lowerViews_congr
  intro f hf
  rw [h.fs_eq]
  intro he
  have hft : f = o.top := congrArg MemoryRef.mk he
  exact top_not_mem_lower hown (hft ▸ hf)

theorem lowerViews_putFs {f : MemoryRef ι} (hf : f ∈ o.lower) (fs : MemoryFS) :
    o.lowerViews (w.putFs f fs) = o.lowerViews w ↔ fs.view = (w.fs f.index).view := by
  constructor
  · intro h
    have hh := List.map_inj_left.mp h f hf
    rwa [World.putFs_fs] at hh
  · intro h
    apply lowerViews_congr
    intro g _
    by_cases hg : g.index = f.index
    · rw [hg, World.putFs_fs, h]
    · rw [World.putFs_fs_ne w f fs hg]

theorem lowerViews_put {f : MemoryRef ι} (hf : f ∈ o.lower) (m : MemoryState) :
    o.lowerViews (w.put f m) = o.lowerViews w ↔ m.fs.view = (w.fs f.index).view :=
  lowerViews_putFs hf m.fs

theorem lowerViews_put_other {f : MemoryRef ι} (hf : f ∉ o.lower)
    (m : MemoryState) : o.lowerViews (w.put f m) = o.lowerViews w := by
  apply lowerViews_congr
  intro g hg
  rw [World.put_fs_ne w f m]
  intro he
  have hgf : g = f := congrArg MemoryRef.mk he
  exact hf (hgf ▸ hg)

theorem remove_lowerViews_iff (hw : w.WF) (hown : o.layers.Nodup) (p : PathBuf)
    (kind : VfsEntryKind) :
    o.lowerViews (w.putFs (o.actingLayer w p.toAbs)
        ((w.fs (o.actingLayer w p.toAbs).index).removeNodeAt p.toAbs kind).2) = o.lowerViews w ↔
      ¬ o.RemovesBelow w p kind := by
  by_cases ht : o.missingInTop w p
  · rw [actingLayer_eq_visible ht, lowerViews_putFs (visibleLayer_mem_lower ht),
      remove_view_iff (hw.fs _)]
    exact not_congr ⟨fun h => ⟨ht, h⟩, fun h => h.2⟩
  · have hacc : LowLevelFS.access o.top w p.toAbs F_OK = 0 := not_not.mp ht
    rw [actingLayer_eq_top hacc]
    exact iff_of_true (lowerViews_top hown (World.memory_remove hw o.top p.toAbs kind))
      fun h => ht h.1

theorem rename_world (f : MemoryRef ι) (w : World ι) (oldPath newPath : AbsPath) :
    (LowLevelFS.rename f w oldPath newPath).2 =
      w.putFs f (((w.fs f.index).renameNodeAt oldPath newPath).getD (w.fs f.index)) := by
  cases he : (w.fs f.index).renameNodeAt oldPath newPath with
  | none => simp [LowLevelFS.rename, he]
  | some fs' => simp [LowLevelFS.rename, he]

theorem chmod_world (f : MemoryRef ι) (w : World ι) (path : AbsPath) (mode : Mode) :
    (LowLevelFS.chmod f w path mode).2 =
      w.putFs f (((w.fs f.index).chmod path mode).getD (w.fs f.index)) := by
  cases he : (w.fs f.index).chmod path mode with
  | none => simp [LowLevelFS.chmod, he]
  | some fs' => simp [LowLevelFS.chmod, he]

theorem rename_lowerViews_iff (hw : w.WF) (hown : o.layers.Nodup) (old new : PathBuf) :
    o.lowerViews (LowLevelFS.rename o w old.toAbs new.toAbs).2 = o.lowerViews w ↔
      ¬ o.MovesBelow w old new := by
  by_cases ht : o.missingInTop w old
  · have he : LowLevelFS.rename o w old.toAbs new.toAbs =
        LowLevelFS.rename (o.visibleLayer w old.toAbs) w old.toAbs new.toAbs := if_neg ht
    rw [he, rename_world, lowerViews_putFs (visibleLayer_mem_lower ht), rename_view_iff (hw.fs _)]
    exact not_congr ⟨fun h => ⟨ht, h⟩, fun h => h.2⟩
  · have he : LowLevelFS.rename o w old.toAbs new.toAbs =
        LowLevelFS.rename o.top (o.ensureTopParentDirs w new.toAbs) old.toAbs new.toAbs :=
      if_pos (not_not.mp ht)
    have hp := World.ensureTopParentDirs_grows hw o new.toAbs
    rw [he]
    exact iff_of_true
      (lowerViews_top hown (hp.changes.trans (World.memory_rename (hp.wf hw) o.top old.toAbs new.toAbs)))
      fun h => ht h.1

theorem chmod_lowerViews_iff (hw : w.WF) (hown : o.layers.Nodup) (p : PathBuf) (mode : Mode) :
    o.lowerViews (LowLevelFS.chmod o w p.toAbs mode).2 = o.lowerViews w ↔
      ¬ o.SetsModeBelow w p mode := by
  have he : LowLevelFS.chmod o w p.toAbs mode =
      LowLevelFS.chmod (o.visibleLayer w p.toAbs) w p.toAbs mode := rfl
  rw [he]
  by_cases ht : o.missingInTop w p
  · rw [chmod_world, lowerViews_putFs (visibleLayer_mem_lower ht), chmod_view_iff (hw.fs _)]
    exact not_congr ⟨fun h => ⟨ht, h⟩, fun h => h.2⟩
  · have hvis : o.visibleLayer w p.toAbs = o.top := if_pos (not_not.mp ht)
    rw [hvis]
    exact iff_of_true (lowerViews_top hown (World.memory_chmod o.top p.toAbs mode))
      fun h => ht h.1

def twoLayers : OverlayFS (MemoryRef (Fin 2)) := { top := World.fst, middle := none, base := World.snd }

def baseOnly : World (Fin 2) :=
  (LowLevelFS.openWithHandle World.snd (World.fresh 2 .boot)
    (PathBuf.toAbs [.a]) O_CREAT 0o644).2

theorem baseOnly_wf : baseOnly.WF :=
  (World.memory_openWithHandle (World.fresh_wf 2 .boot) _ _ _ _).1.wf (World.fresh_wf 2 .boot)

end OverlayFS

namespace Vfs

/-- The calls that an overlay at the root passes on to a lower layer, where they
succeed: by path what the top layer has not, by handle what was opened below. -/
def ChangesBelow (o : OverlayFS (MemoryRef ι)) (v : Vfs ι) : VfsOp → Prop
  | .unlink path => o.RemovesBelow v.world (v.resolvePath path) .file
  | .rmdir path => o.RemovesBelow v.world (v.resolvePath path) .dir
  | .unlinkat dirfd path flags =>
    ∃ p, v.resolveOpenatPath dirfd path = some p ∧
      o.RemovesBelow v.world p (if flags.has AT_REMOVEDIR then .dir else .file)
  | .rename oldPath newPath =>
    o.MovesBelow v.world (v.resolvePath oldPath) (v.resolvePath newPath)
  | .renameat oldDirfd oldPath newDirfd newPath =>
    ∃ old new, v.resolveOpenatPath oldDirfd oldPath = some old ∧
      v.resolveOpenatPath newDirfd newPath = some new ∧ o.MovesBelow v.world old new
  | .chmod path mode => o.SetsModeBelow v.world (v.resolvePath path) mode
  | .openat dirfd path flags _ =>
    ∃ p h, path = .rel p ∧ v.handleOf dirfd = some h ∧ h.nodes ∈ o.lower ∧
      (v.world.fs h.nodes.index).resolveRelative h.node p = none ∧ flags.has O_CREAT = true ∧
      CanCreate (v.world.state h.nodes)
        ((v.world.fs h.nodes.index).resolveRelativeParent h.node p)
  | .mkdirat dirfd path _ =>
    ∃ p h, path = .rel p ∧ v.handleOf dirfd = some h ∧ h.nodes ∈ o.lower ∧
      CanCreate (v.world.state h.nodes)
        ((v.world.fs h.nodes.index).resolveRelativeParent h.node p)
  | _ => False

variable {o : OverlayFS (MemoryRef ι)} {v : Vfs ι}

/-- An overlay as the root, and nothing else mounted. -/
structure OverlayRoot (o : OverlayFS (MemoryRef ι)) (v : Vfs ι) : Prop where
  wf : v.WF
  root : v.root = .overlay o
  mounts : ∀ p, v.mounts p = none

theorem OverlayRoot.step (hv : OverlayRoot o v) (op : VfsOp) : OverlayRoot o (v.step op) := by
  have hs := step_spec hv.wf op
  exact ⟨hs.wf hv.wf, hs.root_eq.trans hv.root, fun p => by rw [hs.mounts_eq, hv.mounts p]⟩

omit [DecidableEq ι] in
theorem OverlayRoot.absolutePathToFs (hv : OverlayRoot o v) (p : PathBuf) :
    v.absolutePathToFs p = (none, p) :=
  v.absolutePathToFs_of_no_mounts hv.mounts p

omit [DecidableEq ι] in
theorem OverlayRoot.dispatch_world (hv : OverlayRoot o v)
    (op : Backend ι → World ι → AbsPath → Int × World ι) (p : PathBuf) :
    (v.dispatch op p).2.world = (op (.overlay o) v.world p.toAbs).2 := by
  rw [v.dispatch_of_no_mounts hv.mounts, hv.root]
  rfl

theorem OverlayRoot.remove_iff (hv : OverlayRoot o v) (hown : o.layers.Nodup) (p : PathBuf) :
    (o.lowerViews (v.dispatch LowLevelFS.unlink p).2.world = o.lowerViews v.world ↔
        ¬ o.RemovesBelow v.world p .file) ∧
      (o.lowerViews (v.dispatch LowLevelFS.rmdir p).2.world = o.lowerViews v.world ↔
        ¬ o.RemovesBelow v.world p .dir) := by
  rw [hv.dispatch_world, hv.dispatch_world]
  exact ⟨OverlayFS.remove_lowerViews_iff hv.wf.world hown p .file,
    OverlayFS.remove_lowerViews_iff hv.wf.world hown p .dir⟩

theorem OverlayRoot.rename_iff (hv : OverlayRoot o v) (hown : o.layers.Nodup)
    (old new : PathBuf) :
    o.lowerViews (v.renameVirtual old new).2.world = o.lowerViews v.world ↔
      ¬ o.MovesBelow v.world old new := by
  simp only [RootVFS.renameVirtual, hv.absolutePathToFs, RootVFS.fsAt, hv.root, ne_eq,
    not_true_eq_false, if_false]
  exact OverlayFS.rename_lowerViews_iff hv.wf.world hown old new

theorem OverlayRoot.openVirtual_top (hv : OverlayRoot o v) (hown : o.layers.Nodup) (p : PathBuf)
    (flags : Flags) (mode : Mode) :
    o.lowerViews (v.openVirtual p flags mode).2.world = o.lowerViews v.world := by
  have hw : (v.openVirtual p flags mode).2.world =
      (LowLevelFS.openWithHandle o v.world p.toAbs flags mode).2 := by
    simp only [RootVFS.openVirtual, hv.absolutePathToFs, RootVFS.fsAt, hv.root,
      RootVFS.trackOpen_world]
    rfl
  rw [hw]
  exact OverlayFS.lowerViews_top hown (Backend.overlay_openWithHandle hv.wf.world o _ _ _).1.changes

theorem OverlayRoot.mkdir_top (hv : OverlayRoot o v) (hown : o.layers.Nodup) (p : PathBuf)
    (mode : Mode) :
    o.lowerViews (v.dispatch (fun fs w p => LowLevelFS.mkdir fs w p mode) p).2.world =
      o.lowerViews v.world := by
  rw [hv.dispatch_world]
  exact OverlayFS.lowerViews_top hown (Backend.overlay_mkdir hv.wf.world o p.toAbs mode).changes

theorem openat_lowerViews_iff (hv : OverlayRoot o v) (hown : o.layers.Nodup) (dirfd : Int)
    (path : Path) (flags : Flags) (mode : Mode) :
    o.lowerViews (v.openat dirfd path flags mode).2.world = o.lowerViews v.world ↔
      ¬ ChangesBelow o v (.openat dirfd path flags mode) := by
  cases path with
  | abs p =>
    rw [RootVFS.openat_abs]
    exact iff_of_true (hv.openVirtual_top hown _ flags mode) (by simp [ChangesBelow])
  | rel p =>
    cases hh : v.handleOf dirfd with
    | none =>
      rw [RootVFS.openat_of_no_handle hh]
      refine iff_of_true ?_ (by simp [ChangesBelow, hh])
      cases v.resolveOpenatPath dirfd (.rel p) with
      | none => rfl
      | some path => exact hv.openVirtual_top hown path flags mode
    | some h =>
      obtain ⟨path, -, he⟩ := RootVFS.openat_of_handle hh p flags mode rfl
      rw [he, RootVFS.trackOpen_world]
      have hworld := congrArg Prod.snd
        (openNodeRelative_eq (v.world.state h.nodes) h.node p flags mode)
      have hb : ChangesBelow o v (.openat dirfd (.rel p) flags mode) ↔ h.nodes ∈ o.lower ∧
          (v.world.fs h.nodes.index).resolveRelative h.node p = none ∧
          flags.has O_CREAT = true ∧ CanCreate (v.world.state h.nodes)
            ((v.world.fs h.nodes.index).resolveRelativeParent h.node p) := by
        simp [ChangesBelow, hh]
      show o.lowerViews (v.world.put h.nodes _) = _ ↔ _
      rw [hworld, hb]
      by_cases hl : h.nodes ∈ o.lower
      · rw [OverlayFS.lowerViews_put hl]
        refine (openAt_view_iff (hv.wf.world.fs h.nodes.index) _ _ _ _).trans ?_
        exact not_congr ⟨fun hc => ⟨hl, hc⟩, fun hc => hc.2⟩
      · exact iff_of_true (OverlayFS.lowerViews_put_other hl _) fun hc => hl hc.1

theorem mkdirat_lowerViews_iff (hv : OverlayRoot o v) (hown : o.layers.Nodup) (dirfd : Int)
    (path : Path) (mode : Mode) :
    o.lowerViews (v.mkdirat dirfd path mode).2.world = o.lowerViews v.world ↔
      ¬ ChangesBelow o v (.mkdirat dirfd path mode) := by
  cases path with
  | abs p =>
    rw [RootVFS.mkdirat_abs]
    exact iff_of_true (hv.mkdir_top hown _ mode) (by simp [ChangesBelow])
  | rel p =>
    cases hh : v.handleOf dirfd with
    | none =>
      rw [RootVFS.mkdirat_of_no_handle hh]
      refine iff_of_true ?_ (by simp [ChangesBelow, hh])
      cases v.resolveOpenatPath dirfd (.rel p) with
      | none => rfl
      | some path => exact hv.mkdir_top hown path mode
    | some h =>
      rw [RootVFS.mkdirat_of_handle hh p mode rfl]
      have hworld := congrArg Prod.snd
        (createRelativeNode_eq (v.world.state h.nodes) h.node p .dir mode)
      have hb : ChangesBelow o v (.mkdirat dirfd (.rel p) mode) ↔ h.nodes ∈ o.lower ∧
          CanCreate (v.world.state h.nodes)
            ((v.world.fs h.nodes.index).resolveRelativeParent h.node p) := by
        simp [ChangesBelow, hh]
      show o.lowerViews (v.world.put h.nodes _) = _ ↔ _
      rw [hworld, hb]
      by_cases hl : h.nodes ∈ o.lower
      · rw [OverlayFS.lowerViews_put hl]
        refine (createAt_view_iff (hv.wf.world.fs h.nodes.index) _ _ _).trans ?_
        exact not_congr ⟨fun hc => ⟨hl, hc⟩, fun hc => hc.2⟩
      · exact iff_of_true (OverlayFS.lowerViews_put_other hl _) fun hc => hl hc.1

theorem unlinkat_lowerViews_iff (hv : OverlayRoot o v) (hown : o.layers.Nodup) (dirfd : Int)
    (path : Path) (flags : Flags) :
    o.lowerViews (v.unlinkat dirfd path flags).2.world = o.lowerViews v.world ↔
      ¬ ChangesBelow o v (.unlinkat dirfd path flags) := by
  cases hp : v.resolveOpenatPath dirfd path with
  | none => simp [RootVFS.unlinkat, ChangesBelow, hp]
  | some p =>
    by_cases hf : flags.has AT_REMOVEDIR = true
    · simpa [RootVFS.unlinkat, ChangesBelow, hp, hf] using (hv.remove_iff hown p).2
    · simpa [RootVFS.unlinkat, ChangesBelow, hp, hf] using (hv.remove_iff hown p).1

theorem renameat_lowerViews_iff (hv : OverlayRoot o v) (hown : o.layers.Nodup)
    (oldDirfd : Int) (oldPath : Path) (newDirfd : Int) (newPath : Path) :
    o.lowerViews (v.renameat oldDirfd oldPath newDirfd newPath).2.world = o.lowerViews v.world ↔
      ¬ ChangesBelow o v (.renameat oldDirfd oldPath newDirfd newPath) := by
  cases hold : v.resolveOpenatPath oldDirfd oldPath with
  | none => simp [RootVFS.renameat, ChangesBelow, hold]
  | some old =>
    cases hnew : v.resolveOpenatPath newDirfd newPath with
    | none => simp [RootVFS.renameat, ChangesBelow, hold, hnew]
    | some new =>
      simpa [RootVFS.renameat, ChangesBelow, hold, hnew] using hv.rename_iff hown old new

theorem step_lowerViews_iff (hv : OverlayRoot o v) (hown : o.layers.Nodup) (op : VfsOp) :
    o.lowerViews (v.step op).world = o.lowerViews v.world ↔ ¬ ChangesBelow o v op := by
  cases op with
  | openPath path flags mode => exact iff_of_true (hv.openVirtual_top hown _ flags mode) id
  | openat dirfd path flags mode => exact openat_lowerViews_iff hv hown dirfd path flags mode
  | mkdir path mode => exact iff_of_true (hv.mkdir_top hown _ mode) id
  | mkdirat dirfd path mode => exact mkdirat_lowerViews_iff hv hown dirfd path mode
  | unlink path => exact (hv.remove_iff hown _).1
  | unlinkat dirfd path flags => exact unlinkat_lowerViews_iff hv hown dirfd path flags
  | rmdir path => exact (hv.remove_iff hown _).2
  | rename oldPath newPath =>
    refine (renameat_lowerViews_iff hv hown AT_FDCWD oldPath AT_FDCWD newPath).trans ?_
    simp [ChangesBelow, RootVFS.resolveOpenatPath_cwd]
  | renameat oldDirfd oldPath newDirfd newPath =>
    exact renameat_lowerViews_iff hv hown oldDirfd oldPath newDirfd newPath
  | chmod path mode =>
    show o.lowerViews (v.dispatch _ _).2.world = _ ↔ _
    rw [hv.dispatch_world]
    exact OverlayFS.chmod_lowerViews_iff hv.wf.world hown _ mode
  | forgetFd fd => exact iff_of_true rfl id
  | cloneFd oldfd newfd =>
    refine iff_of_true ?_ id
    show o.lowerViews (v.cloneFd oldfd newfd).world = _
    rw [RootVFS.cloneFd_world]
  | setCwd path => exact iff_of_true rfl id
  | getdents64 fd dirpIsNull count =>
    refine iff_of_true ?_ id
    rcases getdents64_step_cases v fd dirpIsNull count with he | ⟨info, n, he, -⟩
    · rw [he]
    · rw [he]
      rfl
  | elsewhere live => exact iff_of_true rfl id

/-- The lower layers of an overlay show the same after every part of a run as
before it, if and only if no call of the run changes one of them. -/
theorem run_lowerViews_iff (o : OverlayFS (MemoryRef ι)) (hown : o.layers.Nodup) (w : World ι)
    (hw : w.WF) (inodeForPath : List (List UInt8) → Nat) (ops : List VfsOp) :
    (∀ l, l <+: ops → o.lowerViews
        (run (RootVFS.new (.overlay o) inodeForPath w) l).world = o.lowerViews w) ↔
      Runs.EveryStep step (fun v op => ¬ ChangesBelow o v op)
        (RootVFS.new (.overlay o) inodeForPath w) ops := by
  have hroot : OverlayRoot o (RootVFS.new (.overlay o) inodeForPath w) := by
    refine ⟨⟨hw, ?_⟩, rfl, fun _ => rfl⟩
    intro fd info hi
    simp [RootVFS.new] at hi
  let P : Vfs ι → Prop := fun v => o.lowerViews v.world = o.lowerViews w
  have hstep (v : Vfs ι) (op : VfsOp) (hv : OverlayRoot o v) (hp : P v) :
      P (v.step op) ↔ ¬ ChangesBelow o v op := by
    show o.lowerViews (v.step op).world = o.lowerViews w ↔ _
    rw [← hp]
    exact step_lowerViews_iff hv hown op
  have hsame : P (RootVFS.new (.overlay o) inodeForPath w) := rfl
  exact Runs.forall_prefix_iff (fun _ op hv => hv.step op) hstep hroot hsame ops

theorem run_lowerViews_mkdir :
    twoLayers.lowerViews (run (RootVFS.new (.overlay twoLayers) (fun _ => 0) baseOnly)
      [.mkdir (.abs (PathBuf.toAbs [.a])) 0]).world = twoLayers.lowerViews baseOnly :=
  (run_lowerViews_iff twoLayers (by decide) baseOnly baseOnly_wf (fun _ => 0)
    [.mkdir (.abs (PathBuf.toAbs [.a])) 0]).mpr ⟨id, trivial⟩ _ List.prefix_rfl

theorem unlink_changes_base :
    twoLayers.lowerViews (run (RootVFS.new (.overlay twoLayers) (fun _ => 0) baseOnly)
      [.unlink (.abs (PathBuf.toAbs [.a]))]).world ≠ twoLayers.lowerViews baseOnly := by
  intro h
  have hh := congrFun (List.cons.inj h).1 [.a]
  exact absurd hh (by decide +kernel)

end Vfs

end SandboxVfs
