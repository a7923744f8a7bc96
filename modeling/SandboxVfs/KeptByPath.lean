import SandboxVfs.NamespaceView
import SandboxVfs.VfsSteps

/-! Properties of single memory file systems that the calls by path keep. The methods
of a backend are such calls on its layers, so they keep them too, and so does the virtual
file system where it does not start from an opened directory. -/

namespace SandboxVfs

open MemoryFS

/-- What creating, removing, renaming and `chmod` keep, each by path. -/
structure KeptByPath (Q : MemoryFS → Prop) : Prop where
  create : ∀ m path kind mode, m.fs.WF m.sys.nextNodeId → Q m.fs →
    Q (createNode m path kind mode).2.fs
  remove : ∀ fs next path kind, fs.WF next → Q fs → Q (fs.removeNodeAt path kind).2
  rename : ∀ fs next (old new : PathBuf) fs', fs.WF next → Q fs →
    fs.renameNodeAt old.toAbs new.toAbs = some fs' → Q fs'
  chmod : ∀ fs next path mode fs', fs.WF next → Q fs → fs.chmod path mode = some fs' → Q fs'

namespace KeptByPath

variable {ι : Type} [DecidableEq ι] {Q : MemoryFS → Prop} {w : World ι}

theorem openNode (hQ : KeptByPath Q) {m : MemoryState} (h : m.fs.WF m.sys.nextNodeId)
    (hq : Q m.fs) (path : AbsPath) (flags : Flags) (mode : Mode) :
    Q (MemoryFS.openNode m path flags mode).2.fs := by
  rw [openNode_eq]
  cases m.fs.resolve path with
  | some node => rwa [openAt_fs_some]
  | none =>
    rw [openAt_fs_none, ← createNode_eq]
    split_ifs
    · exact hQ.create m path .file mode h hq
    · exact hq

theorem of_fs {w' : World ι} (hq : ∀ i, Q (w.fs i)) (f : MemoryRef ι) (hf : Q (w'.fs f.index))
    (hne : ∀ j, j ≠ f.index → w'.fs j = w.fs j) : ∀ i, Q (w'.fs i) := by
  intro j
  by_cases hj : j = f.index
  · rwa [hj]
  · rw [hne j hj]
    exact hq j

theorem memory_open (hQ : KeptByPath Q) (hw : w.WF) (hq : ∀ i, Q (w.fs i)) (f : MemoryRef ι)
    (path : AbsPath) (flags : Flags) (mode : Mode) :
    ∀ i, Q ((LowLevelFS.openWithHandle f w path flags mode).2.fs i) := by
  show ∀ i, Q ((w.put f (MemoryFS.openNode (w.state f) path flags mode).2).fs i)
  refine of_fs hq f ?_ fun j hj => World.put_fs_ne w f _ hj
  rw [World.put_fs]
  exact hQ.openNode (m := w.state f) (hw.fs f.index) (hq f.index) path flags mode

theorem memory_mkdir (hQ : KeptByPath Q) (hw : w.WF) (hq : ∀ i, Q (w.fs i)) (f : MemoryRef ι)
    (path : AbsPath) (mode : Mode) : ∀ i, Q ((LowLevelFS.mkdir f w path mode).2.fs i) := by
  show ∀ i, Q ((w.put f (createNode (w.state f) path .dir mode).2).fs i)
  refine of_fs hq f ?_ fun j hj => World.put_fs_ne w f _ hj
  rw [World.put_fs]
  exact hQ.create (w.state f) path .dir mode (hw.fs f.index) (hq f.index)

theorem memory_remove (hQ : KeptByPath Q) (hw : w.WF) (hq : ∀ i, Q (w.fs i)) (f : MemoryRef ι)
    (path : AbsPath) (kind : VfsEntryKind) :
    ∀ i, Q ((w.putFs f ((w.fs f.index).removeNodeAt path kind).2).fs i) := by
  refine of_fs hq f ?_ fun j hj => World.putFs_fs_ne w f _ hj
  rw [World.putFs_fs]
  exact hQ.remove _ _ path kind (hw.fs f.index) (hq f.index)

theorem memory_rename (hQ : KeptByPath Q) (hw : w.WF) (hq : ∀ i, Q (w.fs i)) (f : MemoryRef ι)
    (old new : PathBuf) : ∀ i, Q ((LowLevelFS.rename f w old.toAbs new.toAbs).2.fs i) := by
  cases he : (w.fs f.index).renameNodeAt old.toAbs new.toAbs with
  | none =>
    have hr : LowLevelFS.rename f w old.toAbs new.toAbs = (-1, w) := by
      simp [LowLevelFS.rename, he]
    rwa [hr]
  | some fs' =>
    have hr : LowLevelFS.rename f w old.toAbs new.toAbs = (0, w.putFs f fs') := by
      simp [LowLevelFS.rename, he]
    rw [hr]
    refine of_fs hq f ?_ fun j hj => World.putFs_fs_ne w f _ hj
    rw [World.putFs_fs]
    exact hQ.rename _ _ old new fs' (hw.fs f.index) (hq f.index) he

theorem memory_chmod (hQ : KeptByPath Q) (hw : w.WF) (hq : ∀ i, Q (w.fs i)) (f : MemoryRef ι)
    (path : AbsPath) (mode : Mode) : ∀ i, Q ((LowLevelFS.chmod f w path mode).2.fs i) := by
  cases he : (w.fs f.index).chmod path mode with
  | none =>
    have hr : LowLevelFS.chmod f w path mode = (-1, w) := by simp [LowLevelFS.chmod, he]
    rwa [hr]
  | some fs' =>
    have hr : LowLevelFS.chmod f w path mode = (0, w.putFs f fs') := by
      simp [LowLevelFS.chmod, he]
    rw [hr]
    refine of_fs hq f ?_ fun j hj => World.putFs_fs_ne w f _ hj
    rw [World.putFs_fs]
    exact hQ.chmod _ _ path mode fs' (hw.fs f.index) (hq f.index) he

theorem ensureTopParentDirs (hQ : KeptByPath Q) (hw : w.WF) (hq : ∀ i, Q (w.fs i))
    (o : OverlayFS (MemoryRef ι)) (path : AbsPath) :
    ∀ i, Q ((o.ensureTopParentDirs w path).fs i) := by
  have hstep (w : World ι) (p : AbsPath) (hh : w.WF ∧ ∀ i, Q (w.fs i)) :
      (o.ensureTopDir w p).WF ∧ ∀ i, Q ((o.ensureTopDir w p).fs i) := by
    unfold OverlayFS.ensureTopDir
    split_ifs
    · exact ⟨(World.memory_mkdir hh.1 o.top p 0o755).wf hh.1,
        hQ.memory_mkdir hh.1 hh.2 o.top p 0o755⟩
    · exact hh
  unfold OverlayFS.ensureTopParentDirs
  split
  · exact hq
  · split_ifs
    · exact hq
    · exact (Runs.foldl_inv (fun w : World ι => w.WF ∧ ∀ i, Q (w.fs i)) hstep ⟨hw, hq⟩ _).2

theorem overlay_open (hQ : KeptByPath Q) (hw : w.WF) (hq : ∀ i, Q (w.fs i))
    (o : OverlayFS (MemoryRef ι)) (path : AbsPath) (flags : Flags) (mode : Mode) :
    ∀ i, Q ((LowLevelFS.openWithHandle o w path flags mode).2.fs i) := by
  by_cases hwr : OverlayFS.writes flags = true
  · have he : LowLevelFS.openWithHandle o w path flags mode =
        LowLevelFS.openWithHandle o.top (o.ensureTopParentDirs w path) path flags mode :=
      if_pos hwr
    have hw' := (World.ensureTopParentDirs_grows hw o path).wf hw
    rw [he]
    exact hQ.memory_open hw' (hQ.ensureTopParentDirs hw hq o path) o.top path flags mode
  · have he : LowLevelFS.openWithHandle o w path flags mode =
        LowLevelFS.openWithHandle (o.visibleLayer w path) w path flags mode := if_neg hwr
    rw [he]
    exact hQ.memory_open hw hq (o.visibleLayer w path) path flags mode

theorem overlay_mkdir (hQ : KeptByPath Q) (hw : w.WF) (hq : ∀ i, Q (w.fs i))
    (o : OverlayFS (MemoryRef ι)) (path : AbsPath) (mode : Mode) :
    ∀ i, Q ((LowLevelFS.mkdir o w path mode).2.fs i) := by
  have hw' := (World.ensureTopParentDirs_grows hw o path).wf hw
  exact hQ.memory_mkdir hw' (hQ.ensureTopParentDirs hw hq o path) o.top path mode

theorem overlay_rename (hQ : KeptByPath Q) (hw : w.WF) (hq : ∀ i, Q (w.fs i))
    (o : OverlayFS (MemoryRef ι)) (old new : PathBuf) :
    ∀ i, Q ((LowLevelFS.rename o w old.toAbs new.toAbs).2.fs i) := by
  by_cases htop : LowLevelFS.access o.top w old.toAbs F_OK = 0
  · have he : LowLevelFS.rename o w old.toAbs new.toAbs =
        LowLevelFS.rename o.top (o.ensureTopParentDirs w new.toAbs) old.toAbs new.toAbs :=
      if_pos htop
    have hw' := (World.ensureTopParentDirs_grows hw o new.toAbs).wf hw
    rw [he]
    exact hQ.memory_rename hw' (hQ.ensureTopParentDirs hw hq o new.toAbs) o.top old new
  · have he : LowLevelFS.rename o w old.toAbs new.toAbs =
        LowLevelFS.rename (o.visibleLayer w old.toAbs) w old.toAbs new.toAbs := if_neg htop
    rw [he]
    exact hQ.memory_rename hw hq (o.visibleLayer w old.toAbs) old new

theorem backend_open (hQ : KeptByPath Q) (hw : w.WF) (hq : ∀ i, Q (w.fs i)) (b : Backend ι)
    (path : AbsPath) (flags : Flags) (mode : Mode) :
    ∀ i, Q ((LowLevelFS.openWithHandle b w path flags mode).2.fs i) := by
  cases b with
  | memory f => exact hQ.memory_open hw hq f path flags mode
  | overlay o => exact hQ.overlay_open hw hq o path flags mode

theorem backend_mkdir (hQ : KeptByPath Q) (hw : w.WF) (hq : ∀ i, Q (w.fs i)) (b : Backend ι)
    (path : AbsPath) (mode : Mode) : ∀ i, Q ((LowLevelFS.mkdir b w path mode).2.fs i) := by
  cases b with
  | memory f => exact hQ.memory_mkdir hw hq f path mode
  | overlay o => exact hQ.overlay_mkdir hw hq o path mode

theorem backend_unlink (hQ : KeptByPath Q) (hw : w.WF) (hq : ∀ i, Q (w.fs i)) (b : Backend ι)
    (path : AbsPath) : ∀ i, Q ((LowLevelFS.unlink b w path).2.fs i) := by
  cases b with
  | memory f => exact hQ.memory_remove hw hq f path .file
  | overlay o => exact hQ.memory_remove hw hq (o.actingLayer w path) path .file

theorem backend_rmdir (hQ : KeptByPath Q) (hw : w.WF) (hq : ∀ i, Q (w.fs i)) (b : Backend ι)
    (path : AbsPath) : ∀ i, Q ((LowLevelFS.rmdir b w path).2.fs i) := by
  cases b with
  | memory f => exact hQ.memory_remove hw hq f path .dir
  | overlay o => exact hQ.memory_remove hw hq (o.actingLayer w path) path .dir

theorem backend_rename (hQ : KeptByPath Q) (hw : w.WF) (hq : ∀ i, Q (w.fs i)) (b : Backend ι)
    (old new : PathBuf) : ∀ i, Q ((LowLevelFS.rename b w old.toAbs new.toAbs).2.fs i) := by
  cases b with
  | memory f => exact hQ.memory_rename hw hq f old new
  | overlay o => exact hQ.overlay_rename hw hq o old new

theorem backend_chmod (hQ : KeptByPath Q) (hw : w.WF) (hq : ∀ i, Q (w.fs i)) (b : Backend ι)
    (path : AbsPath) (mode : Mode) : ∀ i, Q ((LowLevelFS.chmod b w path mode).2.fs i) := by
  cases b with
  | memory f => exact hQ.memory_chmod hw hq f path mode
  | overlay o => exact hQ.memory_chmod hw hq (o.visibleLayer w path) path mode

end KeptByPath

namespace Vfs

variable {ι : Type} {v : Vfs ι}

def ThroughHandle (v : Vfs ι) : VfsOp → Prop
  | .openat dirfd (.rel _) _ _ => v.handleOf dirfd ≠ none
  | .mkdirat dirfd (.rel _) _ => v.handleOf dirfd ≠ none
  | _ => False

end Vfs

namespace KeptByPath

variable {ι : Type} [DecidableEq ι] {Q : MemoryFS → Prop} {v : Vfs ι}

theorem openVirtual (hQ : KeptByPath Q) (hv : v.WF) (hq : ∀ i, Q (v.world.fs i)) (path : PathBuf)
    (flags : Flags) (mode : Mode) :
    ∀ i, Q ((v.openVirtual path flags mode).2.world.fs i) := by
  unfold RootVFS.openVirtual
  dsimp only
  rw [RootVFS.trackOpen_world]
  exact hQ.backend_open hv.world hq _ _ flags mode

theorem renameat (hQ : KeptByPath Q) (hv : v.WF) (hq : ∀ i, Q (v.world.fs i)) (oldDirfd : Int)
    (oldPath : Path) (newDirfd : Int) (newPath : Path) :
    ∀ i, Q ((v.renameat oldDirfd oldPath newDirfd newPath).2.world.fs i) := by
  unfold RootVFS.renameat
  split
  · unfold RootVFS.renameVirtual
    dsimp only
    split_ifs
    · exact hq
    · exact hQ.backend_rename hv.world hq _ _ _
  · exact hq

theorem openat (hQ : KeptByPath Q) (hv : v.WF) (hq : ∀ i, Q (v.world.fs i)) (dirfd : Int)
    (path : Path) (flags : Flags) (mode : Mode)
    (h : ¬ v.ThroughHandle (.openat dirfd path flags mode)) :
    ∀ i, Q ((v.openat dirfd path flags mode).2.world.fs i) := by
  cases path with
  | abs p => exact hQ.openVirtual hv hq _ flags mode
  | rel p =>
    rw [RootVFS.openat_of_no_handle (not_not.mp h)]
    cases v.resolveOpenatPath dirfd (.rel p) with
    | none => exact hq
    | some path => exact hQ.openVirtual hv hq path flags mode

theorem mkdirat (hQ : KeptByPath Q) (hv : v.WF) (hq : ∀ i, Q (v.world.fs i)) (dirfd : Int)
    (path : Path) (mode : Mode) (h : ¬ v.ThroughHandle (.mkdirat dirfd path mode)) :
    ∀ i, Q ((v.mkdirat dirfd path mode).2.world.fs i) := by
  cases path with
  | abs p => exact hQ.backend_mkdir hv.world hq _ _ mode
  | rel p =>
    rw [RootVFS.mkdirat_of_no_handle (not_not.mp h)]
    cases v.resolveOpenatPath dirfd (.rel p) with
    | none => exact hq
    | some path => exact hQ.backend_mkdir hv.world hq _ _ mode

theorem step (hQ : KeptByPath Q) (hv : v.WF) (hq : ∀ i, Q (v.world.fs i)) {op : VfsOp}
    (h : ¬ v.ThroughHandle op) : ∀ i, Q ((v.step op).world.fs i) := by
  cases op with
  | openPath path flags mode => exact hQ.openVirtual hv hq _ flags mode
  | openat dirfd path flags mode => exact hQ.openat hv hq dirfd path flags mode h
  | mkdir path mode => exact hQ.backend_mkdir hv.world hq _ _ mode
  | mkdirat dirfd path mode => exact hQ.mkdirat hv hq dirfd path mode h
  | unlink path => exact hQ.backend_unlink hv.world hq _ _
  | unlinkat dirfd path flags =>
    show ∀ i, Q ((v.unlinkat dirfd path flags).2.world.fs i)
    unfold RootVFS.unlinkat
    split
    · exact hq
    · split_ifs
      · exact hQ.backend_rmdir hv.world hq _ _
      · exact hQ.backend_unlink hv.world hq _ _
  | rmdir path => exact hQ.backend_rmdir hv.world hq _ _
  | rename oldPath newPath => exact hQ.renameat hv hq _ oldPath _ newPath
  | renameat oldDirfd oldPath newDirfd newPath =>
    exact hQ.renameat hv hq oldDirfd oldPath newDirfd newPath
  | chmod path mode => exact hQ.backend_chmod hv.world hq _ _ mode
  | forgetFd fd => exact hq
  | cloneFd oldfd newfd =>
    show ∀ i, Q ((v.cloneFd oldfd newfd).world.fs i)
    rwa [RootVFS.cloneFd_world]
  | setCwd path => exact hq
  | getdents64 fd dirpIsNull count =>
    rcases Vfs.getdents64_step_cases v fd dirpIsNull count with he | ⟨info, n, he, -⟩
    · rwa [he]
    · rw [he]
      exact hq
  | elsewhere live => exact hq

end KeptByPath

end SandboxVfs
