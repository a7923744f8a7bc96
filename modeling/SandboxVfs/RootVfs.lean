import SandboxVfs.LinuxDirents

/-! `RootVFS`: mounts, the working directory and the table of descriptors, over
any type of backends and handles. -/

namespace SandboxVfs

structure FdInfo (H : Type) where
  path : PathBuf
  dirOffset : Nat
  opened : Option H
  deriving DecidableEq, Repr

/-- `mounts` holds the mount points that can be found at all, the normalised
absolute ones; one at `/` is never used. `inodeForPath` is the path hash. -/
structure RootVFS (B H W : Type) where
  root : B
  mounts : PathBuf → Option B
  cwd : PathBuf
  fds : Std.ExtTreeMap Int (FdInfo H) compare
  inodeForPath : List (List UInt8) → Nat
  world : W

inductive Outcome (α : Type) where
  | panicked
  | returned (a : α)
  deriving DecidableEq, Repr

namespace RootVFS

variable {B H W : Type} (v : RootVFS B H W)

def new (root : B) (inodeForPath : List (List UInt8) → Nat) (world : W) : RootVFS B H W :=
  { root, mounts := fun _ => none, cwd := [], fds := ∅, inodeForPath, world }

def withMount (mountP : PathBuf) (fs : B) [DecidableEq PathBuf] : RootVFS B H W :=
  { v with mounts := Function.update v.mounts mountP (some fs) }

def setCwd (path : AbsPath) : RootVFS B H W := { v with cwd := normalizeAbsolute path }

def resolvePath : Path → PathBuf
  | .abs p => normalizeAbsolute p
  | .rel p => normalizeAbsolute (v.cwd.toAbs.join p)

def resolveOpenatPath (dirfd : Int) : Path → Option PathBuf
  | .abs p => some (normalizeAbsolute p)
  | .rel p =>
    if dirfd = AT_FDCWD then some (v.resolvePath (.rel p))
    else v.fds[dirfd]?.map fun base => normalizeAbsolute (base.path.toAbs.join p)

/-- The mount point that serves a path, `none` for the root backend, and the path
below it. -/
def absolutePathToFs (inPath : PathBuf) : Option PathBuf × PathBuf :=
  match (inPath.inits.reverse.filter (· ≠ [])).find? (fun p => (v.mounts p).isSome) with
  | some p => (some p, inPath.drop p.length)
  | none => (none, inPath)

def fsAt : Option PathBuf → B
  | none => v.root
  | some p => (v.mounts p).getD v.root

def trackOpen (result : OpenResult H) (path : PathBuf) : Int × RootVFS B H W :=
  if 0 ≤ result.fd then
    (result.fd, { v with fds := v.fds.insert result.fd ⟨path, 0, result.opened⟩ })
  else (result.fd, v)

def handleOf (dirfd : Int) : Option H :=
  if dirfd = AT_FDCWD then none else v.fds[dirfd]?.bind (·.opened)

def forgetFd (fd : Int) : RootVFS B H W := { v with fds := v.fds.erase fd }

def cloneFd (oldfd newfd : Int) : RootVFS B H W :=
  match v.fds[oldfd]? with
  | some info => { v with fds := v.fds.insert newfd info }
  | none => { v with fds := v.fds.erase newfd }

def setWorld (world : W) : RootVFS B H W := { v with world }

section

variable [LowLevelFS B H W]

def access (path : Path) (mode : Int) : Int :=
  let (key, subpath) := v.absolutePathToFs (v.resolvePath path)
  LowLevelFS.access (v.fsAt key) v.world subpath.toAbs mode

/-- The common end of `open` and `openat`: dispatch, open, track. -/
def openVirtual (virtualPath : PathBuf) (flag : Flags) (mode : Mode) : Int × RootVFS B H W :=
  let target := v.absolutePathToFs virtualPath
  let r := LowLevelFS.openWithHandle (v.fsAt target.1) v.world target.2.toAbs flag mode
  (v.setWorld r.2).trackOpen r.1 virtualPath

def openPath (path : Path) (oflag : Flags) (mode : Mode) : Int × RootVFS B H W :=
  v.openVirtual (v.resolvePath path) oflag mode

/-- One backend call on one virtual path. -/
def dispatch (op : B → W → AbsPath → Int × W) (virtualPath : PathBuf) : Int × RootVFS B H W :=
  let target := v.absolutePathToFs virtualPath
  let r := op (v.fsAt target.1) v.world target.2.toAbs
  (r.1, v.setWorld r.2)

def mkdir (path : Path) (mode : Mode) : Int × RootVFS B H W :=
  v.dispatch (fun fs w p => LowLevelFS.mkdir fs w p mode) (v.resolvePath path)

def unlink (path : Path) : Int × RootVFS B H W :=
  v.dispatch LowLevelFS.unlink (v.resolvePath path)

def rmdir (path : Path) : Int × RootVFS B H W :=
  v.dispatch LowLevelFS.rmdir (v.resolvePath path)

def chmod (path : Path) (mode : Mode) : Int × RootVFS B H W :=
  v.dispatch (fun fs w p => LowLevelFS.chmod fs w p mode) (v.resolvePath path)

def stat (path : Path) : Option Stat :=
  let target := v.absolutePathToFs (v.resolvePath path)
  LowLevelFS.stat (v.fsAt target.1) v.world target.2.toAbs

def readDir (path : Path) : Option (List VfsDirEntry) :=
  let target := v.absolutePathToFs (v.resolvePath path)
  LowLevelFS.readDir (v.fsAt target.1) v.world target.2.toAbs

/-- Two backends are the same object when they are found at the same mount point. -/
def renameVirtual (oldPath newPath : PathBuf) : Int × RootVFS B H W :=
  let old := v.absolutePathToFs oldPath
  let new := v.absolutePathToFs newPath
  if old.1 ≠ new.1 then (-1, v)
  else
    let r := LowLevelFS.rename (v.fsAt old.1) v.world old.2.toAbs new.2.toAbs
    (r.1, v.setWorld r.2)

def renameat (oldDirfd : Int) (oldPath : Path) (newDirfd : Int) (newPath : Path) :
    Int × RootVFS B H W :=
  match v.resolveOpenatPath oldDirfd oldPath, v.resolveOpenatPath newDirfd newPath with
  | some old, some new => v.renameVirtual old new
  | _, _ => (-1, v)

def rename (oldPath newPath : Path) : Int × RootVFS B H W :=
  v.renameat AT_FDCWD oldPath AT_FDCWD newPath

def unlinkat (dirfd : Int) (path : Path) (flags : Flags) : Int × RootVFS B H W :=
  match v.resolveOpenatPath dirfd path with
  | none => (-1, v)
  | some virtualPath =>
    if flags.has AT_REMOVEDIR then v.dispatch LowLevelFS.rmdir virtualPath
    else v.dispatch LowLevelFS.unlink virtualPath

end

section

variable [LowLevelFS B H W] [OpenedFile H W]

def openatFromTrackedHandle (dirfd : Int) (path : Path) (flag : Flags) (mode : Mode) :
    Option (Int × RootVFS B H W) :=
  match path with
  | .abs _ => none
  | .rel p =>
    if dirfd = AT_FDCWD then none
    else do
      let info ← v.fds[dirfd]?
      let opened ← info.opened
      let r ← OpenedFile.openChild opened v.world path flag mode
      return (v.setWorld r.2).trackOpen r.1 (normalizeAbsolute (info.path.toAbs.join p))

def openat (dirfd : Int) (path : Path) (flag : Flags) (mode : Mode) : Int × RootVFS B H W :=
  match v.openatFromTrackedHandle dirfd path flag mode with
  | some r => r
  | none =>
    match v.resolveOpenatPath dirfd path with
    | none => (-1, v)
    | some virtualPath => v.openVirtual virtualPath flag mode

def mkdiratFromTrackedHandle (dirfd : Int) (path : Path) (mode : Mode) :
    Option (Int × RootVFS B H W) :=
  match path with
  | .abs _ => none
  | .rel _ =>
    if dirfd = AT_FDCWD then none
    else do
      let info ← v.fds[dirfd]?
      let opened ← info.opened
      let r ← OpenedFile.mkdirChild opened v.world path mode
      return (r.1, v.setWorld r.2)

def mkdirat (dirfd : Int) (path : Path) (mode : Mode) : Int × RootVFS B H W :=
  match v.mkdiratFromTrackedHandle dirfd path mode with
  | some r => r
  | none =>
    match v.resolveOpenatPath dirfd path with
    | none => (-1, v)
    | some virtualPath => v.dispatch (fun fs w p => LowLevelFS.mkdir fs w p mode) virtualPath

variable {v} {dirfd : Int}

omit [LowLevelFS B H W] [OpenedFile H W] in
theorem handleOf_eq_some {h : H} (hh : v.handleOf dirfd = some h) :
    dirfd ≠ AT_FDCWD ∧ ∃ info, v.fds[dirfd]? = some info ∧ info.opened = some h := by
  unfold handleOf at hh
  split_ifs at hh with hcwd
  exact ⟨hcwd, Option.bind_eq_some_iff.mp hh⟩

theorem openat_abs (p : AbsPath) (flag : Flags) (mode : Mode) :
    v.openat dirfd (.abs p) flag mode = v.openVirtual (normalizeAbsolute p) flag mode := rfl

theorem mkdirat_abs (p : AbsPath) (mode : Mode) :
    v.mkdirat dirfd (.abs p) mode =
      v.dispatch (fun fs w p => LowLevelFS.mkdir fs w p mode) (normalizeAbsolute p) := rfl

theorem openat_of_no_handle (hh : v.handleOf dirfd = none) (p : RelPath) (flag : Flags)
    (mode : Mode) :
    v.openat dirfd (.rel p) flag mode =
      (v.resolveOpenatPath dirfd (.rel p)).elim (-1, v) (v.openVirtual · flag mode) := by
  have hnone : v.openatFromTrackedHandle dirfd (.rel p) flag mode = none := by
    unfold openatFromTrackedHandle
    unfold handleOf at hh
    dsimp only
    split_ifs at hh ⊢
    · rfl
    · cases hi : v.fds[dirfd]? with
      | none => rfl
      | some info =>
        have ho : info.opened = none := by simpa [hi] using hh
        simp [ho]
  simp only [openat, hnone]
  cases v.resolveOpenatPath dirfd (.rel p) <;> rfl

theorem mkdirat_of_no_handle (hh : v.handleOf dirfd = none) (p : RelPath) (mode : Mode) :
    v.mkdirat dirfd (.rel p) mode =
      (v.resolveOpenatPath dirfd (.rel p)).elim (-1, v)
        (v.dispatch fun fs w p => LowLevelFS.mkdir fs w p mode) := by
  have hnone : v.mkdiratFromTrackedHandle dirfd (.rel p) mode = none := by
    unfold mkdiratFromTrackedHandle
    unfold handleOf at hh
    dsimp only
    split_ifs at hh ⊢
    · rfl
    · cases hi : v.fds[dirfd]? with
      | none => rfl
      | some info =>
        have ho : info.opened = none := by simpa [hi] using hh
        simp [ho]
  simp only [mkdirat, hnone]
  cases v.resolveOpenatPath dirfd (.rel p) <;> rfl

theorem openat_of_handle {h : H} (hh : v.handleOf dirfd = some h) (p : RelPath) (flag : Flags)
    (mode : Mode) {r : OpenResult H × W}
    (hr : OpenedFile.openChild h v.world (.rel p) flag mode = some r) :
    ∃ path, v.resolveOpenatPath dirfd (.rel p) = some path ∧
      v.openat dirfd (.rel p) flag mode = (v.setWorld r.2).trackOpen r.1 path := by
  obtain ⟨hcwd, info, hi, ho⟩ := handleOf_eq_some hh
  refine ⟨normalizeAbsolute (info.path.toAbs.join p), ?_, ?_⟩
  · simp [resolveOpenatPath, hcwd, hi]
  · simp [openat, openatFromTrackedHandle, hcwd, hi, ho, hr]

theorem mkdirat_of_handle {h : H} (hh : v.handleOf dirfd = some h) (p : RelPath) (mode : Mode)
    {r : Int × W} (hr : OpenedFile.mkdirChild h v.world (.rel p) mode = some r) :
    v.mkdirat dirfd (.rel p) mode = (r.1, v.setWorld r.2) := by
  obtain ⟨hcwd, info, hi, ho⟩ := handleOf_eq_some hh
  simp [mkdirat, mkdiratFromTrackedHandle, hcwd, hi, ho, hr]

variable (v)

/-- The status is always 0; `none` when the descriptor carries no handle. -/
def fstat (fd : Int) : Option Stat := do
  let info ← v.fds[fd]?
  let opened ← info.opened
  return OpenedFile.stat opened v.world

/-- The listing that `getdents64` rebuilds: the handle's, else the one by path. -/
def listing (info : FdInfo H) : Option (List VfsDirEntry) :=
  match info.opened.bind (OpenedFile.readDir · v.world) with
  | some entries => some entries
  | none =>
    let target := v.absolutePathToFs info.path
    LowLevelFS.readDir (v.fsAt target.1) v.world target.2.toAbs

/-- The entries before slicing: the dot entries and the listing. -/
def dirEntries (info : FdInfo H) : Option (List VfsDirEntry) :=
  (v.listing info).map (dotEntries ++ ·)

def advance (fd : Int) (info : FdInfo H) (n : Nat) : RootVFS B H W :=
  { v with fds := v.fds.insert fd { info with dirOffset := info.dirOffset + n } }

/-- `none` sends the hook to the real `getdents64`. Slicing past the end panics. -/
def getdents64 (fd : Int) (dirpIsNull : Bool) (count : Int) :
    Outcome (Option (Int × List Dirent) × RootVFS B H W) :=
  match v.fds[fd]? with
  | none => .returned (none, v)
  | some info =>
    match v.dirEntries info with
    | none => .returned (none, v)
    | some entries =>
      if entries.length < info.dirOffset then .panicked
      else
        let result := writeDirents64 v.inodeForPath info.path (entries.drop info.dirOffset)
          info.dirOffset dirpIsNull count
        .returned (some (result.bytesWritten, result.records),
          if 0 ≤ result.bytesWritten then v.advance fd info result.entriesConsumed else v)

end

theorem absolutePathToFs_of_no_mounts (hm : ∀ p, v.mounts p = none) (p : PathBuf) :
    v.absolutePathToFs p = (none, p) := by
  have hnone : (p.inits.reverse.filter (· ≠ [])).find? (fun q => (v.mounts q).isSome) = none := by
    simp [hm]
  simp only [absolutePathToFs, hnone]

theorem dispatch_of_no_mounts (hm : ∀ p, v.mounts p = none) (op : B → W → AbsPath → Int × W)
    (p : PathBuf) :
    v.dispatch op p =
      ((op v.root v.world p.toAbs).1, v.setWorld (op v.root v.world p.toAbs).2) := by
  simp only [dispatch, v.absolutePathToFs_of_no_mounts hm, fsAt]

theorem resolveOpenatPath_cwd (path : Path) :
    v.resolveOpenatPath AT_FDCWD path = some (v.resolvePath path) := by
  cases path <;> simp [resolveOpenatPath, resolvePath]

theorem getElem?_insert_fd {V : Type*} (m : Std.ExtTreeMap Int V compare) (fd fd' : Int) (a : V) :
    (m.insert fd a)[fd']? = if fd' = fd then some a else m[fd']? := by
  simp only [Std.ExtTreeMap.getElem?_insert, Std.compare_eq_iff_eq, @eq_comm _ fd]

theorem getElem?_erase_fd {V : Type*} (m : Std.ExtTreeMap Int V compare) (fd fd' : Int) :
    (m.erase fd)[fd']? = if fd' = fd then none else m[fd']? := by
  simp only [Std.ExtTreeMap.getElem?_erase, Std.compare_eq_iff_eq, @eq_comm _ fd]

theorem forgetFd_getElem? (fd fd' : Int) :
    (v.forgetFd fd).fds[fd']? = if fd' = fd then none else v.fds[fd']? :=
  getElem?_erase_fd v.fds fd fd'

theorem cloneFd_getElem? (oldfd newfd fd : Int) :
    (v.cloneFd oldfd newfd).fds[fd]? = if fd = newfd then v.fds[oldfd]? else v.fds[fd]? := by
  unfold cloneFd
  cases ho : v.fds[oldfd]? with
  | none => simp only [getElem?_erase_fd]
  | some info => simp only [getElem?_insert_fd]

theorem trackOpen_fst (result : OpenResult H) (path : PathBuf) :
    (v.trackOpen result path).1 = result.fd := by
  unfold trackOpen
  split_ifs <;> rfl

theorem trackOpen_getElem? (result : OpenResult H) (path : PathBuf) (fd : Int) :
    (v.trackOpen result path).2.fds[fd]? =
      if 0 ≤ result.fd ∧ fd = result.fd then some ⟨path, 0, result.opened⟩ else v.fds[fd]? := by
  unfold trackOpen
  split_ifs with hfd hh hh
  · rw [getElem?_insert_fd, if_pos hh.2]
  · rw [getElem?_insert_fd, if_neg fun he => hh ⟨hfd, he⟩]
  · exact absurd hh.1 hfd
  · rfl

theorem trackOpen_world (result : OpenResult H) (path : PathBuf) :
    (v.trackOpen result path).2.world = v.world := by
  unfold trackOpen
  split_ifs <;> rfl

theorem cloneFd_world (oldfd newfd : Int) : (v.cloneFd oldfd newfd).world = v.world := by
  unfold cloneFd
  split <;> rfl

theorem advance_getElem? (fd fd' : Int) (info : FdInfo H) (n : Nat) :
    (v.advance fd info n).fds[fd']? =
      if fd' = fd then some { info with dirOffset := info.dirOffset + n } else v.fds[fd']? :=
  getElem?_insert_fd v.fds fd fd' _

end RootVFS

end SandboxVfs
