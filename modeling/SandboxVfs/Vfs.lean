import SandboxVfs.Memory
import SandboxVfs.Overlay
import SandboxVfs.RootVfs

/-! The virtual file system of the claims of this development: a `RootVFS` whose
backends are memory file systems and overlays of them, and its runs. -/

namespace SandboxVfs

/-- `Box<dyn LowLevelFS>` over the backends that live in memory. -/
inductive Backend (ι : Type) where
  | memory (fs : MemoryRef ι)
  | overlay (fs : OverlayFS (MemoryRef ι))
  deriving DecidableEq, Repr

variable {ι : Type} [DecidableEq ι]

instance : LowLevelFS (Backend ι) (MemoryOpenedFile ι) (World ι) where
  access
    | .memory f => LowLevelFS.access f
    | .overlay o => LowLevelFS.access o
  openWithHandle
    | .memory f => LowLevelFS.openWithHandle f
    | .overlay o => LowLevelFS.openWithHandle o
  mkdir
    | .memory f => LowLevelFS.mkdir f
    | .overlay o => LowLevelFS.mkdir o
  unlink
    | .memory f => LowLevelFS.unlink f
    | .overlay o => LowLevelFS.unlink o
  rmdir
    | .memory f => LowLevelFS.rmdir f
    | .overlay o => LowLevelFS.rmdir o
  rename
    | .memory f => LowLevelFS.rename f
    | .overlay o => LowLevelFS.rename o
  chmod
    | .memory f => LowLevelFS.chmod f
    | .overlay o => LowLevelFS.chmod o
  stat
    | .memory f => LowLevelFS.stat f
    | .overlay o => LowLevelFS.stat o
  readDir
    | .memory f => LowLevelFS.readDir f
    | .overlay o => LowLevelFS.readDir o

abbrev Vfs (ι : Type) := RootVFS (Backend ι) (MemoryOpenedFile ι) (World ι)

/-- The calls that change the state. `elsewhere` is the rest of the process, which
opens and closes descriptors of its own. -/
inductive VfsOp where
  | openPath (path : Path) (flags : Flags) (mode : Mode)
  | openat (dirfd : Int) (path : Path) (flags : Flags) (mode : Mode)
  | mkdir (path : Path) (mode : Mode)
  | mkdirat (dirfd : Int) (path : Path) (mode : Mode)
  | unlink (path : Path)
  | unlinkat (dirfd : Int) (path : Path) (flags : Flags)
  | rmdir (path : Path)
  | rename (oldPath newPath : Path)
  | renameat (oldDirfd : Int) (oldPath : Path) (newDirfd : Int) (newPath : Path)
  | chmod (path : Path) (mode : Mode)
  | forgetFd (fd : Int)
  | cloneFd (oldfd newfd : Int)
  | setCwd (path : AbsPath)
  | getdents64 (fd : Int) (dirpIsNull : Bool) (count : Int)
  | elsewhere (live : Finset Int)

namespace Vfs

/-- A panic of `getdents64` is caught by the hook and leaves no trace. -/
def step (v : Vfs ι) : VfsOp → Vfs ι
  | .openPath path flags mode => (v.openPath path flags mode).2
  | .openat dirfd path flags mode => (v.openat dirfd path flags mode).2
  | .mkdir path mode => (v.mkdir path mode).2
  | .mkdirat dirfd path mode => (v.mkdirat dirfd path mode).2
  | .unlink path => (v.unlink path).2
  | .unlinkat dirfd path flags => (v.unlinkat dirfd path flags).2
  | .rmdir path => (v.rmdir path).2
  | .rename oldPath newPath => (v.rename oldPath newPath).2
  | .renameat oldDirfd oldPath newDirfd newPath =>
    (v.renameat oldDirfd oldPath newDirfd newPath).2
  | .chmod path mode => (v.chmod path mode).2
  | .forgetFd fd => v.forgetFd fd
  | .cloneFd oldfd newfd => v.cloneFd oldfd newfd
  | .setCwd path => v.setCwd path
  | .getdents64 fd dirpIsNull count =>
    match v.getdents64 fd dirpIsNull count with
    | .panicked => v
    | .returned r => r.2
  | .elsewhere live => v.setWorld { v.world with sys := { v.world.sys with live := live } }

def run (v : Vfs ι) (ops : List VfsOp) : Vfs ι := ops.foldl step v

end Vfs

end SandboxVfs
