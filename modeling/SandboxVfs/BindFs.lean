import SandboxVfs.Memory
import SandboxVfs.Overlay
import SandboxVfs.RootVfs

/-! `BindFS`: a directory of the host as a file system, by path manipulation only. What
the C library answers is a parameter; what counts is which paths it is asked about. -/

namespace SandboxVfs

/-- A path of the host in bytes, as `OsStr` holds it. -/
abbrev HostPath := List UInt8

/-- The calls of the C library that `BindFS` makes, over a host in state `S`. -/
structure Libc (S : Type) where
  access : S → HostPath → Int → Int
  openPath : S → HostPath → Flags → Mode → Int × S
  mkdir : S → HostPath → Mode → Int × S
  unlink : S → HostPath → Int × S
  rmdir : S → HostPath → Int × S
  rename : S → HostPath → HostPath → Int × S
  chmod : S → HostPath → Mode → Int × S
  stat : S → HostPath → Option Stat

structure HostWorld (ι S : Type) where
  memory : World ι
  host : S
  libc : Libc S

namespace HostWorld

variable {ι S : Type} (w : HostWorld ι S)

def setMemory (memory : World ι) : HostWorld ι S := { w with memory }

def setHost (host : S) : HostWorld ι S := { w with host }

end HostWorld

def Component.bytes : Component → List UInt8
  | .curDir => [46]
  | .parentDir => [46, 46]
  | .normal n => n.bytes

/-- The separator that `PathBuf::push` puts after a path. -/
def separator (root : HostPath) : List UInt8 :=
  if root = [] ∨ root.getLast? = some 47 then [] else [47]

def joinHost (root path : HostPath) : HostPath :=
  if path.head? = some 47 then path else root ++ separator root ++ path

structure BindFS where
  root : HostPath
  deriving DecidableEq, Repr

namespace BindFS

/-- `Components::as_path` after the root is taken off: no `.` at either end. -/
def belowRoot (path : AbsPath) : List Component :=
  ((path.segments.dropWhile (· = .curDir)).reverse.dropWhile (· = .curDir)).reverse

def translatePath (b : BindFS) (path : AbsPath) : HostPath :=
  joinHost b.root ([47].intercalate ((belowRoot path).map Component.bytes))

/-- The buffer that is handed over, ended by a nul. -/
def translateCPath (b : BindFS) (path : AbsPath) : HostPath :=
  let pth := b.translatePath path
  if pth.getLast? = some 0 then pth else pth ++ [0]

end BindFS

/-- What the C library reads of a buffer. -/
def cString (buffer : List UInt8) : HostPath := buffer.takeWhile (· ≠ 0)

inductive PlainFS (ι S : Type) where
  | bind (b : BindFS)
  | memory (f : MemoryRef ι)
  deriving DecidableEq

/-- `BindFS` gives no handles, so all of them are those of memory file systems. -/
structure HostOpenedFile (ι S : Type) where
  opened : MemoryOpenedFile ι
  deriving DecidableEq

variable {ι S : Type}

def hostOpened (r : OpenResult (MemoryOpenedFile ι)) : OpenResult (HostOpenedFile ι S) :=
  ⟨r.fd, r.opened.map (⟨·⟩)⟩

variable [DecidableEq ι]

instance : LowLevelFS (PlainFS ι S) (HostOpenedFile ι S) (HostWorld ι S) where
  access f w path mode :=
    match f with
    | .memory f => LowLevelFS.access f w.memory path mode
    | .bind b => w.libc.access w.host (cString (b.translateCPath path)) mode
  openWithHandle f w path flags mode :=
    match f with
    | .memory f =>
      let r := LowLevelFS.openWithHandle f w.memory path flags mode
      (hostOpened r.1, w.setMemory r.2)
    | .bind b =>
      let r := w.libc.openPath w.host (cString (b.translateCPath path)) flags mode
      (⟨r.1, none⟩, w.setHost r.2)
  mkdir f w path mode :=
    match f with
    | .memory f =>
      let r := LowLevelFS.mkdir f w.memory path mode
      (r.1, w.setMemory r.2)
    | .bind b =>
      let r := w.libc.mkdir w.host (cString (b.translateCPath path)) mode
      (r.1, w.setHost r.2)
  unlink f w path :=
    match f with
    | .memory f =>
      let r := LowLevelFS.unlink f w.memory path
      (r.1, w.setMemory r.2)
    | .bind b =>
      let r := w.libc.unlink w.host (cString (b.translateCPath path))
      (r.1, w.setHost r.2)
  rmdir f w path :=
    match f with
    | .memory f =>
      let r := LowLevelFS.rmdir f w.memory path
      (r.1, w.setMemory r.2)
    | .bind b =>
      let r := w.libc.rmdir w.host (cString (b.translateCPath path))
      (r.1, w.setHost r.2)
  rename f w oldPath newPath :=
    match f with
    | .memory f =>
      let r := LowLevelFS.rename f w.memory oldPath newPath
      (r.1, w.setMemory r.2)
    | .bind b =>
      let r := w.libc.rename w.host (cString (b.translateCPath oldPath))
        (cString (b.translateCPath newPath))
      (r.1, w.setHost r.2)
  chmod f w path mode :=
    match f with
    | .memory f =>
      let r := LowLevelFS.chmod f w.memory path mode
      (r.1, w.setMemory r.2)
    | .bind b =>
      let r := w.libc.chmod w.host (cString (b.translateCPath path)) mode
      (r.1, w.setHost r.2)
  stat f w path :=
    match f with
    | .memory f => LowLevelFS.stat f w.memory path
    | .bind b => w.libc.stat w.host (cString (b.translateCPath path))
  readDir f w path :=
    match f with
    | .memory f => LowLevelFS.readDir f w.memory path
    | .bind _ => none

instance : OpenedFile (HostOpenedFile ι S) (HostWorld ι S) where
  stat h w := OpenedFile.stat h.opened w.memory
  openChild h w path flags mode :=
    (OpenedFile.openChild h.opened w.memory path flags mode).map fun r =>
      (hostOpened r.1, w.setMemory r.2)
  mkdirChild h w path mode :=
    (OpenedFile.mkdirChild h.opened w.memory path mode).map fun r => (r.1, w.setMemory r.2)
  readDir h w := OpenedFile.readDir h.opened w.memory

/-- Two kinds of backends side by side. -/
instance {F G H W : Type} [LowLevelFS F H W] [LowLevelFS G H W] : LowLevelFS (F ⊕ G) H W where
  access b := b.elim LowLevelFS.access LowLevelFS.access
  openWithHandle b := b.elim LowLevelFS.openWithHandle LowLevelFS.openWithHandle
  mkdir b := b.elim LowLevelFS.mkdir LowLevelFS.mkdir
  unlink b := b.elim LowLevelFS.unlink LowLevelFS.unlink
  rmdir b := b.elim LowLevelFS.rmdir LowLevelFS.rmdir
  rename b := b.elim LowLevelFS.rename LowLevelFS.rename
  chmod b := b.elim LowLevelFS.chmod LowLevelFS.chmod
  stat b := b.elim LowLevelFS.stat LowLevelFS.stat
  readDir b := b.elim LowLevelFS.readDir LowLevelFS.readDir

/-- Plain file systems and overlays of them, overlays of those, and so on `n` times. -/
def Stacked (F : Type) : Nat → Type
  | 0 => F
  | n + 1 => Stacked F n ⊕ OverlayFS (Stacked F n)

instance Stacked.lowLevelFS {F H W : Type} [inst : LowLevelFS F H W] :
    (n : Nat) → LowLevelFS (Stacked F n) H W
  | 0 => inst
  | n + 1 =>
    have := Stacked.lowLevelFS (F := F) n
    inferInstanceAs (LowLevelFS (Stacked F n ⊕ OverlayFS (Stacked F n)) H W)

end SandboxVfs
