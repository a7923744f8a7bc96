import SandboxVfs.Path

/-! The two traits of `filesystem.rs` and the data they exchange. A trait is a
class over the implementing type; methods pass the world `W` they act in. -/

namespace SandboxVfs

abbrev Flags := BitVec 32
abbrev Mode := BitVec 32

def O_WRONLY : Flags := 0x1
def O_RDWR : Flags := 0x2
def O_CREAT : Flags := 0x40
def O_EXCL : Flags := 0x80
def O_TRUNC : Flags := 0x200
def O_APPEND : Flags := 0x400
def O_DIRECTORY : Flags := 0x10000
def AT_REMOVEDIR : Flags := 0x200
def AT_FDCWD : Int := -100
def F_OK : Int := 0
def S_IFREG : Mode := 0x8000
def S_IFDIR : Mode := 0x4000

def Flags.has (flags mask : Flags) : Bool := flags &&& mask != 0

theorem Flags.has_of_has_part {flags part mask : Flags} (hp : part &&& mask = part)
    (h : flags.has part = true) : flags.has mask = true := by
  simp only [Flags.has, bne_iff_ne, ne_eq] at h ⊢
  intro hm
  apply h
  rw [← hp, BitVec.and_comm part, ← BitVec.and_assoc, hm]
  exact BitVec.zero_and

inductive VfsEntryKind where
  | file
  | dir
  deriving DecidableEq, Repr

structure VfsDirEntry where
  name : List UInt8
  kind : VfsEntryKind
  ino : Option Nat
  deriving DecidableEq, Repr

/-- The fields of `struct stat` that the crate writes, and those that `fstat` on
the backing file leaves in place. -/
structure Stat where
  stMode : Mode := 0
  stIno : Nat := 0
  stNlink : Nat := 0
  stSize : Nat := 0
  stBlocks : Nat := 0
  stBlksize : Nat := 0
  deriving DecidableEq, Repr

structure OpenResult (H : Type) where
  fd : Int
  opened : Option H
  deriving DecidableEq, Repr

/-- Methods with a default in the trait return `none` there. -/
class OpenedFile (H : Type) (W : outParam Type) where
  stat : H → W → Stat
  openChild : H → W → Path → Flags → Mode → Option (OpenResult H × W)
  mkdirChild : H → W → Path → Mode → Option (Int × W)
  readDir : H → W → Option (List VfsDirEntry)

/-- All path parameters are absolute, which the parameter type says. `stat` returns
the filled buffer, or `none` for -1. -/
class LowLevelFS (F : Type) (H W : outParam Type) where
  access : F → W → AbsPath → Int → Int
  openWithHandle : F → W → AbsPath → Flags → Mode → OpenResult H × W
  mkdir : F → W → AbsPath → Mode → Int × W
  unlink : F → W → AbsPath → Int × W
  rmdir : F → W → AbsPath → Int × W
  rename : F → W → AbsPath → AbsPath → Int × W
  chmod : F → W → AbsPath → Mode → Int × W
  stat : F → W → AbsPath → Option Stat
  readDir : F → W → AbsPath → Option (List VfsDirEntry)

end SandboxVfs
