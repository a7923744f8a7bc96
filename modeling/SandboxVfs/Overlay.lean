import SandboxVfs.Filesystem

/-! `OverlayFS`: a writable layer over one or two others, of any backend type. -/

namespace SandboxVfs

structure OverlayFS (F : Type) where
  top : F
  middle : Option F
  base : F
  deriving DecidableEq, Repr

namespace OverlayFS

variable {F H W : Type} [LowLevelFS F H W] (o : OverlayFS F)

def layers : List F := o.top :: (o.middle.toList ++ [o.base])

def lower {F : Type} (o : OverlayFS F) : List F := o.middle.toList ++ [o.base]

def visibleLayer (w : W) (path : AbsPath) : F :=
  if LowLevelFS.access o.top w path F_OK = 0 then o.top
  else
    match o.middle with
    | none => o.base
    | some middle => if LowLevelFS.access middle w path F_OK = 0 then middle else o.base

def pathExistsBelowTop (w : W) (path : AbsPath) : Bool :=
  o.middle.any (fun fs => LowLevelFS.access fs w path F_OK = 0) ||
    LowLevelFS.access o.base w path F_OK = 0

/-- One round of the loop. The result of the inner `mkdir` is ignored. -/
def ensureTopDir (w : W) (p : AbsPath) : W :=
  if LowLevelFS.access o.top w p F_OK ≠ 0 then (LowLevelFS.mkdir o.top w p 0o755).2 else w

def ensureTopParentDirs (w : W) (path : AbsPath) : W :=
  match path.parent with
  | none => w
  | some parentDir =>
    if LowLevelFS.access o.top w parentDir F_OK = 0 || !o.pathExistsBelowTop w parentDir then w
    else (parentDir.ancestors.reverse.filter (!·.isRoot)).foldl o.ensureTopDir w

def writes (oflag : Flags) : Bool :=
  oflag.has (O_WRONLY ||| O_RDWR ||| O_APPEND ||| O_CREAT ||| O_TRUNC)

/-- Entries of one layer join those of the layers above, unless the name is taken. -/
def mergeEntries (entries layerEntries : List VfsDirEntry) : List VfsDirEntry :=
  layerEntries.foldl
    (fun acc entry => if acc.any (·.name = entry.name) then acc else acc ++ [entry]) entries

def readLayers (w : W) (path : AbsPath) : Option (List VfsDirEntry) :=
  match o.layers.filterMap (LowLevelFS.readDir · w path) with
  | [] => none
  | listings => some (listings.foldl mergeEntries [])

/-- The layer that `unlink`, `rmdir` and `rename` act in. -/
def actingLayer (w : W) (path : AbsPath) : F :=
  if LowLevelFS.access o.top w path F_OK = 0 then o.top else o.visibleLayer w path

instance : LowLevelFS (OverlayFS F) H W where
  access o w path mode := LowLevelFS.access (o.visibleLayer w path) w path mode
  openWithHandle o w path oflag mode :=
    if writes oflag then
      LowLevelFS.openWithHandle o.top (o.ensureTopParentDirs w path) path oflag mode
    else LowLevelFS.openWithHandle (o.visibleLayer w path) w path oflag mode
  mkdir o w path mode := LowLevelFS.mkdir o.top (o.ensureTopParentDirs w path) path mode
  unlink o w path := LowLevelFS.unlink (o.actingLayer w path) w path
  rmdir o w path := LowLevelFS.rmdir (o.actingLayer w path) w path
  rename o w oldPath newPath :=
    if LowLevelFS.access o.top w oldPath F_OK = 0 then
      LowLevelFS.rename o.top (o.ensureTopParentDirs w newPath) oldPath newPath
    else LowLevelFS.rename (o.visibleLayer w oldPath) w oldPath newPath
  chmod o w path mode := LowLevelFS.chmod (o.visibleLayer w path) w path mode
  stat o w path := LowLevelFS.stat (o.visibleLayer w path) w path
  readDir o w path := o.readLayers w path

end OverlayFS

end SandboxVfs
