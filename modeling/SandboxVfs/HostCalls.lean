import SandboxVfs.BindFs

/-! The host paths behind a call of the virtual file system. Its trace lists the buffers that
every `BindFS` behind it hands to the C library, in order. -/

namespace SandboxVfs

structure Handed where
  root : HostPath
  buffer : List UInt8
  deriving DecidableEq, Repr

inductive BackendCall where
  | access (path : AbsPath) (mode : Int)
  | openPath (path : AbsPath) (flags : Flags) (mode : Mode)
  | mkdir (path : AbsPath) (mode : Mode)
  | unlink (path : AbsPath)
  | rmdir (path : AbsPath)
  | rename (oldPath newPath : AbsPath)
  | chmod (path : AbsPath) (mode : Mode)
  | stat (path : AbsPath)
  | readDir (path : AbsPath)

def BackendCall.paths : BackendCall → List AbsPath
  | .access p _ | .openPath p _ _ | .mkdir p _ | .unlink p | .rmdir p | .chmod p _ | .stat p
  | .readDir p => [p]
  | .rename p q => [p, q]

class HandsToLibc (F : Type) (W : outParam Type) where
  hands : F → W → BackendCall → List Handed

open HandsToLibc

def BindFS.handed (b : BindFS) (path : AbsPath) : Handed := ⟨b.root, b.translateCPath path⟩

instance {ι S : Type} : HandsToLibc (PlainFS ι S) (HostWorld ι S) where
  hands f _ c :=
    match f, c with
    | .memory _, _ | .bind _, .readDir _ => []
    | .bind b, c => c.paths.map b.handed

instance {F G W : Type} [HandsToLibc F W] [HandsToLibc G W] : HandsToLibc (F ⊕ G) W where
  hands b := b.elim hands hands

namespace OverlayFS

variable {F H W : Type} [LowLevelFS F H W] [HandsToLibc F W] (o : OverlayFS F)

def visibleLayerHands (w : W) (path : AbsPath) : List Handed :=
  hands o.top w (.access path F_OK) ++
    if LowLevelFS.access o.top w path F_OK = 0 then []
    else o.middle.elim [] fun middle => hands middle w (.access path F_OK)

def pathExistsBelowTopHands (w : W) (path : AbsPath) : List Handed :=
  (o.middle.elim [] fun middle => hands middle w (.access path F_OK)) ++
    if o.middle.any fun fs => LowLevelFS.access fs w path F_OK = 0 then []
    else hands o.base w (.access path F_OK)

def ensureTopDirHands (w : W) (p : AbsPath) : List Handed :=
  hands o.top w (.access p F_OK) ++
    if LowLevelFS.access o.top w p F_OK ≠ 0 then hands o.top w (.mkdir p 0o755) else []

def ensureTopDirsHands (o : OverlayFS F) (w : W) : List AbsPath → List Handed
  | [] => []
  | p :: ps => o.ensureTopDirHands w p ++ ensureTopDirsHands o (o.ensureTopDir w p) ps

def ensureTopParentDirsHands (w : W) (path : AbsPath) : List Handed :=
  match path.parent with
  | none => []
  | some parentDir =>
    hands o.top w (.access parentDir F_OK) ++
      if LowLevelFS.access o.top w parentDir F_OK = 0 then []
      else
        o.pathExistsBelowTopHands w parentDir ++
          if !o.pathExistsBelowTop w parentDir then []
          else o.ensureTopDirsHands w (parentDir.ancestors.reverse.filter (!·.isRoot))

def actingLayerHands (w : W) (path : AbsPath) : List Handed :=
  hands o.top w (.access path F_OK) ++
    if LowLevelFS.access o.top w path F_OK = 0 then [] else o.visibleLayerHands w path

instance : HandsToLibc (OverlayFS F) W where
  hands o w c :=
    match c with
    | .access path _ | .stat path | .chmod path _ =>
      o.visibleLayerHands w path ++ hands (o.visibleLayer w path) w c
    | .openPath path flags _ =>
      if writes flags then
        o.ensureTopParentDirsHands w path ++ hands o.top (o.ensureTopParentDirs w path) c
      else o.visibleLayerHands w path ++ hands (o.visibleLayer w path) w c
    | .mkdir path _ =>
      o.ensureTopParentDirsHands w path ++ hands o.top (o.ensureTopParentDirs w path) c
    | .unlink path | .rmdir path =>
      o.actingLayerHands w path ++ hands (o.actingLayer w path) w c
    | .rename oldPath newPath =>
      hands o.top w (.access oldPath F_OK) ++
        if LowLevelFS.access o.top w oldPath F_OK = 0 then
          o.ensureTopParentDirsHands w newPath ++ hands o.top (o.ensureTopParentDirs w newPath) c
        else o.visibleLayerHands w oldPath ++ hands (o.visibleLayer w oldPath) w c
    | .readDir _ => o.layers.flatMap (hands · w c)

end OverlayFS

instance Stacked.handsToLibc {F H W : Type} [LowLevelFS F H W] [inst : HandsToLibc F W] :
    (n : Nat) → HandsToLibc (Stacked F n) W
  | 0 => inst
  | n + 1 =>
    have := Stacked.handsToLibc (F := F) (H := H) n
    inferInstanceAs (HandsToLibc (Stacked F n ⊕ OverlayFS (Stacked F n)) W)

inductive PathCall where
  | access (path : Path) (mode : Int)
  | openPath (path : Path) (flags : Flags) (mode : Mode)
  | openat (dirfd : Int) (path : Path) (flags : Flags) (mode : Mode)
  | mkdir (path : Path) (mode : Mode)
  | mkdirat (dirfd : Int) (path : Path) (mode : Mode)
  | unlink (path : Path)
  | unlinkat (dirfd : Int) (path : Path) (flags : Flags)
  | rmdir (path : Path)
  | rename (oldPath newPath : Path)
  | renameat (oldDirfd : Int) (oldPath : Path) (newDirfd : Int) (newPath : Path)
  | chmod (path : Path) (mode : Mode)
  | stat (path : Path)
  | readDir (path : Path)

namespace RootVFS

variable {B H W : Type} [LowLevelFS B H W] [OpenedFile H W] [HandsToLibc B W]
  (v : RootVFS B H W)

def handsAt (virtualPath : PathBuf) (c : AbsPath → BackendCall) : List Handed :=
  let target := v.absolutePathToFs virtualPath
  HandsToLibc.hands (v.fsAt target.1) v.world (c target.2.toAbs)

/-- A path that starts from a descriptor without an entry goes nowhere. -/
def handsFrom (dirfd : Int) (path : Path) (c : AbsPath → BackendCall) : List Handed :=
  (v.resolveOpenatPath dirfd path).elim [] (v.handsAt · c)

def renameHands (oldPath newPath : PathBuf) : List Handed :=
  let old := v.absolutePathToFs oldPath
  let new := v.absolutePathToFs newPath
  if old.1 ≠ new.1 then []
  else HandsToLibc.hands (v.fsAt old.1) v.world (.rename old.2.toAbs new.2.toAbs)

def renameatHands (oldDirfd : Int) (oldPath : Path) (newDirfd : Int) (newPath : Path) :
    List Handed :=
  match v.resolveOpenatPath oldDirfd oldPath, v.resolveOpenatPath newDirfd newPath with
  | some old, some new => v.renameHands old new
  | _, _ => []

/-- A handle is never one of a `BindFS`: what it does itself hands nothing over. -/
def hands : PathCall → List Handed
  | .access path mode => v.handsAt (v.resolvePath path) (.access · mode)
  | .openPath path flags mode => v.handsAt (v.resolvePath path) (.openPath · flags mode)
  | .openat dirfd path flags mode =>
    if (v.openatFromTrackedHandle dirfd path flags mode).isSome then []
    else v.handsFrom dirfd path (.openPath · flags mode)
  | .mkdir path mode => v.handsAt (v.resolvePath path) (.mkdir · mode)
  | .mkdirat dirfd path mode =>
    if (v.mkdiratFromTrackedHandle dirfd path mode).isSome then []
    else v.handsFrom dirfd path (.mkdir · mode)
  | .unlink path => v.handsAt (v.resolvePath path) .unlink
  | .unlinkat dirfd path flags =>
    v.handsFrom dirfd path (if flags.has AT_REMOVEDIR then .rmdir else .unlink)
  | .rmdir path => v.handsAt (v.resolvePath path) .rmdir
  | .rename oldPath newPath => v.renameatHands AT_FDCWD oldPath AT_FDCWD newPath
  | .renameat oldDirfd oldPath newDirfd newPath =>
    v.renameatHands oldDirfd oldPath newDirfd newPath
  | .chmod path mode => v.handsAt (v.resolvePath path) (.chmod · mode)
  | .stat path => v.handsAt (v.resolvePath path) .stat
  | .readDir path => v.handsAt (v.resolvePath path) .readDir

end RootVFS

end SandboxVfs
