import SandboxVfs.AlikeBackends
import SandboxVfs.Vfs

/-! Two `RootVFS` over backends that cannot be told apart: every run gives the same answers. -/

namespace SandboxVfs

/-- The calls of a program, those that only ask among them. -/
inductive VfsCall where
  | op (op : VfsOp)
  | access (path : Path) (mode : Int)
  | stat (path : Path)
  | readDir (path : Path)
  | fstat (fd : Int)

inductive VfsAnswer where
  | status (r : Int)
  | stat (r : Option Stat)
  | listing (r : Option (List VfsDirEntry))
  | records (r : Outcome (Option (Int × List Dirent)))
  | done
  deriving DecidableEq

namespace RootVFS

variable {B B' H H' W W' : Type}

section

variable [LowLevelFS B H W] [OpenedFile H W]

def returns (r : Int × RootVFS B H W) : VfsAnswer × RootVFS B H W := (.status r.1, r.2)

/-- `elsewhere` is what the rest of the process does to the world. -/
def callOp (elsewhere : Finset Int → W → W) (v : RootVFS B H W) :
    VfsOp → VfsAnswer × RootVFS B H W
  | .openPath path flags mode => returns (v.openPath path flags mode)
  | .openat dirfd path flags mode => returns (v.openat dirfd path flags mode)
  | .mkdir path mode => returns (v.mkdir path mode)
  | .mkdirat dirfd path mode => returns (v.mkdirat dirfd path mode)
  | .unlink path => returns (v.unlink path)
  | .unlinkat dirfd path flags => returns (v.unlinkat dirfd path flags)
  | .rmdir path => returns (v.rmdir path)
  | .rename oldPath newPath => returns (v.rename oldPath newPath)
  | .renameat oldDirfd oldPath newDirfd newPath =>
    returns (v.renameat oldDirfd oldPath newDirfd newPath)
  | .chmod path mode => returns (v.chmod path mode)
  | .forgetFd fd => (.done, v.forgetFd fd)
  | .cloneFd oldfd newfd => (.done, v.cloneFd oldfd newfd)
  | .setCwd path => (.done, v.setCwd path)
  | .getdents64 fd dirpIsNull count =>
    match v.getdents64 fd dirpIsNull count with
    | .panicked => (.records .panicked, v)
    | .returned r => (.records (.returned r.1), r.2)
  | .elsewhere live => (.done, v.setWorld (elsewhere live v.world))

def call (elsewhere : Finset Int → W → W) (v : RootVFS B H W) :
    VfsCall → VfsAnswer × RootVFS B H W
  | .op op => v.callOp elsewhere op
  | .access path mode => (.status (v.access path mode), v)
  | .stat path => (.stat (v.stat path), v)
  | .readDir path => (.listing (v.readDir path), v)
  | .fstat fd => (.stat (v.fstat fd), v)

end

structure SameInfo (P : Pairing H H' W W') (w : W) (w' : W') (info : FdInfo H)
    (info' : FdInfo H') : Prop where
  path : info.path = info'.path
  dirOffset : info.dirOffset = info'.dirOffset
  opened : Option.Rel (P.handles w w') info.opened info'.opened

structure Paired (P : Pairing H H' W W') (g : B → B') (v : RootVFS B H W)
    (v' : RootVFS B' H' W') : Prop where
  root : v'.root = g v.root
  mounts : ∀ p, v'.mounts p = (v.mounts p).map g
  cwd : v'.cwd = v.cwd
  inodeForPath : v'.inodeForPath = v.inodeForPath
  world : P.worlds v.world v'.world
  fds : ∀ fd : Int, Option.Rel (SameInfo P v.world v'.world) v.fds[fd]? v'.fds[fd]?

variable {P : Pairing H H' W W'} {g : B → B'} {v : RootVFS B H W} {v' : RootVFS B' H' W'}

theorem SameInfo.goes {w u : W} {w' u' : W'} {info : FdInfo H} {info' : FdInfo H'}
    (h : SameInfo P w w' info info') (hgo : P.Goes w w' u u') : SameInfo P u u' info info' := by
  refine ⟨h.path, h.dirOffset, ?_⟩
  cases hi : info.opened <;> cases hi' : info'.opened <;> have ho := h.opened <;>
    rw [hi, hi'] at ho <;> cases ho
  · exact .none
  · rename_i hh
    exact .some (hgo.handles _ _ hh)

theorem rel_goes {w u : W} {w' u' : W'} {o : Option (FdInfo H)} {o' : Option (FdInfo H')}
    (h : Option.Rel (SameInfo P w w') o o') (hgo : P.Goes w w' u u') :
    Option.Rel (SameInfo P u u') o o' := by
  cases h with
  | none => exact .none
  | some h => exact .some (h.goes hgo)

namespace Paired

theorem setWorld (h : Paired P g v v') {u : W} {u' : W'} (hgo : P.Goes v.world v'.world u u') :
    Paired P g (v.setWorld u) (v'.setWorld u') :=
  ⟨h.root, h.mounts, h.cwd, h.inodeForPath, hgo.worlds, fun fd => rel_goes (h.fds fd) hgo⟩

theorem setFds (h : Paired P g v v') {fds : Std.ExtTreeMap Int (FdInfo H) compare}
    {fds' : Std.ExtTreeMap Int (FdInfo H') compare}
    (hf : ∀ fd : Int, Option.Rel (SameInfo P v.world v'.world) fds[fd]? fds'[fd]?) :
    Paired P g { v with fds := fds } { v' with fds := fds' } :=
  ⟨h.root, h.mounts, h.cwd, h.inodeForPath, h.world, hf⟩

theorem insert (h : Paired P g v v') (fd : Int) {info : FdInfo H} {info' : FdInfo H'}
    (hi : SameInfo P v.world v'.world info info') :
    Paired P g { v with fds := v.fds.insert fd info } { v' with fds := v'.fds.insert fd info' } := by
  refine h.setFds fun fd' => ?_
  rw [getElem?_insert_fd, getElem?_insert_fd]
  split_ifs
  · exact .some hi
  · exact h.fds fd'

theorem erase (h : Paired P g v v') (fd : Int) :
    Paired P g { v with fds := v.fds.erase fd } { v' with fds := v'.fds.erase fd } := by
  refine h.setFds fun fd' => ?_
  rw [getElem?_erase_fd, getElem?_erase_fd]
  split_ifs
  · exact .none
  · exact h.fds fd'

theorem resolvePath (h : Paired P g v v') (path : Path) :
    v'.resolvePath path = v.resolvePath path := by
  cases path with
  | abs p => rfl
  | rel p => rw [RootVFS.resolvePath, RootVFS.resolvePath, h.cwd]

theorem resolveOpenatPath (h : Paired P g v v') (dirfd : Int) (path : Path) :
    v'.resolveOpenatPath dirfd path = v.resolveOpenatPath dirfd path := by
  cases path with
  | abs p => rfl
  | rel p =>
    unfold RootVFS.resolveOpenatPath
    dsimp only
    rw [h.resolvePath]
    have hfd := h.fds dirfd
    cases hi : v.fds[dirfd]? <;> cases hi' : v'.fds[dirfd]? <;> rw [hi, hi'] at hfd <;> cases hfd
    · rfl
    · rename_i hs
      rw [Option.map_some, Option.map_some, hs.path]

theorem absolutePathToFs (h : Paired P g v v') (p : PathBuf) :
    v'.absolutePathToFs p = v.absolutePathToFs p := by
  unfold RootVFS.absolutePathToFs
  simp only [h.mounts, Option.isSome_map]

theorem fsAt (h : Paired P g v v') (key : Option PathBuf) : v'.fsAt key = g (v.fsAt key) := by
  cases key with
  | none => exact h.root
  | some p =>
    rw [RootVFS.fsAt, RootVFS.fsAt, h.mounts, h.root]
    cases v.mounts p <;> rfl

end Paired

structure SameCall {R : Type} (P : Pairing H H' W W') (g : B → B') (r : R × RootVFS B H W)
    (r' : R × RootVFS B' H' W') : Prop where
  answer : r.1 = r'.1
  paired : Paired P g r.2 r'.2

namespace Paired

theorem trackOpen (h : Paired P g v v') {r : OpenResult H × W} {r' : OpenResult H' × W'}
    (hr : P.SameOpen v.world v'.world r r') (path : PathBuf) :
    SameCall P g ((v.setWorld r.2).trackOpen r.1 path) ((v'.setWorld r'.2).trackOpen r'.1 path) := by
  have hset := h.setWorld hr.goes
  unfold RootVFS.trackOpen
  rw [← hr.fd]
  split_ifs
  · exact ⟨rfl, hset.insert r.1.fd ⟨rfl, rfl, hr.opened⟩⟩
  · exact ⟨rfl, hset⟩

theorem cloneFd (h : Paired P g v v') (oldfd newfd : Int) :
    Paired P g (v.cloneFd oldfd newfd) (v'.cloneFd oldfd newfd) := by
  unfold RootVFS.cloneFd
  have hfd := h.fds oldfd
  cases hi : v.fds[oldfd]? <;> cases hi' : v'.fds[oldfd]? <;> rw [hi, hi'] at hfd <;> cases hfd
  · exact h.erase newfd
  · rename_i hs
    exact h.insert newfd hs

theorem handleOf (h : Paired P g v v') (dirfd : Int) :
    Option.Rel (P.handles v.world v'.world) (v.handleOf dirfd) (v'.handleOf dirfd) := by
  unfold RootVFS.handleOf
  split_ifs
  · exact .none
  · have hfd := h.fds dirfd
    cases hi : v.fds[dirfd]? <;> cases hi' : v'.fds[dirfd]? <;> rw [hi, hi'] at hfd <;> cases hfd
    · exact .none
    · rename_i hs
      exact hs.opened

theorem dispatch (h : Paired P g v v') {op : B → W → AbsPath → Int × W}
    {op' : B' → W' → AbsPath → Int × W'}
    (hop : ∀ b w w' (p : PathBuf), P.worlds w w' → P.Same w w' (op b w p.toAbs) (op' (g b) w' p.toAbs))
    (p : PathBuf) : SameCall P g (v.dispatch op p) (v'.dispatch op' p) := by
  have hs := hop (v.fsAt (v.absolutePathToFs p).1) v.world v'.world (v.absolutePathToFs p).2 h.world
  unfold RootVFS.dispatch
  dsimp only
  rw [h.absolutePathToFs, h.fsAt]
  exact ⟨hs.status, h.setWorld hs.goes⟩

section

variable [OpenedFile H W] [OpenedFile H' W'] (hh : AlikeHandles P)

include hh

theorem openatFromTrackedHandle (h : Paired P g v v') (dirfd : Int) (path : Path) (flags : Flags)
    (mode : Mode) : Option.Rel (SameCall P g) (v.openatFromTrackedHandle dirfd path flags mode)
      (v'.openatFromTrackedHandle dirfd path flags mode) := by
  cases path with
  | abs p => exact .none
  | rel p =>
    unfold RootVFS.openatFromTrackedHandle
    dsimp only
    split_ifs
    · exact .none
    · have hfd := h.fds dirfd
      cases hfd' : v.fds[dirfd]? <;> cases hfd'' : v'.fds[dirfd]? <;> rw [hfd', hfd''] at hfd <;>
        cases hfd
      · exact .none
      · rename_i info info' hs
        have ho := hs.opened
        simp only [Option.bind_eq_bind, Option.bind_some]
        cases hi : info.opened <;> cases hi' : info'.opened <;> rw [hi, hi'] at ho <;> cases ho
        · exact .none
        · rename_i f f' hff
          have hr := hh.openChild v.world v'.world f f' h.world hff (.rel p) flags mode
          simp only [Option.bind_some]
          cases hc : OpenedFile.openChild f v.world (.rel p) flags mode <;>
            cases hc' : OpenedFile.openChild f' v'.world (.rel p) flags mode <;>
            rw [hc, hc'] at hr <;> cases hr
          · exact .none
          · rename_i hsame
            rw [hs.path]
            exact .some (h.trackOpen hsame _)

theorem mkdiratFromTrackedHandle (h : Paired P g v v') (dirfd : Int) (path : Path) (mode : Mode) :
    Option.Rel (SameCall P g) (v.mkdiratFromTrackedHandle dirfd path mode)
      (v'.mkdiratFromTrackedHandle dirfd path mode) := by
  cases path with
  | abs p => exact .none
  | rel p =>
    unfold RootVFS.mkdiratFromTrackedHandle
    dsimp only
    split_ifs
    · exact .none
    · have hfd := h.fds dirfd
      cases hfd' : v.fds[dirfd]? <;> cases hfd'' : v'.fds[dirfd]? <;> rw [hfd', hfd''] at hfd <;>
        cases hfd
      · exact .none
      · rename_i info info' hs
        have ho := hs.opened
        simp only [Option.bind_eq_bind, Option.bind_some]
        cases hi : info.opened <;> cases hi' : info'.opened <;> rw [hi, hi'] at ho <;> cases ho
        · exact .none
        · rename_i f f' hff
          have hr := hh.mkdirChild v.world v'.world f f' h.world hff (.rel p) mode
          simp only [Option.bind_some]
          cases hc : OpenedFile.mkdirChild f v.world (.rel p) mode <;>
            cases hc' : OpenedFile.mkdirChild f' v'.world (.rel p) mode <;>
            rw [hc, hc'] at hr <;> cases hr
          · exact .none
          · rename_i hsame
            exact .some ⟨hsame.status, h.setWorld hsame.goes⟩

theorem fstat (h : Paired P g v v') (fd : Int) : v.fstat fd = v'.fstat fd := by
  unfold RootVFS.fstat
  have hfd := h.fds fd
  cases hi : v.fds[fd]? <;> cases hi' : v'.fds[fd]? <;> rw [hi, hi'] at hfd <;> cases hfd
  · rfl
  · rename_i info info' hs
    have ho := hs.opened
    simp only [Option.bind_eq_bind, Option.bind_some]
    cases hf : info.opened <;> cases hf' : info'.opened <;> rw [hf, hf'] at ho <;> cases ho
    · rfl
    · rename_i hff
      simp only [Option.bind_some, hh.stat _ _ _ _ h.world hff]

end

variable [LowLevelFS B H W] [LowLevelFS B' H' W'] (hg : ∀ b, Alike P b (g b))

include hg

theorem openVirtual (h : Paired P g v v') (p : PathBuf) (flags : Flags) (mode : Mode) :
    SameCall P g (v.openVirtual p flags mode) (v'.openVirtual p flags mode) := by
  unfold RootVFS.openVirtual
  dsimp only
  rw [h.absolutePathToFs, h.fsAt]
  exact h.trackOpen ((hg _).openWithHandle _ _ h.world _ flags mode) p

theorem renameVirtual (h : Paired P g v v') (old new : PathBuf) :
    SameCall P g (v.renameVirtual old new) (v'.renameVirtual old new) := by
  unfold RootVFS.renameVirtual
  dsimp only
  rw [h.absolutePathToFs, h.absolutePathToFs, h.fsAt]
  split_ifs
  · exact ⟨rfl, h⟩
  · have hs := (hg (v.fsAt (v.absolutePathToFs old).1)).rename _ _ h.world
      (v.absolutePathToFs old).2 (v.absolutePathToFs new).2
    exact ⟨hs.status, h.setWorld hs.goes⟩

theorem renameat (h : Paired P g v v') (oldDirfd : Int) (oldPath : Path) (newDirfd : Int)
    (newPath : Path) : SameCall P g (v.renameat oldDirfd oldPath newDirfd newPath)
      (v'.renameat oldDirfd oldPath newDirfd newPath) := by
  unfold RootVFS.renameat
  rw [h.resolveOpenatPath, h.resolveOpenatPath]
  split
  · exact h.renameVirtual hg _ _
  · exact ⟨rfl, h⟩

theorem mkdirVirtual (h : Paired P g v v') (p : PathBuf) (mode : Mode) :
    SameCall P g (v.dispatch (fun fs w p => LowLevelFS.mkdir fs w p mode) p)
      (v'.dispatch (fun fs w p => LowLevelFS.mkdir fs w p mode) p) :=
  h.dispatch (fun b w w' p hw => (hg b).mkdir w w' hw p mode) p

theorem rmdirVirtual (h : Paired P g v v') (p : PathBuf) :
    SameCall P g (v.dispatch LowLevelFS.rmdir p) (v'.dispatch LowLevelFS.rmdir p) :=
  h.dispatch (fun b w w' p hw => (hg b).rmdir w w' hw p) p

theorem unlinkVirtual (h : Paired P g v v') (p : PathBuf) :
    SameCall P g (v.dispatch LowLevelFS.unlink p) (v'.dispatch LowLevelFS.unlink p) :=
  h.dispatch (fun b w w' p hw => (hg b).unlink w w' hw p) p

theorem unlinkat (h : Paired P g v v') (dirfd : Int) (path : Path) (flags : Flags) :
    SameCall P g (v.unlinkat dirfd path flags) (v'.unlinkat dirfd path flags) := by
  unfold RootVFS.unlinkat
  rw [h.resolveOpenatPath]
  split
  · exact ⟨rfl, h⟩
  · split_ifs
    · exact h.rmdirVirtual hg _
    · exact h.unlinkVirtual hg _

variable [OpenedFile H W] [OpenedFile H' W'] (hh : AlikeHandles P)

include hh

theorem openat (h : Paired P g v v') (dirfd : Int) (path : Path) (flags : Flags) (mode : Mode) :
    SameCall P g (v.openat dirfd path flags mode) (v'.openat dirfd path flags mode) := by
  have hr := h.openatFromTrackedHandle hh dirfd path flags mode
  unfold RootVFS.openat
  rw [h.resolveOpenatPath]
  cases hc : v.openatFromTrackedHandle dirfd path flags mode <;>
    cases hc' : v'.openatFromTrackedHandle dirfd path flags mode <;> rw [hc, hc'] at hr <;>
    cases hr
  · dsimp only
    split
    · exact ⟨rfl, h⟩
    · exact h.openVirtual hg _ flags mode
  · assumption

theorem mkdirat (h : Paired P g v v') (dirfd : Int) (path : Path) (mode : Mode) :
    SameCall P g (v.mkdirat dirfd path mode) (v'.mkdirat dirfd path mode) := by
  have hr := h.mkdiratFromTrackedHandle hh dirfd path mode
  unfold RootVFS.mkdirat
  rw [h.resolveOpenatPath]
  cases hc : v.mkdiratFromTrackedHandle dirfd path mode <;>
    cases hc' : v'.mkdiratFromTrackedHandle dirfd path mode <;> rw [hc, hc'] at hr <;> cases hr
  · dsimp only
    split
    · exact ⟨rfl, h⟩
    · exact h.mkdirVirtual hg _ mode
  · assumption

theorem dirEntries (h : Paired P g v v') {info : FdInfo H} {info' : FdInfo H'}
    (hs : SameInfo P v.world v'.world info info') : v.dirEntries info = v'.dirEntries info' := by
  have hlist : info.opened.bind (OpenedFile.readDir · v.world) =
      info'.opened.bind (OpenedFile.readDir · v'.world) := by
    have ho := hs.opened
    cases hf : info.opened <;> cases hf' : info'.opened <;> rw [hf, hf'] at ho <;> cases ho
    · rfl
    · rename_i hff
      exact hh.readDir _ _ _ _ h.world hff
  unfold RootVFS.dirEntries RootVFS.listing
  dsimp only
  rw [hlist, ← hs.path, h.absolutePathToFs, h.fsAt, (hg _).readDir _ _ h.world]

theorem getdents64 (h : Paired P g v v') (fd : Int) (dirpIsNull : Bool) (count : Int) :
    (v.getdents64 fd dirpIsNull count = .panicked ∧ v'.getdents64 fd dirpIsNull count = .panicked) ∨
      ∃ r r', v.getdents64 fd dirpIsNull count = .returned r ∧
        v'.getdents64 fd dirpIsNull count = .returned r' ∧ SameCall P g r r' := by
  unfold RootVFS.getdents64
  have hfd := h.fds fd
  cases hi : v.fds[fd]? <;> cases hi' : v'.fds[fd]? <;> rw [hi, hi'] at hfd <;> cases hfd
  · exact Or.inr ⟨_, _, rfl, rfl, rfl, h⟩
  · rename_i info info' hs
    simp only [← h.dirEntries hg hh hs]
    cases v.dirEntries info with
    | none => exact Or.inr ⟨_, _, rfl, rfl, rfl, h⟩
    | some entries =>
      simp only [← hs.dirOffset, ← hs.path, h.inodeForPath]
      split_ifs with hlen hres
      · exact Or.inl ⟨rfl, rfl⟩
      · refine Or.inr ⟨_, _, rfl, rfl, rfl, ?_⟩
        exact h.insert fd ⟨hs.path, by simp only [hs.dirOffset], hs.opened⟩
      · exact Or.inr ⟨_, _, rfl, rfl, rfl, h⟩

theorem callOp (h : Paired P g v v') {elsewhere : Finset Int → W → W}
    {elsewhere' : Finset Int → W' → W'}
    (he : ∀ live w w', P.worlds w w' → P.Goes w w' (elsewhere live w) (elsewhere' live w'))
    (op : VfsOp) : SameCall P g (v.callOp elsewhere op) (v'.callOp elsewhere' op) := by
  have hret {r : Int × RootVFS B H W} {r' : Int × RootVFS B' H' W'} (hr : SameCall P g r r') :
      SameCall P g (returns r) (returns r') := ⟨congrArg VfsAnswer.status hr.answer, hr.paired⟩
  cases op with
  | openPath path flags mode =>
    refine hret ?_
    unfold RootVFS.openPath
    rw [h.resolvePath]
    exact h.openVirtual hg _ flags mode
  | openat dirfd path flags mode => exact hret (h.openat hg hh dirfd path flags mode)
  | mkdir path mode =>
    refine hret ?_
    unfold RootVFS.mkdir
    rw [h.resolvePath]
    exact h.mkdirVirtual hg _ mode
  | mkdirat dirfd path mode => exact hret (h.mkdirat hg hh dirfd path mode)
  | unlink path =>
    refine hret ?_
    unfold RootVFS.unlink
    rw [h.resolvePath]
    exact h.unlinkVirtual hg _
  | unlinkat dirfd path flags => exact hret (h.unlinkat hg dirfd path flags)
  | rmdir path =>
    refine hret ?_
    unfold RootVFS.rmdir
    rw [h.resolvePath]
    exact h.rmdirVirtual hg _
  | rename oldPath newPath => exact hret (h.renameat hg AT_FDCWD oldPath AT_FDCWD newPath)
  | renameat oldDirfd oldPath newDirfd newPath =>
    exact hret (h.renameat hg oldDirfd oldPath newDirfd newPath)
  | chmod path mode =>
    refine hret ?_
    unfold RootVFS.chmod
    rw [h.resolvePath]
    exact h.dispatch (fun b w w' p hw => (hg b).chmod w w' hw p mode) _
  | forgetFd fd => exact ⟨rfl, h.erase fd⟩
  | cloneFd oldfd newfd => exact ⟨rfl, h.cloneFd oldfd newfd⟩
  | setCwd path => exact ⟨rfl, h.root, h.mounts, rfl, h.inodeForPath, h.world, h.fds⟩
  | getdents64 fd dirpIsNull count =>
    simp only [RootVFS.callOp]
    rcases h.getdents64 hg hh fd dirpIsNull count with ⟨hp, hp'⟩ | ⟨r, r', hr, hr', hs⟩
    · rw [hp, hp']
      exact ⟨rfl, h⟩
    · rw [hr, hr']
      exact ⟨congrArg (VfsAnswer.records ∘ .returned) hs.answer, hs.paired⟩
  | elsewhere live => exact ⟨rfl, h.setWorld (he live _ _ h.world)⟩

theorem call (h : Paired P g v v') {elsewhere : Finset Int → W → W}
    {elsewhere' : Finset Int → W' → W'}
    (he : ∀ live w w', P.worlds w w' → P.Goes w w' (elsewhere live w) (elsewhere' live w'))
    (c : VfsCall) : SameCall P g (v.call elsewhere c) (v'.call elsewhere' c) := by
  cases c with
  | op op => exact h.callOp hg hh he op
  | access path mode =>
    refine ⟨congrArg VfsAnswer.status ?_, h⟩
    unfold RootVFS.access
    rw [h.resolvePath, h.absolutePathToFs]
    dsimp only
    rw [h.fsAt]
    exact (hg _).access _ _ h.world _ mode
  | stat path =>
    refine ⟨congrArg VfsAnswer.stat ?_, h⟩
    unfold RootVFS.stat
    rw [h.resolvePath, h.absolutePathToFs]
    dsimp only
    rw [h.fsAt]
    exact (hg _).stat _ _ h.world _
  | readDir path =>
    refine ⟨congrArg VfsAnswer.listing ?_, h⟩
    unfold RootVFS.readDir
    rw [h.resolvePath, h.absolutePathToFs]
    dsimp only
    rw [h.fsAt]
    exact (hg _).readDir _ _ h.world _
  | fstat fd => exact ⟨congrArg VfsAnswer.stat (h.fstat hh fd), h⟩

end Paired

/-- Runs over backends that are alike give the same answers. -/
theorem outputs_alike [LowLevelFS B H W] [LowLevelFS B' H' W'] [OpenedFile H W] [OpenedFile H' W']
    (hg : ∀ b, Alike P b (g b)) (hh : AlikeHandles P) {elsewhere : Finset Int → W → W}
    {elsewhere' : Finset Int → W' → W'}
    (he : ∀ live w w', P.worlds w w' → P.Goes w w' (elsewhere live w) (elsewhere' live w'))
    (h : Paired P g v v') (cs : List VfsCall) :
    Runs.outputs (call elsewhere) v cs = Runs.outputs (call elsewhere') v' cs := by
  have hsim : Runs.Simulates (call elsewhere) (call elsewhere') (fun _ _ => True) (Paired P g) :=
    fun v v' c hv _ => ⟨(hv.call hg hh he c).answer, (hv.call hg hh he c).paired⟩
  exact hsim.outputs_eq h (.of_forall_mem (P := fun _ => True) fun _ _ => trivial)

end RootVFS

end SandboxVfs
