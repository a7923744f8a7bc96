import SandboxVfs.BackendSteps
import SandboxVfs.Library.Runs

/-! What a call of the virtual file system can do to its state, said once for all
calls, and the invariant that every run keeps. -/

namespace SandboxVfs

variable {ι : Type} [DecidableEq ι]

namespace Vfs

variable {v v' : Vfs ι} {op : VfsOp}

structure WF (v : Vfs ι) : Prop where
  world : v.world.WF
  handle : ∀ (fd : Int) (info : FdInfo (MemoryOpenedFile ι)), v.fds[fd]? = some info →
    ∃ h, info.opened = some h ∧ ((v.world.fs h.nodes.index).inodeOf h.node).isSome

/-- What opening and `mkdir` do: the file systems grow, and there may be a new entry
for a descriptor that was not in use. -/
inductive Growth (v v' : Vfs ι) : Prop
  | grown (world : World ι) (hc : World.Grows Set.univ v.world world)
      (he : v' = v.setWorld world)
  | opened (world : World ι) (fd : Int) (path : PathBuf) (h : MemoryOpenedFile ι)
      (hc : World.Grows Set.univ v.world world)
      (hk : ((world.fs h.nodes.index).inodeOf h.node).isSome) (hfd : 0 ≤ fd)
      (hfresh : fd ∉ v.world.sys.live ∧ fd ∈ world.sys.live)
      (he : v' = { v.setWorld world with fds := v.fds.insert fd ⟨path, 0, some h⟩ })

inductive Step (v : Vfs ι) (op : VfsOp) (v' : Vfs ι) : Prop
  | growth (h : Growth v v')
  | update (world : World ι) (hc : World.Changes Set.univ v.world world)
      (he : v' = v.setWorld world)
  | forgotten (fd : Int) (hop : op = .forgetFd fd) (he : v' = v.forgetFd fd)
  | cloned (oldfd newfd : Int) (hop : op = .cloneFd oldfd newfd)
      (he : v' = v.cloneFd oldfd newfd)
  | cwd (path : AbsPath) (he : v' = v.setCwd path)
  | advanced (fd : Int) (dirpIsNull : Bool) (count : Int) (info : FdInfo (MemoryOpenedFile ι))
      (entries : List VfsDirEntry) (n : Nat) (hop : op = .getdents64 fd dirpIsNull count)
      (hi : v.fds[fd]? = some info) (hl : v.dirEntries info = some entries)
      (hn : info.dirOffset + n ≤ entries.length) (he : v' = v.advance fd info n)
  | elsewhere (live : Finset Int) (hop : op = .elsewhere live)
      (he : v' = v.setWorld { v.world with sys := { v.world.sys with live := live } })

theorem Step.refl (v : Vfs ι) (op : VfsOp) : Step v op v := .update v.world .refl rfl

omit [DecidableEq ι] in
theorem Growth.refl (v : Vfs ι) : Growth v v := .grown v.world .refl rfl

omit [DecidableEq ι] in
theorem trackOpen_growth {world : World ι} (hc : World.Grows Set.univ v.world world)
    {r : OpenResult (MemoryOpenedFile ι)} (ho : World.OpenOk v.world world r) (path : PathBuf) :
    Growth v ((v.setWorld world).trackOpen r path).2 := by
  by_cases hfd : 0 ≤ r.fd
  · obtain ⟨h, hh⟩ := Option.isSome_iff_exists.mp (ho.isSome_iff.mpr hfd)
    refine .opened world r.fd path h hc (ho.known h hh) hfd (ho.fresh hfd) ?_
    simp [RootVFS.trackOpen, hfd, hh, RootVFS.setWorld]
  · refine .grown world hc ?_
    simp [RootVFS.trackOpen, hfd]

/-- An open that is refused before it reaches a backend, or one whose result is tracked. -/
def Opening (v : Vfs ι) (r : Int × Vfs ι) : Prop :=
  r = (-1, v) ∨ ∃ result world path, World.Grows Set.univ v.world world ∧
    World.OpenOk v.world world result ∧ r = (v.setWorld world).trackOpen result path

theorem openVirtual_opening (hv : v.WF) (path : PathBuf) (flags : Flags) (mode : Mode) :
    Opening v (v.openVirtual path flags mode) := by
  obtain ⟨hc, ho⟩ := Backend.openWithHandle_spec hv.world (v.fsAt (v.absolutePathToFs path).1)
    (v.absolutePathToFs path).2.toAbs flags mode
  exact Or.inr ⟨_, _, path, hc.mono (Set.subset_univ _), ho, rfl⟩

omit [DecidableEq ι] in
theorem Opening.growth {r : Int × Vfs ι} (h : Opening v r) : Growth v r.2 := by
  rcases h with rfl | ⟨result, world, path, hc, ho, rfl⟩
  · exact Growth.refl v
  · exact trackOpen_growth hc ho path

theorem dispatch_step {g : Backend ι → World ι → AbsPath → Int × World ι}
    (hg : ∀ b p, World.Changes b.indices v.world (g b v.world p).2) (path : PathBuf) :
    Step v op (v.dispatch g path).2 :=
  .update _ ((hg _ _).mono (Set.subset_univ _)) rfl

theorem mkdirVirtual_growth (hv : v.WF) (path : PathBuf) (mode : Mode) :
    Growth v (v.dispatch (fun fs w p => LowLevelFS.mkdir fs w p mode) path).2 :=
  .grown _ ((Backend.mkdir_spec hv.world _ _ mode).mono (Set.subset_univ _)) rfl

omit [DecidableEq ι] in
theorem handle_known (hv : v.WF) {dirfd : Int} {h : MemoryOpenedFile ι}
    (hh : v.handleOf dirfd = some h) : ((v.world.fs h.nodes.index).inodeOf h.node).isSome := by
  obtain ⟨-, info, hi, ho⟩ := RootVFS.handleOf_eq_some hh
  obtain ⟨h', hh', hk⟩ := hv.handle dirfd info hi
  cases ho.symm.trans hh'
  exact hk

theorem openat_opening (hv : v.WF) (dirfd : Int) (path : Path) (flags : Flags) (mode : Mode) :
    Opening v (v.openat dirfd path flags mode) := by
  cases path with
  | abs p => exact openVirtual_opening hv _ flags mode
  | rel p =>
    cases hh : v.handleOf dirfd with
    | none =>
      rw [RootVFS.openat_of_no_handle hh]
      cases v.resolveOpenatPath dirfd (.rel p) with
      | none => exact Or.inl rfl
      | some path => exact openVirtual_opening hv path flags mode
    | some h =>
      obtain ⟨r, world, hr, hc, ho⟩ := World.handle_openChild hv.world (handle_known hv hh) p flags mode
      obtain ⟨path, -, he⟩ := RootVFS.openat_of_handle hh p flags mode hr
      exact Or.inr ⟨r, world, path, hc.mono (Set.subset_univ _), ho, he⟩

theorem mkdirat_growth (hv : v.WF) (dirfd : Int) (path : Path) (mode : Mode) :
    Growth v (v.mkdirat dirfd path mode).2 := by
  cases path with
  | abs p => exact mkdirVirtual_growth hv _ mode
  | rel p =>
    cases hh : v.handleOf dirfd with
    | none =>
      rw [RootVFS.mkdirat_of_no_handle hh]
      cases v.resolveOpenatPath dirfd (.rel p) with
      | none => exact Growth.refl v
      | some path => exact mkdirVirtual_growth hv path mode
    | some h =>
      obtain ⟨r, world, hr, hc⟩ := World.handle_mkdirChild hv.world h p mode
      rw [RootVFS.mkdirat_of_handle hh p mode hr]
      exact .grown world (hc.mono (Set.subset_univ _)) rfl

theorem unlinkat_step (hv : v.WF) (dirfd : Int) (path : Path) (flags : Flags) :
    Step v op (v.unlinkat dirfd path flags).2 := by
  unfold RootVFS.unlinkat
  split
  · exact Step.refl v _
  · split_ifs
    · exact dispatch_step (fun b p => Backend.rmdir_spec hv.world b p) _
    · exact dispatch_step (fun b p => Backend.unlink_spec hv.world b p) _

theorem renameVirtual_step (hv : v.WF) (oldPath newPath : PathBuf) :
    Step v op (v.renameVirtual oldPath newPath).2 := by
  unfold RootVFS.renameVirtual
  dsimp only
  split_ifs
  · exact Step.refl v _
  · exact .update _ ((Backend.rename_spec hv.world _ _ _).mono (Set.subset_univ _)) rfl

theorem renameat_step (hv : v.WF) (oldDirfd : Int) (oldPath : Path) (newDirfd : Int)
    (newPath : Path) : Step v op (v.renameat oldDirfd oldPath newDirfd newPath).2 := by
  unfold RootVFS.renameat
  split
  · exact renameVirtual_step hv _ _
  · exact Step.refl v _

/-- `getdents64` moves one offset, within the listing, or does nothing. -/
theorem getdents64_step_cases (v : Vfs ι) (fd : Int) (dirpIsNull : Bool) (count : Int) :
    v.step (.getdents64 fd dirpIsNull count) = v ∨
      ∃ info n, v.step (.getdents64 fd dirpIsNull count) = v.advance fd info n ∧
        v.fds[fd]? = some info ∧ ∃ entries, v.dirEntries info = some entries ∧
          info.dirOffset + n ≤ entries.length := by
  simp only [step, RootVFS.getdents64]
  cases hi : v.fds[fd]? with
  | none => exact Or.inl rfl
  | some info =>
    cases hl : v.dirEntries info with
    | none => simp [hl]
    | some entries =>
      simp only [hl]
      by_cases hlen : entries.length < info.dirOffset
      · simp [hlen]
      · simp only [if_neg hlen]
        have hcons := (writeDirents64_records v.inodeForPath info.path
          (entries.drop info.dirOffset) info.dirOffset dirpIsNull count).1
        rw [List.length_drop] at hcons
        split_ifs
        · exact Or.inr ⟨info, _, rfl, rfl, entries, hl, by omega⟩
        · exact Or.inl rfl

theorem getdents64_step (v : Vfs ι) (fd : Int) (dirpIsNull : Bool) (count : Int) :
    Step v (.getdents64 fd dirpIsNull count) (v.step (.getdents64 fd dirpIsNull count)) := by
  rcases getdents64_step_cases v fd dirpIsNull count with he | ⟨info, n, he, hi, entries, hl, hn⟩
  · rw [he]
    exact Step.refl v _
  · exact .advanced fd dirpIsNull count info entries n rfl hi hl hn he

theorem step_spec (hv : v.WF) (op : VfsOp) : Step v op (v.step op) := by
  cases op with
  | openPath path flags mode => exact .growth (openVirtual_opening hv _ flags mode).growth
  | openat dirfd path flags mode => exact .growth (openat_opening hv dirfd path flags mode).growth
  | mkdir path mode => exact .growth (mkdirVirtual_growth hv _ mode)
  | mkdirat dirfd path mode => exact .growth (mkdirat_growth hv dirfd path mode)
  | unlink path => exact dispatch_step (fun b p => Backend.unlink_spec hv.world b p) _
  | unlinkat dirfd path flags => exact unlinkat_step hv dirfd path flags
  | rmdir path => exact dispatch_step (fun b p => Backend.rmdir_spec hv.world b p) _
  | rename oldPath newPath => exact renameat_step hv AT_FDCWD oldPath AT_FDCWD newPath
  | renameat oldDirfd oldPath newDirfd newPath =>
    exact renameat_step hv oldDirfd oldPath newDirfd newPath
  | chmod path mode => exact dispatch_step (fun b p => Backend.chmod_spec b p mode) _
  | forgetFd fd => exact .forgotten fd rfl rfl
  | cloneFd oldfd newfd => exact .cloned oldfd newfd rfl rfl
  | setCwd path => exact .cwd path rfl
  | getdents64 fd dirpIsNull count => exact getdents64_step v fd dirpIsNull count
  | elsewhere live => exact .elsewhere live rfl rfl

theorem Step.wf (hv : v.WF) (h : Step v op v') : v'.WF := by
  -- a handle of the old state is still on a known node
  have hkeep {world : World ι} (hc : World.Changes Set.univ v.world world) (fd : Int)
      (info : FdInfo (MemoryOpenedFile ι)) (hi : v.fds[fd]? = some info) :
      ∃ h, info.opened = some h ∧ ((world.fs h.nodes.index).inodeOf h.node).isSome := by
    obtain ⟨h, hh, hk⟩ := hv.handle fd info hi
    obtain ⟨n, hn⟩ := Option.isSome_iff_exists.mp hk
    obtain ⟨n', hn', -⟩ := hc.kept hn
    exact ⟨h, hh, by rw [hn']; rfl⟩
  cases h with
  | growth h =>
    cases h with
    | grown world hc he =>
      subst he
      exact ⟨hc.wf hv.world, hkeep hc.changes⟩
    | opened world fd path h hc hk hfd hfresh he =>
      subst he
      refine ⟨hc.wf hv.world, ?_⟩
      intro fd' info hi
      simp only [RootVFS.getElem?_insert_fd] at hi
      split_ifs at hi
      · cases hi
        exact ⟨h, rfl, hk⟩
      · exact hkeep hc.changes fd' info hi
  | update world hc he =>
    subst he
    exact ⟨hc.wf hv.world, hkeep hc⟩
  | forgotten fd hop he =>
    subst he
    refine ⟨hv.world, ?_⟩
    intro fd' info hi
    rw [RootVFS.forgetFd_getElem?] at hi
    split_ifs at hi
    exact hv.handle fd' info hi
  | cloned oldfd newfd hop he =>
    subst he
    refine ⟨by rw [RootVFS.cloneFd_world]; exact hv.world, ?_⟩
    intro fd' info hi
    rw [RootVFS.cloneFd_getElem?] at hi
    rw [RootVFS.cloneFd_world]
    split_ifs at hi
    · exact hv.handle oldfd info hi
    · exact hv.handle fd' info hi
  | cwd path he =>
    subst he
    exact ⟨hv.world, hv.handle⟩
  | advanced fd dirpIsNull count info entries n hop hi hl hn he =>
    subst he
    refine ⟨hv.world, ?_⟩
    intro fd' info' hi'
    rw [RootVFS.advance_getElem?] at hi'
    split_ifs at hi'
    · cases hi'
      exact hv.handle fd info hi
    · exact hv.handle fd' info' hi'
  | elsewhere live hop he =>
    subst he
    exact ⟨⟨hv.world.fs, hv.world.apart⟩, hv.handle⟩

theorem Step.root_eq (h : Step v op v') : v'.root = v.root := by
  cases h with
  | growth h => cases h <;> simp_all [RootVFS.setWorld]
  | cloned oldfd newfd hop he =>
    subst he
    unfold RootVFS.cloneFd
    split <;> rfl
  | _ => simp_all [RootVFS.setWorld, RootVFS.forgetFd, RootVFS.setCwd, RootVFS.advance]

theorem Step.mounts_eq (h : Step v op v') : v'.mounts = v.mounts := by
  cases h with
  | growth h => cases h <;> simp_all [RootVFS.setWorld]
  | cloned oldfd newfd hop he =>
    subst he
    unfold RootVFS.cloneFd
    split <;> rfl
  | _ => simp_all [RootVFS.setWorld, RootVFS.forgetFd, RootVFS.setCwd, RootVFS.advance]

omit [DecidableEq ι] in
theorem Growth.world (h : Growth v v') : World.Grows Set.univ v.world v'.world := by
  cases h with
  | grown world hc he => exact he ▸ hc
  | opened world fd path h hc hk hfd hfresh he => exact he ▸ hc

theorem Step.changes (h : Step v op v') :
    ∃ w, World.Changes Set.univ v.world w ∧ v'.world.fs = w.fs := by
  have hsame (he : v'.world = v.world) :
      ∃ w, World.Changes Set.univ v.world w ∧ v'.world.fs = w.fs := ⟨v.world, .refl, by rw [he]⟩
  cases h with
  | growth h => exact ⟨_, h.world.changes, rfl⟩
  | update world hc he => exact ⟨world, hc, by rw [he]; rfl⟩
  | forgotten fd hop he => exact hsame (by rw [he]; rfl)
  | cloned oldfd newfd hop he => exact hsame (by rw [he, RootVFS.cloneFd_world])
  | cwd path he => exact hsame (by rw [he]; rfl)
  | advanced fd dirpIsNull count info entries n hop hi hl hn he => exact hsame (by rw [he]; rfl)
  | elsewhere live hop he => exact ⟨v.world, .refl, by rw [he]; rfl⟩

theorem Step.isDir_eq (h : Step v op v') {i : ι} {id : NodeId}
    (hk : ((v.world.fs i).inodeOf id).isSome) :
    (v'.world.fs i).isDir id = (v.world.fs i).isDir id := by
  obtain ⟨w, hc, he⟩ := h.changes
  rw [he]
  exact hc.isDir_eq hk

theorem mkdirat_fds (v : Vfs ι) (dirfd : Int) (path : Path) (mode : Mode) :
    (v.mkdirat dirfd path mode).2.fds = v.fds := by
  cases path with
  | abs p => rfl
  | rel p =>
    cases hh : v.handleOf dirfd with
    | none =>
      rw [RootVFS.mkdirat_of_no_handle hh]
      cases v.resolveOpenatPath dirfd (.rel p) <;> rfl
    | some h =>
      rw [RootVFS.mkdirat_of_handle hh p mode rfl]
      rfl

theorem unlinkat_fds (v : Vfs ι) (dirfd : Int) (path : Path) (flags : Flags) :
    (v.unlinkat dirfd path flags).2.fds = v.fds := by
  unfold RootVFS.unlinkat
  split
  · rfl
  · split_ifs <;> rfl

theorem renameat_fds (v : Vfs ι) (oldDirfd : Int) (oldPath : Path) (newDirfd : Int)
    (newPath : Path) : (v.renameat oldDirfd oldPath newDirfd newPath).2.fds = v.fds := by
  unfold RootVFS.renameat
  split
  · unfold RootVFS.renameVirtual
    dsimp only
    split_ifs <;> rfl
  · rfl

theorem step_wf (hv : v.WF) (op : VfsOp) : (v.step op).WF := (step_spec hv op).wf hv

theorem run_wf (hv : v.WF) (ops : List VfsOp) : (v.run ops).WF :=
  Runs.foldl_inv WF (fun _ op hs => step_wf hs op) hv ops

/-- The root and all mounts are memory file systems. -/
structure OverMemory (v : Vfs ι) : Prop where
  root : ∃ f, v.root = .memory f
  mounts : ∀ p b, v.mounts p = some b → ∃ f, b = .memory f

omit [DecidableEq ι] in
theorem OverMemory.fsAt (h : OverMemory v) (key : Option PathBuf) : ∃ f, v.fsAt key = .memory f := by
  cases key with
  | none => exact h.root
  | some p =>
    cases hp : v.mounts p with
    | none =>
      obtain ⟨f, hf⟩ := h.root
      exact ⟨f, by simp [RootVFS.fsAt, hp, hf]⟩
    | some b =>
      obtain ⟨f, hf⟩ := h.mounts p b hp
      exact ⟨f, by simp [RootVFS.fsAt, hp, hf]⟩

theorem OverMemory.run (h : OverMemory v) (hv : v.WF) (ops : List VfsOp) :
    OverMemory (v.run ops) ∧ (v.run ops).WF := by
  refine Runs.foldl_inv (fun v => OverMemory v ∧ v.WF) ?_ ⟨h, hv⟩ ops
  rintro v op ⟨hm, hv⟩
  have hs := step_spec hv op
  exact ⟨⟨by rw [hs.root_eq]; exact hm.root, by rw [hs.mounts_eq]; exact hm.mounts⟩, hs.wf hv⟩

end Vfs

end SandboxVfs
