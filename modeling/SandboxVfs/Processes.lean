import SandboxVfs.VfsSteps

/-! The process around the virtual file system: the kernel's part of the hooks of `close`
and `dup`, and the nodes that are dropped with the last reference to them. -/

namespace SandboxVfs

open MemoryFS

/-- The node that a call has taken out of the node map. -/
def MemoryFS.removedNode (fs fs' : MemoryFS) : Option NodeId :=
  ((fs.nodes \ fs'.nodes).sort (· ≤ ·)).head?

namespace MemoryFS

variable {fs fs' : MemoryFS} {next : NodeId}

def LosesOne (fs fs' : MemoryFS) : Prop :=
  fs'.nodes = fs.nodes ∨ ∃ c ∈ fs.nodes, fs'.nodes = fs.nodes.erase c

theorem LosesOne.mem_iff (h : LosesOne fs fs') (id : NodeId) :
    id ∈ fs'.nodes ↔ id ∈ fs.nodes ∧ removedNode fs fs' ≠ some id := by
  rcases h with he | ⟨c, hc, he⟩
  · simp [removedNode, he]
  · have hdiff : fs.nodes \ fs'.nodes = {c} := by
      ext j
      rw [he, Finset.mem_sdiff, Finset.mem_erase, Finset.mem_singleton]
      constructor
      · rintro ⟨hj, hn⟩
        by_contra hne
        exact hn ⟨hne, hj⟩
      · rintro rfl
        exact ⟨hc, fun hj => hj.1 rfl⟩
    have hrem : removedNode fs fs' = some c := by simp [removedNode, hdiff]
    rw [hrem, he, Finset.mem_erase, ne_eq, ne_eq, Option.some.injEq, eq_comm, and_comm]

theorem mem_of_removedNode {id : NodeId} (hr : removedNode fs fs' = some id) :
    id ∈ fs.nodes ∧ id ∉ fs'.nodes := by
  have hmem : id ∈ (fs.nodes \ fs'.nodes).sort (· ≤ ·) := List.mem_of_mem_head? hr
  simpa using hmem

theorem removeNodeAt_losesOne (h : fs.WF next) (path : AbsPath) (kind : VfsEntryKind) :
    LosesOne fs (fs.removeNodeAt path kind).2 := by
  rcases removeNodeAt_cases h path kind with he | ⟨d, x, c, -, -, -, hr⟩
  · rw [he]
    exact Or.inl rfl
  · exact Or.inr ⟨c, h.entry_mem d x c hr.present, hr.nodes⟩

theorem renameNodeAt_losesOne (h : fs.WF next) {oldPath newPath : AbsPath}
    (hr : fs.renameNodeAt oldPath newPath = some fs') : LosesOne fs fs' := by
  rcases renameNodeAt_cases h hr with ⟨rfl, -⟩ | ⟨a, x, b, y, c, replaced, -, -, hm, -, -⟩
  · exact Or.inl rfl
  · cases replaced with
    | none => exact Or.inl hm.nodes
    | some r => exact Or.inr ⟨r, h.entry_mem b y r hm.replaced_eq, hm.nodes⟩

end MemoryFS

variable {ι : Type} [DecidableEq ι]

/-- The hooked calls. `dup` is that of `dup`, `dup2`, `dup3` and `fcntl`, with the number
that the kernel answers. Of the calls of `VfsOp`, those that no hook makes on its own do
nothing here. -/
inductive HookCall where
  | vfs (op : VfsOp)
  | close (fd : Int)
  | dup (oldfd newfd : Int)

namespace Vfs

variable (v : Vfs ι)

def live : Finset Int := v.world.sys.live

def setLive (live : Finset Int) : Vfs ι := v.step (.elsewhere live)

def opened (fd : Int) : Option (MemoryOpenedFile ι) := v.fds[fd]?.bind (·.opened)

def backingFd (h : MemoryOpenedFile ι) : Int :=
  ((v.world.fs h.nodes.index).heap h.node).elim (-1) (·.kind.backingFd)

def inMap (h : MemoryOpenedFile ι) : Bool := h.node ∈ (v.world.fs h.nodes.index).nodes

/-- The node map or a handle in the table refers to the node. -/
def referenced (h : MemoryOpenedFile ι) : Bool :=
  v.inMap h || v.fds.toList.any (fun e => e.2.opened == some h)

/-- The path at which a call may take a node out of the namespace. -/
def removalPath : VfsOp → Option PathBuf
  | .unlink path | .rmdir path => some (v.resolvePath path)
  | .unlinkat dirfd path _ => v.resolveOpenatPath dirfd path
  | .rename _ newPath => some (v.resolvePath newPath)
  | .renameat _ _ newDirfd newPath => v.resolveOpenatPath newDirfd newPath
  | _ => none

/-- The node that the call takes out of its node map. -/
def removed (op : VfsOp) : Option (MemoryOpenedFile ι) := do
  let path ← v.removalPath op
  match v.fsAt (v.absolutePathToFs path).1 with
  | .memory f =>
    let node ← removedNode (v.world.fs f.index) ((v.step op).world.fs f.index)
    return ⟨f, node⟩
  | .overlay _ => none

/-- The kernel has closed `fd`, and the table has forgotten it. -/
def closed (fd : Int) : Vfs ι := (v.setLive (v.live.erase fd)).forgetFd fd

def duplicated (oldfd newfd : Int) : Vfs ι :=
  (v.setLive (insert newfd v.live)).cloneFd oldfd newfd

/-- The call up to the moment at which the table or the node map has given up a
reference, and that reference. -/
def effect : HookCall → Vfs ι × Option (MemoryOpenedFile ι)
  | .vfs op =>
    match op with
    | .forgetFd _ | .cloneFd _ _ | .elsewhere _ => (v, none)
    | .openPath path oflag mode =>
      let r := v.openPath path oflag mode
      (r.2, if 0 ≤ r.1 then v.opened r.1 else none)
    | .openat dirfd path oflag mode =>
      let r := v.openat dirfd path oflag mode
      (r.2, if 0 ≤ r.1 then v.opened r.1 else none)
    | op => (v.step op, v.removed op)
  | .close fd =>
    if fd ∈ v.live then (v.closed fd, v.opened fd) else (v, none)
  | .dup oldfd newfd =>
    if oldfd ∈ v.live ∧ 0 ≤ newfd then (v.duplicated oldfd newfd, v.opened newfd) else (v, none)

/-- The call writes the table, under its lock. -/
def updatesTable : HookCall → Bool
  | .vfs op =>
    match op with
    | .openPath path oflag mode => 0 ≤ (v.openPath path oflag mode).1
    | .openat dirfd path oflag mode => 0 ≤ (v.openat dirfd path oflag mode).1
    | _ => false
  | .close fd => fd ∈ v.live
  | .dup oldfd newfd => oldfd ∈ v.live ∧ 0 ≤ newfd

variable {v} {fd oldfd newfd : Int}

theorem referenced_iff (h : MemoryOpenedFile ι) :
    v.referenced h = true ↔ v.inMap h = true ∨ ∃ fd, v.opened fd = some h := by
  simp only [referenced, Bool.or_eq_true, List.any_eq_true, beq_iff_eq, Prod.exists,
    Std.ExtTreeMap.mem_toList_iff_getElem?_eq_some, opened, Option.bind_eq_some_iff]

theorem referenced_eq_false_iff (h : MemoryOpenedFile ι) :
    v.referenced h = false ↔ v.inMap h = false ∧ ∀ fd, v.opened fd ≠ some h := by
  rw [← Bool.not_eq_true, referenced_iff, not_or, not_exists, Bool.not_eq_true]

/-- Of the file systems only `f` has changed, and no more than one node has gone from its
map. -/
structure LosesOneIn (v v' : Vfs ι) (f : MemoryRef ι) : Prop where
  one : LosesOne (v.world.fs f.index) (v'.world.fs f.index)
  others : ∀ i, i ≠ f.index → v'.world.fs i = v.world.fs i
  sys : v'.world.sys = v.world.sys
  fds : v'.fds = v.fds

omit [DecidableEq ι] in
theorem LosesOneIn.refl (v : Vfs ι) (f : MemoryRef ι) : LosesOneIn v v f :=
  ⟨Or.inl rfl, fun _ _ => rfl, rfl, rfl⟩

theorem LosesOneIn.of_putFs (f : MemoryRef ι) {fs' : MemoryFS}
    (h : LosesOne (v.world.fs f.index) fs') : LosesOneIn v (v.setWorld (v.world.putFs f fs')) f := by
  refine ⟨?_, fun i hi => World.putFs_fs_ne v.world f fs' hi, rfl, rfl⟩
  show LosesOne _ ((v.world.putFs f fs').fs f.index)
  rwa [World.putFs_fs]

theorem dispatch_losesOneIn (hv : v.WF) {path : PathBuf} {f : MemoryRef ι}
    (hf : v.fsAt (v.absolutePathToFs path).1 = .memory f) (kind : VfsEntryKind)
    {g : Backend ι → World ι → AbsPath → Int × World ι}
    (hg : ∀ w p, (g (.memory f) w p).2 = w.putFs f ((w.fs f.index).removeNodeAt p kind).2) :
    LosesOneIn v (v.dispatch g path).2 f := by
  have he : (v.dispatch g path).2 = v.setWorld (v.world.putFs f
      ((v.world.fs f.index).removeNodeAt (v.absolutePathToFs path).2.toAbs kind).2) := by
    show v.setWorld (g (v.fsAt (v.absolutePathToFs path).1) v.world _).2 = _
    rw [hf, hg]
  rw [he]
  exact .of_putFs f (removeNodeAt_losesOne (hv.world.fs f.index) _ kind)

theorem renameVirtual_losesOneIn (hv : v.WF) (oldPath : PathBuf) {newPath : PathBuf}
    {f : MemoryRef ι} (hf : v.fsAt (v.absolutePathToFs newPath).1 = .memory f) :
    LosesOneIn v (v.renameVirtual oldPath newPath).2 f := by
  unfold RootVFS.renameVirtual
  dsimp only
  split_ifs with hkey
  · exact .refl v f
  · rw [not_not.mp hkey, hf]
    show LosesOneIn v (v.setWorld (LowLevelFS.rename f v.world _ _).2) f
    cases he : (v.world.fs f.index).renameNodeAt (v.absolutePathToFs oldPath).2.toAbs
        (v.absolutePathToFs newPath).2.toAbs with
    | none =>
      have hr : LowLevelFS.rename f v.world (v.absolutePathToFs oldPath).2.toAbs
          (v.absolutePathToFs newPath).2.toAbs = (-1, v.world) := by simp [LowLevelFS.rename, he]
      rw [hr]
      exact .refl v f
    | some fs' =>
      have hr : LowLevelFS.rename f v.world (v.absolutePathToFs oldPath).2.toAbs
          (v.absolutePathToFs newPath).2.toAbs = (0, v.world.putFs f fs') := by
        simp [LowLevelFS.rename, he]
      rw [hr]
      exact .of_putFs f (renameNodeAt_losesOne (hv.world.fs f.index) he)

theorem removal_losesOneIn (hv : v.WF) {op : VfsOp} {path : PathBuf}
    (hp : v.removalPath op = some path) {f : MemoryRef ι}
    (hf : v.fsAt (v.absolutePathToFs path).1 = .memory f) : LosesOneIn v (v.step op) f := by
  cases op with
  | unlink p =>
    cases hp
    exact dispatch_losesOneIn hv hf .file fun _ _ => rfl
  | rmdir p =>
    cases hp
    exact dispatch_losesOneIn hv hf .dir fun _ _ => rfl
  | unlinkat dirfd p flags =>
    have hp' : v.resolveOpenatPath dirfd p = some path := hp
    show LosesOneIn v (v.unlinkat dirfd p flags).2 f
    unfold RootVFS.unlinkat
    simp only [hp']
    split_ifs
    · exact dispatch_losesOneIn hv hf .dir fun _ _ => rfl
    · exact dispatch_losesOneIn hv hf .file fun _ _ => rfl
  | rename p q =>
    cases hp
    show LosesOneIn v (v.renameat AT_FDCWD p AT_FDCWD q).2 f
    simp only [RootVFS.renameat, RootVFS.resolveOpenatPath_cwd]
    exact renameVirtual_losesOneIn hv _ hf
  | renameat dirfd p dirfd' q =>
    have hp' : v.resolveOpenatPath dirfd' q = some path := hp
    show LosesOneIn v (v.renameat dirfd p dirfd' q).2 f
    unfold RootVFS.renameat
    rw [hp']
    cases v.resolveOpenatPath dirfd p with
    | none => exact .refl v f
    | some old => exact renameVirtual_losesOneIn hv old hf
  | _ => cases hp

/-- The node that a call takes out of its map is the only one to go, and the call does
nothing to the table or to the numbers in use. -/
theorem removed_spec (hv : v.WF) {op : VfsOp} {h : MemoryOpenedFile ι}
    (hr : v.removed op = some h) :
    v.inMap h = true ∧ (∀ h', (v.step op).inMap h' = true ↔ v.inMap h' = true ∧ h' ≠ h) ∧
      (v.step op).live = v.live ∧ (v.step op).fds = v.fds := by
  unfold removed at hr
  obtain ⟨path, hp, hr⟩ := Option.bind_eq_some_iff.mp hr
  cases hf : v.fsAt (v.absolutePathToFs path).1 with
  | overlay o => simp [hf] at hr
  | memory f =>
    simp only [hf] at hr
    obtain ⟨node, hnode, he⟩ := Option.bind_eq_some_iff.mp hr
    cases he
    have hlose := removal_losesOneIn hv hp hf
    refine ⟨by simpa [inMap] using (mem_of_removedNode hnode).1, ?_,
      congrArg Sys.live hlose.sys, hlose.fds⟩
    rintro ⟨⟨i⟩, id⟩
    simp only [inMap, decide_eq_true_eq, ne_eq, MemoryOpenedFile.mk.injEq]
    by_cases hi : i = f.index
    · subst hi
      rw [hlose.one.mem_iff, hnode]
      simp [eq_comm]
    · rw [hlose.others i hi]
      have hne : (⟨i⟩ : MemoryRef ι) ≠ f := fun he => hi (by rw [← he])
      simp [hne]

def TrackedLive (v : Vfs ι) : Prop := ∀ fd, v.fds[fd]? ≠ none → fd ∈ v.live

/-- What every state between two calls satisfies. -/
structure Ready (v : Vfs ι) : Prop where
  wf : v.WF
  memory : v.OverMemory
  live : v.TrackedLive

/-- A hook does more than the call of the same name of `RootVFS`, or something else. -/
def isHook : VfsOp → Bool
  | .forgetFd _ | .cloneFd _ _ | .elsewhere _ => false
  | _ => true

theorem effect_vfs_fst (v : Vfs ι) (op : VfsOp) :
    (v.effect (.vfs op)).1 = if isHook op then v.step op else v := by
  cases op <;> rfl

theorem OverMemory.step (h : OverMemory v) (hv : v.WF) (op : VfsOp) : OverMemory (v.step op) :=
  (h.run hv [op]).1

theorem Step.hook_live {v' : Vfs ι} {op : VfsOp} (h : Step v op v') (hop : isHook op = true) :
    v.live ⊆ v'.live ∧ ∀ fd, v'.fds[fd]? ≠ none → v.fds[fd]? ≠ none ∨ fd ∈ v'.live := by
  have hlater (w : World ι) (hw : v.world.sys.Later w.sys) : v.live ⊆ w.sys.live := hw.live
  cases h with
  | growth h =>
    cases h with
    | grown world hc he =>
      subst he
      exact ⟨hlater world hc.later, fun fd hfd => Or.inl hfd⟩
    | opened world fd path h hc hk hfd hfresh he =>
      subst he
      refine ⟨hlater world hc.later, fun fd' hfd' => ?_⟩
      simp only [RootVFS.getElem?_insert_fd] at hfd'
      split_ifs at hfd' with he
      · exact Or.inr (he ▸ hfresh.2)
      · exact Or.inl hfd'
  | update world hc he =>
    subst he
    exact ⟨hlater world hc.later, fun fd hfd => Or.inl hfd⟩
  | forgotten fd hop' he => rw [hop'] at hop; cases hop
  | cloned oldfd newfd hop' he => rw [hop'] at hop; cases hop
  | cwd path he =>
    subst he
    exact ⟨Finset.Subset.refl _, fun fd hfd => Or.inl hfd⟩
  | advanced fd dirpIsNull count info entries n hop' hi hl hn he =>
    subst he
    refine ⟨Finset.Subset.refl _, fun fd' hfd' => Or.inl ?_⟩
    rw [RootVFS.advance_getElem?] at hfd'
    split_ifs at hfd' with he'
    · rw [he', hi]
      exact Option.some_ne_none info
    · exact hfd'
  | elsewhere live hop' he => rw [hop'] at hop; cases hop

theorem effect_close (hfd : fd ∈ v.live) : v.effect (.close fd) = (v.closed fd, v.opened fd) :=
  if_pos hfd

theorem effect_close_of_notMem (hfd : fd ∉ v.live) : v.effect (.close fd) = (v, none) :=
  if_neg hfd

theorem effect_dup (hdup : oldfd ∈ v.live ∧ 0 ≤ newfd) :
    v.effect (.dup oldfd newfd) = (v.duplicated oldfd newfd, v.opened newfd) :=
  if_pos hdup

theorem effect_dup_of_not (hdup : ¬ (oldfd ∈ v.live ∧ 0 ≤ newfd)) :
    v.effect (.dup oldfd newfd) = (v, none) :=
  if_neg hdup

theorem closed_fds (v : Vfs ι) (fd fd' : Int) :
    (v.closed fd).fds[fd']? = if fd' = fd then none else v.fds[fd']? :=
  RootVFS.forgetFd_getElem? _ fd fd'

theorem closed_live (v : Vfs ι) (fd : Int) : (v.closed fd).live = v.live.erase fd := rfl

theorem duplicated_fds (v : Vfs ι) (oldfd newfd fd : Int) :
    (v.duplicated oldfd newfd).fds[fd]? = if fd = newfd then v.fds[oldfd]? else v.fds[fd]? :=
  RootVFS.cloneFd_getElem? _ oldfd newfd fd

theorem duplicated_world (v : Vfs ι) (oldfd newfd : Int) :
    (v.duplicated oldfd newfd).world = (v.setLive (insert newfd v.live)).world :=
  RootVFS.cloneFd_world _ oldfd newfd

theorem duplicated_live (v : Vfs ι) (oldfd newfd : Int) :
    (v.duplicated oldfd newfd).live = insert newfd v.live :=
  congrArg (fun w : World ι => w.sys.live) (v.duplicated_world oldfd newfd)

theorem closed_opened (v : Vfs ι) (fd fd' : Int) :
    (v.closed fd).opened fd' = if fd' = fd then none else v.opened fd' := by
  unfold opened
  rw [closed_fds]
  split_ifs <;> rfl

theorem duplicated_opened (v : Vfs ι) (oldfd newfd fd : Int) :
    (v.duplicated oldfd newfd).opened fd = if fd = newfd then v.opened oldfd else v.opened fd := by
  unfold opened
  rw [duplicated_fds]
  split_ifs <;> rfl

theorem duplicated_inMap (v : Vfs ι) (oldfd newfd : Int) (h : MemoryOpenedFile ι) :
    (v.duplicated oldfd newfd).inMap h = v.inMap h := by
  unfold inMap
  rw [duplicated_world]
  rfl

theorem duplicated_backingFd (v : Vfs ι) (oldfd newfd : Int) (h : MemoryOpenedFile ι) :
    (v.duplicated oldfd newfd).backingFd h = v.backingFd h := by
  unfold backingFd
  rw [duplicated_world]
  rfl

theorem Ready.closed (h : Ready v) (fd : Int) : Ready (v.closed fd) := by
  refine ⟨step_wf (step_wf h.wf (.elsewhere _)) (.forgetFd fd),
    (h.memory.step h.wf (.elsewhere _)).step (step_wf h.wf _) (.forgetFd fd), fun fd' hfd' => ?_⟩
  rw [closed_fds] at hfd'
  split_ifs at hfd' with he
  · exact absurd rfl hfd'
  · exact Finset.mem_erase.mpr ⟨he, h.live fd' hfd'⟩

theorem Ready.duplicated (h : Ready v) (oldfd newfd : Int) : Ready (v.duplicated oldfd newfd) := by
  refine ⟨step_wf (step_wf h.wf (.elsewhere _)) (.cloneFd oldfd newfd),
    (h.memory.step h.wf (.elsewhere _)).step (step_wf h.wf _) (.cloneFd oldfd newfd), fun fd hfd => ?_⟩
  rw [duplicated_fds] at hfd
  rw [duplicated_live]
  split_ifs at hfd with he
  · exact he ▸ Finset.mem_insert_self _ _
  · exact Finset.mem_insert_of_mem (h.live fd hfd)

omit [DecidableEq ι] in
theorem Opening.entry {r : Int × Vfs ι} (h : Opening v r) (hfd : 0 ≤ r.1) :
    r.1 ∉ v.live ∧ ∃ path h, ∀ fd, r.2.fds[fd]? =
      if fd = r.1 then some ⟨path, 0, some h⟩ else v.fds[fd]? := by
  rcases h with rfl | ⟨result, world, path, hc, ho, rfl⟩
  · have hneg : (0 : Int) ≤ -1 := hfd
    omega
  · rw [RootVFS.trackOpen_fst] at hfd ⊢
    obtain ⟨h, hh⟩ := Option.isSome_iff_exists.mp (ho.isSome_iff.mpr hfd)
    refine ⟨(ho.fresh hfd).1, path, h, fun fd => ?_⟩
    rw [RootVFS.trackOpen_getElem?, hh]
    simp only [hfd, true_and]
    rfl

omit [DecidableEq ι] in
theorem Ready.opened_eq_none (hv : v.Ready) (hfd : fd ∉ v.live) : v.opened fd = none := by
  have hnone : v.fds[fd]? = none := by
    by_contra hne
    exact hfd (hv.live fd hne)
  rw [opened, hnone]
  rfl

/-- The calls of `VfsOp` give up the node that they remove. An open gives up nothing, as
the kernel hands out a number that is not in the table. -/
theorem Ready.effect_vfs_snd (hv : v.Ready) (op : VfsOp) :
    (v.effect (.vfs op)).2 = v.removed op := by
  have hopen {r : Int × Vfs ι} (hr : Opening v r) :
      (if 0 ≤ r.1 then v.opened r.1 else none) = none := by
    split_ifs with hfd
    · exact hv.opened_eq_none (hr.entry hfd).1
    · rfl
  cases op with
  | openPath path oflag mode => exact hopen (openVirtual_opening hv.wf _ oflag mode)
  | openat dirfd path oflag mode => exact hopen (openat_opening hv.wf dirfd path oflag mode)
  | _ => rfl

theorem effect_of_removed {op : VfsOp} {h : MemoryOpenedFile ι} (hr : v.removed op = some h) :
    (v.effect (.vfs op)).1 = v.step op ∧ v.updatesTable (.vfs op) = false := by
  cases op with
  | openPath path oflag mode => cases hr
  | openat dirfd path oflag mode => cases hr
  | forgetFd fd => cases hr
  | cloneFd oldfd newfd => cases hr
  | elsewhere live => cases hr
  | _ => exact ⟨rfl, rfl⟩

/-- A call keeps what every state satisfies, whatever it gives up. -/
theorem Ready.effect (h : Ready v) (c : HookCall) : Ready (v.effect c).1 := by
  cases c with
  | vfs op =>
    rw [effect_vfs_fst]
    split_ifs with hop
    · have hs := step_spec h.wf op
      refine ⟨hs.wf h.wf, h.memory.step h.wf op, fun fd hfd => ?_⟩
      obtain ⟨hlive, htracked⟩ := hs.hook_live hop
      rcases htracked fd hfd with hold | hnew
      · exact hlive (h.live fd hold)
      · exact hnew
    · exact h
  | close fd =>
    by_cases hfd : fd ∈ v.live
    · rw [effect_close hfd]
      exact h.closed fd
    · rwa [effect_close_of_notMem hfd]
  | dup oldfd newfd =>
    by_cases hdup : oldfd ∈ v.live ∧ 0 ≤ newfd
    · rw [effect_dup hdup]
      exact h.duplicated oldfd newfd
    · rwa [effect_dup_of_not hdup]

def Known (v : Vfs ι) (h : MemoryOpenedFile ι) : Prop :=
  ((v.world.fs h.nodes.index).inodeOf h.node).isSome

omit [DecidableEq ι] in
theorem WF.known_of_opened (hv : v.WF) {h : MemoryOpenedFile ι} (ho : v.opened fd = some h) :
    v.Known h := by
  obtain ⟨info, hi, hio⟩ := Option.bind_eq_some_iff.mp ho
  obtain ⟨h', hh', hk⟩ := hv.handle fd info hi
  cases hio.symm.trans hh'
  exact hk

omit [DecidableEq ι] in
theorem WF.known_of_inMap (hv : v.WF) {h : MemoryOpenedFile ι} (hm : v.inMap h = true) :
    v.Known h :=
  (hv.world.fs h.nodes.index).mem_heap h.node (of_decide_eq_true hm)

omit [DecidableEq ι] in
theorem backingFd_eq_inode (v : Vfs ι) (h : MemoryOpenedFile ι) :
    v.backingFd h = ((v.world.fs h.nodes.index).inodeOf h.node).elim (-1) (·.backingFd) := by
  unfold backingFd inodeOf
  cases (v.world.fs h.nodes.index).heap h.node <;> rfl

theorem Known.kept (hv : v.WF) {h : MemoryOpenedFile ι} (hk : v.Known h) (op : VfsOp) :
    ∃ i i', (v.world.fs h.nodes.index).inodeOf h.node = some i ∧
      ((v.step op).world.fs h.nodes.index).inodeOf h.node = some i' ∧ World.Kept i i' := by
  obtain ⟨i, hi⟩ := Option.isSome_iff_exists.mp hk
  obtain ⟨w, hc, he⟩ := (step_spec hv op).changes
  obtain ⟨i', hi', hkept⟩ := hc.kept hi
  exact ⟨i, i', hi, by rw [he, hi'], hkept⟩

theorem Known.backingFd_eq (hv : v.WF) {h : MemoryOpenedFile ι} (hk : v.Known h) (op : VfsOp) :
    (v.step op).backingFd h = v.backingFd h := by
  obtain ⟨i, i', hi, hi', hkept⟩ := hk.kept hv op
  rw [backingFd_eq_inode, backingFd_eq_inode, hi, hi']
  exact hkept.backingFd

/-- The reference that a call gives up is the last one to a node, with the backing file
`b`. -/
def Drops (r : Vfs ι × Option (MemoryOpenedFile ι)) (b : Int) : Prop :=
  ∃ h, r.2 = some h ∧ r.1.referenced h = false ∧ r.1.backingFd h = b

/-- The entry of `fd` has the last reference to a node, with the backing file `b`. -/
def LastEntry (v : Vfs ι) (fd b : Int) : Prop :=
  ∃ h, v.opened fd = some h ∧ v.inMap h = false ∧ (∀ fd', fd' ≠ fd → v.opened fd' ≠ some h) ∧
    v.backingFd h = b

theorem drops_close_iff {b : Int} (hfd : fd ∈ v.live) :
    Drops (v.effect (.close fd)) b ↔ v.LastEntry fd b := by
  rw [effect_close hfd]
  refine exists_congr fun h => and_congr_right fun ho => ?_
  rw [referenced_eq_false_iff, and_assoc]
  refine and_congr_right fun _ => and_congr_left fun _ => forall_congr' fun fd' => ?_
  rw [closed_opened]
  split_ifs with he <;> simp [he]

theorem drops_dup_iff {b : Int} (hdup : oldfd ∈ v.live ∧ 0 ≤ newfd) :
    Drops (v.effect (.dup oldfd newfd)) b ↔ oldfd ≠ newfd ∧ v.LastEntry newfd b := by
  rw [effect_dup hdup]
  simp only [Drops, LastEntry, referenced_eq_false_iff, duplicated_inMap, duplicated_backingFd,
    duplicated_opened, and_assoc]
  constructor
  · rintro ⟨h, ho, hm, hother, hb⟩
    have hne : oldfd ≠ newfd := by
      rintro rfl
      have hold := hother oldfd
      rw [if_pos rfl] at hold
      exact hold ho
    refine ⟨hne, h, ho, hm, fun fd' hfd' => ?_, hb⟩
    have hfd := hother fd'
    rwa [if_neg hfd'] at hfd
  · rintro ⟨hne, h, ho, hm, hother, hb⟩
    refine ⟨h, ho, hm, fun fd' => ?_, hb⟩
    split_ifs with he
    · exact hother oldfd hne
    · exact hother fd' he

theorem drops_vfs_iff (hv : v.Ready) {op : VfsOp} {b : Int} :
    Drops (v.effect (.vfs op)) b ↔
      ∃ h, v.removed op = some h ∧ (∀ fd, v.opened fd ≠ some h) ∧ v.backingFd h = b := by
  unfold Drops
  rw [hv.effect_vfs_snd]
  refine exists_congr fun h => and_congr_right fun hr => ?_
  obtain ⟨hin, hmap, -, hfds⟩ := removed_spec hv.wf hr
  have hout : (v.step op).inMap h = false := by
    rw [← Bool.not_eq_true, hmap]
    exact fun hh => hh.2 rfl
  have hopened (fd : Int) : (v.step op).opened fd = v.opened fd := by
    unfold opened
    rw [hfds]
  rw [(effect_of_removed hr).1, referenced_eq_false_iff, (hv.wf.known_of_inMap hin).backingFd_eq hv.wf]
  simp only [hout, hopened, true_and]

/-- Other entries are the last ones for their nodes after a node has gone from its map if
they were so before. -/
theorem lastEntry_step_iff (hv : v.Ready) {op : VfsOp} {h : MemoryOpenedFile ι}
    (hr : v.removed op = some h) (hno : ∀ fd, v.opened fd ≠ some h) (fd b : Int) :
    (v.step op).LastEntry fd b ↔ v.LastEntry fd b := by
  obtain ⟨-, hmap, -, hfds⟩ := removed_spec hv.wf hr
  have hopened (fd : Int) : (v.step op).opened fd = v.opened fd := by
    unfold opened
    rw [hfds]
  unfold LastEntry
  simp only [hopened]
  refine exists_congr fun h' => and_congr_right fun ho => ?_
  have hne : h' ≠ h := fun he => hno fd (he ▸ ho)
  have hmap' : (v.step op).inMap h' = v.inMap h' := by
    rw [Bool.eq_iff_iff, hmap h']
    exact and_iff_left hne
  rw [hmap', (hv.wf.known_of_opened ho).backingFd_eq hv.wf op]

/-- A reference goes away, and the node with the last one; `Drop for Node` closes its
backing file. -/
def discard (close : Int → Vfs ι → Vfs ι) (r : Vfs ι × Option (MemoryOpenedFile ι)) : Vfs ι :=
  match r.2 with
  | none => r.1
  | some h => if r.1.referenced h then r.1 else close (r.1.backingFd h) r.1

/-- The hook of `close` with a bound on the calls inside one another. -/
def closeHook : Nat → Int → Vfs ι → Vfs ι
  | 0, _, v => v
  | n + 1, fd, v => discard (closeHook n) (v.effect (.close fd))

/-- Each `close` inside another one leaves a number less (`closeHook_eq`). -/
def hookStep (v : Vfs ι) (c : HookCall) : Vfs ι :=
  discard (closeHook (v.effect c).1.live.card) (v.effect c)

variable {v' : Vfs ι}

theorem discard_cases (close : Int → Vfs ι → Vfs ι) (r : Vfs ι × Option (MemoryOpenedFile ι)) :
    discard close r = r.1 ∧ (∀ b, ¬ Drops r b) ∨
      ∃ b, Drops r b ∧ (∀ b', Drops r b' → b' = b) ∧ discard close r = close b r.1 := by
  obtain ⟨v, o⟩ := r
  cases o with
  | none => exact Or.inl ⟨rfl, fun b ⟨h, hh, _⟩ => by cases hh⟩
  | some h =>
    by_cases hr : v.referenced h = true
    · refine Or.inl ⟨if_pos hr, ?_⟩
      rintro b ⟨h', hh, hr', -⟩
      cases hh
      rw [hr] at hr'
      cases hr'
    · refine Or.inr ⟨v.backingFd h, ⟨h, rfl, by simpa using hr, rfl⟩, ?_, if_neg hr⟩
      rintro b' ⟨h', hh, -, rfl⟩
      cases hh
      rfl

theorem closeHook_of_notMem (n : Nat) (hfd : fd ∉ v.live) : closeHook n fd v = v := by
  cases n with
  | zero => rfl
  | succ n =>
    show discard (closeHook n) (v.effect (.close fd)) = v
    rw [effect_close_of_notMem hfd]
    rfl

/-- As many calls of `close` as there are numbers open are enough. -/
theorem closeHook_eq {n : Nat} (hn : v.live.card ≤ n) (fd : Int) :
    closeHook n fd v = closeHook v.live.card fd v := by
  induction n generalizing v fd with
  | zero =>
    have hz : v.live.card = 0 := Nat.le_zero.mp hn
    rw [hz]
  | succ n ih =>
    by_cases hfd : fd ∈ v.live
    · have hcard : (v.closed fd).live.card + 1 = v.live.card := by
        rw [closed_live]
        exact Finset.card_erase_add_one hfd
      have hsucc : closeHook v.live.card fd v =
          discard (closeHook (v.closed fd).live.card) (v.effect (.close fd)) := by
        rw [← hcard]
        rfl
      rw [hsucc]
      show discard (closeHook n) (v.effect (.close fd)) = _
      rw [effect_close hfd]
      unfold discard
      cases v.opened fd with
      | none => rfl
      | some h =>
        dsimp only
        split_ifs
        · rfl
        · exact ih (by omega) _
    · rw [closeHook_of_notMem _ hfd, closeHook_of_notMem _ hfd]

/-- What a run of `close` inside destructors does: numbers go, and entries with them. -/
structure Closes (v v' : Vfs ι) : Prop where
  fs : v'.world.fs = v.world.fs
  kernel : v'.world.sys.kernel = v.world.sys.kernel
  next : v'.world.sys.nextNodeId = v.world.sys.nextNodeId
  fds : ∀ fd : Int, v.fds[fd]? = none → v'.fds[fd]? = none

omit [DecidableEq ι] in
theorem Closes.refl (v : Vfs ι) : Closes v v := ⟨rfl, rfl, rfl, fun _ h => h⟩

omit [DecidableEq ι] in
theorem Closes.trans {v'' : Vfs ι} (h : Closes v v') (h' : Closes v' v'') : Closes v v'' :=
  ⟨h'.fs.trans h.fs, h'.kernel.trans h.kernel, h'.next.trans h.next,
    fun fd hfd => h'.fds fd (h.fds fd hfd)⟩

theorem Closes.closed (v : Vfs ι) (fd : Int) : Closes v (v.closed fd) := by
  refine ⟨rfl, rfl, rfl, fun fd' hfd' => ?_⟩
  rw [closed_fds, hfd', ite_self]

theorem closeHook_closes (n : Nat) (fd : Int) (v : Vfs ι) : Closes v (closeHook n fd v) := by
  induction n generalizing v fd with
  | zero => exact .refl v
  | succ n ih =>
    by_cases hfd : fd ∈ v.live
    · show Closes v (discard (closeHook n) (v.effect (.close fd)))
      rw [effect_close hfd]
      rcases discard_cases (closeHook n) (v.closed fd, v.opened fd) with ⟨he, -⟩ | ⟨b, -, -, he⟩
      · rw [he]
        exact .closed v fd
      · rw [he]
        exact (Closes.closed v fd).trans (ih b _)
    · rw [closeHook_of_notMem _ hfd]
      exact .refl v

theorem closeHook_ready (h : v.Ready) (n : Nat) (fd : Int) : (closeHook n fd v).Ready := by
  induction n generalizing v fd with
  | zero => exact h
  | succ n ih =>
    have heff := h.effect (.close fd)
    show (discard (closeHook n) (v.effect (.close fd))).Ready
    rcases discard_cases (closeHook n) (v.effect (.close fd)) with ⟨he, -⟩ | ⟨b, -, -, he⟩
    · rwa [he]
    · rw [he]
      exact ih heff b

theorem closeHook_fds (hfd : fd ∈ v.live) : (closeHook v.live.card fd v).fds[fd]? = none := by
  obtain ⟨n, hn⟩ := Nat.exists_eq_add_one.mpr (Finset.card_pos.mpr ⟨fd, hfd⟩)
  rw [hn]
  show (discard (closeHook n) (v.effect (.close fd))).fds[fd]? = none
  rw [effect_close hfd]
  have hgone : (v.closed fd).fds[fd]? = none := by
    rw [closed_fds, if_pos rfl]
  rcases discard_cases (closeHook n) (v.closed fd, v.opened fd) with ⟨he, -⟩ | ⟨b, -, -, he⟩
  · rw [he]
    exact hgone
  · rw [he]
    exact (closeHook_closes n b _).fds fd hgone

theorem closeHook_untracked (hno : v.fds[fd]? = none) (n : Nat) :
    closeHook n fd v = v ∨ closeHook n fd v = v.closed fd := by
  cases n with
  | zero => exact Or.inl rfl
  | succ n =>
    by_cases hfd : fd ∈ v.live
    · right
      show discard (closeHook n) (v.effect (.close fd)) = _
      have hopened : v.opened fd = none := by rw [opened, hno]; rfl
      rw [effect_close hfd, hopened]
      rfl
    · exact Or.inl (closeHook_of_notMem _ hfd)

/-- The destructor that the call runs closes a number that is in the table. -/
def DropsTracked (r : Vfs ι × Option (MemoryOpenedFile ι)) : Prop :=
  ∃ b : Int, Drops r b ∧ r.1.fds[b]? ≠ none

/-- A call either loses an entry to a destructor, or its table is what the call itself has
made of it. -/
theorem hookStep_cases (hv : v.Ready) (c : HookCall) :
    (∃ b : Int, Drops (v.effect c) b ∧ (v.effect c).1.fds[b]? ≠ none ∧
        (v.hookStep c).fds[b]? = none) ∨
      ¬ DropsTracked (v.effect c) ∧ (v.hookStep c).world.fs = (v.effect c).1.world.fs ∧
        ∀ fd : Int, (v.hookStep c).fds[fd]? = (v.effect c).1.fds[fd]? := by
  have hready := hv.effect c
  rcases discard_cases (closeHook (v.effect c).1.live.card) (v.effect c) with
    ⟨he, hno⟩ | ⟨b, hd, huniq, he⟩
  · refine Or.inr ⟨fun ⟨b, hd, _⟩ => hno b hd, ?_, fun fd => ?_⟩ <;> rw [hookStep, he]
  · by_cases hb : (v.effect c).1.fds[b]? = none
    · refine Or.inr ⟨?_, ?_⟩
      · rintro ⟨b', hd', hb'⟩
        exact hb' (huniq b' hd' ▸ hb)
      · rw [hookStep, he]
        rcases closeHook_untracked hb (v.effect c).1.live.card with hc | hc
        · rw [hc]
          exact ⟨rfl, fun _ => rfl⟩
        · rw [hc]
          refine ⟨rfl, fun fd => ?_⟩
          rw [closed_fds]
          split_ifs with hfd
          · rw [hfd, hb]
          · rfl
    · refine Or.inl ⟨b, hd, hb, ?_⟩
      rw [hookStep, he]
      exact closeHook_fds (hready.live b hb)

theorem hookStep_ready (hv : v.Ready) (c : HookCall) : (v.hookStep c).Ready := by
  have hready := hv.effect c
  unfold hookStep
  rcases discard_cases (closeHook (v.effect c).1.live.card) (v.effect c) with
    ⟨he, -⟩ | ⟨b, -, -, he⟩
  · rwa [he]
  · rw [he]
    exact closeHook_ready hready _ b

end Vfs

end SandboxVfs
