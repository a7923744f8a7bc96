import SandboxVfs.Listings
import SandboxVfs.NamespaceTree

/-! The slice of `getdents64`: a descriptor's offset lies within the listing unless a
name is taken out of a directory that was read to its end. -/

namespace SandboxVfs

open MemoryFS

variable {ι : Type} [DecidableEq ι]

namespace Backend

def acting (b : Backend ι) (w : World ι) (path : AbsPath) : MemoryRef ι :=
  match b with
  | .memory f => f
  | .overlay o => o.actingLayer w path

/-- The world in which a rename does: an overlay first makes parents in its top layer. -/
def preparedFor (b : Backend ι) (w : World ι) (oldPath newPath : AbsPath) : World ι :=
  match b with
  | .memory _ => w
  | .overlay o =>
    if LowLevelFS.access o.top w oldPath F_OK = 0 then o.ensureTopParentDirs w newPath else w

variable {w : World ι}

theorem unlink_eq (b : Backend ι) (w : World ι) (path : AbsPath) :
    LowLevelFS.unlink b w path = LowLevelFS.unlink (b.acting w path) w path := by
  cases b <;> rfl

theorem rmdir_eq (b : Backend ι) (w : World ι) (path : AbsPath) :
    LowLevelFS.rmdir b w path = LowLevelFS.rmdir (b.acting w path) w path := by
  cases b <;> rfl

theorem rename_eq (b : Backend ι) (w : World ι) (oldPath newPath : AbsPath) :
    LowLevelFS.rename b w oldPath newPath = LowLevelFS.rename (b.acting w oldPath)
      (b.preparedFor w oldPath newPath) oldPath newPath := by
  cases b with
  | memory f => rfl
  | overlay o =>
    show (if _ then _ else _) = LowLevelFS.rename (o.actingLayer w oldPath) (if _ then _ else _) _ _
    unfold OverlayFS.actingLayer
    split_ifs <;> rfl

theorem preparedFor_grows (hw : w.WF) (b : Backend ι) (oldPath newPath : AbsPath) :
    World.Grows b.indices w (b.preparedFor w oldPath newPath) := by
  cases b with
  | memory f => exact .refl
  | overlay o =>
    unfold preparedFor
    dsimp only
    split_ifs
    · exact (World.ensureTopParentDirs_grows hw o newPath).mono
        (singleton_subset_indices (top_mem o))
    · exact .refl

end Backend

namespace World

variable {w w' w₀ : World ι} {f g : MemoryRef ι} {d : NodeId} {S : Set ι}

def nameCount (w : World ι) (f : MemoryRef ι) (d : NodeId) : Nat := (w.fs f.index).nameCount d

omit [DecidableEq ι] in
theorem Grows.nameCount_le (h : Grows S w w') (f : MemoryRef ι) (d : NodeId) :
    w.nameCount f d ≤ w'.nameCount f d :=
  nameCount_le_of_entryAt fun _ _ hx => h.entryAt hx

theorem nameCount_putFs (w : World ι) (f : MemoryRef ι) (fs : MemoryFS) (g : MemoryRef ι)
    (d : NodeId) :
    (w.putFs f fs).nameCount g d = if g = f then fs.nameCount d else w.nameCount g d := by
  unfold nameCount
  split_ifs with hg
  · subst hg
    rw [putFs_fs]
  · rw [putFs_fs_ne w f fs fun hi => hg (congrArg MemoryRef.mk hi)]

theorem memory_remove_nameCount (hw : w.WF) (f : MemoryRef ι) (p : PathBuf)
    (kind : VfsEntryKind) (g : MemoryRef ι) (d : NodeId) :
    let w' := w.putFs f ((w.fs f.index).removeNodeAt p.toAbs kind).2
    (g = f ∧ (w.fs f.index).RemovesFrom p kind d → w'.nameCount g d + 1 = w.nameCount g d) ∧
      (¬ (g = f ∧ (w.fs f.index).RemovesFrom p kind d) → w'.nameCount g d = w.nameCount g d) := by
  intro w'
  have hcount := removeNodeAt_nameCount (hw.fs f.index) p kind d
  simp only [w', nameCount_putFs]
  by_cases hg : g = f
  · subst hg
    simpa [World.nameCount] using hcount
  · simp [hg]

theorem memory_rename_nameCount (hw : w.WF) (f : MemoryRef ι) (old new : PathBuf)
    (g : MemoryRef ι) (d : NodeId) :
    let w' := (LowLevelFS.rename f w old.toAbs new.toAbs).2
    (g = f ∧ (w.fs f.index).RenamesFrom old new d → w'.nameCount g d + 1 = w.nameCount g d) ∧
      (¬ (g = f ∧ (w.fs f.index).RenamesFrom old new d) →
        w.nameCount g d ≤ w'.nameCount g d) := by
  intro w'
  cases hr : (w.fs f.index).renameNodeAt old.toAbs new.toAbs with
  | none =>
    have hw' : w' = w := by simp [w', LowLevelFS.rename, hr]
    rw [hw']
    refine ⟨?_, fun _ => le_rfl⟩
    rintro ⟨-, hfrom⟩
    have hsome := (renameNodeAt_isSome_iff (hw.fs f.index) hfrom.1.ne).mpr hfrom.1
    rw [hr] at hsome
    cases hsome
  | some fs' =>
    have hw' : w' = w.putFs f fs' := by simp [w', LowLevelFS.rename, hr]
    have hcount := renameNodeAt_nameCount (hw.fs f.index) hr d
    rw [hw', nameCount_putFs]
    by_cases hg : g = f
    · subst hg
      simpa [World.nameCount] using hcount
    · simp [hg]

/-- From `w` to `w'`, what a call takes out of a directory is one name of those it finds
there, and no other directory gets shorter. -/
structure TakesOnly (w w' : World ι) (takes : World ι → MemoryRef ι → NodeId → Prop) : Prop where
  taken : ∀ w₁ f d, takes w₁ f d →
    w.nameCount f d ≤ w₁.nameCount f d ∧ w'.nameCount f d + 1 = w₁.nameCount f d
  kept : ∀ f d, (∀ w₁, ¬ takes w₁ f d) → w.nameCount f d ≤ w'.nameCount f d

omit [DecidableEq ι] in
theorem TakesOnly.congr {takes takes' : World ι → MemoryRef ι → NodeId → Prop}
    (h : TakesOnly w w' takes) (ht : ∀ w₁ f d, takes' w₁ f d ↔ takes w₁ f d) :
    TakesOnly w w' takes' :=
  ⟨fun w₁ f d hh => h.taken w₁ f d ((ht w₁ f d).mp hh),
    fun f d hh => h.kept f d fun w₁ hw => hh w₁ ((ht w₁ f d).mpr hw)⟩

theorem memory_chmod_nameCount (w : World ι) (f : MemoryRef ι) (path : AbsPath) (mode : Mode)
    (g : MemoryRef ι) (d : NodeId) :
    (LowLevelFS.chmod f w path mode).2.nameCount g d = w.nameCount g d := by
  cases hc : (w.fs f.index).chmod path mode with
  | none => simp [LowLevelFS.chmod, hc]
  | some fs' =>
    obtain ⟨id, -, hs⟩ := chmod_cases hc
    have hw : (LowLevelFS.chmod f w path mode).2 = w.putFs f fs' := by simp [LowLevelFS.chmod, hc]
    rw [hw, nameCount_putFs]
    split_ifs with hg
    · subst hg
      exact hs.nameCount d
    · rfl

omit [DecidableEq ι] in
theorem Grows.takesOnly (h : Grows S w w') : TakesOnly w w' fun _ _ _ => False :=
  ⟨fun _ _ _ hh => hh.elim, fun f d _ => h.nameCount_le f d⟩

end World

namespace Vfs

variable {v v' : Vfs ι}

/-- A removal by virtual path takes a name out of the directory `d` of `f`. -/
def RemovesAt (v : Vfs ι) (p : PathBuf) (kind : VfsEntryKind) (w : World ι) (f : MemoryRef ι)
    (d : NodeId) : Prop :=
  let target := v.absolutePathToFs p
  w = v.world ∧ f = (v.fsAt target.1).acting v.world target.2.toAbs ∧
    (w.fs f.index).RemovesFrom target.2 kind d

/-- A rename leaves `d` with one name less than it has in `w`, in which it looks. -/
def RenamesAt (v : Vfs ι) (oldPath newPath : PathBuf) (w : World ι) (f : MemoryRef ι)
    (d : NodeId) : Prop :=
  let old := v.absolutePathToFs oldPath
  let new := v.absolutePathToFs newPath
  old.1 = new.1 ∧ w = (v.fsAt old.1).preparedFor v.world old.2.toAbs new.2.toAbs ∧
    f = (v.fsAt old.1).acting v.world old.2.toAbs ∧ (w.fs f.index).RenamesFrom old.2 new.2 d

def TakesName (v : Vfs ι) (op : VfsOp) (w : World ι) (f : MemoryRef ι) (d : NodeId) : Prop :=
  match op with
  | .unlink path => v.RemovesAt (v.resolvePath path) .file w f d
  | .rmdir path => v.RemovesAt (v.resolvePath path) .dir w f d
  | .unlinkat dirfd path flags =>
    ∃ p, v.resolveOpenatPath dirfd path = some p ∧
      v.RemovesAt p (if flags.has AT_REMOVEDIR then .dir else .file) w f d
  | .rename oldPath newPath => v.RenamesAt (v.resolvePath oldPath) (v.resolvePath newPath) w f d
  | .renameat oldDirfd oldPath newDirfd newPath =>
    ∃ old new, v.resolveOpenatPath oldDirfd oldPath = some old ∧
      v.resolveOpenatPath newDirfd newPath = some new ∧ v.RenamesAt old new w f d
  | _ => False

theorem removal_takesOnly (hv : v.WF) (p : PathBuf) (kind : VfsEntryKind)
    {op : Backend ι → World ι → AbsPath → Int × World ι}
    (hop : ∀ b path, (op b v.world path).2 = v.world.putFs (b.acting v.world path)
      ((v.world.fs (b.acting v.world path).index).removeNodeAt path kind).2) :
    World.TakesOnly v.world (v.dispatch op p).2.world (v.RemovesAt p kind) := by
  have hcount := World.memory_remove_nameCount hv.world
    ((v.fsAt (v.absolutePathToFs p).1).acting v.world (v.absolutePathToFs p).2.toAbs)
    (v.absolutePathToFs p).2 kind
  have hw : (v.dispatch op p).2.world = _ := hop _ _
  rw [hw]
  constructor
  · rintro w f d ⟨rfl, rfl, hfrom⟩
    exact ⟨le_rfl, (hcount _ d).1 ⟨rfl, hfrom⟩⟩
  · intro f d hnot
    refine ((hcount f d).2 ?_).ge
    rintro ⟨rfl, hfrom⟩
    exact hnot v.world ⟨rfl, rfl, hfrom⟩

theorem unlink_takesOnly (hv : v.WF) (p : PathBuf) :
    World.TakesOnly v.world (v.dispatch LowLevelFS.unlink p).2.world (v.RemovesAt p .file) :=
  removal_takesOnly hv p .file fun b path => by rw [Backend.unlink_eq]; rfl

theorem rmdir_takesOnly (hv : v.WF) (p : PathBuf) :
    World.TakesOnly v.world (v.dispatch LowLevelFS.rmdir p).2.world (v.RemovesAt p .dir) :=
  removal_takesOnly hv p .dir fun b path => by rw [Backend.rmdir_eq]; rfl

theorem renameVirtual_world (v : Vfs ι) (oldPath newPath : PathBuf) :
    (v.renameVirtual oldPath newPath).2.world =
      if (v.absolutePathToFs oldPath).1 = (v.absolutePathToFs newPath).1 then
        (LowLevelFS.rename (v.fsAt (v.absolutePathToFs oldPath).1) v.world
          (v.absolutePathToFs oldPath).2.toAbs (v.absolutePathToFs newPath).2.toAbs).2
      else v.world := by
  simp only [RootVFS.renameVirtual]
  split_ifs <;> simp_all [RootVFS.setWorld]

theorem renameVirtual_takesOnly (hv : v.WF) (oldPath newPath : PathBuf) :
    World.TakesOnly v.world (v.renameVirtual oldPath newPath).2.world
      (v.RenamesAt oldPath newPath) := by
  rw [renameVirtual_world]
  split_ifs with hsame
  · rw [Backend.rename_eq]
    have hgrow := Backend.preparedFor_grows hv.world (v.fsAt (v.absolutePathToFs oldPath).1)
      (v.absolutePathToFs oldPath).2.toAbs (v.absolutePathToFs newPath).2.toAbs
    have hcount := World.memory_rename_nameCount (hgrow.wf hv.world)
      ((v.fsAt (v.absolutePathToFs oldPath).1).acting v.world (v.absolutePathToFs oldPath).2.toAbs)
      (v.absolutePathToFs oldPath).2 (v.absolutePathToFs newPath).2
    constructor
    · rintro w f d ⟨-, rfl, rfl, hfrom⟩
      exact ⟨hgrow.nameCount_le _ d, (hcount _ d).1 ⟨rfl, hfrom⟩⟩
    · intro f d hnot
      refine (hgrow.nameCount_le f d).trans ((hcount f d).2 ?_)
      rintro ⟨rfl, hfrom⟩
      exact hnot _ ⟨hsame, rfl, rfl, hfrom⟩
  · exact ⟨fun _ _ _ hh => absurd hh.1 hsame, fun _ _ _ => le_rfl⟩

theorem step_takesOnly (hv : v.WF) (op : VfsOp) :
    World.TakesOnly v.world (v.step op).world (v.TakesName op) := by
  have hsame {world : World ι} (he : world.fs = v.world.fs) :
      World.TakesOnly v.world world fun _ _ _ => False := by
    refine ⟨fun _ _ _ hh => hh.elim, fun f d _ => ?_⟩
    unfold World.nameCount
    rw [he]
  cases op with
  | openPath path flags mode => exact (openVirtual_opening hv _ flags mode).growth.world.takesOnly
  | openat dirfd path flags mode => exact (openat_opening hv dirfd path flags mode).growth.world.takesOnly
  | mkdir path mode => exact (mkdirVirtual_growth hv _ mode).world.takesOnly
  | mkdirat dirfd path mode => exact (mkdirat_growth hv dirfd path mode).world.takesOnly
  | unlink path => exact unlink_takesOnly hv _
  | rmdir path => exact rmdir_takesOnly hv _
  | unlinkat dirfd path flags =>
    cases hp : v.resolveOpenatPath dirfd path with
    | none =>
      simp only [step, RootVFS.unlinkat, hp]
      exact (hsame rfl).congr (by simp [TakesName, hp])
    | some p =>
      by_cases hf : flags.has AT_REMOVEDIR = true
      · simp only [step, RootVFS.unlinkat, hp, hf, if_true]
        exact (rmdir_takesOnly hv p).congr (by simp [TakesName, hp, hf])
      · simp only [step, RootVFS.unlinkat, hp, hf]
        exact (unlink_takesOnly hv p).congr (by simp [TakesName, hp, hf])
  | rename oldPath newPath =>
    simp only [step, RootVFS.rename, RootVFS.renameat, RootVFS.resolveOpenatPath_cwd]
    exact renameVirtual_takesOnly hv _ _
  | renameat oldDirfd oldPath newDirfd newPath =>
    cases hold : v.resolveOpenatPath oldDirfd oldPath with
    | none =>
      simp only [step, RootVFS.renameat, hold]
      exact (hsame rfl).congr (by simp [TakesName, hold])
    | some old =>
      cases hnew : v.resolveOpenatPath newDirfd newPath with
      | none =>
        simp only [step, RootVFS.renameat, hold, hnew]
        exact (hsame rfl).congr (by simp [TakesName, hnew])
      | some new =>
        simp only [step, RootVFS.renameat, hold, hnew]
        exact (renameVirtual_takesOnly hv old new).congr (by simp [TakesName, hold, hnew])
  | chmod path mode =>
    refine ⟨fun _ _ _ hh => hh.elim, fun f d _ => (Eq.le ?_)⟩
    show _ = (LowLevelFS.chmod (v.fsAt _) v.world _ mode).2.nameCount f d
    cases v.fsAt (v.absolutePathToFs (v.resolvePath path)).1 with
    | memory b => exact (World.memory_chmod_nameCount v.world b _ mode f d).symm
    | overlay o => exact (World.memory_chmod_nameCount v.world _ _ mode f d).symm
  | forgetFd fd => exact hsame rfl
  | cloneFd oldfd newfd => exact hsame (congrArg World.fs (RootVFS.cloneFd_world v oldfd newfd))
  | setCwd path => exact hsame rfl
  | getdents64 fd dirpIsNull count =>
    rcases getdents64_step_cases v fd dirpIsNull count with he | ⟨info, n, he, -⟩ <;> rw [he] <;>
      exact hsame rfl
  | elsewhere live => exact hsame rfl

theorem TakesName.fds {op : VfsOp} {w : World ι} {f : MemoryRef ι} {d : NodeId}
    (h : v.TakesName op w f d) : (v.step op).fds = v.fds := by
  cases op with
  | unlink path => rfl
  | rmdir path => rfl
  | unlinkat dirfd path flags =>
    obtain ⟨p, hp, -⟩ := h
    simp only [step, RootVFS.unlinkat, hp]
    split_ifs <;> rfl
  | rename oldPath newPath =>
    simp only [step, RootVFS.rename, RootVFS.renameat, RootVFS.resolveOpenatPath_cwd,
      RootVFS.renameVirtual]
    split_ifs <;> rfl
  | renameat oldDirfd oldPath newDirfd newPath =>
    obtain ⟨old, new, hold, hnew, -⟩ := h
    simp only [step, RootVFS.renameat, hold, hnew, RootVFS.renameVirtual]
    split_ifs <;> rfl
  | _ => exact h.elim

/-- The slice that `getdents64` takes for this entry of the table is in bounds. -/
def InRange (v : Vfs ι) (info : FdInfo (MemoryOpenedFile ι)) : Prop :=
  ∀ entries, v.dirEntries info = some entries → info.dirOffset ≤ entries.length

def InBounds (v : Vfs ι) : Prop :=
  ∀ (fd : Int) (info : FdInfo (MemoryOpenedFile ι)), v.fds[fd]? = some info → v.InRange info

theorem inBounds_iff (v : Vfs ι) :
    InBounds v ↔ ∀ fd dirpIsNull count, v.getdents64 fd dirpIsNull count ≠ .panicked := by
  constructor
  · intro hb fd dirpIsNull count hp
    unfold RootVFS.getdents64 at hp
    split at hp
    · cases hp
    · next info hi =>
      split at hp
      · cases hp
      · next entries he =>
        split_ifs at hp with hlen
        exact absurd (hb fd info hi entries he) (not_le.mpr hlen)
  · intro hp fd info hi entries he
    by_contra hlen
    exact hp fd false 0 (by simp [RootVFS.getdents64, hi, he, not_le.mp hlen])

theorem dirEntries_of_dir (hw : v.world.WF) {info : FdInfo (MemoryOpenedFile ι)}
    {f : MemoryRef ι} {d : NodeId} (ho : info.opened = some ⟨f, d⟩)
    (hd : (v.world.fs f.index).isDir d = true) :
    ∃ entries, v.dirEntries info = some entries ∧
      entries.map (·.name) =
        dotName :: dotDotName :: ((v.world.fs f.index).namesIn d).map (·.bytes) := by
  obtain ⟨l, hl, hn⟩ := (hw.fs f.index).readNodeDir_names hd
  have hlist : v.listing info = some l := by
    simp [RootVFS.listing, ho, OpenedFile.readDir, hl]
  exact ⟨dotEntries ++ l, by rw [RootVFS.dirEntries, hlist]; rfl, by simp [dotEntries, hn]⟩

theorem inRange_dir_iff (hw : v.world.WF) {info : FdInfo (MemoryOpenedFile ι)}
    {f : MemoryRef ι} {d : NodeId} (ho : info.opened = some ⟨f, d⟩)
    (hd : (v.world.fs f.index).isDir d = true) :
    v.InRange info ↔ info.dirOffset ≤ 2 + v.world.nameCount f d := by
  obtain ⟨entries, he, hn⟩ := dirEntries_of_dir hw ho hd
  have hlen := congrArg List.length hn
  simp only [List.length_map, List.length_cons] at hlen
  have hcount : entries.length = 2 + v.world.nameCount f d := by
    show _ = 2 + ((v.world.fs f.index).namesIn d).length
    omega
  simp [InRange, he, hcount]

/-- The handle is not on a directory, so that `getdents64` lists by path. -/
def ListsByPath (w : World ι) (info : FdInfo (MemoryOpenedFile ι)) : Prop :=
  ∀ h, info.opened = some h → (w.fs h.nodes.index).isDir h.node = false

theorem dirEntries_by_path (hw : v.world.WF) {info : FdInfo (MemoryOpenedFile ι)}
    (hb : ListsByPath v.world info) :
    v.dirEntries info = (v.readDir (.abs info.path.toAbs)).map (dotEntries ++ ·) := by
  have hnone : info.opened.bind (OpenedFile.readDir · v.world) = none := by
    cases ho : info.opened with
    | none => rfl
    | some h => exact (hw.fs h.nodes.index).readNodeDir_file (hb h ho)
  simp [RootVFS.dirEntries, RootVFS.listing, hnone, RootVFS.readDir, RootVFS.resolvePath]

/-- A name goes from a directory that some descriptor has read to its end. -/
def TakesRead (v : Vfs ι) (op : VfsOp) : Prop :=
  ∃ (fd : Int) (info : FdInfo (MemoryOpenedFile ι)) (f : MemoryRef ι) (d : NodeId) (w : World ι),
    v.fds[fd]? = some info ∧ info.opened = some ⟨f, d⟩ ∧ (v.world.fs f.index).isDir d = true ∧
      v.TakesName op w f d ∧ info.dirOffset = 2 + w.nameCount f d

/-- An offset within its listing before a call is there after it, but for what the call does
to the file systems. -/
theorem Step.inRange (hb : InBounds v) {op : VfsOp} (h : Step v op v') {fd : Int}
    {info : FdInfo (MemoryOpenedFile ι)} (hi : v'.fds[fd]? = some info) :
    info.dirOffset = 0 ∨ v.fds[fd]? = some info ∨ v'.InRange info := by
  cases h with
  | growth h =>
    cases h with
    | grown world hc he =>
      subst he
      exact Or.inr (Or.inl hi)
    | opened world fd' path h hc hk hfd hfresh he =>
      subst he
      simp only [RootVFS.getElem?_insert_fd] at hi
      split_ifs at hi
      · cases hi
        exact Or.inl rfl
      · exact Or.inr (Or.inl hi)
  | update world hc he =>
    subst he
    exact Or.inr (Or.inl hi)
  | forgotten fd' hop he =>
    subst he
    rw [RootVFS.forgetFd_getElem?] at hi
    split_ifs at hi
    exact Or.inr (Or.inl hi)
  | cloned oldfd newfd hop he =>
    subst he
    rw [RootVFS.cloneFd_getElem?] at hi
    split_ifs at hi
    · refine Or.inr (Or.inr ?_)
      have hlist : (v.cloneFd oldfd newfd).dirEntries info = v.dirEntries info := by
        unfold RootVFS.cloneFd
        split <;> rfl
      intro entries he
      exact hb oldfd info hi entries (hlist ▸ he)
    · exact Or.inr (Or.inl hi)
  | cwd path he =>
    subst he
    exact Or.inr (Or.inl hi)
  | advanced fd' dirpIsNull count info' entries n hop hi' hl hn he =>
    subst he
    rw [RootVFS.advance_getElem?] at hi
    split_ifs at hi
    · cases hi
      refine Or.inr (Or.inr ?_)
      intro entries' he
      have hee : entries' = entries := Option.some.inj (he.symm.trans hl)
      rw [hee]
      exact hn
    · exact Or.inr (Or.inl hi)
  | elsewhere live hop he =>
    subst he
    exact Or.inr (Or.inl hi)

end Vfs

end SandboxVfs
