import SandboxVfs.ListingBounds

/-! Which directory `getdents64` lists for a descriptor: the one its handle is on, or
the one that its recorded path leads to. -/

namespace SandboxVfs

open MemoryFS

variable {ι : Type} [DecidableEq ι]

namespace Vfs

variable {v : Vfs ι} {fd : Int} {info : FdInfo (MemoryOpenedFile ι)} {f : MemoryRef ι}
  {n : NodeId}

/-- A virtual path leads to a directory of the memory file system that serves it. -/
def LeadsToDir (v : Vfs ι) (p : PathBuf) : Prop :=
  ∃ f d, v.fsAt (v.absolutePathToFs p).1 = .memory f ∧
    (v.world.fs f.index).resolveNames (v.absolutePathToFs p).2 = some d ∧
    (v.world.fs f.index).isDir d = true

/-- `getdents64` lists the node of the handle: its entries when it is a directory, and
nothing when it is a file. -/
structure ListsHandle (v : Vfs ι) (fd : Int) (info : FdInfo (MemoryOpenedFile ι))
    (f : MemoryRef ι) (n : NodeId) : Prop where
  dir : (v.world.fs f.index).isDir n = true →
    ∃ l, (v.world.fs f.index).readNodeDir n = some l ∧ v.dirEntries info = some (dotEntries ++ l)
  file : (v.world.fs f.index).isDir n = false →
    ∀ dirpIsNull count, v.getdents64 fd dirpIsNull count = .returned (none, v)

theorem getdents64_none_iff (hi : v.fds[fd]? = some info) :
    (∀ dirpIsNull count, v.getdents64 fd dirpIsNull count = .returned (none, v)) ↔
      v.dirEntries info = none := by
  constructor
  · intro h
    have hh := h false 0
    cases he : v.dirEntries info with
    | none => rfl
    | some entries =>
      simp only [RootVFS.getdents64, hi, he] at hh
      split_ifs at hh
      all_goals simp at hh
  · intro he dirpIsNull count
    simp [RootVFS.getdents64, hi, he]

theorem listing_by_path_isSome_iff (hw : v.world.WF) (hm : OverMemory v) (p : PathBuf) :
    (v.readDir (.abs p.toAbs)).isSome = true ↔ v.LeadsToDir p := by
  obtain ⟨f, hf⟩ := hm.fsAt (v.absolutePathToFs p).1
  have hd : v.readDir (.abs p.toAbs) =
      LowLevelFS.readDir f v.world (v.absolutePathToFs p).2.toAbs := by
    simp only [RootVFS.readDir, RootVFS.resolvePath, normalizeAbsolute_toAbs, hf]
    rfl
  rw [hd, World.memory_readDir_isSome_iff hw]
  constructor
  · rintro ⟨d, hp, hdir⟩
    exact ⟨f, d, hf, hp, hdir⟩
  · rintro ⟨g, d, hg, hp, hdir⟩
    cases hf.symm.trans hg
    exact ⟨d, hp, hdir⟩

/-- A handle on a directory is listed; one on a file is not, unless its path now leads
to a directory. -/
theorem listsHandle_iff (hv : v.WF) (hm : OverMemory v) (hi : v.fds[fd]? = some info)
    (ho : info.opened = some ⟨f, n⟩) :
    v.ListsHandle fd info f n ↔
      (v.world.fs f.index).isDir n = true ∨ ¬ v.LeadsToDir info.path := by
  cases hdir : (v.world.fs f.index).isDir n with
  | true =>
    refine iff_of_true ⟨fun _ => ?_, fun hh => ?_⟩ (Or.inl rfl)
    · obtain ⟨l, hl, -⟩ := (hv.world.fs f.index).readNodeDir_names hdir
      refine ⟨l, hl, ?_⟩
      simp [RootVFS.dirEntries, RootVFS.listing, ho, OpenedFile.readDir, hl]
    · rw [hdir] at hh
      cases hh
  | false =>
    have hpath : ListsByPath v.world info := by
      intro h hh
      cases ho.symm.trans hh
      exact hdir
    have hlist := dirEntries_by_path hv.world hpath
    have hnone : v.dirEntries info = none ↔ ¬ v.LeadsToDir info.path := by
      rw [hlist, Option.map_eq_none_iff, ← listing_by_path_isSome_iff hv.world hm,
        Option.not_isSome_iff_eq_none]
    simp only [Bool.false_eq_true, false_or]
    rw [← hnone, ← getdents64_none_iff hi]
    constructor
    · exact fun h => h.file hdir
    · refine fun h => ⟨fun hh => ?_, fun _ => h⟩
      rw [hdir] at hh
      cases hh

def pathF : PathBuf := [.f]

def openedF : List VfsOp := [.openPath (.abs pathF.toAbs) O_CREAT 0o644]

def replacedF : List VfsOp :=
  openedF ++ [.unlink (.abs pathF.toAbs), .mkdir (.abs pathF.toAbs) 0o755]

theorem newMemory_overMemory (inodeForPath : List (List UInt8) → Nat) (sys : Sys) :
    OverMemory (newMemory inodeForPath sys) :=
  ⟨⟨⟨()⟩, rfl⟩, fun _ _ h => by cases h⟩

end Vfs

end SandboxVfs
