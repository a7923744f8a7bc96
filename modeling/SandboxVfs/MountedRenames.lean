import SandboxVfs.Mounts

/-! Renaming with mount points around: the one backend that serves both ends moves its own
subtree, and what is mounted below either end stays where it is. -/

namespace SandboxVfs

open MemoryFS NameGraph LayeredNames

namespace RootVFS

variable {B H W : Type} (v : RootVFS B H W)

theorem absolutePathToFs_path (p : PathBuf) :
    (v.absolutePathToFs p).1.getD [] ++ (v.absolutePathToFs p).2 = p := by
  induction p using List.reverseRecOn with
  | nil => simp
  | append_singleton p x ih =>
    rw [absolutePathToFs_concat]
    split_ifs
    · simp
    · rw [← List.append_assoc, ih]

end RootVFS

variable {ι : Type} [DecidableEq ι]

namespace Vfs

variable {v : Vfs ι} {p q old new : PathBuf} {f : MemoryRef ι}

omit [DecidableEq ι] in
theorem Serves.setWorld (h : v.Serves p f q) (w : World ι) : Vfs.Serves (v.setWorld w) p f q :=
  ⟨h.backend, h.subpath⟩

theorem Serves.stat_ino (hv : v.MemoryBacked) (h : v.Serves p f q) :
    (v.stat (.abs p.toAbs)).map (·.stIno) = (v.world.fs f.index).resolveNames q := by
  rw [h.stat_eq]
  exact World.memory_stat_ino hv.wf.world f q

/-- What the caller of `rename` may expect of a call that returned 0. -/
structure Vacates (v v' : Vfs ι) (old new : PathBuf) : Prop where
  gone : ∀ r, v'.access (.abs (PathBuf.toAbs (old ++ r))) F_OK ≠ 0
  arrived : ∀ r, v.access (.abs (PathBuf.toAbs (old ++ r))) F_OK = 0 →
    v'.access (.abs (PathBuf.toAbs (new ++ r))) F_OK = 0 ∧
      (v'.stat (.abs (PathBuf.toAbs (new ++ r)))).map (·.stIno) =
        (v.stat (.abs (PathBuf.toAbs (old ++ r)))).map (·.stIno)

/-- No mount point is below the old path, and none is where something would arrive below
the new one. -/
structure ClearOfMounts (v : Vfs ι) (old new : PathBuf) : Prop where
  source : ∀ m, v.IsMountPoint m → ¬ old <+: m
  target : ∀ r, v.IsMountPoint (new ++ r) → v.access (.abs (PathBuf.toAbs (old ++ r))) F_OK ≠ 0

/-- A rename that returned 0 moved a subtree in the file system that serves both ends. -/
theorem renameVirtual_eq_zero (hv : v.MemoryBacked) (hne : old ≠ new)
    (h0 : (v.renameVirtual old new).1 = 0) :
    ∃ f so sn fs', v.Serves old f so ∧ v.Serves new f sn ∧ so ≠ sn ∧
      (v.world.fs f.index).renameNodeAt so.toAbs sn.toAbs = some fs' ∧
      (v.renameVirtual old new).2 = v.setWorld (v.world.putFs f fs') := by
  obtain ⟨f, so, hs⟩ := hv.serves old
  have hkeys : (v.absolutePathToFs old).1 = (v.absolutePathToFs new).1 := by
    by_contra hk
    have he : v.renameVirtual old new = (-1, v) := if_pos hk
    rw [he] at h0
    exact absurd h0 neg_one_lt_zero.ne
  have he : v.renameVirtual old new =
      ((LowLevelFS.rename f v.world so.toAbs (PathBuf.toAbs (v.absolutePathToFs new).2)).1,
        v.setWorld
          (LowLevelFS.rename f v.world so.toAbs (PathBuf.toAbs (v.absolutePathToFs new).2)).2) := by
    have hd : v.renameVirtual old new =
        ((LowLevelFS.rename (v.fsAt (v.absolutePathToFs old).1) v.world
            (PathBuf.toAbs (v.absolutePathToFs old).2) (PathBuf.toAbs (v.absolutePathToFs new).2)).1,
          v.setWorld (LowLevelFS.rename (v.fsAt (v.absolutePathToFs old).1) v.world
            (PathBuf.toAbs (v.absolutePathToFs old).2)
            (PathBuf.toAbs (v.absolutePathToFs new).2)).2) := if_neg (not_not.mpr hkeys)
    rw [hd, hs.backend, hs.subpath]
    rfl
  have hsn : v.Serves new f (v.absolutePathToFs new).2 := ⟨hkeys ▸ hs.backend, rfl⟩
  rw [he] at h0
  obtain ⟨fs', hr, hw'⟩ := OverlayFS.memory_rename_eq_zero h0
  refine ⟨f, so, _, fs', hs, hsn, ?_, hr, by rw [he, hw']⟩
  intro hsame
  apply hne
  rw [← v.absolutePathToFs_path old, ← v.absolutePathToFs_path new, hkeys, hs.subpath, hsame]

theorem renameVirtual_vacates_iff (hv : v.MemoryBacked) (hne : old ≠ new)
    (h0 : (v.renameVirtual old new).1 = 0) (hv' : MemoryBacked (v.renameVirtual old new).2) :
    Vacates v (v.renameVirtual old new).2 old new ↔ v.ClearOfMounts old new := by
  obtain ⟨f, so, sn, fs', hs, hn, hsub, hr, he⟩ := renameVirtual_eq_zero hv hne h0
  rw [he] at hv' ⊢
  have hwf := hv.wf.world.fs f.index
  obtain ⟨h₁, h₂⟩ := hwf.not_prefix_of_renamed hsub hr
  obtain ⟨pa, x, a, pb, y, b, c, replaced, hpa, hpb, -, -, -, hm, -, -, hp⟩ :=
    renameNodeAt_toAbs hwf hsub hr
  have hfs : (v.setWorld (v.world.putFs f fs')).world.fs f.index = fs' := World.putFs_fs _ _ _
  have hso : so ≠ [] := by simp [hpa]
  constructor
  · rintro ⟨hgone, harrived⟩
    have hsource : ∀ m, v.IsMountPoint m → ¬ old <+: m := by
      rintro m hmount ⟨r, rfl⟩
      exact hgone r (access_mountPoint hv' hmount)
    refine ⟨hsource, ?_⟩
    intro r hmount hacc
    -- what was at the old path is a node of `f`, what is at the new one a root
    have hold : v.Serves (old ++ r) f (so ++ r) :=
      hs.append fun s _ _ hms => hsource _ hms (List.prefix_append old s)
    obtain ⟨c, hc⟩ := Option.ne_none_iff_exists'.mp ((hold.access_iff F_OK).mp hacc)
    obtain ⟨g, t, hg⟩ := hv'.serves (new ++ r)
    have ht : t = [] := Serves.of_mount (v := v.setWorld (v.world.putFs f fs')) hmount hg
    subst ht
    have hino := (harrived r hacc).2
    rw [hg.stat_ino hv', hold.stat_ino hv, hc] at hino
    by_cases hgf : g = f
    · subst hgf
      rw [hfs, hp] at hino
      have hroot : movePath (v.world.fs g.index).resolveNames so sn [] =
          (v.world.fs g.index).resolveNames [] := by
        have hsn : sn ≠ [] := by simp [hpb]
        simp [movePath, hsn, hso]
      rw [hroot] at hino
      have hnil := hwf.resolveNames_inj hino hc
      simp [hso] at hnil
    · have hgi : g.index ≠ f.index := fun hi => hgf (congrArg MemoryRef.mk hi)
      have hother : (v.setWorld (v.world.putFs f fs')).world.fs g.index = v.world.fs g.index :=
        World.putFs_fs_ne _ _ _ hgi
      rw [hother] at hino
      have hwg := hv.wf.world.fs g.index
      have hcg := hwg.mem_heap c (hwg.resolveNames_mem hino)
      have hcf := hwf.mem_heap c (hwf.resolveNames_mem hc)
      exact hgi (hv.wf.world.apart g.index f.index c (Option.isSome_iff_ne_none.mp hcg)
        (Option.isSome_iff_ne_none.mp hcf))
  · rintro ⟨hsource, htarget⟩
    have hold (r : PathBuf) : v.Serves (old ++ r) f (so ++ r) :=
      hs.append fun s _ _ hms => hsource _ hms (List.prefix_append old s)
    constructor
    · intro r hacc
      have hh := (((hold r).setWorld (v.world.putFs f fs')).access_iff F_OK).mp hacc
      rw [hfs, hp, movePath_old h₁ h₂] at hh
      exact hh rfl
    · intro r hacc
      obtain ⟨c, hc⟩ := Option.ne_none_iff_exists'.mp (((hold r).access_iff F_OK).mp hacc)
      have hnew : v.Serves (new ++ r) f (sn ++ r) := by
        refine hn.append fun s _ hsr hms => ?_
        -- an ancestor of an accessible path is accessible
        obtain ⟨t, rfl⟩ := hsr
        rw [← List.append_assoc] at hc
        obtain ⟨d, hd, -⟩ := hwf.resolveNames_of_append hc
        exact htarget s hms (((hold s).access_iff F_OK).mpr (by simp [hd]))
      have hnew' := hnew.setWorld (v.world.putFs f fs')
      have hmoved : ((v.setWorld (v.world.putFs f fs')).world.fs f.index).resolveNames (sn ++ r) =
          some c := by
        rw [hfs, hp, movePath_below, hc]
      refine ⟨(hnew'.access_iff F_OK).mpr (by simp [hmoved]), ?_⟩
      rw [hnew'.stat_ino hv', (hold r).stat_ino hv, hmoved, hc]

/-- A rename that returned 0 vacates the old path if and only if no mount point is in the
way of the subtree. -/
theorem renameat_vacates_iff (hv : v.MemoryBacked) {oldDirfd newDirfd : Int}
    {oldPath newPath : Path} (hold : v.resolveOpenatPath oldDirfd oldPath = some old)
    (hnew : v.resolveOpenatPath newDirfd newPath = some new) (hne : old ≠ new)
    (h0 : (v.renameat oldDirfd oldPath newDirfd newPath).1 = 0) :
    Vacates v (v.renameat oldDirfd oldPath newDirfd newPath).2 old new ↔
      v.ClearOfMounts old new := by
  have he : v.renameat oldDirfd oldPath newDirfd newPath = v.renameVirtual old new := by
    simp [RootVFS.renameat, hold, hnew]
  have hv' := run_memoryBacked hv [.renameat oldDirfd oldPath newDirfd newPath]
  have hstep : v.run [.renameat oldDirfd oldPath newDirfd newPath] =
      (v.renameat oldDirfd oldPath newDirfd newPath).2 := rfl
  rw [hstep, he] at hv'
  rw [he] at h0 ⊢
  exact renameVirtual_vacates_iff hv hne h0 hv'

def madeA (m : PathBuf) : Vfs (Fin 2) :=
  (mountedAt m).run [.mkdir (.abs (PathBuf.toAbs [.a])) 0o755]

theorem madeA_memoryBacked (m : PathBuf) : (madeA m).MemoryBacked :=
  run_memoryBacked (mountedAt_memoryBacked m) _

theorem vacates_madeA :
    Vacates (madeA [.m])
      ((madeA [.m]).rename (.abs (PathBuf.toAbs [.a])) (.abs (PathBuf.toAbs [.b]))).2
      [.a] [.b] := by
  refine (renameat_vacates_iff (madeA_memoryBacked [.m])
    (RootVFS.resolveOpenatPath_cwd _ _) (RootVFS.resolveOpenatPath_cwd _ _) (by decide)
    (by decide +kernel)).mpr ?_
  have hmounts (m : PathBuf) (hm : (madeA [.m]).IsMountPoint m) : m = [.m] := by
    by_contra hne
    have he : (madeA [.m]).mounts = (mountedAt [.m]).mounts :=
      (step_spec (mountedAt_memoryBacked [.m]).wf
        (.mkdir (.abs (PathBuf.toAbs [.a])) 0o755)).mounts_eq
    have hnone : (mountedAt [.m]).mounts m = none := Function.update_of_ne hne _ _
    rw [RootVFS.IsMountPoint, he, hnone] at hm
    cases hm.2
  constructor
  · intro m hm hpre
    rw [hmounts m hm] at hpre
    exact absurd hpre (by decide)
  · intro r hm
    exact absurd (List.head_eq_of_cons_eq (hmounts _ hm)) (by decide)

/-- The root of the mounted file system is still at `/a/m`. -/
theorem not_vacates_madeA :
    ((madeA [.a, .m]).rename (.abs (PathBuf.toAbs [.a]))
        (.abs (PathBuf.toAbs [.b]))).1 = 0 ∧
      ¬ Vacates (madeA [.a, .m])
        ((madeA [.a, .m]).rename (.abs (PathBuf.toAbs [.a]))
          (.abs (PathBuf.toAbs [.b]))).2 [.a] [.b] := by
  refine ⟨by decide +kernel, ?_⟩
  intro h
  exact h.gone [.m] (by decide +kernel)

end Vfs

end SandboxVfs
