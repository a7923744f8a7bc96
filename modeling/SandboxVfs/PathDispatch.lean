import SandboxVfs.MountedRenames

/-! Paths on their way to a backend: normalising them one by one comes to the same as
normalising them at once, and the mount points share out the normalised paths. -/

namespace SandboxVfs

def AbsPath.Normal (p : AbsPath) : Prop := ∀ c ∈ p.components, ∃ x, c = .normal x

theorem PathBuf.toAbs_normal (p : PathBuf) : p.toAbs.Normal := by
  intro c hc
  rw [PathBuf.components_toAbs] at hc
  obtain ⟨x, -, rfl⟩ := List.mem_map.mp hc
  exact ⟨x, rfl⟩

def AbsPath.joins (a : AbsPath) (ps : List RelPath) : AbsPath := ps.foldl AbsPath.join a

theorem AbsPath.joins_concat (a : AbsPath) (ps : List RelPath) (p : RelPath) :
    a.joins (ps ++ [p]) = (a.joins ps).join p := by
  rw [joins, joins, List.foldl_append]
  rfl

theorem AbsPath.joins_eq_join (a : AbsPath) (ps : List RelPath) :
    a.joins ps = a.join ⟨ps.flatMap (·.segments)⟩ := by
  induction ps generalizing a with
  | nil => simp [joins, join]
  | cons p ps ih =>
    show (a.join p).joins ps = _
    rw [ih]
    simp [join]

/-- Normalising on the way loses nothing. -/
theorem normalizeAbsolute_normalized_join (a : AbsPath) (p : RelPath) :
    normalizeAbsolute ((normalizeAbsolute a).toAbs.join p) = normalizeAbsolute (a.join p) := by
  rw [normalizeAbsolute_join, normalizeAbsolute_joined]

theorem normalizeAbsolute_chain (a : AbsPath) (ps : List RelPath) :
    ps.foldl (fun q p => normalizeAbsolute (q.toAbs.join p)) (normalizeAbsolute a) =
      normalizeAbsolute (a.joins ps) := by
  induction ps generalizing a with
  | nil => rfl
  | cons p ps ih =>
    rw [List.foldl_cons, normalizeAbsolute_normalized_join, ih]
    rfl

namespace RootVFS

variable {B H W : Type} {v : RootVFS B H W}

/-- The working directory, moved along relative paths one by one. -/
def chdirs (v : RootVFS B H W) (ps : List RelPath) : RootVFS B H W :=
  ps.foldl (fun v p => v.setCwd (v.resolvePath (.rel p)).toAbs) v

theorem chdirs_cwd {a : AbsPath} (ps : List RelPath) (h : v.cwd = normalizeAbsolute a) :
    (v.chdirs ps).cwd = normalizeAbsolute (a.joins ps) := by
  induction ps generalizing v a with
  | nil => exact h
  | cons p ps ih =>
    apply ih
    show normalizeAbsolute (v.resolvePath (.rel p)).toAbs = _
    rw [normalizeAbsolute_toAbs, resolvePath, h, normalizeAbsolute_normalized_join]

theorem chdirs_resolvePath {a : AbsPath} (ps : List RelPath) (p : RelPath)
    (h : v.cwd = normalizeAbsolute a) :
    (v.chdirs ps).resolvePath (.rel p) = normalizeAbsolute (a.joins (ps ++ [p])) := by
  rw [resolvePath, chdirs_cwd ps h, normalizeAbsolute_normalized_join, AbsPath.joins_concat]

def Tracks (v : RootVFS B H W) (fd : Int) (a : AbsPath) : Prop :=
  fd ≠ AT_FDCWD ∧ ∃ info, v.fds[fd]? = some info ∧ info.path = normalizeAbsolute a

theorem Tracks.resolveOpenatPath {fd : Int} {a : AbsPath} (h : v.Tracks fd a) (p : RelPath) :
    v.resolveOpenatPath fd (.rel p) = some (normalizeAbsolute (a.join p)) := by
  obtain ⟨hcwd, info, hi, hpath⟩ := h
  rw [RootVFS.resolveOpenatPath, if_neg hcwd, hi, Option.map_some, hpath,
    normalizeAbsolute_normalized_join]

section

variable [LowLevelFS B H W] [OpenedFile H W]

/-- Each path opened from the descriptor of the one before; `none` when an open fails. -/
def openats (v : RootVFS B H W) (fd : Int) : List (RelPath × Flags × Mode) → Option (Int × RootVFS B H W)
  | [] => some (fd, v)
  | (p, flags, mode) :: rest =>
    let r := v.openat fd (.rel p) flags mode
    if r.1 < 0 then none else r.2.openats r.1 rest

omit [LowLevelFS B H W] [OpenedFile H W] in
theorem trackOpen_tracks (r : OpenResult H) (a : AbsPath)
    (hfd : ¬ (v.trackOpen r (normalizeAbsolute a)).1 < 0) :
    (v.trackOpen r (normalizeAbsolute a)).2.Tracks (v.trackOpen r (normalizeAbsolute a)).1 a := by
  rw [trackOpen_fst] at hfd ⊢
  have hpos : 0 ≤ r.fd := by omega
  refine ⟨?_, ⟨normalizeAbsolute a, 0, r.opened⟩, ?_, rfl⟩
  · intro hcwd
    rw [hcwd] at hpos
    exact absurd hpos (by decide)
  · rw [trackOpen_getElem?, if_pos ⟨hpos, rfl⟩]

theorem Tracks.openat {fd : Int} {a : AbsPath} (h : v.Tracks fd a) (p : RelPath) (flags : Flags)
    (mode : Mode) (hfd : ¬ (v.openat fd (.rel p) flags mode).1 < 0) :
    (v.openat fd (.rel p) flags mode).2.Tracks (v.openat fd (.rel p) flags mode).1 (a.join p) := by
  have hres := h.resolveOpenatPath p
  obtain ⟨hcwd, info, hi, hpath⟩ := h
  cases hh : v.openatFromTrackedHandle fd (.rel p) flags mode with
  | some r =>
    have he : v.openat fd (.rel p) flags mode = r := by simp only [RootVFS.openat, hh]
    rw [he] at hfd ⊢
    simp only [openatFromTrackedHandle, if_neg hcwd, hi, Option.bind_eq_bind, Option.bind_some] at hh
    obtain ⟨opened, -, hh⟩ := Option.bind_eq_some_iff.mp hh
    obtain ⟨s, -, hh⟩ := Option.bind_eq_some_iff.mp hh
    have hs : (v.setWorld s.2).trackOpen s.1 (normalizeAbsolute (a.join p)) = r := by
      rw [← normalizeAbsolute_normalized_join, ← hpath]
      exact Option.some.inj hh
    rw [← hs] at hfd ⊢
    exact trackOpen_tracks s.1 (a.join p) hfd
  | none =>
    have he : v.openat fd (.rel p) flags mode =
        v.openVirtual (normalizeAbsolute (a.join p)) flags mode := by
      simp only [RootVFS.openat, hh, hres]
    rw [he] at hfd ⊢
    exact trackOpen_tracks _ (a.join p) hfd

theorem Tracks.openats {fd fd' : Int} {v' : RootVFS B H W} {a : AbsPath} (h : v.Tracks fd a)
    (calls : List (RelPath × Flags × Mode)) (hc : v.openats fd calls = some (fd', v')) :
    v'.Tracks fd' (a.joins (calls.map (·.1))) := by
  induction calls generalizing v fd a with
  | nil =>
    obtain ⟨rfl, rfl⟩ := Prod.mk.inj (Option.some.inj hc)
    exact h
  | cons c calls ih =>
    obtain ⟨p, flags, mode⟩ := c
    simp only [RootVFS.openats] at hc
    split_ifs at hc with hneg
    exact ih (h.openat p flags mode hneg) hc

/-- Normal forms are canonical, and a chain of relative paths that is resolved one by one,
through a working directory or through descriptors, ends at the normal form of all of them
joined. -/
theorem normal_forms (a : AbsPath) :
    (normalizeAbsolute a).toAbs.Normal ∧
      normalizeAbsolute (normalizeAbsolute a).toAbs = normalizeAbsolute a ∧
      (∀ p, normalizeAbsolute ((normalizeAbsolute a).toAbs.join p) = normalizeAbsolute (a.join p)) ∧
      (∀ ps, a.joins ps = a.join ⟨ps.flatMap (·.segments)⟩) ∧
      (∀ (v : RootVFS B H W) (ps : List RelPath) (p : RelPath),
        ((v.setCwd a).chdirs ps).resolvePath (.rel p) = normalizeAbsolute (a.joins (ps ++ [p]))) ∧
      ∀ (v v' : RootVFS B H W) (fd fd' : Int) (calls : List (RelPath × Flags × Mode)) (p : RelPath),
        v.Tracks fd a → v.openats fd calls = some (fd', v') →
          v'.resolveOpenatPath fd' (.rel p) =
            some (normalizeAbsolute (a.joins (calls.map (·.1) ++ [p]))) := by
  refine ⟨PathBuf.toAbs_normal _, normalizeAbsolute_toAbs _, normalizeAbsolute_normalized_join a,
    a.joins_eq_join, ?_, ?_⟩
  · intro v ps p
    exact chdirs_resolvePath ps p rfl
  · intro v v' fd fd' calls p h hc
    rw [(h.openats calls hc).resolveOpenatPath p, AbsPath.joins_concat]

end

def pathToFs (v : RootVFS B H W) (path : Path) : Option PathBuf × PathBuf :=
  v.absolutePathToFs (v.resolvePath path)

/-- `resolve_openat_path` and then `absolute_path_to_fs`. -/
def openatPathToFs (v : RootVFS B H W) (dirfd : Int) (path : Path) : Option (Option PathBuf × PathBuf) :=
  (v.resolveOpenatPath dirfd path).map v.absolutePathToFs

/-- The longest mount point that is a prefix of `p`, component by component, and its backend;
`none` and the root backend when there is no such mount point. -/
structure Longest (v : RootVFS B H W) (p : PathBuf) (key : Option PathBuf) : Prop where
  root : key = none → (∀ m, v.IsMountPoint m → ¬ m <+: p) ∧ v.fsAt key = v.root
  mount : ∀ m, key = some m → v.IsMountPoint m ∧ m <+: p ∧ v.mounts m = some (v.fsAt key) ∧
    ∀ m', v.IsMountPoint m' → m' <+: p → m' <+: m

/-- The backend and the path for it: the longest mount point, and what is left of `p` there. -/
structure Dispatched (v : RootVFS B H W) (p : PathBuf) (target : Option PathBuf × PathBuf) : Prop where
  longest : v.Longest p target.1
  normal : target.2.toAbs.Normal
  whole : target.1.getD [] ++ target.2 = p

theorem fsAt_of_mountPoint {m : PathBuf} (h : v.IsMountPoint m) :
    v.mounts m = some (v.fsAt (some m)) := by
  obtain ⟨b, hb⟩ := Option.isSome_iff_exists.mp h.2
  rw [fsAt, hb, Option.getD_some]

theorem longest_self {m : PathBuf} (h : v.IsMountPoint m) : v.Longest m (some m) := by
  refine ⟨(fun hn => by cases hn), fun m' hm' => ?_⟩
  cases hm'
  exact ⟨h, List.prefix_rfl, fsAt_of_mountPoint h, fun _ _ hpre => hpre⟩

theorem absolutePathToFs_longest (p : PathBuf) : v.Longest p (v.absolutePathToFs p).1 := by
  induction p using List.reverseRecOn with
  | nil =>
    rw [absolutePathToFs_nil]
    refine ⟨fun _ => ⟨fun m hm hpre => hm.1 (List.prefix_nil.mp hpre), rfl⟩, (fun m hm => by cases hm)⟩
  | append_singleton p x ih =>
    by_cases hm : v.IsMountPoint (p ++ [x])
    · rw [absolutePathToFs_of_mount v hm]
      exact longest_self hm
    · have hno : ¬ (v.mounts (p ++ [x])).isSome = true := fun hs => hm ⟨by simp, hs⟩
      -- a mount point that is a prefix of the longer path is one of `p`
      have hshort (m : PathBuf) (hmp : v.IsMountPoint m) (hpre : m <+: p ++ [x]) : m <+: p := by
        rcases List.prefix_concat_iff.mp hpre with rfl | hpre
        · exact absurd hmp hm
        · exact hpre
      rw [absolutePathToFs_concat, if_neg hno]
      refine ⟨fun hn => ?_, fun m hk => ?_⟩
      · obtain ⟨hnone, hroot⟩ := ih.root hn
        exact ⟨fun m hmp hpre => hnone m hmp (hshort m hmp hpre), hroot⟩
      · obtain ⟨hmp, hpre, hfs, hlong⟩ := ih.mount m hk
        exact ⟨hmp, hpre.trans (List.prefix_append p [x]), hfs,
          fun m' hm' hpre' => hlong m' hm' (hshort m' hm' hpre')⟩

theorem absolutePathToFs_dispatched (p : PathBuf) : v.Dispatched p (v.absolutePathToFs p) :=
  ⟨absolutePathToFs_longest p, PathBuf.toAbs_normal _, v.absolutePathToFs_path p⟩

theorem absolutePathToFs_inj {p q : PathBuf} (h : v.absolutePathToFs p = v.absolutePathToFs q) :
    p = q := by
  rw [← v.absolutePathToFs_path p, h, v.absolutePathToFs_path]

/-- Every call of the dispatch, whatever its input, goes to the longest mount point and loses
nothing of the normalised path. -/
theorem dispatch_longest_lossless (v : RootVFS B H W) :
    (∀ path, v.Dispatched (v.resolvePath path) (v.pathToFs path)) ∧
      (∀ dirfd path target, v.openatPathToFs dirfd path = some target →
        ∃ p, v.resolveOpenatPath dirfd path = some p ∧ v.Dispatched p target) ∧
      (∀ p q, p ≠ q → v.absolutePathToFs p ≠ v.absolutePathToFs q) ∧
      ((∀ k k', (k = none ∨ ∃ m, k = some m ∧ v.IsMountPoint m) →
          (k' = none ∨ ∃ m, k' = some m ∧ v.IsMountPoint m) → v.fsAt k = v.fsAt k' → k = k') →
        ∀ p q, p ≠ q → (v.fsAt (v.absolutePathToFs p).1, (v.absolutePathToFs p).2) ≠
          (v.fsAt (v.absolutePathToFs q).1, (v.absolutePathToFs q).2)) := by
  refine ⟨fun path => absolutePathToFs_dispatched _, ?_, fun p q hne h => hne (absolutePathToFs_inj h), ?_⟩
  · intro dirfd path target ht
    obtain ⟨p, hp, rfl⟩ := Option.map_eq_some_iff.mp ht
    exact ⟨p, hp, absolutePathToFs_dispatched p⟩
  · intro hobj p q hne he
    have hkey (r : PathBuf) : (v.absolutePathToFs r).1 = none ∨
        ∃ m, (v.absolutePathToFs r).1 = some m ∧ v.IsMountPoint m := by
      cases hr : (v.absolutePathToFs r).1 with
      | none => exact Or.inl rfl
      | some m => exact Or.inr ⟨m, rfl, ((absolutePathToFs_longest r).mount m hr).1⟩
    obtain ⟨hfs, hsub⟩ := Prod.mk.inj he
    exact hne (absolutePathToFs_inj (Prod.ext (hobj _ _ (hkey p) (hkey q) hfs) hsub))

end RootVFS

namespace Vfs

open RootVFS

def openedMount : Vfs (Fin 2) :=
  (mountedAt [.m]).run
    [.mkdir (.abs (PathBuf.toAbs [.m, .d])) 0o755, .openPath (.abs (PathBuf.toAbs [.m])) 0 0]

def openedUp : Option (Int × Vfs (Fin 2)) :=
  RootVFS.openats openedMount 6 [(⟨[.normal .d]⟩, 0, 0), (⟨[.parentDir]⟩, 0, 0)]

theorem openedUp_resolves :
    ∃ fd v, openedUp = some (fd, v) ∧
      v.resolveOpenatPath fd (.rel ⟨[.parentDir, .parentDir, .normal .a]⟩) = some [.a] := by
  have hopen : openedUp.isSome = true := by decide +kernel
  obtain ⟨⟨fd, v⟩, hopen⟩ := Option.isSome_iff_exists.mp hopen
  have ht : RootVFS.Tracks openedMount 6 ⟨[.normal .m]⟩ :=
    ⟨by decide, ⟨[.m], 0, some ⟨World.snd, 2⟩⟩, by decide +kernel, by decide +kernel⟩
  obtain ⟨-, -, -, -, -, hchain⟩ := normal_forms (B := Backend (Fin 2)) (H := MemoryOpenedFile (Fin 2))
    (W := World (Fin 2)) ⟨[.normal .m]⟩
  refine ⟨fd, v, hopen, ?_⟩
  rw [hchain openedMount v 6 fd _ ⟨[.parentDir, .parentDir, .normal .a]⟩ ht hopen]
  decide +kernel

theorem mountedAt_isMountPoint {m m' : PathBuf} (h : (mountedAt m).IsMountPoint m') : m' = m := by
  by_contra hne
  have hs : (Function.update (fun _ => none) m (some (Backend.memory World.snd)) m').isSome = true := h.2
  rw [Function.update_of_ne hne] at hs
  cases hs

theorem mountedAt_backends_differ :
    (RootVFS.fsAt (mountedAt [.m]) (RootVFS.absolutePathToFs (mountedAt [.m]) [.m, .a]).1,
        (RootVFS.absolutePathToFs (mountedAt [.m]) [.m, .a]).2) ≠
      (RootVFS.fsAt (mountedAt [.m]) (RootVFS.absolutePathToFs (mountedAt [.m]) [.a]).1,
        (RootVFS.absolutePathToFs (mountedAt [.m]) [.a]).2) := by
  obtain ⟨-, -, -, hpairs⟩ := dispatch_longest_lossless (mountedAt [.m])
  refine hpairs ?_ [.m, .a] [.a] (by decide)
  have hother : RootVFS.fsAt (mountedAt [.m]) none ≠ RootVFS.fsAt (mountedAt [.m]) (some [.m]) := by
    decide +kernel
  rintro k k' (rfl | ⟨m, rfl, hm⟩) (rfl | ⟨m', rfl, hm'⟩) he
  · rfl
  · rw [mountedAt_isMountPoint hm'] at he
    exact absurd he hother
  · rw [mountedAt_isMountPoint hm] at he
    exact absurd he.symm hother
  · rw [mountedAt_isMountPoint hm, mountedAt_isMountPoint hm']

end Vfs

end SandboxVfs
