import SandboxVfs.Listings
import SandboxVfs.OverlayVisibility
import SandboxVfs.StatModes

/-! Which backend serves a path, and what that means for listing and lookup: a mount point
is found whether or not the backend above it has an entry for it. -/

namespace SandboxVfs

open MemoryFS

namespace RootVFS

variable {B H W : Type} (v : RootVFS B H W)

@[simp] theorem absolutePathToFs_nil : v.absolutePathToFs [] = (none, []) := by
  simp [absolutePathToFs]

theorem absolutePathToFs_concat (p : PathBuf) (x : FileName) :
    v.absolutePathToFs (p ++ [x]) =
      if (v.mounts (p ++ [x])).isSome then (some (p ++ [x]), [])
      else ((v.absolutePathToFs p).1, (v.absolutePathToFs p).2 ++ [x]) := by
  have hinits : (p ++ [x]).inits.reverse.filter (· ≠ []) =
      (p ++ [x]) :: p.inits.reverse.filter (· ≠ []) := by
    rw [List.inits_append]
    simp
  unfold absolutePathToFs
  rw [hinits, List.find?_cons]
  cases hm : (v.mounts (p ++ [x])).isSome with
  | true => simp
  | false =>
    dsimp only
    cases hf : (p.inits.reverse.filter (· ≠ [])).find? fun q => (v.mounts q).isSome with
    | none => simp
    | some q =>
      have hq : q <+: p := by
        have hmem := List.mem_of_find?_eq_some hf
        simpa using (List.mem_filter.mp hmem).1
      simp [List.drop_append_of_le_length hq.length_le]

def IsMountPoint (m : PathBuf) : Prop := m ≠ [] ∧ (v.mounts m).isSome = true

theorem absolutePathToFs_of_mount {m : PathBuf} (h : v.IsMountPoint m) :
    v.absolutePathToFs m = (some m, []) := by
  obtain ⟨p, x, rfl⟩ := (List.eq_nil_or_concat m).resolve_left h.1
  rw [List.concat_eq_append, absolutePathToFs_concat, if_pos]
  rw [← List.concat_eq_append]
  exact h.2

theorem absolutePathToFs_append {p : PathBuf} (s : PathBuf)
    (h : ∀ r, r ≠ [] → r <+: s → ¬ v.IsMountPoint (p ++ r)) :
    v.absolutePathToFs (p ++ s) = ((v.absolutePathToFs p).1, (v.absolutePathToFs p).2 ++ s) := by
  induction s using List.reverseRecOn with
  | nil => simp
  | append_singleton s x ih =>
    have hs : v.absolutePathToFs (p ++ s) =
        ((v.absolutePathToFs p).1, (v.absolutePathToFs p).2 ++ s) :=
      ih fun r hr hrs => h r hr (hrs.trans (List.prefix_append s [x]))
    have hno : ¬ (v.mounts (p ++ s ++ [x])).isSome = true := by
      intro hm
      refine h (s ++ [x]) (by simp) (List.prefix_refl _) ⟨by simp, ?_⟩
      rwa [← List.append_assoc]
    rw [← List.append_assoc, absolutePathToFs_concat, if_neg hno, hs, List.append_assoc]

end RootVFS

variable {ι : Type} [DecidableEq ι]

namespace Vfs

variable {v : Vfs ι} {p q r : PathBuf} {f : MemoryRef ι}

structure Serves (v : Vfs ι) (p : PathBuf) (f : MemoryRef ι) (q : PathBuf) : Prop where
  backend : v.fsAt (v.absolutePathToFs p).1 = .memory f
  subpath : (v.absolutePathToFs p).2 = q

/-- Well-formed memory file systems only, at the root and at all mount points. -/
structure MemoryBacked (v : Vfs ι) : Prop where
  wf : v.WF
  masked : ∀ i, (v.world.fs i).ModesMasked
  memory : OverMemory v

theorem run_memoryBacked (hv : v.MemoryBacked) (ops : List VfsOp) : (v.run ops).MemoryBacked :=
  ⟨run_wf hv.wf ops, run_modesMasked hv.wf hv.masked ops, (hv.memory.run hv.wf ops).1⟩

omit [DecidableEq ι] in
theorem MemoryBacked.serves (hv : v.MemoryBacked) (p : PathBuf) : ∃ f q, v.Serves p f q := by
  obtain ⟨f, hf⟩ := hv.memory.fsAt (v.absolutePathToFs p).1
  exact ⟨f, _, hf, rfl⟩

omit [DecidableEq ι] in
theorem Serves.append (h : v.Serves p f q) {s : PathBuf}
    (hs : ∀ r, r ≠ [] → r <+: s → ¬ v.IsMountPoint (p ++ r)) : v.Serves (p ++ s) f (q ++ s) := by
  have he := v.absolutePathToFs_append s hs
  constructor
  · rw [he]
    exact h.backend
  · rw [he, h.subpath]

omit [DecidableEq ι] in
theorem Serves.concat (h : v.Serves p f q) {x : FileName} (hm : ¬ v.IsMountPoint (p ++ [x])) :
    v.Serves (p ++ [x]) f (q ++ [x]) := by
  refine h.append fun r hr hrs => ?_
  rcases List.prefix_concat_iff.mp (show r <+: [] ++ [x] from hrs) with rfl | hnil
  · exact hm
  · exact absurd (List.prefix_nil.mp hnil) hr

omit [DecidableEq ι] in
theorem Serves.of_mount (hm : v.IsMountPoint p) (h : v.Serves p f q) : q = [] := by
  rw [← h.subpath, v.absolutePathToFs_of_mount hm]

theorem Serves.access_iff (h : v.Serves p f q) (mode : Int) :
    v.access (.abs p.toAbs) mode = 0 ↔ (v.world.fs f.index).resolveNames q ≠ none := by
  have hd : v.access (.abs p.toAbs) mode = LowLevelFS.access (v.fsAt (v.absolutePathToFs p).1)
      v.world (PathBuf.toAbs (v.absolutePathToFs p).2) mode := by
    simp [RootVFS.access, RootVFS.resolvePath]
  rw [hd, h.backend, h.subpath]
  exact OverlayFS.access_toAbs f v.world q mode

theorem Serves.stat_eq (h : v.Serves p f q) :
    v.stat (.abs p.toAbs) = LowLevelFS.stat f v.world q.toAbs := by
  have hd : v.stat (.abs p.toAbs) = LowLevelFS.stat (v.fsAt (v.absolutePathToFs p).1) v.world
      (PathBuf.toAbs (v.absolutePathToFs p).2) := by
    simp [RootVFS.stat, RootVFS.resolvePath]
  rw [hd, h.backend, h.subpath]
  rfl

theorem Serves.readDir_eq (h : v.Serves p f q) :
    v.readDir (.abs p.toAbs) =
      ((v.world.fs f.index).resolveNames q).bind (v.world.fs f.index).readNodeDir := by
  have hd : v.readDir (.abs p.toAbs) = LowLevelFS.readDir (v.fsAt (v.absolutePathToFs p).1)
      v.world (PathBuf.toAbs (v.absolutePathToFs p).2) := by
    simp [RootVFS.readDir, RootVFS.resolvePath]
  rw [hd, h.backend, h.subpath]
  exact World.memory_readDir_eq f v.world q

def ReportsDir (v : Vfs ι) (p : PathBuf) : Prop :=
  ∃ st, v.stat (.abs p.toAbs) = some st ∧ st.isDir = true

theorem Serves.reportsDir_iff (hv : v.MemoryBacked) (h : v.Serves p f q) :
    v.ReportsDir p ↔ ∃ c, (v.world.fs f.index).resolveNames q = some c ∧
      (v.world.fs f.index).isDir c = true := by
  rw [ReportsDir, h.stat_eq]
  exact World.memory_stat_isDir_iff hv.wf.world hv.masked f q

theorem Serves.access_of_reportsDir (hv : v.MemoryBacked) (h : v.Serves p f q)
    (hd : v.ReportsDir p) : v.access (.abs p.toAbs) F_OK = 0 := by
  obtain ⟨c, hc, -⟩ := (h.reportsDir_iff hv).mp hd
  exact (h.access_iff F_OK).mpr (by simp [hc])

/-- A mount point is always found, as the root of its file system. -/
theorem access_mountPoint (hv : v.MemoryBacked) (hm : v.IsMountPoint p) :
    v.access (.abs p.toAbs) F_OK = 0 := by
  obtain ⟨f, q, hs⟩ := hv.serves p
  have hq := hs.of_mount hm
  subst hq
  exact (hs.access_iff F_OK).mpr (by simp [(hv.wf.world.fs f.index).resolveNames_nil])

theorem Serves.mem_readDir_iff (hv : v.MemoryBacked) (h : v.Serves p f q) (x : FileName) :
    (∃ es, v.readDir (.abs p.toAbs) = some es ∧ ∃ e ∈ es, e.name = x.bytes) ↔
      (v.world.fs f.index).resolveNames (q ++ [x]) ≠ none := by
  have hwf := hv.wf.world.fs f.index
  rw [h.readDir_eq, hwf.resolveNames_concat]
  constructor
  · rintro ⟨es, hes, e, he, hx⟩
    obtain ⟨d, hd, hl⟩ := Option.bind_eq_some_iff.mp hes
    obtain ⟨y, c, hy, hc⟩ := hwf.mem_readNodeDir hl he
    have hxy : x = y := FileName.ext (hx.symm.trans hy)
    subst hxy
    rw [hd, Option.bind_some, hc]
    simp
  · intro hne
    obtain ⟨c, hc⟩ := Option.ne_none_iff_exists'.mp hne
    obtain ⟨d, hd, hx⟩ := Option.bind_eq_some_iff.mp hc
    obtain ⟨l, hl, hnames⟩ := hwf.readNodeDir_names (entryAt_isDir hx)
    have hmem : x.bytes ∈ l.map (·.name) := by
      rw [hnames]
      exact List.mem_map_of_mem (mem_namesIn.mpr ⟨c, hx⟩)
    obtain ⟨e, he, hex⟩ := List.mem_map.mp hmem
    exact ⟨l, by rw [hd, Option.bind_some, hl], e, he, hex⟩

theorem access_of_listed (hv : v.MemoryBacked) {es : List VfsDirEntry}
    (hes : v.readDir (.abs p.toAbs) = some es) {e : VfsDirEntry} (he : e ∈ es) :
    ∃ x : FileName, e.name = x.bytes ∧
      v.access (.abs (PathBuf.toAbs (p ++ [x]))) F_OK = 0 := by
  obtain ⟨f, q, hs⟩ := hv.serves p
  have hwf := hv.wf.world.fs f.index
  have hread := hs.readDir_eq
  rw [hes] at hread
  obtain ⟨d, -, hl⟩ := Option.bind_eq_some_iff.mp hread.symm
  obtain ⟨x, c, hx, -⟩ := hwf.mem_readNodeDir hl he
  refine ⟨x, hx, ?_⟩
  by_cases hm : v.IsMountPoint (p ++ [x])
  · exact access_mountPoint hv hm
  · refine ((hs.concat hm).access_iff F_OK).mpr ?_
    exact (hs.mem_readDir_iff hv x).mp ⟨es, hes, e, he, hx⟩

/-- The proper ancestors of a path are directories, and its parent lists it. -/
structure ListedUp (v : Vfs ι) (p : PathBuf) : Prop where
  ancestors : ∀ q : PathBuf, q <+: p → q ≠ p → v.access (.abs q.toAbs) F_OK = 0 ∧ v.ReportsDir q
  listed : ∀ (q : PathBuf) x, p = q ++ [x] →
    ∃ es, v.readDir (.abs q.toAbs) = some es ∧ ∃ e ∈ es, e.name = x.bytes

/-- The mount points on the way to a path stand in directories of the backends above them,
and the path itself, if it is one, has an entry there. -/
structure Entered (v : Vfs ι) (p : PathBuf) : Prop where
  above : ∀ q x, v.IsMountPoint (q ++ [x]) → q ++ [x] <+: p → q ++ [x] ≠ p →
    ∃ f s c, v.Serves q f s ∧ (v.world.fs f.index).resolveNames s = some c ∧
      (v.world.fs f.index).isDir c = true
  here : ∀ q x, v.IsMountPoint (q ++ [x]) → p = q ++ [x] →
    ∃ f s, v.Serves q f s ∧ (v.world.fs f.index).resolveNames (s ++ [x]) ≠ none

/-- A path is accessible only if its parent is a directory, unless it is a mount point. -/
theorem reportsDir_parent (hv : v.MemoryBacked) {x : FileName}
    (hacc : v.access (.abs (PathBuf.toAbs (p ++ [x]))) F_OK = 0)
    (hm : ¬ v.IsMountPoint (p ++ [x])) : v.ReportsDir p := by
  obtain ⟨f, q, hs⟩ := hv.serves p
  have hne := ((hs.concat hm).access_iff F_OK).mp hacc
  obtain ⟨c, hc⟩ := Option.ne_none_iff_exists'.mp hne
  obtain ⟨d, hd, hdir⟩ := (hv.wf.world.fs f.index).resolveNames_of_append hc
  exact (hs.reportsDir_iff hv).mpr ⟨d, hd, hdir (by simp)⟩

theorem reportsDir_above (hv : v.MemoryBacked) (hacc : v.access (.abs p.toAbs) F_OK = 0)
    (h : ∀ q x, v.IsMountPoint (q ++ [x]) → q ++ [x] <+: p → v.ReportsDir q) (q : PathBuf)
    (hq : q <+: p) (hne : q ≠ p) : v.ReportsDir q := by
  induction p using List.reverseRecOn with
  | nil => exact absurd (List.prefix_nil.mp hq) hne
  | append_singleton p x ih =>
    have hparent : v.ReportsDir p := by
      by_cases hm : v.IsMountPoint (p ++ [x])
      · exact h p x hm (List.prefix_refl _)
      · exact reportsDir_parent hv hacc hm
    rcases List.prefix_concat_iff.mp hq with he | hq
    · exact absurd he hne
    · by_cases hqp : q = p
      · rw [hqp]
        exact hparent
      · obtain ⟨f, s, hs⟩ := hv.serves p
        refine ih (hs.access_of_reportsDir hv hparent) ?_ hq hqp
        intro r y hm hr
        exact h r y hm (hr.trans (List.prefix_append p [x]))

omit [DecidableEq ι] in
theorem Serves.unique {f' : MemoryRef ι} {q' : PathBuf} (h : v.Serves p f q)
    (h' : v.Serves p f' q') : f = f' ∧ q = q' := by
  have hb := h.backend.symm.trans h'.backend
  exact ⟨Backend.memory.inj hb, h.subpath.symm.trans h'.subpath⟩

/-- An accessible path is listed all the way up if and only if the mount points on its way
are entered in the backends above them. -/
theorem listedUp_iff (hv : v.MemoryBacked) (hacc : v.access (.abs p.toAbs) F_OK = 0) :
    v.ListedUp p ↔ v.Entered p := by
  constructor
  · rintro ⟨hup, hlist⟩
    constructor
    · intro q x hm hpre hne
      obtain ⟨f, s, hs⟩ := hv.serves q
      have hq : q <+: p := (List.prefix_append q [x]).trans hpre
      have hqp : q ≠ p := by
        rintro rfl
        have hlen := hpre.length_le
        simp at hlen
      obtain ⟨c, hc, hdir⟩ := (hs.reportsDir_iff hv).mp (hup q hq hqp).2
      exact ⟨f, s, c, hs, hc, hdir⟩
    · intro q x hm hp
      obtain ⟨f, s, hs⟩ := hv.serves q
      exact ⟨f, s, hs, (hs.mem_readDir_iff hv x).mp (hlist q x hp)⟩
  · rintro ⟨habove, hhere⟩
    have hparents : ∀ q x, v.IsMountPoint (q ++ [x]) → q ++ [x] <+: p → v.ReportsDir q := by
      intro q x hm hpre
      by_cases hp : q ++ [x] = p
      · obtain ⟨f, s, hs, hne⟩ := hhere q x hm hp.symm
        obtain ⟨c, hc⟩ := Option.ne_none_iff_exists'.mp hne
        obtain ⟨d, hd, hdir⟩ := (hv.wf.world.fs f.index).resolveNames_of_append hc
        exact (hs.reportsDir_iff hv).mpr ⟨d, hd, hdir (by simp)⟩
      · obtain ⟨f, s, c, hs, hc, hdir⟩ := habove q x hm hpre hp
        exact (hs.reportsDir_iff hv).mpr ⟨c, hc, hdir⟩
    constructor
    · intro q hq hne
      have hdir := reportsDir_above hv hacc hparents q hq hne
      obtain ⟨f, s, hs⟩ := hv.serves q
      exact ⟨hs.access_of_reportsDir hv hdir, hdir⟩
    · rintro q x rfl
      obtain ⟨f, s, hs⟩ := hv.serves q
      rw [hs.mem_readDir_iff hv]
      by_cases hm : v.IsMountPoint (q ++ [x])
      · obtain ⟨f', s', hs', hne⟩ := hhere q x hm rfl
        obtain ⟨rfl, rfl⟩ := hs.unique hs'
        exact hne
      · exact ((hs.concat hm).access_iff F_OK).mp hacc

/-- In every state of a run, what is listed is accessible, and an accessible path is listed
all the way up exactly where the mount points on its way are entered. -/
theorem run_listings_and_lookup (hv : v.MemoryBacked) (ops : List VfsOp) :
    (∀ p es e, (v.run ops).readDir (.abs (PathBuf.toAbs p)) = some es → e ∈ es →
        ∃ x : FileName, e.name = x.bytes ∧
          (v.run ops).access (.abs (PathBuf.toAbs (p ++ [x]))) F_OK = 0) ∧
      ∀ p, p ≠ [] → (v.run ops).access (.abs (PathBuf.toAbs p)) F_OK = 0 →
        ((v.run ops).ListedUp p ↔ (v.run ops).Entered p) := by
  have hrun := run_memoryBacked hv ops
  constructor
  · intro p es e hes he
    exact access_of_listed hrun hes he
  · intro p _ hacc
    exact listedUp_iff hrun hacc

/-- `RootVFS::new(MemoryFS).with_mount(m, MemoryFS)`. -/
def mountedAt (m : PathBuf) : Vfs (Fin 2) :=
  (RootVFS.new (.memory World.fst) (fun _ => 0) (World.fresh 2 .boot)).withMount m
    (.memory World.snd)

theorem mountedAt_memoryBacked (m : PathBuf) : (mountedAt m).MemoryBacked := by
  refine ⟨⟨World.fresh_wf 2 .boot, ?_⟩, fun i => new_modesMasked (World.madeSys .boot i),
    ⟨_, rfl⟩, ?_⟩
  · intro fd info hi
    simp [mountedAt, RootVFS.withMount, RootVFS.new] at hi
  · intro q b hq
    have hb : Function.update (fun _ => none) m (some (Backend.memory ⟨1⟩)) q = some b := hq
    by_cases he : q = m
    · rw [he, Function.update_self] at hb
      exact ⟨_, (Option.some.inj hb).symm⟩
    · rw [Function.update_of_ne he] at hb
      cases hb

/-- `/m/a` is listed all the way up: `/m` is in sight below the root directory. -/
theorem listedUp_mountedAt :
    ((mountedAt [.m]).run [.mkdir (.abs (PathBuf.toAbs [.m, .a])) 0o755]).ListedUp
      [.m, .a] := by
  refine ((run_listings_and_lookup (mountedAt_memoryBacked [.m]) _).2 [.m, .a] (by decide)
    (by decide +kernel)).mpr ⟨?_, ?_⟩
  · intro q x _ hpre hne
    have hq : q = [] := by
      have hlen := hpre.length_le
      have hshort : (q ++ [x]).length ≠ 2 := fun he => hne (hpre.eq_of_length he)
      simp only [List.length_append, List.length_cons, List.length_nil] at hlen hshort
      exact List.length_eq_zero_iff.mp (by omega)
    subst hq
    exact ⟨⟨0⟩, [], 1, ⟨rfl, rfl⟩, by decide +kernel, by decide +kernel⟩
  · intro q x hm hp
    rw [← hp] at hm
    exact absurd hm.2 (by decide +kernel)

/-- `/m` is found, but `/` does not list it. -/
theorem not_listedUp_mountedAt :
    (mountedAt [.m]).access (.abs (PathBuf.toAbs [.m])) F_OK = 0 ∧ ¬ (mountedAt [.m]).ListedUp [.m] := by
  refine ⟨by decide +kernel, ?_⟩
  intro h
  obtain ⟨es, hes, e, he, -⟩ := h.listed [] .m rfl
  have hempty : (mountedAt [.m]).readDir (.abs (PathBuf.toAbs [])) = some [] := by decide +kernel
  rw [hempty] at hes
  cases hes
  cases he

end Vfs

end SandboxVfs
