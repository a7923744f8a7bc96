import SandboxVfs.Library.Scans
import SandboxVfs.ListingBounds

/-! A directory that is read by several calls of `getdents64`, with other calls in
between. -/

namespace SandboxVfs

open MemoryFS

theorem writeDirents64_failed {inodeForPath : List (List UInt8) → Nat} {parentPath : PathBuf}
    {entries : List VfsDirEntry} {startOffset : Nat} {dirpIsNull : Bool} {count : Int}
    (h : (writeDirents64 inodeForPath parentPath entries startOffset dirpIsNull
      count).bytesWritten < 0) :
    (writeDirents64 inodeForPath parentPath entries startOffset dirpIsNull
      count).entriesConsumed = 0 := by
  unfold writeDirents64 at h ⊢
  dsimp only at h ⊢
  split_ifs at h ⊢
  · rfl
  · rfl
  · exact absurd h (by simp)

variable {ι : Type} [DecidableEq ι]

/-- The names that `getdents64` slices for the directory `d` of `f`. -/
def World.listed (w : World ι) (f : MemoryRef ι) (d : NodeId) : List (List UInt8) :=
  dotName :: dotDotName :: ((w.fs f.index).namesIn d).map (·.bytes)

omit [DecidableEq ι] in
theorem World.listed_nodup (w : World ι) (f : MemoryRef ι) (d : NodeId) :
    (w.listed f d).Nodup := by
  have hinj : Function.Injective FileName.bytes := fun a b h => FileName.ext h
  refine List.nodup_cons.mpr ⟨?_, List.nodup_cons.mpr ⟨?_, ?_⟩⟩
  · simp only [List.mem_cons, List.mem_map, not_or, not_exists, not_and]
    exact ⟨by decide, fun x _ => x.ne_dot⟩
  · simp only [List.mem_map, not_exists, not_and]
    exact fun x _ => x.ne_dot_dot
  · exact ((w.fs f.index).namesIn_nodup d).map hinj

omit [DecidableEq ι] in
theorem World.mem_listed {w : World ι} {f : MemoryRef ι} {d : NodeId} {x : FileName} :
    x.bytes ∈ w.listed f d ↔ ∃ c, (w.fs f.index).entryAt d x = some c := by
  have hinj : Function.Injective FileName.bytes := fun a b h => FileName.ext h
  simp only [listed, List.mem_cons, x.ne_dot, x.ne_dot_dot, dotName, dotDotName, false_or,
    List.mem_map_of_injective hinj, mem_namesIn]

namespace Vfs

variable {v v' : Vfs ι} {fd : Int} {f : MemoryRef ι} {d : NodeId} {op : VfsOp}

/-- `fd` is an open descriptor on the directory `d` of `f`. -/
structure Scanning (fd : Int) (f : MemoryRef ι) (d : NodeId) (v : Vfs ι) : Prop where
  wf : v.WF
  live : fd ∈ v.world.sys.live
  tracked : ∃ info, v.fds[fd]? = some info ∧ info.opened = some ⟨f, d⟩
  dir : (v.world.fs f.index).isDir d = true

/-- The call neither closes `fd` nor makes it a copy of another descriptor. -/
def Spares (fd : Int) : VfsOp → Prop
  | .forgetFd fd' => fd' ≠ fd
  | .cloneFd _ newfd => newfd ≠ fd
  | .elsewhere live => fd ∈ live
  | _ => True

def offsetOf (fd : Int) (v : Vfs ι) : Nat := (v.fds[fd]?).elim 0 (·.dirOffset)

/-- What `getdents64` returns and writes; `none` also for a panic. -/
def answer (v : Vfs ι) (fd : Int) (dirpIsNull : Bool) (count : Int) :
    Option (Int × List Dirent) :=
  match v.getdents64 fd dirpIsNull count with
  | .returned (r, _) => r
  | .panicked => none

def recordsFor (fd : Int) (v : Vfs ι) : VfsOp → List Dirent
  | .getdents64 fd' dirpIsNull count =>
    if fd' = fd then (v.answer fd dirpIsNull count).elim [] (·.2) else []
  | _ => []

def namesFor (fd : Int) (v : Vfs ι) (op : VfsOp) : List (List UInt8) :=
  (v.recordsFor fd op).map (·.dName)

def scan (fd : Int) (v : Vfs ι) (ops : List VfsOp) : List Dirent :=
  match ops with
  | [] => []
  | op :: ops => v.recordsFor fd op ++ scan fd (v.step op) ops

theorem scan_map {α : Type} (g : Dirent → α) (fd : Int) (v : Vfs ι) (ops : List VfsOp) :
    (scan fd v ops).map g = Scans.outputs step (fun v op => (v.recordsFor fd op).map g) v ops := by
  induction ops generalizing v with
  | nil => rfl
  | cons op ops ih =>
    rw [scan, List.map_append, ih]
    rfl

/-- Only `getdents64` changes the entry of an open descriptor that is left alone. -/
theorem Step.spared (h : Step v op v') (hl : fd ∈ v.world.sys.live) (hs : Spares fd op) :
    fd ∈ v'.world.sys.live ∧
      ((∀ dirpIsNull count, op ≠ .getdents64 fd dirpIsNull count) →
        v'.fds[fd]? = v.fds[fd]?) := by
  cases h with
  | growth h =>
    refine ⟨h.world.later.live hl, fun _ => ?_⟩
    cases h with
    | grown world hc he => rw [he]; rfl
    | opened world fd' path h hc hk hfd hfresh he =>
      subst he
      simp only [RootVFS.getElem?_insert_fd]
      rw [if_neg]
      rintro rfl
      exact hfresh.1 hl
  | update world hc he =>
    subst he
    exact ⟨hc.later.live hl, fun _ => rfl⟩
  | forgotten fd' hop he =>
    subst hop he
    have hne : fd' ≠ fd := hs
    exact ⟨hl, fun _ => by rw [RootVFS.forgetFd_getElem?, if_neg hne.symm]⟩
  | cloned oldfd newfd hop he =>
    subst hop he
    have hne : newfd ≠ fd := hs
    refine ⟨by rwa [RootVFS.cloneFd_world], fun _ => ?_⟩
    rw [RootVFS.cloneFd_getElem?, if_neg hne.symm]
  | cwd path he =>
    subst he
    exact ⟨hl, fun _ => rfl⟩
  | advanced fd' dirpIsNull count info entries n hop hi hl' hn he =>
    subst hop he
    refine ⟨hl, fun hg => ?_⟩
    have hne : fd' ≠ fd := fun hh => hg dirpIsNull count (by rw [hh])
    rw [RootVFS.advance_getElem?, if_neg hne.symm]
  | elsewhere live hop he =>
    subst hop he
    exact ⟨hs, fun _ => rfl⟩

/-- `getdents64` delivers the next entries of the directory and moves the offset past
them. What `g` takes from a record and `h` from its entry is the same. -/
theorem Scanning.read_entries (hs : Scanning fd f d v) (dirpIsNull : Bool) (count : Int) :
    ∃ info l k, v.fds[fd]? = some info ∧ info.opened = some ⟨f, d⟩ ∧
      (v.world.fs f.index).readNodeDir d = some l ∧
      (v.step (.getdents64 fd dirpIsNull count)).fds[fd]? =
        some { info with dirOffset := info.dirOffset + k } ∧
      (v.step (.getdents64 fd dirpIsNull count)).world = v.world ∧
      (v.step (.getdents64 fd dirpIsNull count)).inodeForPath = v.inodeForPath ∧
      ∀ {α : Type} {g : Dirent → α} {h : VfsDirEntry → α},
        (∀ e offset, g (dirent v.inodeForPath info.path e offset) = h e) →
        (v.recordsFor fd (.getdents64 fd dirpIsNull count)).map g =
          (((dotEntries ++ l).map h).drop info.dirOffset).take k := by
  obtain ⟨info, hi, ho⟩ := hs.tracked
  obtain ⟨l, hl, -⟩ := (hs.wf.world.fs f.index).readNodeDir_names hs.dir
  have he : v.dirEntries info = some (dotEntries ++ l) := by
    simp [RootVFS.dirEntries, RootVFS.listing, ho, OpenedFile.readDir, hl]
  simp only [recordsFor, answer, step, RootVFS.getdents64, hi, he, if_true]
  by_cases hlen : (dotEntries ++ l).length < info.dirOffset
  · rw [if_pos hlen]
    exact ⟨info, l, 0, rfl, ho, hl, by simpa using hi, rfl, rfl, by simp⟩
  · rw [if_neg hlen]
    set r := writeDirents64 v.inodeForPath info.path ((dotEntries ++ l).drop info.dirOffset)
      info.dirOffset dirpIsNull count with hr
    refine ⟨info, l, r.entriesConsumed, rfl, ho, hl, ?_, ?_, ?_, ?_⟩
    · dsimp only
      split_ifs with hz
      · rw [RootVFS.advance_getElem?, if_pos rfl]
      · have hk : r.entriesConsumed = 0 := writeDirents64_failed (not_le.mp hz)
        rw [hk]
        exact hi
    · dsimp only
      split_ifs <;> rfl
    · dsimp only
      split_ifs <;> rfl
    · intro α g h hg
      rw [← List.map_drop, ← List.map_take]
      exact (writeDirents64_map v.inodeForPath info.path hg _ _ _ _).2

theorem Scanning.read (h : Scanning fd f d v) (dirpIsNull : Bool) (count : Int) :
    ∃ info k, v.fds[fd]? = some info ∧ info.opened = some ⟨f, d⟩ ∧
      (v.step (.getdents64 fd dirpIsNull count)).fds[fd]? =
        some { info with dirOffset := info.dirOffset + k } ∧
      (v.step (.getdents64 fd dirpIsNull count)).world = v.world ∧
      namesFor fd v (.getdents64 fd dirpIsNull count) =
        ((v.world.listed f d).drop info.dirOffset).take k := by
  obtain ⟨info, l, k, hi, ho, hl, hi', hw, -, hmap⟩ := h.read_entries dirpIsNull count
  obtain ⟨l', hl', hnames⟩ := (h.wf.world.fs f.index).readNodeDir_names h.dir
  cases hl.symm.trans hl'
  have hlisted : (dotEntries ++ l).map (·.name) = v.world.listed f d := by
    rw [List.map_append, hnames]
    rfl
  refine ⟨info, k, hi, ho, hi', hw, ?_⟩
  rw [← hlisted]
  exact hmap fun _ _ => rfl

theorem Scanning.read_zero (h : Scanning fd f d v) {dirpIsNull : Bool} {count : Int}
    {rs : List Dirent} (hr : v.answer fd dirpIsNull count = some (0, rs)) :
    (v.world.listed f d).length ≤ offsetOf fd v := by
  obtain ⟨info, hi, ho⟩ := h.tracked
  obtain ⟨entries, he, hn⟩ := dirEntries_of_dir h.wf.world ho h.dir
  have hlist : (v.world.listed f d).length = entries.length := by
    have hlen := congrArg List.length hn
    rw [List.length_map] at hlen
    exact hlen.symm
  have hoff : offsetOf fd v = info.dirOffset := by simp [offsetOf, hi]
  simp only [answer, RootVFS.getdents64, hi, he] at hr
  by_cases hlen : entries.length < info.dirOffset
  · simp [hlen] at hr
  · simp only [if_neg hlen, Option.some.injEq, Prod.mk.injEq] at hr
    have hnil := List.drop_eq_nil_iff.mp (writeDirents64_eq_zero hr.1)
    omega

theorem Scanning.kept (h : Scanning fd f d v) (hs : Spares fd op) :
    Scanning fd f d (v.step op) := by
  have hstep := step_spec h.wf op
  have hspare := hstep.spared h.live hs
  obtain ⟨info, hi, ho⟩ := h.tracked
  have hk : ((v.world.fs f.index).inodeOf d).isSome := by
    obtain ⟨h', hh, hk⟩ := h.wf.handle fd info hi
    cases ho.symm.trans hh
    exact hk
  refine ⟨hstep.wf h.wf, hspare.1, ?_, (hstep.isDir_eq hk).trans h.dir⟩
  by_cases hg : ∃ dirpIsNull count, op = .getdents64 fd dirpIsNull count
  · obtain ⟨dirpIsNull, count, rfl⟩ := hg
    obtain ⟨info', k, hi', ho', hi'', -⟩ := h.read dirpIsNull count
    exact ⟨_, hi'', ho'⟩
  · refine ⟨info, ?_, ho⟩
    rw [hspare.2 fun dirpIsNull count he => hg ⟨dirpIsNull, count, he⟩, hi]

/-- No name that stays in the directory is carried over the reader's position: it is
among those read so far after the call if and only if it was before. -/
def Steady (fd : Int) (f : MemoryRef ι) (d : NodeId) (v : Vfs ι) (op : VfsOp) : Prop :=
  ∀ x : FileName, x.bytes ∈ v.world.listed f d → x.bytes ∈ (v.step op).world.listed f d →
    (x.bytes ∈ (v.world.listed f d).take (offsetOf fd v) ↔
      x.bytes ∈ ((v.step op).world.listed f d).take (offsetOf fd v))

theorem Scanning.fair (h : Scanning fd f d v) (hs : Spares fd op) (hst : Steady fd f d v op)
    {x : FileName} (hx : x.bytes ∈ v.world.listed f d)
    (hx' : x.bytes ∈ (v.step op).world.listed f d) :
    Scans.Fair step (namesFor fd) (fun v => v.world.listed f d) (offsetOf fd) x.bytes v op := by
  by_cases hg : ∃ dirpIsNull count, op = .getdents64 fd dirpIsNull count
  · obtain ⟨dirpIsNull, count, rfl⟩ := hg
    obtain ⟨info, k, hi, -, hi', hw, hn⟩ := h.read dirpIsNull count
    have hoff : offsetOf fd v = info.dirOffset := by simp [offsetOf, hi]
    refine Scans.Fair.of_read (k := k) ?_ ?_ ?_
    · rw [hw]
    · simp [offsetOf, hi, hi']
    · rw [hn, hoff]
  · have hg' : ∀ dirpIsNull count, op ≠ .getdents64 fd dirpIsNull count :=
      fun dirpIsNull count he => hg ⟨dirpIsNull, count, he⟩
    have hi := ((step_spec h.wf op).spared h.live hs).2 hg'
    refine Scans.Fair.of_change (v.world.listed_nodup f d) ((v.step op).world.listed_nodup f d)
      ?_ ?_ (hst x hx hx')
    · unfold offsetOf
      rw [hi]
    · cases op with
      | getdents64 fd' dirpIsNull count =>
        have hne : fd' ≠ fd := fun he => hg' dirpIsNull count (by rw [he])
        simp [namesFor, recordsFor, hne]
      | _ => rfl

/-- A scan from offset 0 to the end, during which no call carries a name over the
reader's position, delivers each name that was there all the time in one record. -/
theorem scan_exactly_once (h : Scanning fd f d v) (h0 : offsetOf fd v = 0) (ops : List VfsOp)
    (hspare : ∀ op ∈ ops, Spares fd op)
    (hend : ∃ dirpIsNull count rs, (v.run ops).answer fd dirpIsNull count = some (0, rs))
    (hst : Runs.EveryStep step (Steady fd f d) v ops) (x : FileName)
    (hx : ∀ l, l <+: ops → ∃ c, ((v.run l).world.fs f.index).entryAt d x = some c) :
    ((scan fd v ops).map (·.dName)).count x.bytes = 1 := by
  have hpres : Runs.EveryStep step (fun v op => x.bytes ∈ v.world.listed f d ∧
      x.bytes ∈ (v.step op).world.listed f d) v ops := by
    apply Runs.EveryStep.of_forall_prefix
    intro l hl
    exact World.mem_listed.mpr (hx l hl)
  have hall := (hst.and hpres).and (Runs.EveryStep.of_forall_mem hspare)
  have hfair : Runs.EveryStep step
      (Scans.Fair step (namesFor fd) (fun v => v.world.listed f d) (offsetOf fd) x.bytes) v ops := by
    refine hall.imp (Scanning fd f d) ?_ h
    rintro v op hv ⟨⟨hst, hx, hx'⟩, hs⟩
    exact ⟨hv.kept hs, hv.fair hs hst hx hx'⟩
  have hfinal : Scanning fd f d (v.run ops) :=
    Runs.EveryStep.inv (Scanning fd f d) (fun _ _ hv hs => hv.kept hs)
      (Runs.EveryStep.of_forall_mem hspare) h
  obtain ⟨dirpIsNull, count, rs, hr⟩ := hend
  rw [scan_map]
  exact Scans.count_outputs hfair h0 (hfinal.read_zero hr) ((v.run ops).world.listed_nodup f d)
    (World.mem_listed.mpr (hx ops List.prefix_rfl))

/-- The descriptor of `/d`, which holds `a` and `b`, is 9, and its node 2. -/
def openedD : Vfs Unit :=
  (newMemory (fun _ => 0) .boot).run
    [.mkdir (.abs (PathBuf.toAbs [.d])) 0o755,
      .openPath (.abs (PathBuf.toAbs [.d, .a])) O_CREAT 0o644,
      .openPath (.abs (PathBuf.toAbs [.d, .b])) O_CREAT 0o644,
      .openPath (.abs (PathBuf.toAbs [.d])) 0 0]

/-- The first call has room for three records. -/
def readThenUnlink (x : FileName) : List VfsOp :=
  [.getdents64 9 false 72, .unlink (.abs (PathBuf.toAbs [.d, x]))]

theorem scanning_openedD : Scanning 9 ⟨()⟩ 2 openedD :=
  ⟨run_wf (newMemory_wf _ _) _, by decide +kernel,
    ⟨⟨[.d], 0, some ⟨⟨()⟩, 2⟩⟩, by decide +kernel, rfl⟩, by decide +kernel⟩

theorem scan_openedD :
    ((scan 9 openedD (readThenUnlink .b)).map (·.dName)).count FileName.a.bytes = 1 := by
  have htake : ((openedD.step (.getdents64 9 false 72)).world.listed ⟨()⟩ 2).take 3 =
      ((openedD.run (readThenUnlink .b)).world.listed ⟨()⟩ 2).take 3 := by decide +kernel
  have hoff : offsetOf 9 (openedD.step (.getdents64 9 false 72)) = 3 := by decide +kernel
  have hpres : ∀ l ∈ (readThenUnlink .b).inits,
      (((openedD.run l).world.fs ()).entryAt 2 .a).isSome = true := by decide +kernel
  refine scan_exactly_once scanning_openedD (by decide +kernel) (readThenUnlink .b) ?_
    ⟨false, 1000, [], by decide +kernel⟩ ⟨?_, ?_, trivial⟩ .a ?_
  · intro op hop
    simp only [readThenUnlink, List.mem_cons, List.not_mem_nil, or_false] at hop
    rcases hop with rfl | rfl <;> trivial
  · obtain ⟨info, k, -, -, -, hw, -⟩ := scanning_openedD.read false 72
    intro x _ _
    rw [hw]
  · intro x _ _
    rw [hoff, htake]
    rfl
  · intro l hl
    exact Option.isSome_iff_exists.mp (hpres l ((List.mem_inits _ _).mpr hl))

/-- After `/d/a` is read and unlinked, the scan ends without `/d/b`. -/
theorem scan_misses_fileB :
    Scanning 9 ⟨()⟩ 2 openedD ∧ offsetOf 9 openedD = 0 ∧
      (∀ op ∈ readThenUnlink .a, Spares 9 op) ∧
      (openedD.run (readThenUnlink .a)).answer 9 false 1000 = some (0, []) ∧
      (∀ l ∈ (readThenUnlink .a).inits,
        (((openedD.run l).world.fs ()).entryAt 2 .b).isSome = true) ∧
      ((scan 9 openedD (readThenUnlink .a)).map (·.dName)).count FileName.b.bytes = 0 := by
  refine ⟨scanning_openedD, by decide +kernel, ?_, by decide +kernel, by decide +kernel,
    by decide +kernel⟩
  intro op hop
  simp only [readThenUnlink, List.mem_cons, List.not_mem_nil, or_false] at hop
  rcases hop with rfl | rfl <;> trivial

end Vfs

end SandboxVfs
