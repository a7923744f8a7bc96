import SandboxVfs.Renames

/-! What creating and removing do to the paths of a memory file system, and what an
open asks of the path and the flags. -/

namespace SandboxVfs

open MemoryFS NameGraph

namespace MemoryFS

variable {fs fs' fs'' : MemoryFS} {next id : NodeId} {p : PathBuf} {dir : Bool} {mode : Mode}

/-- Every path but `p` leads where it led. -/
def KeepsOthers (fs fs' : MemoryFS) (p : PathBuf) : Prop :=
  ∀ q : PathBuf, q ≠ p → fs'.resolve q.toAbs = fs.resolve q.toAbs ∧ fs'.view q = fs.view q

/-- The path `p`, and no other, leads to the new node `id`. -/
structure Added (fs fs' : MemoryFS) (p : PathBuf) (id : NodeId) (dir : Bool) (mode : Mode) :
    Prop where
  before : fs.resolve p.toAbs = none
  after : fs'.resolve p.toAbs = some id
  view : fs'.view p = some (id, dir, mode)
  childless : fs'.Childless id
  others : KeepsOthers fs fs' p

structure Taken (fs fs' : MemoryFS) (p : PathBuf) (dir : Bool) : Prop where
  before : ∃ c, fs.resolve p.toAbs = some c ∧ fs.isDir c = dir ∧ fs.Childless c
  after : fs'.resolve p.toAbs = none
  others : KeepsOthers fs fs' p

theorem Created.added {d : NodeId} {x : FileName} {n : Inode} (h : fs.WF next)
    (hc : Created fs fs' d x n) (hid : n.id = next) {q : PathBuf}
    (hq : fs.resolveNames q = some d) :
    Added fs fs' (q ++ [x]) n.id n.isDir n.mode := by
  have hres := hc.resolveNames h hid hq
  have hview := hc.view h hid hq
  constructor
  · rw [resolve_toAbs, h.resolveNames_concat, hq]
    exact hc.absent
  · rw [resolve_toAbs, hres, addPath, if_pos rfl]
  · rw [hview, addPath, if_pos rfl]
  · refine childless_iff.mpr fun y => ?_
    have hne : ¬ (n.id = d ∧ y = x) := by
      rintro ⟨rfl, -⟩
      simpa [isDir_eq_inode, hc.fresh] using hc.dir
    rw [hc.entryAt, if_neg hne]
    exact entryAt_eq_none_of_heap (inodeOf_eq_none.mp hc.fresh) y
  · intro r hr
    rw [resolve_toAbs, resolve_toAbs, hres, hview, addPath, addPath, if_neg hr, if_neg hr]
    exact ⟨rfl, rfl⟩

theorem Removed.taken {d c : NodeId} {x : FileName} (h : fs.WF next) (hr : Removed fs fs' d x c)
    {q : PathBuf} (hq : fs.resolveNames q = some d) (hc : fs.Childless c) :
    Taken fs fs' (q ++ [x]) (fs.isDir c) := by
  have hres := hr.resolveNames h hq
  have hp : fs.resolveNames (q ++ [x]) = some c := by
    rw [h.resolveNames_concat, hq]
    exact hr.present
  refine ⟨⟨c, by rw [resolve_toAbs, hp], rfl, hc⟩, ?_, ?_⟩
  · rw [resolve_toAbs, hres, erasePath, if_pos List.prefix_rfl]
  · intro r hne
    -- nothing was below the removed node
    have hat : fs'.resolveNames r = fs.resolveNames r := by
      rw [hres, erasePath]
      split_ifs with hpre
      · obtain ⟨s, rfl⟩ := hpre
        cases hs : fs.resolveNames (q ++ [x] ++ s) with
        | none => rfl
        | some e =>
          have hnil := h.eq_nil_of_childless hp hc hs
          subst hnil
          exact absurd (List.append_nil _) hne
      · rfl
    refine ⟨by simpa only [resolve_toAbs] using hat, ?_⟩
    unfold MemoryFS.view
    rw [hat]
    cases hj : fs.resolveNames r with
    | none => rfl
    | some j =>
      have hjc : j ≠ c := by
        rintro rfl
        exact hne (h.resolveNames_inj hj hp)
      rw [Option.bind_some, Option.bind_some, hr.inodeOf, if_neg hjc]

theorem createAt_added {m m' : MemoryState} (h : m.fs.WF m.sys.nextNodeId) {kind : VfsEntryKind}
    (hc : createAt m (m.fs.resolveParent p.toAbs) kind mode = (some id, m')) :
    id = m.sys.nextNodeId ∧ Added m.fs m'.fs p id (kind == .dir) (mode &&& 0o7777) := by
  rcases createAt_cases h (m.fs.resolveParent p.toAbs) kind mode with
    ⟨sys', he, -⟩ | ⟨m'', d, x, n, he, ht, hid, -, hdir, hmode, hcr⟩
  · rw [hc] at he
    cases he
  · rw [hc] at he
    obtain ⟨hn, rfl⟩ := Prod.mk.inj he
    obtain ⟨q, rfl, hq⟩ := resolveParent_toAbs_eq_some ht
    have hadd := hcr.added h hid hq
    rw [hdir, hmode] at hadd
    cases hn
    exact ⟨hid, hadd⟩

theorem removeNodeAt_taken (h : fs.WF next) (kind : VfsEntryKind)
    (hz : (fs.removeNodeAt p.toAbs kind).1 = 0) :
    Taken fs (fs.removeNodeAt p.toAbs kind).2 p (kind == .dir) := by
  rcases removeNodeAt_toAbs_cases h p kind with he | ⟨fs', q, x, d, c, he, rfl, hq, -, hk, hr, -⟩
  · rw [he] at hz
    cases hz
  · rw [he]
    have hdir : fs.isDir c = (kind == .dir) := by
      cases kind with
      | file =>
        rw [kindMatches, Bool.not_eq_true'] at hk
        rw [hk]
        rfl
      | dir =>
        cases hes : fs.entriesOf c with
        | none => simp [kindMatches, hes] at hk
        | some es => simp [isDir, hes]
    rw [← hdir]
    exact hr.taken h hq (childless_of_kindMatches hk)

theorem Added.removed {next' : NodeId} (h : fs.WF next) (h' : fs'.WF next')
    (ha : Added fs fs' p id dir mode) {kind : VfsEntryKind} (hdir : dir = (kind == .dir)) :
    (fs'.removeNodeAt p.toAbs kind).1 = 0 ∧ ∀ q : PathBuf,
      (fs'.removeNodeAt p.toAbs kind).2.resolve q.toAbs = fs.resolve q.toAbs := by
  have hid := isDir_of_view ha.view
  have hne : p ≠ [] := by
    rintro rfl
    have hb := ha.before
    rw [resolve_toAbs, h.resolveNames_nil] at hb
    cases hb
  have hz : (fs'.removeNodeAt p.toAbs kind).1 = 0 := by
    refine (removeNodeAt_toAbs_iff h' p kind).mpr ⟨hne, id, hid.1, ?_⟩
    cases kind with
    | file => simp [kindMatches, hid.2, hdir]
    | dir => exact ha.childless (by simp [hid.2, hdir])
  refine ⟨hz, ?_⟩
  intro q
  have ht := removeNodeAt_taken h' kind hz
  by_cases hq : q = p
  · rw [hq, ht.after, ha.before]
  · rw [(ht.others q hq).1, (ha.others q hq).1]

end MemoryFS

namespace World

variable {ι : Type} [DecidableEq ι] {w : World ι}

/-- The call adds the path `p` with a node of its own, whose id no file system has had. -/
def Makes (w : World ι) (f : MemoryRef ι) (c : MemoryCall ι) (p : PathBuf) (dir : Bool)
    (mode : Mode) : Prop :=
  ∃ id, id = w.sys.nextNodeId ∧ (∀ i, (w.fs i).inodeOf id = none) ∧
    id < (w.step c).sys.nextNodeId ∧
    Added (w.fs f.index) ((w.step c).fs f.index) p id dir (mode &&& 0o7777)

/-- The second call succeeds, and after it every path leads where it led before the first. -/
def Restores (w : World ι) (f : MemoryRef ι) (c c' : MemoryCall ι) : Prop :=
  ((w.step c).call c').1 = 0 ∧ ∀ q : PathBuf,
    (((w.step c).step c').fs f.index).resolve q.toAbs = (w.fs f.index).resolve q.toAbs

theorem Makes.restores (hw : w.WF) {f : MemoryRef ι} {c c' : MemoryCall ι} {p : PathBuf}
    {dir : Bool} {mode : Mode} (hm : w.Makes f c p dir mode) (kind : VfsEntryKind)
    (hdir : dir = (kind == .dir))
    (hc' : (w.step c).call c' = (((w.step c).fs f.index).removeNodeAt p.toAbs kind |>.1,
      (w.step c).putFs f (((w.step c).fs f.index).removeNodeAt p.toAbs kind).2)) :
    w.Restores f c c' := by
  obtain ⟨id, -, -, -, ha⟩ := hm
  have hr := ha.removed (hw.fs f.index) ((step_wf hw c).fs f.index) hdir
  refine ⟨by rw [hc']; exact hr.1, ?_⟩
  intro q
  rw [step, hc', putFs_fs]
  exact hr.2 q

theorem makes_of_createAt (hw : w.WF) {f : MemoryRef ι} {p : PathBuf} {kind : VfsEntryKind}
    {mode : Mode} {id : NodeId} {m : MemoryState} {sys : Sys} {c : MemoryCall ι}
    (hc : createAt (w.state f) ((w.fs f.index).resolveParent p.toAbs) kind mode = (some id, m))
    (hl : m.sys.Later sys) (hs : w.step c = w.put f ⟨m.fs, sys⟩) :
    w.Makes f c p (kind == .dir) mode := by
  obtain ⟨hid, ha⟩ := createAt_added (m := w.state f) (hw.fs f.index) hc
  refine ⟨id, hid, ?_, ?_, ?_⟩
  · intro i
    exact (hw.fs i).heap_fresh hid.ge
  · rcases createAt_cases (m := w.state f) (hw.fs f.index)
      ((w.fs f.index).resolveParent p.toAbs) kind mode with
      ⟨sys', he, -⟩ | ⟨m', d, x, n, he, -, -, htake, -⟩
    · rw [hc] at he
      cases he
    · rw [hc] at he
      cases he
      have hnext : (w.state f).sys.takeId.nextNodeId ≤ sys.nextNodeId :=
        (htake.trans hl).next
      rw [hs]
      exact (hid.le.trans_lt (Nat.lt_succ_self _)).trans_le hnext
  · rw [hs, put_fs]
    exact ha

theorem mkdir_makes (hw : w.WF) {f : MemoryRef ι} {p : PathBuf} {mode : Mode}
    (hz : (w.call (.mkdir f p.toAbs mode)).1 = 0) :
    w.Makes f (.mkdir f p.toAbs mode) p true mode := by
  have hcall := call_mkdir (w := w) f p.toAbs mode
  cases hc : createAt (w.state f) ((w.fs f.index).resolveParent p.toAbs) .dir mode with
  | mk r m =>
    rw [hc] at hcall
    cases r with
    | none =>
      rw [hcall] at hz
      simp [createdStatus] at hz
    | some id =>
      refine makes_of_createAt hw hc (Sys.Later.refl _) ?_
      rw [step, hcall]

theorem open_makes (hw : w.WF) {f : MemoryRef ι} {p : PathBuf} {flags : Flags} {mode : Mode}
    (hcreat : flags.has O_CREAT = true) (hp : (w.fs f.index).resolve p.toAbs = none)
    (hfd : 0 ≤ (w.call (.openWithHandle f p.toAbs flags mode)).1) :
    w.Makes f (.openWithHandle f p.toAbs flags mode) p false mode := by
  have hcall := call_openWithHandle (w := w) f p.toAbs flags mode
  rw [hp] at hcall
  cases hc : createAt (w.state f) ((w.fs f.index).resolveParent p.toAbs) .file mode with
  | mk r m =>
    cases r with
    | none =>
      have he : openAt (w.state f) none ((w.fs f.index).resolveParent p.toAbs) flags mode =
          (⟨-1, none⟩, m) := by simp [openAt, openResolvedNode, hcreat, hc]
      rw [hcall, he] at hfd
      have hneg : (0 : Int) ≤ -1 := hfd
      omega
    | some id =>
      have he : openAt (w.state f) none ((w.fs f.index).resolveParent p.toAbs) flags mode =
          openFound m id flags := by simp [openAt, openResolvedNode, hcreat, hc]
      obtain ⟨sys', hs, hl, -⟩ := openFound_cases m id flags
      refine makes_of_createAt hw hc hl ?_
      rw [step, hcall, he, hs]

/-- Creating adds one path, removing takes one path, and removing undoes creating. -/
theorem creations_and_removals (hw : w.WF) (f : MemoryRef ι) (p : PathBuf) (flags : Flags)
    (mode : Mode) :
    ((w.call (.mkdir f p.toAbs mode)).1 = 0 →
      w.Makes f (.mkdir f p.toAbs mode) p true mode ∧
        w.Restores f (.mkdir f p.toAbs mode) (.rmdir f p.toAbs)) ∧
    (flags.has O_CREAT = true → (w.fs f.index).resolve p.toAbs = none →
      0 ≤ (w.call (.openWithHandle f p.toAbs flags mode)).1 →
      w.Makes f (.openWithHandle f p.toAbs flags mode) p false mode ∧
        w.Restores f (.openWithHandle f p.toAbs flags mode) (.unlink f p.toAbs)) ∧
    ((w.call (.unlink f p.toAbs)).1 = 0 →
      Taken (w.fs f.index) ((w.step (.unlink f p.toAbs)).fs f.index) p false) ∧
    ((w.call (.rmdir f p.toAbs)).1 = 0 →
      Taken (w.fs f.index) ((w.step (.rmdir f p.toAbs)).fs f.index) p true) := by
  refine ⟨?_, ?_, ?_, ?_⟩
  · intro hz
    have hm := mkdir_makes hw hz
    exact ⟨hm, hm.restores hw .dir rfl rfl⟩
  · intro hcreat hp hfd
    have hm := open_makes hw hcreat hp hfd
    exact ⟨hm, hm.restores hw .file rfl rfl⟩
  · intro hz
    have ht := removeNodeAt_taken (hw.fs f.index) .file hz
    have hs : (w.step (.unlink f p.toAbs)).fs f.index =
        ((w.fs f.index).removeNodeAt p.toAbs .file).2 := putFs_fs w f _
    rw [hs]
    exact ht
  · intro hz
    have ht := removeNodeAt_taken (hw.fs f.index) .dir hz
    have hs : (w.step (.rmdir f p.toAbs)).fs f.index =
        ((w.fs f.index).removeNodeAt p.toAbs .dir).2 := putFs_fs w f _
    rw [hs]
    exact ht

theorem mkdirX_madeAD :
    madeAD.Makes fst (.mkdir fst (PathBuf.toAbs [.d, .x]) 0o1755) [.d, .x] true 0o1755 ∧
      madeAD.Restores fst (.mkdir fst (PathBuf.toAbs [.d, .x]) 0o1755)
        (.rmdir fst (PathBuf.toAbs [.d, .x])) :=
  (creations_and_removals madeAD_wf fst [.d, .x] 0 0o1755).1 (by decide +kernel)

end World

def O_ACCMODE : Flags := 0x3

def Flags.readOnly (flags : Flags) : Bool := flags &&& O_ACCMODE == O_RDONLY

theorem Flags.exclusive_iff (flags : Flags) :
    flags.exclusive = true ↔ flags.has O_CREAT = true ∧ flags.has O_EXCL = true := by
  have hcreat : flags &&& O_CREAT = if flags.getLsbD 6 then O_CREAT else 0 :=
    BitVec.and_twoPow flags 6
  have hexcl : flags &&& O_EXCL = if flags.getLsbD 7 then O_EXCL else 0 :=
    BitVec.and_twoPow flags 7
  have hboth : flags &&& (O_CREAT ||| O_EXCL) = (flags &&& O_CREAT) ||| (flags &&& O_EXCL) :=
    BitVec.and_or_distrib_left
  simp only [exclusive, has, hboth, hcreat, hexcl]
  cases flags.getLsbD 6 <;> cases flags.getLsbD 7 <;> decide

namespace MemoryFS

variable {fs : MemoryFS} {next : NodeId}

/-- When POSIX `open` succeeds in a tree without symbolic links and permissions. -/
def PosixOpen (fs : MemoryFS) (p : PathBuf) (flags : Flags) : Prop :=
  (∃ c, fs.resolve p.toAbs = some c ∧
      ¬ (flags.has O_CREAT = true ∧ flags.has O_EXCL = true) ∧
      (flags.has O_DIRECTORY = true → fs.isDir c = true) ∧
      (fs.isDir c = true →
        flags.readOnly = true ∧ flags.has O_CREAT = false ∧ flags.has O_TRUNC = false)) ∨
    fs.resolve p.toAbs = none ∧ flags.has O_CREAT = true ∧ flags.has O_DIRECTORY = false ∧
      ∃ d, fs.resolve (PathBuf.toAbs p.dropLast) = some d ∧ fs.isDir d = true

/-- A directory is opened for more than reading it, and not exclusively. -/
def OpensDirForMore (fs : MemoryFS) (p : PathBuf) (flags : Flags) : Prop :=
  (∃ c, fs.resolve p.toAbs = some c ∧ fs.isDir c = true) ∧
    ¬ (flags.has O_CREAT = true ∧ flags.has O_EXCL = true) ∧
    (flags.readOnly = false ∨ flags.has O_CREAT = true ∨ flags.has O_TRUNC = true)

/-- What the code asks, when the kernel has descriptors. -/
theorem openNode_accepts_iff {m : MemoryState} (h : m.fs.WF m.sys.nextNodeId)
    (hg : m.sys.grants 2 = true) (p : PathBuf) (flags : Flags) (mode : Mode) :
    0 ≤ (openNode m p.toAbs flags mode).1.fd ↔
      (∃ c, m.fs.resolve p.toAbs = some c ∧
        ¬ (flags.has O_CREAT = true ∧ flags.has O_EXCL = true) ∧
        (flags.has O_DIRECTORY = true → m.fs.isDir c = true)) ∨
      m.fs.resolve p.toAbs = none ∧ flags.has O_CREAT = true ∧ flags.has O_DIRECTORY = false ∧
        m.fs.HasParent p := by
  have hg₁ := Sys.grants_mono hg (k := 1) (by omega)
  rw [resolve_toAbs]
  cases hp : m.fs.resolveNames p with
  | some c =>
    rw [openNode_of_exists hp, ← Flags.exclusive_iff]
    by_cases he : flags.exclusive = true
    · simp [he]
    · simp only [he, Bool.false_eq_true, if_false, openFound_fd_nonneg_iff, CanOpen, hg₁]
      simp
  | none =>
    by_cases hc : flags.has O_CREAT = true
    · by_cases hd : m.fs.HasParent p
      · obtain ⟨n, m', he, -, hfile, -, hgr⟩ := openNode_creates h hp hc hd hg₁ mode
        rw [he, openFound_fd_nonneg_iff, CanOpen, hfile, hgr, hg]
        simp [hc, hd]
      · rw [(openNode_refused h hp (fun hh => hd hh.1) flags mode).1]
        simp [hd]
    · rw [openNode_of_missing hp (Bool.eq_false_iff.mpr hc)]
      simp [hc]

theorem hasParent_iff (fs : MemoryFS) (p : PathBuf) :
    fs.HasParent p ↔ ∃ d, fs.resolve (PathBuf.toAbs p.dropLast) = some d ∧ fs.isDir d = true := by
  simp only [HasParent, resolve_toAbs]

end MemoryFS

namespace World

variable {ι : Type} [DecidableEq ι] {w : World ι}

/-- An open is accepted as POSIX accepts it, and gives no descriptor to write to a
directory, exactly when no directory is opened for more than reading. -/
theorem open_posix_iff (hw : w.WF) (hg : w.sys.grants 2 = true) (f : MemoryRef ι) (p : PathBuf)
    (flags : Flags) (mode : Mode) :
    ((0 ≤ (w.call (.openWithHandle f p.toAbs flags mode)).1 ↔
          (w.fs f.index).PosixOpen p flags) ∧
        ∀ c, (w.fs f.index).resolve p.toAbs = some c → (w.fs f.index).isDir c = true →
          0 ≤ (w.call (.openWithHandle f p.toAbs flags mode)).1 → flags.readOnly = true) ↔
      ¬ (w.fs f.index).OpensDirForMore p flags := by
  have hcall : (w.call (.openWithHandle f p.toAbs flags mode)).1 =
      (openNode (w.state f) p.toAbs flags mode).1.fd := rfl
  have hacc := openNode_accepts_iff (m := w.state f) (hw.fs f.index) hg p flags mode
  rw [hcall, hacc, hasParent_iff]
  show _ ↔ ¬ (w.fs f.index).OpensDirForMore p flags
  have hfs : (w.state f).fs = w.fs f.index := rfl
  rw [hfs]
  unfold PosixOpen OpensDirForMore
  cases hr : (w.fs f.index).resolve p.toAbs with
  | none => simp
  | some c =>
    by_cases hd : (w.fs f.index).isDir c = true
    · cases flags.readOnly <;> cases flags.has O_CREAT <;> cases flags.has O_TRUNC <;>
        cases flags.has O_EXCL <;> simp [hd]
    · simp [hd]

theorem open_posix_madeAD :
    0 ≤ (madeAD.call (.openWithHandle fst (PathBuf.toAbs [.a]) O_DIRECTORY 0)).1 ↔
      (madeAD.fs fst.index).PosixOpen [.a] O_DIRECTORY := by
  refine ((open_posix_iff madeAD_wf (by decide +kernel) fst [.a] O_DIRECTORY 0).mpr ?_).1
  rintro ⟨-, -, hmore⟩
  exact absurd hmore (by decide)

/-- The directory `/a` is opened for writing. -/
theorem not_open_posix :
    ¬ ∀ (p : PathBuf) (flags : Flags), 0 ≤ (madeAD.call (.openWithHandle fst p.toAbs flags 0)).1 ↔
      (madeAD.fs fst.index).PosixOpen p flags := by
  intro h
  have hdir : (madeAD.fs fst.index).resolve (PathBuf.toAbs [.a]) = some 3 := by decide +kernel
  rcases (h [.a] O_WRONLY).mp (by decide +kernel) with ⟨c, hc, -, -, hro⟩ | ⟨hnone, -⟩
  · rw [hdir] at hc
    cases hc
    exact absurd (hro (by decide +kernel)).1 (by decide)
  · rw [hdir] at hnone
    cases hnone

end World

end SandboxVfs
