import SandboxVfs.OverlayVisibility
import SandboxVfs.OverlayWrites

/-! Opening a file for writing through an overlay. Only the top layer is asked whether
the file exists, so a file of a lower layer is created anew, and empty. -/

namespace SandboxVfs

open MemoryFS NameGraph

def O_RDONLY : Flags := 0

def Flags.exclusive (flags : Flags) : Bool := flags &&& (O_CREAT ||| O_EXCL) == O_CREAT ||| O_EXCL

theorem Flags.has_creat_of_exclusive {flags : Flags} (h : flags.exclusive = true) :
    flags.has O_CREAT = true := by
  have he : flags &&& (O_CREAT ||| O_EXCL) = O_CREAT ||| O_EXCL := by simpa [exclusive] using h
  simp only [has, bne_iff_ne, ne_eq]
  intro hz
  have hc : flags &&& (O_CREAT ||| O_EXCL) &&& O_CREAT = flags &&& O_CREAT := by
    rw [BitVec.and_assoc]
    rfl
  rw [he, hz] at hc
  exact absurd hc (by decide)

namespace MemoryFS

variable {fs : MemoryFS} {next : NodeId}

/-- The end of an open: there must be a descriptor, and `O_DIRECTORY` asks for a directory. -/
def CanOpen (m : MemoryState) (node : NodeId) (flags : Flags) : Prop :=
  (flags.has O_DIRECTORY = true → m.fs.isDir node = true) ∧ m.sys.grants 1 = true

theorem openFound_of_canOpen {m : MemoryState} {node : NodeId} {flags : Flags}
    (h : CanOpen m node flags) :
    0 ≤ (openFound m node flags).1.fd ∧ (openFound m node flags).1.opened = some node := by
  have hd : ¬ (flags.has O_DIRECTORY && !m.fs.isDir node) = true := by
    rw [Bool.and_eq_true, Bool.not_eq_true', ← Bool.not_eq_true]
    exact fun hh => hh.2 (h.1 hh.1)
  have hk : 0 ≤ m.sys.newFd.1 := (grants_one_iff m.sys).mp h.2
  rw [openFound, if_neg hd]
  exact ⟨hk, if_neg (not_lt.mpr hk)⟩

theorem openFound_of_not_canOpen {m : MemoryState} {node : NodeId} {flags : Flags}
    (h : ¬ CanOpen m node flags) :
    (openFound m node flags).1.fd < 0 ∧ (openFound m node flags).1.opened = none := by
  by_cases hd : (flags.has O_DIRECTORY && !m.fs.isDir node) = true
  · rw [openFound, if_pos hd]
    exact ⟨neg_one_lt_zero, rfl⟩
  · have hk : m.sys.newFd.1 < 0 := by
      by_contra hk
      refine h ⟨fun hf => ?_, (grants_one_iff m.sys).mpr (not_lt.mp hk)⟩
      by_contra hdir
      simp [hf, hdir] at hd
    rw [openFound, if_neg hd]
    exact ⟨hk, if_pos hk⟩

theorem openNode_of_exists {m : MemoryState} {p : PathBuf} {c : NodeId}
    (hp : m.fs.resolveNames p = some c) (flags : Flags) (mode : Mode) :
    openNode m p.toAbs flags mode =
      if flags.exclusive then (⟨-1, none⟩, m) else openFound m c flags := by
  rw [openNode, resolve_toAbs, hp]
  rfl

theorem openNode_of_missing {m : MemoryState} {p : PathBuf} {flags : Flags}
    (hp : m.fs.resolveNames p = none) (hc : flags.has O_CREAT = false) (mode : Mode) :
    openNode m p.toAbs flags mode = (⟨-1, none⟩, m) := by
  rw [openNode, resolve_toAbs, hp]
  simp [openResolvedNode, hc]

def HasParent (fs : MemoryFS) (p : PathBuf) : Prop :=
  ∃ d, fs.resolveNames p.dropLast = some d ∧ fs.isDir d = true

theorem openNode_creates {m : MemoryState} (h : m.fs.WF m.sys.nextNodeId) {p : PathBuf}
    {flags : Flags} (hp : m.fs.resolveNames p = none) (hc : flags.has O_CREAT = true)
    (hd : m.fs.HasParent p) (hg : m.sys.grants 1 = true) (mode : Mode) :
    ∃ n m', openNode m p.toAbs flags mode = openFound m' n flags ∧ n = m.sys.nextNodeId ∧
      m'.fs.isDir n = false ∧ m'.fs.resolveNames p = some n ∧
      m'.sys.grants 1 = m.sys.grants 2 := by
  obtain ⟨d, hd, hdir⟩ := hd
  have hne : p ≠ [] := by
    rintro rfl
    rw [h.resolveNames_nil] at hp
    cases hp
  obtain ⟨q, x, rfl⟩ := (List.eq_nil_or_concat p).resolve_left hne
  simp only [List.concat_eq_append, List.dropLast_concat] at *
  have hx : m.fs.entryAt d x = none := by
    rwa [h.resolveNames_concat, hd] at hp
  obtain ⟨n, m', hcr, hid, hfile, -, hcreated, hwf, hgrants⟩ :=
    createNodeInDir_granted h hdir hx hg .file mode
  refine ⟨n.id, m', ?_, hid, ?_, ?_, hgrants 1⟩
  · have hcreate : createNode m (PathBuf.toAbs (q ++ [x])) .file mode = (some n.id, m') := by
      rw [createNode_toAbs, hd]
      exact hcr
    rw [openNode, resolve_toAbs, hp]
    simp [openResolvedNode, hc, hcreate]
  · rw [hcreated.isDir_eq, if_pos rfl, hfile]
    rfl
  · rw [hcreated.resolveNames h hid hd, addPath, if_pos rfl]

theorem openNode_refused {m : MemoryState} (h : m.fs.WF m.sys.nextNodeId) {p : PathBuf}
    (hp : m.fs.resolveNames p = none) (hno : ¬ (m.fs.HasParent p ∧ m.sys.grants 1 = true))
    (flags : Flags) (mode : Mode) :
    (openNode m p.toAbs flags mode).1 = ⟨-1, none⟩ ∧
      (openNode m p.toAbs flags mode).2.fs = m.fs := by
  by_cases hc : flags.has O_CREAT = true
  · have hcreate : (createNode m p.toAbs .file mode).1 = none ∧
        (createNode m p.toAbs .file mode).2.fs = m.fs := by
      have hne : p ≠ [] := by
        rintro rfl
        rw [h.resolveNames_nil] at hp
        cases hp
      obtain ⟨q, x, rfl⟩ := (List.eq_nil_or_concat p).resolve_left hne
      simp only [List.concat_eq_append, createNode_toAbs]
      cases hq : m.fs.resolveNames q with
      | none => exact ⟨rfl, rfl⟩
      | some d =>
        refine createNodeInDir_refused ?_ .file mode
        rintro ⟨hd, -, hg⟩
        exact hno ⟨⟨d, by simpa using hq, hd⟩, hg⟩
    have hpair : createNode m p.toAbs .file mode =
        (none, (createNode m p.toAbs .file mode).2) := Prod.ext hcreate.1 rfl
    have he : openNode m p.toAbs flags mode =
        (⟨-1, none⟩, (createNode m p.toAbs .file mode).2) := by
      rw [openNode, resolve_toAbs, hp]
      simp only [openResolvedNode, hc, if_true]
      rw [hpair]
    rw [he]
    exact ⟨rfl, hcreate.2⟩
  · rw [openNode_of_missing hp (Bool.eq_false_iff.mpr hc)]
    exact ⟨rfl, rfl⟩

end MemoryFS

theorem Sys.grants_mono {s : Sys} {n k : Nat} (h : s.grants n = true) (hk : k ≤ n) :
    s.grants k = true := by
  induction k generalizing s n with
  | zero => rfl
  | succ k ih =>
    obtain ⟨n, rfl⟩ := Nat.exists_eq_succ_of_ne_zero (by omega : n ≠ 0)
    rw [Sys.grants, Bool.and_eq_true] at h ⊢
    exact ⟨h.1, ih h.2 (by omega)⟩

/-- What is in the memfd of each node. -/
abbrev Contents := NodeId → List UInt8

variable {ι : Type} [DecidableEq ι]

/-- A memfd is empty when it is made, and `O_TRUNC` empties that of the opened node. -/
def Contents.afterOpen (contents : Contents) (w : World ι) (flags : Flags)
    (opened : Option (MemoryOpenedFile ι)) : Contents := fun id =>
  if w.sys.nextNodeId ≤ id ∨ flags.has O_TRUNC = true ∧ opened.any (·.node = id) = true then []
  else contents id

namespace OverlayFS

variable {o : OverlayFS (MemoryRef ι)} {w : World ι} {p : PathBuf} {flags : Flags} {mode : Mode}

theorem write_open_eq (hwr : writes flags = true) (w : World ι) (p : PathBuf) (mode : Mode) :
    LowLevelFS.openWithHandle o w p.toAbs flags mode =
      (openedFile o.top
          (openNode ((o.ensureTopParentDirs w p.toAbs).state o.top) p.toAbs flags mode).1,
        (o.ensureTopParentDirs w p.toAbs).put o.top
          (openNode ((o.ensureTopParentDirs w p.toAbs).state o.top) p.toAbs flags mode).2) :=
  if_pos hwr

theorem ensured_of_top (hw : w.WF) (h : (w.fs o.top.index).resolveNames p ≠ none) :
    o.ensureTopParentDirs w p.toAbs = w := by
  rw [ensureTopParentDirs_eq hw, if_neg]
  rintro ⟨hnone, -⟩
  exact h ((hw.fs _).resolveNames_none_below (List.dropLast_prefix p) hnone)

theorem ensured_missing (hw : w.WF) (h : (w.fs o.top.index).resolveNames p = none) :
    ((o.ensureTopParentDirs w p.toAbs).fs o.top.index).resolveNames p = none := by
  have hwf := (World.ensureTopParentDirs_grows hw o p.toAbs).wf hw
  have hv := ensured_view_eq (r := p) hw fun hm : o.MakesDir w p p => makesDir_ne hw hm rfl
  rwa [← (hwf.fs _).view_eq_none_iff, hv, (hw.fs _).view_eq_none_iff]

theorem ensured_grants_of_parent (hw : w.WF) (h : o.HasTopParent w p) (n : Nat) :
    (o.ensureTopParentDirs w p.toAbs).sys.grants n = w.sys.grants (o.parentCost w p + n) := by
  refine ensured_grants hw ?_ n
  intro hm
  rcases h with ⟨d, hd, -⟩ | h
  · rw [hm.1] at hd
    cases hd
  · exact h.2.2.2

/-- Whether the top layer can be given a new file, said of the state before the loop. -/
theorem ensured_canCreate_iff (hw : w.WF) :
    (((o.ensureTopParentDirs w p.toAbs).state o.top).fs.HasParent p ∧
        ((o.ensureTopParentDirs w p.toAbs).state o.top).sys.grants 1 = true) ↔
      o.HasTopParent w p ∧ w.sys.grants (o.parentCost w p + 1) = true := by
  have hparent : ((o.ensureTopParentDirs w p.toAbs).state o.top).fs.HasParent p ↔
      o.HasTopParent w p := ensured_hasParent_iff hw
  rw [hparent]
  refine and_congr_right fun hp => ?_
  rw [← ensured_grants_of_parent hw hp 1]
  rfl

/-- What a caller may expect of opening for writing the file that is visible at `p`. -/
structure DecidesOnView (o : OverlayFS (MemoryRef ι)) (w : World ι) (p : PathBuf) (flags : Flags)
    (mode : Mode) (contents : Contents) : Prop where
  exclusive : flags.exclusive = true →
    (LowLevelFS.openWithHandle o w p.toAbs flags mode).1.fd < 0 ∧
      (∀ i, ((LowLevelFS.openWithHandle o w p.toAbs flags mode).2.fs i).view = (w.fs i).view) ∧
      ∀ id, id < w.sys.nextNodeId →
        contents.afterOpen w flags (LowLevelFS.openWithHandle o w p.toAbs flags mode).1.opened id =
          contents id
  other : flags.exclusive = false →
    ∃ h, 0 ≤ (LowLevelFS.openWithHandle o w p.toAbs flags mode).1.fd ∧
      (LowLevelFS.openWithHandle o w p.toAbs flags mode).1.opened = some h ∧
      (flags.has O_TRUNC = false →
        ∀ h₀, (LowLevelFS.openWithHandle o w p.toAbs O_RDONLY mode).1.opened = some h₀ →
          contents.afterOpen w flags (some h) h.node = contents h₀.node)

/-- An exclusive open fails cleanly on a file of the top layer, and on a file of a lower
layer for which no directory and no file can be made. -/
def RefusesExclusive (o : OverlayFS (MemoryRef ι)) (w : World ι) (p : PathBuf) : Prop :=
  (w.fs o.top.index).resolveNames p ≠ none ∨
    (∀ r, ¬ o.MakesDir w p r) ∧
      ¬ (o.HasTopParent w p ∧ w.sys.grants (o.parentCost w p + 1) = true)

/-- Any other open succeeds on a file of the top layer, and where it makes an empty file
in the place of one that is empty or to be truncated. -/
def OpensSame (o : OverlayFS (MemoryRef ι)) (w : World ι) (p : PathBuf) (flags : Flags)
    (contents : Contents) : Prop :=
  flags.has O_DIRECTORY = false ∧
    ((w.fs o.top.index).resolveNames p ≠ none ∧ w.sys.grants 1 = true ∨
      (w.fs o.top.index).resolveNames p = none ∧ flags.has O_CREAT = true ∧
        o.HasTopParent w p ∧ w.sys.grants (o.parentCost w p + 2) = true ∧
        (flags.has O_TRUNC = true ∨
          ∀ c, (o.visibleFs w p).resolveNames p = some c → contents c = []))

theorem exclusive_iff (hw : w.WF) (hwr : writes flags = true) (hex : flags.exclusive = true)
    (p : PathBuf) (mode : Mode) :
    ((LowLevelFS.openWithHandle o w p.toAbs flags mode).1.fd < 0 ∧
      ∀ i, ((LowLevelFS.openWithHandle o w p.toAbs flags mode).2.fs i).view = (w.fs i).view) ↔
      o.RefusesExclusive w p := by
  have hwf := (World.ensureTopParentDirs_grows hw o p.toAbs).wf hw
  have hcreat := Flags.has_creat_of_exclusive hex
  have hmissing := ensured_missing (o := o) (p := p) hw
  rw [write_open_eq hwr]
  by_cases ht : (w.fs o.top.index).resolveNames p = none
  · have hstate : ((o.ensureTopParentDirs w p.toAbs).state o.top).fs.resolveNames p = none :=
      hmissing ht
    have hrefuses : o.RefusesExclusive w p ↔ (∀ r, ¬ o.MakesDir w p r) ∧
        ¬ (((o.ensureTopParentDirs w p.toAbs).state o.top).fs.HasParent p ∧
          ((o.ensureTopParentDirs w p.toAbs).state o.top).sys.grants 1 = true) := by
      rw [RefusesExclusive, ensured_canCreate_iff hw]
      simp [ht]
    rw [hrefuses]
    by_cases hmake : ((o.ensureTopParentDirs w p.toAbs).state o.top).fs.HasParent p ∧
        ((o.ensureTopParentDirs w p.toAbs).state o.top).sys.grants 1 = true
    · -- the file is created, next to the one that was visible
      refine iff_of_false ?_ fun hh => hh.2 hmake
      rintro ⟨-, hviews⟩
      obtain ⟨n, m', he, -, -, hn, -⟩ := openNode_creates
        (m := (o.ensureTopParentDirs w p.toAbs).state o.top) (hwf.fs o.top.index) hstate hcreat
        hmake.1 hmake.2 mode
      have hgrows := (Backend.overlay_openWithHandle hw o p.toAbs flags mode).1
      rw [write_open_eq hwr] at hgrows
      have hv := congrFun (hviews o.top.index) p
      rw [(hw.fs _).view_eq_none_iff.mpr ht, ((hgrows.wf hw).fs _).view_eq_none_iff, World.put_fs,
        he, openFound_fs, hn] at hv
      cases hv
    · obtain ⟨hfail, hfs⟩ := openNode_refused
        (m := (o.ensureTopParentDirs w p.toAbs).state o.top) (hwf.fs o.top.index) hstate hmake flags
        mode
      rw [hfail, and_iff_right (by exact neg_one_lt_zero), and_iff_left hmake]
      constructor
      · intro hviews r hr
        obtain ⟨id, hid⟩ := ensured_view_made hw hr
        have hv := congrFun (hviews o.top.index) r
        rw [World.put_fs, hfs, (hw.fs _).view_eq_none_iff.mpr hr.2.2.1] at hv
        exact absurd (hid.symm.trans hv) (by simp)
      · intro hnone i
        by_cases hi : i = o.top.index
        · subst hi
          funext r
          rw [World.put_fs, hfs]
          exact ensured_view_eq hw (hnone r)
        · rw [World.put_fs_ne _ _ _ hi,
            (World.ensureTopParentDirs_grows hw o p.toAbs).fs_eq (by simpa using hi)]
  · refine iff_of_true ?_ (Or.inl ht)
    obtain ⟨c, hc⟩ := Option.ne_none_iff_exists'.mp ht
    have he : openNode (w.state o.top) p.toAbs flags mode = (⟨-1, none⟩, w.state o.top) := by
      rw [openNode_of_exists hc, if_pos hex]
    rw [ensured_of_top hw ht, he]
    refine ⟨neg_one_lt_zero, fun i => ?_⟩
    show ((w.put o.top ⟨w.fs o.top.index, w.sys⟩).fs i).view = _
    rw [World.put_self]

theorem readOnly_opened {c : NodeId} (hc : (o.visibleFs w p).resolveNames p = some c) :
    (LowLevelFS.openWithHandle o w p.toAbs O_RDONLY mode).1.opened =
      if w.sys.grants 1 = true then some ⟨o.visibleLayer w p.toAbs, c⟩ else none := by
  have hnode : openNode (w.state (o.visibleLayer w p.toAbs)) p.toAbs O_RDONLY mode =
      openFound (w.state (o.visibleLayer w p.toAbs)) c O_RDONLY := openNode_of_exists hc _ _
  have he : (LowLevelFS.openWithHandle o w p.toAbs O_RDONLY mode).1.opened =
      (openFound (w.state (o.visibleLayer w p.toAbs)) c O_RDONLY).1.opened.map
        (⟨o.visibleLayer w p.toAbs, ·⟩) := by
    rw [← hnode]
    rfl
  rw [he]
  split_ifs with hg
  · have hcan : CanOpen (w.state (o.visibleLayer w p.toAbs)) c O_RDONLY :=
      ⟨fun hd => absurd hd (by decide), hg⟩
    rw [(openFound_of_canOpen hcan).2]
    rfl
  · rw [(openFound_of_not_canOpen fun hcan => hg hcan.2).2]
    rfl

omit [DecidableEq ι] in
theorem openedFile_of_found {m : MemoryState} {n : NodeId} (hfile : m.fs.isDir n = false)
    {P : MemoryOpenedFile ι → Prop} :
    (∃ h, 0 ≤ (openedFile o.top (openFound m n flags).1).fd ∧
        (openedFile o.top (openFound m n flags).1).opened = some h ∧ P h) ↔
      flags.has O_DIRECTORY = false ∧ m.sys.grants 1 = true ∧ P ⟨o.top, n⟩ := by
  by_cases hcan : CanOpen m n flags
  · obtain ⟨hfd, ho⟩ := openFound_of_canOpen hcan
    have hdir : flags.has O_DIRECTORY = false := by
      by_contra hd
      rw [Bool.not_eq_false] at hd
      have hn := hcan.1 hd
      rw [hfile] at hn
      cases hn
    simp only [openedFile, ho, Option.map_some, Option.some.injEq]
    constructor
    · rintro ⟨h, -, rfl, hP⟩
      exact ⟨hdir, hcan.2, hP⟩
    · rintro ⟨-, -, hP⟩
      exact ⟨_, hfd, rfl, hP⟩
  · refine iff_of_false ?_ ?_
    · rintro ⟨h, -, ho, -⟩
      have hnone := (openFound_of_not_canOpen hcan).2
      simp [openedFile, hnone] at ho
    · rintro ⟨hd, hg, -⟩
      refine hcan ⟨fun hd' => ?_, hg⟩
      rw [hd] at hd'
      cases hd'

theorem other_iff (hw : w.WF) (hwr : writes flags = true) (hex : flags.exclusive = false)
    {c : NodeId} (hc : (o.visibleFs w p).resolveNames p = some c)
    (hfile : (o.visibleFs w p).isDir c = false) (mode : Mode) (contents : Contents) :
    (∃ h, 0 ≤ (LowLevelFS.openWithHandle o w p.toAbs flags mode).1.fd ∧
      (LowLevelFS.openWithHandle o w p.toAbs flags mode).1.opened = some h ∧
      (flags.has O_TRUNC = false →
        ∀ h₀, (LowLevelFS.openWithHandle o w p.toAbs O_RDONLY mode).1.opened = some h₀ →
          contents.afterOpen w flags (some h) h.node = contents h₀.node)) ↔
      o.OpensSame w p flags contents := by
  have hwf := (World.ensureTopParentDirs_grows hw o p.toAbs).wf hw
  have hlater := (World.ensureTopParentDirs_grows hw o p.toAbs).later
  rw [write_open_eq hwr, readOnly_opened hc, OpensSame]
  by_cases ht : (w.fs o.top.index).resolveNames p = none
  · have hmissing : ((o.ensureTopParentDirs w p.toAbs).state o.top).fs.resolveNames p = none :=
      ensured_missing hw ht
    have hleft : ¬ ((w.fs o.top.index).resolveNames p ≠ none ∧ w.sys.grants 1 = true) :=
      fun hh => hh.1 ht
    rw [or_iff_right hleft]
    by_cases hcreat : flags.has O_CREAT = true
    · by_cases hmake : ((o.ensureTopParentDirs w p.toAbs).state o.top).fs.HasParent p ∧
          ((o.ensureTopParentDirs w p.toAbs).state o.top).sys.grants 1 = true
      · obtain ⟨n, m', he, hid, hdir, -, hgrants⟩ := openNode_creates
          (m := (o.ensureTopParentDirs w p.toAbs).state o.top) (hwf.fs o.top.index) hmissing hcreat
          hmake.1 hmake.2 mode
        have hparent := ((ensured_canCreate_iff hw).mp hmake).1
        have hnew : w.sys.nextNodeId ≤ n := hid ▸ hlater.next
        have hg : m'.sys.grants 1 = w.sys.grants (o.parentCost w p + 2) := by
          rw [hgrants, ← ensured_grants_of_parent hw hparent 2]
          rfl
        have hempty : contents.afterOpen w flags (some (⟨o.top, n⟩ : MemoryOpenedFile ι)) n = [] :=
          if_pos (Or.inl hnew)
        rw [he, openedFile_of_found hdir, hg]
        dsimp only
        rw [hempty]
        refine and_congr_right fun _ => ?_
        constructor
        · rintro ⟨hg2, hsame⟩
          refine ⟨ht, hcreat, hparent, hg2, ?_⟩
          by_cases htr : flags.has O_TRUNC = true
          · exact Or.inl htr
          · right
            intro c' hc'
            cases hc.symm.trans hc'
            have hone := Sys.grants_mono hg2 (by omega : 1 ≤ o.parentCost w p + 2)
            exact (hsame (Bool.eq_false_iff.mpr htr) _ (if_pos hone)).symm
        · rintro ⟨-, -, -, hg2, hempty'⟩
          refine ⟨hg2, fun htr h₀ hh => ?_⟩
          split_ifs at hh
          cases hh
          rcases hempty' with htr' | hempty'
          · rw [htr] at htr'
            cases htr'
          · exact (hempty' c hc).symm
      · refine iff_of_false ?_ ?_
        · rintro ⟨h, -, ho, -⟩
          have hfail := (openNode_refused (m := (o.ensureTopParentDirs w p.toAbs).state o.top)
            (hwf.fs o.top.index) hmissing hmake flags mode).1
          rw [hfail] at ho
          cases ho
        · rintro ⟨-, -, -, hparent, hg2, -⟩
          refine hmake ((ensured_canCreate_iff hw).mpr ⟨hparent, ?_⟩)
          exact Sys.grants_mono hg2 (by omega)
    · refine iff_of_false ?_ fun hh => hcreat hh.2.2.1
      rintro ⟨h, -, ho, -⟩
      rw [openNode_of_missing hmissing (Bool.eq_false_iff.mpr hcreat)] at ho
      cases ho
  · have hvis : o.visibleFs w p = w.fs o.top.index := by
      rw [visibleFs, visibleLayer_of_top ht]
    rw [hvis] at hc hfile
    have hknown : c < w.sys.nextNodeId := by
      have hwt := hw.fs o.top.index
      obtain ⟨i, hi⟩ := Option.isSome_iff_exists.mp (hwt.mem_heap c (hwt.resolveNames_mem hc))
      exact (hwt.heap_id c i hi).2
    have he : openNode (w.state o.top) p.toAbs flags mode = openFound (w.state o.top) c flags := by
      rw [openNode_of_exists hc, if_neg (by simp [hex])]
    rw [ensured_of_top hw ht, he, openedFile_of_found (m := w.state o.top) hfile]
    have hsame : flags.has O_TRUNC = false →
        ∀ h₀ : MemoryOpenedFile ι,
          (if w.sys.grants 1 = true then some (⟨o.visibleLayer w p.toAbs, c⟩ : MemoryOpenedFile ι)
            else none) = some h₀ →
          contents.afterOpen w flags (some (⟨o.top, c⟩ : MemoryOpenedFile ι)) c =
            contents h₀.node := by
      intro htr h₀ hh
      split_ifs at hh
      cases hh
      simp [Contents.afterOpen, htr, hknown]
    constructor
    · rintro ⟨hd, hg, -⟩
      exact ⟨hd, Or.inl ⟨ht, hg⟩⟩
    · rintro ⟨hd, ⟨-, hg⟩ | ⟨hnone, -⟩⟩
      · exact ⟨hd, hg, hsame⟩
      · exact absurd hnone ht

/-- Opening for writing decides on what is visible if and only if the file is in the top
layer, or what is made in its place happens to be the same. -/
theorem decidesOnView_iff (hw : w.WF) (hwr : writes flags = true) {c : NodeId}
    (hc : (o.visibleFs w p).resolveNames p = some c)
    (hfile : (o.visibleFs w p).isDir c = false) (mode : Mode) (contents : Contents) :
    DecidesOnView o w p flags mode contents ↔
      if flags.exclusive = true then o.RefusesExclusive w p else o.OpensSame w p flags contents := by
  split_ifs with hex
  · rw [← exclusive_iff hw hwr hex p mode]
    constructor
    · intro h
      obtain ⟨hfd, hviews, -⟩ := h.exclusive hex
      exact ⟨hfd, hviews⟩
    · rintro ⟨hfd, hviews⟩
      refine ⟨fun _ => ⟨hfd, hviews, ?_⟩, fun hno => absurd (hex.symm.trans hno) (by decide)⟩
      intro id hid
      have hok := (Backend.overlay_openWithHandle hw o p.toAbs flags mode).2
      have hnone : (LowLevelFS.openWithHandle o w p.toAbs flags mode).1.opened = none := by
        rw [← Option.not_isSome_iff_eq_none, hok.isSome_iff]
        exact not_le.mpr hfd
      rw [hnone]
      simp [Contents.afterOpen, hid]
  · rw [Bool.not_eq_true] at hex
    rw [← other_iff hw hwr hex hc hfile mode contents]
    refine ⟨fun h => h.other hex, fun h => ⟨fun hyes => ?_, fun _ => h⟩⟩
    rw [hex] at hyes
    cases hyes

def oneLine : Contents := fun _ => [104, 105, 10]

theorem decidesOnView_bothHold :
    DecidesOnView twoLayers bothHold [.a] (O_WRONLY ||| O_CREAT) 0o644 oneLine := by
  have htop : (bothHold.fs 0).resolveNames [.a] ≠ none := by decide +kernel
  have hc : (twoLayers.visibleFs bothHold [.a]).resolveNames [.a] = some 4 := by
    decide +kernel
  have hfile : (twoLayers.visibleFs bothHold [.a]).isDir 4 = false := by decide +kernel
  have hwr : writes (O_WRONLY ||| O_CREAT) = true := by decide
  refine (decidesOnView_iff bothHold_wf hwr hc hfile 0o644 oneLine).mpr ?_
  rw [if_neg (by decide)]
  exact ⟨by decide, Or.inl ⟨htop, by decide +kernel⟩⟩

/-- On the file of the base, a plain write open fails, one that may create finds no
contents, and one that must create does. -/
theorem not_decidesOnView_baseOnly :
    (LowLevelFS.openWithHandle twoLayers baseOnly (PathBuf.toAbs [.a]) O_WRONLY 0o644).1.fd = -1 ∧
      ¬ DecidesOnView twoLayers baseOnly [.a] O_WRONLY 0o644 oneLine ∧
      ¬ DecidesOnView twoLayers baseOnly [.a] (O_WRONLY ||| O_CREAT) 0o644 oneLine ∧
      ¬ DecidesOnView twoLayers baseOnly [.a] (O_WRONLY ||| O_CREAT ||| O_EXCL) 0o644
        oneLine := by
  have hfd : (LowLevelFS.openWithHandle twoLayers baseOnly (PathBuf.toAbs [.a]) O_WRONLY
      0o644).1.fd = -1 := by decide +kernel
  refine ⟨hfd, ?_, ?_, ?_⟩
  · intro h
    obtain ⟨g, hpos, -⟩ := h.other (by decide)
    rw [hfd] at hpos
    exact absurd hpos (by decide)
  · intro h
    obtain ⟨g, -, ho, hsame⟩ := h.other (by decide)
    have hnode : (LowLevelFS.openWithHandle twoLayers baseOnly (PathBuf.toAbs [.a])
        (O_WRONLY ||| O_CREAT) 0o644).1.opened = some ⟨⟨0⟩, 4⟩ := by decide +kernel
    have hread : (LowLevelFS.openWithHandle twoLayers baseOnly (PathBuf.toAbs [.a])
        O_RDONLY 0o644).1.opened = some ⟨⟨1⟩, 3⟩ := by decide +kernel
    cases hnode.symm.trans ho
    exact absurd (hsame (by decide) _ hread) (by decide +kernel)
  · intro h
    exact absurd (h.exclusive (by decide)).1 (by decide +kernel)

end OverlayFS

end SandboxVfs
