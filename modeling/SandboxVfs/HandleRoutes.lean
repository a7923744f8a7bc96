import SandboxVfs.MemoryCalls
import SandboxVfs.Mounts
import SandboxVfs.OverlayOpens
import SandboxVfs.RelativeLookups

/-! `openat` and `mkdirat` from the handle of a directory, against `open` and `mkdir` of
the joined path. -/

namespace SandboxVfs

open MemoryFS NameGraph

namespace MemoryFS

variable {fs : MemoryFS} {next : NodeId}

theorem stepRelative_curDir (fs : MemoryFS) (n : NodeId) : fs.stepRelative n .curDir = some n := rfl

theorem WF.resolveRelative_of_parent (h : fs.WF next) {start d : NodeId} {p : RelPath}
    {x : FileName} (hp : fs.resolveRelativeParent start p = some (d, x)) :
    fs.resolveRelative start p = fs.entryAt d x := by
  obtain ⟨parent, hpar, hp⟩ := Option.bind_eq_some_iff.mp hp
  obtain ⟨d', hd, hp⟩ := Option.bind_eq_some_iff.mp hp
  obtain ⟨x', hx, he⟩ := Option.bind_eq_some_iff.mp hp
  cases he
  obtain ⟨hcomps, rfl⟩ := RelPath.components_of_fileName hpar hx
  rw [resolveRelative, RelPath.components_foldlM _ fs.stepRelative_curDir] at hd
  rw [resolveRelative, hcomps, List.foldlM_append, hd, ← h.edge_eq]
  simp [stepRelative]

/-- The directories that `p` passes through are there. -/
def Walks (fs : MemoryFS) (start : NodeId) (p : RelPath) : Prop :=
  (fs.resolveRelative start p).isSome = true ∨ (fs.resolveRelativeParent start p).isSome = true

/-- Opening from the node that a path leads to is opening the longer path. -/
theorem openAt_of_walks {m : MemoryState} (h : m.fs.WF next) {s : PathBuf} {start : NodeId}
    {p : RelPath} (hs : m.fs.resolveNames s = some start) (hw : m.fs.Walks start p) (flags : Flags)
    (mode : Mode) :
    openAt m (m.fs.resolveRelative start p) (m.fs.resolveRelativeParent start p) flags mode =
      openNode m (PathBuf.toAbs (p.components.foldl pushComponent s)) flags mode := by
  rw [openNode_eq, resolve_toAbs]
  cases hn : m.fs.resolveRelative start p with
  | some n =>
    rw [h.foldlM_stepRelative p.components hs hn]
    rfl
  | none =>
    obtain ⟨⟨d, x⟩, ht⟩ := Option.isSome_iff_exists.mp (hw.resolve_left (by simp [hn]))
    obtain ⟨r, hr, hd⟩ := h.resolveRelativeParent_at hs ht
    have hx := h.resolveRelative_of_parent ht
    rw [hn] at hx
    rw [hr, resolveParent_toAbs_concat, h.resolveNames_concat, hd, Option.bind_some, ← hx, ht]
    rfl

/-- An open that looks in these places gives a descriptor. -/
def Accepts (m : MemoryState) (existing : Option NodeId) (target : Option (NodeId × FileName))
    (flags : Flags) : Prop :=
  (∃ c, existing = some c ∧ flags.exclusive = false ∧ CanOpen m c flags) ∨
    existing = none ∧ flags.has O_CREAT = true ∧ flags.has O_DIRECTORY = false ∧
      m.fs.Vacant target ∧ m.sys.grants 2 = true

theorem openAt_accepts_iff {m : MemoryState} (h : m.fs.WF m.sys.nextNodeId)
    (existing : Option NodeId) (target : Option (NodeId × FileName)) (flags : Flags) (mode : Mode) :
    0 ≤ (openAt m existing target flags mode).1.fd ↔ Accepts m existing target flags := by
  cases existing with
  | some c =>
    have he : openAt m (some c) target flags mode =
        if flags.exclusive then (⟨-1, none⟩, m) else openFound m c flags := rfl
    rw [he]
    by_cases hex : flags.exclusive = true
    · simp [Accepts, hex]
    · simp [Accepts, hex, openFound_fd_nonneg_iff]
  | none =>
    by_cases hmake : flags.has O_CREAT = true ∧ m.fs.Vacant target ∧ m.sys.grants 1 = true
    · obtain ⟨hc, hv, hg⟩ := hmake
      obtain ⟨d, x, n, m', -, he, -, -, -, hfile, hgrants⟩ := openAt_creates h hc hv hg mode
      rw [he, openFound_fd_nonneg_iff, CanOpen, hfile, hgrants]
      simp [Accepts, hc, hv]
    · rw [(openAt_refused hmake mode).1]
      refine iff_of_false (by decide) ?_
      rintro (⟨c, hc, -⟩ | ⟨-, hc, -, hv, hg⟩)
      · cases hc
      · exact hmake ⟨hc, hv, Sys.grants_mono hg (by omega)⟩

theorem openAt_opened {m : MemoryState} (h : m.fs.WF m.sys.nextNodeId) {existing : Option NodeId}
    {target : Option (NodeId × FileName)} {flags : Flags} {mode : Mode}
    (hfd : 0 ≤ (openAt m existing target flags mode).1.fd) :
    (∃ c, existing = some c ∧ (openAt m existing target flags mode).1.opened = some c ∧
      (openAt m existing target flags mode).2.fs = m.fs) ∨
      ∃ d x n, target = some (d, x) ∧ n.id = m.sys.nextNodeId ∧
        Created m.fs (openAt m existing target flags mode).2.fs d x n ∧
        (openAt m existing target flags mode).1.opened = some n.id := by
  rcases openAt_cases h existing target flags mode with
    ⟨sys', he, -⟩ | ⟨c, rfl, he⟩ | ⟨m', d, x, n, rfl, -, ht, hid, -, -, -, hc, he⟩
  · rw [he] at hfd
    have hneg : (0 : Int) ≤ -1 := hfd
    omega
  · obtain ⟨sys', -, -, ho, -⟩ := openFound_cases m c flags
    rw [he] at hfd ⊢
    rw [ho, if_pos hfd]
    exact Or.inl ⟨c, rfl, rfl, openFound_fs m c flags⟩
  · obtain ⟨sys', -, -, ho, -⟩ := openFound_cases m' n.id flags
    rw [he] at hfd ⊢
    rw [ho, if_pos hfd, openFound_fs]
    exact Or.inr ⟨d, x, n, ht, hid, hc, rfl⟩

theorem openNode_leads {m : MemoryState} (h : m.fs.WF m.sys.nextNodeId) {s : PathBuf}
    {flags : Flags} {mode : Mode} (hfd : 0 ≤ (openNode m s.toAbs flags mode).1.fd) :
    ∃ c, (openNode m s.toAbs flags mode).1.opened = some c ∧
      (openNode m s.toAbs flags mode).2.fs.resolveNames s = some c := by
  rw [openNode_eq] at hfd ⊢
  rcases openAt_opened h hfd with ⟨c, hc, ho, hfs⟩ | ⟨d, x, n, ht, hid, hcr, ho⟩
  · rw [resolve_toAbs] at hc
    exact ⟨c, ho, by rw [hfs, hc]⟩
  · obtain ⟨r, rfl, hr⟩ := resolveParent_toAbs_eq_some ht
    refine ⟨n.id, ho, ?_⟩
    rw [hcr.resolveNames h hid hr, addPath, if_pos rfl]

theorem WF.vacant_iff (h : fs.WF next) (s : PathBuf) :
    fs.Vacant (fs.resolveParent s.toAbs) ↔ fs.resolveNames s = none ∧ fs.HasParent s := by
  rcases List.eq_nil_or_concat s with rfl | ⟨r, x, rfl⟩
  · rw [h.resolveNames_nil, resolveParent_toAbs_nil]
    simp [Vacant]
  · rw [List.concat_eq_append, resolveParent_toAbs_concat, h.resolveNames_concat, Vacant, HasParent,
      List.dropLast_concat]
    cases fs.resolveNames r with
    | none => simp
    | some d =>
      constructor
      · rintro ⟨d', x', he, hd, hx⟩
        cases he
        exact ⟨hx, d, rfl, hd⟩
      · rintro ⟨hx, d', he, hd⟩
        cases he
        exact ⟨d, x, rfl, hd, hx⟩

end MemoryFS

variable {ι : Type} [DecidableEq ι]

namespace OverlayFS

variable {o : OverlayFS (MemoryRef ι)} {w : World ι} {p : PathBuf}

theorem ensured_fs_eq (hw : w.WF) (h : ∀ r, ¬ o.MakesDir w p r) :
    (o.ensureTopParentDirs w p.toAbs).fs = w.fs := by
  by_cases hm : o.MakesParents w p
  swap
  · rw [ensureTopParentDirs_eq hw, if_neg hm]
  have htop : (w.state o.top).fs.WF (w.state o.top).sys.nextNodeId := hw.fs o.top.index
  have hview (r : PathBuf) := ensured_view_eq (r := r) hw (h r)
  rw [ensureTopParentDirs_eq hw, if_pos hm] at hview ⊢
  obtain ⟨a, xs, c, hq, ha, hx⟩ := htop.exists_deepest p.dropLast
  have hexists : (extensions [] a).foldl ensureDir (w.state o.top) = w.state o.top := by
    refine ensureDirs_of_exists fun q hq' hnone => ?_
    obtain ⟨t, rfl, ht⟩ := mem_extensions hq'
    rw [htop.resolveNames_none_below ht hnone] at ha
    cases ha
  rw [hq, extensions_append, List.foldl_append, List.nil_append, hexists] at hview ⊢
  have hfs : ((extensions a xs).foldl ensureDir (w.state o.top)).fs = (w.state o.top).fs := by
    cases xs with
    | nil => rfl
    | cons x xs =>
      have hx₁ : (w.state o.top).fs.resolveNames (a ++ [x]) = none := hx x rfl
      have hno : ¬ ((w.state o.top).fs.isDir c = true ∧ (w.state o.top).sys.grants 1 = true) := by
        intro hyes
        obtain ⟨id, hid⟩ := (ensureDirs_below htop ha (x :: xs) hx).made [x]
          (List.cons_prefix_cons.mpr ⟨rfl, List.nil_prefix⟩) (by simp) hyes
        have hsame := hview (a ++ [x])
        rw [World.put_fs, hid, (hw.fs _).view_eq_none_iff.mpr hx₁] at hsame
        cases hsame
      obtain ⟨hwf', ⟨-, hfs⟩ | ⟨hyes, -⟩⟩ := ensureDir_cases htop ha hx₁
      · rw [extensions, List.foldl_cons, ensureDirs_of_missing hwf' (hfs ▸ hx₁), hfs]
      · exact absurd hyes hno
  funext i
  by_cases hi : i = o.top.index
  · rw [hi, World.put_fs, hfs]
    rfl
  · rw [World.put_fs_ne _ _ _ hi]

end OverlayFS

namespace Backend

/-- The layer in which a call by path acts. -/
def layerFor (b : Backend ι) (w : World ι) (s : PathBuf) (writing : Bool) : MemoryRef ι :=
  match b with
  | .memory f => f
  | .overlay o => if writing then o.top else o.visibleLayer w s.toAbs

def readied (b : Backend ι) (w : World ι) (s : PathBuf) (writing : Bool) : World ι :=
  match b with
  | .memory _ => w
  | .overlay o => if writing then o.ensureTopParentDirs w s.toAbs else w

def HasParent (b : Backend ι) (w : World ι) (s : PathBuf) : Prop :=
  match b with
  | .memory f => (w.fs f.index).HasParent s
  | .overlay o => o.HasTopParent w s

def parentCost (b : Backend ι) (w : World ι) (s : PathBuf) : Nat :=
  match b with
  | .memory _ => 0
  | .overlay o => o.parentCost w s

def MakesDir (b : Backend ι) (w : World ι) (s r : PathBuf) : Prop :=
  match b with
  | .memory _ => False
  | .overlay o => o.MakesDir w s r

variable {b : Backend ι} {w : World ι} {s : PathBuf}

theorem openWithHandle_eq (b : Backend ι) (w : World ι) (s : PathBuf) (flags : Flags) (mode : Mode) :
    LowLevelFS.openWithHandle b w s.toAbs flags mode =
      let f := b.layerFor w s (OverlayFS.writes flags)
      let w' := b.readied w s (OverlayFS.writes flags)
      (openedFile f (openNode (w'.state f) s.toAbs flags mode).1,
        w'.put f (openNode (w'.state f) s.toAbs flags mode).2) := by
  cases b with
  | memory f => rfl
  | overlay o =>
    cases hwr : OverlayFS.writes flags with
    | true => exact OverlayFS.write_open_eq hwr w s mode
    | false =>
      have he : LowLevelFS.openWithHandle o w s.toAbs flags mode =
          LowLevelFS.openWithHandle (o.visibleLayer w s.toAbs) w s.toAbs flags mode :=
        if_neg (Bool.eq_false_iff.mp hwr)
      exact he

theorem mkdir_eq (b : Backend ι) (w : World ι) (s : PathBuf) (mode : Mode) :
    LowLevelFS.mkdir b w s.toAbs mode =
      let f := b.layerFor w s true
      let w' := b.readied w s true
      (createdStatus (createNode (w'.state f) s.toAbs .dir mode).1,
        w'.put f (createNode (w'.state f) s.toAbs .dir mode).2) := by
  cases b <;> rfl

theorem readied_grows (hw : w.WF) (b : Backend ι) (s : PathBuf) (writing : Bool) :
    World.Grows {(b.layerFor w s writing).index} w (b.readied w s writing) := by
  cases b with
  | memory f => exact .refl
  | overlay o =>
    cases writing with
    | true => exact World.ensureTopParentDirs_grows hw o s.toAbs
    | false => exact .refl

theorem readied_of_parent (hw : w.WF) {writing : Bool}
    (h : (w.fs (b.layerFor w s writing).index).resolveNames s.dropLast ≠ none) :
    b.readied w s writing = w := by
  cases b with
  | memory f => rfl
  | overlay o =>
    cases writing with
    | true =>
      show o.ensureTopParentDirs w s.toAbs = w
      rw [OverlayFS.ensureTopParentDirs_eq hw, if_neg fun hm => h hm.1]
    | false => rfl

theorem readied_of_found (hw : w.WF) {writing : Bool}
    (h : (w.fs (b.layerFor w s writing).index).resolveNames s ≠ none) :
    b.readied w s writing = w := by
  refine readied_of_parent hw fun hnone => h ?_
  exact (hw.fs _).resolveNames_none_below (List.dropLast_prefix s) hnone

theorem readied_missing (hw : w.WF) {writing : Bool}
    (h : (w.fs (b.layerFor w s writing).index).resolveNames s = none) :
    ((b.readied w s writing).fs (b.layerFor w s writing).index).resolveNames s = none := by
  cases b with
  | memory f => exact h
  | overlay o =>
    cases writing with
    | true => exact OverlayFS.ensured_missing hw h
    | false => exact h

theorem readied_hasParent_iff (hw : w.WF) :
    ((b.readied w s true).fs (b.layerFor w s true).index).HasParent s ↔ b.HasParent w s := by
  cases b with
  | memory f => rfl
  | overlay o => exact OverlayFS.ensured_hasParent_iff hw

theorem readied_grants (hw : w.WF) (h : b.HasParent w s) (n : Nat) :
    (b.readied w s true).sys.grants n = w.sys.grants (b.parentCost w s + n) := by
  cases b with
  | memory f =>
    show w.sys.grants n = w.sys.grants (0 + n)
    rw [Nat.zero_add]
  | overlay o => exact OverlayFS.ensured_grants_of_parent hw h n

theorem readied_fs_eq (hw : w.WF) (h : ∀ r, ¬ b.MakesDir w s r) : (b.readied w s true).fs = w.fs := by
  cases b with
  | memory f => rfl
  | overlay o => exact OverlayFS.ensured_fs_eq hw h

theorem readied_fs_ne (hw : w.WF) {r : PathBuf} (h : b.MakesDir w s r) :
    (b.readied w s true).fs ≠ w.fs := by
  cases b with
  | memory f => exact h.elim
  | overlay o =>
    intro hfs
    obtain ⟨id, hid⟩ := OverlayFS.ensured_view_made hw h
    have hsame : (o.ensureTopParentDirs w s.toAbs).fs = w.fs := hfs
    rw [hsame, (hw.fs _).view_eq_none_iff.mpr h.2.2.1] at hid
    cases hid

/-- An open by path succeeds, said of the state before it. -/
def Opens (b : Backend ι) (w : World ι) (s : PathBuf) (flags : Flags) : Prop :=
  let f := b.layerFor w s (OverlayFS.writes flags)
  (∃ c, (w.fs f.index).resolveNames s = some c ∧ flags.exclusive = false ∧
      CanOpen (w.state f) c flags) ∨
    (w.fs f.index).resolveNames s = none ∧ flags.has O_CREAT = true ∧
      flags.has O_DIRECTORY = false ∧ b.HasParent w s ∧ w.sys.grants (b.parentCost w s + 2) = true

def Makes (b : Backend ι) (w : World ι) (s : PathBuf) : Prop :=
  (w.fs (b.layerFor w s true).index).resolveNames s = none ∧ b.HasParent w s ∧
    w.sys.grants (b.parentCost w s + 1) = true

theorem opens_iff (hw : w.WF) (flags : Flags) (mode : Mode) :
    0 ≤ (LowLevelFS.openWithHandle b w s.toAbs flags mode).1.fd ↔ b.Opens w s flags := by
  have hwf := ((readied_grows hw b s (OverlayFS.writes flags)).wf hw).fs
    (b.layerFor w s (OverlayFS.writes flags)).index
  rw [openWithHandle_eq]
  show 0 ≤ (openNode _ s.toAbs flags mode).1.fd ↔ _
  rw [openNode_eq, openAt_accepts_iff hwf, resolve_toAbs]
  cases hs : (w.fs (b.layerFor w s (OverlayFS.writes flags)).index).resolveNames s with
  | some c =>
    rw [readied_of_found hw (by rw [hs]; exact Option.some_ne_none c)]
    simp [Accepts, Opens, World.state, hs]
  | none =>
    have hmiss := readied_missing hw hs
    by_cases hc : flags.has O_CREAT = true
    · have hwr : OverlayFS.writes flags = true := Flags.has_of_has_part (by decide) hc
      rw [hwr] at hs hmiss hwf ⊢
      have hvacant := (hwf.vacant_iff s).trans (and_congr_right fun _ => readied_hasParent_iff hw)
      simp only [Accepts, Opens, World.state, hmiss, hwr, hs, hvacant, hc, reduceCtorEq, false_and,
        exists_false, false_or, true_and]
      refine and_congr_right fun _ => and_congr_right fun hp => ?_
      rw [readied_grants hw hp]
    · simp [Accepts, Opens, World.state, hmiss, hs, hc]

theorem makes_iff (hw : w.WF) (mode : Mode) :
    (createNode ((b.readied w s true).state (b.layerFor w s true)) s.toAbs .dir mode).1.isSome = true ↔
      b.Makes w s := by
  have hwf := ((readied_grows hw b s true).wf hw).fs (b.layerFor w s true).index
  rw [createNode_eq, createAt_isSome_iff]
  cases hs : (w.fs (b.layerFor w s true).index).resolveNames s with
  | some c =>
    rw [readied_of_found hw (by rw [hs]; exact Option.some_ne_none c)]
    refine iff_of_false ?_ fun hh => by cases hs.symm.trans hh.1
    rintro ⟨hv, -⟩
    cases hs.symm.trans (((hw.fs _).vacant_iff s).mp hv).1
  | none =>
    have hvacant := (hwf.vacant_iff s).trans (and_congr_right fun _ => readied_hasParent_iff hw)
    simp only [Makes, World.state, hs, hvacant, readied_missing hw hs, true_and]
    refine and_congr_right fun hp => ?_
    rw [readied_grants hw hp]

end Backend

def below (d : PathBuf) (p : RelPath) : PathBuf := p.components.foldl pushComponent d

namespace World

variable {w w' : World ι} {S : Set ι} {f g : MemoryRef ι} {n : NodeId} {s₀ s : PathBuf}
  {p : RelPath} {b : Backend ι}

omit [DecidableEq ι] in
theorem Grows.fs_of_next (h : Grows S w w') (hn : w'.sys.nextNodeId = w.sys.nextNodeId) :
    w'.fs = w.fs := by
  induction h with
  | refl => rfl
  | @tail w₁ w₂ hfirst hlast ih =>
    have h₁ : w.sys.nextNodeId ≤ w₁.sys.nextNodeId := (Grows.later hfirst).next
    have h₂ : w₁.sys.nextNodeId ≤ w₂.sys.nextNodeId := hlast.later.next
    cases hlast with
    | idle hfs hs => rw [hfs, ih (le_antisymm (h₂.trans hn.le) h₁)]
    | created i parent name m hi hid hc hfs hs =>
      have h₃ : w₁.sys.nextNodeId + 1 ≤ w₂.sys.nextNodeId := hs.next
      exact absurd (h₃.trans (hn.le.trans h₁)) (Nat.not_succ_le_self _)

theorem created_same (hw : w.WF) (hgrow : Grows S w w') {fs₁ fs₂ : MemoryFS} {d₁ d₂ : NodeId}
    {x₁ x₂ : FileName} {n₁ n₂ : Inode} (h₁ : Created (w.fs f.index) fs₁ d₁ x₁ n₁)
    (hid₁ : n₁.id = w.sys.nextNodeId) (h₂ : Created (w'.fs g.index) fs₂ d₂ x₂ n₂)
    (hid₂ : n₂.id = w'.sys.nextNodeId)
    (he : Function.update w.fs f.index fs₁ = Function.update w'.fs g.index fs₂) :
    f = g ∧ d₁ = d₂ ∧ x₁ = x₂ ∧ w'.fs = w.fs := by
  have hnext : w.sys.nextNodeId ≤ w'.sys.nextNodeId := hgrow.later.next
  have hold (i : ι) (id : NodeId) (hid : w.sys.nextNodeId ≤ id) : (w.fs i).inodeOf id = none :=
    (hw.fs i).heap_fresh hid
  have hg : (Function.update w.fs f.index fs₁ g.index).inodeOf n₂.id = some n₂ := by
    rw [he, Function.update_self, h₂.inodeOf, if_pos rfl]
  have hsame : f.index = g.index ∧ n₂.id = n₁.id := by
    by_cases hfg : g.index = f.index
    · rw [hfg, Function.update_self, h₁.inodeOf] at hg
      split_ifs at hg with hid
      · exact ⟨hfg.symm, hid⟩
      · rw [hold _ _ (hid₂ ▸ hnext)] at hg
        cases hg
    · rw [Function.update_of_ne hfg, hold _ _ (hid₂ ▸ hnext)] at hg
      cases hg
  obtain ⟨hfg, hid⟩ := hsame
  have href : f = g := by
    cases f
    cases g
    exact congrArg _ hfg
  subst href
  have hfs : fs₁ = fs₂ := by
    have hat := congrFun he f.index
    rwa [Function.update_self, Function.update_self] at hat
  have hentry₁ : fs₁.entryAt d₁ x₁ = some n₁.id := by rw [h₁.entryAt, if_pos ⟨rfl, rfl⟩]
  have hentry₂ : fs₁.entryAt d₂ x₂ = some n₁.id := by
    rw [hfs, h₂.entryAt, if_pos ⟨rfl, rfl⟩, hid]
  obtain ⟨hd, hx⟩ := (h₁.wf (hw.fs f.index) hid₁).entry_unique hentry₁ hentry₂
  exact ⟨rfl, hd, hx, hgrow.fs_of_next (by rw [← hid₂, hid, hid₁])⟩

/-- The call by path acts in the layer `f` of the handle, at the path there that `p` leads
to from the handle, and the directories on the way are in that layer. -/
structure Route (w : World ι) (f : MemoryRef ι) (n : NodeId) (s₀ : PathBuf) (p : RelPath)
    (b : Backend ι) (s : PathBuf) (writing : Bool) : Prop where
  layer : f = b.layerFor w s writing
  path : s = below s₀ p
  walks : (w.fs f.index).Walks n p

theorem Route.readied (hw : w.WF) (hs₀ : (w.fs f.index).resolveNames s₀ = some n) {writing : Bool}
    (h : Route w f n s₀ p b s writing) : b.readied w s writing = w := by
  obtain ⟨hlayer, rfl, hfound | hparent⟩ := h
  · obtain ⟨c, hc⟩ := Option.isSome_iff_exists.mp hfound
    refine Backend.readied_of_found hw ?_
    rw [← hlayer, below, (hw.fs _).foldlM_stepRelative p.components hs₀ hc]
    exact Option.some_ne_none c
  · obtain ⟨⟨d, x⟩, ht⟩ := Option.isSome_iff_exists.mp hparent
    obtain ⟨r, hr, hd⟩ := (hw.fs f.index).resolveRelativeParent_at hs₀ ht
    refine Backend.readied_of_parent hw ?_
    rw [← hlayer, below, hr, List.dropLast_concat, hd]
    exact Option.some_ne_none d

/-- On such a route both opens are the same. -/
theorem Route.open_eq (hw : w.WF) (hs₀ : (w.fs f.index).resolveNames s₀ = some n) {flags : Flags}
    (h : Route w f n s₀ p b s (OverlayFS.writes flags)) (mode : Mode) :
    LowLevelFS.openWithHandle b w s.toAbs flags mode =
      (openedFile f (openNodeRelative (w.state f) n p flags mode).1,
        w.put f (openNodeRelative (w.state f) n p flags mode).2) := by
  have hrel : openNodeRelative (w.state f) n p flags mode = openNode (w.state f) s.toAbs flags mode := by
    rw [openNodeRelative_eq, h.path]
    exact openAt_of_walks (m := w.state f) (hw.fs f.index) hs₀ h.walks flags mode
  rw [Backend.openWithHandle_eq, h.readied hw hs₀, ← h.layer, hrel]

theorem route_of_found (hw : w.WF) (hs₀ : (w.fs f.index).resolveNames s₀ = some n) {writing : Bool}
    {c : NodeId} (hlayer : f = b.layerFor w s writing)
    (hrel : (w.fs f.index).resolveRelative n p = some c)
    (hs : (w.fs f.index).resolveNames s = some c) : Route w f n s₀ p b s writing :=
  ⟨hlayer, (hw.fs f.index).resolveNames_inj hs ((hw.fs f.index).foldlM_stepRelative _ hs₀ hrel),
    Or.inl (Option.isSome_iff_exists.mpr ⟨c, hrel⟩)⟩

theorem route_of_made (hw : w.WF) (hs₀ : (w.fs f.index).resolveNames s₀ = some n) {writing : Bool}
    {d : NodeId} {x : FileName} (hlayer : f = b.layerFor w s writing)
    (hrel : (w.fs f.index).resolveRelativeParent n p = some (d, x))
    (hs : (w.fs f.index).resolveParent s.toAbs = some (d, x)) : Route w f n s₀ p b s writing := by
  refine ⟨hlayer, ?_, Or.inr (Option.isSome_iff_exists.mpr ⟨(d, x), hrel⟩)⟩
  obtain ⟨r, rfl, hr⟩ := resolveParent_toAbs_eq_some hs
  obtain ⟨r', hr', hd⟩ := (hw.fs f.index).resolveRelativeParent_at hs₀ hrel
  rw [below, hr', (hw.fs f.index).resolveNames_inj hr hd]

theorem openAt_same (hw : w.WF) (hgrow : Grows S w w') {existing existing' : Option NodeId}
    {target target' : Option (NodeId × FileName)} {flags : Flags} {mode : Mode}
    (hex : ∀ c, existing = some c → (w.fs f.index).inodeOf c ≠ none)
    (hex' : ∀ c, existing' = some c → w' = w ∧ (w.fs g.index).inodeOf c ≠ none)
    (hfd : 0 ≤ (openAt (w.state f) existing target flags mode).1.fd)
    (hres : openedFile g (openAt (w'.state g) existing' target' flags mode).1 =
      openedFile f (openAt (w.state f) existing target flags mode).1)
    (hfs : (w'.put g (openAt (w'.state g) existing' target' flags mode).2).fs =
      (w.put f (openAt (w.state f) existing target flags mode).2).fs) :
    f = g ∧ ((∃ c, existing = some c ∧ existing' = some c ∧ w' = w) ∨
      ∃ d x, target = some (d, x) ∧ target' = some (d, x) ∧ w'.fs = w.fs) := by
  have hnext : w.sys.nextNodeId ≤ w'.sys.nextNodeId := hgrow.later.next
  have hfresh {i : ι} {c : NodeId} (hc : (w.fs i).inodeOf c ≠ none)
      (hge : w.sys.nextNodeId ≤ c) : False := hc ((hw.fs i).heap_fresh hge)
  have hfd' : 0 ≤ (openedFile g (openAt (w'.state g) existing' target' flags mode).1).fd := by
    rw [hres]
    exact hfd
  have hopened : (openedFile g (openAt (w'.state g) existing' target' flags mode).1).opened =
      (openedFile f (openAt (w.state f) existing target flags mode).1).opened := by rw [hres]
  simp only [openedFile] at hopened
  rcases openAt_opened (m := w.state f) (hw.fs f.index) hfd with
    ⟨c, rfl, ho, -⟩ | ⟨d, x, n, rfl, hid, hcr, ho⟩ <;>
  rcases openAt_opened (m := w'.state g) ((hgrow.wf hw).fs g.index) hfd' with
    ⟨c', rfl, ho', -⟩ | ⟨d', x', n', rfl, hid', hcr', ho'⟩ <;>
  rw [ho, ho'] at hopened <;>
  obtain ⟨hfg, hnode⟩ := MemoryOpenedFile.mk.inj (Option.some.inj hopened)
  · subst hnode
    exact ⟨hfg.symm, Or.inl ⟨_, rfl, rfl, (hex' _ rfl).1⟩⟩
  · have hge : w.sys.nextNodeId ≤ c := hnode ▸ hid' ▸ hnext
    exact (hfresh (hex c rfl) hge).elim
  · have hge : w.sys.nextNodeId ≤ c' := hnode ▸ hid.ge
    exact (hfresh (hex' c' rfl).2 hge).elim
  · obtain ⟨hfg', hd, hx, hsame⟩ := created_same hw hgrow hcr hid hcr' hid' hfs.symm
    subst hd hx
    exact ⟨hfg', Or.inr ⟨_, _, rfl, rfl, hsame⟩⟩

/-- Two successful opens with the same result have taken such a route. -/
theorem route_of_open_eq (hw : w.WF) (hs₀ : (w.fs f.index).resolveNames s₀ = some n)
    {flags : Flags} {mode : Mode}
    (hfd : 0 ≤ (openNodeRelative (w.state f) n p flags mode).1.fd)
    (he : LowLevelFS.openWithHandle b w s.toAbs flags mode =
      (openedFile f (openNodeRelative (w.state f) n p flags mode).1,
        w.put f (openNodeRelative (w.state f) n p flags mode).2)) :
    Route w f n s₀ p b s (OverlayFS.writes flags) := by
  have hgrow := Backend.readied_grows hw b s (OverlayFS.writes flags)
  have hn : ((w.fs f.index).inodeOf n).isSome :=
    (hw.fs f.index).mem_heap n ((hw.fs f.index).resolveNames_mem hs₀)
  rw [Backend.openWithHandle_eq] at he
  simp only [openNodeRelative_eq] at hfd he
  simp only [openNode_eq] at he
  obtain ⟨hres, hworld⟩ := Prod.mk.inj he
  have hfound (c : NodeId)
      (hc : ((b.readied w s (OverlayFS.writes flags)).fs
        (b.layerFor w s (OverlayFS.writes flags)).index).resolveNames s = some c) :
      b.readied w s (OverlayFS.writes flags) = w := by
    refine Backend.readied_of_found hw fun hnone => ?_
    rw [Backend.readied_missing hw hnone] at hc
    cases hc
  obtain ⟨hlayer, ⟨c, hrel, hs, hsame⟩ | ⟨d, x, hrel, hs, hsame⟩⟩ := openAt_same hw hgrow
    (fun c hc => Option.isSome_iff_ne_none.mp ((hw.fs f.index).resolveRelative_known hn hc))
    (fun c hc => by
      have hw'w := hfound c (by rwa [World.state, resolve_toAbs] at hc)
      rw [hw'w] at hc
      exact ⟨hw'w, Option.isSome_iff_ne_none.mp ((hw.fs _).resolve_known hc)⟩)
    hfd hres (congrArg World.fs hworld)
  · rw [hsame, World.state, resolve_toAbs, ← hlayer] at hs
    exact route_of_found hw hs₀ hlayer hrel hs
  · rw [World.state, hsame, ← hlayer] at hs
    exact route_of_made hw hs₀ hlayer hrel hs

theorem opens_alike_iff (hw : w.WF) (hs₀ : (w.fs f.index).resolveNames s₀ = some n)
    (flags : Flags) (mode : Mode) :
    ((0 ≤ (openNodeRelative (w.state f) n p flags mode).1.fd ↔
        0 ≤ (LowLevelFS.openWithHandle b w s.toAbs flags mode).1.fd) ∧
      (0 ≤ (openNodeRelative (w.state f) n p flags mode).1.fd →
        LowLevelFS.openWithHandle b w s.toAbs flags mode =
          (openedFile f (openNodeRelative (w.state f) n p flags mode).1,
            w.put f (openNodeRelative (w.state f) n p flags mode).2))) ↔
      Route w f n s₀ p b s (OverlayFS.writes flags) ∨
        ¬ Accepts (w.state f) ((w.fs f.index).resolveRelative n p)
            ((w.fs f.index).resolveRelativeParent n p) flags ∧ ¬ b.Opens w s flags := by
  have hhandle : 0 ≤ (openNodeRelative (w.state f) n p flags mode).1.fd ↔
      Accepts (w.state f) ((w.fs f.index).resolveRelative n p)
        ((w.fs f.index).resolveRelativeParent n p) flags := by
    rw [openNodeRelative_eq]
    exact openAt_accepts_iff (m := w.state f) (hw.fs f.index) _ _ flags mode
  rw [← hhandle, ← Backend.opens_iff hw flags mode]
  constructor
  · rintro ⟨hiff, heq⟩
    by_cases hfd : 0 ≤ (openNodeRelative (w.state f) n p flags mode).1.fd
    · exact Or.inl (route_of_open_eq hw hs₀ hfd (heq hfd))
    · exact Or.inr ⟨hfd, fun hh => hfd (hiff.mpr hh)⟩
  · rintro (hroute | ⟨hno, hno'⟩)
    · have he := hroute.open_eq hw hs₀ mode
      refine ⟨?_, fun _ => he⟩
      rw [he]
      rfl
    · exact ⟨iff_of_false hno hno', fun hh => absurd hh hno⟩

theorem createAt_full {target : Option (NodeId × FileName)} {mode : Mode}
    (hno : ¬ (createAt (w.state f) target .dir mode).1.isSome = true) :
    createdStatus (createAt (w.state f) target .dir mode).1 = -1 ∧
      (w.put f (createAt (w.state f) target .dir mode).2).fs = w.fs := by
  have hstatus : createdStatus (createAt (w.state f) target .dir mode).1 = -1 := if_neg hno
  exact ⟨hstatus, createAt_failsClean f target mode (by rw [hstatus]; decide)⟩

theorem Route.mkdir_eq (hw : w.WF) (hs₀ : (w.fs f.index).resolveNames s₀ = some n)
    (h : Route w f n s₀ p b s true) (mode : Mode) :
    (LowLevelFS.mkdir b w s.toAbs mode).1 =
        createdStatus (createRelativeNode (w.state f) n p .dir mode).1 ∧
      (LowLevelFS.mkdir b w s.toAbs mode).2.fs =
        (w.put f (createRelativeNode (w.state f) n p .dir mode).2).fs := by
  have hwf : (w.state f).fs.WF (w.state f).sys.nextNodeId := hw.fs f.index
  rw [Backend.mkdir_eq, h.readied hw hs₀, ← h.layer]
  dsimp only
  rw [createRelativeNode_eq, createNode_eq, h.path]
  have hwalks := h.walks
  cases ht : (w.state f).fs.resolveRelativeParent n p with
  | some t =>
    obtain ⟨d, x⟩ := t
    obtain ⟨r, hr, hd⟩ := hwf.resolveRelativeParent_at hs₀ ht
    rw [below, hr, resolveParent_toAbs_concat, hd]
    exact ⟨rfl, rfl⟩
  | none =>
    have hnone : ((w.fs f.index).resolveRelativeParent n p).isSome = false := by
      rw [show (w.fs f.index).resolveRelativeParent n p = none from ht]
      rfl
    obtain ⟨c, hc⟩ := Option.isSome_iff_exists.mp (hwalks.resolve_right (by simp [hnone]))
    have hfound : (w.state f).fs.resolveNames (below s₀ p) = some c :=
      hwf.foldlM_stepRelative p.components hs₀ hc
    have hfull : ¬ (createAt (w.state f) ((w.fs f.index).resolveParent (below s₀ p).toAbs) .dir
        mode).1.isSome = true := by
      rw [createAt_isSome_iff]
      rintro ⟨hv, -⟩
      cases hfound.symm.trans (((hw.fs f.index).vacant_iff _).mp hv).1
    obtain ⟨hstatus, hfs⟩ := createAt_full hfull
    refine ⟨hstatus, hfs.trans ?_⟩
    show w.fs = (w.put f ⟨w.fs f.index, w.sys⟩).fs
    rw [put_self]

theorem createAt_same (hw : w.WF) (hgrow : Grows S w w') {target target' : Option (NodeId × FileName)}
    {mode : Mode} (hmade : (createAt (w.state f) target .dir mode).1.isSome = true)
    (hmade' : (createAt (w'.state g) target' .dir mode).1.isSome = true)
    (hfs : (w'.put g (createAt (w'.state g) target' .dir mode).2).fs =
      (w.put f (createAt (w.state f) target .dir mode).2).fs) :
    f = g ∧ ∃ d x, target = some (d, x) ∧ target' = some (d, x) ∧ w'.fs = w.fs := by
  rcases createAt_cases (m := w.state f) (hw.fs f.index) target .dir mode with
    ⟨sys', he, -⟩ | ⟨m', d, x, n, he, rfl, hid, -, -, -, hcr⟩
  · rw [he] at hmade
    cases hmade
  · rcases createAt_cases (m := w'.state g) ((hgrow.wf hw).fs g.index) target' .dir mode with
      ⟨sys', he', -⟩ | ⟨m'', d', x', n', he', rfl, hid', -, -, -, hcr'⟩
    · rw [he'] at hmade'
      cases hmade'
    · rw [he, he'] at hfs
      obtain ⟨hfg, rfl, rfl, hsame⟩ := created_same hw hgrow hcr hid hcr' hid' hfs.symm
      exact ⟨hfg, d, x, rfl, rfl, hsame⟩

/-- Two successful `mkdir`s that leave the same file systems have taken such a route. -/
theorem route_of_mkdir_eq (hw : w.WF) (hs₀ : (w.fs f.index).resolveNames s₀ = some n) {mode : Mode}
    (hmade : (createRelativeNode (w.state f) n p .dir mode).1.isSome = true)
    (hmade' : b.Makes w s)
    (hfs : (LowLevelFS.mkdir b w s.toAbs mode).2.fs =
      (w.put f (createRelativeNode (w.state f) n p .dir mode).2).fs) :
    Route w f n s₀ p b s true := by
  rw [← Backend.makes_iff hw mode, createNode_eq] at hmade'
  rw [Backend.mkdir_eq] at hfs
  dsimp only at hfs
  rw [createNode_eq, createRelativeNode_eq] at hfs
  rw [createRelativeNode_eq] at hmade
  obtain ⟨hlayer, d, x, hrel, hs, hsame⟩ :=
    createAt_same hw (Backend.readied_grows hw b s true) hmade hmade' hfs
  rw [World.state, hsame, ← hlayer] at hs
  exact route_of_made hw hs₀ hlayer hrel hs

theorem makes_alike_iff (hw : w.WF) (hs₀ : (w.fs f.index).resolveNames s₀ = some n) (mode : Mode) :
    ((LowLevelFS.mkdir b w s.toAbs mode).1 =
        createdStatus (createRelativeNode (w.state f) n p .dir mode).1 ∧
      (LowLevelFS.mkdir b w s.toAbs mode).2.fs =
        (w.put f (createRelativeNode (w.state f) n p .dir mode).2).fs) ↔
      Route w f n s₀ p b s true ∨
        ¬ ((w.fs f.index).Vacant ((w.fs f.index).resolveRelativeParent n p) ∧
            w.sys.grants 1 = true) ∧ ¬ b.Makes w s ∧ ∀ r, ¬ b.MakesDir w s r := by
  have hhandle : (createRelativeNode (w.state f) n p .dir mode).1.isSome = true ↔
      (w.fs f.index).Vacant ((w.fs f.index).resolveRelativeParent n p) ∧ w.sys.grants 1 = true := by
    rw [createRelativeNode_eq]
    exact createAt_isSome_iff (w.state f) _ .dir mode
  have hstatus (r r' : Option NodeId) :
      createdStatus r = createdStatus r' ↔ (r.isSome = true ↔ r'.isSome = true) := by
    cases r <;> cases r' <;> simp [createdStatus]
  have hrefused (hno : ¬ b.Makes w s) :
      (LowLevelFS.mkdir b w s.toAbs mode).2.fs = (b.readied w s true).fs := by
    rw [← Backend.makes_iff hw mode, createNode_eq] at hno
    rw [Backend.mkdir_eq]
    dsimp only
    rw [createNode_eq]
    exact (createAt_full hno).2
  have hfailed (hno : ¬ (createRelativeNode (w.state f) n p .dir mode).1.isSome = true) :
      (w.put f (createRelativeNode (w.state f) n p .dir mode).2).fs = w.fs := by
    rw [createRelativeNode_eq] at hno ⊢
    exact (createAt_full hno).2
  have hiff : (LowLevelFS.mkdir b w s.toAbs mode).1 =
      createdStatus (createRelativeNode (w.state f) n p .dir mode).1 ↔
        (b.Makes w s ↔ (createRelativeNode (w.state f) n p .dir mode).1.isSome = true) := by
    rw [← Backend.makes_iff hw mode, Backend.mkdir_eq]
    exact hstatus _ _
  rw [← hhandle]
  constructor
  · rintro ⟨he, hfs⟩
    have hsame := hiff.mp he
    by_cases hmade : (createRelativeNode (w.state f) n p .dir mode).1.isSome = true
    · exact Or.inl (route_of_mkdir_eq hw hs₀ hmade (hsame.mpr hmade) hfs)
    · have hno : ¬ b.Makes w s := fun hh => hmade (hsame.mp hh)
      refine Or.inr ⟨hmade, hno, fun r hr => Backend.readied_fs_ne hw hr ?_⟩
      rw [← hrefused hno, hfs, hfailed hmade]
  · rintro (hroute | ⟨hno, hno', hnone⟩)
    · exact hroute.mkdir_eq hw hs₀ mode
    · refine ⟨hiff.mpr (iff_of_false hno' hno), ?_⟩
      rw [hrefused hno', hfailed hno, Backend.readied_fs_eq hw hnone]

end World

namespace Vfs

variable {v : Vfs ι} {dirfd : Int} {d : AbsPath} {f : MemoryRef ι} {n : NodeId}

/-- The descriptor `dirfd` was opened as `d`, and `d` still leads to its node in the
layer of its handle. -/
structure OpenAtPath (v : Vfs ι) (dirfd : Int) (d : AbsPath) (f : MemoryRef ι) (n : NodeId) :
    Prop where
  ne_cwd : dirfd ≠ AT_FDCWD
  tracked : ∃ info, v.fds[dirfd]? = some info ∧ info.path = normalizeAbsolute d ∧
    info.opened = some ⟨f, n⟩
  leads : (v.world.fs f.index).resolveNames (v.absolutePathToFs (normalizeAbsolute d)).2 = some n

def joinedFs (v : Vfs ι) (d : AbsPath) (p : RelPath) : Backend ι :=
  v.fsAt (v.absolutePathToFs (normalizeAbsolute (d.join p))).1

def joinedPath (v : Vfs ι) (d : AbsPath) (p : RelPath) : PathBuf :=
  (v.absolutePathToFs (normalizeAbsolute (d.join p))).2

/-- `openat` succeeds when `open` of the joined path does, and then with the same
descriptor, handle and state. -/
def OpensAlike (v : Vfs ι) (dirfd : Int) (d : AbsPath) (p : RelPath) (flags : Flags) (mode : Mode) :
    Prop :=
  let a := v.openat dirfd (.rel p) flags mode
  let b := v.openPath (.abs (d.join p)) flags mode
  (0 ≤ a.1 ↔ 0 ≤ b.1) ∧ (0 ≤ a.1 → b = a)

/-- `mkdirat` has the result of `mkdir` of the joined path, and leaves the same file systems. -/
def MakesAlike (v : Vfs ι) (dirfd : Int) (d : AbsPath) (p : RelPath) (mode : Mode) : Prop :=
  let a := v.mkdirat dirfd (.rel p) mode
  let b := v.mkdir (.abs (d.join p)) mode
  b.1 = a.1 ∧ b.2.world.fs = a.2.world.fs

/-- The call by path acts in the layer of the handle, at the path there that `p` leads to
from `d`, and the directories on the way are in that layer. -/
def SameRoute (v : Vfs ι) (d : AbsPath) (f : MemoryRef ι) (n : NodeId) (p : RelPath)
    (writing : Bool) : Prop :=
  World.Route v.world f n (v.absolutePathToFs (normalizeAbsolute d)).2 p (v.joinedFs d p)
    (v.joinedPath d p) writing

def NeitherOpens (v : Vfs ι) (d : AbsPath) (f : MemoryRef ι) (n : NodeId) (p : RelPath)
    (flags : Flags) : Prop :=
  ¬ Accepts (v.world.state f) ((v.world.fs f.index).resolveRelative n p)
      ((v.world.fs f.index).resolveRelativeParent n p) flags ∧
    ¬ (v.joinedFs d p).Opens v.world (v.joinedPath d p) flags

def NeitherMakes (v : Vfs ι) (d : AbsPath) (f : MemoryRef ι) (n : NodeId) (p : RelPath) : Prop :=
  ¬ ((v.world.fs f.index).Vacant ((v.world.fs f.index).resolveRelativeParent n p) ∧
      v.world.sys.grants 1 = true) ∧
    ¬ (v.joinedFs d p).Makes v.world (v.joinedPath d p) ∧
    ∀ r, ¬ (v.joinedFs d p).MakesDir v.world (v.joinedPath d p) r

omit [DecidableEq ι] in
theorem trackOpen_inj {r r' : OpenResult (MemoryOpenedFile ι)} {w w' : World ι} (path : PathBuf)
    (hfd : 0 ≤ r.fd) :
    (v.setWorld w').trackOpen r' path = (v.setWorld w).trackOpen r path ↔ (r', w') = (r, w) := by
  constructor
  · intro he
    have hfds : r'.fd = r.fd := by
      rw [← RootVFS.trackOpen_fst (v.setWorld w') r' path, he, RootVFS.trackOpen_fst]
    have hworld : w' = w := by
      have hw := (v.setWorld w').trackOpen_world r' path
      rw [he, RootVFS.trackOpen_world] at hw
      exact hw.symm
    have hentry := (v.setWorld w').trackOpen_getElem? r' path r.fd
    rw [he, RootVFS.trackOpen_getElem?, if_pos ⟨hfd, rfl⟩, if_pos ⟨hfds.symm ▸ hfd, hfds.symm⟩] at hentry
    have hopened : r.opened = r'.opened := congrArg FdInfo.opened (Option.some.inj hentry)
    cases r
    cases r'
    cases hfds
    cases hopened
    rw [hworld]
  · intro he
    obtain ⟨rfl, rfl⟩ := Prod.mk.inj he
    rfl

theorem OpenAtPath.openat (h : OpenAtPath v dirfd d f n) (p : RelPath) (flags : Flags)
    (mode : Mode) :
    v.openat dirfd (.rel p) flags mode =
      (v.setWorld (v.world.put f (openNodeRelative (v.world.state f) n p flags mode).2)).trackOpen
        (openedFile f (openNodeRelative (v.world.state f) n p flags mode).1)
        (normalizeAbsolute (d.join p)) := by
  obtain ⟨hcwd, ⟨info, hi, hpath, ho⟩, -⟩ := h
  have hh : v.handleOf dirfd = some ⟨f, n⟩ := by simp [RootVFS.handleOf, hcwd, hi, ho]
  obtain ⟨path, hres, he⟩ := RootVFS.openat_of_handle hh p flags mode rfl
  have hjoin : path = normalizeAbsolute (d.join p) := by
    simp only [RootVFS.resolveOpenatPath, if_neg hcwd, hi, Option.map_some, hpath,
      Option.some.injEq] at hres
    rw [← hres, normalizeAbsolute_join, normalizeAbsolute_joined]
  rw [he, hjoin]

theorem OpenAtPath.mkdirat (h : OpenAtPath v dirfd d f n) (p : RelPath) (mode : Mode) :
    v.mkdirat dirfd (.rel p) mode =
      (createdStatus (createRelativeNode (v.world.state f) n p .dir mode).1,
        v.setWorld (v.world.put f (createRelativeNode (v.world.state f) n p .dir mode).2)) := by
  obtain ⟨hcwd, ⟨info, hi, -, ho⟩, -⟩ := h
  have hh : v.handleOf dirfd = some ⟨f, n⟩ := by simp [RootVFS.handleOf, hcwd, hi, ho]
  exact RootVFS.mkdirat_of_handle hh p mode rfl

theorem opensAlike_iff (hv : v.WF) (h : OpenAtPath v dirfd d f n) (p : RelPath) (flags : Flags)
    (mode : Mode) :
    OpensAlike v dirfd d p flags mode ↔
      SameRoute v d f n p (OverlayFS.writes flags) ∨ NeitherOpens v d f n p flags := by
  refine Iff.trans ?_ (World.opens_alike_iff hv.world h.leads flags mode)
  simp only [OpensAlike, h.openat, RootVFS.trackOpen_fst]
  show (_ ↔ 0 ≤ (v.openVirtual (normalizeAbsolute (d.join p)) flags mode).1) ∧
    (_ → v.openVirtual (normalizeAbsolute (d.join p)) flags mode = _) ↔ _
  simp only [RootVFS.openVirtual, RootVFS.trackOpen_fst]
  exact and_congr_right fun _ => forall_congr' fun hfd => trackOpen_inj _ hfd

theorem makesAlike_iff (hv : v.WF) (h : OpenAtPath v dirfd d f n) (p : RelPath) (mode : Mode) :
    MakesAlike v dirfd d p mode ↔ SameRoute v d f n p true ∨ NeitherMakes v d f n p := by
  refine Iff.trans ?_ (World.makes_alike_iff hv.world h.leads mode)
  simp only [MakesAlike, h.mkdirat]
  rfl

omit [DecidableEq ι] in
theorem absolutePathToFs_of_mounts {v' : Vfs ι} (h : v'.mounts = v.mounts) (p : PathBuf) :
    v'.absolutePathToFs p = v.absolutePathToFs p := by
  unfold RootVFS.absolutePathToFs
  rw [h]

theorem openPath_openAtPath (hv : v.WF) (d : AbsPath) (flags : Flags) (mode : Mode)
    (hfd : 0 ≤ (v.openPath (.abs d) flags mode).1) :
    ∃ f n, OpenAtPath (v.openPath (.abs d) flags mode).2 (v.openPath (.abs d) flags mode).1 d f n := by
  have hmounts : (v.openPath (.abs d) flags mode).2.mounts = v.mounts :=
    (step_spec hv (.openPath (.abs d) flags mode)).mounts_eq
  set s := (v.absolutePathToFs (normalizeAbsolute d)).2 with hs
  set b := v.fsAt (v.absolutePathToFs (normalizeAbsolute d)).1
  set f := b.layerFor v.world s (OverlayFS.writes flags)
  set w := b.readied v.world s (OverlayFS.writes flags)
  have hwf := ((Backend.readied_grows hv.world b s (OverlayFS.writes flags)).wf hv.world).fs f.index
  have he : v.openPath (.abs d) flags mode =
      (v.setWorld (w.put f (openNode (w.state f) s.toAbs flags mode).2)).trackOpen
        (openedFile f (openNode (w.state f) s.toAbs flags mode).1) (normalizeAbsolute d) := by
    show (v.setWorld _).trackOpen _ (normalizeAbsolute d) = _
    rw [Backend.openWithHandle_eq]
    rfl
  rw [he, RootVFS.trackOpen_fst] at hfd
  obtain ⟨c, ho, hlead⟩ := openNode_leads (m := w.state f) hwf hfd
  refine ⟨f, c, ?_, ?_, ?_⟩
  · rw [he, RootVFS.trackOpen_fst]
    intro hcwd
    rw [hcwd] at hfd
    exact absurd hfd (by decide)
  · refine ⟨⟨normalizeAbsolute d, 0, some ⟨f, c⟩⟩, ?_, rfl, rfl⟩
    rw [he, RootVFS.trackOpen_getElem?, RootVFS.trackOpen_fst, if_pos ⟨hfd, rfl⟩]
    simp only [openedFile, ho, Option.map_some]
  · rw [absolutePathToFs_of_mounts hmounts, ← hs, he, RootVFS.trackOpen_world]
    show (((w.put f _).fs f.index).resolveNames s) = some c
    rw [World.put_fs, hlead]

theorem run_openAtPath (hv : v.WF) (ops : List VfsOp) (h : OpenAtPath v dirfd d f n)
    (hentry : ((v.run ops).fds[dirfd]?).map (fun info => (info.path, info.opened)) =
      (v.fds[dirfd]?).map fun info => (info.path, info.opened))
    (hlead : ((v.run ops).world.fs f.index).resolveNames
      (v.absolutePathToFs (normalizeAbsolute d)).2 = some n) :
    OpenAtPath (v.run ops) dirfd d f n := by
  obtain ⟨hcwd, ⟨info, hi, hpath, ho⟩, -⟩ := h
  have hmounts : (v.run ops).mounts = v.mounts :=
    (Runs.foldl_inv (fun u : Vfs ι => u.WF ∧ u.mounts = v.mounts)
      (fun u op hu => ⟨step_wf hu.1 op, (step_spec hu.1 op).mounts_eq.trans hu.2⟩) ⟨hv, rfl⟩ ops).2
  refine ⟨hcwd, ?_, by rw [absolutePathToFs_of_mounts hmounts]; exact hlead⟩
  rw [hi, Option.map_some, Option.map_eq_some_iff] at hentry
  obtain ⟨info', hi', he⟩ := hentry
  obtain ⟨hp, ho'⟩ := Prod.mk.inj he
  exact ⟨info', hi', hp.trans hpath, ho'.trans ho⟩

/-- A call through the handle and the call by path come to the same if and only if the call
by path acts in the layer of the handle and at its path there, or neither can do anything. -/
theorem alike_iff (hv : v.WF) (h : OpenAtPath v dirfd d f n) (p : RelPath) :
    (∀ flags mode, OpensAlike v dirfd d p flags mode ↔
        SameRoute v d f n p (OverlayFS.writes flags) ∨ NeitherOpens v d f n p flags) ∧
      ∀ mode, MakesAlike v dirfd d p mode ↔ SameRoute v d f n p true ∨ NeitherMakes v d f n p :=
  ⟨opensAlike_iff hv h p, makesAlike_iff hv h p⟩

/-- The descriptor of `/m/d` is 6, and its node 3 of the mounted file system. -/
def openedM : List VfsOp :=
  [.mkdir (.abs (PathBuf.toAbs [.m, .d])) 0o755, .openPath (.abs (PathBuf.toAbs [.m, .d])) 0 0]

theorem alike_openedM :
    OpensAlike ((mountedAt [.m]).run openedM) 6 (PathBuf.toAbs [.m, .d]) ⟨[.normal .x]⟩ O_CREAT
        0o644 ∧
      MakesAlike ((mountedAt [.m]).run openedM) 6 (PathBuf.toAbs [.m, .d]) ⟨[.normal .x]⟩
        0o755 := by
  have hv := run_wf (mountedAt_memoryBacked [.m]).wf openedM
  have h : OpenAtPath ((mountedAt [.m]).run openedM) 6 (PathBuf.toAbs [.m, .d]) World.snd 3 :=
    ⟨by decide, ⟨⟨[.m, .d], 0, some ⟨World.snd, 3⟩⟩, by decide +kernel, by decide +kernel, rfl⟩,
      by decide +kernel⟩
  have hroute : SameRoute ((mountedAt [.m]).run openedM) (PathBuf.toAbs [.m, .d]) World.snd 3
      ⟨[.normal .x]⟩ true :=
    ⟨by decide +kernel, by decide +kernel, Or.inr (by decide +kernel)⟩
  obtain ⟨hopen, hmkdir⟩ := alike_iff hv h ⟨[.normal .x]⟩
  exact ⟨(hopen O_CREAT 0o644).mpr (Or.inl hroute), (hmkdir 0o755).mpr (Or.inl hroute)⟩

/-- The descriptor of `/d`, which is in the base only. -/
def openedBase : Int × Vfs (Fin 2) :=
  RootVFS.openPath (RootVFS.new (.overlay OverlayFS.twoLayers) (fun _ => 0) (OverlayFS.baseDir 0o755))
    (.abs (PathBuf.toAbs [.d])) 0 0

/-- The descriptor of `/`, below which there is a mount point. -/
def openedAboveM : Int × Vfs (Fin 2) := (mountedAt [.m]).openPath (.abs (PathBuf.toAbs [])) 0 0

/-- What is made through the handle of `/d` goes to the base, by path to the top layer;
and a handle on `/` does not find the mount point. -/
theorem not_alike_openedBase :
    OpenAtPath openedBase.2 openedBase.1 (PathBuf.toAbs [.d]) World.snd 3 ∧
      ¬ OpensAlike openedBase.2 openedBase.1 (PathBuf.toAbs [.d]) ⟨[.normal .x]⟩ O_CREAT 0o644 ∧
      ¬ MakesAlike openedBase.2 openedBase.1 (PathBuf.toAbs [.d]) ⟨[.normal .x]⟩ 0o755 ∧
      OpenAtPath openedAboveM.2 openedAboveM.1 (PathBuf.toAbs []) World.fst 1 ∧
      ¬ OpensAlike openedAboveM.2 openedAboveM.1 (PathBuf.toAbs []) ⟨[.normal .m]⟩ 0 0 := by
  refine ⟨?_, ?_, ?_, ?_, ?_⟩
  · exact ⟨by decide +kernel, ⟨⟨[.d], 0, some ⟨World.snd, 3⟩⟩, by decide +kernel, by decide +kernel,
      rfl⟩, by decide +kernel⟩
  · rintro ⟨-, hsame⟩
    have hhandle := congrArg (fun r : Int × Vfs (Fin 2) => r.2.handleOf r.1)
      (hsame (by decide +kernel))
    exact absurd hhandle (by decide +kernel)
  · rintro ⟨-, hfs⟩
    have htop := congrFun hfs World.fst.index
    have hnone : ((openedBase.2.mkdirat openedBase.1 (.rel ⟨[.normal .x]⟩) 0o755).2.world.fs
        World.fst.index).resolveNames [.d] = none := by decide +kernel
    rw [← htop] at hnone
    exact absurd hnone (by decide +kernel)
  · exact ⟨by decide +kernel, ⟨⟨[], 0, some ⟨World.fst, 1⟩⟩, by decide +kernel, by decide +kernel,
      rfl⟩, by decide +kernel⟩
  · rintro ⟨hiff, -⟩
    have hopened : 0 ≤ (openedAboveM.2.openPath
        (.abs ((PathBuf.toAbs []).join ⟨[.normal .m]⟩)) 0 0).1 := by decide +kernel
    exact absurd (hiff.mpr hopened) (by decide +kernel)

end Vfs

end SandboxVfs
