import SandboxVfs.MemorySteps

/-! Which change each operation of `MemoryFS` makes, and that all changes keep the
heap well formed. -/

namespace SandboxVfs

open NameGraph

structure Sys.Later (s s' : Sys) : Prop where
  kernel : s'.kernel = s.kernel
  next : s.nextNodeId ≤ s'.nextNodeId
  live : s.live ⊆ s'.live

theorem Sys.Later.refl (s : Sys) : s.Later s := ⟨rfl, le_rfl, Finset.Subset.refl _⟩

theorem Sys.Later.trans {s t u : Sys} (h : s.Later t) (h' : t.Later u) : s.Later u :=
  ⟨h'.kernel.trans h.kernel, h.next.trans h'.next, h.live.trans h'.live⟩

theorem Sys.newFd_later (s : Sys) : s.Later s.newFd.2 := by
  refine ⟨rfl, le_rfl, ?_⟩
  simp only [Sys.newFd]
  split_ifs
  · exact Finset.subset_insert _ _
  · exact Finset.Subset.refl _

theorem Sys.takeId_later (s : Sys) : s.Later s.takeId := ⟨rfl, Nat.le_succ _, Finset.Subset.refl _⟩

theorem Sys.newFd_fresh (s : Sys) (h : 0 ≤ s.newFd.1) :
    s.newFd.1 ∉ s.live ∧ s.newFd.1 ∈ s.newFd.2.live := by
  refine ⟨s.kernel.answer_fresh s.calls s.live h, ?_⟩
  have h' : 0 ≤ s.kernel.answer s.calls s.live := h
  simp [Sys.newFd, h']

@[simp] theorem Sys.newFd_next (s : Sys) : s.newFd.2.nextNodeId = s.nextNodeId := rfl

namespace MemoryFS

variable {fs fs' : MemoryFS} {next : NodeId}

theorem newNode_inode (id parent : NodeId) (kind : VfsEntryKind) (mode : Mode) (fd : Int) :
    (newNode id parent kind mode fd).inode =
      { id, parent := some parent, mode := mode &&& 0o7777, links := 1, backingFd := fd,
        isDir := kind == .dir } := by
  cases kind <;> rfl

theorem newNode_entryAt (h : fs.WF next) {id : NodeId} (hid : next ≤ id) {parent : NodeId}
    {kind : VfsEntryKind} {mode : Mode} {fd : Int} (d : NodeId) (x : FileName) :
    (fs.insertNode (newNode id parent kind mode fd)).entryAt d x = fs.entryAt d x := by
  simp only [entryAt, entriesOf, heap_insertNode]
  split_ifs with hd
  · have hn : fs.heap d = none := by
      rw [← inodeOf_eq_none, hd]
      exact h.heap_fresh hid
    cases kind <;> simp [newNode, NodeKind.entries?, hn]
  · rfl

theorem attach_created (h : fs.WF next) {parent : NodeId} {name : FileName} {es : Entries}
    (he : fs.entriesOf parent = some es) (hname : name ∉ es) (kind : VfsEntryKind) (mode : Mode)
    (fd : Int) :
    Created fs ((fs.insertNode (newNode next parent kind mode fd)).setEntries parent
      (es.insert name next)) parent name (newNode next parent kind mode fd).inode := by
  have hfresh := h.heap_fresh (le_refl next)
  have hdir : fs.isDir parent = true := isDir_iff_entries.mpr ⟨es, he⟩
  have hne : parent ≠ next := by
    rintro rfl
    simp [isDir_eq_inode, hfresh] at hdir
  have hdir' : (fs.insertNode (newNode next parent kind mode fd)).isDir parent = true := by
    have hne' : parent ≠ (newNode next parent kind mode fd).id := hne
    rw [isDir_eq_inode, inodeOf_insertNode, if_neg hne', ← isDir_eq_inode, hdir]
  constructor
  · rfl
  · rfl
  · intro j
    rw [inodeOf_setEntries]
    exact inodeOf_insertNode _ _ j
  · intro d x
    rw [entryAt_setEntries _ _ hdir', newNode_entryAt h le_rfl]
    by_cases hd : d = parent
    · subst hd
      simp [entryAt_of_entriesOf he, getElem?_insert_name, newNode, Node.inode]
    · simp [hd]
  · simpa [entryAt_of_entriesOf he] using hname
  · exact hdir
  · exact hfresh
  · rfl
  · rfl

theorem createNodeInDir_later (m : MemoryState) (parent : NodeId) (name : FileName)
    (kind : VfsEntryKind) (mode : Mode) :
    m.sys.Later (createNodeInDir m parent name kind mode).2.sys := by
  have ht := m.sys.takeId_later.trans m.sys.takeId.newFd_later
  unfold createNodeInDir
  cases m.fs.entriesOf parent with
  | none => exact Sys.Later.refl _
  | some es =>
    dsimp only
    split_ifs
    · exact Sys.Later.refl _
    · exact ht
    · exact ht

theorem createNodeInDir_none {m m' : MemoryState} {parent : NodeId} {name : FileName}
    {kind : VfsEntryKind} {mode : Mode}
    (hc : createNodeInDir m parent name kind mode = (none, m')) : m'.fs = m.fs := by
  unfold createNodeInDir at hc
  cases he : m.fs.entriesOf parent with
  | none =>
    simp only [he, Prod.mk.injEq] at hc
    rw [← hc.2]
  | some es =>
    simp only [he] at hc
    split_ifs at hc <;> simp only [Prod.mk.injEq, reduceCtorEq, false_and] at hc <;> rw [← hc.2]

/-- A successful creation used the counter's id and a new backing file, and added one
entry. -/
theorem createNodeInDir_made {m m' : MemoryState} {parent id : NodeId} {name : FileName}
    {kind : VfsEntryKind} {mode : Mode} (h : m.fs.WF m.sys.nextNodeId)
    (hc : createNodeInDir m parent name kind mode = (some id, m')) :
    id = m.sys.nextNodeId ∧ 0 ≤ m.sys.takeId.newFd.1 ∧ m'.sys = m.sys.takeId.newFd.2 ∧
      Created m.fs m'.fs parent name (newNode id parent kind mode m.sys.takeId.newFd.1).inode := by
  unfold createNodeInDir at hc
  cases he : m.fs.entriesOf parent with
  | none => simp [he] at hc
  | some es =>
    simp only [he] at hc
    split_ifs at hc with hname hfd
    · simp at hc
    · simp at hc
    · obtain ⟨hid, rfl⟩ := Prod.mk.inj hc
      cases hid
      exact ⟨rfl, not_lt.mp hfd, rfl, attach_created h he hname kind mode _⟩

theorem createNodeInDir_some {m m' : MemoryState} {parent id : NodeId} {name : FileName}
    {kind : VfsEntryKind} {mode : Mode} (h : m.fs.WF m.sys.nextNodeId)
    (hc : createNodeInDir m parent name kind mode = (some id, m')) :
    id = m.sys.nextNodeId ∧ m.sys.takeId.Later m'.sys ∧
      ∃ n : Inode, n.id = id ∧ n.isDir = (kind == .dir) ∧ n.mode = mode &&& 0o7777 ∧
        Created m.fs m'.fs parent name n := by
  obtain ⟨hid, -, hs, hcr⟩ := createNodeInDir_made h hc
  refine ⟨hid, hs ▸ Sys.newFd_later _, _, ?_, ?_, ?_, hcr⟩ <;> rw [newNode_inode]

theorem createNodeInDir_backing {m m' : MemoryState} {parent id : NodeId} {name : FileName}
    {kind : VfsEntryKind} {mode : Mode} (h : m.fs.WF m.sys.nextNodeId)
    (hc : createNodeInDir m parent name kind mode = (some id, m')) :
    ∃ n, m'.fs.inodeOf id = some n ∧ n.backingFd ∉ m.sys.live ∧ n.backingFd ∈ m'.sys.live := by
  obtain ⟨-, hfd, hs, hcr⟩ := createNodeInDir_made h hc
  have hid : (newNode id parent kind mode m.sys.takeId.newFd.1).inode.id = id := by
    rw [newNode_inode]
  refine ⟨_, by rw [hcr.inodeOf, if_pos hid.symm], ?_⟩
  rw [newNode_inode, hs]
  exact Sys.newFd_fresh _ hfd

/-- Creation fails only when the parent is no directory, the name is taken, or the
kernel refuses a backing file. -/
theorem createNodeInDir_isSome_iff (m : MemoryState) (parent : NodeId) (name : FileName)
    (kind : VfsEntryKind) (mode : Mode) :
    (createNodeInDir m parent name kind mode).1.isSome ↔
      m.fs.isDir parent = true ∧ m.fs.entryAt parent name = none ∧
        0 ≤ m.sys.kernel.answer m.sys.calls m.sys.live := by
  unfold createNodeInDir
  cases he : m.fs.entriesOf parent with
  | none => simp [isDir, he]
  | some es =>
    have ha : name ∉ es ↔ m.fs.entryAt parent name = none := by
      simp [entryAt_of_entriesOf he]
    simp only [isDir, he, Option.isSome_some, true_and, ← ha, Sys.newFd, Sys.takeId]
    by_cases hname : name ∈ es
    · simp [hname]
    · by_cases hfd : m.sys.kernel.answer m.sys.calls m.sys.live < 0 <;> simp [hname, hfd]
      omega

def createAt (m : MemoryState) (target : Option (NodeId × FileName)) (kind : VfsEntryKind)
    (mode : Mode) : Option NodeId × MemoryState :=
  match target with
  | none => (none, m)
  | some t => createNodeInDir m t.1 t.2 kind mode

theorem createNode_eq (m : MemoryState) (path : AbsPath) (kind : VfsEntryKind) (mode : Mode) :
    createNode m path kind mode = createAt m (m.fs.resolveParent path) kind mode := by
  unfold createNode createAt
  cases m.fs.resolveParent path <;> rfl

/-- Where `create_relative_node` puts its node. -/
def resolveRelativeParent (fs : MemoryFS) (start : NodeId) (path : RelPath) :
    Option (NodeId × FileName) := do
  let parent ← fs.resolveRelative start (← path.parent)
  return (parent, ← path.fileName)

theorem createRelativeNode_eq (m : MemoryState) (start : NodeId) (path : RelPath)
    (kind : VfsEntryKind) (mode : Mode) :
    createRelativeNode m start path kind mode =
      createAt m (m.fs.resolveRelativeParent start path) kind mode := by
  unfold createRelativeNode createAt resolveRelativeParent
  cases path.parent with
  | none => rfl
  | some parentPath =>
    cases hn : path.fileName with
    | none => cases m.fs.resolveRelative start parentPath <;> simp
    | some name => cases hr : m.fs.resolveRelative start parentPath <;> simp [hr]

theorem createAt_cases {m : MemoryState} (h : m.fs.WF m.sys.nextNodeId)
    (target : Option (NodeId × FileName)) (kind : VfsEntryKind) (mode : Mode) :
    (∃ sys', createAt m target kind mode = (none, ⟨m.fs, sys'⟩) ∧ m.sys.Later sys') ∨
      ∃ m' d x n, createAt m target kind mode = (some n.id, m') ∧ target = some (d, x) ∧
        n.id = m.sys.nextNodeId ∧ m.sys.takeId.Later m'.sys ∧ n.isDir = (kind == .dir) ∧
        n.mode = mode &&& 0o7777 ∧ Created m.fs m'.fs d x n := by
  cases target with
  | none => exact Or.inl ⟨m.sys, rfl, Sys.Later.refl _⟩
  | some t =>
    have hl := createNodeInDir_later m t.1 t.2 kind mode
    cases hc : createNodeInDir m t.1 t.2 kind mode with
    | mk r m' =>
      cases r with
      | none =>
        left
        have hfs := createNodeInDir_none hc
        rw [hc] at hl
        refine ⟨m'.sys, ?_, hl⟩
        rw [← hfs]
        exact hc
      | some id =>
        right
        obtain ⟨hid, hs, n, hn, hk, hm, hcr⟩ := createNodeInDir_some h hc
        subst hn
        exact ⟨m', t.1, t.2, n, hc, rfl, hid, hs, hk, hm, hcr⟩

/-- `open` by path and by handle differ only in where they look. -/
def openAt (m : MemoryState) (existing : Option NodeId) (target : Option (NodeId × FileName))
    (flags : Flags) (mode : Mode) : OpenResult NodeId × MemoryState :=
  openResolvedNode m existing (createAt · target .file mode) flags

theorem openResolvedNode_congr {m : MemoryState} {existing : Option NodeId}
    {create create' : MemoryState → Option NodeId × MemoryState} (flags : Flags)
    (h : create m = create' m) :
    openResolvedNode m existing create flags = openResolvedNode m existing create' flags := by
  simp only [openResolvedNode, h]

theorem openNode_eq (m : MemoryState) (path : AbsPath) (flags : Flags) (mode : Mode) :
    openNode m path flags mode =
      openAt m (m.fs.resolve path) (m.fs.resolveParent path) flags mode :=
  openResolvedNode_congr flags (createNode_eq m path .file mode)

theorem openNodeRelative_eq (m : MemoryState) (start : NodeId) (path : RelPath) (flags : Flags)
    (mode : Mode) :
    openNodeRelative m start path flags mode =
      openAt m (m.fs.resolveRelative start path) (m.fs.resolveRelativeParent start path)
        flags mode :=
  openResolvedNode_congr flags (createRelativeNode_eq m start path .file mode)

theorem openFound_cases (m : MemoryState) (node : NodeId) (flags : Flags) :
    ∃ sys', (openFound m node flags).2 = ⟨m.fs, sys'⟩ ∧ m.sys.Later sys' ∧
      (openFound m node flags).1.opened =
        (if 0 ≤ (openFound m node flags).1.fd then some node else none) ∧
      (0 ≤ (openFound m node flags).1.fd →
        (openFound m node flags).1.fd ∉ m.sys.live ∧
          (openFound m node flags).1.fd ∈ sys'.live) := by
  by_cases hd : (flags.has O_DIRECTORY && !m.fs.isDir node) = true
  · have he : openFound m node flags = (⟨-1, none⟩, m) := if_pos hd
    rw [he]
    exact ⟨m.sys, rfl, Sys.Later.refl _, by simp, by simp⟩
  · have he : openFound m node flags =
        (⟨m.sys.newFd.1, if m.sys.newFd.1 < 0 then none else some node⟩, ⟨m.fs, m.sys.newFd.2⟩) :=
      if_neg hd
    rw [he]
    refine ⟨m.sys.newFd.2, rfl, Sys.newFd_later _, ?_, Sys.newFd_fresh _⟩
    by_cases hfd : 0 ≤ m.sys.newFd.1
    · simp [hfd]
    · simp [hfd, not_le.mp hfd]

theorem openAt_cases {m : MemoryState} (h : m.fs.WF m.sys.nextNodeId) (existing : Option NodeId)
    (target : Option (NodeId × FileName)) (flags : Flags) (mode : Mode) :
    (∃ sys', openAt m existing target flags mode = (⟨-1, none⟩, ⟨m.fs, sys'⟩) ∧
        m.sys.Later sys') ∨
      (∃ node, existing = some node ∧
        openAt m existing target flags mode = openFound m node flags) ∨
      ∃ m' d x n, existing = none ∧ flags.has O_CREAT = true ∧ target = some (d, x) ∧
        n.id = m.sys.nextNodeId ∧ m.sys.takeId.Later m'.sys ∧ n.isDir = false ∧
        n.mode = mode &&& 0o7777 ∧ Created m.fs m'.fs d x n ∧
        openAt m existing target flags mode = openFound m' n.id flags := by
  unfold openAt openResolvedNode
  cases existing with
  | some node =>
    dsimp only
    split_ifs
    · exact Or.inl ⟨m.sys, rfl, Sys.Later.refl _⟩
    · exact Or.inr (Or.inl ⟨node, rfl, rfl⟩)
  | none =>
    dsimp only
    split_ifs with hcreat
    · rcases createAt_cases h target .file mode with
        ⟨sys', he, hl⟩ | ⟨m', d, x, n, he, ht, hid, hl, hd, hm, hc⟩
      · left
        refine ⟨sys', ?_, hl⟩
        rw [he]
      · right
        right
        refine ⟨m', d, x, n, rfl, hcreat, ht, hid, hl, hd, hm, hc, ?_⟩
        rw [he]
    · exact Or.inl ⟨m.sys, rfl, Sys.Later.refl _⟩

/-- The backing file of a file that an open makes is neither in use before nor the number
that the open returns. -/
theorem openAt_backing {m : MemoryState} (h : m.fs.WF m.sys.nextNodeId)
    (target : Option (NodeId × FileName)) (flags : Flags) (mode : Mode)
    (hfd : 0 ≤ (openAt m none target flags mode).1.fd) :
    ∃ n, (openAt m none target flags mode).2.fs.inodeOf m.sys.nextNodeId = some n ∧
      n.backingFd ∉ m.sys.live ∧ n.backingFd ≠ (openAt m none target flags mode).1.fd := by
  unfold openAt openResolvedNode at hfd ⊢
  dsimp only at hfd ⊢
  by_cases hcreat : flags.has O_CREAT = true
  · rw [if_pos hcreat] at hfd ⊢
    cases target with
    | none =>
      have hneg : (0 : Int) ≤ -1 := hfd
      omega
    | some t =>
      cases hc : createNodeInDir m t.1 t.2 .file mode with
      | mk r m' =>
        have hat : createAt m (some t) .file mode = (r, m') := hc
        rw [hat] at hfd ⊢
        cases r with
        | none =>
          have hneg : (0 : Int) ≤ -1 := hfd
          omega
        | some id =>
          obtain ⟨hid, -⟩ := createNodeInDir_made h hc
          obtain ⟨n, hn, hold, hnew⟩ := createNodeInDir_backing h hc
          obtain ⟨sys', he, -, -, hfresh⟩ := openFound_cases m' id flags
          refine ⟨n, ?_, hold, fun heq => (hfresh hfd).1 (heq ▸ hnew)⟩
          show (openFound m' id flags).2.fs.inodeOf _ = _
          rw [he, ← hid, hn]
  · rw [if_neg hcreat] at hfd
    have hneg : (0 : Int) ≤ -1 := hfd
    omega

theorem detach_removed {parent c : NodeId} {name : FileName} {es : Entries}
    (he : fs.entriesOf parent = some es) (hc : es[name]? = some c) :
    Removed fs ((fs.setEntries parent (es.erase name)).dropNode c) parent name c := by
  have hdir : fs.isDir parent = true := isDir_iff_entries.mpr ⟨es, he⟩
  constructor
  · rfl
  · rfl
  · intro j
    rw [inodeOf_dropNode, inodeOf_setEntries]
  · intro d x
    rw [entryAt, entriesOf_dropNode]
    change (fs.setEntries parent (es.erase name)).entryAt d x = _
    rw [entryAt_setEntries _ _ hdir]
    by_cases hd : d = parent
    · subst hd
      simp [entryAt_of_entriesOf he, getElem?_erase_name]
    · simp [hd]
  · rw [entryAt_of_entriesOf he, hc]

/-- A removal either fails and changes nothing, or takes one entry of the asked kind. -/
theorem removeEntry_cases (h : fs.WF next) (parent : NodeId) (name : FileName)
    (kind : VfsEntryKind) :
    fs.removeEntry parent name kind = (-1, fs) ∨
      ∃ c fs', fs.removeEntry parent name kind = (0, fs') ∧ fs.kindMatches c kind = true ∧
        Removed fs fs' parent name c := by
  unfold removeEntry
  split
  · exact Or.inl rfl
  · rename_i es he
    split
    · exact Or.inl rfl
    · rename_i c hc
      have hmem : c ∈ fs.nodes :=
        h.entry_mem parent name c (by rw [entryAt_of_entriesOf he, hc])
      simp only [nodeFromMap, hmem, if_true]
      split_ifs with hk
      · exact Or.inr ⟨c, _, rfl, hk, detach_removed he hc⟩
      · exact Or.inl rfl

theorem removeEntry_eq_zero (h : fs.WF next) {parent c : NodeId} {name : FileName}
    {kind : VfsEntryKind} (hc : fs.entryAt parent name = some c)
    (hk : fs.kindMatches c kind = true) : (fs.removeEntry parent name kind).1 = 0 := by
  obtain ⟨es, he, hes⟩ := Option.bind_eq_some_iff.mp hc
  have hmem := h.entry_mem parent name c hc
  simp [removeEntry, he, hes, nodeFromMap, hmem, hk]

theorem removeNodeAt_cases (h : fs.WF next) (path : AbsPath) (kind : VfsEntryKind) :
    fs.removeNodeAt path kind = (-1, fs) ∨
      ∃ parent name c, fs.resolveParent path = some (parent, name) ∧
        fs.kindMatches c kind = true ∧ (fs.removeNodeAt path kind).1 = 0 ∧
        Removed fs (fs.removeNodeAt path kind).2 parent name c := by
  unfold removeNodeAt
  split_ifs with hroot
  · exact Or.inl rfl
  · split
    · exact Or.inl rfl
    · rename_i parent name hp
      rcases removeEntry_cases h parent name kind with he | ⟨c, fs', he, hk, hr⟩
      · exact Or.inl he
      · rw [he]
        exact Or.inr ⟨parent, name, c, hp, hk, rfl, hr⟩

theorem removeNodeAt_eq_zero_iff (h : fs.WF next) (path : AbsPath) (kind : VfsEntryKind) :
    (fs.removeNodeAt path kind).1 = 0 ↔ path.isRoot = false ∧
      ∃ parent name c, fs.resolveParent path = some (parent, name) ∧
        fs.entryAt parent name = some c ∧ fs.kindMatches c kind = true := by
  constructor
  · intro hz
    rcases removeNodeAt_cases h path kind with hh | ⟨parent, name, c, hp, hk, -, hr⟩
    · rw [hh] at hz
      cases hz
    · refine ⟨?_, parent, name, c, hp, hr.present, hk⟩
      by_contra hroot
      simp [removeNodeAt, Bool.not_eq_false _ ▸ hroot] at hz
  · rintro ⟨hroot, parent, name, c, hp, hc, hk⟩
    simp [removeNodeAt, hroot, hp, removeEntry_eq_zero h hc hk]

theorem clearTarget_spec {fs₁ : MemoryFS} {c : NodeId} {target : Option NodeId}
    (h : fs.clearTarget c target = some fs₁) :
    fs₁.root = fs.root ∧ fs₁.nodes = target.elim fs.nodes fs.nodes.erase ∧
      (∀ j, fs₁.inodeOf j =
        if target = some j then (fs.inodeOf j).map Inode.dropped else fs.inodeOf j) ∧
      (∀ j, fs₁.entriesOf j = fs.entriesOf j) ∧
      ∀ r, target = some r → fs.canReplaceNode c r = true := by
  cases target with
  | none =>
    cases h
    simp
  | some r =>
    obtain ⟨r', hr', hh⟩ := Option.bind_eq_some_iff.mp h
    obtain ⟨-, rfl⟩ := nodeFromMap_eq_some.mp hr'
    split_ifs at hh with hcan
    cases hh
    refine ⟨rfl, rfl, ?_, entriesOf_dropNode fs r', by simpa using hcan⟩
    intro j
    simp [inodeOf_dropNode, eq_comm]

theorem renameWithin_moved (h : fs.WF next) {oldPath newPath : AbsPath} {a : NodeId}
    {x y : FileName} {es : Entries} (he : fs.entriesOf a = some es)
    (hr : fs.renameWithin oldPath newPath a x y es = some fs') :
    (fs' = fs ∧ x = y) ∨
      ∃ c replaced, Moved fs fs' a x a y c replaced ∧
        (∀ r, replaced = some r → fs.canReplaceNode c r = true) ∧
        (fs.isDir c = true → newPath.startsWith oldPath = false) := by
  unfold renameWithin at hr
  obtain ⟨c, hc, hr₁⟩ := Option.bind_eq_some_iff.mp hr
  obtain ⟨c', hc', hr₂⟩ := Option.bind_eq_some_iff.mp hr₁
  clear hr hr₁
  obtain ⟨-, rfl⟩ := nodeFromMap_eq_some.mp hc'
  have hxc : fs.entryAt a x = some c' := by rw [entryAt_of_entriesOf he, hc]
  split_ifs at hr₂ with hguard hsame
  · left
    have hyc : fs.entryAt a y = some c' := by rw [entryAt_of_entriesOf he, hsame]
    exact ⟨(Option.some.inj hr₂).symm, h.entry_name a x y c' hxc hyc⟩
  · right
    obtain ⟨fs₁, hfs₁, rfl⟩ := Option.map_eq_some_iff.mp hr₂
    obtain ⟨hroot, hnodes, hinode, hents, hcan⟩ := clearTarget_spec hfs₁
    have hdir : fs₁.isDir a = true := by simp [isDir, hents, he]
    obtain ⟨n, hn, hp, -⟩ := h.entry_inode a x c' hxc
    refine ⟨c', es[y]?, ?_, hcan, fun hd => by simpa [hd] using hguard⟩
    constructor
    · exact hroot
    · exact hnodes
    · intro j
      rw [inodeOf_setEntries, hinode]
      by_cases hj : j = c'
      · -- the moved node keeps its parent
        subst hj
        simp [hsame, hn, ← hp]
      · simp [hj]
    · intro d z
      rw [entryAt_setEntries _ _ hdir, getElem?_insert_name, getElem?_erase_name]
      by_cases hd : d = a
      · subst hd
        simp [entryAt_of_entriesOf he]
      · simp [hd, entryAt, hents]
    · exact hxc
    · rw [entryAt_of_entriesOf he]
    · exact hsame
    · simp [isDir, he]

theorem renameAcross_moved (h : fs.WF next) {oldPath newPath : AbsPath} {a b : NodeId}
    {x y : FileName} {es es' : Entries} (he : fs.entriesOf a = some es)
    (he' : fs.entriesOf b = some es') (hab : a ≠ b)
    (hr : fs.renameAcross oldPath newPath a b x y es es' = some fs') :
    ∃ c replaced, Moved fs fs' a x b y c replaced ∧
      (∀ r, replaced = some r → fs.canReplaceNode c r = true) ∧
      (fs.isDir c = true → newPath.startsWith oldPath = false) := by
  unfold renameAcross at hr
  obtain ⟨c, hc, hr₁⟩ := Option.bind_eq_some_iff.mp hr
  obtain ⟨c', hc', hr₂⟩ := Option.bind_eq_some_iff.mp hr₁
  clear hr hr₁
  obtain ⟨-, rfl⟩ := nodeFromMap_eq_some.mp hc'
  have hxc : fs.entryAt a x = some c' := by rw [entryAt_of_entriesOf he, hc]
  split_ifs at hr₂ with hguard
  have hdira : fs.isDir a = true := isDir_iff_entries.mpr ⟨es, he⟩
  have hdirb : fs.isDir b = true := isDir_iff_entries.mpr ⟨es', he'⟩
  -- the entries after both maps are written, whatever is done to the nodes
  let moved := (fs.setEntries a (es.erase x)).setEntries b (es'.insert y c')
  have hinode (j : NodeId) : moved.inodeOf j = fs.inodeOf j := by
    simp only [moved, inodeOf_setEntries]
  have hentry (d : NodeId) (z : FileName) : moved.entryAt d z =
      if d = b ∧ z = y then some c' else if d = a ∧ z = x then none else fs.entryAt d z := by
    have hdirb' : (fs.setEntries a (es.erase x)).isDir b = true := by
      rw [isDir_eq_inode, inodeOf_setEntries, ← isDir_eq_inode, hdirb]
    simp only [moved]
    rw [entryAt_setEntries _ _ hdirb', entryAt_setEntries _ _ hdira, getElem?_insert_name,
      getElem?_erase_name]
    by_cases hd : d = b
    · subst hd
      simp [entryAt_of_entriesOf he', Ne.symm hab]
    · by_cases hd' : d = a
      · subst hd'
        simp [hd, entryAt_of_entriesOf he]
      · simp [hd, hd']
  have hguard' : fs.isDir c' = true → newPath.startsWith oldPath = false :=
    fun hd => by simpa [hd] using hguard
  cases hy : es'[y]? with
  | none =>
    simp only [hy] at hr₂
    cases hr₂
    refine ⟨c', none, ⟨rfl, rfl, ?_, ?_, hxc, ?_, by simp, hdirb⟩, by simp, hguard'⟩
    · intro j
      rw [inodeOf_setParent, hinode]
      simp
    · intro d z
      rw [entryAt, entriesOf_setParent]
      exact hentry d z
    · rw [entryAt_of_entriesOf he', hy]
  | some r =>
    simp only [hy] at hr₂
    split_ifs at hr₂ with hsame
    · -- one node in two directories, which well-formed heaps exclude
      subst hsame
      exact absurd (h.entry_unique hxc (by rw [entryAt_of_entriesOf he', hy])).1 hab
    · obtain ⟨r', hr', hr₃⟩ := Option.bind_eq_some_iff.mp hr₂
      clear hr₂
      obtain ⟨-, rfl⟩ := nodeFromMap_eq_some.mp hr'
      split_ifs at hr₃ with hcan
      cases hr₃
      refine ⟨c', some r', ⟨rfl, rfl, ?_, ?_, hxc, ?_, by simpa using hsame, hdirb⟩,
        by simpa using hcan, hguard'⟩
      · intro j
        rw [inodeOf_setParent, inodeOf_dropNode, hinode]
        by_cases hj : j = c'
        · subst hj
          simp [Ne.symm hsame]
        · simp [hj, eq_comm]
      · intro d z
        rw [entryAt, entriesOf_setParent, entriesOf_dropNode]
        exact hentry d z
      · rw [entryAt_of_entriesOf he', hy]

/-- A successful rename left everything in place or moved one entry, a directory
never to a path that starts with its own. -/
theorem renameNodeAt_cases (h : fs.WF next) {oldPath newPath : AbsPath}
    (hr : fs.renameNodeAt oldPath newPath = some fs') :
    (fs' = fs ∧ (oldPath.components = newPath.components ∨
        fs.resolveParent oldPath = fs.resolveParent newPath)) ∨
      ∃ a x b y c replaced, fs.resolveParent oldPath = some (a, x) ∧
        fs.resolveParent newPath = some (b, y) ∧ Moved fs fs' a x b y c replaced ∧
        (∀ r, replaced = some r → fs.canReplaceNode c r = true) ∧
        (fs.isDir c = true → newPath.startsWith oldPath = false) := by
  unfold renameNodeAt at hr
  split_ifs at hr with hroot hsame
  · exact Or.inl ⟨(Option.some.inj hr).symm, Or.inl hsame⟩
  · obtain ⟨⟨a, x⟩, ha, hr⟩ := Option.bind_eq_some_iff.mp hr
    obtain ⟨⟨b, y⟩, hb, hr⟩ := Option.bind_eq_some_iff.mp hr
    unfold renameEntry at hr
    dsimp only at hr
    obtain ⟨es, he, hr⟩ := Option.bind_eq_some_iff.mp hr
    obtain ⟨es', he', hr⟩ := Option.bind_eq_some_iff.mp hr
    by_cases hab : a = b
    · subst hab
      rw [if_pos rfl] at hr
      rcases renameWithin_moved h he hr with ⟨rfl, rfl⟩ | ⟨c, replaced, hm, hcan, hg⟩
      · exact Or.inl ⟨rfl, Or.inr (ha.trans hb.symm)⟩
      · exact Or.inr ⟨a, x, a, y, c, replaced, ha, hb, hm, hcan, hg⟩
    · rw [if_neg hab] at hr
      obtain ⟨c, replaced, hm, hcan, hg⟩ := renameAcross_moved h he he' hab hr
      exact Or.inr ⟨a, x, b, y, c, replaced, ha, hb, hm, hcan, hg⟩

theorem chmod_cases {path : AbsPath} {mode : Mode} (hc : fs.chmod path mode = some fs') :
    ∃ id, fs.resolve path = some id ∧ ModeSet fs fs' id (mode &&& 0o7777) := by
  obtain ⟨id, hid, rfl⟩ := Option.map_eq_some_iff.mp hc
  refine ⟨id, hid, rfl, rfl, ?_, ?_⟩
  · exact inodeOf_setNode fs id _ _ fun _ => rfl
  · intro d x
    rw [entryAt, entriesOf_setNode]
    · rfl
    · intro n
      rfl

theorem Created.isDir_eq {parent : NodeId} {name : FileName} {n : Inode}
    (hc : Created fs fs' parent name n) (j : NodeId) :
    fs'.isDir j = if j = n.id then n.isDir else fs.isDir j := by
  rw [isDir_eq_inode, hc.inodeOf]
  split_ifs <;> simp [isDir_eq_inode]

theorem Created.wf {parent : NodeId} {name : FileName} {n : Inode}
    (h : fs.WF next) (hc : Created fs fs' parent name n) (hid : n.id = next) :
    fs'.WF (next + 1) := by
  have hroot : fs.root ≠ n.id := by
    intro he
    exact h.not_mem_fresh (he.trans hid).ge h.root_mem
  have hold {c : NodeId} {i : Inode} (hi : fs.inodeOf c = some i) : c ≠ n.id := by
    rintro rfl
    rw [hc.fresh] at hi
    cases hi
  constructor
  · rw [hc.nodes, hc.root]
    exact Finset.mem_insert_of_mem h.root_mem
  · rw [hc.root, hc.isDir_eq, if_neg hroot, h.root_dir]
  · rw [hc.root, parentOf_eq_inode, hc.inodeOf, if_neg hroot, ← parentOf_eq_inode, h.root_parent]
  · intro id i hi
    rw [hc.inodeOf] at hi
    split_ifs at hi with he
    · cases hi
      exact ⟨he.symm, Nat.lt_succ_of_le (he.trans hid).le⟩
    · have := h.heap_id id i hi
      exact ⟨this.1, Nat.lt_succ_of_lt this.2⟩
  · intro id hm
    rw [hc.nodes] at hm
    rw [hc.inodeOf]
    split_ifs with he
    · rfl
    · exact h.mem_heap id (Finset.mem_of_mem_insert_of_ne hm he)
  · intro d x c he
    rw [hc.entryAt] at he
    rw [hc.nodes]
    split_ifs at he with hd
    · cases he
      exact Finset.mem_insert_self _ _
    · exact Finset.mem_insert_of_mem (h.entry_mem d x c he)
  · intro d x c he
    rw [hc.entryAt] at he
    rw [hc.root]
    split_ifs at he with hd
    · cases he
      exact hroot.symm
    · exact h.entry_ne_root d x c he
  · intro d x c he
    rw [hc.entryAt] at he
    rw [hc.inodeOf]
    split_ifs at he with hd
    · cases he
      exact ⟨n, by simp, by rw [hc.parent_eq, hd.1], hc.links_eq⟩
    · obtain ⟨i, hi, hp, hl⟩ := h.entry_inode d x c he
      exact ⟨i, by rw [if_neg (hold hi), hi], hp, hl⟩
  · intro d x y c hx hy
    rw [hc.entryAt] at hx hy
    split_ifs at hx hy with h₁ h₂ h₂
    · exact h₁.2.trans h₂.2.symm
    · cases hx
      obtain ⟨i, hi, -⟩ := h.entry_inode d y _ hy
      exact absurd rfl (hold hi)
    · cases hy
      obtain ⟨i, hi, -⟩ := h.entry_inode d x _ hx
      exact absurd rfl (hold hi)
    · exact h.entry_name d x y c hx hy

theorem Removed.isDir_eq {parent c : NodeId} {name : FileName}
    (hr : Removed fs fs' parent name c) (j : NodeId) : fs'.isDir j = fs.isDir j := by
  rw [isDir_eq_inode, hr.inodeOf, isDir_eq_inode]
  split_ifs
  · cases fs.inodeOf j <;> rfl
  · rfl

theorem Removed.wf {parent c : NodeId} {name : FileName} (h : fs.WF next)
    (hr : Removed fs fs' parent name c) : fs'.WF next := by
  have hroot : fs.root ≠ c := (h.entry_ne_root _ _ _ hr.present).symm
  -- an entry that is left does not name the removed node
  have hleft {d b : NodeId} {x : FileName} (he : fs'.entryAt d x = some b) :
      fs.entryAt d x = some b ∧ b ≠ c := by
    rw [hr.entryAt] at he
    split_ifs at he with hd
    refine ⟨he, ?_⟩
    rintro rfl
    exact hd (h.entry_unique he hr.present)
  constructor
  · rw [hr.nodes, hr.root]
    exact Finset.mem_erase_of_ne_of_mem hroot h.root_mem
  · rw [hr.root, hr.isDir_eq, h.root_dir]
  · rw [hr.root, parentOf_eq_inode, hr.inodeOf, if_neg hroot, ← parentOf_eq_inode, h.root_parent]
  · intro id i hi
    rw [hr.inodeOf] at hi
    split_ifs at hi
    · obtain ⟨i', hi', rfl⟩ := Option.map_eq_some_iff.mp hi
      exact h.heap_id id i' hi'
    · exact h.heap_id id i hi
  · intro id hm
    rw [hr.nodes] at hm
    rw [hr.inodeOf, if_neg (Finset.ne_of_mem_erase hm)]
    exact h.mem_heap id (Finset.mem_of_mem_erase hm)
  · intro d x b he
    rw [hr.nodes]
    exact Finset.mem_erase_of_ne_of_mem (hleft he).2 (h.entry_mem d x b (hleft he).1)
  · intro d x b he
    rw [hr.root]
    exact h.entry_ne_root d x b (hleft he).1
  · intro d x b he
    rw [hr.inodeOf, if_neg (hleft he).2]
    exact h.entry_inode d x b (hleft he).1
  · intro d x y b hx hy
    exact h.entry_name d x y b (hleft hx).1 (hleft hy).1

section

variable {a b c : NodeId} {x y : FileName} {replaced : Option NodeId}

theorem Moved.isDir_eq (hm : Moved fs fs' a x b y c replaced) (j : NodeId) :
    fs'.isDir j = fs.isDir j := by
  rw [isDir_eq_inode, hm.inodeOf, isDir_eq_inode]
  split_ifs
  · cases fs.inodeOf j <;> rfl
  · cases fs.inodeOf j <;> rfl
  · rfl

theorem Moved.wf (h : fs.WF next) (hm : Moved fs fs' a x b y c replaced) : fs'.WF next := by
  have hroot : fs.root ≠ c := (h.entry_ne_root _ _ _ hm.present).symm
  have hroot' : replaced ≠ some fs.root := by
    rw [← hm.replaced_eq]
    intro he
    exact h.entry_ne_root b y _ he rfl
  -- an entry that stayed names neither the moved nor the replaced node
  have hleft {d e : NodeId} {z : FileName} (hd : ¬ (d = b ∧ z = y)) (hd' : ¬ (d = a ∧ z = x))
      (he : fs.entryAt d z = some e) : e ≠ c ∧ replaced ≠ some e := by
    constructor
    · rintro rfl
      exact hd' (h.entry_unique he hm.present)
    · intro hr
      exact hd (h.entry_unique he (hm.replaced_eq.trans hr))
  have hnodes {j : NodeId} : j ∈ fs'.nodes ↔ j ∈ fs.nodes ∧ replaced ≠ some j := by
    rw [hm.nodes]
    cases replaced <;> simp [and_comm, eq_comm]
  have hcmem : c ∈ fs.nodes := h.entry_mem a x c hm.present
  constructor
  · rw [hm.root, hnodes]
    exact ⟨h.root_mem, hroot'⟩
  · rw [hm.root, hm.isDir_eq, h.root_dir]
  · rw [hm.root, parentOf_eq_inode, hm.inodeOf, if_neg hroot, if_neg hroot', ← parentOf_eq_inode,
      h.root_parent]
  · intro id i hi
    rw [hm.inodeOf] at hi
    split_ifs at hi
    · obtain ⟨i', hi', rfl⟩ := Option.map_eq_some_iff.mp hi
      exact h.heap_id id i' hi'
    · obtain ⟨i', hi', rfl⟩ := Option.map_eq_some_iff.mp hi
      exact h.heap_id id i' hi'
    · exact h.heap_id id i hi
  · intro id hi
    have := h.mem_heap id (hnodes.mp hi).1
    rw [hm.inodeOf]
    split_ifs <;> simpa using this
  · intro d z e he
    rw [hnodes]
    rw [hm.entryAt] at he
    split_ifs at he with hd hd'
    · cases he
      exact ⟨hcmem, hm.ne⟩
    · exact ⟨h.entry_mem d z e he, (hleft hd hd' he).2⟩
  · intro d z e he
    rw [hm.root]
    rw [hm.entryAt] at he
    split_ifs at he with hd hd'
    · cases he
      exact hroot.symm
    · exact h.entry_ne_root d z e he
  · intro d z e he
    rw [hm.inodeOf]
    rw [hm.entryAt] at he
    split_ifs at he with hd hd'
    · cases he
      obtain ⟨i, hi, -, hl⟩ := h.entry_inode a x c hm.present
      exact ⟨{ i with parent := some b }, by simp [hi], by rw [hd.1], hl⟩
    · have hne := hleft hd hd' he
      rw [if_neg hne.1, if_neg hne.2]
      exact h.entry_inode d z e he
  · intro d z w e hz hw
    rw [hm.entryAt] at hz hw
    split_ifs at hz hw with h₁ h₂ h₃ h₃
    · exact h₁.2.trans h₂.2.symm
    · cases hz
      exact absurd rfl (hleft h₂ h₃ hw).1
    · cases hw
      exact absurd rfl (hleft h₁ ‹_› hz).1
    · exact h.entry_name d z w e hz hw

theorem ModeSet.isDir_eq {id : NodeId} {mode : Mode} (hs : ModeSet fs fs' id mode) (j : NodeId) :
    fs'.isDir j = fs.isDir j := by
  rw [isDir_eq_inode, hs.inodeOf, isDir_eq_inode]
  split_ifs
  · cases fs.inodeOf j <;> rfl
  · rfl

theorem ModeSet.wf {id : NodeId} {mode : Mode} (h : fs.WF next) (hs : ModeSet fs fs' id mode) :
    fs'.WF next := by
  have hparent (j : NodeId) : fs'.parentOf j = fs.parentOf j := by
    rw [parentOf_eq_inode, hs.inodeOf, parentOf_eq_inode]
    split_ifs
    · cases fs.inodeOf j <;> rfl
    · rfl
  constructor
  · rw [hs.root, hs.nodes]
    exact h.root_mem
  · rw [hs.root, hs.isDir_eq, h.root_dir]
  · rw [hs.root, hparent, h.root_parent]
  · intro j i hi
    rw [hs.inodeOf] at hi
    split_ifs at hi
    · obtain ⟨i', hi', rfl⟩ := Option.map_eq_some_iff.mp hi
      exact h.heap_id j i' hi'
    · exact h.heap_id j i hi
  · intro j hj
    have := h.mem_heap j (hs.nodes ▸ hj)
    rw [hs.inodeOf]
    split_ifs <;> simpa using this
  · intro d z e he
    rw [hs.nodes]
    exact h.entry_mem d z e (hs.entryAt d z ▸ he)
  · intro d z e he
    rw [hs.root]
    exact h.entry_ne_root d z e (hs.entryAt d z ▸ he)
  · intro d z e he
    obtain ⟨i, hi, hp, hl⟩ := h.entry_inode d z e (hs.entryAt d z ▸ he)
    rw [hs.inodeOf, hi]
    split_ifs
    · exact ⟨_, rfl, hp, hl⟩
    · exact ⟨i, rfl, hp, hl⟩
  · intro d z w e hz hw
    exact h.entry_name d z w e (hs.entryAt d z ▸ hz) (hs.entryAt d w ▸ hw)

end

theorem new_inodeOf (sys : Sys) (id : NodeId) : (new sys).fs.inodeOf id =
    if id = sys.nextNodeId then
      some ⟨sys.nextNodeId, some sys.nextNodeId, 0o755, 1, sys.takeId.newFd.1, true⟩
    else none := by
  by_cases he : id = sys.nextNodeId
  · subst he
    simp [new, inodeOf, Node.inode, NodeKind.backingFd, NodeKind.entries?]
  · simp [new, inodeOf, he]

theorem new_entryAt (sys : Sys) (d : NodeId) (x : FileName) :
    (new sys).fs.entryAt d x = none := by
  by_cases he : d = sys.nextNodeId
  · subst he
    simp [new, entryAt, entriesOf, NodeKind.entries?]
  · simp [new, entryAt, entriesOf, he]

theorem new_wf (sys : Sys) : (new sys).fs.WF (sys.nextNodeId + 1) := by
  have hroot : (new sys).fs.root = sys.nextNodeId := rfl
  have hentry {d c : NodeId} {x : FileName} : (new sys).fs.entryAt d x ≠ some c := by
    simp [new_entryAt]
  constructor
  · simp [new]
  · rw [isDir_eq_inode, new_inodeOf, hroot]
    simp
  · rw [parentOf_eq_inode, new_inodeOf, hroot]
    simp
  · intro id n hn
    rw [new_inodeOf] at hn
    split_ifs at hn with he
    cases hn
    exact ⟨he.symm, he ▸ Nat.lt_succ_self _⟩
  · intro id hid
    have he : id = sys.nextNodeId := Finset.mem_singleton.mp hid
    rw [new_inodeOf, if_pos he]
    rfl
  · exact fun d x c hx => absurd hx hentry
  · exact fun d x c hx => absurd hx hentry
  · exact fun d x c hx => absurd hx hentry
  · exact fun d x y c hx => absurd hx hentry

end MemoryFS

end SandboxVfs
