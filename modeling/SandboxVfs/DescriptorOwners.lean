import SandboxVfs.Library.Acyclic
import SandboxVfs.Orphans
import SandboxVfs.TableLocks

/-! Whose node a descriptor stands for: the hooked calls with the destructors that run in
them, as if the lock of the table were never in the way, and what `fstat` reports. -/

namespace SandboxVfs

open MemoryFS NameGraph

namespace MemoryFS

variable {fs fs' : MemoryFS}

/-- The root, or a node that some directory has an entry for. -/
def Named (fs : MemoryFS) (id : NodeId) : Prop := id = fs.root ∨ ∃ d x, fs.entryAt d x = some id

def LinksNamed (fs : MemoryFS) : Prop :=
  ∀ id n, fs.inodeOf id = some n → n.links ≠ 0 → fs.Named id

theorem Created.linksNamed {d : NodeId} {x : FileName} {n : Inode} (hc : Created fs fs' d x n)
    (hl : fs.LinksNamed) : fs'.LinksNamed := by
  intro id m hm hlinks
  rw [hc.inodeOf] at hm
  split_ifs at hm with hid
  · exact Or.inr ⟨d, x, by rw [hc.entryAt, if_pos ⟨rfl, rfl⟩, hid]⟩
  · rcases hl id m hm hlinks with hroot | ⟨d', x', he⟩
    · exact Or.inl (hroot.trans hc.root.symm)
    · refine Or.inr ⟨d', x', ?_⟩
      rw [hc.entryAt, if_neg, he]
      rintro ⟨rfl, rfl⟩
      rw [hc.absent] at he
      cases he

theorem Removed.linksNamed {d c : NodeId} {x : FileName} (hr : Removed fs fs' d x c)
    (hl : fs.LinksNamed) : fs'.LinksNamed := by
  intro id m hm hlinks
  rw [hr.inodeOf] at hm
  split_ifs at hm with hid
  · obtain ⟨k, -, rfl⟩ := Option.map_eq_some_iff.mp hm
    exact absurd rfl hlinks
  · rcases hl id m hm hlinks with hroot | ⟨d', x', he⟩
    · exact Or.inl (hroot.trans hr.root.symm)
    · refine Or.inr ⟨d', x', ?_⟩
      rw [hr.entryAt, if_neg, he]
      rintro ⟨rfl, rfl⟩
      exact hid (Option.some.inj (he.symm.trans hr.present))

theorem Moved.linksNamed {a b c : NodeId} {x y : FileName} {replaced : Option NodeId}
    (hm : Moved fs fs' a x b y c replaced) (hl : fs.LinksNamed) : fs'.LinksNamed := by
  intro id m hi hlinks
  rw [hm.inodeOf] at hi
  split_ifs at hi with hid hrep
  · exact Or.inr ⟨b, y, by rw [hm.entryAt, if_pos ⟨rfl, rfl⟩, hid]⟩
  · obtain ⟨k, -, rfl⟩ := Option.map_eq_some_iff.mp hi
    exact absurd rfl hlinks
  · rcases hl id m hi hlinks with hroot | ⟨d, z, he⟩
    · exact Or.inl (hroot.trans hm.root.symm)
    · refine Or.inr ⟨d, z, ?_⟩
      rw [hm.entryAt, if_neg, if_neg, he]
      · rintro ⟨rfl, rfl⟩
        exact hid (Option.some.inj (he.symm.trans hm.present))
      · rintro ⟨rfl, rfl⟩
        exact hrep (hm.replaced_eq.symm.trans he)

theorem ModeSet.linksNamed {id : NodeId} {mode : Mode} (hs : ModeSet fs fs' id mode)
    (hl : fs.LinksNamed) : fs'.LinksNamed := by
  intro j m hi hlinks
  have hkept : ∃ k, fs.inodeOf j = some k ∧ k.links = m.links := by
    rw [hs.inodeOf] at hi
    split_ifs at hi
    · obtain ⟨k, hk, rfl⟩ := Option.map_eq_some_iff.mp hi
      exact ⟨k, hk, rfl⟩
    · exact ⟨m, hi, rfl⟩
  obtain ⟨k, hk, he⟩ := hkept
  simpa only [Named, hs.root, hs.entryAt] using hl j k hk (he ▸ hlinks)

theorem Changed.linksNamed (h : Changed fs fs') (hl : fs.LinksNamed) : fs'.LinksNamed := by
  cases h with
  | same he => rwa [he]
  | created parent name n hc => exact hc.linksNamed hl
  | removed parent name c hr => exact hr.linksNamed hl
  | moved a x b y c replaced hm => exact hm.linksNamed hl
  | modeSet id mode hm => exact hm.linksNamed hl

end MemoryFS

variable {ι : Type} [DecidableEq ι]

/-- The fields that `stat_node` sets, over what the kernel has said of the backing file. -/
def Stat.over (own backing : Stat) : Stat :=
  { backing with
    stMode := own.stMode
    stIno := own.stIno
    stNlink := own.stNlink
    stBlksize := own.stBlksize }

namespace Vfs

/-- The hook of `fstat`, which `stat_node` runs again for the backing file of a node;
`none` when the bound is too small. -/
def fstatHook (v : Vfs ι) : Nat → Int → Option (Option Stat)
  | 0, _ => none
  | n + 1, fd =>
    match v.opened fd with
    | none =>
      some (if fd ∈ v.live then some (v.world.sys.kernel.fstat v.world.sys.calls fd) else none)
    | some h =>
      match (v.world.fs h.nodes.index).heap h.node with
      | none => some (some {})
      | some node =>
        let own := (v.world.fs h.nodes.index).statNode v.world.sys node
        match node.kind with
        | .directory _ _ => some (some own)
        | .file b => (fstatHook v n b).map fun st => some (own.over (st.getD {}))

/-- The backing file of a file, for which `stat_node` asks the kernel. -/
def fileBacking (v : Vfs ι) (h : MemoryOpenedFile ι) : Option Int :=
  if (v.world.fs h.nodes.index).isDir h.node then none else some (v.backingFd h)

/-- From a tracked descriptor to the number that `fstat` asks for next. -/
def links (v : Vfs ι) : Edges Int Unit := fun fd _ => (v.opened fd).bind v.fileBacking

variable {v v' : Vfs ι} {fd : Int}

omit [DecidableEq ι] in
theorem link_iff {b : Int} : Link v.links fd b ↔ (v.opened fd).bind v.fileBacking = some b :=
  ⟨fun ⟨_, hx⟩ => hx, fun h => ⟨(), h⟩⟩

omit [DecidableEq ι] in
theorem fstatHook_succ (hv : v.WF) {h : MemoryOpenedFile ι} (ho : v.opened fd = some h) (n : Nat) :
    ∃ node, (v.world.fs h.nodes.index).heap h.node = some node ∧
      v.fstatHook (n + 1) fd =
        match v.fileBacking h with
        | none => some (some ((v.world.fs h.nodes.index).statNode v.world.sys node))
        | some b => (v.fstatHook n b).map fun st =>
          some (((v.world.fs h.nodes.index).statNode v.world.sys node).over (st.getD {})) := by
  obtain ⟨i, hi⟩ := Option.isSome_iff_exists.mp (hv.known_of_opened ho)
  obtain ⟨node, hnode, -⟩ := Option.map_eq_some_iff.mp hi
  refine ⟨node, hnode, ?_⟩
  have hdir : (v.world.fs h.nodes.index).isDir h.node = node.kind.entries?.isSome := by
    simp [isDir, entriesOf, hnode]
  simp only [fstatHook, ho, hnode, fileBacking, hdir, backingFd]
  cases hk : node.kind with
  | file b => simp [NodeKind.entries?, NodeKind.backingFd, hk]
  | directory es b => simp [NodeKind.entries?]

omit [DecidableEq ι] in
theorem links_finite (v : Vfs ι) : {n | ∃ m, Link v.links n m}.Finite := by
  refine (v.fds.keys.toFinset.finite_toSet).subset ?_
  rintro n ⟨m, hm⟩
  obtain ⟨h, ho, -⟩ := Option.bind_eq_some_iff.mp (link_iff.mp hm)
  obtain ⟨info, hi, -⟩ := Option.bind_eq_some_iff.mp ho
  simp only [List.coe_toFinset, Set.mem_ofPred_eq, Std.ExtTreeMap.mem_keys]
  exact Std.ExtTreeMap.mem_iff_isSome_getElem?.mpr (by rw [hi]; rfl)

omit [DecidableEq ι] in
theorem fstatHook_ends (hv : v.WF) (hac : Acyclic v.links) (fd : Int) :
    ∃ n r, v.fstatHook n fd = some r := by
  induction fd using (hac.wellFounded v.links_finite).induction with
  | _ fd ih =>
    cases ho : v.opened fd with
    | none => exact ⟨1, _, by simp only [fstatHook, ho]; rfl⟩
    | some h =>
      obtain ⟨node, -, hsucc⟩ := fstatHook_succ hv ho 0
      cases hb : v.fileBacking h with
      | none =>
        rw [hb] at hsucc
        exact ⟨1, _, hsucc⟩
      | some b =>
        obtain ⟨n, r, hr⟩ := ih b (link_iff.mpr (by rw [ho]; exact hb))
        obtain ⟨node, -, hsucc⟩ := fstatHook_succ hv ho n
        simp only [hb, hr, Option.map_some] at hsucc
        exact ⟨n + 1, _, hsucc⟩

omit [DecidableEq ι] in
/-- On a cycle of backing files `fstat` calls itself for ever. -/
theorem fstatHook_of_cycle (hv : v.WF) (hc : Relation.TransGen (Link v.links) fd fd) (n : Nat) :
    v.fstatHook n fd = none := by
  induction n generalizing fd with
  | zero => rfl
  | succ n ih =>
    obtain ⟨b, hl, hrest⟩ := Relation.TransGen.head'_iff.mp hc
    obtain ⟨h, ho, hb⟩ := Option.bind_eq_some_iff.mp (link_iff.mp hl)
    obtain ⟨node, -, hsucc⟩ := fstatHook_succ hv ho n
    rw [hsucc, hb]
    simp only [ih (Relation.TransGen.tail' hrest hl), Option.map_none]

/-- `fstat` on the descriptor returns and reports the node of `h`, with no link when the
node has no name any more. -/
def Reports (v : Vfs ι) (fd : Int) (h : MemoryOpenedFile ι) : Prop :=
  ∃ n st, v.fstatHook n fd = some (some st) ∧ st.stIno = h.node ∧
    (¬ (v.world.fs h.nodes.index).Named h.node → st.stNlink = 0)

omit [DecidableEq ι] in
theorem reports_iff (hv : v.WF) (hl : ∀ i, (v.world.fs i).LinksNamed) :
    (∀ fd h, v.opened fd = some h → v.Reports fd h) ↔ Acyclic v.links := by
  constructor
  · intro hall fd hc
    obtain ⟨b, hlink, -⟩ := Relation.TransGen.head'_iff.mp hc
    obtain ⟨h, ho, -⟩ := Option.bind_eq_some_iff.mp (link_iff.mp hlink)
    obtain ⟨n, st, hst, -⟩ := hall fd h ho
    rw [fstatHook_of_cycle hv hc] at hst
    cases hst
  · intro hac fd h ho
    obtain ⟨n, r, hr⟩ := fstatHook_ends hv hac fd
    cases n with
    | zero => cases hr
    | succ n =>
      obtain ⟨node, hnode, hsucc⟩ := fstatHook_succ hv ho n
      have hino : (v.world.fs h.nodes.index).inodeOf h.node = some node.inode := by
        rw [inodeOf, hnode]
        rfl
      have hid : node.id = h.node := ((hv.world.fs h.nodes.index).heap_id _ _ hino).1
      have hnlink (hout : ¬ (v.world.fs h.nodes.index).Named h.node) :
          ((v.world.fs h.nodes.index).statNode v.world.sys node).stNlink = 0 := by
        refine (linkCount_eq_zero_iff _ node).mpr ?_
        by_contra hlinks
        exact hout (hl h.nodes.index h.node node.inode hino hlinks)
      have hown := And.intro hid hnlink
      cases hb : v.fileBacking h with
      | none =>
        rw [hb] at hsucc
        exact ⟨n + 1, _, hsucc, hown⟩
      | some b =>
        simp only [hb] at hsucc
        cases hrest : v.fstatHook n b with
        | none =>
          rw [hsucc, hrest] at hr
          cases hr
        | some st =>
          rw [hrest] at hsucc
          exact ⟨n + 1, _, hsucc, hown⟩

def foundAt (v : Vfs ι) (path : PathBuf) : Option (MemoryRef ι × Option NodeId) :=
  let target := v.absolutePathToFs path
  match v.fsAt target.1 with
  | .memory f => some (f, (v.world.fs f.index).resolve target.2.toAbs)
  | .overlay _ => none

def found (v : Vfs ι) : VfsOp → Option (MemoryRef ι × Option NodeId)
  | .openPath path _ _ => v.foundAt (v.resolvePath path)
  | .openat dirfd path _ _ =>
    match path, v.handleOf dirfd with
    | .rel p, some h => some (h.nodes, (v.world.fs h.nodes.index).resolveRelative h.node p)
    | _, _ => (v.resolveOpenatPath dirfd path).bind v.foundAt
  | _ => none

/-- The descriptor that an open returns, -1 for other calls. -/
def answered (v : Vfs ι) : VfsOp → Int
  | .openPath path oflag mode => (v.openPath path oflag mode).1
  | .openat dirfd path oflag mode => (v.openat dirfd path oflag mode).1
  | _ => -1

/-- The node that an open has found, or the one that it has made. -/
def landed (v : Vfs ι) (t : MemoryRef ι × Option NodeId) : MemoryOpenedFile ι :=
  ⟨t.1, t.2.getD v.world.sys.nextNodeId⟩

/-- The open of `existing`, or of a new file at `target`, and the entry for it. -/
def openedAt (v : Vfs ι) (f : MemoryRef ι) (existing : Option NodeId)
    (target : Option (NodeId × FileName)) (flags : Flags) (mode : Mode) (path : PathBuf) :
    Int × Vfs ι :=
  let r := openAt (v.world.state f) existing target flags mode
  (v.setWorld (v.world.put f r.2)).trackOpen (openedFile f r.1) path

/-- An open is refused before it reaches a backend, or it goes to what has been found. -/
def OpensAt (v : Vfs ι) (t : Option (MemoryRef ι × Option NodeId)) (flags : Flags)
    (r : Int × Vfs ι) : Prop :=
  t = none ∧ r = (-1, v) ∨ ∃ f existing target mode path, t = some (f, existing) ∧
    (∀ n, existing = some n → v.Known ⟨f, n⟩) ∧ r = v.openedAt f existing target flags mode path

theorem openVirtual_opensAt (hv : v.Ready) (path : PathBuf) (flags : Flags) (mode : Mode) :
    OpensAt v (v.foundAt path) flags (v.openVirtual path flags mode) := by
  obtain ⟨f, hf⟩ := hv.memory.fsAt (v.absolutePathToFs path).1
  refine Or.inr ⟨f, (v.world.fs f.index).resolve (v.absolutePathToFs path).2.toAbs,
    (v.world.fs f.index).resolveParent (v.absolutePathToFs path).2.toAbs, mode, path, ?_, ?_, ?_⟩
  · simp [foundAt, hf]
  · intro n hn
    exact (hv.wf.world.fs f.index).resolve_known hn
  · unfold RootVFS.openVirtual
    dsimp only
    rw [hf]
    show (v.setWorld (v.world.put f (openNode (v.world.state f) _ flags mode).2)).trackOpen
      (openedFile f (openNode (v.world.state f) _ flags mode).1) path = _
    rw [openNode_eq]
    rfl

theorem openat_opensAt (hv : v.Ready) (dirfd : Int) (path : Path) (flags : Flags) (mode : Mode) :
    OpensAt v (v.found (.openat dirfd path flags mode)) flags (v.openat dirfd path flags mode) := by
  cases path with
  | abs p => exact openVirtual_opensAt hv _ flags mode
  | rel p =>
    cases hh : v.handleOf dirfd with
    | none =>
      rw [RootVFS.openat_of_no_handle hh]
      simp only [found, hh]
      cases v.resolveOpenatPath dirfd (.rel p) with
      | none => exact Or.inl ⟨rfl, rfl⟩
      | some q => exact openVirtual_opensAt hv q flags mode
    | some h =>
      obtain ⟨q, -, he⟩ := RootVFS.openat_of_handle hh p flags mode rfl
      refine Or.inr ⟨h.nodes, (v.world.fs h.nodes.index).resolveRelative h.node p,
        (v.world.fs h.nodes.index).resolveRelativeParent h.node p, mode, q, ?_, ?_, ?_⟩
      · simp only [found, hh]
      · intro n hn
        exact (hv.wf.world.fs h.nodes.index).resolveRelative_known (handle_known hv.wf hh) hn
      · rw [he, openedAt]
        simp only [openNodeRelative_eq]
        rfl

/-- A successful open: the new number stands for the node found or made. A backing file
that was made has a number of its own. -/
structure Lands (v : Vfs ι) (t : MemoryRef ι × Option NodeId) (r : Int × Vfs ι) : Prop where
  known : ∀ n, t.2 = some n → v.Known ⟨t.1, n⟩
  opened : ∀ fd, r.2.opened fd = if fd = r.1 then some (v.landed t) else v.opened fd
  backing : t.2 = none → r.2.backingFd (v.landed t) ∉ v.live ∧ r.2.backingFd (v.landed t) ≠ r.1

theorem openedAt_lands (hv : v.WF) (f : MemoryRef ι) (existing : Option NodeId)
    (hknown : ∀ n, existing = some n → v.Known ⟨f, n⟩)
    (target : Option (NodeId × FileName)) (flags : Flags) (mode : Mode) (path : PathBuf)
    (hfd : 0 ≤ (v.openedAt f existing target flags mode path).1) :
    Lands v (f, existing) (v.openedAt f existing target flags mode path) := by
  unfold openedAt at hfd ⊢
  dsimp only at hfd ⊢
  rw [RootVFS.trackOpen_fst] at hfd
  change 0 ≤ (openAt (v.world.state f) existing target flags mode).1.fd at hfd
  have hnode : (openAt (v.world.state f) existing target flags mode).1.opened =
      some (existing.getD v.world.sys.nextNodeId) := by
    rcases openAt_cases (m := v.world.state f) (hv.world.fs f.index) existing target flags mode with
      ⟨sys', he, -⟩ | ⟨node, rfl, he⟩ | ⟨m', d, x, n, rfl, -, -, hid, -, -, -, -, he⟩
    · rw [he] at hfd
      have hneg : (0 : Int) ≤ -1 := hfd
      omega
    · obtain ⟨sys', -, -, ho, -⟩ := openFound_cases (v.world.state f) node flags
      rw [he] at hfd ⊢
      rw [ho, if_pos hfd]
      rfl
    · obtain ⟨sys', -, -, ho, -⟩ := openFound_cases m' n.id flags
      rw [he] at hfd ⊢
      rw [ho, if_pos hfd, hid]
      rfl
  refine ⟨hknown, fun fd => ?_, fun hex => ?_⟩
  · unfold opened
    rw [RootVFS.trackOpen_getElem?, RootVFS.trackOpen_fst]
    simp only [openedFile, hfd, true_and, hnode, Option.map_some]
    split_ifs <;> rfl
  · have hex' : existing = none := hex
    subst hex'
    obtain ⟨n, hn, hold, hne⟩ := openAt_backing (m := v.world.state f) (hv.world.fs f.index) target
      flags mode hfd
    have hino : ((v.world.put f (openAt (v.world.state f) none target flags mode).2).fs
        f.index).inodeOf v.world.sys.nextNodeId = some n := by
      rw [World.put_fs]
      exact hn
    have hback : backingFd ((v.setWorld (v.world.put f (openAt (v.world.state f) none target flags
        mode).2)).trackOpen (openedFile f (openAt (v.world.state f) none target flags mode).1)
        path).2 (v.landed (f, none)) = n.backingFd := by
      rw [backingFd_eq_inode, RootVFS.trackOpen_world]
      show (((v.world.put f (openAt (v.world.state f) none target flags mode).2).fs
        f.index).inodeOf v.world.sys.nextNodeId).elim (-1) (·.backingFd) = _
      rw [hino]
      rfl
    rw [hback, RootVFS.trackOpen_fst]
    exact ⟨hold, hne⟩

theorem OpensAt.lands (hv : v.WF) {t : Option (MemoryRef ι × Option NodeId)} {flags : Flags}
    {r : Int × Vfs ι} (h : OpensAt v t flags r) (hfd : 0 ≤ r.1) :
    ∃ s, t = some s ∧ Lands v s r := by
  rcases h with ⟨-, rfl⟩ | ⟨f, existing, target, mode, path, rfl, hknown, rfl⟩
  · have hneg : (0 : Int) ≤ -1 := hfd
    omega
  · exact ⟨_, rfl, openedAt_lands hv f existing hknown target flags mode path hfd⟩

def nextFd (v : Vfs ι) : Int := v.world.sys.newFd.1

/-- With these flags an open takes a file that is there already. -/
def takesFile (flags : Flags) : Bool :=
  !(flags &&& (O_CREAT ||| O_EXCL) == O_CREAT ||| O_EXCL) && !flags.has O_DIRECTORY

theorem OpensAt.answer {f : MemoryRef ι} {n : NodeId} {flags : Flags} {r : Int × Vfs ι}
    (h : OpensAt v (some (f, some n)) flags r) (hfile : (v.world.fs f.index).isDir n = false) :
    r.1 = if takesFile flags then v.nextFd else -1 := by
  rcases h with ⟨he, -⟩ | ⟨f', existing, target, mode, path, he, -, rfl⟩
  · cases he
  · cases he
    rw [openedAt, RootVFS.trackOpen_fst]
    show (openAt (v.world.state f) (some n) target flags mode).1.fd = _
    cases hexcl : flags &&& (O_CREAT ||| O_EXCL) == O_CREAT ||| O_EXCL <;>
      cases hdirflag : flags.has O_DIRECTORY <;>
        simp [openAt, openResolvedNode, openFound, takesFile, hexcl, hdirflag, hfile, nextFd,
          World.state]

end Vfs

namespace Vfs

variable {v v' : Vfs ι} {fd : Int}

omit [DecidableEq ι] in
theorem Opening.opened_of_neg {r : Int × Vfs ι} (h : Opening v r) (hneg : ¬ 0 ≤ r.1) (fd : Int) :
    r.2.opened fd = v.opened fd := by
  rcases h with rfl | ⟨result, world, path, hc, ho, rfl⟩
  · rfl
  · rw [RootVFS.trackOpen_fst] at hneg
    unfold opened
    rw [RootVFS.trackOpen_getElem?, if_neg fun hh => hneg hh.1]
    rfl

theorem getdents64_opened (v : Vfs ι) (fd' : Int) (dirpIsNull : Bool) (count : Int) (fd : Int) :
    (v.step (.getdents64 fd' dirpIsNull count)).opened fd = v.opened fd := by
  rcases getdents64_step_cases v fd' dirpIsNull count with he | ⟨info, n, he, hi, -⟩
  · rw [he]
  · rw [he]
    unfold opened
    rw [RootVFS.advance_getElem?]
    split_ifs with hfd
    · rw [hfd, hi]
      rfl
    · rfl

def openFlags : VfsOp → Flags
  | .openPath _ oflag _ | .openat _ _ oflag _ => oflag
  | _ => 0

theorem effect_vfs_cases (hv : v.Ready) (op : VfsOp) :
    OpensAt v (v.found op) (openFlags op) (v.answered op, (v.effect (.vfs op)).1) ∧
        Opening v (v.answered op, (v.effect (.vfs op)).1) ∨
      v.answered op = -1 ∧ v.found op = none ∧
        ∀ fd, (v.effect (.vfs op)).1.opened fd = v.opened fd := by
  have hsame (hfds : (v.effect (.vfs op)).1.fds = v.fds) (fd : Int) :
      (v.effect (.vfs op)).1.opened fd = v.opened fd := by
    unfold opened
    rw [hfds]
  cases op with
  | openPath path oflag mode =>
    exact Or.inl ⟨openVirtual_opensAt hv _ oflag mode, openVirtual_opening hv.wf _ oflag mode⟩
  | openat dirfd path oflag mode =>
    exact Or.inl ⟨openat_opensAt hv dirfd path oflag mode, openat_opening hv.wf dirfd path oflag mode⟩
  | mkdirat dirfd path mode => exact Or.inr ⟨rfl, rfl, hsame (mkdirat_fds v dirfd path mode)⟩
  | unlinkat dirfd path flags => exact Or.inr ⟨rfl, rfl, hsame (unlinkat_fds v dirfd path flags)⟩
  | rename oldPath newPath => exact Or.inr ⟨rfl, rfl, hsame (renameat_fds v _ oldPath _ newPath)⟩
  | renameat oldDirfd oldPath newDirfd newPath =>
    exact Or.inr ⟨rfl, rfl, hsame (renameat_fds v oldDirfd oldPath newDirfd newPath)⟩
  | getdents64 fd' dirpIsNull count =>
    exact Or.inr ⟨rfl, rfl, getdents64_opened v fd' dirpIsNull count⟩
  | _ => exact Or.inr ⟨rfl, rfl, hsame rfl⟩

theorem effect_vfs_lands (hv : v.Ready) {op : VfsOp} (hfd : 0 ≤ v.answered op) :
    ∃ t, v.found op = some t ∧ Lands v t (v.answered op, (v.effect (.vfs op)).1) := by
  rcases effect_vfs_cases hv op with ⟨h, -⟩ | ⟨hneg, -⟩
  · exact h.lands hv.wf hfd
  · omega

theorem effect_vfs_opened_of_neg (hv : v.Ready) {op : VfsOp} (hneg : ¬ 0 ≤ v.answered op)
    (fd : Int) : (v.effect (.vfs op)).1.opened fd = v.opened fd := by
  rcases effect_vfs_cases hv op with ⟨-, h⟩ | ⟨-, -, h⟩
  · exact h.opened_of_neg hneg fd
  · exact h fd

theorem answered_of_found (hv : v.Ready) {op : VfsOp} {f : MemoryRef ι} {n : NodeId}
    (hf : v.found op = some (f, some n)) (hfile : (v.world.fs f.index).isDir n = false) :
    v.answered op = if takesFile (openFlags op) then v.nextFd else -1 := by
  rcases effect_vfs_cases hv op with ⟨h, -⟩ | ⟨-, hnone, -⟩
  · rw [hf] at h
    exact h.answer hfile
  · rw [hf] at hnone
    cases hnone

/-- What the numbers stand for after a call, from what they have stood for: only an open
gives a number a node of its own, the one that it has found or made. -/
def standsFor (v : Vfs ι) (origin : Int → Option (MemoryOpenedFile ι)) :
    HookCall → Int → Option (MemoryOpenedFile ι)
  | .vfs op, fd =>
    if 0 ≤ v.answered op ∧ fd = v.answered op then (v.found op).map v.landed else origin fd
  | .close fd', fd => if fd' ∈ v.live ∧ fd = fd' then none else origin fd
  | .dup oldfd newfd, fd =>
    if (oldfd ∈ v.live ∧ 0 ≤ newfd) ∧ fd = newfd then origin oldfd else origin fd

theorem effect_opened (hv : v.Ready) (c : HookCall) (fd : Int) :
    (v.effect c).1.opened fd = v.standsFor v.opened c fd := by
  cases c with
  | vfs op =>
    by_cases hpos : 0 ≤ v.answered op
    · obtain ⟨t, ht, hl⟩ := effect_vfs_lands hv hpos
      simp only [standsFor, hpos, true_and, ht, Option.map_some]
      exact hl.opened fd
    · simp only [standsFor, hpos, false_and, if_false]
      exact effect_vfs_opened_of_neg hv hpos fd
  | close fd' =>
    by_cases hfd : fd' ∈ v.live
    · rw [effect_close hfd, closed_opened]
      simp [standsFor, hfd]
    · rw [effect_close_of_notMem hfd]
      simp [standsFor, hfd]
  | dup oldfd newfd =>
    by_cases hdup : oldfd ∈ v.live ∧ 0 ≤ newfd
    · rw [effect_dup hdup, duplicated_opened]
      simp [standsFor, hdup]
    · rw [effect_dup_of_not hdup]
      simp only [standsFor, hdup, false_and, if_false]

theorem Known.fileBacking_eq (hv : v.WF) {h : MemoryOpenedFile ι} (hk : v.Known h) (op : VfsOp) :
    (v.effect (.vfs op)).1.fileBacking h = v.fileBacking h := by
  rw [effect_vfs_fst]
  split_ifs with hop
  · obtain ⟨i, i', hi, hi', hkept⟩ := hk.kept hv op
    unfold fileBacking
    rw [hk.backingFd_eq hv op, isDir_eq_inode, isDir_eq_inode, hi, hi']
    simp only [Option.any_some, hkept.isDir]
  · rfl

omit [DecidableEq ι] in
theorem links_eq_setEdge {o : Option (MemoryOpenedFile ι)}
    (ho : ∀ fd', v'.opened fd' = if fd' = fd then o else v.opened fd')
    (hb : ∀ fd' h, v.opened fd' = some h → v'.fileBacking h = v.fileBacking h) :
    v'.links = setEdge v.links fd () (o.bind v'.fileBacking) := by
  funext fd' x
  simp only [links, setEdge, and_true]
  rw [ho]
  by_cases hfd : fd' = fd
  · rw [if_pos hfd, if_pos hfd]
  · rw [if_neg hfd, if_neg hfd]
    cases hh : v.opened fd' with
    | none => rfl
    | some h => exact hb fd' h hh

/-- A node with this handle has a backing file whose number leads to `fd`. -/
def LeadsTo (v : Vfs ι) (h : MemoryOpenedFile ι) (fd : Int) : Prop :=
  ∃ b, v.fileBacking h = some b ∧ Reaches v.links b fd

omit [DecidableEq ι] in
theorem acyclic_setEdge_iff (hac : Acyclic v.links) (o : Option (MemoryOpenedFile ι)) :
    Acyclic (setEdge v.links fd () (o.bind v.fileBacking)) ↔ ¬ ∃ h, o = some h ∧ v.LeadsTo h fd := by
  cases o with
  | none =>
    refine iff_of_true (hac.unset fd ()) ?_
    rintro ⟨h, hh, -⟩
    cases hh
  | some h =>
    rw [Option.bind_some]
    cases hb : v.fileBacking h with
    | none =>
      refine iff_of_true (hac.unset fd ()) ?_
      rintro ⟨h', hh, b, hb', -⟩
      cases hh
      rw [hb] at hb'
      cases hb'
    | some b =>
      rw [hac.set_iff, not_iff_not]
      constructor
      · intro hreach
        exact ⟨h, rfl, b, hb, hreach⟩
      · rintro ⟨h', hh, b', hb', hreach⟩
        cases hh
        cases hb.symm.trans hb'
        exact hreach

/-- The call makes a number stand for a file whose backing file leads back to the number. -/
def ClosesCycle (v : Vfs ι) : HookCall → Prop
  | .vfs op =>
    ∃ f n, v.found op = some (f, some n) ∧ takesFile (openFlags op) = true ∧ 0 ≤ v.nextFd ∧
      v.LeadsTo ⟨f, n⟩ v.nextFd
  | .close _ => False
  | .dup oldfd newfd =>
    (oldfd ∈ v.live ∧ 0 ≤ newfd) ∧ ∃ h, v.opened oldfd = some h ∧ v.LeadsTo h newfd

omit [DecidableEq ι] in
theorem isDir_of_fileBacking {h : MemoryOpenedFile ι} {b : Int} (hb : v.fileBacking h = some b) :
    (v.world.fs h.nodes.index).isDir h.node = false := by
  unfold fileBacking at hb
  split_ifs at hb with hdir
  exact Bool.not_eq_true _ ▸ hdir

omit [DecidableEq ι] in
/-- Nothing leads on from a number without an entry. -/
theorem eq_of_reaches {b : Int} (hb : v.opened b = none) (h : Reaches v.links b fd) : b = fd := by
  rw [reaches_iff_links] at h
  rcases Relation.ReflTransGen.cases_head h with rfl | ⟨m, hl, -⟩
  · rfl
  · have hnone := link_iff.mp hl
    rw [hb] at hnone
    cases hnone

theorem effect_vfs_acyclic_iff (hv : v.Ready) (hac : Acyclic v.links) (op : VfsOp) :
    Acyclic (v.effect (.vfs op)).1.links ↔ ¬ v.ClosesCycle (.vfs op) := by
  have hkept (fd : Int) (h : MemoryOpenedFile ι) (ho : v.opened fd = some h) :
      (v.effect (.vfs op)).1.fileBacking h = v.fileBacking h :=
    (hv.wf.known_of_opened ho).fileBacking_eq hv.wf op
  by_cases hpos : 0 ≤ v.answered op
  · obtain ⟨⟨f, existing⟩, ht, hl⟩ := effect_vfs_lands hv hpos
    rw [links_eq_setEdge hl.opened hkept]
    cases existing with
    | none =>
      obtain ⟨hold, hne⟩ := hl.backing rfl
      refine iff_of_true ?_ ?_
      · rw [Option.bind_some, fileBacking]
        split_ifs
        · exact hac.unset _ ()
        · exact hac.set_iff.mpr fun hreach => hne (eq_of_reaches (hv.opened_eq_none hold) hreach)
      · rintro ⟨f', n, hf, -⟩
        rw [ht] at hf
        cases hf
    | some n =>
      have hsame : (some (v.landed (f, some n))).bind (v.effect (.vfs op)).1.fileBacking =
          (some ⟨f, n⟩).bind v.fileBacking := (hl.known n rfl).fileBacking_eq hv.wf op
      rw [hsame, acyclic_setEdge_iff hac, not_iff_not]
      constructor
      · rintro ⟨h, hh, hlead⟩
        cases hh
        obtain ⟨b, hb, -⟩ := id hlead
        have hans := answered_of_found hv ht (isDir_of_fileBacking hb)
        split_ifs at hans with htakes
        · rw [hans] at hlead hpos
          exact ⟨f, n, ht, htakes, hpos, hlead⟩
        · omega
      · rintro ⟨f', n', hf, htakes, hnext, hlead⟩
        rw [ht] at hf
        cases hf
        obtain ⟨b, hb, -⟩ := id hlead
        have hans := answered_of_found hv ht (isDir_of_fileBacking hb)
        rw [if_pos htakes] at hans
        exact ⟨⟨f, n⟩, rfl, hans ▸ hlead⟩
  · refine iff_of_true ?_ ?_
    · have hsame : (v.effect (.vfs op)).1.links = v.links := by
        funext fd x
        unfold links
        rw [effect_vfs_opened_of_neg hv hpos]
        cases hh : v.opened fd with
        | none => rfl
        | some h => exact hkept fd h hh
      rwa [hsame]
    · rintro ⟨f, n, hf, htakes, hnext, b, hb, -⟩
      have hans := answered_of_found hv hf (isDir_of_fileBacking hb)
      rw [if_pos htakes] at hans
      exact hpos (hans ▸ hnext)

theorem effect_acyclic_iff (hv : v.Ready) (hac : Acyclic v.links) (c : HookCall) :
    Acyclic (v.effect c).1.links ↔ ¬ v.ClosesCycle c := by
  cases c with
  | vfs op => exact effect_vfs_acyclic_iff hv hac op
  | close fd =>
    refine iff_of_true ?_ fun hh => hh
    by_cases hfd : fd ∈ v.live
    · rw [effect_close hfd, links_eq_setEdge (closed_opened v fd) fun _ _ _ => rfl]
      exact hac.unset fd ()
    · rwa [effect_close_of_notMem hfd]
  | dup oldfd newfd =>
    by_cases hdup : oldfd ∈ v.live ∧ 0 ≤ newfd
    · have hback (h : MemoryOpenedFile ι) :
          (v.duplicated oldfd newfd).fileBacking h = v.fileBacking h := by
        unfold fileBacking
        rw [duplicated_backingFd, duplicated_world]
        rfl
      rw [effect_dup hdup,
        links_eq_setEdge (duplicated_opened v oldfd newfd) fun _ h _ => hback h,
        show (v.duplicated oldfd newfd).fileBacking = v.fileBacking from funext hback,
        acyclic_setEdge_iff hac, not_iff_not]
      exact (and_iff_right hdup).symm
    · rw [effect_dup_of_not hdup]
      exact iff_of_true hac fun hh => hdup hh.1

/-- The call drops a node, and the number of its backing file is that of a descriptor. -/
def TakesDescriptor (v : Vfs ι) : HookCall → Prop
  | .vfs op =>
    ∃ h, v.removed op = some h ∧ (∀ fd, v.opened fd ≠ some h) ∧ v.fds[v.backingFd h]? ≠ none
  | .close fd => fd ∈ v.live ∧ ∃ b, v.LastEntry fd b ∧ b ≠ fd ∧ v.fds[b]? ≠ none
  | .dup oldfd newfd =>
    (oldfd ∈ v.live ∧ 0 ≤ newfd) ∧ oldfd ≠ newfd ∧
      ∃ b, v.LastEntry newfd b ∧ v.fds[if b = newfd then oldfd else b]? ≠ none

theorem dropsTracked_iff (hv : v.Ready) (c : HookCall) :
    DropsTracked (v.effect c) ↔ v.TakesDescriptor c := by
  cases c with
  | vfs op =>
    unfold DropsTracked
    simp only [drops_vfs_iff hv]
    constructor
    · rintro ⟨b, ⟨h, hr, hno, rfl⟩, hb⟩
      rw [(effect_of_removed hr).1, (removed_spec hv.wf hr).2.2.2] at hb
      exact ⟨h, hr, hno, hb⟩
    · rintro ⟨h, hr, hno, hb⟩
      refine ⟨_, ⟨h, hr, hno, rfl⟩, ?_⟩
      rwa [(effect_of_removed hr).1, (removed_spec hv.wf hr).2.2.2]
  | close fd =>
    by_cases hfd : fd ∈ v.live
    · simp only [DropsTracked, drops_close_iff hfd, TakesDescriptor, hfd, true_and]
      refine exists_congr fun b => and_congr_right fun _ => ?_
      rw [effect_close hfd, closed_fds]
      split_ifs with hb <;> simp [hb]
    · refine iff_of_false ?_ fun hh => hfd hh.1
      rintro ⟨b, ⟨h, hh, -⟩, -⟩
      rw [effect_close_of_notMem hfd] at hh
      cases hh
  | dup oldfd newfd =>
    by_cases hdup : oldfd ∈ v.live ∧ 0 ≤ newfd
    · simp only [DropsTracked, drops_dup_iff hdup, TakesDescriptor, hdup, and_self, true_and,
        and_assoc, exists_and_left]
      refine and_congr_right fun _ => exists_congr fun b => and_congr_right fun _ => ?_
      rw [effect_dup hdup, duplicated_fds]
      split_ifs <;> rfl
    · refine iff_of_false ?_ fun hh => hdup hh.1
      rintro ⟨b, ⟨h, hh, -⟩, -⟩
      rw [effect_dup_of_not hdup] at hh
      cases hh

end Vfs

/-- A process, with the node that the open has found or made for each of its descriptors. -/
structure Owned (ι : Type) where
  vfs : Vfs ι
  origin : Int → Option (MemoryOpenedFile ι)

namespace Owned

open Vfs

def step (s : Owned ι) (c : HookCall) : Owned ι :=
  ⟨s.vfs.hookStep c, s.vfs.standsFor s.origin c⟩

variable {s : Owned ι}

/-- The table holds the numbers that descend from an open, each with the node of that
open, and `fstat` tells the node from all others. -/
structure Exact (s : Owned ι) : Prop where
  entries : ∀ fd : Int, s.vfs.fds[fd]?.map (·.opened) = (s.origin fd).map some
  live : ∀ fd h, s.origin fd = some h → fd ∈ s.vfs.live
  stat : ∀ fd h, s.origin fd = some h → s.vfs.Reports fd h
  alone : ∀ fd h, s.origin fd = some h → ∀ i id node, (s.vfs.world.fs i).heap id = some node →
    ((s.vfs.world.fs i).statNode s.vfs.world.sys node).stIno = h.node →
      i = h.nodes.index ∧ id = h.node

structure Inv (s : Owned ι) : Prop where
  ready : s.vfs.Ready
  links : ∀ i, (s.vfs.world.fs i).LinksNamed

theorem hookStep_fs (v : Vfs ι) (c : HookCall) :
    (v.hookStep c).world.fs = (v.effect c).1.world.fs := by
  unfold hookStep
  rcases discard_cases (closeHook (v.effect c).1.live.card) (v.effect c) with
    ⟨he, -⟩ | ⟨b, -, -, he⟩
  · rw [he]
  · rw [he]
    exact (closeHook_closes _ b _).fs

theorem Inv.step (hs : s.Inv) (c : HookCall) : (s.step c).Inv := by
  refine ⟨hookStep_ready hs.ready c, ?_⟩
  show ∀ i, ((s.vfs.hookStep c).world.fs i).LinksNamed
  rw [hookStep_fs]
  cases c with
  | vfs op =>
    rw [effect_vfs_fst]
    split_ifs
    · obtain ⟨w, hc, he⟩ := (step_spec hs.ready.wf op).changes
      rw [he]
      exact fun i => hc.fs_inv (fun _ _ => Changed.linksNamed) (hs.links i)
    · exact hs.links
  | close fd =>
    by_cases hfd : fd ∈ s.vfs.live
    · rw [effect_close hfd]
      exact hs.links
    · rw [effect_close_of_notMem hfd]
      exact hs.links
  | dup oldfd newfd =>
    by_cases hdup : oldfd ∈ s.vfs.live ∧ 0 ≤ newfd
    · rw [effect_dup hdup, duplicated_world]
      exact hs.links
    · rw [effect_dup_of_not hdup]
      exact hs.links

omit [DecidableEq ι] in
theorem entry_eq (hv : s.vfs.WF) (fd : Int) :
    s.vfs.fds[fd]?.map (·.opened) = (s.vfs.opened fd).map some := by
  cases hi : s.vfs.fds[fd]? with
  | none =>
    rw [opened, hi]
    rfl
  | some info =>
    obtain ⟨h, hh, -⟩ := hv.handle fd info hi
    simp [opened, hi, hh]

omit [DecidableEq ι] in
theorem exact_iff (hs : s.Inv) :
    s.Exact ↔ (∀ fd, s.vfs.opened fd = s.origin fd) ∧ Acyclic s.vfs.links := by
  have hreports := reports_iff hs.ready.wf hs.links
  constructor
  · intro he
    have ho (fd : Int) : s.vfs.opened fd = s.origin fd := by
      refine Option.map_injective (Option.some_injective _) ?_
      rw [← entry_eq hs.ready.wf, he.entries]
    refine ⟨ho, hreports.mp fun fd h hh => he.stat fd h ?_⟩
    rw [← ho, hh]
  · rintro ⟨ho, hac⟩
    refine ⟨fun fd => ?_, fun fd h hh => ?_, fun fd h hh => ?_, fun fd h hh i id node hn he => ?_⟩
    · rw [entry_eq hs.ready.wf, ho]
    · by_contra hfd
      rw [← ho, hs.ready.opened_eq_none hfd] at hh
      cases hh
    · exact hreports.mpr hac fd h (by rw [ho, hh])
    · have hino : (s.vfs.world.fs i).inodeOf id = some node.inode := by
        rw [MemoryFS.inodeOf, hn]
        rfl
      have hid : id = h.node :=
        ((hs.ready.wf.world.fs i).heap_id id _ hino).1.symm.trans he
      subst hid
      have hopened : s.vfs.opened fd = some h := by rw [ho, hh]
      have hknown : s.vfs.Known h := hs.ready.wf.known_of_opened hopened
      refine ⟨hs.ready.wf.world.apart i h.nodes.index h.node ?_ ?_, rfl⟩
      · rw [hino]
        exact Option.some_ne_none _
      · exact Option.isSome_iff_ne_none.mp hknown

theorem step_exact_iff (hs : s.Inv) (he : s.Exact) (c : HookCall) :
    (s.step c).Exact ↔ ¬ s.vfs.TakesDescriptor c ∧ ¬ s.vfs.ClosesCycle c := by
  obtain ⟨ho, hac⟩ := (exact_iff hs).mp he
  have hstands (fd : Int) : (s.vfs.effect c).1.opened fd = (s.step c).origin fd := by
    rw [effect_opened hs.ready c fd, show s.vfs.opened = s.origin from funext ho]
    rfl
  rw [exact_iff (hs.step c), ← dropsTracked_iff hs.ready, ← effect_acyclic_iff hs.ready hac]
  rcases hookStep_cases hs.ready c with ⟨b, hd, hb, hgone⟩ | ⟨hno, hfs, hfds⟩
  · refine iff_of_false ?_ fun hh => hh.1 ⟨b, hd, hb⟩
    rintro ⟨hopened, -⟩
    -- the entry that a destructor has taken
    have hnone : (s.step c).vfs.opened b = none := by
      show ((s.vfs.hookStep c).fds[b]?).bind (·.opened) = none
      rw [hgone]
      rfl
    have hmap := entry_eq (s := ⟨(s.vfs.effect c).1, s.origin⟩) (hs.ready.effect c).wf b
    rw [hstands, ← hopened, hnone] at hmap
    exact hb (Option.map_eq_none_iff.mp hmap)
  · have hopened (fd : Int) : (s.step c).vfs.opened fd = (s.vfs.effect c).1.opened fd := by
      show ((s.vfs.hookStep c).fds[fd]?).bind (·.opened) = _
      rw [hfds]
      rfl
    have hlinks : (s.step c).vfs.links = (s.vfs.effect c).1.links := by
      funext fd x
      have hback : (s.step c).vfs.fileBacking = (s.vfs.effect c).1.fileBacking := by
        funext h
        show (s.vfs.hookStep c).fileBacking h = _
        simp only [fileBacking, backingFd, hfs]
      simp only [links, hopened, hback]
    rw [hlinks]
    refine and_congr_left fun _ => iff_of_true (fun fd => ?_) hno
    rw [hopened, hstands]

/-- In every run of hooked calls the table is exact throughout, as long as no node is
dropped whose backing number has come to be that of a descriptor, and no descriptor is
made for a file whose backing number leads back to it. -/
theorem run_exact_iff {v : Vfs ι} (hv : v.Ready) (hl : ∀ i, (v.world.fs i).LinksNamed)
    (hfds : ∀ fd : Int, v.fds[fd]? = none) (calls : List HookCall) :
    (∀ l, l <+: calls → Exact (l.foldl step ⟨v, fun _ => none⟩)) ↔
      Runs.EveryStep step
        (fun s c => ¬ s.vfs.TakesDescriptor c ∧ ¬ s.vfs.ClosesCycle c) ⟨v, fun _ => none⟩ calls := by
  have hstart : Inv ⟨v, fun _ => none⟩ := ⟨hv, hl⟩
  have hinv : ∀ (s : Owned ι) (c : HookCall), s.Inv → (step s c).Inv := fun _ c hs => hs.step c
  have hstep : ∀ (s : Owned ι) (c : HookCall), s.Inv → s.Exact → ((step s c).Exact ↔
      ¬ s.vfs.TakesDescriptor c ∧ ¬ s.vfs.ClosesCycle c) := fun _ c hs he => step_exact_iff hs he c
  refine Runs.forall_prefix_iff hinv hstep hstart ?_ calls
  rw [exact_iff hstart]
  have ho (fd : Int) : v.opened fd = none := by
    rw [opened, hfds]
    rfl
  refine ⟨ho, fun fd hc => ?_⟩
  obtain ⟨m, hlink, -⟩ := Relation.TransGen.head'_iff.mp hc
  have hm := link_iff.mp hlink
  rw [ho] at hm
  cases hm

def started : Owned Unit := ⟨Vfs.newMemory (fun _ => 0) .boot, fun _ => none⟩

theorem newMemory_linksNamed (sys : Sys) (i : Unit) :
    ((Vfs.newMemory (fun _ => 0) sys).world.fs i).LinksNamed := by
  intro id n hn _
  left
  show id = sys.nextNodeId
  by_contra hne
  have hn' : (Function.update (fun _ => none) sys.nextNodeId _ id).map Node.inode = some n := hn
  rw [Function.update_of_ne hne] at hn'
  cases hn'

open Process (createF unlinkF)

/-- The name goes, and a copy outlives the descriptor. -/
theorem exact_createF : Exact ([createF, .dup 5 6, unlinkF, .close 5].foldl step started) := by
  refine (run_exact_iff (Process.newMemory_ready _ _) (newMemory_linksNamed .boot) (fun _ => rfl)
    [createF, .dup 5 6, unlinkF, .close 5]).mpr ?_ _ (List.prefix_refl _)
  have hnew : ((started.vfs.found (.openPath (.abs (PathBuf.toAbs [.f])) O_CREAT 0o644)).bind
      Prod.snd) = none := by decide +kernel
  have hfree : ([createF].foldl step started).vfs.opened 6 = none := by decide +kernel
  have hback : (([createF].foldl step started).vfs.opened 5).bind
      ([createF].foldl step started).vfs.fileBacking = some 4 := by decide +kernel
  have hmemfd : ([createF].foldl step started).vfs.opened 4 = none := by decide +kernel
  have hopen : ([createF, .dup 5 6].foldl step started).vfs.opened 5 =
      ([createF, .dup 5 6].foldl step started).vfs.removed
        (.unlink (.abs (PathBuf.toAbs [.f]))) := by decide +kernel
  have hcopy : ([createF, .dup 5 6, unlinkF].foldl step started).vfs.opened 6 =
      ([createF, .dup 5 6, unlinkF].foldl step started).vfs.opened 5 := by decide +kernel
  refine ⟨⟨?_, ?_⟩, ⟨?_, ?_⟩, ⟨?_, ?_⟩, ⟨?_, fun hh => hh⟩, trivial⟩
  · rintro ⟨h, hr, -⟩
    cases hr
  · rintro ⟨f, n, hf, -⟩
    cases hnew.symm.trans (congrArg (Option.bind · Prod.snd) hf)
  · rintro ⟨-, -, b, ⟨h, ho, -⟩, -⟩
    cases hfree.symm.trans ho
  · rintro ⟨-, h, ho, b, hb, hreach⟩
    have ho' : ([createF].foldl step started).vfs.opened 5 = some h := ho
    rw [ho'] at hback
    obtain rfl : b = 4 := Option.some.inj (hb.symm.trans hback)
    exact absurd (eq_of_reaches hmemfd hreach) (by decide)
  · rintro ⟨h, hr, hno, -⟩
    exact hno 5 (hopen.trans hr)
  · rintro ⟨f, n, hf, -⟩
    cases hf
  · rintro ⟨-, b, ⟨h, ho, -, hother, -⟩, -⟩
    exact hother 6 (by decide) (hcopy.trans ho)

theorem started_inv : started.Inv := ⟨Process.newMemory_ready _ _, newMemory_linksNamed .boot⟩

/-- The number of the backing file is closed, and then made a copy of the descriptor of
that file. `fstat` asks for itself. -/
theorem not_exact_copied : ¬ Exact ([createF, .close 4, .dup 5 4].foldl step started) := by
  intro he
  have hinv : Inv ([createF, .close 4, .dup 5 4].foldl step started) :=
    ((started_inv.step createF).step (.close 4)).step (.dup 5 4)
  have hlink : Link (([createF, .close 4, .dup 5 4].foldl step started).vfs.links) 4 4 :=
    link_iff.mpr (by decide +kernel)
  obtain ⟨-, hac⟩ := (exact_iff hinv).mp he
  exact hac 4 (.single hlink)

end Owned

end SandboxVfs
