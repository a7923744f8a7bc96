import SandboxVfs.KeptByPath
import SandboxVfs.NamespaceTree

/-! Nodes that no path leads to. A removed directory that is still open can be created
in, and what is made there is in the node map without a path. -/

namespace SandboxVfs

open NameGraph

namespace MemoryFS

variable {fs fs' : MemoryFS} {next : NodeId}

/-- The node map, the paths and the link counts agree on which nodes there are. -/
structure NoOrphans (fs : MemoryFS) : Prop where
  in_map : ∀ id, id ∈ fs.nodes ↔ Reaches fs.entryAt fs.root id
  linked : ∀ id n, fs.heap id = some n → (n.links ≠ 0 ↔ Reaches fs.entryAt fs.root id)
  nlink : ∀ id n sys, fs.heap id = some n →
    ((fs.statNode sys n).stNlink = 0 ↔ ¬ Reaches fs.entryAt fs.root id)

def AllReached (fs : MemoryFS) : Prop := ∀ id ∈ fs.nodes, ∃ p, fs.resolveNames p = some id

/-- A node has a link as long as it is in the node map. -/
def LinksInMap (fs : MemoryFS) : Prop :=
  ∀ id n, fs.inodeOf id = some n → (n.links ≠ 0 ↔ id ∈ fs.nodes)

theorem linkCount_eq_zero_iff (fs : MemoryFS) (n : Node) : fs.linkCount n = 0 ↔ n.links = 0 := by
  unfold linkCount
  split_ifs with h
  · simp [h]
  · refine iff_of_false ?_ h
    cases n.kind with
    | file fd => simp
    | directory es fd => simp

theorem WF.noOrphans_iff (h : fs.WF next) : fs.NoOrphans ↔ fs.AllReached ∧ fs.LinksInMap := by
  have hreach (id : NodeId) : Reaches fs.entryAt fs.root id ↔ ∃ p, fs.resolveNames p = some id := by
    simp only [Reaches, h.resolveNames_eq]
  constructor
  · intro ho
    refine ⟨fun id hid => (hreach id).mp ((ho.in_map id).mp hid), ?_⟩
    intro id n hn
    obtain ⟨m, hm, rfl⟩ := Option.map_eq_some_iff.mp hn
    rw [ho.in_map]
    exact ho.linked id m hm
  · rintro ⟨ha, hl⟩
    have hmap (id : NodeId) : id ∈ fs.nodes ↔ Reaches fs.entryAt fs.root id := by
      rw [hreach]
      exact ⟨ha id, fun ⟨p, hp⟩ => h.resolveNames_mem hp⟩
    have hlinked (id : NodeId) (n : Node) (hn : fs.heap id = some n) :
        n.links ≠ 0 ↔ Reaches fs.entryAt fs.root id := by
      rw [← hmap]
      exact hl id n.inode (by rw [inodeOf, hn]; rfl)
    refine ⟨hmap, hlinked, ?_⟩
    intro id n sys hn
    rw [← hlinked id n hn, not_not]
    exact linkCount_eq_zero_iff fs n

theorem Created.linksInMap {d : NodeId} {x : FileName} {n : Inode} (hc : Created fs fs' d x n)
    (hl : fs.LinksInMap) : fs'.LinksInMap := by
  intro id m hm
  rw [hc.inodeOf] at hm
  rw [hc.nodes, Finset.mem_insert]
  split_ifs at hm with hid
  · cases hm
    exact iff_of_true (by rw [hc.links_eq]; decide) (Or.inl hid)
  · rw [hl id m hm]
    simp [hid]

theorem Removed.linksInMap {d c : NodeId} {x : FileName} (hr : Removed fs fs' d x c)
    (hl : fs.LinksInMap) : fs'.LinksInMap := by
  intro id m hm
  rw [hr.inodeOf] at hm
  rw [hr.nodes, Finset.mem_erase]
  split_ifs at hm with hid
  · obtain ⟨k, -, rfl⟩ := Option.map_eq_some_iff.mp hm
    simp [Inode.dropped, hid]
  · rw [hl id m hm]
    simp [hid]

theorem Moved.linksInMap {a b c : NodeId} {x y : FileName} {replaced : Option NodeId}
    (hm : Moved fs fs' a x b y c replaced) (hl : fs.LinksInMap) : fs'.LinksInMap := by
  have hmem (id : NodeId) : id ∈ fs'.nodes ↔ id ∈ fs.nodes ∧ replaced ≠ some id := by
    rw [hm.nodes]
    cases replaced with
    | none => simp
    | some r => simp [Finset.mem_erase, and_comm, eq_comm]
  intro id m hi
  rw [hm.inodeOf] at hi
  rw [hmem]
  split_ifs at hi with hid hrep
  · obtain ⟨k, hk, rfl⟩ := Option.map_eq_some_iff.mp hi
    have hne : replaced ≠ some id := hid ▸ hm.ne
    simpa [hne] using hl id k hk
  · obtain ⟨k, -, rfl⟩ := Option.map_eq_some_iff.mp hi
    simp [Inode.dropped, hrep]
  · rw [hl id m hi]
    simp [hrep]

theorem ModeSet.linksInMap {id : NodeId} {mode : Mode} (hs : ModeSet fs fs' id mode)
    (hl : fs.LinksInMap) : fs'.LinksInMap := by
  intro j m hi
  rw [hs.inodeOf] at hi
  rw [hs.nodes]
  split_ifs at hi
  · obtain ⟨k, hk, rfl⟩ := Option.map_eq_some_iff.mp hi
    exact hl j k hk
  · exact hl j m hi

theorem Changed.linksInMap (h : Changed fs fs') (hl : fs.LinksInMap) : fs'.LinksInMap := by
  cases h with
  | same he => rwa [he]
  | created parent name n hc => exact hc.linksInMap hl
  | removed parent name c hr => exact hr.linksInMap hl
  | moved a x b y c replaced hm => exact hm.linksInMap hl
  | modeSet id mode hm => exact hm.linksInMap hl

theorem Created.allReached_iff (h : fs.WF next) {d : NodeId} {x : FileName} {n : Inode}
    (hc : Created fs fs' d x n) (hid : n.id = next) (ha : fs.AllReached) :
    fs'.AllReached ↔ ∃ p, fs.resolveNames p = some d := by
  constructor
  · intro ha'
    by_contra hp
    obtain ⟨q, hq⟩ := ha' n.id (by rw [hc.nodes]; exact Finset.mem_insert_self _ _)
    rw [hc.resolveNames_detached h hid fun p hd => hp ⟨p, hd⟩] at hq
    exact h.not_mem_fresh hid.ge (h.resolveNames_mem hq)
  · rintro ⟨p, hp⟩ id hmem
    have hr := hc.resolveNames h hid hp
    rw [hc.nodes, Finset.mem_insert] at hmem
    rcases hmem with rfl | hmem
    · exact ⟨p ++ [x], by rw [hr, addPath, if_pos rfl]⟩
    · obtain ⟨q, hq⟩ := ha id hmem
      refine ⟨q, ?_⟩
      rw [hr, addPath, if_neg, hq]
      rintro rfl
      rw [h.resolveNames_concat, hp, Option.bind_some, hc.absent] at hq
      cases hq

theorem resolveParent_reached {path : AbsPath} {d : NodeId} {x : FileName}
    (h : fs.resolveParent path = some (d, x)) : ∃ q, fs.resolveNames q = some d := by
  obtain ⟨q, -, ht⟩ := Option.bind_eq_some_iff.mp h
  obtain ⟨d', hd, ht⟩ := Option.bind_eq_some_iff.mp ht
  obtain ⟨y, -, he⟩ := Option.bind_eq_some_iff.mp ht
  cases he
  exact ⟨q.names, hd⟩

/-- A name can be made in a directory that no path leads to. -/
def CanCreateDetached (m : MemoryState) (target : Option (NodeId × FileName)) : Prop :=
  ∃ d x, target = some (d, x) ∧ (∀ p, m.fs.resolveNames p ≠ some d) ∧ m.fs.isDir d = true ∧
    m.fs.entryAt d x = none ∧ 0 ≤ m.sys.kernel.answer m.sys.calls m.sys.live

theorem not_canCreateDetached_of_path (m : MemoryState) (path : AbsPath) :
    ¬ CanCreateDetached m (m.fs.resolveParent path) := by
  rintro ⟨d, x, ht, hp, -⟩
  obtain ⟨q, hq⟩ := resolveParent_reached ht
  exact hp q hq

theorem createAt_allReached_iff {m : MemoryState} (h : m.fs.WF m.sys.nextNodeId)
    (ha : m.fs.AllReached) (target : Option (NodeId × FileName)) (kind : VfsEntryKind)
    (mode : Mode) :
    (createAt m target kind mode).2.fs.AllReached ↔ ¬ CanCreateDetached m target := by
  rcases createAt_cases h target kind mode with
    ⟨sys', he, -⟩ | ⟨m', d, x, n, he, rfl, hid, -, -, -, hc⟩
  · rw [he]
    refine iff_of_true ha ?_
    rintro ⟨d, x, rfl, -, hd, hx, hk⟩
    have hs := (createNodeInDir_isSome_iff m d x kind mode).mpr ⟨hd, hx, hk⟩
    have hn : (createNodeInDir m d x kind mode).1 = none := congrArg Prod.fst he
    rw [hn] at hs
    cases hs
  · rw [he, hc.allReached_iff h hid ha, ← not_iff_not, not_not]
    have hs : (createNodeInDir m d x kind mode).1.isSome = true := by
      have hn : (createNodeInDir m d x kind mode).1 = some n.id := congrArg Prod.fst he
      rw [hn]
      rfl
    obtain ⟨hd, hx, hk⟩ := (createNodeInDir_isSome_iff m d x kind mode).mp hs
    constructor
    · intro hp
      exact ⟨d, x, rfl, not_exists.mp hp, hd, hx, hk⟩
    · rintro ⟨d', x', he', hp, -⟩
      cases he'
      exact not_exists.mpr hp

theorem openAt_allReached_iff {m : MemoryState} (h : m.fs.WF m.sys.nextNodeId)
    (ha : m.fs.AllReached) (existing : Option NodeId) (target : Option (NodeId × FileName))
    (flags : Flags) (mode : Mode) :
    (openAt m existing target flags mode).2.fs.AllReached ↔
      ¬ (existing = none ∧ flags.has O_CREAT = true ∧ CanCreateDetached m target) := by
  cases existing with
  | some node =>
    rw [openAt_fs_some]
    refine iff_of_true ha ?_
    rintro ⟨he, -⟩
    cases he
  | none =>
    rw [openAt_fs_none]
    split_ifs with hcreat
    · rw [createAt_allReached_iff h ha]
      simp [hcreat]
    · refine iff_of_true ha ?_
      rintro ⟨-, hf, -⟩
      exact hcreat hf

theorem removeNodeAt_allReached (h : fs.WF next) (ha : fs.AllReached) (path : AbsPath)
    (kind : VfsEntryKind) : (fs.removeNodeAt path kind).2.AllReached := by
  rcases removeNodeAt_cases h path kind with he | ⟨d, x, c, hd, hk, -, hr⟩
  · rwa [he]
  · obtain ⟨q, hq⟩ := resolveParent_reached hd
    have hc : fs.resolveNames (q ++ [x]) = some c := by
      rw [h.resolveNames_concat, hq]
      exact hr.present
    intro id hid
    rw [hr.nodes, Finset.mem_erase] at hid
    obtain ⟨p, hp⟩ := ha id hid.2
    refine ⟨p, ?_⟩
    rw [hr.resolveNames h hq, erasePath, if_neg, hp]
    -- the removed node has nothing below it
    rintro ⟨s, rfl⟩
    have hnil := h.eq_nil_of_childless hc (childless_of_kindMatches hk) hp
    subst hnil
    rw [List.append_nil, hc] at hp
    exact hid.1 (Option.some.inj hp).symm

theorem renameNodeAt_allReached (h : fs.WF next) (ha : fs.AllReached) {old new : PathBuf}
    (hr : fs.renameNodeAt old.toAbs new.toAbs = some fs') : fs'.AllReached := by
  by_cases hne : old = new
  · subst hne
    rw [renameNodeAt_same] at hr
    split_ifs at hr
    cases hr
    exact ha
  · obtain ⟨h₁, h₂⟩ := h.not_prefix_of_renamed hne hr
    obtain ⟨pa, x, a, pb, y, b, c, replaced, rfl, rfl, -, hb, hc, hm, hcan, -, hp⟩ :=
      renameNodeAt_toAbs h hne hr
    have hnew : fs.resolveNames (pb ++ [y]) = replaced := by
      rw [h.resolveNames_concat, hb]
      exact hm.replaced_eq
    intro id hid
    have hmem : id ∈ fs.nodes ∧ replaced ≠ some id := by
      rw [hm.nodes] at hid
      cases replaced with
      | none => exact ⟨hid, by simp⟩
      | some r =>
        obtain ⟨hne, hid⟩ := Finset.mem_erase.mp hid
        exact ⟨hid, fun he => hne (Option.some.inj he).symm⟩
    obtain ⟨q, hq⟩ := ha id hmem.1
    by_cases hqo : pa ++ [x] <+: q
    · obtain ⟨s, rfl⟩ := hqo
      exact ⟨pb ++ [y] ++ s, by rw [hp, movePath_below, hq]⟩
    · refine ⟨q, ?_⟩
      rw [hp, movePath, if_neg, if_neg hqo, hq]
      -- what was replaced has nothing below it
      rintro ⟨s, rfl⟩
      obtain ⟨r, hr', -⟩ := h.resolveNames_of_append hq
      have hrep : replaced = some r := hnew.symm.trans hr'
      have hnil := h.eq_nil_of_childless hr' (childless_of_canReplace (hcan r hrep)) hq
      subst hnil
      rw [List.append_nil, hnew] at hq
      exact hmem.2 hq

theorem chmod_allReached (h : fs.WF next) (ha : fs.AllReached) {path : AbsPath} {mode : Mode}
    (hc : fs.chmod path mode = some fs') : fs'.AllReached := by
  obtain ⟨id, -, hs⟩ := chmod_cases hc
  intro j hj
  rw [hs.nodes] at hj
  rw [hs.resolveNames h]
  exact ha j hj

theorem allReached_keptByPath : KeptByPath AllReached := by
  constructor
  · intro m path kind mode h ha
    rw [createNode_eq, createAt_allReached_iff h ha]
    exact not_canCreateDetached_of_path m path
  · intro fs next path kind h ha
    exact removeNodeAt_allReached h ha path kind
  · intro fs next old new fs' h ha hr
    exact renameNodeAt_allReached h ha hr
  · intro fs next path mode fs' h ha hc
    exact chmod_allReached h ha hc

end MemoryFS

namespace World

variable {ι : Type} [DecidableEq ι] {w : World ι}

def AllReached (w : World ι) : Prop := ∀ i, (w.fs i).AllReached

theorem put_allReached_iff (ha : w.AllReached) (f : MemoryRef ι) (m : MemoryState) :
    (w.put f m).AllReached ↔ m.fs.AllReached := by
  constructor
  · intro hh
    have hf := hh f.index
    rwa [put_fs] at hf
  · intro hf
    exact KeptByPath.of_fs ha f (by rwa [put_fs]) fun j hj => put_fs_ne w f m hj

end World

namespace Vfs

open MemoryFS

variable {ι : Type} [DecidableEq ι] {v : Vfs ι}

/-- The call makes a file or a directory in an opened directory that no path leads to
any more. -/
def CreatesDetached (v : Vfs ι) : VfsOp → Prop
  | .openat dirfd (.rel p) flags _ => ∃ h, v.handleOf dirfd = some h ∧
      (v.world.fs h.nodes.index).resolveRelative h.node p = none ∧
      flags.has O_CREAT = true ∧
      MemoryFS.CanCreateDetached (v.world.state h.nodes)
        ((v.world.fs h.nodes.index).resolveRelativeParent h.node p)
  | .mkdirat dirfd (.rel p) _ => ∃ h, v.handleOf dirfd = some h ∧
      MemoryFS.CanCreateDetached (v.world.state h.nodes)
        ((v.world.fs h.nodes.index).resolveRelativeParent h.node p)
  | _ => False

omit [DecidableEq ι] in
theorem CreatesDetached.throughHandle {op : VfsOp} (h : v.CreatesDetached op) :
    v.ThroughHandle op := by
  cases op with
  | openat dirfd path flags mode =>
    cases path with
    | abs p => exact h
    | rel p =>
      obtain ⟨h, hh, -⟩ := h
      exact Option.ne_none_iff_exists'.mpr ⟨h, hh⟩
  | mkdirat dirfd path mode =>
    cases path with
    | abs p => exact h
    | rel p =>
      obtain ⟨h, hh, -⟩ := h
      exact Option.ne_none_iff_exists'.mpr ⟨h, hh⟩
  | _ => exact h

theorem step_allReached_iff (hv : v.WF) (ha : v.world.AllReached) (op : VfsOp) :
    (v.step op).world.AllReached ↔ ¬ v.CreatesDetached op := by
  by_cases hth : v.ThroughHandle op
  · cases op with
    | openat dirfd path flags mode =>
      cases path with
      | abs p => exact absurd hth not_false
      | rel p =>
        obtain ⟨h, hh⟩ := Option.ne_none_iff_exists'.mp hth
        obtain ⟨path, -, he⟩ := RootVFS.openat_of_handle hh p flags mode rfl
        show (v.openat dirfd (.rel p) flags mode).2.world.AllReached ↔ _
        rw [he, RootVFS.trackOpen_world]
        show (v.world.put h.nodes _).AllReached ↔ _
        rw [World.put_allReached_iff ha, MemoryFS.openNodeRelative_eq,
          MemoryFS.openAt_allReached_iff (hv.world.fs _) (ha _)]
        simp [CreatesDetached, hh, World.state]
    | mkdirat dirfd path mode =>
      cases path with
      | abs p => exact absurd hth not_false
      | rel p =>
        obtain ⟨h, hh⟩ := Option.ne_none_iff_exists'.mp hth
        show (v.mkdirat dirfd (.rel p) mode).2.world.AllReached ↔ _
        rw [RootVFS.mkdirat_of_handle hh p mode rfl]
        show (v.world.put h.nodes _).AllReached ↔ _
        rw [World.put_allReached_iff ha, MemoryFS.createRelativeNode_eq,
          MemoryFS.createAt_allReached_iff (hv.world.fs _) (ha _)]
        simp [CreatesDetached, hh, World.state]
    | _ => exact absurd hth not_false
  · exact iff_of_true (allReached_keptByPath.step hv ha hth) fun hc => hth hc.throughHandle

def NoOrphans (v : Vfs ι) : Prop := ∀ i, (v.world.fs i).NoOrphans

theorem step_noOrphans_iff (hv : v.WF) (h : v.NoOrphans) (op : VfsOp) :
    (v.step op).NoOrphans ↔ ¬ v.CreatesDetached op := by
  have hhere (i : ι) := ((hv.world.fs i).noOrphans_iff).mp (h i)
  have hlinks (i : ι) : ((v.step op).world.fs i).LinksInMap := by
    obtain ⟨w, hc, he⟩ := (step_spec hv op).changes
    rw [he]
    exact hc.fs_inv (fun _ _ => Changed.linksInMap) (hhere i).2
  rw [← step_allReached_iff hv (fun i => (hhere i).1) op]
  constructor
  · intro hh i
    exact (((step_wf hv op).world.fs i).noOrphans_iff.mp (hh i)).1
  · intro hh i
    exact ((step_wf hv op).world.fs i).noOrphans_iff.mpr ⟨hh i, hlinks i⟩

/-- No state of a run has orphans if and only if no call creates something in a directory
that no path leads to. -/
theorem run_noOrphans_iff (hv : v.WF) (h : v.NoOrphans) (ops : List VfsOp) :
    (∀ l, l <+: ops → (v.run l).NoOrphans) ↔
      Runs.EveryStep Vfs.step (fun v op => ¬ v.CreatesDetached op) v ops :=
  Runs.forall_prefix_iff (P := NoOrphans) (fun _ op hs => step_wf hs op)
    (fun _ op hs hp => step_noOrphans_iff hs hp op) hv h ops

theorem newMemory_noOrphans (inodeForPath : List (List UInt8) → Nat) (sys : Sys) :
    (newMemory inodeForPath sys).NoOrphans := by
  have hwf := MemoryFS.new_wf sys
  intro _
  refine hwf.noOrphans_iff.mpr ⟨?_, ?_⟩
  · intro id hid
    have hroot : id = (MemoryFS.new sys).fs.root := Finset.mem_singleton.mp hid
    exact ⟨[], hroot ▸ hwf.resolveNames_nil⟩
  · intro id n hn
    rw [MemoryFS.new_inodeOf] at hn
    split_ifs at hn with hid
    · cases hn
      exact iff_of_true one_ne_zero (hid ▸ hwf.root_mem)

def relX : RelPath := ⟨[.normal .x]⟩

def openedDir : List VfsOp :=
  [.mkdir (.abs (PathBuf.toAbs [.d])) 0o755, .openPath (.abs (PathBuf.toAbs [.d])) 0 0]

def createdX : List VfsOp := openedDir ++ [.openat 5 (.rel relX) O_CREAT 0o644]

theorem noOrphans_createdX : ((newMemory (fun _ => 0) .boot).run createdX).NoOrphans := by
  refine (run_noOrphans_iff (newMemory_wf (fun _ => 0) .boot) (newMemory_noOrphans _ _)
    createdX).mpr ⟨fun hc => hc, fun hc => hc, ?_, trivial⟩ createdX List.prefix_rfl
  rintro ⟨h, hh, -, -, d, x, ht, hp, -⟩
  have he : ((newMemory (fun _ => 0) .boot).run openedDir).handleOf 5 = some ⟨⟨()⟩, 2⟩ := by
    decide +kernel
  cases he.symm.trans hh
  have hd : (((newMemory (fun _ => 0) .boot).run openedDir).world.fs ()).resolveRelativeParent 2 relX =
      some (2, .x) := by decide +kernel
  cases hd.symm.trans ht
  have hpath : (((newMemory (fun _ => 0) .boot).run openedDir).world.fs ()).resolveNames [.d] =
      some 2 := by decide +kernel
  exact hp [.d] hpath

def removedDir : List VfsOp := openedDir ++ [.rmdir (.abs (PathBuf.toAbs [.d]))]

/-- The file made through the descriptor of the removed directory is node 3. -/
theorem openat_removedDir :
    (((newMemory (fun _ => 0) .boot).run removedDir).openat 5 (.rel relX) O_CREAT 0o644).1 = 7 ∧
      ¬ ((newMemory (fun _ => 0) .boot).run
        (removedDir ++ [.openat 5 (.rel relX) O_CREAT 0o644])).NoOrphans := by
  refine ⟨by decide +kernel, ?_⟩
  intro h
  have hwf := (run_wf (newMemory_wf (fun _ => 0) .boot)
    (removedDir ++ [.openat 5 (.rel relX) O_CREAT 0o644])).world.fs ()
  have hmem : 3 ∈ (((newMemory (fun _ => 0) .boot).run
      (removedDir ++ [.openat 5 (.rel relX) O_CREAT 0o644])).world.fs ()).nodes := by
    decide +kernel
  obtain ⟨p, hp⟩ := (hwf.noOrphans_iff.mp (h ())).1 3 hmem
  have hempty : (((newMemory (fun _ => 0) .boot).run
      (removedDir ++ [.openat 5 (.rel relX) O_CREAT 0o644])).world.fs ()).Childless 1 := by
    intro _
    decide +kernel
  have hroot : (((newMemory (fun _ => 0) .boot).run
      (removedDir ++ [.openat 5 (.rel relX) O_CREAT 0o644])).world.fs ()).root = 1 := by
    decide +kernel
  have hnil := hwf.eq_nil_of_childless (p := []) (hroot ▸ hwf.resolveNames_nil) hempty hp
  subst hnil
  have hthree := hwf.resolveNames_nil.symm.trans hp
  rw [hroot] at hthree
  exact absurd hthree (by decide)

end Vfs

end SandboxVfs
