import SandboxVfs.Memory

/-! What the operations of `MemoryFS` can do, stated by lookups: an entry appears
with a new node, an entry goes with its node, an entry moves, a mode is set. -/

namespace SandboxVfs

open NameGraph

structure Inode where
  id : NodeId
  parent : Option NodeId
  mode : Mode
  links : Nat
  backingFd : Int
  isDir : Bool
  deriving DecidableEq, Repr

def Node.inode (n : Node) : Inode :=
  { id := n.id, parent := n.parent, mode := n.mode, links := n.links,
    backingFd := n.kind.backingFd, isDir := n.kind.entries?.isSome }

def Inode.dropped (i : Inode) : Inode := { i with parent := none, links := 0 }

namespace MemoryFS

def inodeOf (fs : MemoryFS) (id : NodeId) : Option Inode := (fs.heap id).map Node.inode

def entryAt (fs : MemoryFS) (d : NodeId) (x : FileName) : Option NodeId :=
  (fs.entriesOf d).bind (·[x]?)

variable {fs : MemoryFS} {id : NodeId}

theorem isDir_eq_inode (fs : MemoryFS) (id : NodeId) :
    fs.isDir id = (fs.inodeOf id).any (·.isDir) := by
  cases h : fs.heap id <;> simp [isDir, entriesOf, inodeOf, Node.inode, h]

theorem parentOf_eq_inode (fs : MemoryFS) (id : NodeId) :
    fs.parentOf id = (fs.inodeOf id).bind (·.parent) := by
  cases h : fs.heap id <;> simp [parentOf, inodeOf, Node.inode, h]

theorem inodeOf_eq_none : fs.inodeOf id = none ↔ fs.heap id = none := by simp [inodeOf]

theorem entryAt_of_entriesOf {es : Entries} (h : fs.entriesOf id = some es) (x : FileName) :
    fs.entryAt id x = es[x]? := by simp [entryAt, h]

theorem entryAt_eq_none_of_heap (h : fs.heap id = none) (x : FileName) :
    fs.entryAt id x = none := by simp [entryAt, entriesOf, h]

theorem entryAt_isDir {d c : NodeId} {x : FileName} (h : fs.entryAt d x = some c) :
    fs.isDir d = true := by
  obtain ⟨es, he, -⟩ := Option.bind_eq_some_iff.mp h
  simp [isDir, he]

theorem isDir_iff_entries : fs.isDir id = true ↔ ∃ es, fs.entriesOf id = some es :=
  Option.isSome_iff_exists

theorem entriesOf_eq_of_entryAt {es : Entries} (hd : fs.isDir id = true)
    (h : ∀ x, fs.entryAt id x = es[x]?) : fs.entriesOf id = some es := by
  obtain ⟨es', he⟩ := isDir_iff_entries.mp hd
  rw [he, Option.some.injEq]
  apply Std.ExtTreeMap.ext_getElem?
  intro x
  rw [← h x, entryAt_of_entriesOf he]

theorem edge_eq (fs : MemoryFS) (d : NodeId) (x : FileName) :
    fs.edge d x = (fs.entryAt d x).bind fs.nodeFromMap := by
  simp [edge, entryAt, Option.bind_assoc]

theorem nodeFromMap_eq_some {c : NodeId} : fs.nodeFromMap id = some c ↔ id ∈ fs.nodes ∧ c = id := by
  simp [nodeFromMap, eq_comm]

theorem getElem?_insert_name (es : Entries) (x y : FileName) (c : NodeId) :
    (es.insert x c)[y]? = if y = x then some c else es[y]? := by
  simp only [Std.ExtTreeMap.getElem?_insert, Std.compare_eq_iff_eq, @eq_comm _ x]

theorem getElem?_erase_name (es : Entries) (x y : FileName) :
    (es.erase x)[y]? = if y = x then none else es[y]? := by
  simp only [Std.ExtTreeMap.getElem?_erase, Std.compare_eq_iff_eq, @eq_comm _ x]

section

variable (fs : MemoryFS) (id : NodeId)

theorem heap_setNode (f : Node → Node) (j : NodeId) :
    (fs.setNode id f).heap j = if j = id then (fs.heap j).map f else fs.heap j := by
  by_cases h : j = id
  · subst h
    simp [setNode]
  · simp [setNode, h]

theorem inodeOf_setNode (f : Node → Node) (g : Inode → Inode)
    (h : ∀ n, (f n).inode = g n.inode) (j : NodeId) :
    (fs.setNode id f).inodeOf j = if j = id then (fs.inodeOf j).map g else fs.inodeOf j := by
  rw [inodeOf, heap_setNode]
  split_ifs
  · simp [inodeOf, Function.comp_def, h]
  · rfl

theorem entriesOf_setNode (f : Node → Node) (h : ∀ n, (f n).kind = n.kind) (j : NodeId) :
    (fs.setNode id f).entriesOf j = fs.entriesOf j := by
  rw [entriesOf, heap_setNode]
  split_ifs
  · cases hn : fs.heap j <;> simp [entriesOf, hn, h]
  · rfl

theorem inodeOf_setEntries (es : Entries) (j : NodeId) :
    (fs.setEntries id es).inodeOf j = fs.inodeOf j := by
  rw [setEntries, inodeOf_setNode (g := fun i => i)]
  · simp
  · intro n
    cases hk : n.kind <;> simp [Node.inode, hk, NodeKind.backingFd, NodeKind.entries?]

theorem entriesOf_setEntries (es : Entries) (j : NodeId) :
    (fs.setEntries id es).entriesOf j =
      if j = id ∧ fs.isDir id then some es else fs.entriesOf j := by
  rw [entriesOf, setEntries, heap_setNode]
  by_cases h : j = id
  · subst h
    cases hn : fs.heap j with
    | none => simp [entriesOf, isDir, hn]
    | some n => cases hk : n.kind <;> simp [entriesOf, isDir, hn, hk, NodeKind.entries?]
  · simp [h, entriesOf]

theorem inodeOf_setParent (p j : NodeId) :
    (fs.setParent id p).inodeOf j =
      if j = id then (fs.inodeOf j).map ({ · with parent := some p }) else fs.inodeOf j :=
  inodeOf_setNode fs id _ _ (fun _ => rfl) j

theorem entriesOf_setParent (p j : NodeId) :
    (fs.setParent id p).entriesOf j = fs.entriesOf j := by
  rw [setParent, entriesOf_setNode]
  intro n
  rfl

theorem inodeOf_dropNode (j : NodeId) :
    (fs.dropNode id).inodeOf j =
      if j = id then (fs.inodeOf j).map Inode.dropped else fs.inodeOf j :=
  inodeOf_setNode fs id _ _ (fun _ => rfl) j

theorem entriesOf_dropNode (j : NodeId) : (fs.dropNode id).entriesOf j = fs.entriesOf j := by
  refine entriesOf_setNode fs id (fun n => { n with parent := none, links := 0 }) ?_ j
  intro n
  rfl

theorem heap_insertNode (n : Node) (j : NodeId) :
    (fs.insertNode n).heap j = if j = n.id then some n else fs.heap j := by
  by_cases h : j = n.id
  · subst h
    simp [insertNode]
  · simp [insertNode, h]

theorem inodeOf_insertNode (n : Node) (j : NodeId) :
    (fs.insertNode n).inodeOf j = if j = n.id then some n.inode else fs.inodeOf j := by
  rw [inodeOf, heap_insertNode]
  split_ifs <;> rfl

theorem entryAt_setEntries {es : Entries} (hd : fs.isDir id = true) (d : NodeId) (x : FileName) :
    (fs.setEntries id es).entryAt d x = if d = id then es[x]? else fs.entryAt d x := by
  rw [entryAt, entriesOf_setEntries]
  by_cases h : d = id <;> simp [h, hd, entryAt]

end

/-- The links between the maps of one file system. They hold of detached
directories too, which stay usable through open handles. -/
structure WF (fs : MemoryFS) (next : NodeId) : Prop where
  root_mem : fs.root ∈ fs.nodes
  root_dir : fs.isDir fs.root = true
  root_parent : fs.parentOf fs.root = some fs.root
  heap_id : ∀ id n, fs.inodeOf id = some n → n.id = id ∧ id < next
  mem_heap : ∀ id ∈ fs.nodes, (fs.inodeOf id).isSome
  entry_mem : ∀ d x c, fs.entryAt d x = some c → c ∈ fs.nodes
  entry_ne_root : ∀ d x c, fs.entryAt d x = some c → c ≠ fs.root
  entry_inode : ∀ d x c, fs.entryAt d x = some c →
    ∃ n, fs.inodeOf c = some n ∧ n.parent = some d ∧ n.links = 1
  entry_name : ∀ d x y c, fs.entryAt d x = some c → fs.entryAt d y = some c → x = y

namespace WF

variable {next : NodeId}

theorem mono {next' : NodeId} (h : fs.WF next) (hn : next ≤ next') : fs.WF next' :=
  { h with heap_id := fun id n hi => ⟨(h.heap_id id n hi).1, (h.heap_id id n hi).2.trans_le hn⟩ }

theorem heap_fresh (h : fs.WF next) (hn : next ≤ id) : fs.inodeOf id = none := by
  cases hi : fs.inodeOf id with
  | none => rfl
  | some n => exact absurd ((h.heap_id id n hi).2.trans_le hn) (lt_irrefl _)

theorem not_mem_fresh (h : fs.WF next) (hn : next ≤ id) : id ∉ fs.nodes := by
  intro hm
  have := h.mem_heap id hm
  simp [h.heap_fresh hn] at this

theorem entry_parent (h : fs.WF next) {d c : NodeId} {x : FileName}
    (hx : fs.entryAt d x = some c) : fs.parentOf c = some d := by
  obtain ⟨n, hn, hp, -⟩ := h.entry_inode d x c hx
  simp [parentOf_eq_inode, hn, hp]

theorem entry_unique (h : fs.WF next) {a b c : NodeId} {x y : FileName}
    (hx : fs.entryAt a x = some c) (hy : fs.entryAt b y = some c) : a = b ∧ x = y := by
  have hab : a = b := Option.some.inj ((h.entry_parent hx).symm.trans (h.entry_parent hy))
  subst hab
  exact ⟨rfl, h.entry_name a x y c hx hy⟩

theorem edge_eq (h : fs.WF next) : fs.edge = fs.entryAt := by
  funext d x
  rw [MemoryFS.edge_eq]
  cases hx : fs.entryAt d x with
  | none => rfl
  | some c => simp [nodeFromMap, h.entry_mem d x c hx]

theorem resolveNames_eq (h : fs.WF next) (p : List FileName) :
    fs.resolveNames p = walk fs.entryAt fs.root p := by
  simp [resolveNames, nodeFromMap, h.root_mem, h.edge_eq]

@[simp] theorem resolveNames_nil (h : fs.WF next) : fs.resolveNames [] = some fs.root := by
  rw [h.resolveNames_eq, walk_nil]

/-- Parent pointers and the uniqueness of names already make the part below the
root a tree. -/
theorem isTree (h : fs.WF next) : IsTree fs.entryAt fs.root := by
  intro p
  induction p using List.reverseRecOn with
  | nil =>
    intro q n hp hq
    rcases List.eq_nil_or_concat q with rfl | ⟨q, y, rfl⟩
    · rfl
    · rw [List.concat_eq_append] at hq
      obtain ⟨b, -, hy⟩ := walk_concat_eq_some hq
      exact absurd (Option.some.inj hp).symm (h.entry_ne_root b y n hy)
  | append_singleton p x ih =>
    intro q n hp hq
    obtain ⟨a, ha, hx⟩ := walk_concat_eq_some hp
    rcases List.eq_nil_or_concat q with rfl | ⟨q, y, rfl⟩
    · exact absurd (Option.some.inj hq).symm (h.entry_ne_root a x n hx)
    · rw [List.concat_eq_append] at hq ⊢
      obtain ⟨b, hb, hy⟩ := walk_concat_eq_some hq
      obtain ⟨rfl, rfl⟩ := h.entry_unique hx hy
      rw [ih q a ha hb]

end WF

/-- A new node `n` appears as `name` in `parent`. -/
structure Created (fs fs' : MemoryFS) (parent : NodeId) (name : FileName) (n : Inode) : Prop where
  root : fs'.root = fs.root
  nodes : fs'.nodes = insert n.id fs.nodes
  inodeOf : ∀ j, fs'.inodeOf j = if j = n.id then some n else fs.inodeOf j
  entryAt : ∀ d x, fs'.entryAt d x =
    if d = parent ∧ x = name then some n.id else fs.entryAt d x
  absent : fs.entryAt parent name = none
  dir : fs.isDir parent = true
  fresh : fs.inodeOf n.id = none
  parent_eq : n.parent = some parent
  links_eq : n.links = 1

/-- `name` goes from `parent`, and its node `c` with it. -/
structure Removed (fs fs' : MemoryFS) (parent : NodeId) (name : FileName) (c : NodeId) :
    Prop where
  root : fs'.root = fs.root
  nodes : fs'.nodes = fs.nodes.erase c
  inodeOf : ∀ j, fs'.inodeOf j =
    if j = c then (fs.inodeOf j).map Inode.dropped else fs.inodeOf j
  entryAt : ∀ d x, fs'.entryAt d x =
    if d = parent ∧ x = name then none else fs.entryAt d x
  present : fs.entryAt parent name = some c

/-- The entry `x` of `a` becomes the entry `y` of `b`, in the place of `replaced`. -/
structure Moved (fs fs' : MemoryFS) (a : NodeId) (x : FileName) (b : NodeId) (y : FileName)
    (c : NodeId) (replaced : Option NodeId) : Prop where
  root : fs'.root = fs.root
  nodes : fs'.nodes = replaced.elim fs.nodes fs.nodes.erase
  inodeOf : ∀ j, fs'.inodeOf j =
    if j = c then (fs.inodeOf j).map ({ · with parent := some b })
    else if replaced = some j then (fs.inodeOf j).map Inode.dropped else fs.inodeOf j
  entryAt : ∀ d z, fs'.entryAt d z =
    if d = b ∧ z = y then some c else if d = a ∧ z = x then none else fs.entryAt d z
  present : fs.entryAt a x = some c
  replaced_eq : fs.entryAt b y = replaced
  ne : replaced ≠ some c
  dir : fs.isDir b = true

theorem Moved.mem_nodes {fs fs' : MemoryFS} {a b c : NodeId} {x y : FileName}
    {replaced : Option NodeId} (hm : Moved fs fs' a x b y c replaced) {j : NodeId} :
    j ∈ fs'.nodes ↔ j ∈ fs.nodes ∧ replaced ≠ some j := by
  rw [hm.nodes]
  cases replaced <;> simp [and_comm, eq_comm]

structure ModeSet (fs fs' : MemoryFS) (id : NodeId) (mode : Mode) : Prop where
  root : fs'.root = fs.root
  nodes : fs'.nodes = fs.nodes
  inodeOf : ∀ j, fs'.inodeOf j =
    if j = id then (fs.inodeOf j).map ({ · with mode := mode }) else fs.inodeOf j
  entryAt : ∀ d x, fs'.entryAt d x = fs.entryAt d x

inductive Changed (fs fs' : MemoryFS) : Prop
  | same (he : fs' = fs)
  | created (parent : NodeId) (name : FileName) (n : Inode) (hc : Created fs fs' parent name n)
  | removed (parent : NodeId) (name : FileName) (c : NodeId) (hr : Removed fs fs' parent name c)
  | moved (a : NodeId) (x : FileName) (b : NodeId) (y : FileName) (c : NodeId)
      (replaced : Option NodeId) (hm : Moved fs fs' a x b y c replaced)
  | modeSet (id : NodeId) (mode : Mode) (hm : ModeSet fs fs' id mode)

theorem Changed.root {fs fs' : MemoryFS} (h : Changed fs fs') : fs'.root = fs.root := by
  cases h with
  | same he => rw [he]
  | created parent name n hc => exact hc.root
  | removed parent name c hr => exact hr.root
  | moved a x b y c replaced hm => exact hm.root
  | modeSet id mode hm => exact hm.root

end MemoryFS

end SandboxVfs
