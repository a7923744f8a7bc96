import SandboxVfs.VfsSteps

/-! The namespace of a memory file system is a tree after every run. -/

namespace SandboxVfs

open NameGraph

namespace MemoryFS

/-- The shape of what the entries lead to from the root. -/
structure NamespaceTree (fs : MemoryFS) : Prop where
  root_mem : fs.root ∈ fs.nodes
  root_dir : fs.isDir fs.root = true
  root_parent : fs.parentOf fs.root = some fs.root
  entry : ∀ d x c, Reaches fs.entryAt fs.root d → fs.entryAt d x = some c →
    c ∈ fs.nodes ∧ c ≠ fs.root ∧ ∃ n, fs.heap c = some n ∧ n.parent = some d ∧ n.links = 1
  entry_unique : ∀ c, Reaches fs.entryAt fs.root c → c ≠ fs.root →
    ∃! e : NodeId × FileName, Reaches fs.entryAt fs.root e.1 ∧ fs.entryAt e.1 e.2 = some c
  acyclic : ∀ c p, Reaches fs.entryAt fs.root c → walk fs.entryAt c p = some c → p = []
  path_unique : ∀ c, Reaches fs.entryAt fs.root c → ∃! p, walk fs.entryAt fs.root p = some c

theorem WF.namespaceTree {fs : MemoryFS} {next : NodeId} (h : fs.WF next) : NamespaceTree fs := by
  have ht := h.isTree
  constructor
  · exact h.root_mem
  · exact h.root_dir
  · exact h.root_parent
  · intro d x c _ hx
    obtain ⟨i, hi, hp, hl⟩ := h.entry_inode d x c hx
    obtain ⟨n, hn, rfl⟩ := Option.map_eq_some_iff.mp hi
    exact ⟨h.entry_mem d x c hx, h.entry_ne_root d x c hx, n, hn, hp, hl⟩
  · intro c hc hne
    obtain ⟨d, x, hd, hx⟩ := IsTree.exists_entry hc hne
    refine ⟨(d, x), ⟨hd, hx⟩, ?_⟩
    rintro ⟨e, y⟩ ⟨he, hy⟩
    obtain ⟨rfl, rfl⟩ := ht.entry_unique he hy hd hx
    rfl
  · intro c p hc hp
    obtain ⟨q, hq⟩ := hc
    have hh := ht.path_eq_of_walk hq hp hq
    exact List.self_eq_append_right.mp hh
  · intro c hc
    obtain ⟨p, hp⟩ := hc
    exact ⟨p, hp, fun q hq => ht q p c hq hp⟩

end MemoryFS

namespace Vfs

/-- `RootVFS::new(MemoryFS::new(..))`. -/
def newMemory (inodeForPath : List (List UInt8) → Nat) (sys : Sys) : Vfs Unit :=
  RootVFS.new (.memory ⟨()⟩) inodeForPath ⟨fun _ => (MemoryFS.new sys).fs, (MemoryFS.new sys).sys⟩

theorem newMemory_wf (inodeForPath : List (List UInt8) → Nat) (sys : Sys) :
    (newMemory inodeForPath sys).WF := by
  refine ⟨⟨fun _ => MemoryFS.new_wf sys, fun _ _ _ _ _ => rfl⟩, ?_⟩
  intro fd info hi
  simp [newMemory, RootVFS.new] at hi

/-- After any calls the namespace of the file system is a tree. -/
theorem run_namespaceTree (inodeForPath : List (List UInt8) → Nat) (sys : Sys)
    (ops : List VfsOp) :
    (((newMemory inodeForPath sys).run ops).world.fs ()).NamespaceTree :=
  ((run_wf (newMemory_wf inodeForPath sys) ops).world.fs ()).namespaceTree

end Vfs

end SandboxVfs
