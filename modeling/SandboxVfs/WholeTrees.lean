import SandboxVfs.Library.NamedForests
import SandboxVfs.MemoryPaths

/-! A `MemoryFS` whose node map holds the nodes of one tree, and nothing outside it. -/

namespace SandboxVfs

open NameGraph

namespace MemoryFS

variable {fs : MemoryFS} {next : NodeId}

structure Whole (fs : MemoryFS) (next : NodeId) : Prop where
  wf : fs.WF next
  closed : ∀ d x c, fs.entryAt d x = some c → d ∈ fs.nodes
  reached : ∀ id ∈ fs.nodes, Reaches fs.entryAt fs.root id

theorem Whole.isForest (h : fs.Whole next) :
    IsForest fs.entryAt {n | n ∈ fs.nodes} {fs.root} := by
  refine ⟨h.closed, h.wf.entry_mem, fun a x b y c => h.wf.entry_unique, ?_, ?_, ?_⟩
  · rintro r rfl
    exact h.wf.root_mem
  · rintro r rfl d x he
    exact h.wf.entry_ne_root d x _ he rfl
  · exact fun c hc => ⟨fs.root, rfl, h.reached c hc⟩

theorem Whole.acyclic (h : fs.Whole next) : Acyclic fs.entryAt := h.isForest.acyclic

theorem new_whole (sys : Sys) : (MemoryFS.new sys).fs.Whole (MemoryFS.new sys).sys.nextNodeId := by
  refine ⟨new_wf sys, ?_, ?_⟩
  · intro d x c he
    rw [new_entryAt] at he
    cases he
  · intro id hid
    have hroot : id = (MemoryFS.new sys).fs.root := Finset.mem_singleton.mp hid
    rw [hroot]
    exact Reaches.root _ _

theorem Whole.created {fs' : MemoryFS} {d : NodeId} {x : FileName} {n : Inode}
    (h : fs.Whole next) (hc : Created fs fs' d x n) (hid : n.id = next) (hd : d ∈ fs.nodes) :
    fs'.Whole (next + 1) := by
  have hold {e z m} (he : fs.entryAt e z = some m) : fs'.entryAt e z = some m := by
    rw [hc.entryAt, if_neg, he]
    rintro ⟨rfl, rfl⟩
    cases hc.absent.symm.trans he
  have hkept {m : NodeId} (hm : m ∈ fs.nodes) : Reaches fs'.entryAt fs.root m :=
    Reaches.lift (fun _ => True) (fun e z k he _ => ⟨trivial, (Reaches.root _ e).step (hold he)⟩)
      (h.reached m hm) trivial
  refine ⟨hc.wf h.wf hid, ?_, ?_⟩
  · intro e z m he
    rw [hc.nodes]
    rw [hc.entryAt] at he
    split_ifs at he with hez
    · exact Finset.mem_insert_of_mem (hez.1 ▸ hd)
    · exact Finset.mem_insert_of_mem (h.closed e z m he)
  · intro m hm
    rw [hc.root]
    rw [hc.nodes, Finset.mem_insert] at hm
    rcases hm with rfl | hm
    · refine (hkept hd).step (x := x) ?_
      rw [hc.entryAt, if_pos ⟨rfl, rfl⟩]
    · exact hkept hm

theorem Whole.createNode {m : MemoryState} (h : m.fs.Whole m.sys.nextNodeId) (path : AbsPath)
    (kind : VfsEntryKind) (mode : Mode) :
    (createNode m path kind mode).2.fs.Whole (createNode m path kind mode).2.sys.nextNodeId := by
  rw [createNode_eq]
  rcases createAt_cases h.wf (m.fs.resolveParent path) kind mode with
    ⟨sys', he, hl⟩ | ⟨m', d, x, n, he, ht, hid, hl, -, -, hc⟩
  · rw [he]
    exact ⟨h.wf.mono hl.next, h.closed, h.reached⟩
  · rw [he]
    obtain ⟨parent, -, hp⟩ := Option.bind_eq_some_iff.mp ht
    obtain ⟨d', hd, hp⟩ := Option.bind_eq_some_iff.mp hp
    obtain ⟨x', -, hp⟩ := Option.bind_eq_some_iff.mp hp
    cases hp
    have hw := h.created hc hid (h.wf.resolveNames_mem hd)
    exact ⟨hw.wf.mono hl.next, hw.closed, hw.reached⟩

end MemoryFS

end SandboxVfs
