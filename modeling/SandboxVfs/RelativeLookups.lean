import SandboxVfs.Creations
import SandboxVfs.NamespaceTree

/-! Lookups from an opened node against the lexical resolution of the joined path. -/

namespace SandboxVfs

open MemoryFS NameGraph

theorem RelPath.components_of_fileName {p parent : RelPath} {x : FileName}
    (hp : p.parent = some parent) (hx : p.fileName = some x) :
    p.components = p.components.dropLast ++ [.normal x] ∧ parent = ⟨p.components.dropLast⟩ := by
  unfold RelPath.parent at hp
  unfold RelPath.fileName at hx
  split_ifs at hp with hnil
  cases hp
  obtain ⟨cs, c, he⟩ := (List.eq_nil_or_concat p.components).resolve_left hnil
  rw [he, List.concat_eq_append] at hx ⊢
  rw [lastName_concat] at hx
  cases c with
  | normal y =>
    cases hx
    simp
  | curDir => cases hx
  | parentDir => cases hx

theorem RelPath.foldl_of_fileName {p parent : RelPath} {x : FileName}
    (hp : p.parent = some parent) (hx : p.fileName = some x) (q : PathBuf) :
    p.components.foldl pushComponent q = parent.components.foldl pushComponent q ++ [x] := by
  obtain ⟨hcomps, rfl⟩ := RelPath.components_of_fileName hp hx
  rw [RelPath.components_foldl q ⟨p.components.dropLast⟩, hcomps, List.foldl_append,
    List.dropLast_concat]
  rfl

theorem RelPath.components_foldlM {α : Type} (f : α → Component → Option α)
    (hcur : ∀ a, f a .curDir = some a) (p : RelPath) (a : α) :
    p.components.foldlM f a = p.segments.foldlM f a := by
  have hfilter (cs : List Component) (a : α) :
      (cs.filter (· ≠ .curDir)).foldlM f a = cs.foldlM f a := by
    induction cs generalizing a with
    | nil => rfl
    | cons c cs ih => cases c <;> simp_all
  unfold RelPath.components
  split
  · simp only [List.foldlM_cons, *]
  · exact hfilter _ a

namespace MemoryFS

variable {fs : MemoryFS} {next : NodeId}

theorem WF.parentOf_at (h : fs.WF next) {q : PathBuf} {node d : NodeId}
    (hq : fs.resolveNames q = some node) (hd : fs.parentOf node = some d) :
    fs.resolveNames q.dropLast = some d := by
  rcases List.eq_nil_or_concat q with rfl | ⟨q, x, rfl⟩
  · rw [h.resolveNames_nil] at hq
    cases hq
    rw [h.root_parent] at hd
    rw [List.dropLast_nil, h.resolveNames_nil, hd]
  · rw [List.concat_eq_append] at hq ⊢
    rw [h.resolveNames_concat] at hq
    obtain ⟨e, he, hx⟩ := Option.bind_eq_some_iff.mp hq
    rw [h.entry_parent hx] at hd
    rw [List.dropLast_concat, he, hd]

theorem WF.stepRelative_at (h : fs.WF next) {q : PathBuf} {node n : NodeId} {c : Component}
    (hq : fs.resolveNames q = some node) (hc : fs.stepRelative node c = some n) :
    fs.resolveNames (pushComponent q c) = some n := by
  cases c with
  | curDir =>
    cases hc
    exact hq
  | normal x =>
    rw [pushComponent, h.resolveNames_concat, hq, Option.bind_some, ← h.edge_eq]
    exact hc
  | parentDir =>
    obtain ⟨d, hd, hn⟩ := Option.bind_eq_some_iff.mp hc
    obtain ⟨-, rfl⟩ := nodeFromMap_eq_some.mp hn
    exact h.parentOf_at hq hd

/-- Component by component, the node stays the one at the folded path. -/
theorem WF.foldlM_stepRelative (h : fs.WF next) (cs : List Component) {q : PathBuf}
    {node n : NodeId} (hq : fs.resolveNames q = some node)
    (hn : cs.foldlM fs.stepRelative node = some n) :
    fs.resolveNames (cs.foldl pushComponent q) = some n := by
  induction cs generalizing q node with
  | nil =>
    cases hn
    exact hq
  | cons c cs ih =>
    rw [List.foldlM_cons] at hn
    obtain ⟨d, hd, hn⟩ := Option.bind_eq_some_iff.mp hn
    exact ih (h.stepRelative_at hq hd) hn

theorem WF.resolveRelative_at (h : fs.WF next) {s : PathBuf} {start n : NodeId} {p : RelPath}
    (hs : fs.resolveNames s = some start) (hn : fs.resolveRelative start p = some n) :
    fs.resolveNames (normalizeAbsolute (s.toAbs.join p)) = some n := by
  rw [normalizeAbsolute_join]
  exact h.foldlM_stepRelative p.components hs hn

theorem WF.resolveRelativeParent_at (h : fs.WF next) {s : PathBuf} {start d : NodeId} {p : RelPath}
    {x : FileName} (hs : fs.resolveNames s = some start)
    (hp : fs.resolveRelativeParent start p = some (d, x)) :
    ∃ r, p.components.foldl pushComponent s = r ++ [x] ∧ fs.resolveNames r = some d := by
  obtain ⟨parent, hpar, hp⟩ := Option.bind_eq_some_iff.mp hp
  obtain ⟨d', hd, hp⟩ := Option.bind_eq_some_iff.mp hp
  obtain ⟨x', hx, he⟩ := Option.bind_eq_some_iff.mp hp
  cases he
  exact ⟨_, RelPath.foldl_of_fileName hpar hx s, h.foldlM_stepRelative _ hs hd⟩

theorem createRelativeNode_added {m m' : MemoryState} (h : m.fs.WF m.sys.nextNodeId)
    {s : PathBuf} {start id : NodeId} {p : RelPath} {kind : VfsEntryKind} {mode : Mode}
    (hs : m.fs.resolveNames s = some start)
    (hc : createRelativeNode m start p kind mode = (some id, m')) :
    Added m.fs m'.fs (normalizeAbsolute (s.toAbs.join p)) id (kind == .dir)
      (mode &&& 0o7777) := by
  rw [createRelativeNode_eq] at hc
  rcases createAt_cases h (m.fs.resolveRelativeParent start p) kind mode with
    ⟨sys', he, -⟩ | ⟨m'', d, x, n, he, ht, hid, -, hdir, hmode, hcr⟩
  · rw [hc] at he
    cases he
  · rw [hc] at he
    obtain ⟨hn, rfl⟩ := Prod.mk.inj he
    cases hn
    obtain ⟨r, hr, hd⟩ := h.resolveRelativeParent_at hs ht
    have hadd := hcr.added h hid hd
    rw [hdir, hmode] at hadd
    rw [normalizeAbsolute_join, hr]
    exact hadd

end MemoryFS

namespace Vfs

/-- After any calls on a virtual file system over one memory file system: a lookup from
the node at `s` finds the node at the joined path, and a creation there adds that path
and no other. -/
theorem run_relative_sound (inodeForPath : List (List UInt8) → Nat) (sys : Sys)
    (ops : List VfsOp) (start : NodeId) (s : PathBuf)
    (hs : (((newMemory inodeForPath sys).run ops).world.fs ()).resolve s.toAbs = some start)
    (p : RelPath) :
    let w := ((newMemory inodeForPath sys).run ops).world
    (∀ n, (w.fs ()).resolveRelative start p = some n →
      (w.fs ()).resolve (normalizeAbsolute (s.toAbs.join p)).toAbs = some n) ∧
    ∀ kind mode id m', createRelativeNode ⟨w.fs (), w.sys⟩ start p kind mode = (some id, m') →
      m'.fs.resolve (normalizeAbsolute (s.toAbs.join p)).toAbs = some id ∧
        (w.fs ()).resolve (normalizeAbsolute (s.toAbs.join p)).toAbs = none ∧
        ∀ q : PathBuf, q ≠ normalizeAbsolute (s.toAbs.join p) →
          m'.fs.resolve q.toAbs = (w.fs ()).resolve q.toAbs := by
  intro w
  have hwf : (w.fs ()).WF w.sys.nextNodeId :=
    (run_wf (newMemory_wf inodeForPath sys) ops).world.fs ()
  rw [resolve_toAbs] at hs
  constructor
  · intro n hn
    rw [resolve_toAbs]
    exact hwf.resolveRelative_at hs hn
  · intro kind mode id m' hc
    have ha := createRelativeNode_added (m := ⟨w.fs (), w.sys⟩) hwf hs hc
    exact ⟨ha.after, ha.before, fun q hq => (ha.others q hq).1⟩

def renamedA : List VfsOp :=
  [.mkdir (.abs (PathBuf.toAbs [.a])) 0o755, .mkdir (.abs (PathBuf.toAbs [.a, .b])) 0o755,
    .rename (.abs (PathBuf.toAbs [.a])) (.abs (PathBuf.toAbs [.d]))]

theorem relative_sound_renamedA :
    (((newMemory (fun _ => 0) .boot).run renamedA).world.fs ()).resolve
      (normalizeAbsolute ((PathBuf.toAbs [.d, .b]).join
        ⟨[.parentDir, .parentDir, .parentDir, .normal .d]⟩)).toAbs = some 2 :=
  (run_relative_sound (fun _ => 0) .boot renamedA 3 [.d, .b] (by decide +kernel)
    ⟨[.parentDir, .parentDir, .parentDir, .normal .d]⟩).1 2 (by decide +kernel)

end Vfs

end SandboxVfs
