import SandboxVfs.MemoryOps

/-! The locks of a `MemoryFS`, and what a thread does between two of them. -/

namespace SandboxVfs

namespace MemoryFS

inductive Lock where
  | nodes
  | entries (id : NodeId)
  | parent (id : NodeId)
  | mode (id : NodeId)
  | links (id : NodeId)
  deriving DecidableEq, Repr

def eraseEntry (fs : MemoryFS) (d : NodeId) (x : FileName) : MemoryFS :=
  match fs.entriesOf d with
  | none => fs
  | some entries => fs.setEntries d (entries.erase x)

def insertEntry (fs : MemoryFS) (d : NodeId) (x : FileName) (id : NodeId) : MemoryFS :=
  match fs.entriesOf d with
  | none => fs
  | some entries => fs.setEntries d (entries.insert x id)

/-- `create` takes an id, asks for a backing file and makes the node, which nobody sees
before it is in the map. `entryRemove` says which node of the map the thread takes out of
the directory, if it has found one. -/
inductive Act where
  | look
  | create (parent : NodeId) (kind : VfsEntryKind) (mode : Mode)
  | openBacking
  | mapInsert (id : NodeId)
  | mapRemove (id : NodeId)
  | entryInsert (d : NodeId) (x : FileName) (id : NodeId)
  | entryRemove (d : NodeId) (x : FileName) (c : Option NodeId)
  | setParent (id : NodeId) (parent : Option NodeId)
  | clearLinks (id : NodeId)
  | setMode (id : NodeId) (mode : Mode)
  deriving Repr

def Act.apply : Act → MemoryState → MemoryState
  | .look, m => m
  | .create parent kind mode, m =>
    let made := m.sys.takeId.newFd
    let id := m.sys.nextNodeId
    if made.1 < 0 then ⟨m.fs, made.2⟩
    else
      ⟨{ m.fs with
          heap := Function.update m.fs.heap id (some (newNode id parent kind mode made.1)) },
        made.2⟩
  | .openBacking, m => ⟨m.fs, m.sys.newFd.2⟩
  | .mapInsert id, m => ⟨{ m.fs with nodes := insert id m.fs.nodes }, m.sys⟩
  | .mapRemove id, m => ⟨{ m.fs with nodes := m.fs.nodes.erase id }, m.sys⟩
  | .entryInsert d x id, m => ⟨m.fs.insertEntry d x id, m.sys⟩
  | .entryRemove d x _, m => ⟨m.fs.eraseEntry d x, m.sys⟩
  | .setParent id parent, m => ⟨m.fs.setNode id fun n => { n with parent }, m.sys⟩
  | .clearLinks id, m => ⟨m.fs.setNode id fun n => { n with links := 0 }, m.sys⟩
  | .setMode id mode, m => ⟨m.fs.setNode id fun n => { n with mode := mode &&& 0o7777 }, m.sys⟩

/-- Nothing is there under an id that has not been handed out. -/
def Fresh (m : MemoryState) : Prop := ∀ id, m.sys.nextNodeId ≤ id → m.fs.heap id = none

theorem fresh_of_wf {m : MemoryState} (h : m.fs.WF m.sys.nextNodeId) : Fresh m := by
  intro id hid
  rw [← inodeOf_eq_none]
  exact h.heap_fresh hid

def Act.dir? : Act → Option NodeId
  | .entryInsert d _ _ => some d
  | .entryRemove d _ _ => some d
  | _ => none

theorem setNode_heap_eq_none {fs : MemoryFS} {id : NodeId} (j : NodeId) (f : Node → Node)
    (h : fs.heap id = none) : (fs.setNode j f).heap id = none := by
  rw [heap_setNode]
  split_ifs <;> simp [h]

theorem setEntries_heap_eq_none {fs : MemoryFS} {id : NodeId} (j : NodeId) (es : Entries)
    (h : fs.heap id = none) : (fs.setEntries j es).heap id = none := setNode_heap_eq_none j _ h

theorem Act.apply_fresh {m : MemoryState} (h : Fresh m) (a : Act) : Fresh (a.apply m) := by
  cases a with
  | look => exact h
  | create parent kind mode =>
    unfold Act.apply
    dsimp only
    split_ifs with hfd
    · exact fun id hid => h id ((Nat.le_succ _).trans hid)
    · intro id hid
      have hne : id ≠ m.sys.nextNodeId := (Nat.lt_of_succ_le hid).ne'
      exact (Function.update_of_ne hne _ _).trans (h id ((Nat.le_succ _).trans hid))
  | openBacking => exact h
  | mapInsert id => exact h
  | mapRemove id => exact h
  | entryInsert d x c =>
    intro id hid
    show (m.fs.insertEntry d x c).heap id = none
    unfold insertEntry
    cases m.fs.entriesOf d with
    | none => exact h id hid
    | some es => exact setEntries_heap_eq_none d _ (h id hid)
  | entryRemove d x _ =>
    intro id hid
    show (m.fs.eraseEntry d x).heap id = none
    unfold eraseEntry
    cases m.fs.entriesOf d with
    | none => exact h id hid
    | some es => exact setEntries_heap_eq_none d _ (h id hid)
  | setParent id parent => exact fun j hj => setNode_heap_eq_none id _ (h j hj)
  | clearLinks id => exact fun j hj => setNode_heap_eq_none id _ (h j hj)
  | setMode id mode => exact fun j hj => setNode_heap_eq_none id _ (h j hj)

theorem insertEntry_entryAt (fs : MemoryFS) (b : NodeId) (y : FileName) (c d : NodeId)
    (x : FileName) : (fs.insertEntry b y c).entryAt d x =
      if d = b ∧ x = y ∧ fs.isDir b then some c else fs.entryAt d x := by
  unfold insertEntry
  cases he : fs.entriesOf b with
  | none => simp [isDir, he]
  | some es =>
    have hdir : fs.isDir b = true := isDir_iff_entries.mpr ⟨es, he⟩
    dsimp only
    rw [entryAt_setEntries _ _ hdir, getElem?_insert_name]
    by_cases hd : d = b
    · subst hd
      simp [hdir, entryAt_of_entriesOf he]
    · simp [hd]

theorem eraseEntry_entryAt (fs : MemoryFS) (a : NodeId) (y : FileName) (d : NodeId)
    (x : FileName) : (fs.eraseEntry a y).entryAt d x =
      if d = a ∧ x = y then none else fs.entryAt d x := by
  unfold eraseEntry
  cases he : fs.entriesOf a with
  | none =>
    by_cases hd : d = a
    · subst hd
      simp [entryAt, he]
    · simp [hd]
  | some es =>
    have hdir : fs.isDir a = true := isDir_iff_entries.mpr ⟨es, he⟩
    dsimp only
    rw [entryAt_setEntries _ _ hdir, getElem?_erase_name]
    by_cases hd : d = a
    · subst hd
      simp [entryAt_of_entriesOf he]
    · simp [hd]

theorem setNode_entryAt {fs : MemoryFS} {id : NodeId} {f : Node → Node}
    (hf : ∀ n, (f n).kind = n.kind) (d : NodeId) (x : FileName) :
    (fs.setNode id f).entryAt d x = fs.entryAt d x := by
  rw [entryAt, entriesOf_setNode fs id f hf]
  rfl

theorem Act.apply_entryAt {m : MemoryState} (h : Fresh m) {a : Act} (ha : a.dir? = none)
    (d : NodeId) (x : FileName) : (a.apply m).fs.entryAt d x = m.fs.entryAt d x := by
  cases a with
  | look => rfl
  | create parent kind mode =>
    unfold Act.apply
    dsimp only
    split_ifs with hfd
    · rfl
    · by_cases hd : d = m.sys.nextNodeId
      · subst hd
        cases kind <;>
          simp [entryAt, entriesOf, h _ le_rfl, newNode, NodeKind.entries?]
      · simp [entryAt, entriesOf, hd]
  | openBacking => rfl
  | mapInsert id => rfl
  | mapRemove id => rfl
  | entryInsert d x c => cases ha
  | entryRemove d x _ => cases ha
  | setParent id parent => exact setNode_entryAt (f := ({ · with parent })) (fun _ => rfl) d x
  | clearLinks id => exact setNode_entryAt (f := ({ · with links := 0 })) (fun _ => rfl) d x
  | setMode id mode =>
    exact setNode_entryAt (f := ({ · with mode := mode &&& 0o7777 })) (fun _ => rfl) d x

theorem Act.apply_entryAt_ne {m : MemoryState} (h : Fresh m) {a : Act} {d : NodeId}
    (ha : a.dir? ≠ some d) (x : FileName) :
    (a.apply m).fs.entryAt d x = m.fs.entryAt d x := by
  cases hdir : a.dir? with
  | none => exact Act.apply_entryAt h hdir d x
  | some b =>
    have hne : d ≠ b := by
      rintro rfl
      exact ha hdir
    cases a with
    | entryInsert b' y c =>
      cases hdir
      exact (insertEntry_entryAt m.fs b y c d x).trans (if_neg fun hh => hne hh.1)
    | entryRemove b' y _ =>
      cases hdir
      exact (eraseEntry_entryAt m.fs b y d x).trans (if_neg fun hh => hne hh.1)
    | _ => cases hdir

end MemoryFS

end SandboxVfs
