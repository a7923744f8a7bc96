import SandboxVfs.Vfs
import SandboxVfs.MemoryPaths

/-! Every call of the virtual file system changes its memory file systems one
change at a time, and keeps all of them well formed. -/

namespace SandboxVfs

open MemoryFS

variable {ι : Type}

namespace World

/-- All file systems are well formed, and no node belongs to two of them. -/
structure WF (w : World ι) : Prop where
  fs : ∀ i, (w.fs i).WF w.sys.nextNodeId
  apart : ∀ i j id, (w.fs i).inodeOf id ≠ none → (w.fs j).inodeOf id ≠ none → i = j

/-- A node is created in a file system in `S`, or only the shared state changes. -/
inductive Grow (S : Set ι) (w w' : World ι) : Prop
  | idle (hfs : w'.fs = w.fs) (hs : w.sys.Later w'.sys)
  | created (i : ι) (parent : NodeId) (name : FileName) (n : Inode) (hi : i ∈ S)
      (hid : n.id = w.sys.nextNodeId) (hc : Created (w.fs i) (w'.fs i) parent name n)
      (hfs : ∀ j, j ≠ i → w'.fs j = w.fs j) (hs : w.sys.takeId.Later w'.sys)

/-- One change of a file system in `S`, or of the shared state only. -/
inductive Change (S : Set ι) (w w' : World ι) : Prop
  | grow (h : Grow S w w')
  | removed (i : ι) (parent : NodeId) (name : FileName) (c : NodeId) (hi : i ∈ S)
      (hr : Removed (w.fs i) (w'.fs i) parent name c)
      (hfs : ∀ j, j ≠ i → w'.fs j = w.fs j) (hs : w'.sys = w.sys)
  | moved (i : ι) (a : NodeId) (x : FileName) (b : NodeId) (y : FileName) (c : NodeId)
      (replaced : Option NodeId) (hi : i ∈ S)
      (hm : Moved (w.fs i) (w'.fs i) a x b y c replaced)
      (hfs : ∀ j, j ≠ i → w'.fs j = w.fs j) (hs : w'.sys = w.sys)
  | modeSet (i : ι) (id : NodeId) (mode : Mode) (hi : i ∈ S)
      (hm : ModeSet (w.fs i) (w'.fs i) id mode)
      (hfs : ∀ j, j ≠ i → w'.fs j = w.fs j) (hs : w'.sys = w.sys)

abbrev Grows (S : Set ι) : World ι → World ι → Prop := Relation.ReflTransGen (Grow S)
abbrev Changes (S : Set ι) : World ι → World ι → Prop := Relation.ReflTransGen (Change S)

variable {S T : Set ι} {w w' w'' : World ι}

theorem Grow.mono (hST : S ⊆ T) (h : Grow S w w') : Grow T w w' := by
  cases h with
  | idle hfs hs => exact .idle hfs hs
  | created i parent name n hi hid hc hfs hs =>
    exact .created i parent name n (hST hi) hid hc hfs hs

theorem Grows.mono (hST : S ⊆ T) (h : Grows S w w') : Grows T w w' := by
  induction h with
  | refl => exact .refl
  | tail _ hh ih => exact ih.tail (hh.mono hST)

theorem Grows.changes (h : Grows S w w') : Changes S w w' := by
  induction h with
  | refl => exact .refl
  | tail _ hh ih => exact ih.tail (.grow hh)

theorem Change.mono (hST : S ⊆ T) (h : Change S w w') : Change T w w' := by
  cases h with
  | grow h => exact .grow (h.mono hST)
  | removed i parent name c hi hr hfs hs => exact .removed i parent name c (hST hi) hr hfs hs
  | moved i a x b y c replaced hi hm hfs hs =>
    exact .moved i a x b y c replaced (hST hi) hm hfs hs
  | modeSet i id mode hi hm hfs hs => exact .modeSet i id mode (hST hi) hm hfs hs

theorem Changes.mono (hST : S ⊆ T) (h : Changes S w w') : Changes T w w' := by
  induction h with
  | refl => exact .refl
  | tail _ hh ih => exact ih.tail (hh.mono hST)

theorem Grow.later (h : Grow S w w') : w.sys.Later w'.sys := by
  cases h with
  | idle hfs hs => exact hs
  | created i parent name n hi hid hc hfs hs => exact w.sys.takeId_later.trans hs

theorem Change.later (h : Change S w w') : w.sys.Later w'.sys := by
  cases h with
  | grow h => exact h.later
  | removed i parent name c hi hr hfs hs => exact hs ▸ Sys.Later.refl _
  | moved i a x b y c replaced hi hm hfs hs => exact hs ▸ Sys.Later.refl _
  | modeSet i id mode hi hm hfs hs => exact hs ▸ Sys.Later.refl _

theorem Changes.later (h : Changes S w w') : w.sys.Later w'.sys := by
  induction h with
  | refl => exact Sys.Later.refl _
  | tail _ hh ih => exact ih.trans hh.later

theorem Grows.later (h : Grows S w w') : w.sys.Later w'.sys := h.changes.later

theorem Grow.fs_eq (h : Grow S w w') {j : ι} (hj : j ∉ S) : w'.fs j = w.fs j := by
  cases h with
  | idle hfs hs => rw [hfs]
  | created i parent name n hi hid hc hfs hs => exact hfs j fun he => hj (he ▸ hi)

theorem Change.fs_eq (h : Change S w w') {j : ι} (hj : j ∉ S) : w'.fs j = w.fs j := by
  cases h with
  | grow h => exact h.fs_eq hj
  | removed i parent name c hi hr hfs hs => exact hfs j fun he => hj (he ▸ hi)
  | moved i a x b y c replaced hi hm hfs hs => exact hfs j fun he => hj (he ▸ hi)
  | modeSet i id mode hi hm hfs hs => exact hfs j fun he => hj (he ▸ hi)

theorem Changes.fs_eq (h : Changes S w w') {j : ι} (hj : j ∉ S) : w'.fs j = w.fs j := by
  induction h with
  | refl => rfl
  | tail _ hh ih => rw [hh.fs_eq hj, ih]

theorem Grows.fs_eq (h : Grows S w w') {j : ι} (hj : j ∉ S) : w'.fs j = w.fs j :=
  h.changes.fs_eq hj

theorem Grow.entryAt (h : Grow S w w') {j : ι} {d c : NodeId} {x : FileName}
    (hx : (w.fs j).entryAt d x = some c) : (w'.fs j).entryAt d x = some c := by
  cases h with
  | idle hfs hs => rwa [hfs]
  | created i parent name n hi hid hc hfs hs =>
    by_cases hj : j = i
    · subst hj
      rw [hc.entryAt, if_neg, hx]
      rintro ⟨rfl, rfl⟩
      rw [hc.absent] at hx
      cases hx
    · rwa [hfs j hj]

theorem Grows.entryAt (h : Grows S w w') {j : ι} {d c : NodeId} {x : FileName}
    (hx : (w.fs j).entryAt d x = some c) : (w'.fs j).entryAt d x = some c := by
  induction h with
  | refl => exact hx
  | tail _ hh ih => exact hh.entryAt ih

/-- What a node keeps for its whole life: its identity, its kind and its backing
file. A node without a link never gets one back. -/
structure Kept (i i' : Inode) : Prop where
  id : i'.id = i.id
  backingFd : i'.backingFd = i.backingFd
  isDir : i'.isDir = i.isDir
  links : i.links = 0 → i'.links = 0

theorem Kept.refl (i : Inode) : Kept i i := ⟨rfl, rfl, rfl, fun hl => hl⟩

theorem Kept.trans {i j k : Inode} (h : Kept i j) (h' : Kept j k) : Kept i k :=
  ⟨h'.id.trans h.id, h'.backingFd.trans h.backingFd, h'.isDir.trans h.isDir,
    fun hl => h'.links (h.links hl)⟩

theorem Kept.of_map (f : Inode → Inode) (hf : ∀ i, Kept i (f i)) {o : Option Inode} {i : Inode}
    (ho : o = some i) : ∃ i', o.map f = some i' ∧ Kept i i' := by
  subst ho
  exact ⟨f i, rfl, hf i⟩

theorem Change.changed (h : Change S w w') (j : ι) : Changed (w.fs j) (w'.fs j) := by
  have hother {i : ι} (hfs : ∀ j, j ≠ i → w'.fs j = w.fs j) (hi : Changed (w.fs i) (w'.fs i)) :
      Changed (w.fs j) (w'.fs j) := by
    by_cases hj : j = i
    · rwa [hj]
    · exact .same (hfs j hj)
  cases h with
  | grow h =>
    cases h with
    | idle hfs hs => exact .same (congrFun hfs j)
    | created i parent name n hi hid hc hfs hs => exact hother hfs (.created parent name n hc)
  | removed i parent name c hi hr hfs hs => exact hother hfs (.removed parent name c hr)
  | moved i a x b y c replaced hi hm hfs hs => exact hother hfs (.moved a x b y c replaced hm)
  | modeSet i id mode hi hm hfs hs => exact hother hfs (.modeSet id mode hm)

/-- A property that one call keeps in each file system. -/
theorem Changes.fs_inv {P : MemoryFS → Prop} (hP : ∀ fs fs', Changed fs fs' → P fs → P fs')
    (h : Changes S w w') {j : ι} (hj : P (w.fs j)) : P (w'.fs j) := by
  induction h with
  | refl => exact hj
  | tail _ hh ih => exact hP _ _ (hh.changed j) ih

theorem Change.kept (h : Change S w w') {j : ι} {id : NodeId} {n : Inode}
    (hn : (w.fs j).inodeOf id = some n) : ∃ n', (w'.fs j).inodeOf id = some n' ∧ Kept n n' := by
  cases h.changed j with
  | same he => exact ⟨n, by rw [he, hn], Kept.refl n⟩
  | created parent name m hc =>
    refine ⟨n, ?_, Kept.refl n⟩
    rw [hc.inodeOf, if_neg, hn]
    rintro rfl
    rw [hc.fresh] at hn
    cases hn
  | removed parent name c hr =>
    rw [hr.inodeOf]
    split_ifs
    · exact Kept.of_map Inode.dropped (fun i => ⟨rfl, rfl, rfl, fun _ => rfl⟩) hn
    · exact ⟨n, hn, Kept.refl n⟩
  | moved a x b y c replaced hm =>
    rw [hm.inodeOf]
    split_ifs
    · exact Kept.of_map ({ · with parent := some b }) (fun i => ⟨rfl, rfl, rfl, fun hl => hl⟩) hn
    · exact Kept.of_map Inode.dropped (fun i => ⟨rfl, rfl, rfl, fun _ => rfl⟩) hn
    · exact ⟨n, hn, Kept.refl n⟩
  | modeSet id' mode hm =>
    rw [hm.inodeOf]
    split_ifs
    · exact Kept.of_map ({ · with mode := mode }) (fun i => ⟨rfl, rfl, rfl, fun hl => hl⟩) hn
    · exact ⟨n, hn, Kept.refl n⟩

theorem Changes.kept (h : Changes S w w') {j : ι} {id : NodeId} {n : Inode}
    (hn : (w.fs j).inodeOf id = some n) :
    ∃ n', (w'.fs j).inodeOf id = some n' ∧ Kept n n' := by
  induction h with
  | refl => exact ⟨n, hn, Kept.refl n⟩
  | tail _ hh ih =>
    obtain ⟨m, hm, hk⟩ := ih
    obtain ⟨m', hm', hk'⟩ := hh.kept hm
    exact ⟨m', hm', hk.trans hk'⟩

theorem Changes.isDir_eq (h : Changes S w w') {j : ι} {id : NodeId}
    (hn : ((w.fs j).inodeOf id).isSome) : (w'.fs j).isDir id = (w.fs j).isDir id := by
  obtain ⟨n, hn⟩ := Option.isSome_iff_exists.mp hn
  obtain ⟨n', hn', hk⟩ := h.kept hn
  simp [isDir_eq_inode, hn, hn', hk.isDir]

theorem WF.of_kept (h : w.WF) (hfs : ∀ i, (w'.fs i).WF w'.sys.nextNodeId)
    (hold : ∀ i id, (w'.fs i).inodeOf id ≠ none → (w.fs i).inodeOf id ≠ none) : w'.WF :=
  ⟨hfs, fun i j id hi hj => h.apart i j id (hold i id hi) (hold j id hj)⟩

theorem Grow.wf (hw : w.WF) (h : Grow S w w') : w'.WF := by
  have hmono (j : ι) (he : w'.fs j = w.fs j) : (w'.fs j).WF w'.sys.nextNodeId := by
    rw [he]
    exact (hw.fs j).mono h.later.next
  cases h with
  | idle hfs hs =>
    refine hw.of_kept (fun i => hmono i (congrFun hfs i)) ?_
    intro i id
    rw [hfs]
    exact fun hh => hh
  | created i parent name n hi hid hc hfs hs =>
    have hwf (j : ι) : (w'.fs j).WF w'.sys.nextNodeId := by
      by_cases hj : j = i
      · subst hj
        exact (hc.wf (hw.fs j) hid).mono hs.next
      · exact hmono j (hfs j hj)
    -- the new node is the only one that some file system had not
    have hold (j : ι) (id : NodeId) (hne : id ≠ w.sys.nextNodeId)
        (hj : (w'.fs j).inodeOf id ≠ none) : (w.fs j).inodeOf id ≠ none := by
      by_cases hji : j = i
      · subst hji
        rwa [hc.inodeOf, if_neg (hid ▸ hne)] at hj
      · rwa [hfs j hji] at hj
    refine ⟨hwf, ?_⟩
    intro j k id hj hk
    by_cases hne : id = w.sys.nextNodeId
    · have hnew (l : ι) (hl : (w'.fs l).inodeOf id ≠ none) : l = i := by
        by_contra hli
        rw [hfs l hli] at hl
        exact hl ((hw.fs l).heap_fresh hne.ge)
      exact (hnew j hj).trans (hnew k hk).symm
    · exact hw.apart j k id (hold j id hne hj) (hold k id hne hk)

theorem Change.wf (hw : w.WF) (h : Change S w w') : w'.WF := by
  have hmono (j : ι) (he : w'.fs j = w.fs j) : (w'.fs j).WF w'.sys.nextNodeId := by
    rw [he]
    exact (hw.fs j).mono h.later.next
  cases h with
  | grow h => exact h.wf hw
  | removed i parent name c hi hr hfs hs =>
    refine hw.of_kept ?_ ?_
    · intro j
      by_cases hj : j = i
      · subst hj
        rw [hs]
        exact hr.wf (hw.fs j)
      · exact hmono j (hfs j hj)
    · intro j id hj
      by_cases hji : j = i
      · subst hji
        rw [hr.inodeOf] at hj
        split_ifs at hj <;> simpa using hj
      · rwa [hfs j hji] at hj
  | moved i a x b y c replaced hi hm hfs hs =>
    refine hw.of_kept ?_ ?_
    · intro j
      by_cases hj : j = i
      · subst hj
        rw [hs]
        exact hm.wf (hw.fs j)
      · exact hmono j (hfs j hj)
    · intro j id hj
      by_cases hji : j = i
      · subst hji
        rw [hm.inodeOf] at hj
        split_ifs at hj <;> simpa using hj
      · rwa [hfs j hji] at hj
  | modeSet i id' mode hi hm hfs hs =>
    refine hw.of_kept ?_ ?_
    · intro j
      by_cases hj : j = i
      · subst hj
        rw [hs]
        exact hm.wf (hw.fs j)
      · exact hmono j (hfs j hj)
    · intro j id hj
      by_cases hji : j = i
      · subst hji
        rw [hm.inodeOf] at hj
        split_ifs at hj <;> simpa using hj
      · rwa [hfs j hji] at hj

theorem Changes.wf (hw : w.WF) (h : Changes S w w') : w'.WF := by
  induction h with
  | refl => exact hw
  | tail _ hh ih => exact hh.wf ih

theorem Grows.wf (hw : w.WF) (h : Grows S w w') : w'.WF := h.changes.wf hw

def madeSys (sys : Sys) : Nat → Sys
  | 0 => sys
  | n + 1 => (MemoryFS.new (madeSys sys n)).sys

def fresh (n : Nat) (sys : Sys) : World (Fin n) :=
  { fs := fun i => (MemoryFS.new (madeSys sys i)).fs, sys := madeSys sys n }

def fst : MemoryRef (Fin 2) := ⟨0⟩
def snd : MemoryRef (Fin 2) := ⟨1⟩

theorem madeSys_next (sys : Sys) (n : Nat) :
    (madeSys sys n).nextNodeId = sys.nextNodeId + n := by
  induction n with
  | zero => rfl
  | succ n ih =>
    show (madeSys sys n).nextNodeId + 1 = _
    rw [ih, Nat.add_assoc]

theorem fresh_wf (n : Nat) (sys : Sys) : (fresh n sys).WF := by
  constructor
  · intro i
    refine (MemoryFS.new_wf (madeSys sys i)).mono ?_
    show (madeSys sys i).nextNodeId + 1 ≤ (madeSys sys n).nextNodeId
    rw [madeSys_next, madeSys_next, Nat.add_assoc]
    exact Nat.add_le_add_left i.isLt _
  · intro i j id hi hj
    simp only [fresh, MemoryFS.new_inodeOf, madeSys_next] at hi hj
    have hi' : id = sys.nextNodeId + i := by
      by_contra hne
      simp [hne] at hi
    have hj' : id = sys.nextNodeId + j := by
      by_contra hne
      simp [hne] at hj
    exact Fin.ext (Nat.add_left_cancel (hi'.symm.trans hj'))

end World

end SandboxVfs
