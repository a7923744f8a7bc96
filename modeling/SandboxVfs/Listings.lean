import SandboxVfs.NamespaceView
import SandboxVfs.WorldSteps

/-! The names in a directory, in the order of its listing, and how many a change
leaves there. -/

namespace SandboxVfs

namespace MemoryFS

variable {fs fs' : MemoryFS} {next : NodeId} {d : NodeId}

def namesIn (fs : MemoryFS) (d : NodeId) : List FileName := (fs.entriesOf d).elim [] (·.keys)

def nameCount (fs : MemoryFS) (d : NodeId) : Nat := (fs.namesIn d).length

theorem mem_namesIn {x : FileName} : x ∈ fs.namesIn d ↔ ∃ c, fs.entryAt d x = some c := by
  unfold namesIn entryAt
  cases fs.entriesOf d with
  | none => simp
  | some es => simp [Std.ExtTreeMap.mem_keys, ← Option.isSome_iff_exists]

theorem namesIn_nodup (fs : MemoryFS) (d : NodeId) : (fs.namesIn d).Nodup := by
  unfold namesIn
  cases fs.entriesOf d with
  | none => exact List.nodup_nil
  | some es =>
    refine es.distinct_keys.imp ?_
    intro x y hne he
    exact hne (by rw [he, Std.compare_self])

theorem WF.readNodeDir_names (h : fs.WF next) (hd : fs.isDir d = true) :
    ∃ l, fs.readNodeDir d = some l ∧ l.map (·.name) = (fs.namesIn d).map (·.bytes) := by
  obtain ⟨es, he⟩ := isDir_iff_entries.mp hd
  refine ⟨es.toList.map fs.dirEntry, by rw [h.readNodeDir_eq, he]; rfl, ?_⟩
  rw [namesIn, he]
  simp only [Option.elim, ← Std.ExtTreeMap.map_fst_toList_eq_keys, List.map_map]
  rfl

theorem WF.readNodeDir_file (h : fs.WF next) (hd : fs.isDir d = false) :
    fs.readNodeDir d = none := by
  rw [h.readNodeDir_eq]
  cases he : fs.entriesOf d with
  | none => rfl
  | some es => simp [isDir, he] at hd

theorem nameCount_le_of_entryAt
    (h : ∀ x c, fs.entryAt d x = some c → fs'.entryAt d x = some c) :
    fs.nameCount d ≤ fs'.nameCount d := by
  refine ((fs.namesIn_nodup d).subperm ?_).length_le
  intro x hx
  obtain ⟨c, hc⟩ := mem_namesIn.mp hx
  exact mem_namesIn.mpr ⟨c, h x c hc⟩

/-- Two directories whose names differ in what was taken out and what was put in. -/
theorem nameCount_eq_of_mem (taken put : List FileName) (htaken : taken.Nodup) (hput : put.Nodup)
    (hgone : ∀ x ∈ taken, x ∉ fs'.namesIn d) (hnew : ∀ x ∈ put, x ∉ fs.namesIn d)
    (h : ∀ x, x ∈ taken ∨ x ∈ fs'.namesIn d ↔ x ∈ put ∨ x ∈ fs.namesIn d) :
    fs'.nameCount d + taken.length = fs.nameCount d + put.length := by
  have hl : (taken ++ fs'.namesIn d).Nodup :=
    htaken.append (fs'.namesIn_nodup d) fun x hx hx' => hgone x hx hx'
  have hr : (put ++ fs.namesIn d).Nodup :=
    hput.append (fs.namesIn_nodup d) fun x hx hx' => hnew x hx hx'
  have hperm := (List.perm_ext_iff_of_nodup hl hr).mpr (by simpa using h)
  have hlen := hperm.length_eq
  simp only [List.length_append] at hlen
  unfold nameCount
  omega

theorem Removed.nameCount {parent c : NodeId} {name : FileName}
    (hr : Removed fs fs' parent name c) (d : NodeId) :
    fs'.nameCount d + (if d = parent then 1 else 0) = fs.nameCount d := by
  split_ifs with hd
  · subst hd
    refine nameCount_eq_of_mem [name] [] (by simp) (by simp) ?_ (by simp) ?_
    · simp [mem_namesIn, hr.entryAt]
    · intro x
      simp only [mem_namesIn, hr.entryAt, List.mem_singleton, List.not_mem_nil, false_or]
      by_cases hx : x = name
      · simp [hx, hr.present]
      · simp [hx]
  · refine nameCount_eq_of_mem [] [] (by simp) (by simp) (by simp) (by simp) ?_
    intro x
    simp [mem_namesIn, hr.entryAt, hd]

theorem Moved.nameCount {a b c : NodeId} {x y : FileName} {replaced : Option NodeId}
    (hm : Moved fs fs' a x b y c replaced) (d : NodeId) :
    fs'.nameCount d + (if d = a then 1 else 0) =
      fs.nameCount d + (if d = b ∧ replaced = none then 1 else 0) := by
  have hne : ¬ (a = b ∧ x = y) := by
    rintro ⟨rfl, rfl⟩
    exact hm.ne (hm.replaced_eq.symm.trans hm.present)
  have hh : fs'.nameCount d + (if d = a then [x] else []).length =
      fs.nameCount d + (if d = b ∧ replaced = none then [y] else []).length := by
    refine nameCount_eq_of_mem _ _ (by split_ifs <;> simp) (by split_ifs <;> simp) ?_ ?_ ?_
    · intro z hz hz'
      split_ifs at hz with hd
      · subst hd
        simp only [List.mem_singleton] at hz
        subst hz
        obtain ⟨e, he⟩ := mem_namesIn.mp hz'
        rw [hm.entryAt, if_neg hne, if_pos ⟨rfl, rfl⟩] at he
        cases he
      · simp at hz
    · intro z hz hz'
      split_ifs at hz with hd
      · obtain ⟨rfl, hnone⟩ := hd
        simp only [List.mem_singleton] at hz
        subst hz
        obtain ⟨e, he⟩ := mem_namesIn.mp hz'
        rw [hm.replaced_eq, hnone] at he
        cases he
      · simp at hz
    · intro z
      have hpres := hm.present
      have hrep := hm.replaced_eq
      simp only [mem_namesIn, hm.entryAt]
      by_cases hby : d = b ∧ z = y
      · obtain ⟨rfl, rfl⟩ := hby
        cases hr : replaced <;> simp_all
      · by_cases hax : d = a ∧ z = x
        · obtain ⟨rfl, rfl⟩ := hax
          simp [hpres]
        · by_cases ha : d = a <;> by_cases hb : d = b <;> simp_all
  split_ifs at hh ⊢ <;> simpa using hh

theorem ModeSet.nameCount {id : NodeId} {mode : Mode} (hs : ModeSet fs fs' id mode) (d : NodeId) :
    fs'.nameCount d = fs.nameCount d := by
  have hent (x : FileName) : fs'.entryAt d x = fs.entryAt d x := hs.entryAt d x
  apply le_antisymm
  · exact nameCount_le_of_entryAt fun x c hx => by rwa [hent] at hx
  · exact nameCount_le_of_entryAt fun x c hx => by rwa [hent]

/-- The removal succeeds, on a name in the directory `d`. -/
def RemovesFrom (fs : MemoryFS) (p : PathBuf) (kind : VfsEntryKind) (d : NodeId) : Prop :=
  fs.CanRemove p kind ∧ fs.resolveNames p.dropLast = some d

/-- The rename succeeds and leaves `d` with one name less: it takes the name elsewhere,
or puts it in the place of another one in `d`. -/
def RenamesFrom (fs : MemoryFS) (old new : PathBuf) (d : NodeId) : Prop :=
  fs.CanMove old new ∧ fs.resolveNames old.dropLast = some d ∧
    (old.dropLast = new.dropLast → ∃ r, fs.resolveNames new = some r)

theorem removeNodeAt_nameCount (h : fs.WF next) (p : PathBuf) (kind : VfsEntryKind)
    (d : NodeId) :
    (fs.RemovesFrom p kind d →
        (fs.removeNodeAt p.toAbs kind).2.nameCount d + 1 = fs.nameCount d) ∧
      (¬ fs.RemovesFrom p kind d →
        (fs.removeNodeAt p.toAbs kind).2.nameCount d = fs.nameCount d) := by
  have hcan : fs.CanRemove p kind ↔ (fs.removeNodeAt p.toAbs kind).1 = 0 :=
    (removeNodeAt_toAbs_iff h p kind).symm
  rcases removeNodeAt_toAbs_cases h p kind with he | ⟨fs', q, x, e, c, he, rfl, hq, -, -, hr, -⟩
  · rw [RemovesFrom, hcan, he]
    simp
  · have hiff : fs.RemovesFrom (q ++ [x]) kind d ↔ d = e := by
      rw [RemovesFrom, hcan, he, List.dropLast_concat, hq, Option.some.injEq]
      simp [eq_comm]
    have hcount := hr.nameCount d
    rw [hiff, he]
    split_ifs at hcount with hd
    · exact ⟨fun _ => hcount, fun hne => absurd hd hne⟩
    · exact ⟨fun hh => absurd hh hd, fun _ => hcount⟩

theorem renameNodeAt_nameCount (h : fs.WF next) {old new : PathBuf}
    (hr : fs.renameNodeAt old.toAbs new.toAbs = some fs') (d : NodeId) :
    (fs.RenamesFrom old new d → fs'.nameCount d + 1 = fs.nameCount d) ∧
      (¬ fs.RenamesFrom old new d → fs.nameCount d ≤ fs'.nameCount d) := by
  by_cases hne : old = new
  · subst hne
    rw [renameNodeAt_same] at hr
    split_ifs at hr
    cases hr
    exact ⟨fun hh => absurd rfl hh.1.ne, fun _ => le_rfl⟩
  · have hcan : fs.CanMove old new := (renameNodeAt_isSome_iff h hne).mp (by rw [hr]; rfl)
    obtain ⟨pa, x, a, pb, y, b, c, replaced, rfl, rfl, ha, hb, -, hm, -, -, -⟩ :=
      renameNodeAt_toAbs h hne hr
    have hy : fs.resolveNames (pb ++ [y]) = replaced := by
      rw [h.resolveNames_concat, hb]
      exact hm.replaced_eq
    have hab : pa = pb ↔ a = b := by
      constructor
      · rintro rfl
        exact Option.some.inj (ha.symm.trans hb)
      · rintro rfl
        exact h.resolveNames_inj ha hb
    have hiff : fs.RenamesFrom (pa ++ [x]) (pb ++ [y]) d ↔
        d = a ∧ (a = b → replaced ≠ none) := by
      rw [RenamesFrom, List.dropLast_concat, List.dropLast_concat, ha, hy, hab,
        ← Option.isSome_iff_exists, Option.isSome_iff_ne_none, Option.some.injEq]
      exact ⟨fun hh => ⟨hh.2.1.symm, hh.2.2⟩, fun hh => ⟨hcan, hh.1.symm, hh.2⟩⟩
    have hcount := hm.nameCount d
    rw [hiff]
    constructor
    · rintro ⟨rfl, hrep⟩
      have hb' : ¬ (d = b ∧ replaced = none) := fun hh => hrep hh.1 hh.2
      rw [if_pos rfl, if_neg hb'] at hcount
      exact hcount
    · intro hnot
      split_ifs at hcount with hda hdb
      · omega
      · exact absurd ⟨hda, fun hdb' hrep => hdb ⟨hda.trans hdb', hrep⟩⟩ hnot
      · omega
      · omega

end MemoryFS

end SandboxVfs
