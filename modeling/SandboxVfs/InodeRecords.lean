import SandboxVfs.BaseDirectory
import SandboxVfs.DirectoryScans

/-! The inode numbers in the records of `getdents64` against those that `stat` reports
for the same names. -/

namespace SandboxVfs

open MemoryFS

/-- The name of a component as a record carries it. -/
def Component.text : Component → List UInt8
  | .curDir => dotName
  | .parentDir => dotDotName
  | .normal x => x.bytes

theorem Component.text_inj {c c' : Component} (h : c.text = c'.text) : c = c' := by
  cases c with
  | curDir =>
    cases c' with
    | curDir => rfl
    | parentDir => exact absurd h (by decide)
    | normal y => exact absurd h.symm y.ne_dot
  | parentDir =>
    cases c' with
    | curDir => exact absurd h (by decide)
    | parentDir => rfl
    | normal y => exact absurd h.symm y.ne_dot_dot
  | normal x =>
    cases c' with
    | curDir => exact absurd h x.ne_dot
    | parentDir => exact absurd h x.ne_dot_dot
    | normal y => exact congrArg _ (FileName.ext h)

def totalReclen (entries : List VfsDirEntry) : Nat := (entries.map reclen).sum

theorem le_writeLoop_consumed (inodeForPath : List (List UInt8) → Nat) (parentPath : PathBuf)
    (startOffset count : Nat) (entries : List VfsDirEntry) (written consumed j : Nat)
    (hw : written ≤ count) :
    consumed + j ≤
        (writeLoop inodeForPath parentPath startOffset count entries written consumed).2.1 ↔
      j ≤ entries.length ∧ written + totalReclen (entries.take j) ≤ count := by
  induction entries generalizing written consumed j with
  | nil =>
    simp only [writeLoop, List.length_nil, List.take_nil, totalReclen, List.map_nil, List.sum_nil]
    omega
  | cons entry entries ih =>
    rw [writeLoop]
    cases j with
    | zero =>
      have hmono : consumed ≤ (writeLoop inodeForPath parentPath startOffset count
          (entry :: entries) written consumed).2.1 := by
        obtain ⟨k, -, hc, -⟩ := writeLoop_consumed inodeForPath parentPath (g := fun _ => ())
          (h := fun _ => ()) (fun _ _ => rfl) startOffset count (entry :: entries) written consumed
        omega
      rw [writeLoop] at hmono
      simpa [totalReclen, hw] using hmono
    | succ j =>
      simp only [List.take_succ_cons, totalReclen, List.map_cons, List.sum_cons, List.length_cons]
      split_ifs with hfull
      · simp only
        omega
      · have hh := ih (written + reclen entry) (consumed + 1) j (by omega)
        simp only [totalReclen] at hh
        rw [show consumed + (j + 1) = consumed + 1 + j by omega, hh]
        constructor
        · rintro ⟨hj, hs⟩
          exact ⟨by omega, by omega⟩
        · rintro ⟨hj, hs⟩
          exact ⟨by omega, by omega⟩

theorem le_entriesConsumed_iff (inodeForPath : List (List UInt8) → Nat) (parentPath : PathBuf)
    (entries : List VfsDirEntry) (startOffset : Nat) (dirpIsNull : Bool) (count : Int) (j : Nat)
    (hj : 0 < j) :
    j ≤ (writeDirents64 inodeForPath parentPath entries startOffset dirpIsNull
        count).entriesConsumed ↔
      dirpIsNull = false ∧ j ≤ entries.length ∧
        (totalReclen (entries.take j) : Int) ≤ count := by
  have hloop := le_writeLoop_consumed inodeForPath parentPath startOffset count.toNat entries 0 0 j
    (Nat.zero_le _)
  rw [Nat.zero_add, Nat.zero_add] at hloop
  have hpos (hlen : j ≤ entries.length) : 0 < totalReclen (entries.take j) := by
    obtain ⟨i, rfl⟩ := Nat.exists_eq_succ_of_ne_zero hj.ne'
    cases entries with
    | nil => simp at hlen
    | cons e es =>
      simp only [Nat.succ_eq_add_one, List.take_succ_cons, totalReclen, List.map_cons, List.sum_cons]
      have he : 0 < reclen e := by
        unfold reclen alignTo
        omega
      omega
  unfold writeDirents64
  dsimp only
  split_ifs with hno hnone
  · rw [Bool.or_eq_true, decide_eq_true_iff] at hno
    dsimp only
    constructor
    · intro h
      omega
    · rintro ⟨hnull, hlen, hfit⟩
      have hp := hpos hlen
      rcases hno with hno | hno
      · rw [hnull] at hno
        cases hno
      · omega
  · rw [Bool.or_eq_true, decide_eq_true_iff, not_or] at hno
    rw [Bool.and_eq_true, decide_eq_true_iff] at hnone
    rw [hnone.1] at hloop
    dsimp only
    constructor
    · intro h
      omega
    · rintro ⟨-, hlen, hfit⟩
      have hle := hloop.mpr ⟨hlen, by omega⟩
      omega
  · rw [Bool.or_eq_true, decide_eq_true_iff, not_or, Bool.not_eq_true] at hno
    dsimp only
    rw [hloop]
    constructor
    · rintro ⟨hlen, hfit⟩
      exact ⟨hno.1, hlen, by omega⟩
    · rintro ⟨-, hlen, hfit⟩
      exact ⟨hlen, by omega⟩

theorem writeLoop_hash (h h' : List (List UInt8) → Nat) (parentPath : PathBuf)
    (startOffset count : Nat) (entries : List VfsDirEntry) (written consumed : Nat) :
    (writeLoop h parentPath startOffset count entries written consumed).1 =
        (writeLoop h' parentPath startOffset count entries written consumed).1 ∧
      (writeLoop h parentPath startOffset count entries written consumed).2.1 =
        (writeLoop h' parentPath startOffset count entries written consumed).2.1 := by
  induction entries generalizing written consumed with
  | nil => exact ⟨rfl, rfl⟩
  | cons e es ih =>
    rw [writeLoop, writeLoop]
    split_ifs
    · exact ⟨rfl, rfl⟩
    · exact ih _ _

theorem writeDirents64_hash (h h' : List (List UInt8) → Nat) (parentPath : PathBuf)
    (entries : List VfsDirEntry) (startOffset : Nat) (dirpIsNull : Bool) (count : Int) :
    (writeDirents64 h parentPath entries startOffset dirpIsNull count).bytesWritten =
        (writeDirents64 h' parentPath entries startOffset dirpIsNull count).bytesWritten ∧
      (writeDirents64 h parentPath entries startOffset dirpIsNull count).entriesConsumed =
        (writeDirents64 h' parentPath entries startOffset dirpIsNull count).entriesConsumed := by
  obtain ⟨hw, hc⟩ := writeLoop_hash h h' parentPath startOffset count.toNat entries 0 0
  simp only [writeDirents64, hw, hc]
  split_ifs <;> exact ⟨rfl, rfl⟩

variable {ι : Type} [DecidableEq ι]

namespace Vfs

variable {v : Vfs ι} {fd : Int} {info : FdInfo (MemoryOpenedFile ι)} {f : MemoryRef ι}
  {n : NodeId}

theorem recordsFor_of_entries (hi : v.fds[fd]? = some info) {entries : List VfsDirEntry}
    (he : v.dirEntries info = some entries) (dirpIsNull : Bool) (count : Int) :
    v.recordsFor fd (.getdents64 fd dirpIsNull count) =
      (writeDirents64 v.inodeForPath info.path (entries.drop info.dirOffset) info.dirOffset
        dirpIsNull count).records := by
  simp only [recordsFor, answer, RootVFS.getdents64, hi, he, if_true]
  by_cases hlen : entries.length < info.dirOffset
  · rw [if_pos hlen, List.drop_of_length_le hlen.le]
    unfold writeDirents64
    split_ifs <;> rfl
  · rw [if_neg hlen]
    rfl

/-- The `st_ino` of the file that a name leads to from the node `n`. -/
def inoFrom (v : Vfs ι) (f : MemoryRef ι) (n : NodeId) (c : Component) : Option Nat := do
  let node ← (v.world.fs f.index).resolveRelative n ⟨[c]⟩
  return ((v.world.fs f.index).statNode v.world.sys
    (← (v.world.fs f.index).heap node)).stIno

omit [DecidableEq ι] in
theorem inoFrom_eq (hw : v.world.WF) (hn : ((v.world.fs f.index).inodeOf n).isSome)
    (c : Component) :
    v.inoFrom f n c = (v.world.fs f.index).resolveRelative n ⟨[c]⟩ := by
  unfold inoFrom
  cases hr : (v.world.fs f.index).resolveRelative n ⟨[c]⟩ with
  | none => rfl
  | some node =>
    have hk := (hw.fs f.index).resolveRelative_known hn hr
    obtain ⟨i, hi⟩ := Option.isSome_iff_exists.mp hk
    obtain ⟨x, hx, rfl⟩ := Option.map_eq_some_iff.mp hi
    have hid : x.id = node := ((hw.fs f.index).heap_id node x.inode hi).1
    simp [hx, statNode, hid]

/-- The inode number in a record is the one that `stat` reports for its name. -/
def InoAgrees (v : Vfs ι) (f : MemoryRef ι) (n : NodeId) (name : List UInt8) (ino : Nat) : Prop :=
  ∃ c : Component, c.text = name ∧ v.inoFrom f n c = some ino

omit [DecidableEq ι] in
theorem inoAgrees_iff (c : Component) (ino : Nat) :
    v.InoAgrees f n c.text ino ↔ v.inoFrom f n c = some ino := by
  constructor
  · rintro ⟨c', hc, hi⟩
    rwa [← Component.text_inj hc]
  · intro hi
    exact ⟨c, rfl, hi⟩

omit [DecidableEq ι] in
theorem inoAgrees_of_mem (hw : v.world.WF) {l : List VfsDirEntry}
    (hl : (v.world.fs f.index).readNodeDir n = some l) {e : VfsDirEntry} (he : e ∈ l)
    (ino : Nat) : v.InoAgrees f n e.name (e.ino.getD ino) := by
  have hwf := hw.fs f.index
  rw [hwf.readNodeDir_eq] at hl
  obtain ⟨es, hes, rfl⟩ := Option.map_eq_some_iff.mp hl
  obtain ⟨a, ha, rfl⟩ := List.mem_map.mp he
  have hx := entryAt_of_mem_toList hes ha
  have hn : ((v.world.fs f.index).inodeOf n).isSome := by
    by_contra hno
    rw [Option.not_isSome_iff_eq_none, inodeOf_eq_none] at hno
    rw [entryAt_eq_none_of_heap hno] at hx
    cases hx
  refine ⟨.normal a.1, rfl, ?_⟩
  rw [inoFrom_eq hw hn]
  exact (hwf.resolveRelative_single n a.1).trans hx

/-- Where a record for `.` or `..` is written, the hash of the path recorded at open
time, or of its parent, is by chance the number of the directory or of its parent. -/
structure DotsHashed (v : Vfs ι) (info : FdInfo (MemoryOpenedFile ι)) (f : MemoryRef ι)
    (n : NodeId) (dirpIsNull : Bool) (count : Int) : Prop where
  dot : dirpIsNull = false → info.dirOffset = 0 → 24 ≤ count →
    v.inodeForPath (info.path.map (·.bytes)) = n
  dotDot : dirpIsNull = false →
    (info.dirOffset = 0 ∧ 48 ≤ count ∨ info.dirOffset = 1 ∧ 24 ≤ count) →
    (v.world.fs f.index).resolveRelative n ⟨[.parentDir]⟩ =
      some (v.inodeForPath (info.path.dropLast.map (·.bytes)))

theorem forall_mem_take_cons {α : Type} {P : α → Prop} (a : α) (l : List α) (k : Nat) :
    (∀ e ∈ (a :: l).take k, P e) ↔ (1 ≤ k → P a) ∧ ∀ e ∈ l.take (k - 1), P e := by
  cases k with
  | zero => simp
  | succ k => simp

/-- Every record of a directory shows the number that `stat` reports for its name,
exactly when the hashes of the recorded path happen to be right. -/
theorem records_agree_iff (hv : v.WF) (hi : v.fds[fd]? = some info)
    (ho : info.opened = some ⟨f, n⟩) (hd : (v.world.fs f.index).isDir n = true)
    (dirpIsNull : Bool) (count : Int) :
    (∀ r ∈ v.recordsFor fd (.getdents64 fd dirpIsNull count), v.InoAgrees f n r.dName r.dIno) ↔
      v.DotsHashed info f n dirpIsNull count := by
  obtain ⟨l, hl, -⟩ := (hv.world.fs f.index).readNodeDir_names hd
  have he : v.dirEntries info = some (dotEntries ++ l) := by
    simp [RootVFS.dirEntries, RootVFS.listing, ho, OpenedFile.readDir, hl]
  have hn : ((v.world.fs f.index).inodeOf n).isSome := by
    rw [isDir_eq_inode] at hd
    cases hin : (v.world.fs f.index).inodeOf n with
    | none => simp [hin] at hd
    | some i => rfl
  -- a record is judged by its name and its number, which come from its entry
  let ino (e : VfsDirEntry) : Nat := e.ino.getD (v.inodeForPath (entryPath info.path e.name))
  have hmap := (writeDirents64_map v.inodeForPath info.path (g := fun r => (r.dName, r.dIno))
    (h := fun e => (e.name, ino e)) (fun _ _ => rfl) ((dotEntries ++ l).drop info.dirOffset)
    info.dirOffset dirpIsNull count).2
  have hfit := le_entriesConsumed_iff v.inodeForPath info.path
    ((dotEntries ++ l).drop info.dirOffset) info.dirOffset dirpIsNull count
  rw [recordsFor_of_entries hi he]
  set r := writeDirents64 v.inodeForPath info.path ((dotEntries ++ l).drop info.dirOffset)
    info.dirOffset dirpIsNull count
  have hall : (∀ d ∈ r.records, v.InoAgrees f n d.dName d.dIno) ↔
      ∀ e ∈ ((dotEntries ++ l).drop info.dirOffset).take r.entriesConsumed,
        v.InoAgrees f n e.name (ino e) := by
    have hrec := List.forall_mem_map (l := r.records) (f := fun d => (d.dName, d.dIno))
      (P := fun y : List UInt8 × Nat => v.InoAgrees f n y.1 y.2)
    rw [← hrec, hmap, List.forall_mem_map]
  have hdots (c : Component) (e : VfsDirEntry) (hc : c.text = e.name) :
      v.InoAgrees f n e.name (ino e) ↔
        (v.world.fs f.index).resolveRelative n ⟨[c]⟩ = some (ino e) := by
    rw [← hc, inoAgrees_iff, inoFrom_eq hv.world hn]
  have hdot := hdots .curDir ⟨dotName, .dir, none⟩ rfl
  have hdotDot := hdots .parentDir ⟨dotDotName, .dir, none⟩ rfl
  have hself : (v.world.fs f.index).resolveRelative n ⟨[.curDir]⟩ = some n := rfl
  rw [hself, Option.some.injEq, eq_comm] at hdot
  have hrest (j : Nat) (e : VfsDirEntry) (hm : e ∈ l.take j) : v.InoAgrees f n e.name (ino e) :=
    inoAgrees_of_mem hv.world hl (List.mem_of_mem_take hm) _
  have hlen : (dotEntries ++ l).length = l.length + 2 := by simp [dotEntries]
  rw [hall]
  rcases h0 : info.dirOffset with _ | _ | j
  · rw [h0] at hfit
    have h1 : 1 ≤ r.entriesConsumed ↔ dirpIsNull = false ∧ 24 ≤ count := by
      rw [hfit 1 (by omega), List.drop_zero, hlen]
      simp [dotEntries, totalReclen, reclen, alignTo, dotName]
    have h2 : 1 ≤ r.entriesConsumed - 1 ↔ dirpIsNull = false ∧ 48 ≤ count := by
      have hh := hfit 2 (by omega)
      rw [List.drop_zero, hlen] at hh
      simp [dotEntries, totalReclen, reclen, alignTo, dotName, dotDotName] at hh
      rw [← hh]
      omega
    show (∀ e ∈ (_ :: _ :: l).take r.entriesConsumed, _) ↔ _
    rw [forall_mem_take_cons, forall_mem_take_cons, hdot, hdotDot, h1, h2]
    constructor
    · rintro ⟨hd, hdd, -⟩
      refine ⟨fun hnull _ hc => hd ⟨hnull, hc⟩, ?_⟩
      rintro hnull (⟨-, hc⟩ | ⟨hone, -⟩)
      · exact hdd ⟨hnull, hc⟩
      · omega
    · intro hh
      exact ⟨fun hc => hh.dot hc.1 h0 hc.2, fun hc => hh.dotDot hc.1 (Or.inl ⟨h0, hc.2⟩),
        hrest _⟩
  · rw [h0] at hfit
    have h1 : 1 ≤ r.entriesConsumed ↔ dirpIsNull = false ∧ 24 ≤ count := by
      have hh := hfit 1 (by omega)
      simpa [dotEntries, totalReclen, reclen, alignTo, dotDotName] using hh
    show (∀ e ∈ (_ :: l).take r.entriesConsumed, _) ↔ _
    rw [forall_mem_take_cons, hdotDot, h1]
    constructor
    · rintro ⟨hdd, -⟩
      refine ⟨fun _ hz => by omega, ?_⟩
      rintro hnull (⟨hz, -⟩ | ⟨-, hc⟩)
      · omega
      · exact hdd ⟨hnull, hc⟩
    · intro hh
      exact ⟨fun hc => hh.dotDot hc.1 (Or.inr ⟨h0, hc.2⟩), hrest _⟩
  · refine iff_of_true ?_ ⟨fun _ hz => by omega, fun _ hz => by omega⟩
    intro e hm
    have hdrop : (dotEntries ++ l).drop (j + 1 + 1) = l.drop j := rfl
    rw [hdrop] at hm
    exact inoAgrees_of_mem hv.world hl (List.mem_of_mem_drop (List.mem_of_mem_take hm)) _

def withHash (v : Vfs ι) (h : List (List UInt8) → Nat) : Vfs ι := { v with inodeForPath := h }

omit [DecidableEq ι] in
theorem trackOpen_withHash (v : Vfs ι) (h : List (List UInt8) → Nat)
    (r : OpenResult (MemoryOpenedFile ι)) (path : PathBuf) :
    ((v.withHash h).trackOpen r path).2 = withHash (v.trackOpen r path).2 h := by
  unfold RootVFS.trackOpen
  split_ifs <;> rfl

theorem openVirtual_withHash (v : Vfs ι) (h : List (List UInt8) → Nat) (path : PathBuf)
    (flags : Flags) (mode : Mode) :
    ((v.withHash h).openVirtual path flags mode).2 =
      withHash (v.openVirtual path flags mode).2 h :=
  trackOpen_withHash (v.setWorld _) h _ _

theorem openat_withHash (v : Vfs ι) (h : List (List UInt8) → Nat) (dirfd : Int) (path : Path)
    (flags : Flags) (mode : Mode) :
    ((v.withHash h).openat dirfd path flags mode).2 =
      withHash (v.openat dirfd path flags mode).2 h := by
  cases path with
  | abs p => exact openVirtual_withHash v h _ flags mode
  | rel p =>
    have hsame : (v.withHash h).handleOf dirfd = v.handleOf dirfd := rfl
    have hres : (v.withHash h).resolveOpenatPath dirfd (.rel p) =
        v.resolveOpenatPath dirfd (.rel p) := rfl
    cases hh : v.handleOf dirfd with
    | none =>
      rw [RootVFS.openat_of_no_handle hh, RootVFS.openat_of_no_handle (hsame.trans hh), hres]
      cases v.resolveOpenatPath dirfd (.rel p) with
      | none => rfl
      | some q => exact openVirtual_withHash v h q flags mode
    | some hd =>
      obtain ⟨q, hq, he⟩ := RootVFS.openat_of_handle hh p flags mode rfl
      obtain ⟨q', hq', he'⟩ := RootVFS.openat_of_handle (hsame.trans hh) p flags mode rfl
      cases hq.symm.trans (hres.symm.trans hq')
      rw [he, he']
      exact trackOpen_withHash (v.setWorld _) h _ _

theorem mkdirat_withHash (v : Vfs ι) (h : List (List UInt8) → Nat) (dirfd : Int) (path : Path)
    (mode : Mode) :
    ((v.withHash h).mkdirat dirfd path mode).2 = withHash (v.mkdirat dirfd path mode).2 h := by
  cases path with
  | abs p => rfl
  | rel p =>
    have hsame : (v.withHash h).handleOf dirfd = v.handleOf dirfd := rfl
    have hres : (v.withHash h).resolveOpenatPath dirfd (.rel p) =
        v.resolveOpenatPath dirfd (.rel p) := rfl
    cases hh : v.handleOf dirfd with
    | none =>
      rw [RootVFS.mkdirat_of_no_handle hh, RootVFS.mkdirat_of_no_handle (hsame.trans hh), hres]
      cases v.resolveOpenatPath dirfd (.rel p) <;> rfl
    | some hd =>
      rw [RootVFS.mkdirat_of_handle hh p mode rfl,
        RootVFS.mkdirat_of_handle (hsame.trans hh) p mode rfl]
      rfl

theorem renameat_withHash (v : Vfs ι) (h : List (List UInt8) → Nat) (oldDirfd : Int)
    (oldPath : Path) (newDirfd : Int) (newPath : Path) :
    ((v.withHash h).renameat oldDirfd oldPath newDirfd newPath).2 =
      withHash (v.renameat oldDirfd oldPath newDirfd newPath).2 h := by
  have hold : (v.withHash h).resolveOpenatPath oldDirfd oldPath =
      v.resolveOpenatPath oldDirfd oldPath := by cases oldPath <;> rfl
  have hnew : (v.withHash h).resolveOpenatPath newDirfd newPath =
      v.resolveOpenatPath newDirfd newPath := by cases newPath <;> rfl
  unfold RootVFS.renameat
  rw [hold, hnew]
  cases v.resolveOpenatPath oldDirfd oldPath with
  | none => rfl
  | some p =>
    cases v.resolveOpenatPath newDirfd newPath with
    | none => rfl
    | some q =>
      have hp : (v.withHash h).absolutePathToFs p = v.absolutePathToFs p := rfl
      have hq : (v.withHash h).absolutePathToFs q = v.absolutePathToFs q := rfl
      dsimp only
      unfold RootVFS.renameVirtual
      dsimp only
      rw [hp, hq]
      split_ifs <;> rfl

theorem unlinkat_withHash (v : Vfs ι) (h : List (List UInt8) → Nat) (dirfd : Int) (path : Path)
    (flags : Flags) :
    ((v.withHash h).unlinkat dirfd path flags).2 = withHash (v.unlinkat dirfd path flags).2 h := by
  have hres : (v.withHash h).resolveOpenatPath dirfd path = v.resolveOpenatPath dirfd path := by
    cases path <;> rfl
  unfold RootVFS.unlinkat
  rw [hres]
  cases v.resolveOpenatPath dirfd path with
  | none => rfl
  | some q =>
    dsimp only
    split_ifs <;> rfl

omit [DecidableEq ι] in
theorem cloneFd_withHash (v : Vfs ι) (h : List (List UInt8) → Nat) (oldfd newfd : Int) :
    (v.withHash h).cloneFd oldfd newfd = withHash (v.cloneFd oldfd newfd) h := by
  have hfds : (v.withHash h).fds = v.fds := rfl
  unfold RootVFS.cloneFd
  rw [hfds]
  cases v.fds[oldfd]? <;> rfl

theorem getdents64_withHash (v : Vfs ι) (h : List (List UInt8) → Nat) (fd : Int)
    (dirpIsNull : Bool) (count : Int) :
    (v.withHash h).step (.getdents64 fd dirpIsNull count) =
      (v.step (.getdents64 fd dirpIsNull count)).withHash h := by
  have hfds : (v.withHash h).fds = v.fds := rfl
  simp only [step, RootVFS.getdents64, hfds]
  cases v.fds[fd]? with
  | none => rfl
  | some info =>
    have hent : (v.withHash h).dirEntries info = v.dirEntries info := rfl
    simp only [hent]
    cases v.dirEntries info with
    | none => rfl
    | some entries =>
      obtain ⟨hb, hc⟩ := writeDirents64_hash h v.inodeForPath info.path
        (entries.drop info.dirOffset) info.dirOffset dirpIsNull count
      have hh : (v.withHash h).inodeForPath = h := rfl
      simp only [hh]
      by_cases hlen : entries.length < info.dirOffset
      · rw [if_pos hlen, if_pos hlen]
      · rw [if_neg hlen, if_neg hlen]
        simp only [hb, hc]
        split_ifs <;> rfl

/-- No call lets the hash have an effect on the state. -/
theorem step_withHash (v : Vfs ι) (h : List (List UInt8) → Nat) (op : VfsOp) :
    (v.withHash h).step op = (v.step op).withHash h := by
  cases op with
  | openPath path flags mode =>
    have hp : (v.withHash h).resolvePath path = v.resolvePath path := by cases path <;> rfl
    simp only [step, RootVFS.openPath, hp]
    exact openVirtual_withHash v h _ flags mode
  | openat dirfd path flags mode => exact openat_withHash v h dirfd path flags mode
  | mkdirat dirfd path mode => exact mkdirat_withHash v h dirfd path mode
  | unlinkat dirfd path flags => exact unlinkat_withHash v h dirfd path flags
  | rename oldPath newPath => exact renameat_withHash v h AT_FDCWD oldPath AT_FDCWD newPath
  | renameat oldDirfd oldPath newDirfd newPath =>
    exact renameat_withHash v h oldDirfd oldPath newDirfd newPath
  | cloneFd oldfd newfd => exact cloneFd_withHash v h oldfd newfd
  | getdents64 fd dirpIsNull count => exact getdents64_withHash v h fd dirpIsNull count
  | mkdir path mode => cases path <;> rfl
  | unlink path => cases path <;> rfl
  | rmdir path => cases path <;> rfl
  | chmod path mode => cases path <;> rfl
  | forgetFd fd => rfl
  | setCwd path => rfl
  | elsewhere live => rfl

theorem run_withHash (v : Vfs ι) (h : List (List UInt8) → Nat) (ops : List VfsOp) :
    (v.withHash h).run ops = (v.run ops).withHash h := by
  induction ops generalizing v with
  | nil => rfl
  | cons op ops ih =>
    show ((v.withHash h).step op).run ops = ((v.step op).run ops).withHash h
    rw [step_withHash, ih]

/-- In every state that the calls on a virtual file system over one memory file system
lead to, the records of a directory show the numbers that `stat` reports exactly when
the hashes of the recorded path happen to be right. -/
theorem run_records_agree_iff (inodeForPath : List (List UInt8) → Nat) (sys : Sys)
    (ops : List VfsOp) {fd : Int} {info : FdInfo (MemoryOpenedFile Unit)} {n : NodeId}
    (hi : ((newMemory inodeForPath sys).run ops).fds[fd]? = some info)
    (ho : info.opened = some ⟨⟨()⟩, n⟩)
    (hd : (((newMemory inodeForPath sys).run ops).world.fs ()).isDir n = true)
    (dirpIsNull : Bool) (count : Int) :
    let v := (newMemory inodeForPath sys).run ops
    (∀ r ∈ v.recordsFor fd (.getdents64 fd dirpIsNull count),
        v.InoAgrees ⟨()⟩ n r.dName r.dIno) ↔
      v.DotsHashed info ⟨()⟩ n dirpIsNull count :=
  records_agree_iff (run_wf (newMemory_wf inodeForPath sys) ops) hi ho hd dirpIsNull count

def madeD : List VfsOp :=
  [.mkdir (.abs (PathBuf.toAbs [.d])) 0o755, .openPath (.abs (PathBuf.toAbs [.d])) 0 0]

def remadeD : List VfsOp :=
  [.mkdir (.abs (PathBuf.toAbs [.d])) 0o755, .rmdir (.abs (PathBuf.toAbs [.d])),
    .mkdir (.abs (PathBuf.toAbs [.d])) 0o755, .openPath (.abs (PathBuf.toAbs [.d])) 0 0]

/-- With room for one record it is the one for `.`. -/
theorem records_agree_madeD :
    (((newMemory (fun _ => 2) .boot).run madeD).recordsFor 5 (.getdents64 5 false 24)).map
        (fun r => (r.dName, r.dIno)) = [(dotName, 2)] ∧
      ∀ r ∈ ((newMemory (fun _ => 2) .boot).run madeD).recordsFor 5 (.getdents64 5 false 24),
        ((newMemory (fun _ => 2) .boot).run madeD).InoAgrees ⟨()⟩ 2 r.dName r.dIno := by
  have hi : ((newMemory (fun _ => 2) .boot).run madeD).fds[(5 : Int)]? =
      some ⟨[.d], 0, some ⟨⟨()⟩, 2⟩⟩ := by decide +kernel
  refine ⟨by decide +kernel, (run_records_agree_iff (fun _ => 2) .boot madeD hi rfl
    (by decide +kernel) false 24).mpr ⟨fun _ _ _ => rfl, ?_⟩⟩
  rintro - (⟨-, hc⟩ | ⟨hone, -⟩)
  · omega
  · cases hone

/-- No hash of the path is right both for a directory and for the one that is made in
its place. -/
theorem not_records_agree :
    ¬ ∃ inodeForPath : List (List UInt8) → Nat, ∀ ops fd info n,
      let v := (newMemory inodeForPath .boot).run ops
      v.fds[fd]? = some info → info.opened = some ⟨⟨()⟩, n⟩ →
        (∃ s, (v.world.fs ()).resolveNames s = some n) → (v.world.fs ()).isDir n = true →
        ∀ r ∈ v.recordsFor fd (.getdents64 fd false 24), v.InoAgrees ⟨()⟩ n r.dName r.dIno := by
  rintro ⟨h, hall⟩
  have hash_eq (ops : List VfsOp) (fd : Int) (n : NodeId)
      (hi : ((newMemory (fun _ => 0) .boot).run ops).fds[fd]? = some ⟨[.d], 0, some ⟨⟨()⟩, n⟩⟩)
      (hs : (((newMemory (fun _ => 0) .boot).run ops).world.fs ()).resolveNames [.d] = some n)
      (hd : (((newMemory (fun _ => 0) .boot).run ops).world.fs ()).isDir n = true) :
      h ([FileName.d].map (·.bytes)) = n := by
    have he : (newMemory h .boot).run ops =
        withHash ((newMemory (fun _ => 0) .boot).run ops) h :=
      run_withHash (newMemory (fun _ => 0) .boot) h ops
    have hagree := hall ops fd ⟨[.d], 0, some ⟨⟨()⟩, n⟩⟩ n
    dsimp only at hagree
    rw [he] at hagree
    have hwf : (withHash ((newMemory (fun _ => 0) .boot).run ops) h).WF := by
      rw [← he]
      exact run_wf (newMemory_wf h .boot) ops
    have hdots := (records_agree_iff hwf hi rfl hd false 24).mp (hagree hi rfl ⟨[.d], hs⟩ hd)
    exact hdots.dot rfl rfl le_rfl
  have h2 := hash_eq madeD 5 2 (by decide +kernel) (by decide +kernel) (by decide +kernel)
  have h3 := hash_eq remadeD 6 3 (by decide +kernel) (by decide +kernel) (by decide +kernel)
  rw [h2] at h3
  cases h3

end Vfs

end SandboxVfs
