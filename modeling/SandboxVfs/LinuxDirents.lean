import SandboxVfs.Filesystem

/-! The records of `getdents64`. -/

namespace SandboxVfs

structure Dirent where
  dIno : Nat
  dOff : Nat
  dReclen : Nat
  dType : UInt8
  dName : List UInt8
  deriving DecidableEq, Repr

structure WriteDirentsResult where
  bytesWritten : Int
  entriesConsumed : Nat
  records : List Dirent
  deriving DecidableEq, Repr

def dotName : List UInt8 := [46]
def dotDotName : List UInt8 := [46, 46]

def dotEntries : List VfsDirEntry := [⟨dotName, .dir, none⟩, ⟨dotDotName, .dir, none⟩]

/-- A path by the bytes of its components, which is what is hashed. -/
def entryPath (parentPath : PathBuf) (name : List UInt8) : List (List UInt8) :=
  if name = dotName then parentPath.map (·.bytes)
  else if name = dotDotName then parentPath.dropLast.map (·.bytes)
  else parentPath.map (·.bytes) ++ [name]

def alignTo (value alignment : Nat) : Nat := (value + alignment - 1) / alignment * alignment

def reclen (entry : VfsDirEntry) : Nat := alignTo (19 + entry.name.length + 1) 8

def DT_DIR : UInt8 := 4
def DT_REG : UInt8 := 8

def direntType : VfsEntryKind → UInt8
  | .file => DT_REG
  | .dir => DT_DIR

def kindOfType (dType : UInt8) : Option VfsEntryKind :=
  if dType = DT_REG then some .file
  else if dType = DT_DIR then some .dir
  else none

@[simp]
theorem kindOfType_direntType (kind : VfsEntryKind) : kindOfType (direntType kind) = some kind := by
  cases kind <;> rfl

def dirent (inodeForPath : List (List UInt8) → Nat) (parentPath : PathBuf) (entry : VfsDirEntry)
    (offset : Nat) : Dirent :=
  { dIno := entry.ino.getD (inodeForPath (entryPath parentPath entry.name))
    dOff := offset
    dReclen := reclen entry % 2 ^ 16
    dType := direntType entry.kind
    dName := entry.name }

/-- The loop of `write_dirents64` from `written` bytes and `consumed` entries on. -/
def writeLoop (inodeForPath : List (List UInt8) → Nat) (parentPath : PathBuf)
    (startOffset count : Nat) : List VfsDirEntry → Nat → Nat → Nat × Nat × List Dirent
  | [], written, consumed => (written, consumed, [])
  | entry :: entries, written, consumed =>
    if written + reclen entry > count then (written, consumed, [])
    else
      let rest := writeLoop inodeForPath parentPath startOffset count entries
        (written + reclen entry) (consumed + 1)
      (rest.1, rest.2.1, dirent inodeForPath parentPath entry (startOffset + consumed + 1) :: rest.2.2)

def writeDirents64 (inodeForPath : List (List UInt8) → Nat) (parentPath : PathBuf)
    (entries : List VfsDirEntry) (startOffset : Nat) (dirpIsNull : Bool) (count : Int) :
    WriteDirentsResult :=
  if dirpIsNull || count ≤ 0 then ⟨-1, 0, []⟩
  else
    let r := writeLoop inodeForPath parentPath startOffset count.toNat entries 0 0
    if r.2.1 = 0 && !entries.isEmpty then ⟨-1, 0, []⟩ else ⟨r.1, r.2.1, r.2.2⟩

/-- What a record takes from its entry, whatever its offset: `g` of it is `h` of the entry. -/
theorem writeLoop_consumed {α : Type*} (inodeForPath : List (List UInt8) → Nat)
    (parentPath : PathBuf) {g : Dirent → α} {h : VfsDirEntry → α}
    (hg : ∀ e offset, g (dirent inodeForPath parentPath e offset) = h e)
    (startOffset count : Nat) (entries : List VfsDirEntry) (written consumed : Nat) :
    ∃ k ≤ entries.length,
      (writeLoop inodeForPath parentPath startOffset count entries written consumed).2.1 =
        consumed + k ∧
      (writeLoop inodeForPath parentPath startOffset count entries written consumed).2.2.map g =
        (entries.take k).map h := by
  induction entries generalizing written consumed with
  | nil => exact ⟨0, le_rfl, rfl, rfl⟩
  | cons entry entries ih =>
    rw [writeLoop]
    split_ifs with hfull
    · exact ⟨0, Nat.zero_le _, rfl, rfl⟩
    · obtain ⟨k, hk, hc, hn⟩ := ih (written + reclen entry) (consumed + 1)
      refine ⟨k + 1, by simpa using hk, ?_, ?_⟩
      · dsimp only
        rw [hc]
        omega
      · simpa [hg] using hn

theorem writeDirents64_map {α : Type*} (inodeForPath : List (List UInt8) → Nat)
    (parentPath : PathBuf) {g : Dirent → α} {h : VfsDirEntry → α}
    (hg : ∀ e offset, g (dirent inodeForPath parentPath e offset) = h e)
    (entries : List VfsDirEntry) (startOffset : Nat) (dirpIsNull : Bool) (count : Int) :
    let r := writeDirents64 inodeForPath parentPath entries startOffset dirpIsNull count
    r.entriesConsumed ≤ entries.length ∧
      r.records.map g = (entries.take r.entriesConsumed).map h := by
  intro r
  obtain ⟨k, hk, hc, hn⟩ :=
    writeLoop_consumed inodeForPath parentPath hg startOffset count.toNat entries 0 0
  simp only [r, writeDirents64]
  split_ifs
  · simp
  · simp
  · dsimp only
    rw [hc, hn, Nat.zero_add]
    exact ⟨hk, rfl⟩

theorem writeDirents64_records (inodeForPath : List (List UInt8) → Nat) (parentPath : PathBuf)
    (entries : List VfsDirEntry) (startOffset : Nat) (dirpIsNull : Bool) (count : Int) :
    let r := writeDirents64 inodeForPath parentPath entries startOffset dirpIsNull count
    r.entriesConsumed ≤ entries.length ∧
      r.records.map (·.dName) = (entries.take r.entriesConsumed).map (·.name) :=
  writeDirents64_map inodeForPath parentPath (fun _ _ => rfl) entries startOffset dirpIsNull count

theorem writeDirents64_eq_zero {inodeForPath : List (List UInt8) → Nat} {parentPath : PathBuf}
    {entries : List VfsDirEntry} {startOffset : Nat} {dirpIsNull : Bool} {count : Int}
    (h : (writeDirents64 inodeForPath parentPath entries startOffset dirpIsNull count).bytesWritten
      = 0) : entries = [] := by
  have hpos (e : VfsDirEntry) : 0 < reclen e := by
    unfold reclen alignTo
    omega
  have hmono (es : List VfsDirEntry) (written consumed : Nat) :
      written ≤ (writeLoop inodeForPath parentPath startOffset count.toNat es written consumed).1 := by
    induction es generalizing written consumed with
    | nil => exact le_rfl
    | cons e es ih =>
      rw [writeLoop]
      split_ifs
      · exact le_rfl
      · exact (Nat.le_add_right _ _).trans (ih _ _)
  cases entries with
  | nil => rfl
  | cons e es =>
    exfalso
    have hw := hmono es (0 + reclen e) (0 + 1)
    have hp := hpos e
    by_cases hfull : 0 + reclen e > count.toNat
    · rw [writeDirents64, writeLoop, if_pos hfull] at h
      split_ifs at h <;> simp_all
    · simp only [writeDirents64, writeLoop, hfull, if_false] at h
      split_ifs at h
      · simp at h
      · simp at h
      · simp only [Nat.cast_eq_zero] at h
        omega

end SandboxVfs
