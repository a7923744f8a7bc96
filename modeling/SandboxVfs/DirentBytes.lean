import SandboxVfs.Library.ByteBuffers
import SandboxVfs.LinuxDirents

/-! What `write_dirents64` stores byte by byte, and what a reader of the buffer finds. -/

namespace SandboxVfs

open ByteBuffers

def writeRecord (mem : Memory) (a ino nextOffset : Nat) (entry : VfsDirEntry) : Memory :=
  let name := entry.name
  let mem := store mem a (leBytes 8 ino)
  let mem := store mem (a + 8) (leBytes 8 nextOffset)
  let mem := store mem (a + 16) (leBytes 2 (reclen entry))
  let mem := store mem (a + 18) [direntType entry.kind]
  let mem := store mem (a + 19) name
  let mem := store mem (a + 19 + name.length) [0]
  store mem (a + 19 + name.length + 1) (List.replicate (reclen entry - (19 + name.length + 1)) 0)

/-- The loop of `write_dirents64` with its stores, into the buffer at `dirp`. -/
def writeLoopInto (inodeForPath : List (List UInt8) → Nat) (parentPath : PathBuf)
    (startOffset dirp count : Nat) : List VfsDirEntry → Nat → Nat → Memory → Nat × Nat × Memory
  | [], written, consumed, mem => (written, consumed, mem)
  | entry :: entries, written, consumed, mem =>
    if written + reclen entry > count then (written, consumed, mem)
    else
      let ino := entry.ino.getD (inodeForPath (entryPath parentPath entry.name))
      let mem := writeRecord mem (dirp + written) ino (startOffset + consumed + 1) entry
      writeLoopInto inodeForPath parentPath startOffset dirp count entries
        (written + reclen entry) (consumed + 1) mem

/-- The result, the number of entries consumed and the memory. -/
def writeDirents64Into (inodeForPath : List (List UInt8) → Nat) (parentPath : PathBuf)
    (entries : List VfsDirEntry) (startOffset dirp : Nat) (count : Int) (mem : Memory) :
    Int × Nat × Memory :=
  if dirp = 0 ∨ count ≤ 0 then (-1, 0, mem)
  else
    let r := writeLoopInto inodeForPath parentPath startOffset dirp count.toNat entries 0 0 mem
    if r.2.1 = 0 && !entries.isEmpty then (-1, 0, r.2.2) else (r.1, r.2.1, r.2.2)

namespace Dirent

def size (d : Dirent) : Nat := alignTo (19 + d.dName.length + 1) 8

def bytes (d : Dirent) : List UInt8 :=
  leBytes 8 d.dIno ++ (leBytes 8 d.dOff ++ (leBytes 2 d.dReclen ++ ([d.dType] ++ (d.dName ++
    ([0] ++ List.replicate (d.size - (19 + d.dName.length + 1)) 0)))))

theorem le_size (d : Dirent) : 19 + d.dName.length + 1 ≤ d.size := by
  unfold size alignTo
  omega

theorem dvd_size (d : Dirent) : 8 ∣ d.size := ⟨_, Nat.mul_comm _ _⟩

@[simp]
theorem length_bytes (d : Dirent) : d.bytes.length = d.size := by
  have hle := d.le_size
  simp only [bytes, List.length_append, length_leBytes, List.length_singleton,
    List.length_replicate]
  omega

end Dirent

theorem leBytes_mod (n v : Nat) : leBytes n (v % 256 ^ n) = leBytes n v := by
  induction n generalizing v with
  | zero => rfl
  | succ n ih =>
    have hmod : v % 256 ^ (n + 1) % 256 = v % 256 :=
      Nat.mod_mod_of_dvd v (Dvd.intro_left (256 ^ n) (pow_succ 256 n).symm)
    have hdiv : v % 256 ^ (n + 1) / 256 = v / 256 % 256 ^ n := by
      rw [pow_succ', Nat.mod_mul_right_div_self]
    rw [leBytes, leBytes, hdiv, ih]
    congr 1
    apply UInt8.toNat_inj.mp
    simp [hmod]

variable {inodeForPath : List (List UInt8) → Nat} {parentPath : PathBuf}

theorem size_dirent (entry : VfsDirEntry) (offset : Nat) :
    (dirent inodeForPath parentPath entry offset).size = reclen entry := rfl

theorem writeRecord_eq (mem : Memory) (a offset : Nat) (entry : VfsDirEntry) :
    writeRecord mem a (entry.ino.getD (inodeForPath (entryPath parentPath entry.name))) offset
        entry =
      store mem a (dirent inodeForPath parentPath entry offset).bytes := by
  have hlen : leBytes 2 (reclen entry % 2 ^ 16) = leBytes 2 (reclen entry) := leBytes_mod 2 _
  have happ (bs cs : List UInt8) (mem : Memory) (k b : Nat) (hb : b = k + bs.length) :
      store (store mem k bs) b cs = store mem k (bs ++ cs) := by
    rw [hb, store_append]
  simp only [writeRecord, Dirent.bytes, size_dirent]
  rw [happ _ _ _ a (a + 8) (by simp)]
  rw [happ _ _ _ a (a + 16) (by simp)]
  rw [happ _ _ _ a (a + 18) (by simp)]
  rw [happ _ _ _ a (a + 19) (by simp)]
  rw [happ _ _ _ a (a + 19 + entry.name.length) (by simp; omega)]
  rw [happ _ _ _ a (a + 19 + entry.name.length + 1) (by simp; omega)]
  simp only [dirent, hlen, List.append_assoc]

/-- The loop with its stores is the loop over the records. -/
theorem writeLoopInto_eq (startOffset dirp count : Nat) (entries : List VfsDirEntry)
    (written consumed : Nat) (mem : Memory) :
    writeLoopInto inodeForPath parentPath startOffset dirp count entries written consumed mem =
      let r := writeLoop inodeForPath parentPath startOffset count entries written consumed
      (r.1, r.2.1, store mem (dirp + written) (r.2.2.flatMap Dirent.bytes)) := by
  induction entries generalizing written consumed mem with
  | nil => simp [writeLoopInto, writeLoop]
  | cons entry entries ih =>
    rw [writeLoopInto, writeLoop]
    split_ifs with hfull
    · simp
    · simp only [ih, writeRecord_eq, List.flatMap_cons]
      rw [← store_append, Dirent.length_bytes, size_dirent, ← Nat.add_assoc]

/-- The loop takes the entries for which the buffer has room, up to the first that does
not fit. -/
theorem writeLoop_spec (inodeForPath : List (List UInt8) → Nat) (parentPath : PathBuf)
    (startOffset count : Nat) (entries : List VfsDirEntry) (written consumed : Nat)
    (hw : written ≤ count) :
    let r := writeLoop inodeForPath parentPath startOffset count entries written consumed
    ∃ k ≤ entries.length, r.2.1 = consumed + k ∧
      r.2.2 = ((entries.zipIdx (startOffset + consumed + 1)).take k).map
        (fun x => dirent inodeForPath parentPath x.1 x.2) ∧
      r.1 = written + (r.2.2.flatMap Dirent.bytes).length ∧ r.1 ≤ count ∧
      ∀ e, entries[k]? = some e → count < r.1 + reclen e := by
  induction entries generalizing written consumed with
  | nil => exact ⟨0, le_rfl, rfl, rfl, rfl, hw, by simp⟩
  | cons entry entries ih =>
    rw [writeLoop]
    split_ifs with hfull
    · refine ⟨0, Nat.zero_le _, rfl, rfl, rfl, hw, ?_⟩
      intro e he
      cases Option.some.inj he
      exact hfull
    · obtain ⟨k, hk, hc, hr, hlen, hle, hnext⟩ := ih (written + reclen entry) (consumed + 1) (by omega)
      refine ⟨k + 1, by simpa using hk, ?_, ?_, ?_, hle, hnext⟩
      · dsimp only
        omega
      · dsimp only
        rw [hr, List.zipIdx_cons, List.take_succ_cons, List.map_cons]
        rfl
      · dsimp only
        rw [List.flatMap_cons, List.length_append, Dirent.length_bytes, size_dirent, hlen]
        omega

theorem writeDirents64Into_eq (entries : List VfsDirEntry) (startOffset dirp : Nat) (count : Int)
    (mem : Memory) :
    writeDirents64Into inodeForPath parentPath entries startOffset dirp count mem =
      let r := writeDirents64 inodeForPath parentPath entries startOffset (decide (dirp = 0)) count
      (r.bytesWritten, r.entriesConsumed, store mem dirp (r.records.flatMap Dirent.bytes)) := by
  unfold writeDirents64Into writeDirents64
  by_cases hbad : dirp = 0 ∨ count ≤ 0
  · simp [hbad]
  · obtain ⟨k, -, hc, hr, -⟩ := writeLoop_spec inodeForPath parentPath startOffset count.toNat
      entries 0 0 (Nat.zero_le _)
    have hnone : (writeLoop inodeForPath parentPath startOffset count.toNat entries 0 0).2.1 = 0 →
        (writeLoop inodeForPath parentPath startOffset count.toNat entries 0 0).2.2 = [] := by
      intro hz
      have hk : k = 0 := by omega
      rw [hr, hk, List.take_zero, List.map_nil]
    simp only [hbad, if_false, writeLoopInto_eq, Nat.add_zero]
    by_cases hfail : ((writeLoop inodeForPath parentPath startOffset count.toNat entries 0 0).2.1 = 0 &&
        !entries.isEmpty) = true
    · have hz := hnone (of_decide_eq_true (Bool.and_eq_true_iff.mp hfail).1)
      simp [hfail, hz, not_or.mp hbad]
    · simp [hfail, not_or.mp hbad]

theorem writeDirents64_cases (inodeForPath : List (List UInt8) → Nat) (parentPath : PathBuf)
    (entries : List VfsDirEntry) (startOffset : Nat) (dirpIsNull : Bool) (count : Int) :
    let r := writeDirents64 inodeForPath parentPath entries startOffset dirpIsNull count
    ((dirpIsNull = true ∨ count ≤ 0 ∨ ∃ e ∈ entries.head?, count < reclen e) ∧ r = ⟨-1, 0, []⟩) ∨
      ¬ (dirpIsNull = true ∨ count ≤ 0 ∨ ∃ e ∈ entries.head?, count < reclen e) ∧
        r.entriesConsumed ≤ entries.length ∧ (r.entriesConsumed = 0 ↔ entries = []) ∧
        r.records = ((entries.zipIdx (startOffset + 1)).take r.entriesConsumed).map
          (fun x => dirent inodeForPath parentPath x.1 x.2) ∧
        r.bytesWritten = (r.records.flatMap Dirent.bytes).length ∧ r.bytesWritten ≤ count := by
  intro r
  by_cases hbad : dirpIsNull = true ∨ count ≤ 0
  · have hr : r = ⟨-1, 0, []⟩ := by simp [r, writeDirents64, hbad]
    exact Or.inl ⟨hbad.imp_right Or.inl, hr⟩
  obtain ⟨k, hk, hc, hrec, hlen, hle, hnext⟩ := writeLoop_spec inodeForPath parentPath startOffset
    count.toNat entries 0 0 (Nat.zero_le _)
  have hpos : 0 < count := not_le.mp fun h => hbad (Or.inr h)
  cases entries with
  | nil =>
    have hr : r = ⟨0, 0, []⟩ := by simp [r, writeDirents64, writeLoop, not_or.mp hbad]
    refine Or.inr ⟨?_, ?_⟩
    · simpa using hbad
    · simp [hr, hpos.le]
  | cons e es =>
    by_cases hz : k = 0
    · subst hz
      have hfirst := hnext e rfl
      rw [hlen, hrec] at hfirst
      have hfull : count < reclen e := by
        simp at hfirst
        omega
      refine Or.inl ⟨Or.inr (Or.inr ⟨e, rfl, hfull⟩), ?_⟩
      simp [r, writeDirents64, hc, not_or.mp hbad]
    · have hr : r = ⟨(writeLoop inodeForPath parentPath startOffset count.toNat (e :: es) 0 0).1, k,
          (writeLoop inodeForPath parentPath startOffset count.toNat (e :: es) 0 0).2.2⟩ := by
        simp [r, writeDirents64, hc, hz, not_or.mp hbad]
      refine Or.inr ⟨?_, ?_⟩
      · rintro (hn | hn | ⟨e', he, hn⟩)
        · exact hbad (Or.inl hn)
        · exact hbad (Or.inr hn)
        · cases Option.some.inj he
          obtain ⟨k, rfl⟩ := Nat.exists_eq_succ_of_ne_zero hz
          rw [hrec, List.zipIdx_cons, List.take_succ_cons, List.map_cons, List.flatMap_cons,
            List.length_append, Dirent.length_bytes, size_dirent] at hlen
          dsimp only at hlen
          omega
      · rw [hr]
        refine ⟨hk, by simp [hz], hrec, ?_, ?_⟩
        · exact congrArg Nat.cast (hlen.trans (Nat.zero_add _))
        · show ((writeLoop _ _ _ _ _ _ _).1 : Int) ≤ count
          omega

/-- `struct linux_dirent64`, with the name up to its NUL. -/
structure LinuxDirent64 where
  dIno : UInt64
  dOff : Int64
  dReclen : UInt16
  dType : UInt8
  dName : List UInt8
  deriving DecidableEq, Repr

/-- The entry that a reader makes of a record: its name, its kind and its inode. -/
def LinuxDirent64.entry (d : LinuxDirent64) : List UInt8 × Option VfsEntryKind × UInt64 :=
  (d.dName, kindOfType d.dType, d.dIno)

/-- What a reader should make of an entry of the directory at `parentPath`. -/
def VfsDirEntry.read (inodeForPath : List (List UInt8) → Nat) (parentPath : PathBuf)
    (e : VfsDirEntry) : List UInt8 × Option VfsEntryKind × UInt64 :=
  (e.name, some e.kind, UInt64.ofNat (e.ino.getD (inodeForPath (entryPath parentPath e.name))))

def readDirent (bytes : List UInt8) : LinuxDirent64 :=
  let dReclen := UInt16.ofNat (leValue ((bytes.drop 16).take 2))
  { dIno := UInt64.ofNat (leValue (bytes.take 8))
    dOff := Int64.ofNat (leValue ((bytes.drop 8).take 8))
    dReclen
    dType := bytes[18]?.getD 0
    dName := ((bytes.take dReclen.toNat).drop 19).takeWhile (· ≠ 0) }

/-- The records of a buffer, each with its start: the next one is `dReclen` bytes on. -/
def readDirents : Nat → Nat → List UInt8 → List (Nat × LinuxDirent64)
  | 0, _, _ => []
  | _ + 1, _, [] => []
  | fuel + 1, start, b :: bytes =>
    let d := readDirent (b :: bytes)
    (start, d) :: readDirents fuel (start + d.dReclen.toNat) ((b :: bytes).drop d.dReclen.toNat)

/-- The records in the first `n` bytes of the buffer at `dirp`. -/
def readBuffer (mem : Memory) (dirp n : Nat) : List (Nat × LinuxDirent64) :=
  readDirents n 0 (load mem dirp n)

namespace Dirent

def toLinux (d : Dirent) : LinuxDirent64 :=
  { dIno := UInt64.ofNat d.dIno
    dOff := Int64.ofNat d.dOff
    dReclen := UInt16.ofNat d.dReclen
    dType := d.dType
    dName := d.dName }

/-- A reader can make out the end of the name and the end of the record. -/
structure Readable (d : Dirent) : Prop where
  name : 0 ∉ d.dName
  reclen : d.dReclen = d.size
  fits : d.size < 2 ^ 16

theorem toLinux_reclen {d : Dirent} (h : d.Readable) : d.toLinux.dReclen.toNat = d.size := by
  rw [toLinux, h.reclen]
  exact Nat.mod_eq_of_lt h.fits

theorem slice_append {α : Type*} (front piece back : List α) {i n : Nat} (hi : front.length = i)
    (hn : piece.length = n) : ((front ++ (piece ++ back)).drop i).take n = piece := by
  rw [List.drop_left' hi, List.take_left' hn]

theorem readDirent_reclen (d : Dirent) (rest : List UInt8) :
    (readDirent (d.bytes ++ rest)).dReclen = UInt16.ofNat d.dReclen := by
  rw [readDirent, bytes, ← List.append_assoc (leBytes 8 _), List.append_assoc _ _ rest,
    List.append_assoc _ _ rest, slice_append _ _ _ (by simp) (length_leBytes 2 _), leValue_leBytes]
  exact UInt16.ofNat_mod_size

theorem readDirent_bytes {d : Dirent} (h : d.Readable) (rest : List UInt8) :
    readDirent (d.bytes ++ rest) = d.toLinux := by
  have hino : UInt64.ofNat (leValue ((d.bytes ++ rest).take 8)) = UInt64.ofNat d.dIno := by
    rw [bytes, List.append_assoc, List.take_left' (length_leBytes 8 _), leValue_leBytes]
    exact UInt64.ofNat_mod_size
  have hoff : Int64.ofNat (leValue (((d.bytes ++ rest).drop 8).take 8)) = Int64.ofNat d.dOff := by
    rw [bytes, List.append_assoc, List.append_assoc,
      slice_append _ _ _ (length_leBytes 8 _) (length_leBytes 8 _), leValue_leBytes]
    apply Int64.toBitVec_inj.mp
    apply BitVec.eq_of_toNat_eq
    simp
  have hlen : UInt16.ofNat (leValue (((d.bytes ++ rest).drop 16).take 2)) = UInt16.ofNat d.dReclen :=
    readDirent_reclen d rest
  have htype : (d.bytes ++ rest)[18]?.getD 0 = d.dType := by
    simp [bytes, List.getElem?_append_right]
  have hsize : (UInt16.ofNat d.dReclen).toNat = d.bytes.length := by
    rw [length_bytes]
    exact toLinux_reclen h
  have hname : (((d.bytes ++ rest).take d.bytes.length).drop 19).takeWhile (· ≠ 0) = d.dName := by
    have hfront : d.bytes = (leBytes 8 d.dIno ++ leBytes 8 d.dOff ++ leBytes 2 d.dReclen ++
        [d.dType]) ++ (d.dName ++ 0 :: List.replicate (d.size - (19 + d.dName.length + 1)) 0) := by
      simp [bytes]
    have hne : ∀ b ∈ d.dName, decide (b ≠ 0) = true := by
      intro b hb
      apply decide_eq_true
      rintro rfl
      exact h.name hb
    rw [List.take_left, hfront, List.drop_left' (by simp), List.takeWhile_append_of_pos hne]
    simp
  rw [readDirent]
  simp only [hino, hoff, hlen, htype, hsize, hname]
  rfl

theorem readDirents_bytes {ds : List Dirent} (h : ∀ d ∈ ds, d.Readable) {fuel start : Nat}
    (hf : ds.length ≤ fuel) (hs : 8 ∣ start) :
    (readDirents fuel start (ds.flatMap bytes)).map (·.2) = ds.map toLinux ∧
      ∀ x ∈ readDirents fuel start (ds.flatMap bytes), 8 ∣ x.1 := by
  induction ds generalizing fuel start with
  | nil => cases fuel <;> simp [readDirents]
  | cons d ds ih =>
    cases fuel with
    | zero => simp at hf
    | succ fuel =>
      have hd := h d List.mem_cons_self
      have hpos : 0 < (d.bytes ++ ds.flatMap bytes).length := by
        have hle := d.le_size
        rw [List.length_append, length_bytes]
        omega
      obtain ⟨b, bs, hb⟩ := List.exists_cons_of_length_pos hpos
      have hsize : (readDirent (d.bytes ++ ds.flatMap bytes)).dReclen.toNat = d.bytes.length := by
        rw [readDirent_bytes hd, length_bytes, toLinux_reclen hd]
      have hnext : 8 ∣ start + d.bytes.length := by
        rw [length_bytes]
        exact dvd_add hs d.dvd_size
      obtain ⟨hmap, hstart⟩ := ih (fun e he => h e (List.mem_cons_of_mem d he))
        (Nat.le_of_succ_le_succ hf) hnext
      rw [List.flatMap_cons, hb, readDirents, ← hb, hsize, List.drop_left, readDirent_bytes hd]
      constructor
      · rw [List.map_cons, List.map_cons, hmap]
      · intro x hx
        rcases List.mem_cons.mp hx with rfl | hx
        · exact hs
        · exact hstart x hx

def starts : Nat → List Dirent → List Nat
  | _, [] => []
  | start, d :: ds => start :: starts (start + d.bytes.length) ds

/-- Lengths that are exact lead a reader from record to record. -/
theorem readDirents_starts {ds : List Dirent}
    (h : ∀ d ∈ ds, d.dReclen = d.bytes.length ∧ d.bytes.length < 2 ^ 16) {fuel start : Nat}
    (hf : ds.length ≤ fuel) :
    (readDirents fuel start (ds.flatMap bytes)).map (·.1) = starts start ds := by
  induction ds generalizing fuel start with
  | nil => cases fuel <;> rfl
  | cons d ds ih =>
    cases fuel with
    | zero => simp at hf
    | succ fuel =>
      obtain ⟨hlen, hfits⟩ := h d List.mem_cons_self
      have hpos : 0 < (d.bytes ++ ds.flatMap bytes).length := by
        have hle := d.le_size
        rw [List.length_append, length_bytes]
        omega
      obtain ⟨b, bs, hb⟩ := List.exists_cons_of_length_pos hpos
      have hsize : (readDirent (d.bytes ++ ds.flatMap bytes)).dReclen.toNat = d.bytes.length := by
        rw [readDirent_reclen, hlen]
        exact Nat.mod_eq_of_lt hfits
      rw [List.flatMap_cons, hb, readDirents, ← hb, hsize, List.drop_left, List.map_cons, starts,
        ih (fun e he => h e (List.mem_cons_of_mem d he)) (Nat.le_of_succ_le_succ hf)]

theorem sum_reclen {ds : List Dirent} (h : ∀ d ∈ ds, d.Readable) :
    ((ds.map toLinux).map fun d => (d.dReclen.toNat : Int)).sum = (ds.flatMap bytes).length := by
  induction ds with
  | nil => rfl
  | cons d ds ih =>
    simp only [List.map_cons, List.sum_cons, List.flatMap_cons, List.length_append, length_bytes,
      toLinux_reclen (h d List.mem_cons_self), ih fun e he => h e (List.mem_cons_of_mem d he)]
    omega

theorem length_le_bytes (ds : List Dirent) : ds.length ≤ (ds.flatMap bytes).length := by
  induction ds with
  | nil => exact le_rfl
  | cons d ds ih =>
    have hle := d.le_size
    rw [List.flatMap_cons, List.length_append, length_bytes, List.length_cons]
    omega

end Dirent

end SandboxVfs
