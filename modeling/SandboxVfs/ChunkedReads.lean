import SandboxVfs.DirectoryScans
import SandboxVfs.DirentBytes

/-! A directory read with `getdents64` into buffers of any size. -/

namespace SandboxVfs

open ByteBuffers

theorem drop_zipIdx {α : Type*} (l : List α) (k n : Nat) :
    (l.zipIdx n).drop k = (l.drop k).zipIdx (n + k) := by
  induction l generalizing k n with
  | nil => simp
  | cons a l ih =>
    cases k with
    | zero => rfl
    | succ k =>
      rw [List.zipIdx_cons, List.drop_succ_cons, List.drop_succ_cons, ih]
      congr 1
      omega

namespace RootVFS

variable {B H W : Type} [LowLevelFS B H W] [OpenedFile H W] {v v' : RootVFS B H W} {fd : Int}

/-- `getdents64` with the memory that it writes to. -/
def getdents64Into (v : RootVFS B H W) (fd : Int) (dirp : Nat) (count : Int) (mem : Memory) :
    Outcome (Option (Int × Memory) × RootVFS B H W) :=
  match v.fds[fd]? with
  | none => .returned (none, v)
  | some info =>
    match v.dirEntries info with
    | none => .returned (none, v)
    | some entries =>
      if entries.length < info.dirOffset then .panicked
      else
        let result := writeDirents64Into v.inodeForPath info.path (entries.drop info.dirOffset)
          info.dirOffset dirp count mem
        .returned (some (result.1, result.2.2),
          if 0 ≤ result.1 then v.advance fd info result.2.1 else v)

/-- The records that `getdents64` answers with are what it has stored. -/
theorem getdents64Into_eq (v : RootVFS B H W) (fd : Int) (dirp : Nat) (count : Int) (mem : Memory) :
    v.getdents64Into fd dirp count mem =
      match v.getdents64 fd (decide (dirp = 0)) count with
      | .panicked => .panicked
      | .returned (r, v') =>
        .returned (r.map fun x => (x.1, store mem dirp (x.2.flatMap Dirent.bytes)), v') := by
  unfold getdents64Into getdents64
  cases v.fds[fd]? with
  | none => rfl
  | some info =>
    cases he : v.dirEntries info with
    | none => simp [he]
    | some entries =>
      simp only [he, writeDirents64Into_eq]
      split_ifs <;> rfl

def dirOffset (v : RootVFS B H W) (fd : Int) : Nat := (v.fds[fd]?).elim 0 (·.dirOffset)

/-- A call on the descriptor, or what others do in between. -/
inductive ReadOp (B H W : Type) where
  | read (mem : Memory) (dirp : Nat) (count : Int)
  | others (v' : RootVFS B H W)

def readStep (fd : Int) (v : RootVFS B H W) : ReadOp B H W → RootVFS B H W
  | .read mem dirp count =>
    match v.getdents64Into fd dirp count mem with
    | .panicked => v
    | .returned r => r.2
  | .others v' => v'

def decoded (fd : Int) (v : RootVFS B H W) : ReadOp B H W → List LinuxDirent64
  | .read mem dirp count =>
    match v.getdents64Into fd dirp count mem with
    | .returned (some (n, mem'), _) => (readBuffer mem' dirp n.toNat).map (·.2)
    | _ => []
  | .others _ => []

/-- The others leave the directory and the descriptor as they are. -/
def Unmodified (fd : Int) (v : RootVFS B H W) : ReadOp B H W → Prop
  | .read _ _ _ => True
  | .others v' => v'.fds[fd]? = v.fds[fd]? ∧ v'.inodeForPath = v.inodeForPath ∧
    ∀ info, v.fds[fd]? = some info → v'.dirEntries info = v.dirEntries info

def wholeDir (inodeForPath : List (List UInt8) → Nat) (path : PathBuf) (all : List VfsDirEntry) :
    List Dirent :=
  (all.zipIdx 1).map fun x => dirent inodeForPath path x.1 x.2

/-- The reader of `fd` is in the directory at `path`, which has the entries `all`. -/
structure Reading (fd : Int) (inodeForPath : List (List UInt8) → Nat) (path : PathBuf)
    (all : List VfsDirEntry) (v : RootVFS B H W) : Prop where
  hash : v.inodeForPath = inodeForPath
  tracked : ∃ info, v.fds[fd]? = some info ∧ info.path = path ∧ info.dirOffset ≤ all.length ∧
    v.dirEntries info = some all

/-- What a call on the descriptor does with the `count` bytes at `dirp`. -/
structure ReadsWell (fd : Int) (all : List VfsDirEntry) (v : RootVFS B H W) (mem : Memory)
    (dirp : Nat) (count n : Int) (mem' : Memory) (v' : RootVFS B H W) : Prop where
  inside : ∀ a, ¬ (dirp ≤ a ∧ a < dirp + count.toNat) → mem' a = mem a
  whole : 0 ≤ n → n = ((readBuffer mem' dirp n.toNat).map fun x => (x.2.dReclen.toNat : Int)).sum
  aligned : ∀ x ∈ readBuffer mem' dirp n.toNat, 8 ∣ x.1
  status : n = -1 ∨ 0 ≤ n
  refused : n = -1 ↔ dirp = 0 ∨ count ≤ 0 ∨ ∃ e ∈ (all.drop (v.dirOffset fd)).head?, count < reclen e
  stays : n = -1 → v'.dirOffset fd = v.dirOffset fd
  ends : n = 0 ↔ dirp ≠ 0 ∧ 0 < count ∧ v.dirOffset fd = all.length

theorem wholeDir_entry (inodeForPath : List (List UInt8) → Nat) (path : PathBuf)
    (all : List VfsDirEntry) :
    ((wholeDir inodeForPath path all).map Dirent.toLinux).map LinuxDirent64.entry =
      all.map (VfsDirEntry.read inodeForPath path) := by
  have hentry (x : VfsDirEntry × Nat) :
      (dirent inodeForPath path x.1 x.2).toLinux.entry = x.1.read inodeForPath path := by
    simp [LinuxDirent64.entry, VfsDirEntry.read, Dirent.toLinux, dirent]
  rw [wholeDir, List.map_map, List.map_map]
  calc (all.zipIdx 1).map (LinuxDirent64.entry ∘ Dirent.toLinux ∘ fun x =>
        dirent inodeForPath path x.1 x.2)
      = (all.zipIdx 1).map (VfsDirEntry.read inodeForPath path ∘ Prod.fst) :=
        List.map_congr_left fun x _ => hentry x
    _ = all.map (VfsDirEntry.read inodeForPath path) := by
        rw [← List.map_map, List.zipIdx_map_fst]

theorem wholeDir_dOff (inodeForPath : List (List UInt8) → Nat) (path : PathBuf)
    (all : List VfsDirEntry) :
    ((wholeDir inodeForPath path all).map Dirent.toLinux).map (·.dOff) =
      (List.range' 1 all.length).map Int64.ofNat := by
  rw [wholeDir, List.map_map, List.map_map, ← List.zipIdx_map_snd 1 all, List.map_map]
  exact List.map_congr_left fun x _ => rfl

theorem Reading.unmodified {inodeForPath : List (List UInt8) → Nat} {path : PathBuf}
    {all : List VfsDirEntry} (h : Reading fd inodeForPath path all v)
    (hsame : Unmodified fd v (.others v')) :
    Reading fd inodeForPath path all v' ∧ v'.dirOffset fd = v.dirOffset fd := by
  obtain ⟨hfd, hhash, hentries⟩ := hsame
  obtain ⟨info, hi, hpath, hoff, hall⟩ := h.tracked
  refine ⟨⟨hhash.trans h.hash, info, hfd.trans hi, hpath, hoff, (hentries info hi).trans hall⟩, ?_⟩
  rw [dirOffset, dirOffset, hfd]

theorem readable_dirent {inodeForPath : List (List UInt8) → Nat} {path : PathBuf} {e : VfsDirEntry}
    (hname : 0 ∉ e.name) (hfit : reclen e < 2 ^ 16) (offset : Nat) :
    (dirent inodeForPath path e offset).Readable :=
  ⟨hname, Nat.mod_eq_of_lt hfit, hfit⟩

theorem Reading.read {inodeForPath : List (List UInt8) → Nat} {path : PathBuf}
    {all : List VfsDirEntry} (h : Reading fd inodeForPath path all v)
    (hok : ∀ e ∈ all, 0 ∉ e.name ∧ reclen e < 2 ^ 16) (mem : Memory) (dirp : Nat) (count : Int) :
    ∃ n mem' v' k, v.getdents64Into fd dirp count mem = .returned (some (n, mem'), v') ∧
      ReadsWell fd all v mem dirp count n mem' v' ∧ Reading fd inodeForPath path all v' ∧
      v'.dirOffset fd = v.dirOffset fd + k ∧
      (readBuffer mem' dirp n.toNat).map (·.2) =
        (((wholeDir inodeForPath path all).map Dirent.toLinux).drop (v.dirOffset fd)).take k := by
  obtain ⟨info, hi, rfl, hoff, hall⟩ := h.tracked
  have hpos : v.dirOffset fd = info.dirOffset := by simp [dirOffset, hi]
  have hcall : v.getdents64Into fd dirp count mem = _ := getdents64Into_eq v fd dirp count mem
  simp only [getdents64, hi, hall, if_neg (not_lt.mpr hoff), h.hash] at hcall
  rcases writeDirents64_cases inodeForPath info.path (all.drop info.dirOffset) info.dirOffset
    (decide (dirp = 0)) count with ⟨hbad, hr⟩ | ⟨hgood, hk, hempty, hrec, hbytes, hle⟩
  · rw [hr] at hcall
    have hbad' : dirp = 0 ∨ count ≤ 0 ∨ ∃ e ∈ (all.drop (v.dirOffset fd)).head?, count < reclen e := by
      simpa [hpos] using hbad
    refine ⟨-1, mem, v, 0, by simpa using hcall, ?_, h, rfl, by simp [readBuffer, readDirents]⟩
    refine ⟨fun _ _ => rfl, by simp, by simp [readBuffer, readDirents], Or.inl rfl,
      iff_of_true rfl hbad', fun _ => rfl, ?_⟩
    refine iff_of_false (by simp) ?_
    rintro ⟨hd, hc, hend⟩
    rcases hbad' with h | h | ⟨e, he, -⟩
    · exact hd h
    · omega
    · simp [hend] at he
  · set r := writeDirents64 inodeForPath info.path (all.drop info.dirOffset) info.dirOffset
      (decide (dirp = 0)) count
    have hds : r.records = ((wholeDir inodeForPath info.path all).drop info.dirOffset).take
        r.entriesConsumed := by
      rw [hrec, wholeDir, ← List.map_drop, ← List.map_take, drop_zipIdx, Nat.add_comm 1]
    have hread : ∀ d ∈ r.records, d.Readable := by
      intro d hd
      obtain ⟨x, hx, rfl⟩ := List.mem_map.mp (List.mem_of_mem_drop (List.mem_of_mem_take (hds ▸ hd)))
      have he := hok x.1 (List.fst_mem_of_mem_zipIdx hx)
      exact readable_dirent he.1 he.2 x.2
    have hn : 0 ≤ r.bytesWritten := by
      rw [hbytes]
      exact Int.natCast_nonneg _
    have hload : load (store mem dirp (r.records.flatMap Dirent.bytes)) dirp r.bytesWritten.toNat =
        r.records.flatMap Dirent.bytes := by
      rw [hbytes, Int.toNat_natCast, load_store]
    have hfuel : r.records.length ≤ r.bytesWritten.toNat := by
      rw [hbytes, Int.toNat_natCast]
      exact Dirent.length_le_bytes _
    obtain ⟨hmap, hstart⟩ := Dirent.readDirents_bytes hread hfuel (Nat.dvd_zero 8)
    have hreader : (readBuffer (store mem dirp (r.records.flatMap Dirent.bytes)) dirp
        r.bytesWritten.toNat).map (·.2) = r.records.map Dirent.toLinux := by
      rw [readBuffer, hload]
      exact hmap
    have hend : all.drop info.dirOffset = [] ↔ info.dirOffset = all.length := by
      rw [List.drop_eq_nil_iff]
      omega
    refine ⟨r.bytesWritten, store mem dirp (r.records.flatMap Dirent.bytes),
      v.advance fd info r.entriesConsumed, r.entriesConsumed, ?_, ?_, ?_, ?_, ?_⟩
    · simpa [hn] using hcall
    · constructor
      · intro a ha
        refine store_outside fun hin => ha ⟨hin.1, ?_⟩
        omega
      · intro _
        rw [← Function.comp_def (fun d : LinuxDirent64 => (d.dReclen.toNat : Int)), ← List.map_map,
          hreader, Dirent.sum_reclen hread, hbytes]
      · rw [readBuffer, hload]
        exact hstart
      · exact Or.inr hn
      · refine iff_of_false (by omega) ?_
        simpa [hpos] using hgood
      · intro hneg
        omega
      · have hlen : r.records.length = r.entriesConsumed := by
          rw [hrec]
          simpa using hk
        have hle := Dirent.length_le_bytes r.records
        have hzero : ((r.records.flatMap Dirent.bytes).length : Int) = 0 ↔ r.entriesConsumed = 0 := by
          constructor
          · intro hz
            omega
          · intro hz
            rw [List.length_eq_zero_iff.mp (hlen.trans hz)]
            rfl
        have hfree : dirp ≠ 0 ∧ 0 < count := by
          refine ⟨fun hd => hgood (Or.inl (decide_eq_true hd)), ?_⟩
          exact not_le.mp fun hc => hgood (Or.inr (Or.inl hc))
        rw [hpos, ← hend, ← hempty, hbytes, hzero]
        exact ⟨fun hz => ⟨hfree.1, hfree.2, hz⟩, fun hz => hz.2.2⟩
    · refine ⟨h.hash, { info with dirOffset := info.dirOffset + r.entriesConsumed }, ?_, rfl, ?_, hall⟩
      · rw [advance_getElem?, if_pos rfl]
      · rw [List.length_drop] at hk
        show info.dirOffset + r.entriesConsumed ≤ all.length
        omega
    · rw [hpos, dirOffset, advance_getElem?, if_pos rfl]
      rfl
    · rw [hreader, hds, hpos, ← List.map_drop, ← List.map_take]

theorem Reading.step {inodeForPath : List (List UInt8) → Nat} {path : PathBuf}
    {all : List VfsDirEntry} (h : Reading fd inodeForPath path all v)
    (hok : ∀ e ∈ all, 0 ∉ e.name ∧ reclen e < 2 ^ 16) {op : ReadOp B H W}
    (hsame : Unmodified fd v op) :
    Reading fd inodeForPath path all (readStep fd v op) ∧
      ∃ k, (readStep fd v op).dirOffset fd = v.dirOffset fd + k ∧
        decoded fd v op =
          (((wholeDir inodeForPath path all).map Dirent.toLinux).drop (v.dirOffset fd)).take k := by
  cases op with
  | read mem dirp count =>
    obtain ⟨n, mem', v', k, hcall, -, hnext, hoff, hdec⟩ := h.read hok mem dirp count
    have hstep : readStep fd v (.read mem dirp count) = v' := by simp [readStep, hcall]
    rw [hstep]
    refine ⟨hnext, k, hoff, ?_⟩
    simpa [decoded, hcall] using hdec
  | others v' =>
    obtain ⟨hnext, hoff⟩ := h.unmodified hsame
    exact ⟨hnext, 0, hoff, by simp [decoded]⟩

theorem dotEntries_fit {e : VfsDirEntry} (he : e ∈ dotEntries) : 0 ∉ e.name ∧ reclen e < 2 ^ 16 := by
  have hall : ∀ e ∈ dotEntries, 0 ∉ e.name ∧ reclen e < 2 ^ 16 := by decide
  exact hall e he

/-- Calls with buffers of any size, and others in between that leave the directory as it is:
each call does what it should, and together the buffers hold the directory from its start,
with the name, the kind and the inode of each entry. -/
theorem reads_roundTrip {info : FdInfo H} {entries : List VfsDirEntry} (hi : v.fds[fd]? = some info)
    (h0 : info.dirOffset = 0) (hl : v.listing info = some entries)
    (hok : ∀ e ∈ entries, 0 ∉ e.name ∧ reclen e < 2 ^ 16) (ops : List (ReadOp B H W))
    (hsame : Runs.EveryStep (readStep fd) (Unmodified fd) v ops) :
    let all := dotEntries ++ entries
    let records := (wholeDir v.inodeForPath info.path all).map Dirent.toLinux
    let last := ops.foldl (readStep fd) v
    let read := Scans.outputs (readStep fd) (decoded fd) v ops
    (∀ l, l <+: ops → ∀ mem dirp count,
      ∃ n mem' v', (l.foldl (readStep fd) v).getdents64Into fd dirp count mem =
          .returned (some (n, mem'), v') ∧
        ReadsWell fd all (l.foldl (readStep fd) v) mem dirp count n mem' v') ∧
    read = records.take (last.dirOffset fd) ∧
    read.map LinuxDirent64.entry =
      (all.take (last.dirOffset fd)).map (VfsDirEntry.read v.inodeForPath info.path) ∧
    read.map (·.dOff) = (List.range' 1 (last.dirOffset fd)).map Int64.ofNat ∧
    ∀ mem dirp count mem' v',
      last.getdents64Into fd dirp count mem = .returned (some (0, mem'), v') →
        read = records ∧
          read.map LinuxDirent64.entry = all.map (VfsDirEntry.read v.inodeForPath info.path) := by
  intro all records last read
  have hfit : ∀ e ∈ all, 0 ∉ e.name ∧ reclen e < 2 ^ 16 := by
    intro e he
    rcases List.mem_append.mp he with he | he
    · exact dotEntries_fit he
    · exact hok e he
  have hstart : Reading fd v.inodeForPath info.path all v :=
    ⟨rfl, info, hi, rfl, h0 ▸ Nat.zero_le _, by rw [dirEntries, hl]; rfl⟩
  have hinv (u : RootVFS B H W) (op : ReadOp B H W) (hu : Reading fd v.inodeForPath info.path all u)
      (hop : Unmodified fd u op) : Reading fd v.inodeForPath info.path all (readStep fd u op) :=
    (hu.step hfit hop).1
  have hpos : v.dirOffset fd = 0 := by simp [dirOffset, hi, h0]
  have hsteps : Runs.EveryStep (readStep fd) (fun u op => ∃ k, records = records ∧
      (readStep fd u op).dirOffset fd = u.dirOffset fd + k ∧
        decoded fd u op = (records.drop (u.dirOffset fd)).take k) v ops := by
    refine hsame.imp (Reading fd v.inodeForPath info.path all) ?_ hstart
    intro u op hu hop
    obtain ⟨k, hoff, hdec⟩ := (hu.step hfit hop).2
    exact ⟨hinv u op hu hop, k, rfl, hoff, hdec⟩
  have hout : read = records.take (last.dirOffset fd) := by
    have hdeliver : records.take (v.dirOffset fd) ++ read = records.take (last.dirOffset fd) :=
      @Scans.take_append_outputs _ _ _ (readStep fd) (decoded fd) (fun u => u.dirOffset fd)
        (fun _ => records) v ops hsteps
    simpa [hpos] using hdeliver
  have hlast : Reading fd v.inodeForPath info.path all last :=
    hsame.inv_of_prefix _ hinv hstart List.prefix_rfl
  have hle : last.dirOffset fd ≤ all.length := by
    obtain ⟨i, hi', -, hoff, -⟩ := hlast.tracked
    simpa [dirOffset, hi'] using hoff
  refine ⟨?_, hout, ?_, ?_, ?_⟩
  · intro l hl mem dirp count
    have hu := hsame.inv_of_prefix _ hinv hstart hl
    obtain ⟨n, mem', v', k, hcall, hwell, -⟩ := hu.read hfit mem dirp count
    exact ⟨n, mem', v', hcall, hwell⟩
  · rw [hout, List.map_take, wholeDir_entry, ← List.map_take]
  · rw [hout, List.map_take, wholeDir_dOff, ← List.map_take, List.take_range'_of_length_ge hle]
  · intro mem dirp count mem' v' hzero
    obtain ⟨n, mem'', v'', k, hcall, hwell, -⟩ := hlast.read hfit mem dirp count
    have hn : n = 0 := by
      have he := hzero.symm.trans hcall
      simp only [Outcome.returned.injEq, Prod.mk.injEq, Option.some.injEq] at he
      exact he.1.1.symm
    have hend : last.dirOffset fd = all.length := (hwell.ends.mp hn).2.2
    have hall : read = records := by
      rw [hout, hend, List.take_of_length_le]
      simp [records, wholeDir]
    exact ⟨hall, by rw [hall, wholeDir_entry]⟩

end RootVFS

namespace Vfs

open RootVFS

/-- The first buffer holds three records, the second the rest. -/
def readTwice : List (ReadOp (Backend Unit) (MemoryOpenedFile Unit) (World Unit)) :=
  [.read (fun _ => 255) 4096 90, .read (fun _ => 255) 8192 90]

theorem reads_openedD :
    (Scans.outputs (readStep 9) (decoded 9) openedD readTwice).map LinuxDirent64.entry =
      [(dotName, some .dir, 0), (dotDotName, some .dir, 0), ([97], some .file, 3),
        ([98], some .file, 4)] :=
  (reads_roundTrip (show openedD.fds[(9 : Int)]? = some ⟨[.d], 0, some ⟨⟨()⟩, 2⟩⟩ by decide +kernel) rfl
    (show openedD.listing ⟨[.d], 0, some ⟨⟨()⟩, 2⟩⟩ =
      some [⟨[97], .file, some 3⟩, ⟨[98], .file, some 4⟩] by decide +kernel)
    (by decide) readTwice ⟨trivial, trivial, trivial⟩).2.2.1.trans (by decide +kernel)

end Vfs

end SandboxVfs
