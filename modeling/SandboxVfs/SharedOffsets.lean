import SandboxVfs.DirectoryScans
import SandboxVfs.Library.Ledgers

/-! Several descriptors of one directory that `clone_fd` has made from one another, each
with an offset of its own. -/

namespace SandboxVfs

open MemoryFS

variable {ι : Type} [DecidableEq ι]

namespace Vfs

variable {v v' : Vfs ι} {f : MemoryRef ι} {d : NodeId} {op : VfsOp}

/-- A virtual file system with the descriptors that come from one open of a directory. -/
structure Group (ι : Type) where
  vfs : Vfs ι
  fds : Finset Int

namespace Group

variable {s : Group ι}

def step (s : Group ι) (op : VfsOp) : Group ι where
  vfs := s.vfs.step op
  fds :=
    match op with
    | .cloneFd oldfd newfd => if oldfd ∈ s.fds then insert newfd s.fds else s.fds
    | _ => s.fds

def Scanning (f : MemoryRef ι) (d : NodeId) (s : Group ι) : Prop :=
  ∀ fd ∈ s.fds, Vfs.Scanning fd f d s.vfs

/-- A member may be read and cloned to a descriptor that is open by then. Everything
else leaves the members and the names in the directory alone. -/
def Calm (f : MemoryRef ι) (d : NodeId) (s : Group ι) (op : VfsOp) : Prop :=
  (s.step op).vfs.world.listed f d = s.vfs.world.listed f d ∧
    ((∃ oldfd ∈ s.fds, ∃ newfd ∈ s.vfs.world.sys.live, op = .cloneFd oldfd newfd) ∨
      ∀ fd ∈ s.fds, Spares fd op ∧ ∀ newfd, op ≠ .cloneFd fd newfd)

/-- The names that a call gives to the readers of the members. -/
def returned (s : Group ι) : VfsOp → List (List UInt8)
  | .getdents64 fd dirpIsNull count =>
    if fd ∈ s.fds then namesFor fd s.vfs (.getdents64 fd dirpIsNull count) else []
  | _ => []

def unread (f : MemoryRef ι) (d : NodeId) (s : Group ι) (fd : Int) : List (List UInt8) :=
  (s.vfs.world.listed f d).drop (offsetOf fd s.vfs)

/-- The names that a clone will return because its original has not yet done so. -/
def copied (f : MemoryRef ι) (d : NodeId) (s : Group ι) : VfsOp → List (List UInt8)
  | .cloneFd oldfd _ => if oldfd ∈ s.fds then s.unread f d oldfd else []
  | _ => []

/-- The names that the member in whose place a clone is put will not return. -/
def overwritten (f : MemoryRef ι) (d : NodeId) (s : Group ι) : VfsOp → List (List UInt8)
  | .cloneFd oldfd newfd =>
    if oldfd ∈ s.fds ∧ newfd ∈ s.fds then s.unread f d newfd else []
  | _ => []

/-- How often a name is still to come, from all members together. -/
def pending (f : MemoryRef ι) (d : NodeId) (name : List UInt8) (s : Group ι) : Nat :=
  ∑ fd ∈ s.fds, (s.unread f d fd).count name

omit [DecidableEq ι] in
theorem offsetOf_eq_of_fds {fd : Int} (h : v'.fds[fd]? = v.fds[fd]?) :
    offsetOf fd v' = offsetOf fd v := by
  unfold offsetOf
  rw [h]

theorem scanning_step (hs : Scanning f d s) (hc : Calm f d s op) : Scanning f d (s.step op) := by
  rcases hc.2 with ⟨oldfd, hold, newfd, hlive, rfl⟩ | hspare
  · intro fd hfd
    have hfd' : fd = newfd ∨ fd ∈ s.fds := by simpa [step, hold] using hfd
    have hst := step_spec (hs oldfd hold).wf (.cloneFd oldfd newfd)
    by_cases he : fd = newfd
    · subst he
      obtain ⟨info, hi, ho⟩ := (hs oldfd hold).tracked
      refine ⟨hst.wf (hs oldfd hold).wf, ?_, ⟨info, ?_, ho⟩, ?_⟩
      · show fd ∈ (s.vfs.cloneFd oldfd fd).world.sys.live
        rwa [RootVFS.cloneFd_world]
      · show (s.vfs.cloneFd oldfd fd).fds[fd]? = some info
        rw [RootVFS.cloneFd_getElem?, if_pos rfl, hi]
      · show ((s.vfs.cloneFd oldfd fd).world.fs f.index).isDir d = true
        rw [RootVFS.cloneFd_world]
        exact (hs oldfd hold).dir
    · have hne : Spares fd (.cloneFd oldfd newfd) := fun hh => he hh.symm
      exact (hs fd (hfd'.resolve_left he)).kept hne
  · have hfds : (s.step op).fds = s.fds := by
      cases op with
      | cloneFd oldfd newfd =>
        have hno : oldfd ∉ s.fds := fun hm => (hspare oldfd hm).2 newfd rfl
        simp [step, hno]
      | _ => rfl
    intro fd hfd
    rw [hfds] at hfd
    exact (hs fd hfd).kept (hspare fd hfd).1

omit [DecidableEq ι] in
theorem pending_congr {s' : Group ι} (hfds : s'.fds = s.fds)
    (h : ∀ fd ∈ s.fds, s'.unread f d fd = s.unread f d fd) (name : List UInt8) :
    s'.pending f d name = s.pending f d name := by
  unfold pending
  rw [hfds]
  exact Finset.sum_congr rfl fun fd hfd => by rw [h fd hfd]

theorem clone_balance (f : MemoryRef ι) (d : NodeId) {oldfd : Int} (hold : oldfd ∈ s.fds)
    (newfd : Int) (name : List UInt8) :
    (s.step (.cloneFd oldfd newfd)).pending f d name +
        (s.overwritten f d (.cloneFd oldfd newfd)).count name =
      s.pending f d name + (s.copied f d (.cloneFd oldfd newfd)).count name := by
  have hfds : (s.step (.cloneFd oldfd newfd)).fds = insert newfd s.fds := by simp [step, hold]
  have hworld : (s.step (.cloneFd oldfd newfd)).vfs.world = s.vfs.world :=
    RootVFS.cloneFd_world s.vfs oldfd newfd
  have hnew : (s.step (.cloneFd oldfd newfd)).unread f d newfd = s.unread f d oldfd := by
    have hi : (s.vfs.cloneFd oldfd newfd).fds[newfd]? = s.vfs.fds[oldfd]? := by
      rw [RootVFS.cloneFd_getElem?, if_pos rfl]
    have hoff : offsetOf newfd (s.step (.cloneFd oldfd newfd)).vfs = offsetOf oldfd s.vfs := by
      show ((s.vfs.cloneFd oldfd newfd).fds[newfd]?).elim 0 _ = _
      rw [hi]
      rfl
    rw [unread, hworld, hoff]
    rfl
  have hother {fd : Int} (hne : fd ≠ newfd) :
      (s.step (.cloneFd oldfd newfd)).unread f d fd = s.unread f d fd := by
    have hi : (s.step (.cloneFd oldfd newfd)).vfs.fds[fd]? = s.vfs.fds[fd]? := by
      show (s.vfs.cloneFd oldfd newfd).fds[fd]? = _
      rw [RootVFS.cloneFd_getElem?, if_neg hne]
    rw [unread, hworld, offsetOf_eq_of_fds hi]
    rfl
  have hrest : ∑ fd ∈ s.fds.erase newfd,
      ((s.step (.cloneFd oldfd newfd)).unread f d fd).count name =
        ∑ fd ∈ s.fds.erase newfd, (s.unread f d fd).count name :=
    Finset.sum_congr rfl fun fd hfd => by rw [hother (Finset.ne_of_mem_erase hfd)]
  unfold pending
  rw [hfds]
  by_cases hmem : newfd ∈ s.fds
  · rw [Finset.insert_eq_of_mem hmem, ← Finset.add_sum_erase s.fds _ hmem,
      ← Finset.add_sum_erase s.fds (fun fd => (s.unread f d fd).count name) hmem, hrest, hnew]
    simp only [overwritten, copied, hold, hmem, and_self, if_true]
    omega
  · rw [Finset.sum_insert hmem, hnew]
    rw [Finset.erase_eq_of_notMem hmem] at hrest
    rw [hrest]
    simp only [overwritten, copied, hold, hmem, and_false, if_true, if_false, List.count_nil]
    omega

theorem read_balance {fd : Int} (hfd : fd ∈ s.fds) (hs : Scanning f d s) (dirpIsNull : Bool)
    (count : Int) (name : List UInt8) :
    (s.returned (.getdents64 fd dirpIsNull count)).count name +
        (s.step (.getdents64 fd dirpIsNull count)).pending f d name = s.pending f d name := by
  obtain ⟨info, k, hi, -, hi', hw, hn⟩ := (hs fd hfd).read dirpIsNull count
  have hworld : (s.step (.getdents64 fd dirpIsNull count)).vfs.world = s.vfs.world := hw
  have hoff : offsetOf fd s.vfs = info.dirOffset := by simp [offsetOf, hi]
  have hoff' : offsetOf fd (s.step (.getdents64 fd dirpIsNull count)).vfs = info.dirOffset + k := by
    show ((s.vfs.step (.getdents64 fd dirpIsNull count)).fds[fd]?).elim 0 _ = _
    rw [hi']
    rfl
  have hret : s.returned (.getdents64 fd dirpIsNull count) = (s.unread f d fd).take k := by
    rw [returned, if_pos hfd, hn, unread, hoff]
  have hunread : (s.step (.getdents64 fd dirpIsNull count)).unread f d fd =
      (s.unread f d fd).drop k := by
    rw [unread, unread, hworld, hoff', hoff, List.drop_drop]
  have hrest : ∑ fd' ∈ s.fds.erase fd,
      ((s.step (.getdents64 fd dirpIsNull count)).unread f d fd').count name =
        ∑ fd' ∈ s.fds.erase fd, (s.unread f d fd').count name := by
    refine Finset.sum_congr rfl fun fd' hfd' => ?_
    have hne : fd' ≠ fd := Finset.ne_of_mem_erase hfd'
    have hlive := (hs fd' (Finset.mem_of_mem_erase hfd')).live
    have hsame := ((step_spec (hs fd hfd).wf (.getdents64 fd dirpIsNull count)).spared hlive
      trivial).2 (fun b c he => hne (VfsOp.getdents64.inj he).1.symm)
    have hoffsame : offsetOf fd' (s.step (.getdents64 fd dirpIsNull count)).vfs =
        offsetOf fd' s.vfs := offsetOf_eq_of_fds hsame
    rw [unread, unread, hworld, hoffsame]
  have hsplit : (s.unread f d fd).count name =
      ((s.unread f d fd).take k).count name + ((s.unread f d fd).drop k).count name := by
    rw [← List.count_append, List.take_append_drop]
  unfold pending
  show _ + ∑ fd' ∈ s.fds, _ = _
  rw [← Finset.add_sum_erase s.fds _ hfd,
    ← Finset.add_sum_erase s.fds (fun fd' => (s.unread f d fd').count name) hfd, hrest, hunread,
    hret, hsplit]
  omega

theorem other_balance (hs : Scanning f d s)
    (hlisted : (s.step op).vfs.world.listed f d = s.vfs.world.listed f d)
    (hspare : ∀ fd ∈ s.fds, Spares fd op ∧ ∀ newfd, op ≠ .cloneFd fd newfd)
    (hread : ∀ fd ∈ s.fds, ∀ dirpIsNull count, op ≠ .getdents64 fd dirpIsNull count)
    (name : List UInt8) :
    (s.step op).pending f d name = s.pending f d name ∧ s.returned op = [] ∧
      s.overwritten f d op = [] ∧ s.copied f d op = [] := by
  have hfds : (s.step op).fds = s.fds := by
    cases op with
    | cloneFd oldfd newfd =>
      have hno : oldfd ∉ s.fds := fun hm => (hspare oldfd hm).2 newfd rfl
      simp [step, hno]
    | _ => rfl
  refine ⟨pending_congr hfds (fun fd hfd => ?_) name, ?_, ?_, ?_⟩
  · have hsame := ((step_spec (hs fd hfd).wf op).spared (hs fd hfd).live (hspare fd hfd).1).2
      (hread fd hfd)
    have hoff : offsetOf fd (s.step op).vfs = offsetOf fd s.vfs := offsetOf_eq_of_fds hsame
    rw [unread, unread, hlisted, hoff]
  · cases op with
    | getdents64 fd dirpIsNull count =>
      have hno : fd ∉ s.fds := fun hm => hread fd hm dirpIsNull count rfl
      simp [returned, hno]
    | _ => rfl
  · cases op with
    | cloneFd oldfd newfd =>
      have hno : oldfd ∉ s.fds := fun hm => (hspare oldfd hm).2 newfd rfl
      simp [overwritten, hno]
    | _ => rfl
  · cases op with
    | cloneFd oldfd newfd =>
      have hno : oldfd ∉ s.fds := fun hm => (hspare oldfd hm).2 newfd rfl
      simp [copied, hno]
    | _ => rfl

/-- Every call keeps the books: what it returns or overwrites was pending, or is copied. -/
theorem step_balance (hs : Scanning f d s) (hc : Calm f d s op) (name : List UInt8) :
    (s.returned op).count name + (s.step op).pending f d name + (s.overwritten f d op).count name =
      s.pending f d name + (s.copied f d op).count name := by
  rcases hc.2 with ⟨oldfd, hold, newfd, -, rfl⟩ | hspare
  · have hbal := clone_balance f d hold newfd name
    have hret : s.returned (.cloneFd oldfd newfd) = [] := rfl
    rw [hret, List.count_nil]
    omega
  · by_cases hread : ∃ fd ∈ s.fds, ∃ dirpIsNull count, op = .getdents64 fd dirpIsNull count
    · obtain ⟨fd, hfd, dirpIsNull, count, rfl⟩ := hread
      have hbal := read_balance hfd hs dirpIsNull count name
      have hover : s.overwritten f d (.getdents64 fd dirpIsNull count) = [] := rfl
      have hcopied : s.copied f d (.getdents64 fd dirpIsNull count) = [] := rfl
      rw [hover, hcopied, List.count_nil]
      omega
    · have hread' : ∀ fd ∈ s.fds, ∀ dirpIsNull count, op ≠ .getdents64 fd dirpIsNull count :=
        fun fd hfd dirpIsNull count he => hread ⟨fd, hfd, dirpIsNull, count, he⟩
      obtain ⟨hpend, hret, hover, hcopied⟩ := other_balance hs hc.1 hspare hread' name
      rw [hpend, hret, hover, hcopied, List.count_nil]
      omega

def run (s : Group ι) (ops : List VfsOp) : Group ι := ops.foldl step s

/-- How often a name is returned, by all descriptors together. -/
def timesReturned (s : Group ι) (ops : List VfsOp) (name : List UInt8) : Nat :=
  Runs.total step (fun s op => (s.returned op).count name) s ops

def timesCopied (f : MemoryRef ι) (d : NodeId) (s : Group ι) (ops : List VfsOp)
    (name : List UInt8) : Nat :=
  Runs.total step (fun s op => (s.copied f d op).count name) s ops

def timesOverwritten (f : MemoryRef ι) (d : NodeId) (s : Group ι) (ops : List VfsOp)
    (name : List UInt8) : Nat :=
  Runs.total step (fun s op => (s.overwritten f d op).count name) s ops

def Exhausted (s : Group ι) : Prop :=
  ∀ fd ∈ s.fds, ∃ dirpIsNull count rs, s.vfs.answer fd dirpIsNull count = some (0, rs)

theorem run_scanning (hs : Scanning f d s) {ops : List VfsOp}
    (hc : Runs.EveryStep step (Calm f d) s ops) : Scanning f d (s.run ops) :=
  Runs.EveryStep.inv (Scanning f d) (fun _ _ hs hc => scanning_step hs hc) hc hs

theorem Exhausted.pending (hs : Scanning f d s) (he : Exhausted s) (name : List UInt8) :
    s.pending f d name = 0 := by
  refine Finset.sum_eq_zero fun fd hfd => ?_
  obtain ⟨dirpIsNull, count, rs, hr⟩ := he fd hfd
  have hnil : s.unread f d fd = [] := List.drop_eq_nil_iff.mpr ((hs fd hfd).read_zero hr)
  rw [hnil, List.count_nil]

/-- A whole scan returns a name as often as it was pending, or copied but not overwritten. -/
theorem run_balance (hs : Scanning f d s) {ops : List VfsOp}
    (hc : Runs.EveryStep step (Calm f d) s ops) (he : Exhausted (s.run ops)) (name : List UInt8) :
    s.timesReturned ops name + s.timesOverwritten f d ops name =
      s.pending f d name + s.timesCopied f d ops name := by
  have hbooks := Runs.EveryStep.imp (Scanning f d)
    (fun s op hs hc => ⟨scanning_step hs hc, step_balance hs hc name⟩) hc hs
  have htotal := Runs.total_balance hbooks
  have hend : (List.foldl step s ops).pending f d name = 0 := he.pending (run_scanning hs hc) name
  rw [hend] at htotal
  simpa [timesReturned, timesOverwritten, timesCopied] using htotal

end Group

omit [DecidableEq ι] in
theorem Scanning.group {fd : Int} (h : Scanning fd f d v) : Group.Scanning f d ⟨v, {fd}⟩ := by
  intro fd' hfd'
  rw [Finset.mem_singleton.mp hfd']
  exact h

/-- Whether one scan of a directory, which a descriptor begins and its clones take part
in, delivers each name once in total. -/
theorem shared_scan_iff {fd : Int} (h : Scanning fd f d v) (h0 : offsetOf fd v = 0)
    (ops : List VfsOp) (hc : Runs.EveryStep Group.step (Group.Calm f d) ⟨v, {fd}⟩ ops)
    (he : Group.Exhausted (Group.run ⟨v, {fd}⟩ ops)) :
    (∀ name ∈ v.world.listed f d, Group.timesReturned ⟨v, {fd}⟩ ops name = 1) ↔
      ∀ name ∈ v.world.listed f d,
        Group.timesCopied f d ⟨v, {fd}⟩ ops name = Group.timesOverwritten f d ⟨v, {fd}⟩ ops name := by
  refine forall₂_congr fun name hname => ?_
  have hbal := Group.run_balance h.group hc he name
  have hfirst : Group.pending f d name ⟨v, {fd}⟩ = 1 := by
    rw [Group.pending, Finset.sum_singleton, Group.unread, h0, List.drop_zero]
    exact List.count_eq_one_of_mem (v.world.listed_nodup f d) hname
  rw [hfirst] at hbal
  omega

def dupOpenedD : List VfsOp :=
  [.elsewhere (insert 10 openedD.world.sys.live), .cloneFd 9 10]

def readOpenedD (fd : Int) : VfsOp := .getdents64 fd false 1000

theorem calm_dupOpenedD (v : Vfs Unit) :
    Runs.EveryStep Group.step (Group.Calm ⟨()⟩ 2) ⟨v, {9}⟩ dupOpenedD := by
  refine ⟨⟨?_, .inr ?_⟩, ⟨?_, .inl ⟨9, Finset.mem_singleton_self 9, 10, ?_, rfl⟩⟩, trivial⟩
  · rfl
  · intro fd hfd
    rw [Finset.mem_singleton.mp hfd]
    refine ⟨?_, fun newfd he => VfsOp.noConfusion he⟩
    show (9 : Int) ∈ insert 10 openedD.world.sys.live
    decide +kernel
  · exact congrArg (fun w : World Unit => w.listed ⟨()⟩ 2) (RootVFS.cloneFd_world _ 9 10)
  · exact Finset.mem_insert_self 10 _

theorem calm_readOpenedD {s : Group Unit} {fd : Int} (hs : Group.Scanning ⟨()⟩ 2 s)
    (hfd : fd ∈ s.fds) : Group.Calm ⟨()⟩ 2 s (readOpenedD fd) := by
  obtain ⟨info, k, -, -, -, hw, -⟩ := (hs fd hfd).read false 1000
  refine ⟨congrArg (fun w : World Unit => w.listed ⟨()⟩ 2) hw, .inr fun fd' _ => ?_⟩
  exact ⟨trivial, fun newfd he => VfsOp.noConfusion he⟩

/-- A clone that is made when the directory has been read to its end finds nothing left. -/
theorem shared_scan_openedD :
    Group.timesReturned ⟨openedD, {9}⟩ (readOpenedD 9 :: dupOpenedD) FileName.a.bytes = 1 ∧
      ((∀ name ∈ openedD.world.listed ⟨()⟩ 2,
          Group.timesReturned ⟨openedD, {9}⟩ (readOpenedD 9 :: dupOpenedD) name = 1) ↔
        ∀ name ∈ openedD.world.listed ⟨()⟩ 2,
          Group.timesCopied ⟨()⟩ 2 ⟨openedD, {9}⟩ (readOpenedD 9 :: dupOpenedD) name =
            Group.timesOverwritten ⟨()⟩ 2 ⟨openedD, {9}⟩ (readOpenedD 9 :: dupOpenedD) name) := by
  refine ⟨by decide +kernel, shared_scan_iff scanning_openedD (by decide +kernel) _
    ⟨calm_readOpenedD scanning_openedD.group (Finset.mem_singleton_self 9),
      calm_dupOpenedD _⟩ ?_⟩
  intro fd hfd
  have hfd' : fd = 10 ∨ fd = 9 := by
    have hfds : (Group.run ⟨openedD, {9}⟩ (readOpenedD 9 :: dupOpenedD)).fds = {10, 9} := by
      decide +kernel
    simpa [hfds] using hfd
  rcases hfd' with rfl | rfl <;> exact ⟨false, 1000, [], by decide +kernel⟩

/-- A duplicate that is made at the start reads the whole directory again. -/
theorem dup_reads_again :
    Scanning 9 ⟨()⟩ 2 openedD ∧ offsetOf 9 openedD = 0 ∧
      Runs.EveryStep Group.step (Group.Calm ⟨()⟩ 2) ⟨openedD, {9}⟩
        (dupOpenedD ++ [readOpenedD 9, readOpenedD 10]) ∧
      Group.Exhausted (Group.run ⟨openedD, {9}⟩ (dupOpenedD ++ [readOpenedD 9, readOpenedD 10])) ∧
      FileName.a.bytes ∈ openedD.world.listed ⟨()⟩ 2 ∧
      Group.timesReturned ⟨openedD, {9}⟩ (dupOpenedD ++ [readOpenedD 9, readOpenedD 10])
        FileName.a.bytes = 2 := by
  have hdup := calm_dupOpenedD openedD
  have hs := Group.run_scanning scanning_openedD.group hdup
  have hfds : (Group.run ⟨openedD, {9}⟩ dupOpenedD).fds = {10, 9} := by decide +kernel
  have hcalm := calm_readOpenedD hs (by rw [hfds]; decide : (9 : Int) ∈ _)
  have hs' := Group.scanning_step hs hcalm
  have hfds' : ((Group.run ⟨openedD, {9}⟩ dupOpenedD).step (readOpenedD 9)).fds = {10, 9} := hfds
  have hcalm' := calm_readOpenedD hs' (by rw [hfds']; decide : (10 : Int) ∈ _)
  refine ⟨scanning_openedD, by decide +kernel, hdup.append ⟨hcalm, hcalm', trivial⟩, ?_,
    by decide +kernel, by decide +kernel⟩
  intro fd hfd
  have hfd' : fd = 10 ∨ fd = 9 := by
    have hfds' : (Group.run ⟨openedD, {9}⟩
        (dupOpenedD ++ [readOpenedD 9, readOpenedD 10])).fds = {10, 9} := by decide +kernel
    simpa [hfds'] using hfd
  rcases hfd' with rfl | rfl <;> exact ⟨false, 1000, [], by decide +kernel⟩

end Vfs

end SandboxVfs
