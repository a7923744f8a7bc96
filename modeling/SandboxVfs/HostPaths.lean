import SandboxVfs.HostCalls

/-! Every path of the host that a call reaches is the root of the `BindFS` followed by normal
components, whatever the path arguments, the working directory and the descriptors are. -/

namespace SandboxVfs

def hostPath (root : HostPath) (q : PathBuf) : HostPath :=
  root ++ separator root ++ [47].intercalate (q.map (·.bytes))

theorem intercalate_head (q : PathBuf) :
    ([47].intercalate (q.map (·.bytes)) : HostPath).head? ≠ some 47 := by
  cases q with
  | nil => simp
  | cons x q =>
    have hne := x.ne_nil
    obtain ⟨a, l, hx⟩ := List.exists_cons_of_ne_nil hne
    have ha : a ≠ 47 := by
      rintro rfl
      exact x.no_slash (by simp [hx])
    cases q with
    | nil => simpa [hx] using ha
    | cons y q => simpa [List.intercalate_cons_cons, hx] using ha

theorem belowRoot_toAbs (q : PathBuf) : BindFS.belowRoot q.toAbs = q.map .normal := by
  have hdrop (l : PathBuf) : (l.map Component.normal).dropWhile (· = .curDir) =
      l.map .normal := by
    cases l with
    | nil => rfl
    | cons x l => simp
  have hrev : (q.map Component.normal).reverse = (q.reverse).map .normal := List.map_reverse.symm
  rw [BindFS.belowRoot, PathBuf.toAbs, hdrop, hrev, hdrop, List.map_reverse, List.reverse_reverse]

theorem BindFS.translatePath_toAbs (b : BindFS) (q : PathBuf) :
    b.translatePath q.toAbs = hostPath b.root q := by
  have hbytes : (q.map Component.normal).map Component.bytes = q.map (·.bytes) := by
    rw [List.map_map]
    rfl
  rw [translatePath, belowRoot_toAbs, hbytes, joinHost, if_neg (intercalate_head q)]
  rfl

/-- Different normalised paths have different places on the host. -/
theorem hostPath_inj {root : HostPath} {p q : PathBuf} (h : hostPath root p = hostPath root q) :
    p = q := by
  have hslash (l : PathBuf) : ∀ s ∈ l.map (·.bytes), (47 : UInt8) ∉ s := by
    intro s hs
    obtain ⟨x, -, rfl⟩ := List.mem_map.mp hs
    exact x.no_slash
  have hnil (l : PathBuf) (hl : ([47].intercalate (l.map (·.bytes)) : HostPath) = []) : l = [] := by
    cases l with
    | nil => rfl
    | cons x l =>
      exfalso
      have hx := x.ne_nil
      cases l with
      | nil => exact hx (by simpa using hl)
      | cons y l => simp [List.intercalate_cons_cons, hx] at hl
  have he : ([47].intercalate (p.map (·.bytes)) : HostPath) =
      [47].intercalate (q.map (·.bytes)) := List.append_cancel_left h
  by_cases hp : p = []
  · subst hp
    exact (hnil q he.symm).symm
  · by_cases hq : q = []
    · subst hq
      exact absurd (hnil p he) hp
    · have hsplit := congrArg (List.splitOn 47) he
      rw [List.splitOn_intercalate 47 (hslash p) (by simpa using hp),
        List.splitOn_intercalate 47 (hslash q) (by simpa using hq)] at hsplit
      exact (List.map_inj_right fun _ _ hxy => FileName.ext hxy).mp hsplit

/-- What was handed over is the root followed by normal components, with a nul at the end;
without other nuls in them, this is what the C library reads. -/
def Handed.Confined (h : Handed) : Prop :=
  ∃ q : PathBuf, (h.buffer = hostPath h.root q ∨ h.buffer = hostPath h.root q ++ [0]) ∧
    h.buffer.getLast? = some 0 ∧
    (0 ∉ h.root → (∀ x ∈ q, 0 ∉ x.bytes) → cString h.buffer = hostPath h.root q)

theorem not_mem_hostPath {root : HostPath} {q : PathBuf} {b : UInt8} (hb : b ≠ 47)
    (hroot : b ∉ root) (hq : ∀ x ∈ q, b ∉ x.bytes) : b ∉ hostPath root q := by
  have hsep : b ∉ separator root := by
    unfold separator
    split_ifs <;> simp [hb]
  have hnames : b ∉ ([47].intercalate (q.map (·.bytes)) : HostPath) := by
    induction q with
    | nil => simp
    | cons x q ih =>
      have hx := hq x List.mem_cons_self
      have hrest := ih fun y hy => hq y (List.mem_cons_of_mem x hy)
      cases q with
      | nil => simpa using hx
      | cons y q =>
        rw [List.map_cons, List.map_cons, List.intercalate_cons_cons]
        rw [List.map_cons] at hrest
        simp only [List.mem_append, List.mem_singleton]
        tauto
  simp [hostPath, hroot, hsep, hnames]

theorem BindFS.translateCPath_toAbs (b : BindFS) (q : PathBuf) :
    b.translateCPath q.toAbs =
      if (hostPath b.root q).getLast? = some 0 then hostPath b.root q
      else hostPath b.root q ++ [0] := by
  rw [translateCPath, translatePath_toAbs]

theorem BindFS.cString_translateCPath {b : BindFS} {q : PathBuf} (hroot : 0 ∉ b.root)
    (hq : ∀ x ∈ q, 0 ∉ x.bytes) : cString (b.translateCPath q.toAbs) = hostPath b.root q := by
  have hno := not_mem_hostPath (by decide) hroot hq
  have hl : (hostPath b.root q).getLast? ≠ some 0 := fun hl => hno (List.mem_of_getLast? hl)
  have hall : ∀ a ∈ hostPath b.root q, decide (a ≠ 0) = true := by
    intro a ha
    simp only [decide_eq_true_eq]
    rintro rfl
    exact hno ha
  rw [b.translateCPath_toAbs, if_neg hl]
  show ((hostPath b.root q ++ [0]).takeWhile fun a => decide (a ≠ 0)) = hostPath b.root q
  rw [List.takeWhile_append_of_pos hall]
  simp

theorem BindFS.handed_confined (b : BindFS) (q : PathBuf) : (b.handed q.toAbs).Confined := by
  refine ⟨q, ?_, ?_, fun hroot hq => b.cString_translateCPath hroot hq⟩
  · show b.translateCPath q.toAbs = _ ∨ b.translateCPath q.toAbs = _
    rw [b.translateCPath_toAbs]
    split_ifs
    · exact Or.inl rfl
    · exact Or.inr rfl
  · show (b.translateCPath q.toAbs).getLast? = some 0
    rw [b.translateCPath_toAbs]
    split_ifs with hl
    · exact hl
    · simp

def AbsPath.IsNormal (p : AbsPath) : Prop := ∃ q : PathBuf, p = q.toAbs

/-- On normalised paths the calls of the backends of type `F` stay below the roots. -/
def Confines (F : Type) {W : Type} [HandsToLibc F W] : Prop :=
  ∀ (f : F) (w : W) (c : BackendCall), (∀ p ∈ c.paths, p.IsNormal) →
    ∀ h ∈ HandsToLibc.hands f w c, h.Confined

theorem plainFS_confines (ι S : Type) : Confines (PlainFS ι S) := by
  intro f w c hc h hh
  have hbind (b : BindFS) (hm : h ∈ c.paths.map b.handed) : h.Confined := by
    obtain ⟨p, hp, rfl⟩ := List.mem_map.mp hm
    obtain ⟨q, rfl⟩ := hc p hp
    exact b.handed_confined q
  cases f with
  | memory f => cases hh
  | bind b =>
    cases c with
    | readDir p => cases hh
    | _ => exact hbind b hh

theorem Confines.sum {F G W : Type} [HandsToLibc F W] [HandsToLibc G W] (hF : Confines F)
    (hG : Confines G) : Confines (F ⊕ G) := by
  intro b w c hc h hh
  cases b with
  | inl f => exact hF f w c hc h hh
  | inr g => exact hG g w c hc h hh

namespace OverlayFS

variable {F H W : Type} [LowLevelFS F H W] [HandsToLibc F W] {o : OverlayFS F} {w : W}
  {p : AbsPath} {h : Handed}

theorem access_confined (hF : Confines F) (hp : p.IsNormal) {f : F} {mode : Int}
    (hh : h ∈ HandsToLibc.hands f w (.access p mode)) : h.Confined :=
  hF f w (.access p mode) (fun _ hq => List.mem_singleton.mp hq ▸ hp) h hh

theorem middle_confined (hF : Confines F) (hp : p.IsNormal)
    (hh : h ∈ o.middle.elim [] fun middle => HandsToLibc.hands middle w (.access p F_OK)) :
    h.Confined := by
  cases hm : o.middle with
  | none =>
    rw [hm] at hh
    cases hh
  | some m =>
    rw [hm] at hh
    exact access_confined hF hp hh

theorem visibleLayerHands_confined (hF : Confines F) (hp : p.IsNormal)
    (hh : h ∈ o.visibleLayerHands w p) : h.Confined := by
  rcases List.mem_append.mp hh with hh | hh
  · exact access_confined hF hp hh
  · split_ifs at hh
    · cases hh
    · exact middle_confined hF hp hh

theorem pathExistsBelowTopHands_confined (hF : Confines F) (hp : p.IsNormal)
    (hh : h ∈ o.pathExistsBelowTopHands w p) : h.Confined := by
  rcases List.mem_append.mp hh with hh | hh
  · exact middle_confined hF hp hh
  · split_ifs at hh
    · cases hh
    · exact access_confined hF hp hh

theorem ensureTopDirsHands_confined (hF : Confines F) {ps : List AbsPath}
    (hps : ∀ p ∈ ps, p.IsNormal) (hh : h ∈ o.ensureTopDirsHands w ps) : h.Confined := by
  induction ps generalizing w with
  | nil => cases hh
  | cons p ps ih =>
    have hp := hps p List.mem_cons_self
    rcases List.mem_append.mp hh with hh | hh
    · rcases List.mem_append.mp hh with hh | hh
      · exact access_confined hF hp hh
      · split_ifs at hh
        · exact hF o.top w (.mkdir p 0o755) (fun _ hq => List.mem_singleton.mp hq ▸ hp) h hh
        · cases hh
    · exact ih (fun q hq => hps q (List.mem_cons_of_mem p hq)) hh

theorem ensureTopParentDirsHands_confined (hF : Confines F) (hp : p.IsNormal)
    (hh : h ∈ o.ensureTopParentDirsHands w p) : h.Confined := by
  obtain ⟨q, rfl⟩ := hp
  unfold ensureTopParentDirsHands at hh
  rw [PathBuf.parent_toAbs] at hh
  by_cases hq : q = []
  · rw [if_pos hq] at hh
    cases hh
  · rw [if_neg hq] at hh
    -- the parent and its ancestors are normalised as well
    have hparent : (PathBuf.toAbs q.dropLast).IsNormal := ⟨_, rfl⟩
    have hups : ∀ r ∈ (PathBuf.toAbs q.dropLast).ancestors.reverse.filter (!·.isRoot),
        r.IsNormal := by
      intro r hr
      have hmem := (List.mem_filter.mp hr).1
      rw [PathBuf.ancestors_toAbs, List.mem_reverse] at hmem
      obtain ⟨t, -, rfl⟩ := List.mem_map.mp hmem
      exact ⟨t, rfl⟩
    rcases List.mem_append.mp hh with hh | hh
    · exact access_confined hF hparent hh
    · split_ifs at hh
      · cases hh
      · rcases List.mem_append.mp hh with hh | hh
        · exact pathExistsBelowTopHands_confined hF hparent hh
        · cases hh
      · rcases List.mem_append.mp hh with hh | hh
        · exact pathExistsBelowTopHands_confined hF hparent hh
        · exact ensureTopDirsHands_confined hF hups hh

theorem actingLayerHands_confined (hF : Confines F) (hp : p.IsNormal)
    (hh : h ∈ o.actingLayerHands w p) : h.Confined := by
  rcases List.mem_append.mp hh with hh | hh
  · exact access_confined hF hp hh
  · split_ifs at hh
    · cases hh
    · exact visibleLayerHands_confined hF hp hh

theorem confines (hF : Confines F) : Confines (OverlayFS F) := by
  intro o w c hc h hh
  have happend {l : List Handed} (hl : h ∈ l → h.Confined) {f : F} {w' : W}
      (hm : h ∈ l ++ HandsToLibc.hands f w' c) : h.Confined := by
    rcases List.mem_append.mp hm with hm | hm
    · exact hl hm
    · exact hF f w' c hc h hm
  cases c with
  | access p mode => exact happend (visibleLayerHands_confined hF (hc p List.mem_cons_self)) hh
  | stat p => exact happend (visibleLayerHands_confined hF (hc p List.mem_cons_self)) hh
  | chmod p mode => exact happend (visibleLayerHands_confined hF (hc p List.mem_cons_self)) hh
  | openPath p flags mode =>
    have hp := hc p List.mem_cons_self
    have hh' : h ∈ if writes flags then o.ensureTopParentDirsHands w p ++
          HandsToLibc.hands o.top (o.ensureTopParentDirs w p) (.openPath p flags mode)
        else o.visibleLayerHands w p ++
          HandsToLibc.hands (o.visibleLayer w p) w (.openPath p flags mode) := hh
    split_ifs at hh'
    · exact happend (ensureTopParentDirsHands_confined hF hp) hh'
    · exact happend (visibleLayerHands_confined hF hp) hh'
  | mkdir p mode => exact happend (ensureTopParentDirsHands_confined hF (hc p List.mem_cons_self)) hh
  | unlink p => exact happend (actingLayerHands_confined hF (hc p List.mem_cons_self)) hh
  | rmdir p => exact happend (actingLayerHands_confined hF (hc p List.mem_cons_self)) hh
  | rename p q =>
    have hp := hc p List.mem_cons_self
    have hq := hc q (List.mem_cons_of_mem p List.mem_cons_self)
    rcases List.mem_append.mp hh with hh | hh
    · exact access_confined hF hp hh
    · split_ifs at hh
      · exact happend (ensureTopParentDirsHands_confined hF hq) hh
      · exact happend (visibleLayerHands_confined hF hp) hh
  | readDir p =>
    obtain ⟨f, -, hf⟩ := List.mem_flatMap.mp hh
    exact hF f w (.readDir p) hc h hf

end OverlayFS

theorem stacked_confines {F H W : Type} [LowLevelFS F H W] [HandsToLibc F W] (hF : Confines F)
    (n : Nat) : Confines (Stacked F n) := by
  induction n with
  | zero => exact hF
  | succ n ih => exact Confines.sum ih (OverlayFS.confines ih)

namespace RootVFS

variable {B H W : Type} [HandsToLibc B W] {v : RootVFS B H W} {h : Handed}

theorem handsAt_confined (hB : Confines B) {p : PathBuf} {c : AbsPath → BackendCall}
    (hc : ∀ q, (c q).paths = [q]) (hh : h ∈ v.handsAt p c) : h.Confined := by
  refine hB _ _ _ ?_ h hh
  intro q hq
  rw [hc] at hq
  exact ⟨_, List.mem_singleton.mp hq⟩

theorem handsFrom_confined (hB : Confines B) {dirfd : Int} {path : Path}
    {c : AbsPath → BackendCall} (hc : ∀ q, (c q).paths = [q])
    (hh : h ∈ v.handsFrom dirfd path c) : h.Confined := by
  unfold handsFrom at hh
  cases hp : v.resolveOpenatPath dirfd path with
  | none =>
    rw [hp] at hh
    cases hh
  | some p =>
    rw [hp] at hh
    exact handsAt_confined hB hc hh

theorem renameatHands_confined (hB : Confines B) {oldDirfd newDirfd : Int}
    {oldPath newPath : Path} (hh : h ∈ v.renameatHands oldDirfd oldPath newDirfd newPath) :
    h.Confined := by
  unfold renameatHands at hh
  split at hh
  · unfold renameHands at hh
    dsimp only at hh
    split_ifs at hh
    · cases hh
    · refine hB _ _ _ ?_ h hh
      intro q hq
      rcases List.mem_cons.mp hq with hq | hq
      · exact ⟨_, hq⟩
      · exact ⟨_, List.mem_singleton.mp hq⟩
  · cases hh

theorem hands_confined_of [LowLevelFS B H W] [OpenedFile H W] (hB : Confines B) {c : PathCall}
    (hh : h ∈ v.hands c) : h.Confined := by
  cases c with
  | access path mode => exact handsAt_confined (c := (.access · mode)) hB (fun _ => rfl) hh
  | openPath path flags mode =>
    exact handsAt_confined (c := (.openPath · flags mode)) hB (fun _ => rfl) hh
  | openat dirfd path flags mode =>
    have hh' : h ∈ if (v.openatFromTrackedHandle dirfd path flags mode).isSome then []
        else v.handsFrom dirfd path (.openPath · flags mode) := hh
    split_ifs at hh'
    · cases hh'
    · exact handsFrom_confined hB (fun _ => rfl) hh'
  | mkdir path mode => exact handsAt_confined (c := (.mkdir · mode)) hB (fun _ => rfl) hh
  | mkdirat dirfd path mode =>
    have hh' : h ∈ if (v.mkdiratFromTrackedHandle dirfd path mode).isSome then []
        else v.handsFrom dirfd path (.mkdir · mode) := hh
    split_ifs at hh'
    · cases hh'
    · exact handsFrom_confined hB (fun _ => rfl) hh'
  | unlink path => exact handsAt_confined hB (fun _ => rfl) hh
  | unlinkat dirfd path flags =>
    refine handsFrom_confined hB ?_ hh
    intro q
    split_ifs <;> rfl
  | rmdir path => exact handsAt_confined hB (fun _ => rfl) hh
  | rename oldPath newPath => exact renameatHands_confined hB hh
  | renameat oldDirfd oldPath newDirfd newPath => exact renameatHands_confined hB hh
  | chmod path mode => exact handsAt_confined (c := (.chmod · mode)) hB (fun _ => rfl) hh
  | stat path => exact handsAt_confined hB (fun _ => rfl) hh
  | readDir path => exact handsAt_confined hB (fun _ => rfl) hh

/-- Over any composition of binds, memory file systems and overlays, in any state, a call
reaches the host only below the roots of the binds, and different paths of a bind have
different places there. -/
theorem hands_confined {ι S : Type} [DecidableEq ι] {n : Nat}
    (v : RootVFS (Stacked (PlainFS ι S) n) (HostOpenedFile ι S) (HostWorld ι S)) (c : PathCall) :
    (∀ h ∈ v.hands c, h.Confined) ∧
      ∀ (b : BindFS) (p q : PathBuf), p ≠ q →
        b.translatePath p.toAbs ≠ b.translatePath q.toAbs ∧
          (0 ∉ b.root → (∀ x ∈ p ++ q, 0 ∉ x.bytes) →
            cString (b.translateCPath p.toAbs) ≠ cString (b.translateCPath q.toAbs)) := by
  constructor
  · intro h hh
    exact hands_confined_of (stacked_confines (plainFS_confines ι S) n) hh
  · intro b p q hne
    have hhost : hostPath b.root p ≠ hostPath b.root q := fun he => hne (hostPath_inj he)
    constructor
    · rwa [b.translatePath_toAbs, b.translatePath_toAbs]
    · intro hroot hnul
      rwa [BindFS.cString_translateCPath hroot fun x hx => hnul x (List.mem_append_left q hx),
        BindFS.cString_translateCPath hroot fun x hx => hnul x (List.mem_append_right p hx)]

def onlyR : Libc Unit where
  access _ path _ := if path = [47, 114] ∨ path = [47, 114, 47] then 0 else -1
  openPath host _ _ _ := (-1, host)
  mkdir host _ _ := (-1, host)
  unlink host _ := (-1, host)
  rmdir host _ := (-1, host)
  rename host _ _ := (-1, host)
  chmod host _ _ := (-1, host)
  stat _ _ := none

def boundR : RootVFS (Stacked (PlainFS Unit Unit) 0) (HostOpenedFile Unit Unit)
    (HostWorld Unit Unit) :=
  RootVFS.new (PlainFS.bind ⟨[47, 114]⟩) (fun _ => 0)
    { memory := ⟨fun _ => (MemoryFS.new .boot).fs, (MemoryFS.new .boot).sys⟩, host := (),
      libc := onlyR }

/-- `access("/../../a")` asks for `/r/a`. -/
theorem boundR_confined :
    boundR.hands (.access (.abs ⟨[.parentDir, .parentDir, .normal .a]⟩) 0) =
        [⟨[47, 114], [47, 114, 47, 97, 0]⟩] ∧
      Handed.Confined ⟨[47, 114], [47, 114, 47, 97, 0]⟩ := by
  have hhands : boundR.hands
      (.access (.abs ⟨[.parentDir, .parentDir, .normal .a]⟩) 0) =
        [⟨[47, 114], [47, 114, 47, 97, 0]⟩] := by decide +kernel
  exact ⟨hhands, (hands_confined boundR _).1 _ (hhands ▸ List.mem_singleton_self _)⟩

end RootVFS

end SandboxVfs
