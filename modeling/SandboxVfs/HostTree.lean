import SandboxVfs.HostPaths

/-! A host whose directories form a tree, and what the calls of the C library do there.
A path is resolved from its root or from the working directory, component by component. -/

namespace SandboxVfs

def toComponent (bytes : List UInt8) : Option Component :=
  if h : bytes = [] ∨ 47 ∈ bytes then none
  else if h₁ : bytes = [46] then some .curDir
  else if h₂ : bytes = [46, 46] then some .parentDir
  else some (.normal ⟨bytes, fun he => h (Or.inl he), fun hs => h (Or.inr hs), h₁, h₂⟩)

def pathSegments (path : HostPath) : List Component := (path.splitOn 47).filterMap toComponent

def Path.fromCStr (buffer : List UInt8) : Path :=
  let path := cString buffer
  if path.head? = some 47 then .abs ⟨pathSegments path⟩ else .rel ⟨pathSegments path⟩

@[simp]
theorem toComponent_bytes (x : FileName) : toComponent x.bytes = some (.normal x) := by
  have hbad : ¬ (x.bytes = [] ∨ 47 ∈ x.bytes) := not_or.mpr ⟨x.ne_nil, x.no_slash⟩
  rw [toComponent, dif_neg hbad, dif_neg x.ne_dot, dif_neg x.ne_dot_dot]

@[simp]
theorem pathSegments_nil : pathSegments [] = [] := rfl

theorem pathSegments_append_slash (a b : HostPath) :
    pathSegments (a ++ 47 :: b) = pathSegments a ++ pathSegments b := by
  rw [pathSegments, List.splitOn_append_cons_self, List.filterMap_append]
  rfl

theorem pathSegments_intercalate (q : PathBuf) :
    pathSegments ([47].intercalate (q.map (·.bytes))) = q.map .normal := by
  cases q with
  | nil => rfl
  | cons x q =>
    have hslash : ∀ s ∈ (x :: q).map (·.bytes), (47 : UInt8) ∉ s := by
      intro s hs
      obtain ⟨y, -, rfl⟩ := List.mem_map.mp hs
      exact y.no_slash
    rw [pathSegments, List.splitOn_intercalate 47 hslash (by simp), List.filterMap_map]
    simp

theorem pathSegments_hostPath (root : HostPath) (q : PathBuf) :
    pathSegments (hostPath root q) = pathSegments root ++ q.map .normal := by
  rw [← pathSegments_intercalate q, hostPath, separator]
  split_ifs with hsep
  · rcases hsep with rfl | hlast
    · simp
    · obtain ⟨r, rfl⟩ := List.getLast?_eq_some_iff.mp hlast
      rw [List.append_nil, List.append_assoc, List.singleton_append, pathSegments_append_slash,
        pathSegments_append_slash, pathSegments_nil, List.append_nil]
  · rw [List.append_assoc, List.singleton_append, pathSegments_append_slash]

theorem head?_hostPath (root : HostPath) (q : PathBuf) :
    (hostPath root q).head? = some 47 ↔ root.head? = some 47 := by
  cases root with
  | nil => simpa [hostPath, separator] using intercalate_head q
  | cons a root => simp [hostPath]

theorem hostPath_ne_nil (root : HostPath) {q : PathBuf} (hq : q ≠ []) : hostPath root q ≠ [] := by
  intro h
  have hsegs := pathSegments_hostPath root q
  rw [h, pathSegments_nil] at hsegs
  simp [hq] at hsegs

theorem cString_nul {path : HostPath} (h : 0 ∉ path) : cString (path ++ [0]) = path := by
  have hall : ∀ a ∈ path, decide (a ≠ 0) = true := by
    intro a ha
    apply decide_eq_true
    rintro rfl
    exact h ha
  rw [cString, List.takeWhile_append_of_pos hall]
  simp

theorem intercalate_concat {α : Type*} (s : List α) {ls : List (List α)} (hl : ls ≠ []) (l : List α) :
    s.intercalate (ls ++ [l]) = s.intercalate ls ++ (s ++ l) := by
  induction ls with
  | nil => exact absurd rfl hl
  | cons a ls ih =>
    cases ls with
    | nil => simp [List.intercalate_cons_cons]
    | cons b ls => simpa [List.intercalate_cons_cons] using ih (List.cons_ne_nil b ls)

theorem hostPath_concat (root : HostPath) {p : PathBuf} (hp : p ≠ []) (x : FileName) :
    hostPath root (p ++ [x]) = hostPath root p ++ 47 :: x.bytes := by
  have hne : p.map (·.bytes) ≠ [] := by simpa using hp
  rw [hostPath, hostPath, List.map_append, List.map_singleton, intercalate_concat [47] hne]
  simp

theorem joinHost_hostPath {p : PathBuf} (hp : p ≠ []) (x : FileName) :
    joinHost (hostPath [47] p) x.bytes = hostPath [47] (p ++ [x]) := by
  have hhead (y : FileName) : y.bytes.head? ≠ some 47 := fun h => y.no_slash (List.mem_of_head? h)
  have hlast : (hostPath [47] p).getLast? ≠ some 47 := by
    obtain ⟨q, y, rfl⟩ := (List.eq_nil_or_concat p).resolve_left hp
    have hy : y.bytes.getLast? ≠ some 47 := fun h => y.no_slash (List.mem_of_getLast? h)
    obtain ⟨b, hb⟩ := Option.isSome_iff_exists.mp (List.getLast?_isSome.mpr y.ne_nil)
    have hslash : (47 :: y.bytes).getLast? = some b := by
      rw [List.getLast?_cons, hb]
      rfl
    rw [hb] at hy
    rw [List.concat_eq_append]
    rcases eq_or_ne q [] with rfl | hq
    · simpa [hostPath, separator, hslash] using hy
    · rw [hostPath_concat [47] hq, List.getLast?_append, hslash]
      exact hy
  rw [joinHost, if_neg (hhead x), separator, if_neg (not_or.mpr ⟨hostPath_ne_nil [47] hp, hlast⟩),
    hostPath_concat [47] hp]
  simp

theorem fromCStr_hostPath {q : PathBuf} (hq : ∀ x ∈ q, 0 ∉ x.bytes) :
    Path.fromCStr (hostPath [47] q ++ [0]) = .abs q.toAbs := by
  have hnul : 0 ∉ hostPath [47] q := not_mem_hostPath (by decide) (by decide) hq
  have hhead : (hostPath [47] q).head? = some 47 := (head?_hostPath [47] q).mpr rfl
  rw [Path.fromCStr, cString_nul hnul, if_pos hhead, pathSegments_hostPath]
  rfl

inductive HostNode where
  | file (content : List UInt8)
  | dir
  deriving DecidableEq, Repr

def HostNode.kind : HostNode → VfsEntryKind
  | .file _ => .file
  | .dir => .dir

/-- What is at each place of the host. A call that creates, opens or closes something is
refused where `refuses` says so of its number. -/
structure HostFs where
  nodes : Std.ExtTreeMap PathBuf HostNode compare
  cwd : PathBuf
  refuses : Nat → Bool
  calls : Nat
  root_dir : nodes[([] : PathBuf)]? = some .dir
  parent_dir : ∀ p : PathBuf, p ≠ [] → nodes[p]? ≠ none → nodes[p.dropLast]? = some .dir

namespace HostFs

def node (h : HostFs) (p : PathBuf) : Option HostNode := h.nodes[p]?

def isDir (h : HostFs) (p : PathBuf) : Bool := h.node p = some .dir

def noEntries (h : HostFs) (p : PathBuf) : Bool := h.nodes.keys.all fun q => q = [] || q.dropLast ≠ p

def called (h : HostFs) : HostFs := { h with calls := h.calls + 1 }

/-- Where the components lead; only the last place may be missing. -/
def walk (h : HostFs) : PathBuf → List Component → Option PathBuf
  | p, [] => some p
  | p, c :: cs => if h.isDir p then h.walk (pushComponent p c) cs else none

def place (h : HostFs) (path : HostPath) : Option PathBuf :=
  if path = [] then none
  else h.walk (if path.head? = some 47 then [] else h.cwd) (pathSegments path)

variable {h : HostFs} {p q : PathBuf} {cs ds : List Component}

theorem isDir_iff : h.isDir p = true ↔ h.node p = some .dir := decide_eq_true_iff

theorem noEntries_iff : h.noEntries p = true ↔ ∀ q, q ≠ [] → q.dropLast = p → h.node q = none := by
  simp only [noEntries, List.all_eq_true, Std.ExtTreeMap.mem_keys, Bool.or_eq_true,
    decide_eq_true_eq, node]
  constructor
  · intro hall q hq hp
    by_contra hne
    rcases hall q (Std.ExtTreeMap.isSome_getElem?_iff_mem.mp (Option.isSome_iff_ne_none.mpr hne)) with
      he | he
    · exact hq he
    · exact he hp
  · intro hnone q hmem
    by_contra hor
    obtain ⟨hq, hp⟩ := not_or.mp hor
    have hsome := Std.ExtTreeMap.isSome_getElem?_iff_mem.mpr hmem
    rw [hnone q hq (not_not.mp hp)] at hsome
    cases hsome

theorem node_insert {nodes : Std.ExtTreeMap PathBuf HostNode compare} (p q : PathBuf) (n : HostNode) :
    (nodes.insert p n)[q]? = if q = p then some n else nodes[q]? := by
  simp only [Std.ExtTreeMap.getElem?_insert, Std.compare_eq_iff_eq, @eq_comm _ p]

theorem node_erase {nodes : Std.ExtTreeMap PathBuf HostNode compare} (p q : PathBuf) :
    (nodes.erase p)[q]? = if q = p then none else nodes[q]? := by
  simp only [Std.ExtTreeMap.getElem?_erase, Std.compare_eq_iff_eq, @eq_comm _ p]

/-- A node at a place that has none, or another file there. -/
def put (h : HostFs) (p : PathBuf) (n : HostNode) (hp : p ≠ []) (hdir : h.isDir p = false)
    (hparent : h.isDir p.dropLast = true) : HostFs :=
  { h with
    nodes := h.nodes.insert p n
    root_dir := by
      rw [node_insert, if_neg (Ne.symm hp)]
      exact h.root_dir
    parent_dir := by
      intro q hq hne
      have hup : h.nodes[q.dropLast]? = some .dir := by
        rw [node_insert] at hne
        split_ifs at hne with hqp
        · rw [hqp]
          exact isDir_iff.mp hparent
        · exact h.parent_dir q hq hne
      rw [node_insert, if_neg]
      · exact hup
      · intro he
        rw [he] at hup
        rw [isDir_iff.mpr hup] at hdir
        cases hdir }

def take (h : HostFs) (p : PathBuf) (hp : p ≠ []) (hempty : h.noEntries p = true) : HostFs :=
  { h with
    nodes := h.nodes.erase p
    root_dir := by
      rw [node_erase, if_neg (Ne.symm hp)]
      exact h.root_dir
    parent_dir := by
      intro q hq hne
      rw [node_erase] at hne
      split_ifs at hne with hqp
      · exact absurd rfl hne
      · rw [node_erase, if_neg]
        · exact h.parent_dir q hq hne
        · exact fun he => hne (noEntries_iff.mp hempty q hq he) }

/-- What `access` finds, which is granted where there is something. -/
def access (h : HostFs) (path : HostPath) (_mode : Int) : Int :=
  match h.place path with
  | some p => if (h.node p).isSome then 0 else -1
  | none => -1

def mkdirAt (h : HostFs) (p : PathBuf) : Option HostFs :=
  if hp : p ≠ [] ∧ h.node p = none ∧ h.isDir p.dropLast = true then
    some (h.put p .dir hp.1 (by simp [isDir, hp.2.1]) hp.2.2)
  else none

def mkdir (h : HostFs) (path : HostPath) (_mode : Mode) : Int × HostFs :=
  if h.refuses h.calls then (-1, h.called)
  else
    match h.place path >>= h.mkdirAt with
    | some h' => (0, h'.called)
    | none => (-1, h.called)

/-- Creates the file, cuts it off or leaves it, as the flags ask for. -/
def openAt (h : HostFs) (p : PathBuf) (flags : Flags) : Option HostFs :=
  match hn : h.node p with
  | some .dir => if OverlayFS.writes flags then none else some h
  | some (.file content) =>
    if flags.has O_DIRECTORY || (flags.has O_CREAT && flags.has O_EXCL) then none
    else if hp : flags.has O_TRUNC ∧ p ≠ [] ∧ h.isDir p.dropLast = true then
      some (h.put p (.file []) hp.2.1 (by simp [isDir, hn]) hp.2.2)
    else some h
  | none =>
    if hp : flags.has O_CREAT ∧ p ≠ [] ∧ h.isDir p.dropLast = true then
      some (h.put p (.file []) hp.2.1 (by simp [isDir, hn]) hp.2.2)
    else none

def openPath (h : HostFs) (path : HostPath) (flags : Flags) (_mode : Mode) : Int × HostFs :=
  if h.refuses h.calls then (-1, h.called)
  else
    match h.place path >>= (h.openAt · flags) with
    | some h' => (h.calls, h'.called)
    | none => (-1, h.called)

def close (h : HostFs) (_fd : Int) : Int × HostFs :=
  (if h.refuses h.calls then -1 else 0, h.called)

def opendir (h : HostFs) (path : HostPath) : Bool × HostFs :=
  (!h.refuses h.calls && (h.place path).any h.isDir, h.called)

/-- `unlink` takes a file away, `rmdir` a directory without entries. -/
def removeAt (h : HostFs) (kind : VfsEntryKind) (p : PathBuf) : Option HostFs :=
  if hp : p ≠ [] ∧ (h.node p).map HostNode.kind = some kind ∧ h.noEntries p = true then
    some (h.take p hp.1 hp.2.2)
  else none

def remove (h : HostFs) (kind : VfsEntryKind) (path : HostPath) : Int × HostFs :=
  match h.place path >>= h.removeAt kind with
  | some h' => (0, h')
  | none => (-1, h)

def unlink (h : HostFs) (path : HostPath) : Int × HostFs := h.remove .file path

def rmdir (h : HostFs) (path : HostPath) : Int × HostFs := h.remove .dir path

theorem walk_append (cs ds : List Component) :
    h.walk p (cs ++ ds) = (h.walk p cs).bind (h.walk · ds) := by
  induction cs generalizing p with
  | nil => rfl
  | cons c cs ih =>
    rw [List.cons_append, walk, walk]
    split_ifs
    · exact ih
    · rfl

/-- Where a walk can end does not depend on the tree. -/
theorem walk_eq (hw : h.walk p cs = some q) : q = cs.foldl pushComponent p := by
  induction cs generalizing p with
  | nil => exact (Option.some.inj hw).symm
  | cons c cs ih =>
    rw [walk] at hw
    split_ifs at hw
    exact ih hw

theorem walk_mono {h' : HostFs} (hd : ∀ p, h.isDir p = true → h'.isDir p = true)
    (hw : h.walk p cs = some q) : h'.walk p cs = some q := by
  induction cs generalizing p with
  | nil => exact hw
  | cons c cs ih =>
    rw [walk] at hw ⊢
    split_ifs at hw with hp
    rw [if_pos (hd p hp)]
    exact ih hw

theorem isDir_parent (hp : p ≠ []) (hn : h.node p ≠ none) : h.isDir p.dropLast = true :=
  isDir_iff.mpr (h.parent_dir p hp hn)

theorem walk_names (hq : q ≠ []) (hd : h.isDir (p ++ q.dropLast) = true) :
    h.walk p (q.map .normal) = some (p ++ q) := by
  induction q using List.reverseRecOn with
  | nil => exact absurd rfl hq
  | append_singleton q x ih =>
    rw [List.dropLast_concat] at hd
    have hwalk : h.walk p (q.map .normal) = some (p ++ q) := by
      by_cases hnil : q = []
      · subst hnil
        simp [walk]
      · apply ih hnil
        have hup := h.isDir_parent (p := p ++ q) (by simp [hnil]) (by simp [isDir_iff.mp hd])
        rwa [List.dropLast_append_of_ne_nil hnil] at hup
    rw [List.map_append, walk_append, hwalk, Option.bind_some, List.map_singleton, walk, if_pos hd,
      walk, pushComponent, List.append_assoc]

def rootPlace (h : HostFs) (root : HostPath) : PathBuf :=
  (pathSegments root).foldl pushComponent (if root.head? = some 47 then [] else h.cwd)

variable {root : HostPath}

theorem place_hostPath (h : HostFs) (root : HostPath) (hq : q ≠ []) :
    h.place (hostPath root q) =
      (h.walk (if root.head? = some 47 then [] else h.cwd) (pathSegments root)).bind
        (h.walk · (q.map .normal)) := by
  rw [place, if_neg (hostPath_ne_nil root hq), pathSegments_hostPath, walk_append]
  simp only [head?_hostPath]

theorem place_hostPath_eq (hq : q ≠ []) {r : PathBuf} (hr : h.place (hostPath root q) = some r) :
    r = h.rootPlace root ++ q := by
  rw [place_hostPath h root hq] at hr
  obtain ⟨u, hu, hr⟩ := Option.bind_eq_some_iff.mp hr
  rw [walk_eq hr, foldl_push_names, walk_eq hu, rootPlace]

def Roots (h : HostFs) (root : HostPath) : Prop := ∃ u, h.place root = some u ∧ h.isDir u = true

theorem Roots.walk (hr : h.Roots root) :
    h.walk (if root.head? = some 47 then [] else h.cwd) (pathSegments root) =
      some (h.rootPlace root) ∧ h.isDir (h.rootPlace root) = true := by
  obtain ⟨u, hu, hd⟩ := hr
  rw [place] at hu
  split_ifs at hu
  all_goals
    have he := walk_eq hu
    simp_all [rootPlace]

theorem Roots.mono {h' : HostFs} (hr : h.Roots root) (hc : h'.cwd = h.cwd)
    (hd : ∀ p, h.isDir p = true → h'.isDir p = true) : h'.Roots root := by
  obtain ⟨u, hu, hdir⟩ := hr
  refine ⟨u, ?_, hd u hdir⟩
  unfold place at hu ⊢
  rw [hc]
  split_ifs at hu ⊢
  all_goals exact walk_mono hd hu

theorem Roots.bind {α : Type*} (hr : h.Roots root) (hq : q ≠ []) (f : PathBuf → Option α)
    (hf : h.isDir (h.rootPlace root ++ q).dropLast = false → f (h.rootPlace root ++ q) = none) :
    (h.place (hostPath root q)).bind f = f (h.rootPlace root ++ q) := by
  rw [List.dropLast_append_of_ne_nil hq] at hf
  cases hd : h.isDir (h.rootPlace root ++ q.dropLast) with
  | true =>
    rw [place_hostPath h root hq, hr.walk.1, Option.bind_some, walk_names hq hd, Option.bind_some]
  | false =>
    cases hp : h.place (hostPath root q) with
    | none => rw [hf hd, Option.bind_none]
    | some r => rw [Option.bind_some, place_hostPath_eq hq hp]

theorem node_eq_none (hp : p ≠ []) (hd : h.isDir p.dropLast = false) : h.node p = none := by
  by_contra hn
  rw [isDir_parent hp hn] at hd
  cases hd

theorem openAt_of_none (hn : h.node p = none) (flags : Flags) :
    h.openAt p flags =
      if hp : flags.has O_CREAT ∧ p ≠ [] ∧ h.isDir p.dropLast = true then
        some (h.put p (.file []) hp.2.1 (by simp [isDir, hn]) hp.2.2)
      else none := by
  unfold openAt
  split
  · rename_i hs
    cases hn.symm.trans hs
  · rename_i hs
    cases hn.symm.trans hs
  · rfl

theorem Roots.find (hr : h.Roots root) (hq : q ≠ []) :
    (h.place (hostPath root q)).bind h.node = h.node (h.rootPlace root ++ q) :=
  hr.bind hq h.node (node_eq_none (by simp [hq]))

theorem access_eq_zero_iff (path : HostPath) (mode : Int) :
    h.access path mode = 0 ↔ (h.place path).bind h.node ≠ none := by
  unfold access
  cases h.place path with
  | none => simp
  | some p => cases h.node p <;> simp

theorem node_take (hp : p ≠ []) (hempty : h.noEntries p = true) (q : PathBuf) :
    (h.take p hp hempty).node q = if q = p then none else h.node q := node_erase p q

theorem node_put {n : HostNode} (hp : p ≠ []) (hdir : h.isDir p = false)
    (hparent : h.isDir p.dropLast = true) (q : PathBuf) :
    (h.put p n hp hdir hparent).node q = if q = p then some n else h.node q := node_insert p q n

theorem removeAt_eq_some {h' : HostFs} {kind : VfsEntryKind} (hr : h.removeAt kind p = some h') :
    h'.cwd = h.cwd ∧ h'.refuses = h.refuses ∧
      ∀ q, h'.node q = if q = p then none else h.node q := by
  unfold removeAt at hr
  split_ifs at hr with hp
  cases hr
  exact ⟨rfl, rfl, node_take hp.1 hp.2.2⟩

theorem remove_cases (h : HostFs) (kind : VfsEntryKind) (root : HostPath) (hq : q ≠ []) :
    (h.remove kind (hostPath root q)).2 = h ∨
      h.removeAt kind (h.rootPlace root ++ q) = some (h.remove kind (hostPath root q)).2 := by
  unfold remove
  cases hr : h.place (hostPath root q) with
  | none => exact Or.inl rfl
  | some r =>
    rw [← place_hostPath_eq hq hr]
    cases he : h.removeAt kind r with
    | none => exact Or.inl (by simp [he])
    | some h' => exact Or.inr (by simp [he])

theorem Roots.remove_eq (hr : h.Roots root) (hq : q ≠ []) {kind : VfsEntryKind}
    (hk : (h.node (h.rootPlace root ++ q)).map HostNode.kind = some kind)
    (hempty : h.noEntries (h.rootPlace root ++ q) = true) :
    h.removeAt kind (h.rootPlace root ++ q) = some (h.remove kind (hostPath root q)).2 := by
  have hne : h.rootPlace root ++ q ≠ [] := by simp [hq]
  have hat : h.removeAt kind (h.rootPlace root ++ q) =
      some (h.take (h.rootPlace root ++ q) hne hempty) := dif_pos ⟨hne, hk, hempty⟩
  have hbind := hr.bind hq (h.removeAt kind) fun hd => by simp [removeAt, node_eq_none hne hd]
  rw [remove, Option.bind_eq_bind, hbind, hat]

theorem roots_slash (h : HostFs) : h.Roots [47] := ⟨[], rfl, isDir_iff.mpr h.root_dir⟩

theorem mkdir_hostPath (hp : p ≠ []) (mode : Mode) :
    h.mkdir (hostPath [47] p) mode =
      if h.refuses h.calls then (-1, h.called)
      else
        match h.mkdirAt p with
        | some h' => (0, h'.called)
        | none => (-1, h.called) := by
  have hbind := h.roots_slash.bind hp h.mkdirAt fun hd => by
    have hd' : h.isDir p.dropLast = false := hd
    show h.mkdirAt p = none
    simp [mkdirAt, hd']
  rw [mkdir, Option.bind_eq_bind, hbind]
  rfl

theorem openPath_hostPath (hp : p ≠ []) (flags : Flags) (mode : Mode) :
    h.openPath (hostPath [47] p) flags mode =
      if h.refuses h.calls then (-1, h.called)
      else
        match h.openAt p flags with
        | some h' => ((h.calls : Int), h'.called)
        | none => (-1, h.called) := by
  have hbind := h.roots_slash.bind hp (h.openAt · flags) fun hd => by
    have hd' : h.isDir p.dropLast = false := hd
    show h.openAt p flags = none
    rw [openAt_of_none (node_eq_none hp hd'), dif_neg]
    simp [hd']
  rw [openPath, Option.bind_eq_bind, hbind]
  rfl

/-- The host with a new directory at `p`, in which there are the names that `made` says. -/
structure Holds (h₀ h : HostFs) (p : PathBuf) (made : FileName → Option VfsEntryKind) : Prop where
  cwd : h.cwd = h₀.cwd
  refuses : h.refuses = h₀.refuses
  top : h.node p = some .dir
  below : ∀ x, (h.node (p ++ [x])).map HostNode.kind = made x
  other : ∀ q, q ≠ p → (∀ x, q ≠ p ++ [x]) → h.node q = h₀.node q

variable {h₀ : HostFs} {made : FileName → Option VfsEntryKind} {x : FileName}

theorem node_below (hfree : h₀.node p = none) (x : FileName) : h₀.node (p ++ [x]) = none := by
  by_contra hne
  have hd := h₀.isDir_parent (p := p ++ [x]) (by simp) hne
  rw [List.dropLast_concat, isDir_iff, hfree] at hd
  cases hd

theorem Holds.isDir (hh : Holds h₀ h p made) (hfree : h₀.node p = none) (hd : h₀.isDir q = true) :
    h.isDir q = true := by
  rw [isDir_iff] at hd ⊢
  rw [hh.other q]
  · exact hd
  · rintro rfl
    rw [hfree] at hd
    cases hd
  · rintro x rfl
    rw [node_below hfree] at hd
    cases hd

theorem Holds.roots (hh : Holds h₀ h p made) (hfree : h₀.node p = none) (hr : h₀.Roots root) :
    h.Roots root :=
  hr.mono hh.cwd fun _ => hh.isDir hfree

theorem Holds.rootPlace (hh : Holds h₀ h p made) (root : HostPath) :
    h.rootPlace root = h₀.rootPlace root := by
  rw [HostFs.rootPlace, HostFs.rootPlace, hh.cwd]

theorem Holds.noEntries_child (hh : Holds h₀ h p made) (hfree : h₀.node p = none) (x : FileName) :
    h.noEntries (p ++ [x]) = true := by
  rw [noEntries_iff]
  intro q hq hup
  obtain ⟨r, y, rfl⟩ := (List.eq_nil_or_concat q).resolve_left hq
  rw [List.concat_eq_append, List.dropLast_concat] at hup
  subst hup
  rw [List.concat_eq_append, hh.other]
  · exact node_below (node_below hfree x) y
  · intro he
    have hlen := congrArg List.length he
    simp at hlen
  · intro z he
    have hlen := congrArg List.length he
    simp at hlen

theorem Holds.noEntries_top (hh : Holds h₀ h p made) (hmade : ∀ x, made x = none) :
    h.noEntries p = true := by
  rw [noEntries_iff]
  intro q hq hup
  obtain ⟨r, y, rfl⟩ := (List.eq_nil_or_concat q).resolve_left hq
  rw [List.concat_eq_append, List.dropLast_concat] at hup
  subst hup
  have hb := hh.below y
  rw [hmade y] at hb
  simpa using hb

theorem Holds.called (hh : Holds h₀ h p made) : Holds h₀ h.called p made :=
  ⟨hh.cwd, hh.refuses, hh.top, hh.below, hh.other⟩

theorem Holds.update {h' : HostFs} {n : Option HostNode} (hh : Holds h₀ h p made)
    (hn : ∀ q, h'.node q = if q = p ++ [x] then n else h.node q) (hc : h'.cwd = h.cwd)
    (hr : h'.refuses = h.refuses) :
    Holds h₀ h' p (Function.update made x (n.map HostNode.kind)) where
  cwd := hc.trans hh.cwd
  refuses := hr.trans hh.refuses
  top := by
    rw [hn, if_neg (by simp)]
    exact hh.top
  below := by
    intro y
    by_cases hy : y = x
    · subst hy
      rw [hn, if_pos rfl, Function.update_self]
    · rw [hn, if_neg (by simpa using hy), Function.update_of_ne hy]
      exact hh.below y
  other := by
    intro q hq hnone
    rw [hn, if_neg (hnone x)]
    exact hh.other q hq hnone

theorem Holds.restored {h' : HostFs} (hh : Holds h₀ h p made) (hfree : h₀.node p = none)
    (hmade : ∀ x, made x = none) (hn : ∀ q, h'.node q = if q = p then none else h.node q) :
    h'.nodes = h₀.nodes := by
  apply Std.ExtTreeMap.ext_getElem?
  intro q
  show h'.node q = h₀.node q
  rw [hn]
  split_ifs with hq
  · rw [hq, hfree]
  · by_cases hx : ∃ x, q = p ++ [x]
    · obtain ⟨x, rfl⟩ := hx
      have hb := hh.below x
      rw [hmade x] at hb
      rw [node_below hfree, Option.map_eq_none_iff.mp hb]
    · exact hh.other q hq fun x he => hx ⟨x, he⟩

theorem Holds.node_child (hh : Holds h₀ h p made) (hm : made x = none) :
    h.node (p ++ [x]) = none ∧ h.isDir (p ++ [x]).dropLast = true := by
  constructor
  · have hb := hh.below x
    rw [hm] at hb
    exact Option.map_eq_none_iff.mp hb
  · rw [List.dropLast_concat]
    exact isDir_iff.mpr hh.top

theorem Holds.mkdirAt_child (hh : Holds h₀ h p made) (hm : made x = none) :
    ∃ h', h.mkdirAt (p ++ [x]) = some h' ∧ h'.calls = h.calls ∧
      Holds h₀ h' p (Function.update made x (some .dir)) := by
  obtain ⟨hn, hd⟩ := hh.node_child hm
  have hp : p ++ [x] ≠ [] := by simp
  have hno : h.isDir (p ++ [x]) = false := by simp [HostFs.isDir, hn]
  have hput : Holds h₀ (h.put (p ++ [x]) .dir hp hno hd) p (Function.update made x (some .dir)) :=
    hh.update (node_put hp hno hd) rfl rfl
  exact ⟨h.put (p ++ [x]) .dir hp hno hd, dif_pos ⟨hp, hn, hd⟩, rfl, hput⟩

theorem Holds.openAt_child (hh : Holds h₀ h p made) (hm : made x = none) {flags : Flags}
    (hc : flags.has O_CREAT = true) :
    ∃ h', h.openAt (p ++ [x]) flags = some h' ∧ h'.calls = h.calls ∧
      Holds h₀ h' p (Function.update made x (some .file)) := by
  obtain ⟨hn, hd⟩ := hh.node_child hm
  have hp : p ++ [x] ≠ [] := by simp
  have hno : h.isDir (p ++ [x]) = false := by simp [HostFs.isDir, hn]
  have hput : Holds h₀ (h.put (p ++ [x]) (.file []) hp hno hd) p
      (Function.update made x (some .file)) := hh.update (node_put hp hno hd) rfl rfl
  refine ⟨h.put (p ++ [x]) (.file []) hp hno hd, ?_, rfl, hput⟩
  rw [openAt_of_none hn]
  exact dif_pos ⟨hc, hp, hd⟩

theorem mkdirAt_top (hp : p ≠ []) {h' : HostFs} (hm : h.mkdirAt p = some h') :
    h.node p = none ∧ h'.calls = h.calls ∧ Holds h h' p fun _ => none := by
  unfold mkdirAt at hm
  split_ifs at hm with hc
  cases hm
  obtain ⟨-, hfree, hd⟩ := hc
  have hno : h.isDir p = false := by simp [isDir, hfree]
  refine ⟨hfree, rfl, ⟨rfl, rfl, ?_, ?_, ?_⟩⟩
  · rw [node_put hp hno hd, if_pos rfl]
  · intro x
    rw [node_put hp hno hd, if_neg (by simp), node_below hfree]
    rfl
  · intro q hq _
    rw [node_put hp hno hd, if_neg hq]

end HostFs

structure Libc.ActsOnTree (libc : Libc HostFs) : Prop where
  access : libc.access = HostFs.access
  openPath : libc.openPath = HostFs.openPath
  mkdir : libc.mkdir = HostFs.mkdir
  unlink : libc.unlink = HostFs.unlink
  rmdir : libc.rmdir = HostFs.rmdir

end SandboxVfs
