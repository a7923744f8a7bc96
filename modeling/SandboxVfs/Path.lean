import Mathlib

/-! Unix paths as `std::path` sees them: what follows a leading separator, cut
at the separators. Empty segments never count and are not kept. -/

namespace SandboxVfs

/-- A file name that `Component::Normal` can carry: an `OsStr` in bytes, without
separator, and neither of the two names that are components of their own. -/
structure FileName where
  bytes : List UInt8
  ne_nil : bytes ≠ []
  no_slash : 47 ∉ bytes
  ne_dot : bytes ≠ [46]
  ne_dot_dot : bytes ≠ [46, 46]
  deriving DecidableEq, Repr

namespace FileName

@[ext] theorem ext {a b : FileName} (h : a.bytes = b.bytes) : a = b := by
  cases a
  cases b
  cases h
  rfl

/-- `OsString` orders by bytes, which is the order `BTreeMap` lists names in. -/
instance : Ord FileName := ⟨fun a b => compare a.bytes b.bytes⟩

instance : Std.TransOrd FileName where
  eq_swap := fun {a b} =>
    (Std.OrientedCmp.eq_swap : compare a.bytes b.bytes = (compare b.bytes a.bytes).swap)
  isLE_trans := fun {a b c} (h : (compare a.bytes b.bytes).isLE)
      (h' : (compare b.bytes c.bytes).isLE) => (Std.TransCmp.isLE_trans h h' :
    (compare a.bytes c.bytes).isLE)

instance : Std.LawfulEqOrd FileName where
  compare_self := by simp
  eq_of_compare := fun h => ext (Std.LawfulEqOrd.eq_of_compare h)

def ofByte (b : UInt8) (h : b ≠ 47 ∧ b ≠ 46) : FileName where
  bytes := [b]
  ne_nil := by simp
  no_slash := by simpa using h.1.symm
  ne_dot := by simpa using h.2
  ne_dot_dot := by simp

def a : FileName := .ofByte 97 (by decide)
def b : FileName := .ofByte 98 (by decide)
def d : FileName := .ofByte 100 (by decide)
def f : FileName := .ofByte 102 (by decide)
def m : FileName := .ofByte 109 (by decide)
def x : FileName := .ofByte 120 (by decide)

end FileName

/-- `Component` without `RootDir`, which only an absolute path has, in front. -/
inductive Component where
  | curDir
  | parentDir
  | normal (name : FileName)
  deriving DecidableEq, Repr

def Component.name? : Component → Option FileName
  | .normal n => some n
  | _ => none

def lastName (cs : List Component) : Option FileName :=
  cs.getLast?.bind Component.name?

@[simp] theorem lastName_concat (cs : List Component) (c : Component) :
    lastName (cs ++ [c]) = c.name? := by simp [lastName]

structure AbsPath where
  segments : List Component
  deriving DecidableEq, Repr

namespace AbsPath

def components (p : AbsPath) : List Component := p.segments.filter (· ≠ .curDir)

def parent (p : AbsPath) : Option AbsPath :=
  if p.components = [] then none else some ⟨p.components.dropLast⟩

def fileName (p : AbsPath) : Option FileName := lastName p.components

def isRoot (p : AbsPath) : Bool := p.components.isEmpty

def startsWith (p base : AbsPath) : Bool := base.components.isPrefixOf p.components

def ancestors (p : AbsPath) : List AbsPath := p.components.inits.reverse.map AbsPath.mk

/-- The `Component::Normal` parts, which is all that a lookup looks at. -/
def names (p : AbsPath) : List FileName := p.components.filterMap Component.name?

end AbsPath

structure RelPath where
  segments : List Component
  deriving DecidableEq, Repr

namespace RelPath

/-- `.` counts only in front. -/
def components (p : RelPath) : List Component :=
  match p.segments with
  | .curDir :: cs => .curDir :: cs.filter (· ≠ .curDir)
  | cs => cs.filter (· ≠ .curDir)

def parent (p : RelPath) : Option RelPath :=
  if p.components = [] then none else some ⟨p.components.dropLast⟩

def fileName (p : RelPath) : Option FileName := lastName p.components

end RelPath

inductive Path where
  | abs (p : AbsPath)
  | rel (p : RelPath)
  deriving DecidableEq, Repr

def AbsPath.join (base : AbsPath) (p : RelPath) : AbsPath := ⟨base.segments ++ p.segments⟩

/-- A stored `PathBuf`. All of them are outputs of `normalizeAbsolute` or what is
left of one below a mount point: absolute, with normal components only. -/
abbrev PathBuf := List FileName

def PathBuf.toAbs (p : PathBuf) : AbsPath := ⟨p.map .normal⟩

def pushComponent (acc : PathBuf) : Component → PathBuf
  | .curDir => acc
  | .parentDir => acc.dropLast
  | .normal n => acc ++ [n]

def normalizeAbsolute (p : AbsPath) : PathBuf := p.components.foldl pushComponent []

theorem inits_map {α β : Type*} (f : α → β) (l : List α) :
    (l.map f).inits = l.inits.map (List.map f) := by
  induction l with
  | nil => rfl
  | cons a l ih => simp [ih, Function.comp_def]

namespace PathBuf

@[simp] theorem components_toAbs (p : PathBuf) : p.toAbs.components = p.map .normal := by
  simp [toAbs, AbsPath.components, List.filter_eq_self]

@[simp] theorem names_toAbs (p : PathBuf) : p.toAbs.names = p := by
  simp [AbsPath.names, List.filterMap_map, Function.comp_def, Component.name?]

@[simp] theorem isRoot_toAbs (p : PathBuf) : p.toAbs.isRoot = p.isEmpty := by
  simp [AbsPath.isRoot]

@[simp] theorem parent_toAbs_nil : (toAbs []).parent = none := by simp [AbsPath.parent]

@[simp] theorem parent_toAbs_concat (p : PathBuf) (x : FileName) :
    (toAbs (p ++ [x])).parent = some p.toAbs := by
  simp [AbsPath.parent, toAbs, AbsPath.components, List.filter_eq_self.mpr]

theorem parent_toAbs (p : PathBuf) :
    p.toAbs.parent = if p = [] then none else some (toAbs p.dropLast) := by
  rcases List.eq_nil_or_concat p with rfl | ⟨q, x, rfl⟩
  · simp
  · simp

@[simp] theorem fileName_toAbs_concat (p : PathBuf) (x : FileName) :
    (toAbs (p ++ [x])).fileName = some x := by
  simp [AbsPath.fileName, Component.name?]

@[simp] theorem toAbs_inj {p q : PathBuf} : p.toAbs = q.toAbs ↔ p = q := by
  constructor
  · intro h
    simpa using congrArg AbsPath.names h
  · exact congrArg _

theorem components_toAbs_inj {p q : PathBuf} :
    p.toAbs.components = q.toAbs.components ↔ p = q := by
  simp only [components_toAbs]
  exact List.map_inj_right fun _ _ h => Component.normal.inj h

@[simp] theorem startsWith_toAbs (p q : PathBuf) :
    p.toAbs.startsWith q.toAbs = true ↔ q <+: p := by
  simp only [AbsPath.startsWith, components_toAbs, List.isPrefixOf_iff_prefix]
  exact List.prefix_map_iff_of_injective fun _ _ h => Component.normal.inj h

@[simp] theorem ancestors_toAbs (p : PathBuf) :
    p.toAbs.ancestors = p.inits.reverse.map toAbs := by
  rw [AbsPath.ancestors, components_toAbs, inits_map, ← List.map_reverse, List.map_map]
  rfl

end PathBuf

theorem filter_curDir_foldl (q : PathBuf) (cs : List Component) :
    (cs.filter (· ≠ .curDir)).foldl pushComponent q = cs.foldl pushComponent q := by
  induction cs generalizing q with
  | nil => rfl
  | cons c cs ih => cases c <;> simp_all [pushComponent]

theorem RelPath.components_foldl (q : PathBuf) (p : RelPath) :
    p.components.foldl pushComponent q = p.segments.foldl pushComponent q := by
  unfold RelPath.components
  split
  · simp only [List.foldl_cons, filter_curDir_foldl, *]
  · exact filter_curDir_foldl q _

theorem foldl_push_names (q p : PathBuf) :
    (p.map Component.normal).foldl pushComponent q = q ++ p := by
  induction p generalizing q with
  | nil => simp
  | cons x p ih => simp [pushComponent, ih]

theorem normalizeAbsolute_eq_foldl (p : AbsPath) :
    normalizeAbsolute p = p.segments.foldl pushComponent [] :=
  filter_curDir_foldl [] p.segments

@[simp] theorem normalizeAbsolute_toAbs (p : PathBuf) : normalizeAbsolute p.toAbs = p := by
  simp [normalizeAbsolute, foldl_push_names]

theorem normalizeAbsolute_joined (a : AbsPath) (p : RelPath) :
    normalizeAbsolute (a.join p) = p.components.foldl pushComponent (normalizeAbsolute a) := by
  rw [normalizeAbsolute_eq_foldl, normalizeAbsolute_eq_foldl, AbsPath.join, List.foldl_append,
    RelPath.components_foldl]

theorem normalizeAbsolute_join (q : PathBuf) (p : RelPath) :
    normalizeAbsolute (q.toAbs.join p) = p.components.foldl pushComponent q := by
  rw [normalizeAbsolute_joined, normalizeAbsolute_toAbs]

end SandboxVfs
