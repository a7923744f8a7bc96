import SandboxVfs.Library.Simulations
import SandboxVfs.BindFs
import SandboxVfs.RootVfs

/-! Backends that cannot be told apart, each in a world of its own. What `OverlayFS` and
`RootVFS` make of such backends cannot be told apart either. -/

namespace SandboxVfs

/-- Which worlds go together, and which handles in them. -/
structure Pairing (H H' W W' : Type) where
  worlds : W → W' → Prop
  handles : W → W' → H → H' → Prop

variable {H H' W W' : Type} {P : Pairing H H' W W'} {w u : W} {w' u' : W'}

namespace Pairing

structure Goes (P : Pairing H H' W W') (w : W) (w' : W') (u : W) (u' : W') : Prop where
  worlds : P.worlds u u'
  handles : ∀ h h', P.handles w w' h h' → P.handles u u' h h'

theorem Goes.refl (h : P.worlds w w') : P.Goes w w' w w' := ⟨h, fun _ _ hh => hh⟩

theorem Goes.trans {x : W} {x' : W'} (h : P.Goes w w' u u') (hx : P.Goes u u' x x') :
    P.Goes w w' x x' := ⟨hx.worlds, fun _ _ hh => hx.handles _ _ (h.handles _ _ hh)⟩

structure Same (P : Pairing H H' W W') (w : W) (w' : W') (r : Int × W) (r' : Int × W') : Prop where
  status : r.1 = r'.1
  goes : P.Goes w w' r.2 r'.2

structure SameOpen (P : Pairing H H' W W') (w : W) (w' : W') (r : OpenResult H × W)
    (r' : OpenResult H' × W') : Prop where
  fd : r.1.fd = r'.1.fd
  opened : Option.Rel (P.handles r.2 r'.2) r.1.opened r'.1.opened
  goes : P.Goes w w' r.2 r'.2

theorem Goes.same (h : P.Goes w w' u u') {r : Int × W} {r' : Int × W'} (hr : P.Same u u' r r') :
    P.Same w w' r r' := ⟨hr.status, h.trans hr.goes⟩

theorem Goes.sameOpen (h : P.Goes w w' u u') {r : OpenResult H × W} {r' : OpenResult H' × W'}
    (hr : P.SameOpen u u' r r') : P.SameOpen w w' r r' := ⟨hr.fd, hr.opened, h.trans hr.goes⟩

end Pairing

section

variable {F F' : Type} [LowLevelFS F H W] [LowLevelFS F' H' W']

/-- No call by a normalised path tells the two backends apart. -/
structure Alike (P : Pairing H H' W W') (f : F) (f' : F') : Prop where
  access : ∀ w w', P.worlds w w' → ∀ (p : PathBuf) mode,
    LowLevelFS.access f w p.toAbs mode = LowLevelFS.access f' w' p.toAbs mode
  openWithHandle : ∀ w w', P.worlds w w' → ∀ (p : PathBuf) flags mode,
    P.SameOpen w w' (LowLevelFS.openWithHandle f w p.toAbs flags mode)
      (LowLevelFS.openWithHandle f' w' p.toAbs flags mode)
  mkdir : ∀ w w', P.worlds w w' → ∀ (p : PathBuf) mode,
    P.Same w w' (LowLevelFS.mkdir f w p.toAbs mode) (LowLevelFS.mkdir f' w' p.toAbs mode)
  unlink : ∀ w w', P.worlds w w' → ∀ p : PathBuf,
    P.Same w w' (LowLevelFS.unlink f w p.toAbs) (LowLevelFS.unlink f' w' p.toAbs)
  rmdir : ∀ w w', P.worlds w w' → ∀ p : PathBuf,
    P.Same w w' (LowLevelFS.rmdir f w p.toAbs) (LowLevelFS.rmdir f' w' p.toAbs)
  rename : ∀ w w', P.worlds w w' → ∀ old new : PathBuf,
    P.Same w w' (LowLevelFS.rename f w old.toAbs new.toAbs)
      (LowLevelFS.rename f' w' old.toAbs new.toAbs)
  chmod : ∀ w w', P.worlds w w' → ∀ (p : PathBuf) mode,
    P.Same w w' (LowLevelFS.chmod f w p.toAbs mode) (LowLevelFS.chmod f' w' p.toAbs mode)
  stat : ∀ w w', P.worlds w w' → ∀ p : PathBuf,
    LowLevelFS.stat f w p.toAbs = LowLevelFS.stat f' w' p.toAbs
  readDir : ∀ w w', P.worlds w w' → ∀ p : PathBuf,
    LowLevelFS.readDir f w p.toAbs = LowLevelFS.readDir f' w' p.toAbs

/-- No call through a handle tells the two kinds of handles apart. -/
structure AlikeHandles [OpenedFile H W] [OpenedFile H' W'] (P : Pairing H H' W W') : Prop where
  stat : ∀ w w' h h', P.worlds w w' → P.handles w w' h h' →
    OpenedFile.stat h w = OpenedFile.stat h' w'
  openChild : ∀ w w' h h', P.worlds w w' → P.handles w w' h h' → ∀ path flags mode,
    Option.Rel (P.SameOpen w w') (OpenedFile.openChild h w path flags mode)
      (OpenedFile.openChild h' w' path flags mode)
  mkdirChild : ∀ w w' h h', P.worlds w w' → P.handles w w' h h' → ∀ path mode,
    Option.Rel (P.Same w w') (OpenedFile.mkdirChild h w path mode)
      (OpenedFile.mkdirChild h' w' path mode)
  readDir : ∀ w w' h h', P.worlds w w' → P.handles w w' h h' →
    OpenedFile.readDir h w = OpenedFile.readDir h' w'

end

namespace OverlayFS

variable {F F' : Type} [LowLevelFS F H W] [LowLevelFS F' H' W']

def map (g : F → F') (o : OverlayFS F) : OverlayFS F' := ⟨g o.top, o.middle.map g, g o.base⟩

variable {g : F → F'} (hg : ∀ f, Alike P f (g f)) (o : OverlayFS F)

include hg

theorem visibleLayer_map (hw : P.worlds w w') (p : PathBuf) :
    (o.map g).visibleLayer w' p.toAbs = g (o.visibleLayer w p.toAbs) := by
  unfold visibleLayer map
  dsimp only
  rw [← (hg o.top).access w w' hw]
  split_ifs with htop
  · rfl
  · cases o.middle with
    | none => rfl
    | some f =>
      simp only [Option.map_some]
      rw [← (hg f).access w w' hw]
      split_ifs <;> rfl

theorem pathExistsBelowTop_map (hw : P.worlds w w') (p : PathBuf) :
    (o.map g).pathExistsBelowTop w' p.toAbs = o.pathExistsBelowTop w p.toAbs := by
  unfold pathExistsBelowTop map
  rw [← (hg o.base).access w w' hw]
  cases o.middle with
  | none => rfl
  | some f => simp only [Option.map_some, Option.any_some, ← (hg f).access w w' hw]

theorem ensureTopDir_goes (hw : P.worlds w w') (p : PathBuf) :
    P.Goes w w' (o.ensureTopDir w p.toAbs) ((o.map g).ensureTopDir w' p.toAbs) := by
  unfold ensureTopDir
  show P.Goes w w' _ (if LowLevelFS.access (g o.top) w' p.toAbs F_OK ≠ 0 then _ else w')
  rw [← (hg o.top).access w w' hw]
  split_ifs
  · exact ((hg o.top).mkdir w w' hw p 0o755).goes
  · exact .refl hw

theorem ensureTopDirs_goes (hw : P.worlds w w') (ps : List PathBuf) :
    P.Goes w w' ((ps.map PathBuf.toAbs).foldl o.ensureTopDir w)
      ((ps.map PathBuf.toAbs).foldl (o.map g).ensureTopDir w') := by
  induction ps generalizing w w' with
  | nil => exact .refl hw
  | cons p ps ih =>
    have hp := o.ensureTopDir_goes hg hw p
    exact hp.trans (ih hp.worlds)

theorem ensureTopParentDirs_goes (hw : P.worlds w w') (p : PathBuf) :
    P.Goes w w' (o.ensureTopParentDirs w p.toAbs) ((o.map g).ensureTopParentDirs w' p.toAbs) := by
  unfold ensureTopParentDirs
  rw [PathBuf.parent_toAbs]
  by_cases hp : p = []
  · rw [if_pos hp]
    exact .refl hw
  · rw [if_neg hp]
    dsimp only
    rw [pathExistsBelowTop_map hg o hw, show (o.map g).top = g o.top from rfl,
      ← (hg o.top).access w w' hw]
    split_ifs
    · exact .refl hw
    · have hps : (AbsPath.ancestors (PathBuf.toAbs p.dropLast)).reverse.filter (!·.isRoot) =
          (p.dropLast.inits.filter (!·.isEmpty)).map PathBuf.toAbs := by
        rw [PathBuf.ancestors_toAbs, ← List.map_reverse, List.reverse_reverse, List.filter_map]
        congr 1
        refine List.filter_congr fun q _ => ?_
        simp
      rw [hps]
      exact o.ensureTopDirs_goes hg hw _

theorem actingLayer_map (hw : P.worlds w w') (p : PathBuf) :
    (o.map g).actingLayer w' p.toAbs = g (o.actingLayer w p.toAbs) := by
  unfold actingLayer
  rw [visibleLayer_map hg o hw, show (o.map g).top = g o.top from rfl,
    ← (hg o.top).access w w' hw]
  split_ifs <;> rfl

theorem readLayers_map (hw : P.worlds w w') (p : PathBuf) :
    (o.map g).readLayers w' p.toAbs = o.readLayers w p.toAbs := by
  have hl : (o.map g).layers = o.layers.map g := by
    unfold layers map
    cases o.middle <;> rfl
  unfold readLayers
  rw [hl, List.filterMap_map]
  have hr : (fun f => LowLevelFS.readDir f w' p.toAbs) ∘ g =
      fun f => LowLevelFS.readDir f w p.toAbs := by
    funext f
    exact ((hg f).readDir w w' hw p).symm
  rw [hr]

theorem alike : Alike P o (o.map g) where
  access w w' hw p mode := by
    show LowLevelFS.access (o.visibleLayer w p.toAbs) w p.toAbs mode =
      LowLevelFS.access ((o.map g).visibleLayer w' p.toAbs) w' p.toAbs mode
    rw [visibleLayer_map hg o hw]
    exact (hg _).access w w' hw p mode
  openWithHandle w w' hw p flags mode := by
    simp only [LowLevelFS.openWithHandle]
    split_ifs
    · have hgo := o.ensureTopParentDirs_goes hg hw p
      exact hgo.sameOpen ((hg o.top).openWithHandle _ _ hgo.worlds p flags mode)
    · rw [visibleLayer_map hg o hw]
      exact (hg _).openWithHandle w w' hw p flags mode
  mkdir w w' hw p mode := by
    have hgo := o.ensureTopParentDirs_goes hg hw p
    exact hgo.same ((hg o.top).mkdir _ _ hgo.worlds p mode)
  unlink w w' hw p := by
    show P.Same w w' (LowLevelFS.unlink (o.actingLayer w p.toAbs) w p.toAbs)
      (LowLevelFS.unlink ((o.map g).actingLayer w' p.toAbs) w' p.toAbs)
    rw [actingLayer_map hg o hw]
    exact (hg _).unlink w w' hw p
  rmdir w w' hw p := by
    show P.Same w w' (LowLevelFS.rmdir (o.actingLayer w p.toAbs) w p.toAbs)
      (LowLevelFS.rmdir ((o.map g).actingLayer w' p.toAbs) w' p.toAbs)
    rw [actingLayer_map hg o hw]
    exact (hg _).rmdir w w' hw p
  rename w w' hw old new := by
    simp only [LowLevelFS.rename]
    rw [visibleLayer_map hg o hw, show (o.map g).top = g o.top from rfl,
      ← (hg o.top).access w w' hw]
    split_ifs
    · have hgo := o.ensureTopParentDirs_goes hg hw new
      exact hgo.same ((hg o.top).rename _ _ hgo.worlds old new)
    · exact (hg _).rename w w' hw old new
  chmod w w' hw p mode := by
    show P.Same w w' (LowLevelFS.chmod (o.visibleLayer w p.toAbs) w p.toAbs mode)
      (LowLevelFS.chmod ((o.map g).visibleLayer w' p.toAbs) w' p.toAbs mode)
    rw [visibleLayer_map hg o hw]
    exact (hg _).chmod w w' hw p mode
  stat w w' hw p := by
    show LowLevelFS.stat (o.visibleLayer w p.toAbs) w p.toAbs =
      LowLevelFS.stat ((o.map g).visibleLayer w' p.toAbs) w' p.toAbs
    rw [visibleLayer_map hg o hw]
    exact (hg _).stat w w' hw p
  readDir w w' hw p := (o.readLayers_map hg hw p).symm

end OverlayFS

section

variable {F F' : Type} [LowLevelFS F H W] [LowLevelFS F' H' W'] {g : F → F'}

def Stacked.map (g : F → F') : (n : Nat) → Stacked F n → Stacked F' n
  | 0, f => g f
  | n + 1, s => Sum.map (Stacked.map g n) (OverlayFS.map (Stacked.map g n)) s

theorem Alike.inl {G G' : Type} [LowLevelFS G H W] [LowLevelFS G' H' W'] {f : F} {f' : F'}
    (h : Alike P f f') : Alike P (Sum.inl f : F ⊕ G) (Sum.inl f' : F' ⊕ G') :=
  ⟨h.access, h.openWithHandle, h.mkdir, h.unlink, h.rmdir, h.rename, h.chmod, h.stat, h.readDir⟩

theorem Alike.inr {G G' : Type} [LowLevelFS G H W] [LowLevelFS G' H' W'] {f : F} {f' : F'}
    (h : Alike P f f') : Alike P (Sum.inr f : G ⊕ F) (Sum.inr f' : G' ⊕ F') :=
  ⟨h.access, h.openWithHandle, h.mkdir, h.unlink, h.rmdir, h.rename, h.chmod, h.stat, h.readDir⟩

theorem Stacked.alike (hg : ∀ f, Alike P f (g f)) (n : Nat) (s : Stacked F n) :
    Alike P s (Stacked.map g n s) := by
  induction n with
  | zero => exact hg s
  | succ n ih =>
    cases s with
    | inl s => exact (ih s).inl
    | inr o => exact (o.alike ih).inr

end

end SandboxVfs
