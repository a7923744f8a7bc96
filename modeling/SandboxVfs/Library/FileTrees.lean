import Mathlib

/-! Directory trees by path. One tree is the main one; what was taken out of it stays
on top of a tree of its own. No object lies at two places. -/

namespace SandboxVfs.FileTrees

structure Entry (O A : Type*) where
  object : O
  dir : Bool
  attr : A

abbrev Place (N O : Type*) := O × List N

/-- `look r p` is what lies at the path `p` of the tree that has `r` on top. -/
structure FileForest (N O A : Type*) where
  root : O
  look : O → List N → Option (Entry O A)
  root_dir : ∃ e, look root [] = some e ∧ e.dir = true
  top : ∀ r e, look r [] = some e → e.object = r
  parent : ∀ r p x e, look r (p ++ [x]) = some e → ∃ d, look r p = some d ∧ d.dir = true
  apart : ∀ r p s q e e', look r p = some e → look s q = some e' → e.object = e'.object →
    r = s ∧ p = q

def Entry.change {O A : Type*} (e : Entry O A) (f : A → A) : Entry O A :=
  ⟨e.object, e.dir, f e.attr⟩

namespace FileForest

variable {N O A : Type*} {t : FileForest N O A} {r s : O} {p q : List N} {x : N}
  {e e' : Entry O A}

theorem ext {t t' : FileForest N O A} (hr : t.root = t'.root)
    (hl : ∀ r p, t.look r p = t'.look r p) : t = t' := by
  cases t
  cases t'
  cases hr
  cases funext fun r => funext (hl r)
  rfl

theorem look_prefix (h : t.look r (p ++ q) = some e) : ∃ e', t.look r p = some e' := by
  induction q using List.reverseRecOn generalizing e with
  | nil => exact ⟨e, by rwa [List.append_nil] at h⟩
  | append_singleton q x ih =>
    rw [← List.append_assoc] at h
    obtain ⟨d, hd, -⟩ := t.parent r (p ++ q) x e h
    exact ih hd

theorem look_none_below (hp : t.look r p = none) (hq : p <+: q) : t.look r q = none := by
  obtain ⟨s, rfl⟩ := hq
  cases hs : t.look r (p ++ s) with
  | none => rfl
  | some e =>
    obtain ⟨e', he⟩ := look_prefix hs
    rw [hp] at he
    cases he

theorem look_top (h : t.look r p = some e) : ∃ e', t.look r [] = some e' ∧ e'.object = r := by
  obtain ⟨e', he⟩ := look_prefix (p := []) h
  exact ⟨e', he, t.top r e' he⟩

theorem look_object_nil (h : t.look r p = some e) (hp : p ≠ []) : t.look e.object [] = none := by
  cases ho : t.look e.object [] with
  | none => rfl
  | some e' =>
    obtain ⟨-, hnil⟩ := t.apart r p e.object [] e e' h ho (t.top _ _ ho).symm
    exact absurd hnil hp

theorem object_ne_top (h : t.look r p = some e) (hp : p ≠ []) : e.object ≠ r := by
  intro he
  obtain ⟨d, hd, -⟩ := look_top h
  rw [← he, look_object_nil h hp] at hd
  cases hd

def Leaf (t : FileForest N O A) (r : O) (p : List N) : Prop := ∀ x, t.look r (p ++ [x]) = none

theorem Leaf.eq_nil (h : t.Leaf r p) (hq : t.look r (p ++ q) = some e) : q = [] := by
  cases q with
  | nil => rfl
  | cons x q =>
    have hx : (p ++ [x]) <+: p ++ x :: q := ⟨q, by simp⟩
    rw [look_none_below (h x) hx] at hq
    cases hq

theorem not_prefix_dropLast {new : List N} (h : new ≠ []) : ¬ new <+: new.dropLast := by
  intro hpre
  have hlen := hpre.length_le
  have hpos := List.length_pos_iff.mpr h
  rw [List.length_dropLast] at hlen
  omega

structure CanMove (t : FileForest N O A) (old new : List N) : Prop where
  ne : old ≠ new
  old_ne : old ≠ []
  new_ne : new ≠ []
  source : ∃ e, t.look t.root old = some e ∧ (e.dir = true → ¬ old <+: new) ∧
    ∀ e', t.look t.root new = some e' → e'.dir = e.dir ∧ t.Leaf t.root new
  target : ∃ d, t.look t.root new.dropLast = some d ∧ d.dir = true

theorem CanMove.outside {old new : List N} (h : t.CanMove old new) : ¬ old <+: new.dropLast := by
  intro hpre
  obtain ⟨e, he, hdir, -⟩ := h.source
  refine hdir ?_ (hpre.trans (List.dropLast_prefix new))
  -- what has something below it is a directory, and so is the new parent
  obtain ⟨z, hz⟩ := hpre
  obtain ⟨d, hd, hdd⟩ := h.target
  rw [← hz] at hd
  cases z with
  | nil =>
    rw [List.append_nil, he] at hd
    cases hd
    exact hdd
  | cons x z =>
    rw [List.append_cons] at hd
    obtain ⟨e', he'⟩ := look_prefix hd
    obtain ⟨d', hd', hdir'⟩ := t.parent _ _ _ _ he'
    rw [he] at hd'
    cases hd'
    exact hdir'

theorem CanMove.not_replaced {old new : List N} (h : t.CanMove old new) : ¬ new <+: old := by
  rintro ⟨z, hz⟩
  obtain ⟨e, he, -, hleaf⟩ := h.source
  rw [← hz] at he
  obtain ⟨e', he'⟩ := look_prefix he
  have hnil := (hleaf e' he').2.eq_nil he
  subst hnil
  exact h.ne (by simpa using hz.symm)

theorem CanMove.not_below {old new : List N} (h : t.CanMove old new) : ¬ old <+: new := by
  intro hpre
  obtain ⟨z, rfl⟩ := hpre
  rcases List.eq_nil_or_concat z with rfl | ⟨z, x, rfl⟩
  · exact h.ne (List.append_nil old).symm
  · refine h.outside ?_
    rw [List.concat_eq_append, ← List.append_assoc, List.dropLast_concat]
    exact List.prefix_append old z

def Unused (t : FileForest N O A) (o : O) : Prop := ∀ r p e, t.look r p = some e → e.object ≠ o

structure CanMake (t : FileForest N O A) (r : O) (p : List N) (x : N) : Prop where
  dir : ∃ d, t.look r p = some d ∧ d.dir = true
  absent : t.look r (p ++ [x]) = none

section

variable [DecidableEq N] [DecidableEq O]

def madeLook (t : FileForest N O A) (r : O) (p : List N) (x : N) (e : Entry O A) :
    O → List N → Option (Entry O A) :=
  fun s q => if s = r ∧ q = p ++ [x] then some e else t.look s q

theorem madeLook_of_some (hm : t.CanMake r p x) {d : Entry O A} (h : t.look s q = some d) :
    t.madeLook r p x e s q = some d := by
  rw [madeLook, if_neg, h]
  rintro ⟨rfl, rfl⟩
  rw [hm.absent] at h
  cases h

theorem madeLook_cases {d : Entry O A} (h : t.madeLook r p x e s q = some d) :
    (s = r ∧ q = p ++ [x] ∧ d = e) ∨ t.look s q = some d := by
  unfold madeLook at h
  split_ifs at h with hs
  · exact Or.inl ⟨hs.1, hs.2, (Option.some.inj h).symm⟩
  · exact Or.inr h

def make (t : FileForest N O A) (r : O) (p : List N) (x : N) (e : Entry O A)
    (hm : t.CanMake r p x) (hu : t.Unused e.object) : FileForest N O A where
  root := t.root
  look := t.madeLook r p x e
  root_dir := by
    obtain ⟨d, hd, hdir⟩ := t.root_dir
    exact ⟨d, madeLook_of_some hm hd, hdir⟩
  top := by
    intro s d h
    rcases madeLook_cases h with ⟨-, hnil, -⟩ | h
    · simp at hnil
    · exact t.top s d h
  parent := by
    intro s q y d h
    rcases madeLook_cases h with ⟨rfl, hq, -⟩ | h
    · obtain ⟨rfl, -⟩ := List.append_inj' hq rfl
      obtain ⟨d', hd, hdir⟩ := hm.dir
      exact ⟨d', madeLook_of_some hm hd, hdir⟩
    · obtain ⟨d', hd, hdir⟩ := t.parent s q y d h
      exact ⟨d', madeLook_of_some hm hd, hdir⟩
  apart := by
    intro s q s' q' d d' h h' he
    rcases madeLook_cases h with ⟨rfl, rfl, rfl⟩ | hold <;>
      rcases madeLook_cases h' with ⟨rfl, rfl, rfl⟩ | hold'
    · exact ⟨rfl, rfl⟩
    · exact absurd he.symm (hu _ _ _ hold')
    · exact absurd he (hu _ _ _ hold)
    · exact t.apart s q s' q' d d' hold hold' he

def removedLook (t : FileForest N O A) (r : O) (p : List N) (o : O) :
    O → List N → Option (Entry O A) :=
  fun s q => if s = o then t.look r (p ++ q) else if s = r ∧ p <+: q then none else t.look s q

theorem removedLook_cases {o : O} {d : Entry O A} (h : t.removedLook r p o s q = some d) :
    (s = o ∧ t.look r (p ++ q) = some d) ∨
      (s ≠ o ∧ ¬ (s = r ∧ p <+: q) ∧ t.look s q = some d) := by
  unfold removedLook at h
  split_ifs at h with ho hr
  · exact Or.inl ⟨ho, h⟩
  · exact Or.inr ⟨ho, hr, h⟩

theorem removedLook_other {o : O} (ho : s ≠ o) (hr : ¬ (s = r ∧ p <+: q)) :
    t.removedLook r p o s q = t.look s q := by
  rw [removedLook, if_neg ho, if_neg hr]

def remove (t : FileForest N O A) (r : O) (p : List N) (e : Entry O A) (h : t.look r p = some e)
    (hp : p ≠ []) : FileForest N O A where
  root := t.root
  look := t.removedLook r p e.object
  root_dir := by
    obtain ⟨d, hd, hdir⟩ := t.root_dir
    refine ⟨d, ?_, hdir⟩
    rw [removedLook_other, hd]
    · intro ho
      rw [ho, look_object_nil h hp] at hd
      cases hd
    · rintro ⟨-, hpre⟩
      exact hp (List.prefix_nil.mp hpre)
  top := by
    intro s d hd
    rcases removedLook_cases hd with ⟨rfl, hin⟩ | ⟨-, -, hout⟩
    · rw [List.append_nil, h] at hin
      cases hin
      rfl
    · exact t.top s d hout
  parent := by
    intro s q y d hd
    rcases removedLook_cases hd with ⟨rfl, hin⟩ | ⟨ho, hr, hout⟩
    · rw [← List.append_assoc] at hin
      obtain ⟨d', hd', hdir⟩ := t.parent r (p ++ q) y d hin
      exact ⟨d', by rw [removedLook, if_pos rfl, hd'], hdir⟩
    · obtain ⟨d', hd', hdir⟩ := t.parent s q y d hout
      refine ⟨d', ?_, hdir⟩
      rw [removedLook_other ho, hd']
      rintro ⟨hs, hpre⟩
      exact hr ⟨hs, hpre.trans (List.prefix_append q [y])⟩
  apart := by
    intro s q s' q' d d' hd hd' he
    rcases removedLook_cases hd with ⟨rfl, hin⟩ | ⟨-, hr, hout⟩ <;>
      rcases removedLook_cases hd' with ⟨rfl, hin'⟩ | ⟨-, hr', hout'⟩
    · obtain ⟨-, hq⟩ := t.apart _ _ _ _ d d' hin hin' he
      exact ⟨rfl, List.append_cancel_left hq⟩
    · obtain ⟨rfl, rfl⟩ := t.apart _ _ _ _ d d' hin hout' he
      exact absurd ⟨rfl, List.prefix_append p q⟩ hr'
    · obtain ⟨rfl, rfl⟩ := t.apart _ _ _ _ d d' hout hin' he
      exact absurd ⟨rfl, List.prefix_append p q'⟩ hr
    · exact t.apart s q s' q' d d' hout hout' he

structure CanRelocate (t : FileForest N O A) (r : O) (old new : List N) : Prop where
  old_ne : old ≠ []
  new_ne : new ≠ []
  dir : ∃ d, t.look r new.dropLast = some d ∧ d.dir = true
  absent : t.look r new = none
  outside : ¬ old <+: new.dropLast

def relocatedLook (t : FileForest N O A) (r : O) (old new : List N) :
    O → List N → Option (Entry O A) :=
  fun s q =>
    if s = r then
      if new <+: q then t.look r (old ++ q.drop new.length)
      else if old <+: q then none
      else t.look r q
    else t.look s q

theorem relocatedLook_cases {old new : List N} {d : Entry O A}
    (h : t.relocatedLook r old new s q = some d) :
    (∃ z, s = r ∧ q = new ++ z ∧ t.look r (old ++ z) = some d) ∨
      (t.look s q = some d ∧ (s = r → ¬ new <+: q ∧ ¬ old <+: q)) := by
  unfold relocatedLook at h
  split_ifs at h with hs hn ho
  · obtain ⟨z, rfl⟩ := hn
    rw [List.drop_left] at h
    exact Or.inl ⟨z, hs, rfl, h⟩
  · subst hs
    exact Or.inr ⟨h, fun _ => ⟨hn, ho⟩⟩
  · exact Or.inr ⟨h, fun hh => absurd hh hs⟩

theorem relocatedLook_other {old new : List N} (h : s = r → ¬ new <+: q ∧ ¬ old <+: q) :
    t.relocatedLook r old new s q = t.look s q := by
  unfold relocatedLook
  split_ifs with hs hn ho
  · exact absurd hn (h hs).1
  · exact absurd ho (h hs).2
  · rw [hs]
  · rfl

def relocate (t : FileForest N O A) (r : O) (old new : List N) (hc : t.CanRelocate r old new) :
    FileForest N O A where
  root := t.root
  look := t.relocatedLook r old new
  root_dir := by
    obtain ⟨d, hd, hdir⟩ := t.root_dir
    refine ⟨d, ?_, hdir⟩
    rw [relocatedLook_other, hd]
    intro _
    simp [List.prefix_nil, hc.old_ne, hc.new_ne]
  top := by
    intro s d hd
    rcases relocatedLook_cases hd with ⟨z, -, hz, -⟩ | ⟨hold, -⟩
    · simp [hc.new_ne] at hz
    · exact t.top s d hold
  parent := by
    intro s q x d hd
    rcases relocatedLook_cases hd with ⟨z, rfl, hz, hin⟩ | ⟨hold, hout⟩
    · rcases List.eq_nil_or_concat z with rfl | ⟨z, x', rfl⟩
      · -- the new place itself
        have hq : q = new.dropLast := by simpa using congrArg List.dropLast hz
        subst hq
        obtain ⟨d', hd', hdir⟩ := hc.dir
        refine ⟨d', ?_, hdir⟩
        rw [relocatedLook_other, hd']
        intro _
        exact ⟨not_prefix_dropLast hc.new_ne, hc.outside⟩
      · rw [List.concat_eq_append, ← List.append_assoc] at hz hin
        obtain ⟨rfl, -⟩ := List.append_inj' hz rfl
        obtain ⟨d', hd', hdir⟩ := t.parent s (old ++ z) x' d hin
        refine ⟨d', ?_, hdir⟩
        simp only [relocatedLook, if_true, List.prefix_append, List.drop_left, hd']
    · obtain ⟨d', hd', hdir⟩ := t.parent s q x d hold
      refine ⟨d', ?_, hdir⟩
      rw [relocatedLook_other, hd']
      intro hs
      obtain ⟨hn, ho⟩ := hout hs
      exact ⟨fun hh => hn (hh.trans (List.prefix_append q [x])),
        fun hh => ho (hh.trans (List.prefix_append q [x]))⟩
  apart := by
    intro s q s' q' d d' hd hd' he
    rcases relocatedLook_cases hd with ⟨z, rfl, rfl, hin⟩ | ⟨hold, hout⟩ <;>
      rcases relocatedLook_cases hd' with ⟨z', hs', rfl, hin'⟩ | ⟨hold', hout'⟩
    · subst hs'
      obtain ⟨-, hz⟩ := t.apart _ _ _ _ d d' hin hin' he
      exact ⟨rfl, by rw [List.append_cancel_left hz]⟩
    · obtain ⟨rfl, rfl⟩ := t.apart _ _ _ _ d d' hin hold' he
      exact absurd (List.prefix_append old z) (hout' rfl).2
    · subst hs'
      obtain ⟨rfl, rfl⟩ := t.apart _ _ _ _ d d' hold hin' he
      exact absurd (List.prefix_append old z') (hout rfl).2
    · exact t.apart s q s' q' d d' hold hold' he

def clear (t : FileForest N O A) (p : List N) (hp : p ≠ []) : FileForest N O A :=
  match h : t.look t.root p with
  | none => t
  | some e => t.remove t.root p e h hp

@[simp] theorem clear_root (hp : p ≠ []) : (t.clear p hp).root = t.root := by
  unfold clear
  split <;> rfl

theorem clear_of_none (hp : p ≠ []) (h : t.look t.root p = none) : t.clear p hp = t := by
  unfold clear
  split
  · rfl
  · rename_i e he
    rw [h] at he
    cases he

theorem clear_of_some (hp : p ≠ []) (h : t.look t.root p = some e) :
    t.clear p hp = t.remove t.root p e h hp := by
  unfold clear
  split
  · rename_i he
    rw [h] at he
    cases he
  · rename_i e' he
    cases h.symm.trans he
    rfl

theorem clear_look_main (hp : p ≠ []) (hq : ¬ p <+: q) :
    (t.clear p hp).look t.root q = t.look t.root q := by
  cases h : t.look t.root p with
  | none => rw [clear_of_none hp h]
  | some e =>
    rw [clear_of_some hp h]
    exact removedLook_other (object_ne_top h hp).symm fun hh => hq hh.2

theorem clear_look_self (hp : p ≠ []) : (t.clear p hp).look t.root p = none := by
  cases h : t.look t.root p with
  | none => rw [clear_of_none hp h, h]
  | some e =>
    rw [clear_of_some hp h]
    show t.removedLook t.root p e.object t.root p = none
    rw [removedLook, if_neg (object_ne_top h hp).symm, if_pos ⟨rfl, List.prefix_rfl⟩]

theorem CanMove.cleared {old new : List N} (h : t.CanMove old new) :
    (t.clear new h.new_ne).CanRelocate t.root old new where
  old_ne := h.old_ne
  new_ne := h.new_ne
  dir := by
    obtain ⟨d, hd, hdir⟩ := h.target
    exact ⟨d, by rw [clear_look_main h.new_ne (not_prefix_dropLast h.new_ne), hd], hdir⟩
  absent := clear_look_self h.new_ne
  outside := h.outside

def move (t : FileForest N O A) (old new : List N) (h : t.CanMove old new) : FileForest N O A :=
  (t.clear new h.new_ne).relocate t.root old new h.cleared

theorem move_root {old new : List N} (h : t.CanMove old new) : (t.move old new h).root = t.root :=
  clear_root h.new_ne

theorem move_look_main {old new : List N} (h : t.CanMove old new) :
    (t.move old new h).look t.root q =
      if new <+: q then t.look t.root (old ++ q.drop new.length)
      else if old <+: q then none
      else t.look t.root q := by
  show (t.clear new h.new_ne).relocatedLook t.root old new t.root q = _
  unfold relocatedLook
  rw [if_pos rfl]
  split_ifs with hn ho
  · refine clear_look_main h.new_ne fun hpre => ?_
    rcases List.prefix_or_prefix_of_prefix hpre (List.prefix_append old _) with hh | hh
    · exact h.not_replaced hh
    · exact h.not_below hh
  · rfl
  · exact clear_look_main h.new_ne hn

theorem move_look_replaced {old new : List N} (h : t.CanMove old new)
    (he : t.look t.root new = some e) :
    (t.move old new h).look e.object q = t.look t.root (new ++ q) := by
  have hne := object_ne_top he h.new_ne
  show (t.clear new h.new_ne).relocatedLook t.root old new e.object q = _
  rw [relocatedLook, if_neg hne, clear_of_some h.new_ne he]
  show t.removedLook t.root new e.object e.object q = _
  rw [removedLook, if_pos rfl]

theorem move_look_other {old new : List N} (h : t.CanMove old new) (hs : s ≠ t.root)
    (hr : ∀ e, t.look t.root new = some e → e.object ≠ s) :
    (t.move old new h).look s q = t.look s q := by
  show (t.clear new h.new_ne).relocatedLook t.root old new s q = _
  rw [relocatedLook, if_neg hs]
  cases hn : t.look t.root new with
  | none => rw [clear_of_none h.new_ne hn]
  | some e =>
    rw [clear_of_some h.new_ne hn]
    exact removedLook_other (hr e hn).symm fun hh => hs hh.1

def changedLook (t : FileForest N O A) (r : O) (p : List N) (f : A → A) :
    O → List N → Option (Entry O A) :=
  fun s q => (t.look s q).map fun e => if s = r ∧ q = p then e.change f else e

theorem changedLook_eq_some {f : A → A} {d : Entry O A} (h : t.changedLook r p f s q = some d) :
    ∃ e, t.look s q = some e ∧ d.object = e.object ∧ d.dir = e.dir := by
  obtain ⟨e, he, rfl⟩ := Option.map_eq_some_iff.mp h
  refine ⟨e, he, ?_⟩
  split_ifs <;> exact ⟨rfl, rfl⟩

theorem changedLook_of_some {f : A → A} (h : t.look s q = some e) :
    ∃ d, t.changedLook r p f s q = some d ∧ d.dir = e.dir := by
  refine ⟨_, by rw [changedLook, h, Option.map_some], ?_⟩
  split_ifs <;> rfl

def change (t : FileForest N O A) (r : O) (p : List N) (f : A → A) : FileForest N O A where
  root := t.root
  look := t.changedLook r p f
  root_dir := by
    obtain ⟨e, he, hdir⟩ := t.root_dir
    obtain ⟨d, hd, hdd⟩ := changedLook_of_some (r := r) (p := p) (f := f) he
    exact ⟨d, hd, hdd.trans hdir⟩
  top := by
    intro s d hd
    obtain ⟨e, he, ho, -⟩ := changedLook_eq_some hd
    exact ho.trans (t.top s e he)
  parent := by
    intro s q x d hd
    obtain ⟨e, he, -⟩ := changedLook_eq_some hd
    obtain ⟨d', hd', hdir⟩ := t.parent s q x e he
    obtain ⟨d'', hd'', hdd⟩ := changedLook_of_some (r := r) (p := p) (f := f) hd'
    exact ⟨d'', hd'', hdd.trans hdir⟩
  apart := by
    intro s q s' q' d d' hd hd' ho
    obtain ⟨e, he, hoe, -⟩ := changedLook_eq_some hd
    obtain ⟨e', he', hoe', -⟩ := changedLook_eq_some hd'
    exact t.apart s q s' q' e e' he he' (hoe.symm.trans (ho.trans hoe'))

end

def single [DecidableEq O] (e : Entry O A) (hdir : e.dir = true) : FileForest N O A where
  root := e.object
  look s q := if s = e.object ∧ q = [] then some e else none
  root_dir := ⟨e, by simp, hdir⟩
  top := by
    intro s d h
    split_ifs at h with hs
    cases h
    exact hs.1.symm
  parent := by
    intro s q x d h
    simp at h
  apart := by
    intro s q s' q' d d' h h' _
    split_ifs at h h' with hs hs'
    exact ⟨hs.1.trans hs'.1.symm, hs.2.trans hs'.2.symm⟩

def Within (t' t : FileForest N O A) : Prop :=
  ∀ r p e, t'.look r p = some e → ∃ s q e', t.look s q = some e' ∧ e'.object = e.object

theorem Within.refl (t : FileForest N O A) : t.Within t := fun r p e h => ⟨r, p, e, h, rfl⟩

theorem Within.trans {t t' t'' : FileForest N O A} (h : t''.Within t') (h' : t'.Within t) :
    t''.Within t := by
  intro r p e he
  obtain ⟨s, q, e', he', ho⟩ := h r p e he
  obtain ⟨s', q', e'', he'', ho'⟩ := h' s q e' he'
  exact ⟨s', q', e'', he'', ho'.trans ho⟩

section

variable [DecidableEq N] [DecidableEq O]

theorem remove_within (h : t.look r p = some e) (hp : p ≠ []) :
    (t.remove r p e h hp).Within t := by
  intro s q d hd
  rcases removedLook_cases hd with ⟨-, hin⟩ | ⟨-, -, hout⟩
  · exact ⟨r, p ++ q, d, hin, rfl⟩
  · exact ⟨s, q, d, hout, rfl⟩

theorem clear_within (hp : p ≠ []) : (t.clear p hp).Within t := by
  cases h : t.look t.root p with
  | none =>
    rw [clear_of_none hp h]
    exact Within.refl t
  | some e =>
    rw [clear_of_some hp h]
    exact remove_within h hp

theorem relocate_within {old new : List N} (h : t.CanRelocate r old new) :
    (t.relocate r old new h).Within t := by
  intro s q d hd
  rcases relocatedLook_cases hd with ⟨z, -, -, hin⟩ | ⟨hold, -⟩
  · exact ⟨r, old ++ z, d, hin, rfl⟩
  · exact ⟨s, q, d, hold, rfl⟩

theorem move_within {old new : List N} (h : t.CanMove old new) :
    (t.move old new h).Within t :=
  (relocate_within h.cleared).trans (clear_within h.new_ne)

theorem change_within (f : A → A) : (t.change r p f).Within t := by
  intro s q d hd
  obtain ⟨e, he, ho, -⟩ := changedLook_eq_some hd
  exact ⟨s, q, e, he, ho.symm⟩

end

def At (t : FileForest N O A) (o : O) (pl : Place N O) : Prop :=
  ∃ e, t.look pl.1 pl.2 = some e ∧ e.object = o

theorem At.unique {o : O} {pl pl' : Place N O} (h : t.At o pl) (h' : t.At o pl') : pl = pl' := by
  obtain ⟨e, he, rfl⟩ := h
  obtain ⟨e', he', ho⟩ := h'
  obtain ⟨hr, hp⟩ := t.apart _ _ _ _ e e' he he' ho.symm
  exact Prod.ext hr hp

open Classical in
noncomputable def locate (t : FileForest N O A) (o : O) : Option (Place N O) :=
  if h : ∃ pl, t.At o pl then some h.choose else none

theorem At.locate {o : O} {pl : Place N O} (h : t.At o pl) : t.locate o = some pl := by
  have hex : ∃ pl, t.At o pl := ⟨pl, h⟩
  rw [FileForest.locate, dif_pos hex, Option.some.injEq]
  exact hex.choose_spec.unique h

def child (t : FileForest N O A) (pl : Place N O) (x : N) : Option (Place N O) :=
  (t.look pl.1 (pl.2 ++ [x])).map fun _ => (pl.1, pl.2 ++ [x])

/-- `..` stays at the root of the main tree. What was taken out has nothing above it, and
cannot be entered from below. -/
def above [DecidableEq O] (t : FileForest N O A) (pl : Place N O) : Option (Place N O) :=
  if pl.1 = t.root ∨ 2 ≤ pl.2.length then some (pl.1, pl.2.dropLast) else none

section

variable [Ord N]

def Lists (t : FileForest N O A) (r : O) (p : List N) (l : List N) : Prop :=
  l.Pairwise (compare · · = .lt) ∧ ∀ x, x ∈ l ↔ ∃ e, t.look r (p ++ [x]) = some e

open Classical in
noncomputable def names (t : FileForest N O A) (r : O) (p : List N) : List N :=
  if h : ∃ l, t.Lists r p l then h.choose else []

theorem Lists.names [Std.TransOrd N] [Std.LawfulEqOrd N] {l : List N} (h : t.Lists r p l) :
    t.names r p = l := by
  have hex : ∃ l, t.Lists r p l := ⟨l, h⟩
  rw [FileForest.names, dif_pos hex]
  have hnodup {l : List N} (hl : l.Pairwise (compare · · = .lt)) : l.Nodup := by
    refine hl.imp ?_
    rintro a b hab rfl
    have hself : compare a a = .eq := Std.ReflCmp.compare_self
    rw [hself] at hab
    cases hab
  obtain ⟨hs, hmem⟩ := hex.choose_spec
  refine List.Perm.eq_of_pairwise ?_ hs h.1 ?_
  · intro a b _ _ hab hba
    have hswap : compare b a = (compare a b).swap := Std.OrientedCmp.eq_swap
    rw [hswap, hab] at hba
    cases hba
  · exact (List.perm_ext_iff_of_nodup (hnodup hs) (hnodup h.1)).mpr fun x =>
      (hmem x).trans (h.2 x).symm

end

end FileForest

end SandboxVfs.FileTrees
