import Mathlib

/-! Descriptors, open file descriptions and the contents they share. `F` are the files, and
`D` names the descriptions, each of which is one open. -/

namespace SandboxVfs

/-- What a kernel does with the files themselves. `A` are the flags of an open, `P` the
positions of descriptions, `C` the contents of files, `Q` the calls on a description and
`R` their results. -/
structure FileKernel (A P C Q R : Type*) where
  empty : C
  start : P
  opens : A → C → C
  io : A → P → C → Q → R × P × C

structure Description (F A P : Type*) where
  file : F
  flags : A
  position : P

structure OpenFiles (F D A P C : Type*) where
  table : Int → Option D
  description : D → Option (Description F A P)
  content : F → C

namespace OpenFiles

variable {F G D A P C Q R : Type*} [DecidableEq F] [DecidableEq G] [DecidableEq D]

/-- A new description `d` of `f`, for the descriptor `fd`. -/
def openAs (K : FileKernel A P C Q R) (s : OpenFiles F D A P C) (fd : Int) (d : D) (f : F)
    (flags : A) : OpenFiles F D A P C where
  table := Function.update s.table fd (some d)
  description := Function.update s.description d (some ⟨f, flags, K.start⟩)
  content := Function.update s.content f (K.opens flags (s.content f))

def create (K : FileKernel A P C Q R) (s : OpenFiles F D A P C) (fd : Int) (d : D) (f : F)
    (flags : A) : OpenFiles F D A P C where
  table := Function.update s.table fd (some d)
  description := Function.update s.description d (some ⟨f, flags, K.start⟩)
  content := Function.update s.content f K.empty

def dup (s : OpenFiles F D A P C) (oldfd newfd : Int) : OpenFiles F D A P C :=
  { s with table := Function.update s.table newfd (s.table oldfd) }

def close (s : OpenFiles F D A P C) (fd : Int) : OpenFiles F D A P C :=
  { s with table := Function.update s.table fd none }

def fileAt (s : OpenFiles F D A P C) (fd : Int) : Option F :=
  ((s.table fd).bind s.description).map (·.file)

/-- All numbers but these are closed. -/
def keep (s : OpenFiles F D A P C) (live : Finset Int) : OpenFiles F D A P C :=
  { s with table := fun fd => if fd ∈ live then s.table fd else none }

/-- A call on a description, which keeps its file and its flags. -/
def ioOf (K : FileKernel A P C Q R) (s : OpenFiles F D A P C) (d : D) (e : Description F A P)
    (q : Q) : R × OpenFiles F D A P C :=
  let r := K.io e.flags e.position (s.content e.file) q
  (r.1, { s with
    description := Function.update s.description d (some { e with position := r.2.1 })
    content := Function.update s.content e.file r.2.2 })

/-- `none` for a number without a description. -/
def io (K : FileKernel A P C Q R) (s : OpenFiles F D A P C) (fd : Int) (q : Q) :
    Option (R × OpenFiles F D A P C) :=
  (s.table fd).bind fun d => (s.description d).map fun e => s.ioOf K d e q

section

omit [DecidableEq F] [DecidableEq D]

variable (s : OpenFiles F D A P C) (fd fd' : Int)

theorem dup_table (oldfd newfd : Int) :
    (s.dup oldfd newfd).table fd = if fd = newfd then s.table oldfd else s.table fd := by
  simp only [dup, Function.update_apply]

theorem keep_table (live : Finset Int) :
    (s.keep live).table fd = if fd ∈ live then s.table fd else none := rfl

theorem keep_fileAt (live : Finset Int) :
    (s.keep live).fileAt fd = if fd ∈ live then s.fileAt fd else none := by
  unfold fileAt
  rw [keep_table]
  split_ifs <;> rfl

theorem dup_fileAt (oldfd newfd : Int) :
    (s.dup oldfd newfd).fileAt fd = if fd = newfd then s.fileAt oldfd else s.fileAt fd := by
  unfold fileAt
  rw [dup_table]
  split_ifs <;> rfl

theorem close_table : (s.close fd).table fd' = if fd' = fd then none else s.table fd' := by
  simp only [close, Function.update_apply]

theorem close_fileAt : (s.close fd).fileAt fd' = if fd' = fd then none else s.fileAt fd' := by
  unfold fileAt
  rw [close_table]
  split_ifs <;> rfl

variable [DecidableEq F] [DecidableEq D] (K : FileKernel A P C Q R) (d d' : D) (f f' : F)
  (flags : A)

theorem openAs_table :
    (s.openAs K fd d f flags).table fd' = if fd' = fd then some d else s.table fd' := by
  simp only [openAs, Function.update_apply]

theorem openAs_description :
    (s.openAs K fd d f flags).description d' =
      if d' = d then some ⟨f, flags, K.start⟩ else s.description d' := by
  simp only [openAs, Function.update_apply]

theorem openAs_content :
    (s.openAs K fd d f flags).content f' =
      if f' = f then K.opens flags (s.content f) else s.content f' := by
  simp only [openAs, Function.update_apply]

theorem create_table : (s.create K fd d f flags).table = (s.openAs K fd d f flags).table := rfl

theorem create_description :
    (s.create K fd d f flags).description = (s.openAs K fd d f flags).description := rfl

theorem create_fileAt :
    (s.create K fd d f flags).fileAt fd' = (s.openAs K fd d f flags).fileAt fd' := rfl

theorem create_content :
    (s.create K fd d f flags).content f' = if f' = f then K.empty else s.content f' := by
  simp only [create, Function.update_apply]

variable {d} in
/-- The new description is that of no other number. -/
theorem openAs_fileAt (hd : ∀ fd', s.table fd' ≠ some d) :
    (s.openAs K fd d f flags).fileAt fd' = if fd' = fd then some f else s.fileAt fd' := by
  unfold fileAt
  rw [openAs_table]
  split_ifs with he
  · rw [Option.bind_some, openAs_description, if_pos rfl]
    rfl
  · cases ht : s.table fd' with
    | none => rfl
    | some d' =>
      rw [Option.bind_some, Option.bind_some, openAs_description, if_neg]
      rintro rfl
      exact hd fd' ht

end

section

variable {K : FileKernel A P C Q R} {s s' : OpenFiles F D A P C} {fd : Int} {q : Q} {r : R}

theorem io_cases (h : s.io K fd q = some (r, s')) :
    ∃ d e, s.table fd = some d ∧ s.description d = some e ∧ s.ioOf K d e q = (r, s') := by
  obtain ⟨d, hd, h⟩ := Option.bind_eq_some_iff.mp h
  obtain ⟨e, he, h⟩ := Option.map_eq_some_iff.mp h
  exact ⟨d, e, hd, he, h⟩

theorem io_table (h : s.io K fd q = some (r, s')) : s'.table = s.table := by
  obtain ⟨d, e, -, -, h⟩ := io_cases h
  cases h
  rfl

theorem io_fileAt (h : s.io K fd q = some (r, s')) (fd' : Int) : s'.fileAt fd' = s.fileAt fd' := by
  obtain ⟨d, e, -, he, h⟩ := io_cases h
  cases h
  unfold fileAt
  show ((s.table fd').bind (Function.update s.description d _)).map _ = _
  cases hd' : s.table fd' with
  | none => rfl
  | some d' =>
    by_cases hdd : d' = d
    · subst hdd
      simp [he]
    · simp [Function.update_of_ne hdd]

/-- A call changes the contents of no file but the one that the number is open on. -/
theorem io_content (h : s.io K fd q = some (r, s')) {f : F} (hf : s.fileAt fd ≠ some f) :
    s'.content f = s.content f := by
  obtain ⟨d, e, hd, he, h⟩ := io_cases h
  cases h
  refine Function.update_of_ne ?_ ..
  rintro rfl
  exact hf (by simp [fileAt, hd, he])

end

/-- The same place of the file that is `φ` of the other, and calls have the same effect. -/
structure SameDescription (K : FileKernel A P C Q R) (φ : G → F) (e : Description F A P)
    (e' : Description G A P) : Prop where
  file : e.file = φ e'.file
  position : e.position = e'.position
  io : K.io e.flags = K.io e'.flags

/-- Through the descriptors in `own`, `s` shows what `t` does, with `φ g` for the file `g`. -/
structure Mirrors (K : FileKernel A P C Q R) (φ : G → F) (used : G → Prop) (own : Int → Prop)
    (s : OpenFiles F D A P C) (t : OpenFiles G D A P C) : Prop where
  table : ∀ fd, own fd → s.table fd = t.table fd
  description : ∀ fd d, own fd → t.table fd = some d →
    ∃ e e', t.description d = some e' ∧ used e'.file ∧ s.description d = some e ∧
      SameDescription K φ e e'
  content : ∀ g, used g → s.content (φ g) = t.content g
  injective : ∀ g g', used g → used g' → φ g = φ g' → g = g'

variable {K : FileKernel A P C Q R} {φ : G → F} {used : G → Prop} {own own' : Int → Prop}
  {s s' : OpenFiles F D A P C} {t : OpenFiles G D A P C} {fd oldfd newfd : Int}

omit [DecidableEq F] [DecidableEq G] [DecidableEq D] in
theorem Mirrors.mono (h : Mirrors K φ used own s t) (hown : ∀ fd, own' fd → own fd) :
    Mirrors K φ used own' s t :=
  ⟨fun fd hfd => h.table fd (hown fd hfd), fun fd d hfd => h.description fd d (hown fd hfd),
    h.content, h.injective⟩

omit [DecidableEq F] [DecidableEq G] [DecidableEq D] in
theorem Mirrors.fileAt (h : Mirrors K φ used own s t) (hfd : own fd) :
    s.fileAt fd = (t.fileAt fd).map φ := by
  unfold OpenFiles.fileAt
  rw [h.table fd hfd]
  cases hd : t.table fd with
  | none => rfl
  | some d =>
    obtain ⟨e, e', he', -, he, hsame⟩ := h.description fd d hfd hd
    simp [he, he', hsame.file]

omit [DecidableEq F] [DecidableEq G] [DecidableEq D] in
theorem Mirrors.used_of_fileAt (h : Mirrors K φ used own s t) (hfd : own fd) {g : G}
    (hg : t.fileAt fd = some g) : used g := by
  obtain ⟨e, he, rfl⟩ := Option.map_eq_some_iff.mp hg
  obtain ⟨d, hd, he⟩ := Option.bind_eq_some_iff.mp he
  obtain ⟨-, e', he', hused, -⟩ := h.description fd d hfd hd
  cases he.symm.trans he'
  exact hused

/-- A call through one of the descriptors. -/
theorem Mirrors.io (h : Mirrors K φ used own s t) (hfd : own fd) (q : Q) :
    (s.io K fd q = none ∧ t.io K fd q = none) ∨
      ∃ r s' t', s.io K fd q = some (r, s') ∧ t.io K fd q = some (r, t') ∧
        Mirrors K φ used own s' t' := by
  have htable := h.table fd hfd
  cases hd : t.table fd with
  | none =>
    left
    simp [OpenFiles.io, htable, hd]
  | some d =>
    right
    obtain ⟨e, e', he', hused, he, hsame⟩ := h.description fd d hfd hd
    have hr : K.io e.flags e.position (s.content e.file) q =
        K.io e'.flags e'.position (t.content e'.file) q := by
      rw [hsame.io, hsame.position, hsame.file, h.content e'.file hused]
    let r := K.io e'.flags e'.position (t.content e'.file) q
    refine ⟨r.1, (s.ioOf K d e q).2, (t.ioOf K d e' q).2, ?_, ?_, h.table, ?_, ?_, h.injective⟩
    · have hfst : (s.ioOf K d e q).1 = r.1 := congrArg Prod.fst hr
      simp [OpenFiles.io, htable, hd, he, ← hfst]
    · simp [OpenFiles.io, hd, he', r, ioOf]
    · intro fd' d' hfd' hd'
      have hs : (s.ioOf K d e q).2.description =
          Function.update s.description d (some { e with position := r.2.1 }) := by
        simp only [ioOf, hr, r]
      have ht : (t.ioOf K d e' q).2.description =
          Function.update t.description d (some { e' with position := r.2.1 }) := rfl
      rw [hs, ht]
      by_cases hdd : d' = d
      · subst hdd
        exact ⟨_, _, Function.update_self .., hused, Function.update_self .., hsame.file, rfl,
          hsame.io⟩
      · rw [Function.update_of_ne hdd, Function.update_of_ne hdd]
        exact h.description fd' d' hfd' hd'
    · intro g hg
      have hs : (s.ioOf K d e q).2.content = Function.update s.content (φ e'.file) r.2.2 := by
        show Function.update s.content e.file _ = _
        rw [hr, hsame.file]
      have ht : (t.ioOf K d e' q).2.content = Function.update t.content e'.file r.2.2 := rfl
      rw [hs, ht]
      by_cases hge : g = e'.file
      · rw [hge, Function.update_self, Function.update_self]
      · rw [Function.update_of_ne hge, Function.update_of_ne, h.content g hg]
        exact fun hφ => hge (h.injective g e'.file hg hused hφ)

omit [DecidableEq F] [DecidableEq G] [DecidableEq D] in
theorem Mirrors.dup (h : Mirrors K φ used own s t) (hold : own oldfd) (newfd : Int) :
    Mirrors K φ used (fun fd => own fd ∨ fd = newfd) (s.dup oldfd newfd) (t.dup oldfd newfd) where
  table fd hfd := by
    rw [dup_table, dup_table, h.table oldfd hold]
    split_ifs with he
    · rfl
    · exact h.table fd (hfd.resolve_right he)
  description fd d hfd hd := by
    rw [dup_table] at hd
    split_ifs at hd with he
    · exact h.description oldfd d hold hd
    · exact h.description fd d (hfd.resolve_right he) hd
  content := h.content
  injective := h.injective

omit [DecidableEq F] [DecidableEq G] [DecidableEq D] in
theorem Mirrors.close (h : Mirrors K φ used own s t) (fd : Int) :
    Mirrors K φ used (fun fd' => own fd' ∧ fd' ≠ fd) s (t.close fd) where
  table fd' hfd' := by
    rw [close_table, if_neg hfd'.2, h.table fd' hfd'.1]
  description fd' d hfd' hd := by
    rw [close_table, if_neg hfd'.2] at hd
    exact h.description fd' d hfd'.1 hd
  content := h.content
  injective := h.injective

theorem Mirrors.openAs (h : Mirrors K φ used own s t) {g : G} (hg : used g) (fd : Int) (d : D)
    {flags flags' : A} (hopens : K.opens flags = K.opens flags') (hio : K.io flags = K.io flags') :
    Mirrors K φ used (fun fd' => own fd' ∨ fd' = fd) (s.openAs K fd d (φ g) flags)
      (t.openAs K fd d g flags') where
  table fd' hfd' := by
    rw [openAs_table, openAs_table]
    split_ifs with he
    · rfl
    · exact h.table fd' (hfd'.resolve_right he)
  description fd' d' hfd' hd' := by
    rw [openAs_description, openAs_description]
    by_cases hdd : d' = d
    · rw [if_pos hdd, if_pos hdd]
      exact ⟨_, _, rfl, hg, rfl, rfl, rfl, hio⟩
    · rw [if_neg hdd, if_neg hdd]
      rw [openAs_table] at hd'
      split_ifs at hd' with he
      · exact absurd (Option.some.inj hd').symm hdd
      · exact h.description fd' d' (hfd'.resolve_right he) hd'
  content g' hg' := by
    have hsame : φ g' = φ g ↔ g' = g := ⟨h.injective g' g hg' hg, congrArg φ⟩
    simp only [openAs_content, hsame, h.content g' hg', h.content g hg, hopens]
  injective := h.injective

omit [DecidableEq F] [DecidableEq D] in
/-- A file that neither side has used, under any name that is free. -/
theorem Mirrors.adopt (h : Mirrors K φ used own s t) {g : G} (hg : ¬ used g) {f : F}
    (hf : ∀ g', used g' → φ g' ≠ f) (hcontent : s.content f = t.content g) :
    Mirrors K (Function.update φ g f) (fun g' => used g' ∨ g' = g) own s t := by
  have hsame (g' : G) (hg' : used g') : Function.update φ g f g' = φ g' := by
    rw [Function.update_of_ne]
    rintro rfl
    exact hg hg'
  constructor
  · exact h.table
  · intro fd d hfd hd
    obtain ⟨e, e', he', hused, he, hlike⟩ := h.description fd d hfd hd
    exact ⟨e, e', he', Or.inl hused, he, hlike.file.trans (hsame _ hused).symm, hlike.position,
      hlike.io⟩
  · rintro g' (hg' | rfl)
    · rw [hsame g' hg', h.content g' hg']
    · rw [Function.update_self, hcontent]
  · rintro a b (ha | rfl) (hb | rfl) hab
    · rw [hsame a ha, hsame b hb] at hab
      exact h.injective a b ha hb hab
    · rw [hsame a ha, Function.update_self] at hab
      exact absurd hab (hf a ha)
    · rw [hsame b hb, Function.update_self] at hab
      exact absurd hab.symm (hf b hb)
    · rfl

omit [DecidableEq F] [DecidableEq G] [DecidableEq D] in
/-- What `s` does behind the descriptors and the files that are used. -/
theorem Mirrors.behind (h : Mirrors K φ used own s t)
    (htable : ∀ fd, own fd → s'.table fd = s.table fd)
    (hdesc : ∀ fd d, own fd → s.table fd = some d → s'.description d = s.description d)
    (hcontent : ∀ g, used g → s'.content (φ g) = s.content (φ g)) :
    Mirrors K φ used own s' t where
  table fd hfd := (htable fd hfd).trans (h.table fd hfd)
  description fd d hfd hd := by
    obtain ⟨e, e', he', hused, he, hlike⟩ := h.description fd d hfd hd
    refine ⟨e, e', he', hused, ?_, hlike⟩
    rw [hdesc fd d hfd ((h.table fd hfd).trans hd), he]
  content g hg := (hcontent g hg).trans (h.content g hg)
  injective := h.injective

end OpenFiles

end SandboxVfs
