import SandboxVfs.Library.Runs

/-! A copy that follows its original with a delay: in a run, the step that writes it last
decides whether the two agree at the end. -/

namespace SandboxVfs.Runs

variable {S O : Type*} {step : S → O → S} {writes ok : S → O → Prop} {s : S} {os : List O}

/-- The last step of the run that is one of `writes`, if there is any, meets `ok`. -/
def LastStep (step : S → O → S) (writes ok : S → O → Prop) : S → List O → Prop
  | _, [] => True
  | s, o :: os =>
    (writes s o → EveryStep step (fun s o => ¬ writes s o) (step s o) os → ok s o) ∧
      LastStep step writes ok (step s o) os

theorem EveryStep.lastStep (h : EveryStep step ok s os) : LastStep step writes ok s os := by
  induction os generalizing s with
  | nil => trivial
  | cons o os ih => exact ⟨fun _ _ => h.1, ih h.2⟩

/-- Nothing is due at the end of a run that does not write only if nothing was due at its
start, and nothing has changed then. -/
theorem same_of_no_write (Due Same : S → Prop)
    (h : ∀ s o, ¬ writes s o → ¬ Due (step s o) → ¬ Due s ∧ (Same (step s o) ↔ Same s))
    (hno : EveryStep step (fun s o => ¬ writes s o) s os) (hend : ¬ Due (os.foldl step s)) :
    ¬ Due s ∧ (Same (os.foldl step s) ↔ Same s) := by
  induction os generalizing s with
  | nil => exact ⟨hend, Iff.rfl⟩
  | cons o os ih =>
    obtain ⟨hdue, hsame⟩ := ih hno.2 hend
    obtain ⟨hdue', hsame'⟩ := h s o hno.1 hdue
    exact ⟨hdue', hsame.trans hsame'⟩

/-- A change of the original makes a write due, and a write makes the two agree if and
only if it meets `ok`. -/
theorem same_iff (Due Same : S → Prop)
    (h : ∀ s o, ¬ writes s o → ¬ Due (step s o) → ¬ Due s ∧ (Same (step s o) ↔ Same s))
    (hw : ∀ s o, writes s o → (Same (step s o) ↔ ok s o)) (hend : ¬ Due (os.foldl step s)) :
    Same (os.foldl step s) ↔ LastStep step writes ok s os ∧
      (EveryStep step (fun s o => ¬ writes s o) s os → Same s) := by
  induction os generalizing s with
  | nil => exact ⟨fun hs => ⟨trivial, fun _ => hs⟩, fun hs => hs.2 trivial⟩
  | cons o os ih =>
    have hrest := ih hend
    rw [List.foldl_cons, hrest]
    by_cases hwo : writes s o
    · have hsame := hw s o hwo
      constructor
      · rintro ⟨hlast, hnone⟩
        exact ⟨⟨fun _ hno => hsame.mp (hnone hno), hlast⟩, fun hno => absurd hwo hno.1⟩
      · rintro ⟨⟨hok, hlast⟩, -⟩
        exact ⟨hlast, fun hno => hsame.mpr (hok hwo hno)⟩
    · have hsame (hno : EveryStep step (fun s o => ¬ writes s o) (step s o) os) :
          Same (step s o) ↔ Same s :=
        (h s o hwo (same_of_no_write Due Same h hno hend).1).2
      constructor
      · rintro ⟨hlast, hnone⟩
        exact ⟨⟨fun hwo' => absurd hwo' hwo, hlast⟩, fun hno => (hsame hno.2).mp (hnone hno.2)⟩
      · rintro ⟨⟨-, hlast⟩, hnone⟩
        exact ⟨hlast, fun hno => (hsame hno).mpr (hnone ⟨hwo, hno⟩)⟩

end SandboxVfs.Runs
