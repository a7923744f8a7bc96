import SandboxVfs.Library.Runs

/-! What the steps of a run add up to, when each of them keeps the books. -/

namespace SandboxVfs.Runs

variable {S O : Type*} {step : S → O → S}

def total (step : S → O → S) (g : S → O → Nat) : S → List O → Nat
  | _, [] => 0
  | s, o :: os => g s o + total step g (step s o) os

/-- What is given out and written off is what was held at first or came in later, but
for what is still held. -/
theorem total_balance {held : S → Nat} {out loss gain : S → O → Nat} {s : S} {os : List O}
    (h : EveryStep step (fun s o => out s o + held (step s o) + loss s o = held s + gain s o) s os) :
    total step out s os + held (os.foldl step s) + total step loss s os =
      held s + total step gain s os := by
  induction os generalizing s with
  | nil => simp [total]
  | cons o os ih =>
    obtain ⟨ho, hos⟩ := h
    have hr := ih hos
    rw [List.foldl_cons]
    simp only [total]
    omega

end SandboxVfs.Runs
