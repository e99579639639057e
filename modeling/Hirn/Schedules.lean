import Hirn.Runs

/-! Endless runs of a system, and the rule by which fairness gives progress: what can only change
at an event still holds when the event comes. -/
namespace Hirn.Schedules
variable {σ ι : Type*} {step : σ → ι → σ} {s : σ} {inputs : ℕ → ι}

def states (step : σ → ι → σ) (s : σ) (inputs : ℕ → ι) : ℕ → σ
  | 0 => s
  | n+1 => step (states step s inputs n) (inputs n)

theorem states_succ (n : ℕ) : states step s inputs (n+1) = step (states step s inputs n)
    (inputs n) := rfl

theorem invariant {ok : σ → ι → Prop} {I : σ → Prop} (hstep : ∀ s i, ok s i → I s → I (step s i))
    (hs : I s)
    (hok : ∀ n, ok (states step s inputs n) (inputs n)) (n : ℕ) : I (states step s inputs n) := by
  induction n with
  | zero => exact hs
  | succ n ih => exact hstep _ _ (hok n) ih

variable {m n : ℕ} {P : ℕ → Prop}

theorem stays (hn : P n) (hstep : ∀ m, n ≤ m → P m → P (m+1)) (hm : n ≤ m) : P m :=
  Nat.le_induction hn hstep m hm

theorem holds_until {Q : ℕ → Prop} (hn : P n) (hstep : ∀ m, n ≤ m → P m → ¬Q m → P (m+1))
    (hQ : ∃ m, n ≤ m ∧ Q m) : ∃ m, n ≤ m ∧ P m ∧ Q m := by
  by_contra hnever
  have hall : ∀ m, n ≤ m → P m := by
    intro m hm
    exact stays hn (fun j hj hP => hstep j hj hP fun hQj => hnever ⟨j,hj,hP,hQj⟩) hm
  obtain ⟨m,hm,hQm⟩ := hQ
  exact hnever ⟨m,hm,hall m hm,hQm⟩

theorem states_of_rest (hrest : ∀ m, n ≤ m → step (states step s inputs n) (inputs m) =
    states step s inputs n) (hm : n ≤ m) : states step s inputs m = states step s inputs n := by
  refine stays (P := fun m => states step s inputs m = states step s inputs n) rfl
    (fun j hj h => ?_) hm
  rw [states_succ,h,hrest j hj]
end Hirn.Schedules
