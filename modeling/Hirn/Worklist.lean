import Mathlib

/-! Exploration from a queue. An item is taken from the front, what it leads to is put behind,
and an item whose key has been seen is not put there again. -/
namespace Hirn.Worklist
variable {ρ κ α : Type*} [DecidableEq κ] (key : ρ → κ)

def fresh (seen : List ρ) : List ρ → List ρ
  | [] => []
  | r::rs => if key r ∈ seen.map key then fresh seen rs else r::fresh (seen++[r]) rs

/-- What has been seen when the queue is empty, and what visiting has gathered. -/
def explore (visit : α → ρ → α × List ρ) : ℕ → List ρ → List ρ → α → List ρ × α
  | 0, _, seen, a => (seen,a)
  | _+1, [], seen, a => (seen,a)
  | fuel+1, r::queue, seen, a =>
    let new := fresh key seen (visit a r).2
    explore visit fuel (queue++new) (seen++new) (visit a r).1
end Hirn.Worklist
