import Hirn.Chains

/-! What readers see of a store: the rows of one region and the head of one chain. Ways of writing
a chain, and whether such a view survives them. -/
namespace Hirn.Chains
namespace Store
open Revision
variable {ρ : Type*} {c : ℕ} {s : Store ρ}

section
variable [Revision ρ] {b : Backend ρ} {h next : ρ}

/-- A revision that no one has seen takes over from the head `h` of chain `c`. -/
structure Succession (b : Backend ρ) (s : Store ρ) (c : ℕ) (h next : ρ) : Prop where
  head : s.headFor b c = some h
  chain_next : chain next = c
  newer_next : newer next h = true
  key_next : ∀ r, s.Present r → key r ≠ key next

namespace Succession
variable (hs : Succession b s c h next)
include hs

theorem heads_self : (s.succeed next closed).heads c = some next := by
  have hcached : ∀ x, s.heads c = some x → newer next x := by
    intro x hx
    have hh := hs.head
    rw [headFor,hx,Option.some_or] at hh
    cases hh
    exact hs.newer_next
  have hc := hs.chain_next
  subst hc
  refine heads_cacheHead_self fun x hx => ?_
  cases closed with
  | none => exact hcached x hx
  | some r => exact hcached x (cached_evict hx).1

theorem headFor_ne : (s.succeed next closed).headFor b c ≠ s.headFor b c := by
  rw [headFor,hs.heads_self,Option.some_or,hs.head,ne_eq,Option.some_inj]
  rintro rfl
  exact hs.key_next next (present_of_headFor hs.head) rfl
end Succession
end
variable {ν : Type*}

section
variable [DecidableEq ν] (region : ρ → ν)

def regionRows (s : Store ρ) (n : ν) : List ρ := s.rows.filter (region · = n)

variable {region} {n : ν}

theorem mem_regionRows : r ∈ s.regionRows region n ↔ r ∈ s.rows ∧ region r = n := by
  simp [regionRows]
end
variable [Revision ρ] [DecidableEq ν] (b : Backend ρ) (region : ρ → ν)

/-- The rows of region `n` and the head of chain `m` are the same. -/
def SameView (n : ν) (m : ℕ) (s t : Store ρ) : Prop :=
  t.regionRows region n = s.regionRows region n ∧ t.headFor b m = s.headFor b m

variable {b region} {n : ν}

theorem regionRows_dropChain_ne (region : ρ → ν) (hr : r ∈ s.rows) :
    (s.dropChain (chain r)).regionRows region (region r) ≠ s.regionRows region (region r) := by
  intro hrows
  have hmem : r ∈ (s.dropChain (chain r)).regionRows region (region r) :=
    hrows ▸ mem_regionRows.mpr ⟨hr,rfl⟩
  simpa [dropChain] using (mem_regionRows.mp hmem).1

theorem headFor_dropChain_evict : ((s.dropChain c).evict c).headFor b c = none := by
  rw [headFor,heads_evict_self,Option.none_or,loadHead_eq_none]
  intro r hr hc
  simp [dropChain,hc] at hr
end Store
end Hirn.Chains
