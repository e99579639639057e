import Mathlib

/-! Personalized PageRank over the nodes that the seeds reach. A seed that is listed twice counts twice
where the mass is divided and gets its share once. -/
namespace Hirn.PageRank
open List

structure PprConfig where
  (alpha epsilon : ℚ)
  maxIterations : ℕ
  alpha_mem : 0 ≤ alpha ∧ alpha ≤ 1

/-- What the iteration is given. Edges may lead out of the node set. -/
structure Ppr (κ : Type) where
  nodes : Finset κ
  outAdjacency : κ → List (κ × ℚ)
  seeds : List κ
  config : PprConfig
  weights : ∀ i, ∀ e ∈ outAdjacency i, 0 ≤ e.2

namespace Ppr
variable {κ : Type} [DecidableEq κ] (g : Ppr κ) (scores : κ → ℚ)

def seedCount : ℕ := g.seeds.countP (· ∈ g.nodes)

def personalization (i : κ) : ℚ := if i ∈ g.seeds then 1/g.seedCount else 0

def outEdges (i : κ) : List (κ × ℚ) :=
  let inSubgraph := (g.outAdjacency i).filter (·.1 ∈ g.nodes)
  let totalWeight := (inSubgraph.map (·.2)).sum
  if 0 < totalWeight then inSubgraph.map fun e => (e.1,e.2/totalWeight) else []

def danglingMass : ℚ := ∑ i ∈ g.nodes, if g.outEdges i = [] then scores i else 0

/-- What the edges bring to a node; the order of an exact sum is of no account. -/
def newScores (j : κ) : ℚ := ∑ i ∈ g.nodes,
    ((g.outEdges i).map fun e => if e.1 = j then scores i*e.2 else 0).sum

def iterate (i : κ) : ℚ :=
  g.config.alpha*g.personalization i+(1-g.config.alpha)*g.newScores scores i+
    (1-g.config.alpha)*g.danglingMass scores*g.personalization i

def powerIteration : ℕ → (κ → ℚ) → κ → ℚ
  | 0, scores => scores
  | n+1, scores =>
    if ∀ i ∈ g.nodes, |g.iterate scores i-scores i| < g.config.epsilon then g.iterate scores
    else powerIteration n (g.iterate scores)

def finalScores : κ → ℚ := g.powerIteration g.config.maxIterations g.personalization

def pprPowerIteration (i : κ) : Option ℚ :=
  if g.seedCount ≠ 0 ∧ i ∈ g.nodes ∧ 1/10^10 < g.finalScores i then some (g.finalScores i) else none

def mass : ℚ := ∑ i ∈ g.nodes, scores i

/-- No score is negative, and the sum is that of the seeds' shares, at most one. -/
def Balanced : Prop := (∀ i ∈ g.nodes, 0 ≤ scores i) ∧
  (g.mass g.personalization = 1 ∧ g.mass scores = 1 ∨ g.mass g.personalization < 1 ∧ g.mass scores < 1)

variable {g scores}

theorem outEdges_spec (i : κ) : (∀ e ∈ g.outEdges i, e.1 ∈ g.nodes ∧ 0 ≤ e.2) ∧
    (g.outEdges i ≠ [] → ((g.outEdges i).map (·.2)).sum = 1) := by
  unfold outEdges
  dsimp only
  split
  next hpos =>
    refine ⟨fun e he => ?_,fun _ => ?_⟩
    · obtain ⟨d,hd,rfl⟩ := mem_map.mp he
      obtain ⟨hd,hmem⟩ := mem_filter.mp hd
      exact ⟨of_decide_eq_true hmem,div_nonneg (g.weights i d hd) hpos.le⟩
    · simp only [map_map,Function.comp_def,div_eq_mul_inv]
      rw [sum_map_mul_right,mul_inv_cancel₀ hpos.ne']
  next => exact ⟨nofun,fun h => absurd rfl h⟩

theorem sum_received {es : List (κ × ℚ)} (hes : ∀ e ∈ es, e.1 ∈ g.nodes) (c : ℚ) :
    ∑ j ∈ g.nodes, (es.map fun e => if e.1 = j then c*e.2 else 0).sum = c*(es.map (·.2)).sum := by
  induction es with
  | nil => simp
  | cons e es ih =>
    obtain ⟨he,hes⟩ := forall_mem_cons.mp hes
    simp [Finset.sum_add_distrib,if_pos he,ih hes,mul_add]

theorem mass_newScores : g.mass (g.newScores scores) = g.mass scores-g.danglingMass scores := by
  unfold mass newScores danglingMass
  rw [Finset.sum_comm,← Finset.sum_sub_distrib]
  refine Finset.sum_congr rfl fun i _ => ?_
  obtain ⟨hedges,hsum⟩ := g.outEdges_spec i
  rw [sum_received fun e he => (hedges e he).1]
  split
  next hempty => simp [hempty]
  next hne => rw [hsum hne,mul_one,sub_zero]

theorem mass_iterate : g.mass (g.iterate scores) = g.config.alpha*g.mass g.personalization+
    (1-g.config.alpha)*(g.mass scores-g.danglingMass scores)+
      (1-g.config.alpha)*g.danglingMass scores*g.mass g.personalization := by
  rw [← mass_newScores]
  simp [mass,iterate,Finset.sum_add_distrib,Finset.mul_sum]

theorem personalization_nonneg (i : κ) : 0 ≤ g.personalization i := by
  unfold personalization
  split
  · positivity
  · rfl

theorem mass_personalization (hseed : ∃ s ∈ g.seeds, s ∈ g.nodes) : g.mass g.personalization ≤ 1 ∧
    (g.mass g.personalization = 1 ↔ (g.seeds.filter (· ∈ g.nodes)).Nodup) := by
  have hcount : 0 < (g.seeds.filter (· ∈ g.nodes)).length := by
    obtain ⟨s,hs,hmem⟩ := hseed
    exact length_pos_of_mem (mem_filter.mpr ⟨hs,decide_eq_true hmem⟩)
  have hdistinct : g.nodes.filter (· ∈ g.seeds) = (g.seeds.filter (· ∈ g.nodes)).toFinset := by
    ext i
    simp [and_comm]
  unfold mass personalization
  rw [← Finset.sum_filter,Finset.sum_const,hdistinct,nsmul_eq_mul,mul_one_div,seedCount,
    countP_eq_length_filter,
    div_le_one (by exact_mod_cast hcount),div_eq_one_iff_eq (by exact_mod_cast hcount.ne'),
    Nat.cast_le,Nat.cast_inj]
  exact ⟨toFinset_card_le _,Multiset.toFinset_card_eq_card_iff_nodup⟩

theorem Balanced.iterate (h : g.Balanced scores) : g.Balanced (g.iterate scores) := by
  obtain ⟨hscores,hmass⟩ := h
  obtain ⟨hzero,hone⟩ := g.config.alpha_mem
  have hrest := sub_nonneg.mpr hone
  have hdangling : 0 ≤ g.danglingMass scores := by
    refine Finset.sum_nonneg fun i hi => ?_
    split
    · exact hscores i hi
    · rfl
  refine ⟨fun i hi => ?_,?_⟩
  · have hp := personalization_nonneg (g := g) i
    have hnew : 0 ≤ g.newScores scores i := by
      refine Finset.sum_nonneg fun j hj => sum_nonneg fun x hx => ?_
      obtain ⟨e,he,rfl⟩ := mem_map.mp hx
      split
      · exact mul_nonneg (hscores j hj) ((outEdges_spec j).1 e he).2
      · rfl
    unfold Ppr.iterate
    positivity
  · rw [mass_iterate]
    refine hmass.imp (fun ⟨hall,hmass⟩ => ⟨hall,?_⟩) fun ⟨hless,hmass⟩ => ⟨hless,?_⟩
    · rw [hall,hmass]
      ring
    · have hlost := mul_nonneg (mul_nonneg hrest hdangling) (sub_nonneg.mpr hless.le)
      rcases hzero.eq_or_lt with hα | hα
      · rw [← hα] at hlost ⊢
        linarith
      · have hfirst := mul_lt_mul_of_pos_left hless hα
        have hsecond := mul_le_mul_of_nonneg_left hmass.le hrest
        linarith

theorem Balanced.powerIteration (n : ℕ) (h : g.Balanced scores) :
    g.Balanced (g.powerIteration n scores) := by
  induction n generalizing scores with
  | zero => exact h
  | succ n ih =>
    rw [Ppr.powerIteration]
    split
    · exact h.iterate
    · exact ih h.iterate

/-- After any number of rounds the scores are not negative and sum to one exactly if no seed in the node
set is repeated. -/
theorem mass_conserved_iff {κ : Type} [DecidableEq κ] (g : Ppr κ)
    (hseed : ∃ s ∈ g.seeds, s ∈ g.nodes) :
    (∀ i ∈ g.nodes, 0 ≤ g.finalScores i) ∧ g.mass g.finalScores = 1 ↔
      (g.seeds.filter (· ∈ g.nodes)).Nodup := by
  obtain ⟨hle,hshares⟩ := mass_personalization hseed
  have hstart : g.Balanced g.personalization :=
    ⟨fun i _ => personalization_nonneg i,hle.eq_or_lt.imp (fun h => ⟨h,h⟩) fun h => ⟨h,h⟩⟩
  obtain ⟨hscores,hmass⟩ := hstart.powerIteration g.config.maxIterations
  rw [← hshares]
  constructor
  · rintro ⟨-,hsum⟩
    exact hmass.elim (fun h => h.1) fun h => absurd hsum h.2.ne
  · intro hall
    exact ⟨hscores,hmass.elim (fun h => h.2) fun h => absurd hall h.1.ne⟩

def pair (seeds : List ℕ) : Ppr ℕ where
  nodes := {0,1}
  outAdjacency i := if i = 0 then [(1,1)] else []
  seeds := seeds
  config := ⟨0,0,1,by decide⟩
  weights i e he := by split at he <;> simp_all

theorem repeated_seed_loses_mass : (pair [0,0]).mass (pair [0,0]).finalScores = 1/2 := by
  decide +kernel

theorem mass_conserved_pair : (pair [0]).mass (pair [0]).finalScores = 1 :=
  ((mass_conserved_iff (pair [0]) ⟨0,by decide,by decide⟩).mpr (by decide)).2
end Ppr
end Hirn.PageRank
