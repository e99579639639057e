import Hirn.Records

/-! The property graph: typed, weighted edges between memories, and the edges that a reader gets
at a memory. -/
namespace Hirn.Engine

inductive EdgeRelation
  | relatedTo | causes | causedBy | derivedFrom | contradicts | supports | temporalNext | partOf | instanceOf
  | similarTo | inhibits | participatesIn | enables | prevents
  deriving DecidableEq

inductive CausalDirection
  | forward | backward | bidirectional
  deriving DecidableEq

structure CausalEdgeData where
  (strength confidence : ℚ)
  evidenceCount : ℕ
  confounders : List String
  (provenance mechanism : Option String)
  direction : Option CausalDirection
  deriving DecidableEq

/-- An `f32` as comparisons see it: a NaN, or a rational number or one of the infinities. -/
inductive F32
  | nan
  | number (x : WithBot (WithTop ℚ))
  deriving DecidableEq

namespace F32

def lt : F32 → F32 → Bool
  | .number x, .number y => decide (x < y)
  | _, _ => false

def le : F32 → F32 → Bool
  | .number x, .number y => decide (x ≤ y)
  | _, _ => false

theorem not_lt_iff (x y : F32) : ¬x.lt y ↔ y.le x ∨ x = nan ∨ y = nan := by
  cases x <;> cases y <;> simp [lt,le]

theorem not_lt_of_le {x y : F32} (h : y.le x) : ¬x.lt y := (not_lt_iff x y).mpr (.inl h)
end F32

/-- Weights are rational numbers where a NaN makes no difference. -/
structure GraphEdge (ω : Type := ℚ) where
  id : ℕ
  (source target : MemoryId)
  relation : EdgeRelation
  weight : ω
  coRetrievalCount : ℕ
  (createdAt updatedAt : Timestamp)
  (validFrom validUntil : Option Timestamp)
  metadata : List (String × String)
  resolved : Bool
  ns : Namespace
  causal : Option CausalEdgeData
  deriving DecidableEq

def GraphEdge.isValidAt {ω : Type} (e : GraphEdge ω) (asOf : Timestamp) : Bool :=
  e.validFrom.all (· ≤ asOf) && e.validUntil.all (asOf < ·)

/-- Nodes, and the edges between them with the latest first. -/
structure PropertyGraph (ω : Type := ℚ) where
  nodes : List MemoryId
  edges : List (GraphEdge ω)
  endpoints : ∀ e ∈ edges, e.source ∈ nodes ∧ e.target ∈ nodes

namespace PropertyGraph

/-- The edges that leave a node, then those that enter it, as far as valid. -/
def getEdges (g : PropertyGraph) (now : Timestamp) (id : MemoryId) : List GraphEdge :=
  if id ∈ g.nodes then
    (g.edges.filter (·.source == id)++g.edges.filter (·.target == id)).filter (·.isValidAt now)
  else []

def getEdgesOfType (g : PropertyGraph) (now : Timestamp) (id : MemoryId) (relation : EdgeRelation) :
    List GraphEdge := (g.getEdges now id).filter (·.relation == relation)

theorem getEdges_eq (g : PropertyGraph) (now : Timestamp) (id : MemoryId) : g.getEdges now id =
    (g.edges.filter (·.source == id)++g.edges.filter (·.target == id)).filter (·.isValidAt now) := by
  rw [getEdges]
  split
  · rfl
  next hid =>
    have hsource : g.edges.filter (·.source == id) = [] := by
      rw [List.filter_eq_nil_iff]
      intro e he hs
      exact hid (beq_iff_eq.mp hs ▸ (g.endpoints e he).1)
    have htarget : g.edges.filter (·.target == id) = [] := by
      rw [List.filter_eq_nil_iff]
      intro e he ht
      exact hid (beq_iff_eq.mp ht ▸ (g.endpoints e he).2)
    rw [hsource,htarget]
    rfl

def within (g : PropertyGraph) (p : MemoryId → Bool) : PropertyGraph where
  nodes := g.nodes
  edges := g.edges.filter fun e => p e.source && p e.target
  endpoints e he := g.endpoints e (List.mem_of_mem_filter he)

/-- One more edge, with its two nodes. -/
def connect (g : PropertyGraph) (e : GraphEdge) : PropertyGraph where
  nodes := e.source::e.target::g.nodes
  edges := e::g.edges
  endpoints := by
    intro x hx
    rcases List.mem_cons.mp hx with rfl | hx
    · simp
    · obtain ⟨hs,ht⟩ := g.endpoints x hx
      exact ⟨by simp [hs],by simp [ht]⟩
end PropertyGraph
end Hirn.Engine
