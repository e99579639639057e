import Hirn.PropertyGraph

/-! The breadth-first search of a memory's neighbours up to a depth. A memory waits with the length of
the path that reached it, and no shorter one comes up later. The test of a weight passes over what lies
below the minimum, so it lets through whatever is compared with a NaN. -/
namespace Hirn.Engine
open List Prod

structure Traversal where
  graph : PropertyGraph F32
  nodeNs : MemoryId → Namespace
  start : MemoryId
  depth : ℕ
  minWeight : F32
  allowed : Option (List Namespace)
  asOf : Timestamp

namespace Traversal
variable (t : Traversal)

def follows (e : GraphEdge F32) : Bool :=
  e.isValidAt t.asOf && !e.weight.lt t.minWeight && t.allowed.all (·.contains (t.nodeNs e.target))

def visit (d : ℕ) : List MemoryId → List (GraphEdge F32) → List (MemoryId × ℕ)
  | _, [] => []
  | visited, e::edges =>
    if t.follows e && !visited.contains e.target then (e.target,d+1)::visit d (e.target::visited) edges
    else visit d visited edges

def outgoing (p : MemoryId × ℕ) : List (GraphEdge F32) :=
  if t.depth ≤ p.2 then [] else t.graph.edges.filter (·.source == p.1)

/-- The loop, with what was taken from the queue and what is in it. -/
def search : ℕ → List (MemoryId × ℕ) → List (MemoryId × ℕ) → List (MemoryId × ℕ)
  | 0, done, queue => done++queue
  | _+1, done, [] => done
  | fuel+1, done, p::queue =>
    search fuel (done++[p]) (queue++t.visit p.2 ((done++p::queue).map fst) (t.outgoing p))

/-- Each node is taken once, so there are no more rounds than nodes. -/
def getNeighborsFilteredAt : List MemoryId :=
  if t.start ∈ t.graph.nodes then ((t.search t.graph.nodes.length [] [(t.start,0)]).map
    fst).tail else []

/-- A path from the start, its last edge first: the edges are valid at the instant, and the nodes
behind the start lie in allowed namespaces. -/
inductive Path : List (GraphEdge F32) → MemoryId → Prop
  | start : Path [] t.start
  | step {es : List (GraphEdge F32)} {e : GraphEdge F32} (h : Path es e.source)
      (he : e ∈ t.graph.edges) (hfrom : ∀ s ∈ e.validFrom, s ≤ t.asOf)
      (huntil : ∀ s ∈ e.validUntil, t.asOf < s) (hns : ∀ l ∈ t.allowed, t.nodeNs e.target ∈ l) :
      Path (e::es) e.target

/-- A path of so many edges, none of them below the minimum weight. -/
def Reaches (n : ℕ) (v : MemoryId) : Prop :=
  ∃ es, t.Path es v ∧ es.length = n ∧ ∀ e ∈ es, ¬e.weight.lt t.minWeight

/-- A path of at most so many edges, each of at least the minimum weight. -/
def ReachesHeavy (n : ℕ) (v : MemoryId) : Prop :=
  ∃ es, t.Path es v ∧ es.length ≤ n ∧ ∀ e ∈ es, t.minWeight.le e.weight

def Exact : Prop :=
  t.getNeighborsFilteredAt.Nodup ∧ t.start ∉ t.getNeighborsFilteredAt ∧
  ∀ v, v ∈ t.getNeighborsFilteredAt ↔ v ≠ t.start ∧ t.ReachesHeavy t.depth v

structure Searched (done queue : List (MemoryId × ℕ)) : Prop where
  head : (done++queue).head? = some (t.start,0)
  nodup : ((done++queue).map fst).Nodup
  reached : ∀ p ∈ done++queue, p.2 ≤ t.depth ∧ t.Reaches p.2 p.1
  sorted : queue.Pairwise (·.2 ≤ ·.2)
  band : ∀ p ∈ done++queue, ∀ q ∈ queue, p.2 ≤ q.2+1
  closed : ∀ p ∈ done, p.2 < t.depth → ∀ e ∈ t.graph.edges, e.source = p.1 → t.follows e →
    ∃ q ∈ done++queue, q.1 = e.target ∧ q.2 ≤ p.2+1

theorem follows_iff (t : Traversal) (e : GraphEdge F32) : t.follows e ↔
    (∀ s ∈ e.validFrom, s ≤ t.asOf) ∧ (∀ s ∈ e.validUntil, t.asOf < s) ∧
    (∀ l ∈ t.allowed, t.nodeNs e.target ∈ l) ∧ ¬e.weight.lt t.minWeight := by
  simp only [follows,GraphEdge.isValidAt,Bool.and_eq_true,Bool.not_eq_true',Bool.not_eq_true,
    Option.all_eq_true,decide_eq_true_eq,contains_iff_mem]
  tauto

variable {t} {done queue : List (MemoryId × ℕ)} {p : MemoryId × ℕ}

theorem reaches_start (t : Traversal) : t.Reaches 0 t.start := ⟨[],.start,rfl,by simp⟩

theorem Reaches.step {n : ℕ} {e : GraphEdge F32} (h : t.Reaches n e.source) (he : e ∈ t.graph.edges)
    (hfollows : t.follows e) : t.Reaches (n+1) e.target := by
  obtain ⟨es,hpath,rfl,hweights⟩ := h
  obtain ⟨hfrom,huntil,hns,hweight⟩ := (follows_iff t e).mp hfollows
  exact ⟨e::es,hpath.step he hfrom huntil hns,rfl,forall_mem_cons.mpr ⟨hweight,hweights⟩⟩

theorem visit_spec (t : Traversal) (d : ℕ) (edges : List (GraphEdge F32)) (h : visited.Nodup) :
    (visited++(t.visit d visited edges).map fst).Nodup ∧
    (∀ q ∈ t.visit d visited edges, q.2 = d+1 ∧ ∃ e ∈ edges, t.follows e ∧ e.target = q.1) ∧
    ∀ e ∈ edges, t.follows e → e.target ∈ visited ∨ (e.target,d+1) ∈ t.visit d visited edges := by
  induction edges generalizing visited with
  | nil => simpa [visit] using h
  | cons e edges ih =>
    rw [visit]
    split
    next hnew =>
      rw [Bool.and_eq_true,Bool.not_eq_true',contains_eq_mem,decide_eq_false_iff_not] at hnew
      obtain ⟨hnodup,hsound,hcomplete⟩ := ih (nodup_cons.mpr ⟨hnew.2,h⟩)
      refine ⟨perm_middle.nodup_iff.mpr hnodup,?_,?_⟩
      · rw [forall_mem_cons]
        exact ⟨⟨rfl,e,mem_cons_self,hnew.1,rfl⟩,
          fun q hq => (hsound q hq).imp_right exists_mem_cons_of_exists⟩
      · rw [forall_mem_cons]
        refine ⟨fun _ => .inr mem_cons_self,fun x hx hfollows => ?_⟩
        rcases hcomplete x hx hfollows with hin | hin
        · rcases mem_cons.mp hin with heq | hin
          · exact .inr (heq ▸ mem_cons_self)
          · exact .inl hin
        · exact .inr (mem_cons_of_mem _ hin)
    next hold =>
      obtain ⟨hnodup,hsound,hcomplete⟩ := ih h
      refine ⟨hnodup,fun q hq => (hsound q hq).imp_right exists_mem_cons_of_exists,?_⟩
      rw [forall_mem_cons]
      refine ⟨fun hfollows => .inl ?_,hcomplete⟩
      simpa [hfollows] using hold

theorem Path.mem_nodes {es : List (GraphEdge F32)} {v : MemoryId} (h : t.Path es v) :
    v = t.start ∨ t.start ∈ t.graph.nodes ∧ v ∈ t.graph.nodes := by
  induction h with
  | start => exact .inl rfl
  | @step es e h he hfrom huntil hns ih =>
    obtain ⟨hsource,htarget⟩ := t.graph.endpoints e he
    exact .inr ⟨ih.elim (fun heq => heq ▸ hsource) And.left,htarget⟩

theorem mem_outgoing : e ∈ t.outgoing p ↔ p.2 < t.depth ∧ e ∈ t.graph.edges ∧ e.source = p.1 := by
  unfold outgoing
  split
  next hdeep => simp [hdeep.not_gt]
  next hless => simp [not_le.mp hless]

/-- What is taken from the queue may add memories that are one edge farther. -/
theorem Searched.next (h : t.Searched done (p::queue)) :
    t.Searched (done++[p]) (queue++t.visit p.2 ((done++p::queue).map fst) (t.outgoing p)) := by
  obtain ⟨hnodup,hnew,hall⟩ := t.visit_spec p.2 (t.outgoing p) h.nodup
  generalize t.visit p.2 _ _ = new at hnodup hnew hall ⊢
  have heq : done++[p]++(queue++new) = done++p::queue++new := by simp
  obtain ⟨hfirst,hsorted⟩ := pairwise_cons.mp h.sorted
  constructor
  · rw [heq,head?_append,h.head,Option.some_or]
  · rwa [heq,map_append]
  · rw [heq,forall_mem_append]
    refine ⟨h.reached,fun q hq => ?_⟩
    obtain ⟨hd,e,he,hfollows,htarget⟩ := hnew q hq
    obtain ⟨hlt,he,hsource⟩ := mem_outgoing.mp he
    rw [hd,← htarget]
    exact ⟨hlt,.step (hsource ▸ (h.reached p (by simp)).2) he hfollows⟩
  · refine pairwise_append.mpr ⟨hsorted,?_,fun x hx q hq => ?_⟩
    · exact pairwise_of_forall_mem_list fun x hx q hq => ((hnew x hx).1.trans (hnew q hq).1.symm).le
    · exact (h.band x (by simp [hx]) p mem_cons_self).trans_eq (hnew q hq).1.symm
  · rw [heq]
    intro x hx q hq
    have hfar : x.2 ≤ p.2+1 :=
      (mem_append.mp hx).elim (fun hx => h.band x hx p mem_cons_self) fun hx => (hnew x hx).1.le
    have hnear : p.2 ≤ q.2 := (mem_append.mp hq).elim (hfirst q) fun hq => by rw [(hnew q hq).1]; omega
    omega
  · rw [heq,forall_mem_append,forall_mem_singleton]
    refine ⟨fun x hx hlt e he hsource hfollows => ?_,fun hlt e he hsource hfollows => ?_⟩
    · obtain ⟨q,hq,h⟩ := h.closed x hx hlt e he hsource hfollows
      exact ⟨q,mem_append_left _ hq,h⟩
    · rcases hall e (mem_outgoing.mpr ⟨hlt,he,hsource⟩) hfollows with hin | hin
      · obtain ⟨q,hq,htarget⟩ := mem_map.mp hin
        exact ⟨q,mem_append_left _ hq,htarget,h.band q hq p mem_cons_self⟩
      · exact ⟨_,mem_append_right _ hin,rfl,le_rfl⟩

theorem Searched.search (hstart : t.start ∈ t.graph.nodes) (h : t.Searched done queue)
    (hfuel : t.graph.nodes.length ≤ fuel+done.length) : t.Searched (t.search fuel done queue) [] := by
  induction fuel generalizing done queue with
  | zero =>
    have hlength : ((done++queue).map fst).length ≤ t.graph.nodes.length := by
      refine (h.nodup.subperm fun v hv => ?_).length_le
      obtain ⟨p,hp,rfl⟩ := mem_map.mp hv
      obtain ⟨es,hpath,-,-⟩ := (h.reached p hp).2
      exact hpath.mem_nodes.elim (· ▸ hstart) And.right
    have hempty : queue = [] := by
      rw [length_map,length_append] at hlength
      exact length_eq_zero_iff.mp (by omega)
    subst hempty
    rwa [Traversal.search,append_nil]
  | succ fuel ih =>
    cases queue with
    | nil => exact h
    | cons p queue =>
      refine ih h.next ?_
      rw [length_append,length_singleton]
      omega

theorem searched_first (t : Traversal) : t.Searched [] [(t.start,0)] := by
  constructor <;> simp [reaches_start]

/-- With nothing left in the queue, a memory is found with the length of a shortest path. -/
theorem Searched.nearest {found : List (MemoryId × ℕ)} (h : t.Searched found [])
    {es : List (GraphEdge F32)} {v : MemoryId} (hpath : t.Path es v) (hlength : es.length ≤ t.depth)
    (hweights : ∀ e ∈ es, ¬e.weight.lt t.minWeight) : ∃ q ∈ found, q.1 = v ∧ q.2 ≤ es.length := by
  have hhead := h.head
  have hclosed := h.closed
  rw [append_nil] at hhead hclosed
  induction hpath with
  | start => exact ⟨_,mem_of_head? hhead,rfl,le_rfl⟩
  | @step es e hpath he hfrom huntil hns ih =>
    obtain ⟨hweight,hweights⟩ := forall_mem_cons.mp hweights
    rw [length_cons] at hlength ⊢
    obtain ⟨p,hp,hsource,hle⟩ := ih (by omega) hweights
    have hfollows := (follows_iff t e).mpr ⟨hfrom,huntil,hns,hweight⟩
    obtain ⟨q,hq,htarget,hnear⟩ := hclosed p hp (by omega) e he hsource.symm hfollows
    exact ⟨q,hq,htarget,by omega⟩

/-- The neighbours are the other memories within so many edges, each once. -/
theorem mem_getNeighborsFilteredAt (t : Traversal) : t.getNeighborsFilteredAt.Nodup ∧
    t.start ∉ t.getNeighborsFilteredAt ∧
    ∀ v, v ∈ t.getNeighborsFilteredAt ↔ v ≠ t.start ∧ ∃ n ≤ t.depth, t.Reaches n v := by
  unfold getNeighborsFilteredAt
  split
  next hstart =>
    have hfound := (searched_first t).search hstart le_rfl
    have hhead := hfound.head
    have hnodup := hfound.nodup
    have hreached := hfound.reached
    rw [append_nil] at hhead hnodup hreached
    obtain ⟨rest,hrest⟩ := head?_eq_some_iff.mp hhead
    rw [hrest] at hnodup hreached hfound ⊢
    obtain ⟨hnot,hnodup⟩ := nodup_cons.mp hnodup
    refine ⟨hnodup,hnot,fun v => ⟨fun hv => ?_,?_⟩⟩
    · obtain ⟨q,hq,rfl⟩ := mem_map.mp hv
      obtain ⟨hle,hpath⟩ := hreached q (mem_cons_of_mem _ hq)
      exact ⟨fun heq => hnot (heq ▸ hv),q.2,hle,hpath⟩
    · rintro ⟨hne,n,hn,es,hpath,rfl,hweights⟩
      obtain ⟨q,hq,rfl,-⟩ := hfound.nearest hpath hn hweights
      rcases mem_cons.mp hq with rfl | hq
      · exact absurd rfl hne
      · exact mem_map_of_mem hq
  next hstart =>
    refine ⟨nodup_nil,not_mem_nil,fun v => iff_of_false not_mem_nil ?_⟩
    rintro ⟨hne,n,-,es,hpath,-,-⟩
    exact hstart (hpath.mem_nodes.resolve_left hne).1

theorem Reaches.heavy {n : ℕ} {v : MemoryId} (h : t.Reaches n v) :
    t.ReachesHeavy n v ∨ ∃ es, t.Path es v ∧ es.length = n ∧ (∀ e ∈ es, ¬e.weight.lt t.minWeight) ∧
      ∃ e ∈ es, e.weight = .nan ∨ t.minWeight = .nan := by
  obtain ⟨es,hpath,rfl,hweights⟩ := h
  by_cases hnan : ∃ e ∈ es, e.weight = .nan ∨ t.minWeight = .nan
  · exact .inr ⟨es,hpath,rfl,hweights,hnan⟩
  · refine .inl ⟨es,hpath,le_rfl,fun e he => ?_⟩
    exact ((F32.not_lt_iff _ _).mp (hweights e he)).resolve_right fun h => hnan ⟨e,he,h⟩

/-- An edge of weight one half from memory 1 to memory 2, and a minimum that is not a number. -/
def nanMinimum : Traversal where
  graph := {
    nodes := [1,2]
    edges := [⟨1,1,2,.causes,.number (1/2 : ℚ),0,0,0,none,none,[],false,"shared",none⟩]
    endpoints := by simp}
  nodeNs _ := "shared"
  start := 1
  depth := 1
  minWeight := .nan
  allowed := none
  asOf := 0

theorem Searched.sorted_search (h : t.Searched done queue)
    (hsorted : (done++queue).Pairwise (·.2 ≤ ·.2)) (fuel : ℕ) :
    (t.search fuel done queue).Pairwise (·.2 ≤ ·.2) := by
  induction fuel generalizing done queue with
  | zero => exact hsorted
  | succ fuel ih =>
    cases queue with
    | nil => rwa [append_nil] at hsorted
    | cons p queue =>
      obtain ⟨-,hnew,-⟩ := t.visit_spec p.2 (t.outgoing p) h.nodup
      refine ih h.next ?_
      rw [← append_assoc,append_assoc done]
      refine pairwise_append.mpr ⟨hsorted,?_,fun x hx q hq => ?_⟩
      · exact pairwise_of_forall_mem_list fun x hx q hq => ((hnew x hx).1.trans (hnew q hq).1.symm).le
      · exact (h.band x hx p mem_cons_self).trans_eq (hnew q hq).1.symm

/-- The neighbours come nearest first: no path to a later one is shorter than all to an earlier one. -/
theorem nearest_first (t : Traversal) : t.getNeighborsFilteredAt.Pairwise fun v w =>
    ∀ n ≤ t.depth, t.Reaches n w → ∃ m ≤ n, t.Reaches m v := by
  unfold getNeighborsFilteredAt
  split_ifs with hstart
  swap
  · exact .nil
  have hfound := (searched_first t).search hstart le_rfl
  have hsorted := (searched_first t).sorted_search (by simp) t.graph.nodes.length
  generalize t.search _ _ _ = found at *
  have hnodup := hfound.nodup
  have hreached := hfound.reached
  rw [append_nil] at hnodup hreached
  refine (pairwise_map.mpr (hsorted.imp_of_mem fun {p q} hp hq hle n hn hpath => ?_)).sublist
    (tail_sublist _)
  obtain ⟨es,hpath,rfl,hweights⟩ := hpath
  obtain ⟨q',hq',heq,hshort⟩ := hfound.nearest hpath hn hweights
  rw [inj_on_of_nodup_map hnodup hq' hq heq] at hshort
  exact ⟨p.2,hle.trans hshort,(hreached p hp).2⟩
end Traversal
end Hirn.Engine
