import Hirn.Reports

/-! What INSPECT and TRACE reveal. A report to a restricted caller is meant to depend only on what
lies in the caller's namespaces. It does exactly where there is nothing to report: the edges at a
visible record come from the whole graph. -/
namespace Hirn.Engine
open Chains List Snapshot Fallible

namespace Snapshot
variable {s t : Snapshot} {A : List Namespace}

def inScope (A : List Namespace) (s : Snapshot) (id : MemoryId) : Bool :=
  s.records.any fun r => r.id == id && A.contains r.effectiveNamespace

def recordsIn (A : List Namespace) (s : Snapshot) : List MemoryRecord :=
  s.records.filter fun r => A.contains r.effectiveNamespace

/-- The namespaces have the same records, resources, artifacts, and edges between records. -/
structure Agree (A : List Namespace) (s t : Snapshot) : Prop where
  records : t.recordsIn A = s.recordsIn A
  edges : (t.graph.within (t.inScope A)).edges = (s.graph.within (s.inScope A)).edges
  resources : t.resources.filter (A.contains ·.ns) = s.resources.filter (A.contains ·.ns)
  artifacts : t.artifacts.filter (A.contains ·.ns) = s.artifacts.filter (A.contains ·.ns)

theorem map_id_records : s.records.map MemoryRecord.id =
    s.working.map (·.id)++s.episodic.map (·.id)++s.semantic.map (·.id)++s.procedural.map (·.id) := by
  simp only [records,map_append,map_map]
  rfl

theorem eq_of_id {r r' : MemoryRecord} (hr : r ∈ s.records) (hr' : r' ∈ s.records)
    (h : r.id = r'.id) : r = r' :=
  inj_on_of_nodup_map (map_id_records ▸ s.ids_nodup) hr hr' h

theorem getMemory_of_mem {r : MemoryRecord} (hr : r ∈ s.records) : s.getMemory r.id = .ok r := by
  unfold getMemory
  split
  next x hx =>
    have hid := find?_some hx
    rw [eq_of_id (mem_of_find?_eq_some hx) hr (by simpa using hid)]
  next hnone =>
    rw [find?_eq_none] at hnone
    exact absurd (beq_self_eq_true r.id) (hnone r hr)

/-- What is left of a snapshot in some namespaces. -/
def restrict (A : List Namespace) (s : Snapshot) : Snapshot where
  working := s.working.filter fun w => A.contains (privateFor w.agentId)
  episodic := s.episodic.filter (A.contains ·.ns)
  semantic := s.semantic.filter (A.contains ·.ns)
  procedural := s.procedural.filter (A.contains ·.ns)
  graph := s.graph.within (s.inScope A)
  resources := s.resources.filter (A.contains ·.ns)
  artifacts := s.artifacts.filter (A.contains ·.ns)
  ids_nodup := by
    refine s.ids_nodup.sublist ?_
    refine ((List.Sublist.append ?_ ?_).append ?_).append ?_ <;> exact filter_sublist.map _

theorem records_restrict : (s.restrict A).records = s.recordsIn A := by
  simp only [recordsIn,records,filter_append,filter_map]
  rfl

theorem recordsIn_restrict : (s.restrict A).recordsIn A = s.recordsIn A := by
  rw [recordsIn,records_restrict,recordsIn]
  simp

theorem inScope_restrict : (s.restrict A).inScope A = s.inScope A := by
  funext id
  rw [Bool.eq_iff_iff]
  simp only [inScope,records_restrict,recordsIn,any_eq_true,mem_filter,Bool.and_eq_true]
  constructor
  · rintro ⟨r,⟨hr,-⟩,h⟩
    exact ⟨r,hr,h⟩
  · rintro ⟨r,hr,h⟩
    exact ⟨r,⟨hr,h.2⟩,h⟩

theorem agree_restrict : Agree A s (s.restrict A) where
  records := recordsIn_restrict
  edges := by
    rw [inScope_restrict]
    simp [restrict,PropertyGraph.within]
  resources := by simp [restrict]
  artifacts := by simp [restrict]

def unusedId (s : Snapshot) : MemoryId := (s.records.map MemoryRecord.id).sum + 1

theorem id_lt_unusedId {r : MemoryRecord} (hr : r ∈ s.records) : r.id < s.unusedId :=
  Nat.lt_succ_of_le (single_le_sum (by simp) _ (mem_map_of_mem hr))

def foreignEdge (s : Snapshot) (id : MemoryId) : GraphEdge :=
  ⟨0,s.unusedId,id,.derivedFrom,1,0,0,0,none,none,[],false,"elsewhere",none⟩

def withForeignEdge (s : Snapshot) (id : MemoryId) : Snapshot :=
  {s with graph := s.graph.connect (s.foreignEdge id)}

theorem Agree.withForeignEdge (h : Agree A s t) (id : MemoryId) :
    Agree A s (t.withForeignEdge id) where
  records := h.records
  edges := by
    have hout : t.inScope A t.unusedId = false := by
      rw [inScope,any_eq_false]
      intro r hr hid
      simp only [Bool.and_eq_true,beq_iff_eq] at hid
      exact absurd hid.1 (id_lt_unusedId hr).ne
    rw [← h.edges]
    show ((t.foreignEdge id::t.graph.edges).filter fun e => t.inScope A e.source &&
      t.inScope A e.target) = _
    rw [filter_cons_of_neg (by simp [foreignEdge,hout])]
    rfl
  resources := h.resources
  artifacts := h.artifacts
end Snapshot

/-- The record answers to a target of the kind. -/
def Named (target : ℕ) (kind : SemanticTargetKind) (r : MemoryRecord) : Prop :=
  match kind, r with
  | .memory, r => r.id = target
  | kind, .semantic x => kind.column x = target
  | _, _ => False

def Answers (A : List Namespace) (s : Snapshot) (target : ℕ) (kind : SemanticTargetKind) : Prop :=
  ∃ r ∈ s.recordsIn A, Named target kind r

variable {u : FilterLang.Unicode} {now : Timestamp} {s t : Snapshot} {A : List Namespace}
  {names : List String}

theorem answers_congr (h : s.Agree A t) : Answers A t target kind ↔ Answers A s target kind := by
  rw [Answers,h.records,Answers]

variable {id : MemoryId}

theorem named_of_resolve
    (hid : resolveCompiledSemanticTargetId cfg s target kind = .ok id)
    (hr : s.getMemory id = .ok r) : r ∈ s.records ∧ Named target kind r := by
  obtain ⟨hmem,rfl⟩ := mem_records_of_getMemory hr
  refine ⟨hmem,?_⟩
  cases kind with
  | memory =>
    cases hid
    rfl
  | logical =>
    obtain ⟨x,hx,hxid⟩ := map_eq_ok.mp hid
    obtain ⟨hsem,hchain⟩ := mem_semantic_of_head hx
    rw [← eq_of_id (mem_records_of_semantic hsem) hmem hxid]
    exact hchain
  | revision =>
    obtain ⟨x,hx,hxid⟩ := map_eq_ok.mp hid
    unfold readSemanticRecordForRevisionId at hx
    split at hx
    next y hfind =>
      cases hx
      have hrev := find?_some hfind
      rw [← eq_of_id (mem_records_of_semantic (mem_of_find?_eq_some hfind)) hmem hxid]
      exact beq_iff_eq.mp hrev
    · cases hx

/-- A target that some record answers to is resolved. -/
theorem resolve_of_named (cfg : ReadConfig) (hr : r ∈ s.records) (hnamed : Named target kind r) :
    ∃ id x, resolveCompiledSemanticTargetId cfg s target kind = .ok id ∧ s.getMemory id = .ok x := by
  cases kind with
  | memory =>
    cases hnamed
    exact ⟨r.id,r,rfl,getMemory_of_mem hr⟩
  | logical =>
    cases r with
    | semantic x =>
      have hx : x ∈ s.semantic := by simpa [records] using hr
      have hchain : x ∈ s.chainOf target := by simpa [chainOf] using ⟨hx,hnamed⟩
      rcases hhead : (cfg.backend.latest (s.chainOf target)).head? with _ | y
      · rw [head?_eq_none_iff] at hhead
        simpa [hhead] using (cfg.backend.latest_perm _).mem_iff.mpr hchain
      · have hload : s.semanticHeadForLogicalId cfg.backend target = .ok y := by
          rw [Snapshot.semanticHeadForLogicalId,hhead]
        refine ⟨y.id,.semantic y,by rw [resolveCompiledSemanticTargetId,hload]; rfl,?_⟩
        exact getMemory_of_mem (mem_records_of_semantic (mem_semantic_of_head hload).1)
    | _ => exact hnamed.elim
  | revision =>
    cases r with
    | semantic x =>
      have hx : x ∈ s.semantic := by simpa [records] using hr
      rcases hfind : s.semantic.find? (·.revisionId == target) with _ | y
      · rw [find?_eq_none] at hfind
        exact absurd (beq_iff_eq.mpr hnamed) (hfind x hx)
      · have hload : s.readSemanticRecordForRevisionId target = .ok y := by
          rw [readSemanticRecordForRevisionId,hfind]
        refine ⟨y.id,.semantic y,by rw [resolveCompiledSemanticTargetId,hload]; rfl,?_⟩
        exact getMemory_of_mem (mem_records_of_semantic (mem_of_find?_eq_some hfind))
    | _ => exact hnamed.elim

section
variable (hparse : parseQueryNamespaces u names = .ok A)
include hparse

theorem answers_of_reportTarget {r : MemoryRecord} {visible : Option (List Namespace)}
    (h : reportTarget u cfg s statement target kind (some names) = .ok (r,visible)) :
    Answers A s target kind := by
  rw [reportTarget,bind_eq_ok] at h
  obtain ⟨id,hid,h⟩ := h
  rw [bind_eq_ok] at h
  obtain ⟨x,hx,h⟩ := h
  rw [bind_eq_ok] at h
  obtain ⟨vis,hvis,h⟩ := h
  rw [parseQueryNamespacesOpt,hparse] at hvis
  cases hvis
  split at h
  next hin =>
    cases h
    obtain ⟨hmem,hnamed⟩ := named_of_resolve hid hx
    exact ⟨r,mem_filter.mpr ⟨hmem,by simpa using hin⟩,hnamed⟩
  · cases h

theorem reportTarget_restrict (cfg : ReadConfig) (statement : String)
    (h : Answers A s target kind) : ∃ r ∈ (s.restrict A).records,
      reportTarget u cfg (s.restrict A) statement target kind (some names) = .ok (r,some A) := by
  obtain ⟨r,hr,hnamed⟩ := h
  rw [← records_restrict] at hr
  obtain ⟨id,x,hid,hx⟩ := resolve_of_named cfg hr hnamed
  have hmem := (mem_records_of_getMemory hx).1
  refine ⟨x,hmem,?_⟩
  rw [records_restrict] at hmem
  have hin : A.contains x.effectiveNamespace := (mem_filter.mp hmem).2
  rw [reportTarget,hid,ok_bind,hx,ok_bind,parseQueryNamespacesOpt,hparse,
    map_ok,ok_bind,Option.all_some,if_pos hin]
end

theorem loadSemanticRevisionSummary_ok (cfg : ReadConfig) (hr : r ∈ s.records) :
    ∃ summary, loadSemanticRevisionSummary cfg s r = .ok summary := by
  cases r with
  | semantic x =>
    have hx : x ∈ s.semantic := by simpa [records] using hr
    have hhistory : x ∈ s.semanticHistoryForLogicalId cfg.backend x.logicalMemoryId :=
      (cfg.backend.oldest_perm _).mem_iff.mpr (by simpa [chainOf] using hx)
    rcases hlast : (s.semanticHistoryForLogicalId cfg.backend x.logicalMemoryId).getLast? with _ | head
    · rw [getLast?_eq_none_iff] at hlast
      simp [hlast] at hhistory
    · have hmem : head ∈ s.chainOf x.logicalMemoryId :=
        (cfg.backend.oldest_perm _).mem_iff.mp (mem_of_getLast? hlast)
      have hchain : head.logicalMemoryId = x.logicalMemoryId := by
        simpa using (mem_filter.mp hmem).2
      rw [loadSemanticRevisionSummary,summarizeSemanticRevisionChain,hlast]
      dsimp only
      rw [if_neg (not_not.mpr hchain)]
      exact ⟨_,rfl⟩
  | _ => exact ⟨none,rfl⟩

variable (now : Timestamp)

section
variable (hid : s.unusedId ≠ id)
include hid

theorem getEdges_withForeignEdge :
    ((s.withForeignEdge id).graph.getEdges now id).Perm
    (s.foreignEdge id::s.graph.getEdges now id) := by
  have hsource : ((s.withForeignEdge id).graph.edges.filter (·.source == id)) =
      s.graph.edges.filter (·.source == id) := filter_cons_of_neg (by simpa [foreignEdge] using hid)
  have htarget : ((s.withForeignEdge id).graph.edges.filter (·.target == id)) =
      s.foreignEdge id::s.graph.edges.filter (·.target == id) :=
    filter_cons_of_pos (by simp [foreignEdge])
  rw [PropertyGraph.getEdges_eq,PropertyGraph.getEdges_eq,hsource,htarget]
  exact List.Perm.filter (fun e : GraphEdge => e.isValidAt now) perm_middle

theorem length_inspectNeighbors_withForeignEdge :
    (inspectNeighbors now (s.withForeignEdge id) id).length =
    (inspectNeighbors now s id).length + 1 := by
  rw [inspectNeighbors,length_map,(getEdges_withForeignEdge now hid).length_eq,inspectNeighbors,
    length_map,length_cons]

theorem length_derivedRecords_withForeignEdge :
    (derivedRecords now (s.withForeignEdge id) id).length = (derivedRecords now s id).length + 1 := by
  have hperm := ((getEdges_withForeignEdge now hid).filter (·.relation == .derivedFrom)).filter
    (·.target == id)
  rw [filter_cons_of_pos (by rfl),filter_cons_of_pos (by simp [foreignEdge])] at hperm
  rw [derivedRecords,length_map,derivedRecords,length_map]
  exact hperm.length_eq
end

theorem inspectJson_of_target (agentId : AgentId) (hr : r ∈ s.records)
    (h : reportTarget u cfg s "INSPECT" target kind (some names) = .ok (r,visible)) :
    ∃ result, inspectJson u cfg now s target kind agentId (some names) = .ok result ∧
      result.neighbors = inspectNeighbors now s r.id := by
  obtain ⟨summary,hsummary⟩ := loadSemanticRevisionSummary_ok cfg hr
  rw [inspectJson,h,ok_bind]
  dsimp only
  rw [hsummary]
  exact ⟨_,rfl,rfl⟩

theorem traceJson_of_target (agentId : AgentId) (hr : r ∈ s.records)
    (h : reportTarget u cfg s "TRACE" target kind (some names) = .ok (r,visible)) :
    ∃ result, traceJson u cfg now s target kind agentId (some names) = .ok result ∧
      result.derivedRecords = derivedRecords now s r.id := by
  obtain ⟨summary,hsummary⟩ := loadSemanticRevisionSummary_ok cfg hr
  rw [traceJson,h,ok_bind]
  dsimp only
  rw [hsummary]
  exact ⟨_,rfl,rfl⟩

theorem confined_iff {β : Type} (cfg : ReadConfig) (statement : String)
    (report : Snapshot → Option β) (size : β → ℕ)
    (edges : Snapshot → MemoryId → ℕ) (hparse : parseQueryNamespaces u names = .ok A)
    (hsome : ∀ {t r visible}, r ∈ t.records →
    reportTarget u cfg t statement target kind (some names) = .ok (r,visible) →
      ∃ x, report t = some x ∧ size x = edges t r.id)
    (hnone : ∀ {t e}, reportTarget u cfg t statement target kind (some names) = .error e →
    report t = none)
    (hedges : ∀ {t : Snapshot} {id}, t.unusedId ≠ id → edges (t.withForeignEdge id) id =
    edges t id+1) : (∀ t, s.Agree A t → report t = report s) ↔ ¬Answers A s target kind := by
  constructor
  · intro hsame h
    obtain ⟨r,hr,htarget⟩ := reportTarget_restrict hparse cfg statement h
    obtain ⟨x,hx,hsize⟩ := hsome hr htarget
    obtain ⟨y,hy,hsize'⟩ := hsome (t := (s.restrict A).withForeignEdge r.id) hr htarget
    have hxy := (hsame _ agree_restrict).trans (hsame _ (agree_restrict.withForeignEdge r.id)).symm
    rw [hx,hy] at hxy
    have hgrows := hedges (id_lt_unusedId hr).ne'
    rw [← hsize,Option.some.inj hxy] at hgrows
    omega
  · have hsilent : ∀ t, ¬Answers A t target kind → report t = none := by
      intro t h
      rcases hr : reportTarget u cfg t statement target kind (some names) with e | ⟨r,visible⟩
      · exact hnone hr
      · exact absurd (answers_of_reportTarget hparse hr) h
    intro h t ht
    rw [hsilent s h,hsilent t ((answers_congr ht).not.mpr h)]

def openConfig : ReadConfig where
  defaultRealm := "default"
  conflictResolutionPolicy := ⟨1/5,7/20,3/10,3/20,true⟩
  byRealm _ := none
  byNamespace _ := none
  isActionAllowed _ _ _ _ := true
  backend := Backend.stable

def lineageEdge : GraphEdge :=
  ⟨1,21,1,.derivedFrom,1,0,0,0,none,none,[],false,"shared",none⟩

/-- The secret, its shared copy, and the edge between them. -/
def sharedSnapshot : Snapshot where
  working := []
  episodic := []
  semantic := [secret,semanticCopy (callAt 1 20) ada secret "shared"]
  procedural := []
  graph := ⟨[1,21],[lineageEdge],by decide⟩
  resources := []
  artifacts := []
  ids_nodup := by decide

end Hirn.Engine
