import Hirn.ReadRuntime
import Hirn.Worklist

/-! Belief conflicts around a record: contradicting memories are resolved to their heads, kept if
their namespace is visible, and grouped into components with an arbitration status. -/
namespace Hirn.Engine
open Chains Worklist List

inductive ConflictMemberStatus
  | active | superseded | retracted | quarantined | merged
  deriving DecidableEq

inductive ConflictArbitrationStatus
  | unresolved | resolved | quarantined | superseded

structure ConflictMember where
  memoryId : MemoryId
  logicalMemoryId : Option LogicalMemoryId
  revisionId : Option RevisionId
  status : ConflictMemberStatus
  layer : Layer
  content : String
  inResultSet : Bool
  sourceReliability : ℚ
  functionalRole : MemoryType

/-- A member with the time that its recency is judged by, which is not reported. -/
structure RankedMember extends ConflictMember where
  recencyBasisMs : Timestamp

structure ConflictGroup where
  conflictId : String
  members : List ConflictMember
  (omittedMemberCount pairCount : ℕ)
  confidence : ℚ
  evidenceCount : ℕ
  sourceReliability : ℚ
  arbitrationStatus : ConflictArbitrationStatus
  (authoritativeMemoryId preferredMemoryId : Option MemoryId)

structure ConflictEdgeMeta where
  (a b : MemoryId)
  confidence : ℚ
  evidenceCount : ℕ
  resolved : Bool

structure ConflictResolutionPolicy where
  (recencyWeight sourceReliabilityWeight supportingEvidenceWeight humanOverrideWeight : ℚ)
  preferHumanOverride : Bool

/-- What the reports take from the configuration and from the policy engine. -/
structure ReadConfig where
  defaultRealm : String
  conflictResolutionPolicy : ConflictResolutionPolicy
  byRealm : String → Option ConflictResolutionPolicy
  byNamespace : Namespace → Option ConflictResolutionPolicy
  isActionAllowed : AgentId → Action → String → Namespace → Bool
  backend : Backend SemanticRecord

def resolveConflictResolutionPolicy (cfg : ReadConfig) (visible : Option (List Namespace)) :
    ConflictResolutionPolicy :=
  let perNamespace := match visible with
    | some [ns] => cfg.byNamespace ns
    | _ => none
  (perNamespace.or (cfg.byRealm cfg.defaultRealm)).getD cfg.conflictResolutionPolicy

def sourceReliabilityForOrigin : Origin → ℚ
  | .directObservation | .userProvided => 1
  | .llmExtraction => 8/10
  | .consolidation | .dreamReplay => 6/10
  | .crossAgent => 5/10

def sourceReliabilityForRecord : MemoryRecord → ℚ
  | .episodic e => sourceReliabilityForOrigin e.provenance.origin
  | .semantic s => sourceReliabilityForOrigin s.provenance.origin
  | .working _ => 8/10
  | .procedural _ => 8/10

def functionalRoleForRecord : MemoryRecord → MemoryType
  | .episodic e => e.body.functionalRole
  | .semantic s => s.functionalRole
  | .working _ => .episodicEvent
  | .procedural _ => .behavioralRule

def extractContentStr : MemoryRecord → String
  | .episodic e => e.body.content
  | .semantic s => s.description
  | .working w => w.content
  | .procedural p => p.description

def conflictMemberRecencyBasisMs : MemoryRecord → Timestamp
  | .episodic e => e.timestamp
  | .semantic s => s.validFrom
  | .working w => w.observedAt
  | .procedural p => p.observedAt

def conflictMemberIdentityFromRecord :
    MemoryRecord → Option LogicalMemoryId × Option RevisionId × ConflictMemberStatus
  | .semantic r => (some r.logicalMemoryId,some r.revisionId,
      if r.isRetracted then .retracted
      else if r.isMerged then .merged
      else if r.supersededBy.isSome then .superseded
      else .active)
  | .episodic e => (none,none,if e.archived then .superseded else .active)
  | .procedural p => (none,none,if p.archived then .superseded else .active)
  | .working _ => (none,none,.active)

def conflictMemberFromRecord (record : MemoryRecord) (inResultSet : Bool) : RankedMember :=
  let (logicalMemoryId,revisionId,status) := conflictMemberIdentityFromRecord record
  {memoryId := record.id
   logicalMemoryId := logicalMemoryId
   revisionId := revisionId
   status := status
   layer := record.layer
   content := extractContentStr record
   inResultSet := inResultSet
   sourceReliability := sourceReliabilityForRecord record
   functionalRole := functionalRoleForRecord record
   recencyBasisMs := conflictMemberRecencyBasisMs record}

section
variable (edges : List ConflictEdgeMeta)

def adjacent (id : MemoryId) : List MemoryId :=
  edges.flatMap fun e => (if e.a = id then [e.b] else [])++if e.b = id then [e.a] else []

def component (start : MemoryId) : List MemoryId :=
  (explore (fun id : MemoryId => id) (fun _ id => ((),adjacent edges id)) (2*edges.length+1) [start]
  [start] ()).1

variable (members : List RankedMember)

def deriveConflictArbitrationStatus (omitted : ℕ) : ConflictArbitrationStatus :=
  if !edges.isEmpty && edges.all (·.resolved) then .resolved
  else if members.any (·.status == .quarantined) then .quarantined
  else if omitted == 0 && members.countP (·.status == .active) == 1 &&
    members.any (·.status != .active) then
    if members.any fun m => m.status == .retracted || m.status == .merged then .resolved else
      .superseded
  else if members.all (·.status != .active) then .resolved
  else .unresolved

def authoritativeConflictMemoryId (omitted : ℕ) : Option MemoryId :=
  if omitted > 0 then none
  else match members.filter (·.status == .active) with
    | [m] => some m.memoryId
    | _ => none

def conflictMemberSupport (id : MemoryId) : ℕ × ℚ :=
  (edges.filter fun e => e.a == id || e.b == id).foldl
    (fun (evidence,confidence) e => (evidence+e.evidenceCount,confidence+e.confidence)) (0,0)

def revisionRank (r : Option RevisionId) : ℕ := r.elim 0 (·+1)

def recencyKey (m : RankedMember) : ℤ ×ₗ ℕ ×ₗ ℕ :=
  toLex (m.recencyBasisMs,toLex (revisionRank m.revisionId,m.memoryId))

def conflictMemberPreferenceScore (active : List RankedMember) (overrides : List MemoryId)
    (policy : ConflictResolutionPolicy) (m : RankedMember) : ℚ :=
  let supports := active.map fun x => conflictMemberSupport edges x.memoryId
  let maxEvidence := (supports.map (·.1)).foldl max 0
  let maxConfidence := (supports.map (·.2)).foldl max 0
  let recencyOrder := (active.insertionSort fun l r => recencyKey l ≤ recencyKey r).map (·.memoryId)
  let (evidence,confidence) := conflictMemberSupport edges m.memoryId
  let recencyScore : ℚ := if active.length ≤ 1 then 1
    else (recencyOrder.idxOf m.memoryId : ℚ) / ((active.length-1 : ℕ) : ℚ)
  let evidenceScore : ℚ := if maxEvidence = 0 then 0 else (evidence : ℚ) / (maxEvidence : ℚ)
  let confidenceScore : ℚ := if maxConfidence ≤ 0 then 0 else confidence / maxConfidence
  let supportScore := if evidence = 0 ∧ confidence ≤ 0 then 0 else (evidenceScore+confidenceScore)/2
  let humanOverrideScore : ℚ := if m.memoryId ∈ overrides then 1 else 0
  recencyScore * policy.recencyWeight + clamp01 m.sourceReliability * policy.sourceReliabilityWeight +
    supportScore * policy.supportingEvidenceWeight + humanOverrideScore * policy.humanOverrideWeight

/-- Authority comes before the score, and the score before the ids. -/
def selectConflictPreferredMemoryId (omitted : ℕ) (overrides : List MemoryId)
    (policy : ConflictResolutionPolicy) : Option MemoryId :=
  if omitted > 0 then none
  else
    let active := members.filter (·.status == .active)
    let active := if policy.preferHumanOverride && active.any (overrides.contains ·.memoryId)
      then active.filter (overrides.contains ·.memoryId) else active
    (maxBy (fun m : RankedMember => (toLex (m.functionalRole.authority,
      toLex (conflictMemberPreferenceScore edges active overrides policy m,
        toLex (revisionRank m.revisionId,m.memoryId))) : ℕ ×ₗ ℚ ×ₗ ℕ ×ₗ ℕ)) active).map (·.memoryId)

/-- The group of one component. -/
def conflictGroup (visible : List RankedMember) (overrides : List MemoryId)
    (policy : ConflictResolutionPolicy) (comp : List MemoryId) : Option ConflictGroup :=
  let members := (visible.filter fun m => comp.contains m.memoryId).insertionSort
    fun l r => l.memoryId ≤ r.memoryId
  if members.isEmpty then none
  else
    let omitted := comp.length - members.length
    let inside := edges.filter fun e => comp.contains e.a && comp.contains e.b
    let authoritative := authoritativeConflictMemoryId members omitted
    some {
      conflictId := String.intercalate ":" (members.map fun m => ulid m.memoryId)
      members := members.map (·.toConflictMember)
      omittedMemberCount := omitted
      pairCount := inside.length
      confidence := if inside.length > 0 then (inside.map (·.confidence)).sum / (inside.length : ℚ) else 0
      evidenceCount := (inside.map (·.evidenceCount)).sum
      sourceReliability := (members.map (·.sourceReliability)).sum / (members.length : ℚ)
      arbitrationStatus := deriveConflictArbitrationStatus inside members omitted
      authoritativeMemoryId := authoritative
      preferredMemoryId := if authoritative.isNone
        then selectConflictPreferredMemoryId inside members omitted overrides policy else none}

/-- One group for each component with a visible member, from the smallest id on. -/
def buildConflictGroups (visible : List RankedMember) (overrides : List MemoryId)
    (policy : ConflictResolutionPolicy) : List ConflictGroup :=
  let starts := (visible.map (·.memoryId)).insertionSort (· ≤ ·)
  let (_,groups) := starts.foldl (fun (visited,groups) start =>
    if visited.contains start || (adjacent edges start).isEmpty then (visited,groups)
    else
      let comp := component edges start
      (visited++comp,groups++(conflictGroup edges visible overrides policy comp).toList))
    (([],[]) : List MemoryId × List ConflictGroup)
  groups.insertionSort fun l r => l.conflictId ≤ r.conflictId
end
section
variable (cfg : ReadConfig) (now : Timestamp) (s : Snapshot)

/-- Where the chain of a record ends for a reader at one of its revisions. -/
structure RevisionBoundary where
  cutoff : Timestamp
  revisionId : RevisionId
  logicalMemoryId : LogicalMemoryId
  version : ℕ

def memoryRecordRecordedAt : MemoryRecord → Timestamp
  | .episodic e => e.createdAt
  | .semantic r => r.createdAt
  | .working w => w.createdAt
  | .procedural p => p.createdAt

def memoryRecordRevisionChain : MemoryRecord → LogicalMemoryId × ℕ
  | .episodic e => (e.logicalMemoryId,e.version)
  | .semantic r => (r.logicalMemoryId,r.version)
  | .working w => (w.logicalMemoryId,w.version)
  | .procedural p => (p.logicalMemoryId,p.version)

def resolveRecallSnapshot (revisionId : RevisionId) : Except HirnError RevisionBoundary := do
  let record ← s.getMemory revisionId
  let (logicalMemoryId,version) := memoryRecordRevisionChain record
  .ok ⟨memoryRecordRecordedAt record,revisionId,logicalMemoryId,version⟩

def RevisionBoundary.contains (boundary : RevisionBoundary) (r : SemanticRecord) : Bool :=
  if r.createdAt = boundary.cutoff ∧ r.logicalMemoryId = boundary.logicalMemoryId then
    r.version < boundary.version || (r.version == boundary.version && r.revisionId ≤
    boundary.revisionId)
  else r.createdAt < boundary.cutoff || (r.createdAt == boundary.cutoff && r.revisionId ≤
    boundary.revisionId)

def semanticRevisionForLogicalIdAtSnapshot (logicalId : LogicalMemoryId) (revisionId : RevisionId) :
    Except HirnError (Option SemanticRecord) :=
  let history := s.semanticHistoryForLogicalId cfg.backend logicalId
  if history.isEmpty then .ok none
  else do
    let boundary ← resolveRecallSnapshot s revisionId
    .ok (maxBy (fun r : SemanticRecord =>
      (toLex (r.createdAt,toLex (r.version,r.revisionId)) : ℤ ×ₗ ℕ ×ₗ ℕ))
        (history.filter boundary.contains))

variable (visible : Option (List Namespace))

/-- A contradicting memory as the reader meets it: a semantic one in its revision in force. -/
def resolveConflictTargetRecord (snapshot : Option RevisionId)
    (preserveExact : Bool) (targetId : MemoryId) : Option MemoryRecord :=
  let resolved : Option MemoryRecord := match s.getMemory targetId with
    | .error _ => none
    | .ok (.semantic record) =>
      if preserveExact then some (.semantic record)
      else match snapshot with
        | some revisionId =>
          match semanticRevisionForLogicalIdAtSnapshot cfg s record.logicalMemoryId revisionId with
          | .ok revision => revision.map .semantic
          | .error _ => some (.semantic record)
        | none =>
          match s.semanticHeadForLogicalId cfg.backend record.logicalMemoryId with
          | .ok head => some (.semantic head)
          | .error _ => some (.semantic record)
    | .ok other => some other
  resolved.filter fun record => visible.all (·.contains record.effectiveNamespace)

/-- A revision that is not the head of its chain is met at its own time. -/
def conflictResolutionSnapshotForRecord : MemoryRecord → Option RevisionId
  | .semantic record =>
    match s.semanticHeadForLogicalId cfg.backend record.logicalMemoryId with
    | .ok head => if head.revisionId = record.revisionId then none else some record.revisionId
    | .error _ => none
  | _ => none

def fallbackContradictionConfidence : ℚ := 1/2

/-- What a record contradicts, by edges and by its list; an exact reader takes the list only. -/
def conflictLinks (exact : Bool) (seedId : MemoryId) (current : MemoryRecord) :
    List (MemoryRecord × ℚ × ℕ × Bool) :=
  let snapshot := if exact then none else conflictResolutionSnapshotForRecord cfg s current
  let resolve := resolveConflictTargetRecord cfg s visible snapshot exact
  let byEdge := if exact then [] else
    (s.graph.getEdgesOfType now current.id .contradicts).filterMap fun edge =>
      (resolve (if edge.source = current.id then edge.target else edge.source)).map fun other =>
        (other,clamp01 ((edge.causal.map (·.confidence)).getD edge.weight),
          max ((edge.causal.map (·.evidenceCount)).getD 1) 1,edge.resolved)
  let byList := match current with
    | .semantic record =>
      if exact && current.id != seedId then []
      else record.contradictionIds.filterMap fun id =>
        (resolve id).map fun other => (other,fallbackContradictionConfidence,1,false)
    | _ => []
  (byEdge++byList).filter fun link => link.1.id != current.id

def pushConflictPairEdge (currentId : MemoryId) (edges : List ConflictEdgeMeta)
    (link : MemoryRecord × ℚ × ℕ × Bool) : List ConflictEdgeMeta :=
  let (other,confidence,evidenceCount,resolved) := link
  let (a,b) := if currentId < other.id then (currentId,other.id) else (other.id,currentId)
  if edges.any fun e => e.a == a && e.b == b then edges
  else edges++[⟨a,b,confidence,evidenceCount,resolved⟩]

def visitConflicts (exact : Bool) (seedId : MemoryId)
    (edges : List ConflictEdgeMeta) (current : MemoryRecord) :
    List ConflictEdgeMeta × List MemoryRecord :=
  let links := conflictLinks cfg now s visible exact seedId current
  (links.foldl (pushConflictPairEdge current.id) edges,links.map (·.1))

section
variable {cfg now s} {visible : Option (List Namespace)}

theorem mem_records_of_getMemory {id : MemoryId} {r : MemoryRecord} (h : s.getMemory id = .ok r) :
    r ∈ s.records ∧ r.id = id := by
  unfold Snapshot.getMemory at h
  split at h
  next record hfind =>
    cases h
    have hid := find?_some hfind
    exact ⟨mem_of_find?_eq_some hfind,by simpa using hid⟩
  · cases h

theorem mem_records_of_semantic (h : r ∈ s.semantic) :
    MemoryRecord.semantic r ∈ s.records := by simp [Snapshot.records,h]

theorem mem_semantic_of_head
    (h : s.semanticHeadForLogicalId cfg.backend c = .ok r) : r ∈ s.semantic ∧
    r.logicalMemoryId = c := by
  unfold Snapshot.semanticHeadForLogicalId at h
  split at h
  next record hhead =>
    cases h
    have hmem := (cfg.backend.latest_perm _).mem_iff.mp (mem_of_mem_head? hhead)
    simpa [Snapshot.chainOf] using hmem
  · cases h
end

def hasHumanOverride : MemoryRecord → Bool
  | .semantic record => record.revisionOperation == .override
  | _ => false

/-- The conflict groups around a record, out to all that conflicts connect with it. -/
def collectConflictGroupsForRecord (visible : Option (List Namespace)) (exact : Bool)
    (record : MemoryRecord) : List ConflictGroup :=
  if !visible.all (·.contains record.effectiveNamespace) then []
  else
    let (members,edges) := explore MemoryRecord.id (visitConflicts cfg now s visible exact record.id)
      (s.records.length+1) [record] [record] []
    if edges.isEmpty then []
    else buildConflictGroups edges
      (members.map fun r => conflictMemberFromRecord r (r.id == record.id))
      ((members.filter hasHumanOverride).map (·.id)) (resolveConflictResolutionPolicy cfg visible)
end
end Hirn.Engine
