import Hirn.ConflictGroups
import Hirn.SemanticHistory

/-! INSPECT and TRACE: the reports about one record, put together from the record, its revision
chain, its conflicts, the graph around it and the resources that it refers to. -/
namespace Hirn.Engine
open Chains

inductive RevisionState
  | active | superseded | retracted | quarantined | merged

def SemanticRecord.logicalState (r : SemanticRecord) : RevisionState :=
  if r.isRetracted then .retracted else if r.isMerged then .merged else .active

def SemanticRecord.revisionStateAgainst (r head : SemanticRecord) : RevisionState :=
  if r.revisionId = head.revisionId then head.logicalState else .superseded

structure SemanticRevisionEntry where
  memoryId : MemoryId
  revisionId : RevisionId
  version : ℕ
  operation : RevisionOperation
  state : RevisionState
  reason : Option String
  createdAt : Timestamp
  supersededBy : Option MemoryId

structure SemanticRevisionSummary where
  logicalMemoryId : LogicalMemoryId
  (currentRevisionId headRevisionId : RevisionId)
  (currentState logicalState : RevisionState)
  revisionCount : ℕ
  revisions : List SemanticRevisionEntry

/-- A revision is superseded by the one it names, or by the next in the history. -/
def semanticRevisionEntries (head : SemanticRecord) : List SemanticRecord → List SemanticRevisionEntry
  | [] => []
  | r::rest =>
    ⟨r.id,r.revisionId,r.version,r.revisionOperation,r.revisionStateAgainst head,r.revisionReason,
      r.createdAt,
      r.supersededBy.or (rest.head?.map (·.id))⟩::semanticRevisionEntries head rest

def summarizeSemanticRevisionChain (current : SemanticRecord) (history : List SemanticRecord) :
    Except HirnError SemanticRevisionSummary :=
  match history.getLast? with
  | none => .error (.notFound ("semantic revision history missing for "++ulid current.logicalMemoryId))
  | some head =>
    if head.logicalMemoryId ≠ current.logicalMemoryId then
      .error (.invalidInput ("semantic revision history mismatch for "++ulid current.logicalMemoryId))
    else .ok ⟨current.logicalMemoryId,current.revisionId,head.revisionId,
      current.revisionStateAgainst head,
      head.logicalState,history.length,semanticRevisionEntries head history⟩

structure ResourceEvidenceSummary where
  resourceId : ℕ
  role : EvidenceRole
  provenance : EvidenceProvenance
  artifactId : Option ℕ
  artifactKind : Option DerivedArtifactKind
  lifecycleState : ResourceGovernanceState
  modality : Option ModalityProfile
  (mimeType displayName : Option String)
  availableArtifacts : List DerivedArtifactKind
  (hasPreview canHydratePreview canHydrateFull : Bool)

structure NeighborInfo where
  edge : GraphEdge
  neighborId : MemoryId
  deriving DecidableEq

structure InspectResult where
  record : MemoryRecord
  importance : ℚ
  accessCount : ℕ
  lastAccessed : Timestamp
  neighbors : List NeighborInfo
  trustScore : ℚ
  semanticRevision : Option SemanticRevisionSummary
  conflictGroups : List ConflictGroup
  resourceEvidence : List ResourceEvidenceSummary

structure TraceResult where
  record : MemoryRecord
  provenance : Provenance
  (sourceEpisodes derivedRecords : List MemoryId)
  mutationCount : ℕ
  trustScore : ℚ
  lineageTree : String
  semanticRevision : Option SemanticRevisionSummary
  conflictGroups : List ConflictGroup
  resourceEvidence : List ResourceEvidenceSummary

def inspectRecordStats : MemoryRecord → ℚ × ℕ × Timestamp
  | .episodic e => (e.body.importance,e.accessCount,e.lastAccessed)
  | .semantic r => (r.confidence,r.accessCount,r.updatedAt)
  | .working w => (w.relevanceScore,0,w.createdAt)
  | .procedural p => (p.successRate,p.accessCount,p.lastAccessed)

def originTrust (p : Provenance) : ℚ :=
  match p.origin with
  | .directObservation => 1
  | .userProvided => 9/10
  | .llmExtraction => 7/10
  | .consolidation =>
    if p.confidenceBasis.length ≥ 5 then 9/10
    else if p.confidenceBasis.length ≥ 3 then 8/10
    else if p.confidenceBasis.length ≥ 1 then 6/10
    else 4/10
  | .crossAgent => 6/10
  | .dreamReplay => 3/10

def computeTrustScore (p : Provenance) (contradictionCount : ℕ) : ℚ :=
  let uniqueSources := (p.confidenceBasis.map (·.sourceId)).dedup.length
  let diversityBonus : ℚ := if uniqueSources ≥ 5 then 1/10 else if uniqueSources ≥ 3 then 1/20 else 0
  let mutationsWithoutEvidence := p.mutationLog.length - p.confidenceBasis.length
  let mutationPenalty := min ((mutationsWithoutEvidence : ℚ) * (1/20)) (3/10)
  let contradictionPenalty := min ((contradictionCount : ℚ) * (1/10)) (3/10)
  clamp01 (originTrust p + diversityBonus - mutationPenalty - contradictionPenalty)

def recordProvenance : MemoryRecord → Option Provenance
  | .working _ => none
  | .episodic e => some e.provenance
  | .semantic r => some r.provenance
  | .procedural p => some p.provenance

def recordEvidenceLinks (record : MemoryRecord) : List EvidenceLink :=
  (recordProvenance record).elim [] (·.evidenceLinks)

def traceProvenanceParts : MemoryRecord → Provenance × List MemoryId
  | .episodic e => (e.provenance,[])
  | .semantic r => (r.provenance,r.sourceEpisodes)
  | .working _ => (.withOrigin .directObservation "system",[])
  | .procedural p => (p.provenance,p.sourceEpisodes)

def Origin.debug : Origin → String
  | .directObservation => "DirectObservation"
  | .llmExtraction => "LlmExtraction"
  | .consolidation => "Consolidation"
  | .userProvided => "UserProvided"
  | .crossAgent => "CrossAgent"
  | .dreamReplay => "DreamReplay"

def MutationTrigger.debug : MutationTrigger → String
  | .reconsolidation => "Reconsolidation"
  | .consolidation => "Consolidation"
  | .manual => "Manual"
  | .decay => "Decay"

def formatLineageTree (id : MemoryId) (p : Provenance)
    (sourceEpisodes derivedRecords : List MemoryId) : String :=
  let block (title : String) (lines : List String) : String :=
    if lines.isEmpty then "" else title++String.join lines
  "Lineage for "++ulid id++":\n"++"  Origin: "++p.origin.debug++"\n" ++
    "  Created by: "++p.createdBy++"\n" ++
    block "  Source episodes:\n" (sourceEpisodes.map fun e => "    <- "++ulid e++"\n") ++
    p.extractionModel.elim "" (fun model => "  Extraction model: "++model++"\n") ++
    block ("  Mutations ("++toString p.mutationLog.length++"):\n") (p.mutationLog.map fun m =>
      "    ["++m.trigger.debug++"] "++m.field++": "++m.oldValue++" -> "++m.newValue ++
        " ("++m.reason++")\n") ++
    block "  Derived records:\n" (derivedRecords.map fun d => "    -> "++ulid d++"\n")

variable (u : FilterLang.Unicode) (cfg : ReadConfig) (now : Timestamp) (s : Snapshot)

/-- The resources and artifacts of a record's evidence, and what the agent could load. -/
def resourceEvidenceSummaries (record : MemoryRecord) (agentId : AgentId) :
    List ResourceEvidenceSummary :=
  let ns := record.effectiveNamespace
  let canReadFull := cfg.isActionAllowed agentId .recallRawText cfg.defaultRealm ns
  let canReadPreview := cfg.isActionAllowed agentId .recall cfg.defaultRealm ns
  (recordEvidenceLinks record).map fun link =>
    let resource := s.getResource link.resourceId
    let artifacts := s.listDerivedArtifacts link.resourceId
    let available := ((artifacts.map (·.kind)).filter (· != .generationFailure)).insertionSort
      (fun l r => l.asStr ≤ r.asStr) |>.dedup
    let artifactKind := link.artifactId.bind fun id =>
      (artifacts.reverse.find? (·.id == id)).map (·.kind)
    let hasPreview := artifactKind.elim (available.any (·.isPreviewable)) (·.isPreviewable)
    let hasFullPayload := resource.any fun r =>
      (match r.location with
        | .blob _ => true
        | _ => false) && !r.governanceState.hidesPayload
    {resourceId := link.resourceId
     role := link.role
     provenance := link.provenance
     artifactId := link.artifactId
     artifactKind := artifactKind
     lifecycleState := resource.elim .active (·.governanceState)
     modality := resource.map (·.modality)
     mimeType := resource.bind (·.mimeType)
     displayName := resource.bind (·.displayName)
     availableArtifacts := artifactKind.elim available fun kind => [kind]
     hasPreview := hasPreview
     canHydratePreview := link.artifactId.isNone && hasPreview && canReadPreview
     canHydrateFull := link.artifactId.isNone && hasFullPayload && canReadFull}

def resolveCompiledSemanticTargetId (target : ℕ) : SemanticTargetKind → Except HirnError MemoryId
  | .memory => .ok target
  | .logical => (s.semanticHeadForLogicalId cfg.backend target).map (·.id)
  | .revision => (s.readSemanticRecordForRevisionId target).map (·.id)

def parseQueryNamespaces (names : List String) : Except HirnError (List Namespace) :=
  names.mapM fun name => (namespaceNew u name).mapError .invalidInput

def parseQueryNamespacesOpt : Option (List String) → Except HirnError (Option (List Namespace))
  | none => .ok none
  | some names => (parseQueryNamespaces u names).map some

/-- The record of a report, for a caller that may see its namespace. -/
def reportTarget (statement : String) (target : ℕ) (kind : SemanticTargetKind)
    (allowedNamespaces : Option (List String)) :
    Except HirnError (MemoryRecord × Option (List Namespace)) := do
  let id ← resolveCompiledSemanticTargetId cfg s target kind
  let record ← s.getMemory id
  let visible ← parseQueryNamespacesOpt u allowedNamespaces
  if visible.all (·.contains record.effectiveNamespace) then .ok (record,visible)
  else .error (.accessDenied (statement++" cannot access namespace '"++record.effectiveNamespace++"'"))

def loadSemanticRevisionSummary : MemoryRecord → Except HirnError (Option SemanticRevisionSummary)
  | .semantic r => (summarizeSemanticRevisionChain r
      (s.semanticHistoryForLogicalId cfg.backend r.logicalMemoryId)).map some
  | _ => .ok none

def inspectTrustScore (id : MemoryId) (record : MemoryRecord) : ℚ :=
  (recordProvenance record).elim 1 fun p =>
    computeTrustScore p (s.graph.getEdgesOfType now id .contradicts).length

def inspectNeighbors (id : MemoryId) : List NeighborInfo :=
  (s.graph.getEdges now id).map fun edge =>
  ⟨edge,if edge.source = id then edge.target else edge.source⟩

def inspectJson (target : ℕ) (kind : SemanticTargetKind) (agentId : AgentId)
    (allowedNamespaces : Option (List String)) : Except HirnError InspectResult := do
  let (record,visible) ← reportTarget u cfg s "INSPECT" target kind allowedNamespaces
  let semanticRevision ← loadSemanticRevisionSummary cfg s record
  let (importance,accessCount,lastAccessed) := inspectRecordStats record
  .ok {
    record := record
    importance := importance
    accessCount := accessCount
    lastAccessed := lastAccessed
    neighbors := inspectNeighbors now s record.id
    trustScore := inspectTrustScore now s record.id record
    semanticRevision := semanticRevision
    conflictGroups := collectConflictGroupsForRecord cfg now s visible (kind = .revision) record
    resourceEvidence := resourceEvidenceSummaries cfg s record agentId}

def derivedRecords (id : MemoryId) : List MemoryId :=
  ((s.graph.getEdgesOfType now id .derivedFrom).filter (·.target == id)).map (·.source)

def traceJson (target : ℕ) (kind : SemanticTargetKind) (agentId : AgentId)
    (allowedNamespaces : Option (List String)) : Except HirnError TraceResult := do
  let (record,visible) ← reportTarget u cfg s "TRACE" target kind allowedNamespaces
  let semanticRevision ← loadSemanticRevisionSummary cfg s record
  let (provenance,sourceEpisodes) := traceProvenanceParts record
  let derived := derivedRecords now s record.id
  .ok {
    record := record
    provenance := provenance
    sourceEpisodes := sourceEpisodes
    derivedRecords := derived
    mutationCount := provenance.mutationLog.length
    trustScore := computeTrustScore provenance (s.graph.getEdgesOfType now record.id .contradicts).length
    lineageTree := formatLineageTree record.id provenance sourceEpisodes derived
    semanticRevision := semanticRevision
    conflictGroups := collectConflictGroupsForRecord cfg now s visible (kind = .revision) record
    resourceEvidence := resourceEvidenceSummaries cfg s record agentId}
end Hirn.Engine
