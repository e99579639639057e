import Hirn.Chains

/-! The records of the four memory layers, with the fields that reads, edits and reports use. -/
namespace Hirn.Engine

abbrev MemoryId := ℕ
abbrev LogicalMemoryId := ℕ
abbrev RevisionId := ℕ
abbrev AgentId := String
abbrev Namespace := String

abbrev Timestamp := ℤ
def crockford : List Char := "0123456789ABCDEFGHJKMNPQRSTVWXYZ".toList

def ulid (id : ℕ) : String :=
  String.ofList ((List.range 26).map fun i => crockford.getD (id / 32^(25-i) % 32) '0')

inductive HirnError
  | notFound (message : String)
  | alreadyExists (message : String)
  | invalidInput (message : String)
  | storageError (message : String)
  | accessDenied (message : String)
  | quarantined (message : String)
  | rateLimited (message : String)
  | providerError (message : String)
  deriving DecidableEq

inductive Action
  | remember | correct | reflect | supersede | merge | retract | purge | recall | think | forget
  | consolidate | watch | connect | execute | admin | review | recallRawText | read | write | delete

inductive RevisionOperation
  | create | correct | override | retract | supersede | merge
  deriving DecidableEq

inductive Origin
  | directObservation | llmExtraction | consolidation | userProvided | crossAgent | dreamReplay
  deriving DecidableEq

inductive MutationTrigger
  | reconsolidation | consolidation | manual | decay
  deriving DecidableEq

structure EvidenceRef where
  sourceId : MemoryId
  description : String
  deriving DecidableEq

inductive EvidenceRole
  | source | attachment | proof | output | preview | derived
  deriving DecidableEq

inductive EvidenceProvenance
  | observedResource | generatedArtifact | transformedSummary
  deriving DecidableEq

structure EvidenceLink where
  resourceId : ℕ
  artifactId : Option ℕ
  role : EvidenceRole
  provenance : EvidenceProvenance
  deriving DecidableEq

structure Mutation where
  timestamp : Timestamp
  trigger : MutationTrigger
  (field oldValue newValue reason : String)
  deriving DecidableEq

structure Provenance where
  origin : Origin
  extractionModel : Option String
  confidenceBasis : List EvidenceRef
  evidenceLinks : List EvidenceLink
  mutationLog : List Mutation
  createdBy : AgentId
  deriving DecidableEq

def Provenance.withOrigin (origin : Origin) (agentId : AgentId) : Provenance :=
  ⟨origin,none,[],[],[],agentId⟩

def maxMutationLog : ℕ := 100

def Provenance.recordMutation (p : Provenance) (m : Mutation) : Provenance :=
  {p with mutationLog := (if p.mutationLog.length ≥ maxMutationLog then p.mutationLog.tail
    else p.mutationLog)++[m]}

inductive MemoryType
  | stableFact | episodicEvent | behavioralRule | preference
  deriving DecidableEq

def MemoryType.authority : MemoryType → ℕ
  | .stableFact => 3
  | .behavioralRule => 2
  | .episodicEvent => 1
  | .preference => 0

structure SemanticRecord where
  id : MemoryId
  logicalMemoryId : LogicalMemoryId
  revisionId : RevisionId
  (concept description : String)
  embedding : Option (List ℚ)
  confidence : ℚ
  sourceEpisodes : List MemoryId
  evidenceCount : ℕ
  contradictionIds : List MemoryId
  (accessCount version : ℕ)
  revisionOperation : RevisionOperation
  revisionReason : Option String
  revisionCausationId : Option MemoryId
  provenance : Provenance
  ns : Namespace
  (createdAt updatedAt validFrom : Timestamp)
  validUntil : Option Timestamp
  supersededBy : Option MemoryId
  mergedInto : Option LogicalMemoryId
  functionalRole : MemoryType
  deriving DecidableEq

instance : Chains.Revision SemanticRecord where
  key := (·.id)
  chain := (·.logicalMemoryId)
  revision := (·.revisionId)
  version := (·.version)
  recordedAt := (·.createdAt)

namespace SemanticRecord
variable (r : SemanticRecord)

def isRetracted : Bool := r.revisionOperation == .retract
def isMerged : Bool := r.mergedInto.isSome
def isLive : Bool := !r.isRetracted && !r.isMerged
end SemanticRecord

structure EntityRef where
  (name role : String)
  entityId : Option MemoryId
  deriving DecidableEq

/-- What an episode says, as the write path may rewrite it. -/
structure EpisodicBody where
  (content summary : String)
  entities : List EntityRef
  embedding : Option (List ℚ)
  (importance surprise : ℚ)
  consolidationIds : List MemoryId
  functionalRole : MemoryType
  deriving DecidableEq

structure EpisodicRecord where
  id : MemoryId
  logicalMemoryId : LogicalMemoryId
  revisionId : RevisionId
  version : ℕ
  revisionOperation : RevisionOperation
  revisionReason : Option String
  revisionCausationId : Option MemoryId
  (timestamp createdAt updatedAt : Timestamp)
  supersededBy : Option MemoryId
  body : EpisodicBody
  accessCount : ℕ
  lastAccessed : Timestamp
  provenance : Provenance
  ns : Namespace
  archived : Bool
  deriving DecidableEq

instance : Chains.Revision EpisodicRecord where
  key := (·.id)
  chain := (·.logicalMemoryId)
  revision := (·.revisionId)
  version := (·.version)
  recordedAt := (·.createdAt)

namespace EpisodicRecord

def isRetracted (r : EpisodicRecord) : Bool := r.revisionOperation == .retract
def isLive (r : EpisodicRecord) : Bool := !r.archived && !r.isRetracted
end EpisodicRecord

structure WorkingMemoryEntry where
  id : MemoryId
  logicalMemoryId : LogicalMemoryId
  version : ℕ
  content : String
  relevanceScore : ℚ
  (observedAt createdAt : Timestamp)
  agentId : AgentId
  deriving DecidableEq

structure ProceduralRecord where
  id : MemoryId
  logicalMemoryId : LogicalMemoryId
  version : ℕ
  (name description : String)
  successRate : ℚ
  sourceEpisodes : List MemoryId
  (observedAt createdAt : Timestamp)
  accessCount : ℕ
  lastAccessed : Timestamp
  provenance : Provenance
  ns : Namespace
  archived : Bool
  deriving DecidableEq

inductive Layer
  | working | episodic | semantic | procedural

inductive MemoryRecord
  | working (entry : WorkingMemoryEntry)
  | episodic (record : EpisodicRecord)
  | semantic (record : SemanticRecord)
  | procedural (record : ProceduralRecord)
  deriving DecidableEq

def privateFor (agentId : AgentId) : Namespace := "private:"++agentId
def shared : Namespace := "shared"

namespace MemoryRecord

def id : MemoryRecord → MemoryId
  | .working w => w.id
  | .episodic e => e.id
  | .semantic s => s.id
  | .procedural p => p.id

def layer : MemoryRecord → Layer
  | .working _ => .working
  | .episodic _ => .episodic
  | .semantic _ => .semantic
  | .procedural _ => .procedural

def effectiveNamespace : MemoryRecord → Namespace
  | .working w => privateFor w.agentId
  | .episodic e => e.ns
  | .semantic s => s.ns
  | .procedural p => p.ns
end MemoryRecord
end Hirn.Engine
