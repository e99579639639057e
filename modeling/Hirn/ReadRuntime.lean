import Hirn.PropertyGraph
import Hirn.SemanticEdits

/-! What the read side of a query sees: the rows of each dataset, the graph, and the resources
that records refer to. Nothing here is restricted to namespaces. -/
namespace Hirn.Engine
open Chains

inductive ModalityProfile
  | text | image | audio | code | structured | document | video | composite | external

inductive ResourceGovernanceState
  | active | redacted | purged
  deriving DecidableEq

namespace ResourceGovernanceState

def hidesPayload (g : ResourceGovernanceState) : Bool := g != .active

def placeholderDisplayName : ResourceGovernanceState → String
  | .active => "resource"
  | .redacted => "redacted resource"
  | .purged => "purged resource"
end ResourceGovernanceState

inductive ResourceLocation
  | inline
  | blob (index : ℕ)
  | external (uri : String)

structure ResourceObject where
  (id logicalResourceId version : ℕ)
  supersededBy : Option ℕ
  modality : ModalityProfile
  (mimeType displayName : Option String)
  location : ResourceLocation
  storageReady : Bool
  governanceState : ResourceGovernanceState
  ns : Namespace
  createdAt : Timestamp

inductive DerivedArtifactKind
  | preview | ocrText | transcript | caption | thumbnail | syntaxSummary | schemaSummary | generationFailure
  deriving DecidableEq

namespace DerivedArtifactKind

def asStr : DerivedArtifactKind → String
  | .preview => "preview"
  | .ocrText => "ocr_text"
  | .transcript => "transcript"
  | .caption => "caption"
  | .thumbnail => "thumbnail"
  | .syntaxSummary => "syntax_summary"
  | .schemaSummary => "schema_summary"
  | .generationFailure => "generation_failure"

def isPreviewable (k : DerivedArtifactKind) : Bool := k != .generationFailure
end DerivedArtifactKind

structure DerivedArtifact where
  (id resourceId : ℕ)
  kind : DerivedArtifactKind
  ns : Namespace

/-- The stored rows, each under an id of its own. -/
structure Snapshot where
  working : List WorkingMemoryEntry
  episodic : List EpisodicRecord
  semantic : List SemanticRecord
  procedural : List ProceduralRecord
  graph : PropertyGraph
  resources : List ResourceObject
  artifacts : List DerivedArtifact
  ids_nodup : (working.map (·.id)++episodic.map (·.id)++semantic.map (·.id) ++
    procedural.map (·.id)).Nodup

namespace Snapshot
variable (b : Backend SemanticRecord) (s : Snapshot)

def records : List MemoryRecord :=
  s.working.map .working++s.episodic.map .episodic++s.semantic.map .semantic++
  s.procedural.map .procedural

def getMemory (id : MemoryId) : Except HirnError MemoryRecord :=
  match s.records.find? (·.id == id) with
  | some record => .ok record
  | none => .error (.notFound ("memory record "++ulid id))

def readSemanticRecordForRevisionId (revisionId : RevisionId) : Except HirnError SemanticRecord :=
  match s.semantic.find? (·.revisionId == revisionId) with
  | some record => .ok record
  | none => .error (.notFound ("semantic revision "++ulid revisionId))

variable (logicalId : LogicalMemoryId)

def chainOf : List SemanticRecord :=
  s.semantic.filter (·.logicalMemoryId == logicalId)

def semanticHeadForLogicalId : Except HirnError SemanticRecord :=
  match (b.latest (s.chainOf logicalId)).head? with
  | some record => .ok record
  | none => .error (.notFound ("semantic logical memory "++ulid logicalId))

def semanticHistoryForLogicalId : List SemanticRecord :=
  b.oldest (s.chainOf logicalId)
end Snapshot

def maxBy {α κ : Type} [LT κ] [DecidableLT κ] (key : α → κ) : List α → Option α
  | [] => none
  | a::rest => some (rest.foldl (fun best x => if key x < key best then best else x) a)

namespace Snapshot
variable (s : Snapshot)

def getResourceRaw (id : ℕ) : Option ResourceObject :=
  (s.resources.find? (·.id == id)).filter (·.storageReady)

/-- The revision in force: the newest that nothing supersedes, or the newest. -/
def effectiveHeadForLogicalId (logicalId : ℕ) : Option ResourceObject :=
  let ready := s.resources.filter fun r => r.logicalResourceId == logicalId && r.storageReady
  let revisions := ready.insertionSort fun l r => toLex (l.version,l.createdAt) ≤
    toLex (r.version,r.createdAt)
  (maxBy (·.version) (revisions.filter (·.supersededBy.isNone))).or (maxBy (·.version) revisions)

/-- A resource under a governed head is shown without its payload. -/
def applyEffectiveHeadGovernance (resource : ResourceObject) (head : Option ResourceObject) :
    ResourceObject :=
  match head.filter (·.governanceState.hidesPayload) with
  | none => resource
  | some head => {resource with
      governanceState := head.governanceState
      location := .inline
      mimeType := none
      displayName := some ((head.displayName.filter fun name => !(trim name).isEmpty).getD
        head.governanceState.placeholderDisplayName)}

def getResource (id : ℕ) : Option ResourceObject :=
  (s.getResourceRaw id).map fun r =>
    applyEffectiveHeadGovernance r (s.effectiveHeadForLogicalId r.logicalResourceId)

def listDerivedArtifacts (id : ℕ) : List DerivedArtifact :=
  match s.getResourceRaw id with
  | none => []
  | some r =>
    if (s.effectiveHeadForLogicalId r.logicalResourceId).any (·.governanceState.hidesPayload) then []
    else s.artifacts.filter (·.resourceId == id)
end Snapshot
end Hirn.Engine
