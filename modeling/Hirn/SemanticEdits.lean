import Hirn.Effects
import Hirn.FilterParser
import Hirn.Records

/-! The database and the operations on semantic records: storing, the revisions that succeed a
head, merging, retraction and purging. -/
namespace Hirn.Engine
open Chains Effects

inductive TextRetention
  | full | summaryOnly | none

/-- What surrounds the database: the policy engine, the poisoning gate, the embedding provider, the
configuration, the backend's orders and the reader of contradiction links. -/
structure Env where
  denial : AgentId → Action → Namespace → Option HirnError
  poisoning : List SemanticRecord → SemanticRecord → Option HirnError
  embedText : String → Except HirnError (List ℚ)
  embeddingDimensions : ℕ
  textRetention : TextRetention
  showF32 : ℚ → String
  contradictionLinks : SemanticRecord → List MemoryId
  semanticBackend : Backend SemanticRecord
  episodicBackend : Backend EpisodicRecord

inductive Admission
  | accept
  | merge (target : MemoryId)
  | refuse (error : HirnError)

/-- What surrounds one call: the clock, the ids handed out, the admission decision, the rewritten body
of the episode, and the first failure before the record is written and after it. -/
structure Call where
  now : Timestamp
  fresh : ℕ → MemoryId
  admission : Admission
  ingest : EpisodicBody → EpisodicBody
  (fault linkFault : Option HirnError)

structure Db where
  working : List WorkingMemoryEntry
  episodic : Store EpisodicRecord
  semantic : Store SemanticRecord
  procedural : List ProceduralRecord

def Db.empty : Db := ⟨[],Store.empty,Store.empty,[]⟩
abbrev Op (α : Type) := Prog Db HirnError α

structure SemanticUpdate where
  description : Option String
  confidence : Option ℚ
  evidenceCount : Option ℕ
  reason : Option String
  actorId : AgentId
  observedAt : Option Timestamp
  causationId : MemoryId

structure SemanticMerge where
  sourceIds : List MemoryId
  description : Option String
  confidence : Option ℚ
  evidenceCount : Option ℕ
  reason : Option String
  actorId : AgentId
  observedAt : Option Timestamp
  causationId : MemoryId

structure SemanticRetraction where
  reason : Option String
  actorId : AgentId
  observedAt : Option Timestamp
  causationId : MemoryId

structure SemanticMergeOutcome where
  target : SemanticRecord
  mergedSources : List SemanticRecord

variable (env : Env) (call : Call)

def enforce (agentId : AgentId) (action : Action) (ns : Namespace) : Op Unit :=
  raise (env.denial agentId action ns)

def onSemantic (f : Store SemanticRecord → Store SemanticRecord) : Op Unit :=
  modify fun db => {db with semantic := f db.semantic}

def readSemanticRecord (id : MemoryId) : Op SemanticRecord := do
  let db ← get
  expect (db.semantic.find id) (.notFound ("semantic record "++ulid id))

def semanticHeadForLogicalId (logicalId : LogicalMemoryId) : Op SemanticRecord := do
  let db ← get
  onSemantic (·.touch env.semanticBackend logicalId)
  expect (db.semantic.headFor env.semanticBackend logicalId)
    (.notFound ("semantic logical memory "++ulid logicalId))

def resolveActiveSemanticHead (id : MemoryId) : Op SemanticRecord := do
  let record ← readSemanticRecord id
  let head ← semanticHeadForLogicalId env record.logicalMemoryId
  require (!head.isRetracted)
    (.invalidInput ("semantic logical memory "++ulid head.logicalMemoryId++" is retracted"))
  raise (head.mergedInto.map fun into => .invalidInput
    ("semantic logical memory "++ulid head.logicalMemoryId++" has been merged into "++ulid into))
  pure head

def conceptTaken (rows : List SemanticRecord) (ns : Namespace) (concept : String)
    (agentId : AgentId) : Bool :=
  let found := rows.filter fun r => r.ns == ns && r.concept == concept
  found.any fun r => (Store.collapse found r.logicalMemoryId).any fun head =>
    head.provenance.createdBy == agentId && head.isLive

def dimensionMismatch (embedding : Option (List ℚ)) : Option HirnError :=
  match embedding with
  | some e => if e.length = env.embeddingDimensions then none else
      some (.invalidInput ("embedding dimension mismatch: expected "++
      toString env.embeddingDimensions ++
        ", got "++toString e.length))
  | none => none

def storeSemantic (record : SemanticRecord) : Op MemoryId := do
  enforce env record.provenance.createdBy .remember record.ns
  let db ← get
  raise (env.poisoning db.semantic.rows record)
  let record := match env.textRetention with
    | .full => record
    | _ => {record with description := ""}
  require (!conceptTaken db.semantic.rows record.ns record.concept record.provenance.createdBy)
    (.alreadyExists ("concept '"++record.concept++"' already exists in namespace '"++record.ns ++
      "' for agent '"++record.provenance.createdBy++"'"))
  raise (dimensionMismatch env record.embedding)
  raise call.fault
  onSemantic fun s => (s.append [record]).cacheHead record
  pure record.id

def clamp01 (q : ℚ) : ℚ := max 0 (min q 1)

variable (current next : SemanticRecord)

def describing (reason : String) (now : Timestamp) (description : Option String) :
    Except HirnError SemanticRecord :=
  match description with
  | none => .ok next
  | some desc => do
    let embedding ← env.embedText desc
    .ok {next with
      description := desc
      embedding := some embedding
      provenance := next.provenance.recordMutation
        ⟨now,.manual,"description",current.description,desc,reason⟩}

def rating (reason : String) (now : Timestamp) (confidence : Option ℚ) : SemanticRecord :=
  match confidence with
  | none => next
  | some conf => {next with
      confidence := clamp01 conf
      provenance := next.provenance.recordMutation ⟨now,.manual,"confidence",
        env.showF32 current.confidence,env.showF32 (clamp01 conf),reason⟩}

def applySemanticUpdateFields (update : SemanticUpdate) (reason : String)
    (now : Timestamp) : Except HirnError SemanticRecord := do
  let next ← describing env current next reason now update.description
  let next := rating env current next reason now update.confidence
  .ok {next with evidenceCount := update.evidenceCount.getD next.evidenceCount}

/-- A new revision of the chain of `current`, with a new identity. -/
def revised (current : SemanticRecord) (id : MemoryId) (operation : RevisionOperation)
    (reason : Option String) (causationId : MemoryId) (now validFrom : Timestamp)
    (actorId : AgentId) : SemanticRecord :=
  {current with
    id := id
    revisionId := id
    version := current.version+1
    revisionOperation := operation
    revisionReason := reason
    revisionCausationId := some causationId
    createdAt := now
    updatedAt := now
    validFrom := validFrom
    validUntil := none
    supersededBy := none
    mergedInto := none
    provenance := {current.provenance with createdBy := actorId}}

def closedPredecessor (record : SemanticRecord) (tClose : Timestamp) : Option SemanticRecord :=
  if record.validUntil.any (· ≤ tClose) then none else some {record with validUntil := some tClose}

def sortedDedup (ids : List MemoryId) : List MemoryId := (ids.mergeSort (· ≤ ·)).dedup

def attachContradictions (current next : SemanticRecord) : SemanticRecord :=
  if current.contradictionIds.isEmpty then {next with contradictionIds := []}
  else {next with contradictionIds := sortedDedup ((env.contradictionLinks current).filter (· ≠ next.id))}

def appendSemanticSuccessor (current : SemanticRecord) (update : SemanticUpdate)
    (operation : RevisionOperation) (preserveValidFrom : Bool) (action : Action) :
    Op SemanticRecord := do
  enforce env update.actorId action current.ns
  let validFrom := update.observedAt.getD (if preserveValidFrom then current.validFrom else call.now)
  let reason := update.reason.getD (match operation with
    | .override => "override"
    | .supersede => "supersede"
    | _ => "update")
  let next := revised current (call.fresh 0) operation update.reason update.causationId call.now
    validFrom update.actorId
  let next ← lift (applySemanticUpdateFields env current next update reason call.now)
  let next := attachContradictions env current next
  raise call.fault
  onSemantic (·.succeed next (if preserveValidFrom then none
    else closedPredecessor current (max next.validFrom current.validFrom)))
  pure next

variable (id : MemoryId)

def correctSemantic (update : SemanticUpdate) : Op SemanticRecord := do
  let current ← resolveActiveSemanticHead env id
  appendSemanticSuccessor env call current update .correct true .correct

def supersedeSemantic (supersession : SemanticUpdate) : Op SemanticRecord := do
  let current ← resolveActiveSemanticHead env id
  appendSemanticSuccessor env call current supersession .supersede false .supersede

def trim (s : String) : String :=
  String.ofList ((s.toList.dropWhile FilterLang.isWhitespace).rdropWhile FilterLang.isWhitespace)

def overrideReason (reason : Option String) : Option String := (reason.map trim).filter (!·.isEmpty)

def overrideSemantic (request : SemanticUpdate) : Op SemanticRecord := do
  let current ← resolveActiveSemanticHead env id
  let reason ← expect (overrideReason request.reason)
    (.invalidInput "semantic override requires a non-empty reason")
  appendSemanticSuccessor env call current {request with reason := some reason} .override false .admin

def retractSemantic (retraction : SemanticRetraction) : Op SemanticRecord := do
  let current ← resolveActiveSemanticHead env id
  enforce env retraction.actorId .retract current.ns
  let tombstone := revised current (call.fresh 0) .retract retraction.reason retraction.causationId
    call.now (retraction.observedAt.getD call.now) retraction.actorId
  raise call.fault
  onSemantic (·.succeed tombstone (closedPredecessor current
    (max tombstone.validFrom current.validFrom)))
  pure tombstone

/-- Resolve the sources of a merge in order, each once, like the target. -/
def resolveSources (current : SemanticRecord) : List MemoryId → List LogicalMemoryId →
    Op (List SemanticRecord)
  | [], _ => pure []
  | sourceId::rest, seen => do
    let source ← resolveActiveSemanticHead env sourceId
    require (source.logicalMemoryId != current.logicalMemoryId)
      (.invalidInput ("MERGE MEMORY source '" ++
      ulid sourceId++"' resolves to the target logical memory "++ulid current.logicalMemoryId))
    require (!seen.contains source.logicalMemoryId) (.invalidInput ("MERGE MEMORY source '" ++
      ulid sourceId++"' duplicates logical memory "++ulid source.logicalMemoryId))
    require (source.ns == current.ns) (.invalidInput ("MERGE MEMORY source "++ulid source.id ++
      " is in namespace '"++source.ns++"' but target is in '"++current.ns++"'"))
    require (source.concept == current.concept)
      (.invalidInput ("MERGE MEMORY source "++ulid source.id ++
      " uses concept '"++source.concept++"' but target uses '"++current.concept++"'"))
    let sources ← resolveSources current rest (source.logicalMemoryId::seen)
    pure (source::sources)

def u32Max : ℕ := 2^32-1

def mergedConfidenceAndEvidence (records : List SemanticRecord) : ℚ × ℕ :=
  let weights := records.map fun r => max r.evidenceCount 1
  let confidence := if weights.sum = 0 then 1/2
    else (records.map fun r => r.confidence * ((max r.evidenceCount 1 : ℕ) : ℚ)).sum /
      (weights.sum : ℚ)
  (clamp01 confidence,weights.foldl (fun acc w => min (acc+w) u32Max) 0)

def mergeTarget (current : SemanticRecord) (sources : List SemanticRecord) (merge : SemanticMerge)
    (observedAt : Timestamp) : SemanticRecord :=
  {revised current (call.fresh 0) .merge merge.reason merge.causationId call.now observedAt merge.actorId with
    sourceEpisodes := sortedDedup (current.sourceEpisodes++sources.flatMap (·.sourceEpisodes))
    contradictionIds := sortedDedup (current.contradictionIds++sources.flatMap (·.contradictionIds))}

def mergedSource (target : SemanticRecord) (merge : SemanticMerge) (observedAt : Timestamp)
    (source : SemanticRecord) (i : ℕ) : SemanticRecord :=
  {revised source (call.fresh (i+1)) .merge merge.reason target.id call.now observedAt merge.actorId with
    mergedInto := some target.logicalMemoryId}

/-- Close a predecessor at the observed time of the merge. -/
def closePredecessor (observedAt : Timestamp) (s : Store SemanticRecord) (p : SemanticRecord) :
    Store SemanticRecord :=
  match closedPredecessor p (max observedAt p.validFrom) with
  | some r => s.overwrite r
  | none => s

def mergeSemantic (targetId : MemoryId) (merge : SemanticMerge) : Op SemanticMergeOutcome := do
  require (!merge.sourceIds.isEmpty) (.invalidInput "MERGE MEMORY requires at least one source memory")
  let current ← resolveActiveSemanticHead env targetId
  enforce env merge.actorId .merge current.ns
  let sources ← resolveSources env current merge.sourceIds []
  let observedAt := merge.observedAt.getD call.now
  let (confidence,evidence) := mergedConfidenceAndEvidence (current::sources)
  let update : SemanticUpdate := ⟨merge.description,merge.confidence.or (some confidence),
    merge.evidenceCount.or (some evidence),merge.reason,merge.actorId,some observedAt,
    merge.causationId⟩
  let target ← lift (applySemanticUpdateFields env current
    (mergeTarget call current sources merge observedAt)
    update (merge.reason.getD "merge") call.now)
  let mergedSources := sources.mapIdx fun i source => mergedSource call target merge
    observedAt source i
  raise call.fault
  onSemantic fun s => (target::mergedSources).foldl Store.cacheHead
    ((current::sources).foldl (closePredecessor observedAt) (s.append (target::mergedSources)))
  pure ⟨target,mergedSources⟩

def purgeSemanticAs (actorId : Option AgentId) : Op Unit := do
  let record ← readSemanticRecord id
  enforce env (actorId.getD record.provenance.createdBy) .purge record.ns
  raise call.fault
  onSemantic fun s => (s.dropChain record.logicalMemoryId).evict record.logicalMemoryId
end Hirn.Engine
