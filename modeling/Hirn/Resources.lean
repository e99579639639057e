import Hirn.Calls
import Hirn.Records

/-! Resources: lineages of revisions, the payload bytes and derived artifacts that belong to them, and
the envelopes that record what has been begun. Every operation is a program of single storage calls. -/
namespace Hirn.Resources
open Engine Calls List

abbrev ResourceId := ℕ
abbrev LogicalResourceId := ℕ
abbrev Bytes := List UInt8

inductive ModalityProfile
  | text | image | audio | code | structured | document | video | composite | external

inductive ResourceLocation
  | inline
  | blob (blobIndex : ℕ)
  | external (uri : String)
  deriving DecidableEq

def ResourceLocation.isBlob : ResourceLocation → Bool
  | .blob _ => true
  | _ => false

inductive ResourceGovernanceState
  | active | redacted | purged
  deriving DecidableEq

namespace ResourceGovernanceState

def asStr : ResourceGovernanceState → String
  | active => "active"
  | redacted => "redacted"
  | purged => "purged"

def hidesPayload : ResourceGovernanceState → Bool
  | active => false
  | _ => true

def placeholderDisplayName : ResourceGovernanceState → String
  | active => "resource"
  | redacted => "redacted resource"
  | purged => "purged resource"
end ResourceGovernanceState

structure ResourceObject where
  id : ResourceId
  logicalResourceId : LogicalResourceId
  version : ℕ
  revisionOperation : RevisionOperation
  revisionReason : Option String
  (revisionCausationId supersededBy : Option ResourceId)
  modality : ModalityProfile
  (mimeType displayName checksum : Option String)
  sizeBytes : ℕ
  location : ResourceLocation
  storageReady : Bool
  ownerAgentId : Option AgentId
  governanceState : ResourceGovernanceState
  governanceReason : Option String
  governedAt : Option Timestamp
  ns : Namespace
  (createdAt updatedAt : Timestamp)

namespace ResourceObject

def staged (r : ResourceObject) : ResourceObject := {r with storageReady := false}
def finalized (r : ResourceObject) : ResourceObject := {r with storageReady := true}

theorem finalized_eq_self {r : ResourceObject} (h : r.storageReady) : r.finalized = r := by
  rw [finalized,← h]

def supersede (r : ResourceObject) (successorId : ResourceId) (now : Timestamp) : ResourceObject :=
  {r with supersededBy := some successorId,updatedAt := now}
end ResourceObject

structure ResourceObjectBuilder where
  modality : ModalityProfile
  (mimeType displayName checksum : Option String)
  sizeBytes : Option ℕ
  location : ResourceLocation
  ownerAgentId : Option AgentId
  ns : Namespace

/-- The first revision of a new lineage. -/
def ResourceObjectBuilder.build (b : ResourceObjectBuilder) (id : ResourceId) (now : Timestamp) :
    ResourceObject where
  id
  logicalResourceId := id
  version := 1
  revisionOperation := .create
  revisionReason := none
  revisionCausationId := none
  supersededBy := none
  modality := b.modality
  mimeType := b.mimeType
  displayName := b.displayName
  checksum := b.checksum
  sizeBytes := b.sizeBytes.getD 0
  location := b.location
  storageReady := true
  ownerAgentId := b.ownerAgentId
  governanceState := .active
  governanceReason := none
  governedAt := none
  ns := b.ns
  createdAt := now
  updatedAt := now

structure ResourceSupersession where
  reason : Option String
  modality : Option ModalityProfile
  (mimeType displayName checksum : Option String)
  sizeBytes : Option ℕ
  location : Option ResourceLocation

structure ResourceGovernanceUpdate where
  (reason placeholderDisplayName : Option String)

structure ResourceBlobRow where
  resourceId : ResourceId
  blobIndex : ℕ
  data : Bytes

structure DerivedArtifact where
  id : ℕ
  resourceId : ResourceId
  textContent : Option String
  blobIndex : Option ℕ

inductive HirnDbError
  | invalidArgument (message : String)
  | blobError (dataset details : String)
  /-- Whatever the backend reports. -/
  | backend

inductive MutationEnvelopeState
  | pending | applied | failed
  deriving DecidableEq

inductive EnvelopeId
  | resourceHead (successorId : ResourceId)
  | resourcePurge (successorId : ResourceId)
  deriving DecidableEq

def EnvelopeId.text : EnvelopeId → String
  | .resourceHead successorId => "resource-head:"++ulid successorId
  | .resourcePurge successorId => "resource-purge:"++ulid successorId

inductive EnvelopePayload
  | headTransition (currentId successorId : ResourceId) (successorCreatedAtMs : Timestamp)
  | payloadPurge (logicalResourceId : LogicalResourceId) (governedHeadId : ResourceId)

structure MutationEnvelopeRecord where
  id : EnvelopeId
  payload : EnvelopePayload
  state : MutationEnvelopeState
  lastError : Option HirnDbError
  (createdAt updatedAt : Timestamp)

structure Store where
  resources : List ResourceObject
  blobs : List ResourceBlobRow
  artifacts : List DerivedArtifact
  envelopes : List MutationEnvelopeRecord
  /-- Every revision ever appended, with lineage and governance; nothing reads it. -/
  born : List (ResourceId × LogicalResourceId × ResourceGovernanceState)

def Store.empty : Store := ⟨[],[],[],[],[]⟩

/-- In memory a merged row stays where it was. Lance keeps an order of its own: each row comes to lie at
the place that the keys before the merge give to its key. -/
inductive Backend
  | memory
  | lance (resources : List ResourceId → ResourceId → ℕ) (envelopes : List EnvelopeId → EnvelopeId → ℕ)

def Backend.resourceOrder : Backend → Option (List ResourceId → ResourceId → ℕ)
  | .memory => none
  | .lance place _ => some place

def Backend.envelopeOrder : Backend → Option (List EnvelopeId → EnvelopeId → ℕ)
  | .memory => none
  | .lance _ place => some place

variable {α κ : Type} [DecidableEq κ]

def mergeInsert (order : Option (List κ → κ → ℕ)) (key : α → κ) (row : α) (rows : List α) : List α :=
  match order with
  | none =>
    if rows.any fun r => key r = key row then rows.map fun r => if key r = key row then row else
      r else rows++[row]
  | some place =>
    (rows.filter (fun r => key r ≠ key row)++[row]).insertionSort fun a b =>
      place (rows.map key) (key a) ≤ place (rows.map key) (key b)

variable {order : Option (List κ → κ → ℕ)} {key : α → κ} {r row : α} {rows : List α}

@[simp] theorem mem_mergeInsert : r ∈ mergeInsert order key row rows ↔ r = row ∨ r ∈ rows ∧
    key r ≠ key row := by
  cases order with
  | some place =>
    rw [mergeInsert,mem_insertionSort,mem_append,mem_singleton,or_comm]
    simp
  | none =>
    rw [mergeInsert]
    split
    next hany =>
      obtain ⟨old,hold,hkey⟩ := any_eq_true.mp hany
      rw [decide_eq_true_eq] at hkey
      rw [mem_map]
      constructor
      · rintro ⟨a,ha,rfl⟩
        split
        · exact .inl rfl
        next hne => exact .inr ⟨ha,hne⟩
      · rintro (rfl | ⟨hr,hne⟩)
        · exact ⟨old,hold,if_pos hkey⟩
        · exact ⟨r,hr,if_neg hne⟩
    next hnone =>
      have hall : ∀ a ∈ rows, key a ≠ key row := by simpa using hnone
      rw [mem_append,mem_singleton,or_comm]
      exact or_congr_right ⟨fun h => ⟨h,hall r h⟩,fun h => h.1⟩

theorem nodup_mergeInsert (h : (rows.map key).Nodup) :
    ((mergeInsert order key row rows).map key).Nodup := by
  have happend : ∀ rest : List α, (rest.map key).Nodup → (∀ a ∈ rest, key a ≠ key row) →
      ((rest++[row]).map key).Nodup := by
    intro rest hnodup hne
    rw [map_append,nodup_append]
    refine ⟨hnodup,by simp,fun k hk l hl => ?_⟩
    obtain ⟨a,ha,rfl⟩ := mem_map.mp hk
    rw [map_singleton,mem_singleton] at hl
    exact hl ▸ hne a ha
  cases order with
  | some place =>
    refine ((perm_insertionSort _ _).map key).nodup_iff.mpr ?_
    refine happend _ (h.sublist (filter_sublist.map key)) fun a ha => ?_
    simpa using (mem_filter.mp ha).2
  | none =>
    rw [mergeInsert]
    split
    · have hsame : (rows.map fun r => if key r = key row then row else r).map key = rows.map key := by
        rw [map_map]
        refine map_congr_left fun a _ => ?_
        rw [Function.comp_apply]
        split
        next hkey => exact hkey.symm
        · rfl
      rwa [hsame]
    next hnone => exact happend rows h (by simpa using hnone)

theorem find?_key_eq_some {k : κ} (h : (rows.map key).Nodup) :
    rows.find? (fun r => key r = k) = some r ↔ r ∈ rows ∧ key r = k := by
  constructor
  · intro hfind
    exact ⟨mem_of_find?_eq_some hfind,by simpa using find?_some hfind⟩
  · rintro ⟨hmem,hkey⟩
    cases hfind : rows.find? (fun r => key r = k) with
    | none => simpa [hkey] using find?_eq_none.mp hfind r hmem
    | some a =>
      have ha : key a = k := by simpa using find?_some hfind
      rw [inj_on_of_nodup_map h (mem_of_find?_eq_some hfind) hmem (ha.trans hkey.symm)]

/-- The calls of the operations. A scan reads the store that it meets. -/
inductive StoreOp
  | scan
  | appendResource (row : ResourceObject)
  | mergeResource (row : ResourceObject)
  | deleteResource (id : ResourceId)
  | appendBlob (row : ResourceBlobRow)
  | deleteBlob (resourceId : ResourceId) (blobIndex : ℕ)
  | deleteBlobs (resourceIds : List ResourceId)
  | appendArtifact (row : DerivedArtifact)
  | deleteArtifacts (resourceIds : List ResourceId)
  | appendEnvelope (row : MutationEnvelopeRecord)
  | mergeEnvelope (row : MutationEnvelopeRecord)

def effect (backend : Backend) : StoreOp → Store → Store
  | .scan, s => s
  | .appendResource row, s =>
    {s with
      resources := s.resources++[row]
      born := s.born++[(row.id,row.logicalResourceId,row.governanceState)]}
  | .mergeResource row, s =>
    {s with resources := mergeInsert backend.resourceOrder ResourceObject.id row s.resources}
  | .deleteResource id, s => {s with resources := s.resources.filter fun r => r.id ≠ id}
  | .appendBlob row, s => {s with blobs := s.blobs++[row]}
  | .deleteBlob id index, s => {s with blobs := s.blobs.filter fun b => ¬(b.resourceId = id ∧ b.blobIndex = index)}
  | .deleteBlobs ids, s => {s with blobs := s.blobs.filter fun b => b.resourceId ∉ ids}
  | .appendArtifact row, s => {s with artifacts := s.artifacts++[row]}
  | .deleteArtifacts ids, s => {s with artifacts := s.artifacts.filter fun a => a.resourceId ∉ ids}
  | .appendEnvelope row, s => {s with envelopes := s.envelopes++[row]}
  | .mergeEnvelope row, s => {s with envelopes := mergeInsert backend.envelopeOrder MutationEnvelopeRecord.id row s.envelopes}

variable (key : α → ℕ)

def maxByKey : List α → Option α
  | [] => none
  | x::xs =>
    match maxByKey xs with
    | some y => if key x ≤ key y then some y else some x
    | none => some x

variable {key}

theorem mem_of_maxByKey (h : maxByKey key xs = some x) : x ∈ xs := by
  induction xs with
  | nil => cases h
  | cons a xs ih =>
    rw [maxByKey] at h
    split at h
    next y hy =>
      split at h
      · exact mem_cons_of_mem a (ih (hy.trans h))
      · exact Option.some.inj h ▸ mem_cons_self
    · exact Option.some.inj h ▸ mem_cons_self

theorem maxByKey_eq_none : maxByKey key xs = none ↔ xs = [] := by
  cases xs with
  | nil => simp [maxByKey]
  | cons a xs =>
    rw [maxByKey]
    split
    · split <;> simp
    · simp

theorem maxByKey_eq_some_of_forall (hx : x ∈ xs) (h : ∀ y ∈ xs, y = x) : maxByKey key xs = some x := by
  cases hmax : maxByKey key xs with
  | none => exact absurd (maxByKey_eq_none.mp hmax) (ne_nil_of_mem hx)
  | some y => rw [h y (mem_of_maxByKey hmax)]

namespace Store
variable (s : Store)

def resourceRaw (resourceId : ResourceId) : Option ResourceObject :=
  (s.resources.find? fun r => r.id = resourceId).filter (·.storageReady)

def revisions (logicalResourceId : LogicalResourceId) : List ResourceObject :=
  (s.resources.filter fun r => r.logicalResourceId = logicalResourceId ∧ r.storageReady).insertionSort
    fun l r => l.version < r.version ∨ l.version = r.version ∧ l.createdAt ≤ r.createdAt

def blob? (resourceId : ResourceId) (blobIndex : ℕ) : Option Bytes :=
  (s.blobs.find? fun b => b.resourceId = resourceId ∧ b.blobIndex = blobIndex).map (·.data)

def withChecksum (ns : Namespace) (checksum : String) : Option ResourceObject :=
  s.resources.find? fun r => r.checksum = some checksum ∧ r.ns = ns

def envelope? (id : EnvelopeId) : Option MutationEnvelopeRecord := s.envelopes.find? fun e => e.id = id

def pendingEnvelopes (ofKind : EnvelopePayload → Bool) : List MutationEnvelopeRecord :=
  (s.envelopes.filter fun e => ofKind e.payload ∧ e.state = .pending).insertionSort
    fun l r => l.createdAt ≤ r.createdAt
end Store

def selectActiveResourceHead (revisions : List ResourceObject) : Option ResourceObject :=
  (maxByKey (·.version) (revisions.filter fun r => r.storageReady ∧ r.supersededBy = none)).or
    (maxByKey (·.version) (revisions.filter (·.storageReady)))

def selectLiveResourceMatch (revisions : List ResourceObject) : Option ResourceObject :=
  maxByKey (·.version) (revisions.filter fun r => r.storageReady ∧ r.supersededBy = none)

/-- Code of other crates: the text of a BLAKE3 hash and the trimming of a text. -/
structure Env where
  hash : Bytes → String
  trim : String → String

abbrev Act := Action HirnDbError StoreOp Store
def scan {α : Type} (f : Store → α) : Act α := f <$> request .scan .backend
def write (o : StoreOp) : Act Unit := (fun _ => ()) <$> request o .backend

variable (now : Timestamp)

def updateMutationEnvelopeState (id : EnvelopeId) (state : MutationEnvelopeState)
    (lastError : Option HirnDbError) :
    Act Unit := do
  match ← scan (·.envelope? id) with
  | none => throw (.invalidArgument ("mutation envelope not found: "++id.text))
  | some envelope => write (.mergeEnvelope {envelope with state,lastError,updatedAt := now})

def markResourceHeadTransitionFailed (id : EnvelopeId) (error : HirnDbError) : Act Unit :=
  updateMutationEnvelopeState now id .failed (some error)

def buildResourceHeadTransitionEnvelope (current successor : ResourceObject) :
    MutationEnvelopeRecord :=
  ⟨.resourceHead successor.id,.headTransition current.id successor.id successor.createdAt,.pending,
  none,now,now⟩

def buildResourcePayloadPurgeEnvelope (current successor : ResourceObject) : MutationEnvelopeRecord :=
  ⟨.resourcePurge successor.id,.payloadPurge current.logicalResourceId successor.id,.pending,none,
  now,now⟩

variable (resourceId : ResourceId)

def getResourceRaw : Act (Option ResourceObject) := scan (·.resourceRaw resourceId)

variable (logicalResourceId : LogicalResourceId)

def listResourceRevisionsForLogicalId : Act (List ResourceObject) :=
  scan (·.revisions logicalResourceId)

def listResourceRevisions : Act (List ResourceObject) := do
  match ← getResourceRaw resourceId with
  | none => return []
  | some resource => listResourceRevisionsForLogicalId resource.logicalResourceId

def getResourceHead : Act (Option ResourceObject) := do
  let revisions ← listResourceRevisions resourceId
  return selectActiveResourceHead revisions

def effectiveHeadForLogicalId : Act (Option ResourceObject) := do
  let revisions ← listResourceRevisionsForLogicalId logicalResourceId
  return selectActiveResourceHead revisions

def findLiveResourceByChecksum (ns : Namespace) (checksum : String) : Act (Option ResourceObject) :=
  scan fun s => selectLiveResourceMatch ((s.withChecksum ns checksum).toList.filter (·.storageReady))

def loadResourceBlobUnchecked (blobIndex : ℕ) : Act Bytes := do
  match ← scan (·.blob? resourceId blobIndex) with
  | some data => return data
  | none => throw (.blobError "_resource_blobs"
      ("resource blob not found: "++ulid resourceId++":"++toString blobIndex))

def loadResourceBlob (blobIndex : ℕ) : Act Bytes := do
  match ← getResourceRaw resourceId with
  | none => throw (.blobError "resources" ("resource not found or not visible: "++ulid resourceId))
  | some resource =>
    let head ← effectiveHeadForLogicalId resource.logicalResourceId
    if head.any (·.governanceState.hidesPayload) then
      throw (.blobError "_resource_blobs"
        ("resource payload unavailable: "++ulid resourceId++" is governed by the active head"))
    else loadResourceBlobUnchecked resourceId blobIndex

variable (resource : ResourceObject)

def upsertResourceRevision : Act Unit := write (.mergeResource resource)

def rollbackResourceRevision : Act Unit := do
  discard (attempt (write (.deleteResource resource.id)))
  if resource.location.isBlob then discard (attempt (write (.deleteBlobs [resource.id])))

def appendResourceRevision (blob : Option Bytes) : Act Unit :=
  match resource.location, blob with
  | .blob blobIndex, some data => do
    write (.appendResource resource.staged)
    match ← attempt (write (.appendBlob ⟨resource.id,blobIndex,data⟩)) with
    | .error error =>
      rollbackResourceRevision resource.staged
      throw error
    | .ok _ =>
      match ← attempt (upsertResourceRevision resource.finalized) with
      | .error error =>
        rollbackResourceRevision resource.finalized
        throw error
      | .ok _ => return
  | _, _ => write (.appendResource resource)

variable (env : Env)

def syncBlobMetadata (resource : ResourceObject) (data : Bytes) : ResourceObject :=
  {resource with checksum := resource.checksum.or (some (env.hash data)),sizeBytes := data.length}

def prepareBlobPayload (current : Option ResourceObject) (resource : ResourceObject)
    (blob : Option Bytes) : Act (ResourceObject × Option Bytes) :=
  match resource.location, blob with
  | .blob _, some data => return (syncBlobMetadata env resource data,some data)
  | .blob _, none =>
    match current with
    | none => throw (.invalidArgument "blob-backed resource requires payload bytes")
    | some current =>
      match current.location with
      | .blob blobIndex => do
        let data ← loadResourceBlobUnchecked current.id blobIndex
        return (syncBlobMetadata env resource data,some data)
      | _ => throw (.invalidArgument "cannot supersede a non-blob resource without new payload bytes")
  | _, some _ => throw (.invalidArgument
      "only ResourceLocation::Blob may carry persisted payload bytes")
  | _, none => return (resource,none)

def normalizeOptionalString (value : Option String) : Option String :=
  (value.map env.trim).filter (· ≠ "")

/-- The successor has all of its predecessor that is not changed here. -/
def buildSuccessorRevision (id : ResourceId) (current : ResourceObject) (reason : Option String)
    (now : Timestamp) : ResourceObject :=
  {current with
    id
    version := current.version+1
    revisionOperation := .supersede
    revisionReason := reason
    revisionCausationId := some current.id
    supersededBy := none
    createdAt := now
    updatedAt := now}

def ResourceSupersession.apply (u : ResourceSupersession) (successor : ResourceObject) :
    ResourceObject :=
  {successor with
    modality := u.modality.getD successor.modality
    mimeType := u.mimeType.or successor.mimeType
    displayName := u.displayName.or successor.displayName
    checksum := u.checksum.or successor.checksum
    sizeBytes := u.sizeBytes.getD successor.sizeBytes
    location := u.location.getD successor.location}

variable (id : ResourceId) (now : Timestamp)

/-- Operations that make a revision get its identifier and the time as arguments. -/
def persistResource (resource : ResourceObject) (blob : Option Bytes) : Act ResourceObject := do
  let (resource,blob) ← prepareBlobPayload env none resource blob
  let existing ← match resource.checksum with
    | some checksum => findLiveResourceByChecksum resource.ns checksum
    | none => pure none
  match existing with
  | some existing => return existing
  | none =>
    appendResourceRevision resource blob
    return resource

def supersedeHead (current successor : ResourceObject) : Act Unit :=
  upsertResourceRevision (current.supersede successor.id now)

def supersedeResource (resourceId : ResourceId) (supersession : ResourceSupersession)
    (blob : Option Bytes) :
    Act ResourceObject := do
  match ← getResourceHead resourceId with
  | none => throw (.invalidArgument ("resource not found: "++ulid resourceId))
  | some current =>
    let reason := normalizeOptionalString env supersession.reason
    let (successor,blob) ← prepareBlobPayload env (some current)
      (supersession.apply (buildSuccessorRevision id current reason now)) blob
    let envelope := buildResourceHeadTransitionEnvelope now current successor
    write (.appendEnvelope envelope)
    match ← attempt (appendResourceRevision successor blob) with
    | .error error =>
      discard (attempt (markResourceHeadTransitionFailed now envelope.id error))
      throw error
    | .ok _ =>
      match ← attempt (supersedeHead now current successor) with
      | .error error =>
        rollbackResourceRevision successor
        discard (attempt (markResourceHeadTransitionFailed now envelope.id error))
        throw error
      | .ok _ =>
        updateMutationEnvelopeState now envelope.id .applied none
        return successor

/-- The payload of every revision that can be seen goes, and then its artifacts. -/
def deleteLineagePayloadsAndArtifacts (logicalResourceId : LogicalResourceId) : Act Unit := do
  let revisions ← listResourceRevisionsForLogicalId logicalResourceId
  let resourceIds := revisions.map (·.id)
  if resourceIds.isEmpty then return
  else
    write (.deleteBlobs resourceIds)
    write (.deleteArtifacts resourceIds)

def placeholder (current : ResourceObject) (state : ResourceGovernanceState)
    (update : ResourceGovernanceUpdate) : ResourceObject :=
  let reason := (normalizeOptionalString env update.reason).or (some ("resource "++state.asStr))
  {buildSuccessorRevision id current reason now with
    governanceState := state
    governanceReason := reason
    governedAt := some now
    displayName :=
      some ((normalizeOptionalString env update.placeholderDisplayName).getD state.placeholderDisplayName)
    mimeType := none
    checksum := none
    sizeBytes := 0
    location := .inline}

variable (resourceId : ResourceId)

def governResource (state : ResourceGovernanceState) (update : ResourceGovernanceUpdate) :
    Act ResourceObject := do
  match ← getResourceHead resourceId with
  | none => throw (.invalidArgument ("resource not found: "++ulid resourceId))
  | some current =>
    if current.governanceState = state then return current
    else
      let successor := placeholder env id now current state update
      let envelope := buildResourcePayloadPurgeEnvelope now current successor
      write (.appendEnvelope envelope)
      match ← attempt (appendResourceRevision successor none) with
      | .error error =>
        discard (attempt (updateMutationEnvelopeState now envelope.id .failed (some error)))
        throw error
      | .ok _ =>
        match ← attempt (supersedeHead now current successor) with
        | .error error =>
          rollbackResourceRevision successor
          discard (attempt (updateMutationEnvelopeState now envelope.id .failed (some error)))
          throw error
        | .ok _ =>
          match ← attempt (deleteLineagePayloadsAndArtifacts current.logicalResourceId) with
          | .error error =>
            discard (attempt (updateMutationEnvelopeState now envelope.id .pending (some error)))
            throw error
          | .ok _ =>
            updateMutationEnvelopeState now envelope.id .applied none
            return successor

def redactResource (update : ResourceGovernanceUpdate) : Act ResourceObject :=
  governResource env id now resourceId .redacted update

def purgeResource (update : ResourceGovernanceUpdate) : Act ResourceObject :=
  governResource env id now resourceId .purged update

def persistDerivedArtifact (artifact : DerivedArtifact) : Act Unit := write (.appendArtifact artifact)

def persistDerivedArtifactWithBlob (artifact : DerivedArtifact) (data : Bytes) : Act Unit :=
  match artifact.blobIndex with
  | none => throw (.invalidArgument "blob-backed derived artifact requires blob_index")
  | some blobIndex => do
    write (.appendBlob ⟨artifact.resourceId,blobIndex,data⟩)
    match ← attempt (persistDerivedArtifact artifact) with
    | .error error =>
      discard (attempt (write (.deleteBlob artifact.resourceId blobIndex)))
      throw error
    | .ok _ => return

def EnvelopePayload.isHeadTransition : EnvelopePayload → Bool
  | .headTransition .. => true
  | .payloadPurge .. => false

def EnvelopePayload.isPayloadPurge : EnvelopePayload → Bool
  | .headTransition .. => false
  | .payloadPurge .. => true

def reconcileSingleResourceHeadTransition (envelope : MutationEnvelopeRecord) : Act Bool :=
  match envelope.payload with
  | .payloadPurge .. => throw (.invalidArgument "resource head envelope deserialize")
  | .headTransition currentId successorId createdAt => do
    let current ← getResourceRaw currentId
    let successor ← getResourceRaw successorId
    match current, successor with
    | some current, some successor =>
      if current.supersededBy = some successor.id then
        updateMutationEnvelopeState now envelope.id .applied none
        return false
      else if createdAt < 0 then
        throw (.invalidArgument "resource head envelope successor_created_at_ms was negative")
      else
        upsertResourceRevision (current.supersede successor.id createdAt)
        updateMutationEnvelopeState now envelope.id .applied none
        return true
    | some current, none =>
      if current.supersededBy = some successorId then
        upsertResourceRevision {current with supersededBy := none}
      markResourceHeadTransitionFailed now envelope.id
        (.invalidArgument ("resource head recovery missing successor revision: "++ulid successorId))
      return true
    | none, some successor =>
      rollbackResourceRevision successor
      markResourceHeadTransitionFailed now envelope.id
        (.invalidArgument ("resource head recovery missing current revision: "++ulid currentId))
      return true
    | none, none =>
      markResourceHeadTransitionFailed now envelope.id
        (.invalidArgument ("resource head recovery missing both revisions: "++ulid currentId++" -> " ++
          ulid successorId))
      return false

def reconcileSingleResourcePayloadPurge (envelope : MutationEnvelopeRecord) : Act Bool :=
  match envelope.payload with
  | .headTransition .. => do
    updateMutationEnvelopeState now envelope.id .failed
      (some (.invalidArgument "resource purge envelope deserialize"))
    return false
  | .payloadPurge logicalResourceId governedHeadId => do
    match ← effectiveHeadForLogicalId logicalResourceId with
    | some head =>
      if head.governanceState.hidesPayload then
        deleteLineagePayloadsAndArtifacts logicalResourceId
        updateMutationEnvelopeState now envelope.id .applied none
        return true
      else
        updateMutationEnvelopeState now envelope.id .failed
          (some (.invalidArgument ("resource purge recovery: lineage "++ulid logicalResourceId ++
            " head is not governed (expected "++ulid governedHeadId++")")))
        return true
    | none =>
      updateMutationEnvelopeState now envelope.id .failed
        (some (.invalidArgument ("resource purge recovery: lineage "++ulid logicalResourceId ++
          " has no remaining revisions")))
      return false

variable (single : MutationEnvelopeRecord → Act Bool) (record : EnvelopeId → HirnDbError → Act Unit)

def reconcileOne (envelope : MutationEnvelopeRecord) : Act ℕ := do
  match ← attempt (single envelope) with
  | .ok repaired => return if repaired then 1 else 0
  | .error error =>
    discard (attempt (record envelope.id error))
    return 0

def reconcileEach : List MutationEnvelopeRecord → Act ℕ
  | [] => return 0
  | envelope::envelopes => do
    let reconciled ← reconcileOne single record envelope
    let later ← reconcileEach envelopes
    return reconciled+later

def reconcileResourcePayloadPurges : Act ℕ := do
  let envelopes ← scan (·.pendingEnvelopes EnvelopePayload.isPayloadPurge)
  reconcileEach (reconcileSingleResourcePayloadPurge now)
    (fun id error => updateMutationEnvelopeState now id .pending (some error)) envelopes

def reconcileResourceHeadMutations : Act ℕ := do
  let envelopes ← scan (·.pendingEnvelopes EnvelopePayload.isHeadTransition)
  let reconciled ← reconcileEach (reconcileSingleResourceHeadTransition now)
    (markResourceHeadTransitionFailed now) envelopes
  let purged ← reconcileResourcePayloadPurges now
  return reconciled+purged

/-- A staged row becomes visible if its bytes are stored, and goes otherwise. -/
def reconcileStaged (resource : ResourceObject) : Act ℕ :=
  match resource.location with
  | .blob blobIndex => do
    match ← attempt (loadResourceBlobUnchecked resource.id blobIndex) with
    | .ok _ =>
      match ← attempt (upsertResourceRevision resource.finalized) with
      | .ok _ => return 1
      | .error _ => return 0
    | .error _ =>
      match ← attempt (write (.deleteResource resource.id)) with
      | .ok _ => return 1
      | .error _ => return 0
  | _ => do
    discard (attempt (upsertResourceRevision resource.finalized))
    return 1

def reconcileStagedEach : List ResourceObject → Act ℕ
  | [] => return 0
  | resource::resources => do
    let reconciled ← reconcileStaged resource
    let later ← reconcileStagedEach resources
    return reconciled+later

def reconcilePendingResourceBlobStaging : Act ℕ := do
  let staging ← scan fun s => s.resources.filter fun r => ¬r.storageReady
  reconcileStagedEach staging
end Hirn.Resources
