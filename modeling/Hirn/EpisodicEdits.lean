import Hirn.SemanticEdits

/-! The operations on episodes: remembering, which may merge the episode into one that is stored
already, archiving and deletion. -/
namespace Hirn.Engine
open Chains Effects
variable (env : Env) (call : Call)

def onEpisodic (f : Store EpisodicRecord → Store EpisodicRecord) : Op Unit :=
  modify fun db => {db with episodic := f db.episodic}

variable (id : MemoryId)

def readEpisodicRecord : Op EpisodicRecord := do
  let db ← get
  expect (db.episodic.find id) (.notFound ("episodic record "++ulid id))

def episodicHeadForLogicalId (logicalId : LogicalMemoryId) : Op EpisodicRecord := do
  let db ← get
  onEpisodic (·.touch env.episodicBackend logicalId)
  expect (db.episodic.headFor env.episodicBackend logicalId)
    (.notFound ("episodic logical memory "++ulid logicalId))

def episodicEditTarget : Op EpisodicRecord := do
  let record ← readEpisodicRecord id
  let head ← episodicHeadForLogicalId env record.logicalMemoryId
  require head.isLive
    (.invalidInput ("episodic logical memory "++ulid head.logicalMemoryId++" is not live"))
  pure head

/-- A new revision of an episode's chain, before its fields are updated. -/
def revisedEpisode (current : EpisodicRecord) (id : MemoryId) (operation : RevisionOperation)
    (reason : Option String) (now : Timestamp) : EpisodicRecord :=
  {current with
    id := id
    revisionId := id
    version := current.version+1
    revisionOperation := operation
    revisionReason := reason
    revisionCausationId := some current.id
    createdAt := now
    updatedAt := now
    lastAccessed := now
    supersededBy := none}

/-- An episode whose content has changed is embedded again. -/
def reembedded (current next : EpisodicRecord) : Except HirnError EpisodicRecord :=
  if next.body.content = current.body.content then .ok next else do
    let embedding ← env.embedText next.body.content
    .ok {next with body := {next.body with embedding := some embedding}}

def appendEpisodicSuccessor (current : EpisodicRecord) (operation : RevisionOperation)
    (reason : Option String) (archived : Bool) (update : EpisodicBody → EpisodicBody) :
    Op EpisodicRecord := do
  let next := revisedEpisode current (call.fresh 0) operation reason call.now
  let next := {next with archived := archived,body := update next.body}
  let next ← lift (reembedded env current next)
  raise call.fault
  onEpisodic (·.succeed next none)
  pure next

def pushNew {α : Type} [DecidableEq α] (l : List α) (a : α) : List α := if a ∈ l then l else l++[a]

def mergedBody (candidate body : EpisodicBody) : EpisodicBody :=
  {body with
    importance := max body.importance candidate.importance
    surprise := max body.surprise candidate.surprise
    entities := candidate.entities.foldl pushNew body.entities
    consolidationIds := candidate.consolidationIds.foldl pushNew body.consolidationIds}

def mergeAdmittedDuplicate (target : MemoryId) (candidate : EpisodicRecord) : Op MemoryId := do
  let current ← episodicEditTarget env target
  require (current.ns == candidate.ns) (.accessDenied ("admission merge target "++ulid target ++
    " is outside namespace '"++candidate.ns++"'"))
  let merged ← appendEpisodicSuccessor env call current .merge
    (some ("admission duplicate merged from candidate "++ulid candidate.id)) current.archived
    (mergedBody candidate.body)
  pure merged.id

/-- Remembering appends the row and leaves the head cache as it is. -/
def rememberAccepted (record : EpisodicRecord) : Op MemoryId := do
  let record := {record with body := call.ingest record.body}
  raise (dimensionMismatch env record.body.embedding)
  raise call.fault
  onEpisodic (·.append [record])
  pure record.id

def remember (record : EpisodicRecord) : Op MemoryId := do
  enforce env record.provenance.createdBy .remember record.ns
  match call.admission with
  | .refuse error => throw error
  | .merge target => mergeAdmittedDuplicate env call target record
  | .accept => rememberAccepted env call record

/-- Deletion removes every revision of the chain. The cached head stays. -/
def deleteEpisode : Op Unit := do
  let record ← readEpisodicRecord id
  let head ← episodicHeadForLogicalId env record.logicalMemoryId
  enforce env head.provenance.createdBy .forget head.ns
  raise call.fault
  onEpisodic (·.dropChain record.logicalMemoryId)

def archiveEpisode : Op Unit := do
  let record ← episodicEditTarget env id
  enforce env record.provenance.createdBy .forget record.ns
  let _ ← appendEpisodicSuccessor env call record .retract (some "episodic record archived") true
    fun b => b
end Hirn.Engine
