import Hirn.EpisodicEdits
import Hirn.Runs

/-! An agent's view of the database: access checks, sharing and promotion, and the requests that
a database serves one after the other. -/
namespace Hirn.Engine
open Chains Effects
variable (env : Env) (call : Call)

def getMemory (db : Db) (id : MemoryId) : Except HirnError MemoryRecord :=
  match db.working.find? (·.id == id), db.episodic.find id, db.semantic.find id,
    db.procedural.find? (·.id == id) with
  | some w, _, _, _ => .ok (.working w)
  | none, some e, _, _ => .ok (.episodic e)
  | none, none, some s, _ => .ok (.semantic s)
  | none, none, none, some p => .ok (.procedural p)
  | none, none, none, none => .error (.notFound ("memory record "++ulid id))

structure AgentContext where
  agentId : AgentId
  accessibleNamespaces : List Namespace

variable (ctx : AgentContext)

def AgentContext.canAccess (ns : Namespace) : Bool :=
  ctx.accessibleNamespaces.contains ns

def AgentContext.checkAccess (ns : Namespace) : Op Unit :=
  require (ctx.canAccess ns)
    (.accessDenied ("agent '"++ctx.agentId++"' cannot access namespace '"++ns++"'"))

/-- The copy of an episode: a new id, author and namespace, the same chain. -/
def episodicCopy (e : EpisodicRecord) (target : Namespace) : EpisodicRecord :=
  {e with id := call.fresh 1,ns := target,provenance := {e.provenance with createdBy := ctx.agentId}}

def semanticCopy (s : SemanticRecord) (target : Namespace) : SemanticRecord :=
  {s with id := call.fresh 1,ns := target,provenance := {s.provenance with createdBy := ctx.agentId}}

def shareMemory (id : MemoryId) (target : Namespace) : Op MemoryId := do
  let db ← get
  let record ← lift (getMemory db id)
  ctx.checkAccess record.effectiveNamespace
  ctx.checkAccess target
  match record with
  | .episodic e =>
    let newId ← remember env call (episodicCopy call ctx e target)
    raise call.linkFault
    pure newId
  | .semantic s =>
    let newId ← storeSemantic env call (semanticCopy call ctx s target)
    raise call.linkFault
    pure newId
  | .working _ => throw (.invalidInput "cannot share working memory entries")
  | .procedural _ => throw (.invalidInput "cannot share procedural memory entries")

def promotable : MemoryRecord → Option HirnError
  | .semantic _ => none
  | .episodic _ => some (.invalidInput "only semantic records can be promoted to shared")
  | .working _ => some (.invalidInput "cannot promote working memory")
  | .procedural _ => some (.invalidInput "cannot promote procedural memory")

def promoteToShared (ctx : AgentContext) (id : MemoryId) : Op MemoryId := do
  let db ← get
  let record ← lift (getMemory db id)
  raise (promotable record)
  shareMemory env call ctx id shared

/-- The requests that write semantic records and episodes. -/
inductive Request
  | storeSemantic (record : SemanticRecord)
  | correct (id : MemoryId) (update : SemanticUpdate)
  | supersede (id : MemoryId) (supersession : SemanticUpdate)
  | override (id : MemoryId) (request : SemanticUpdate)
  | merge (target : MemoryId) (merge : SemanticMerge)
  | retract (id : MemoryId) (retraction : SemanticRetraction)
  | purge (id : MemoryId) (actorId : Option AgentId)
  | remember (record : EpisodicRecord)
  | archive (id : MemoryId)
  | delete (id : MemoryId)
  | share (ctx : AgentContext) (id : MemoryId) (target : Namespace)
  | promote (ctx : AgentContext) (id : MemoryId)

def perform : Request → Op Unit
  | .storeSemantic record => discard (storeSemantic env call record)
  | .correct id update => discard (correctSemantic env call id update)
  | .supersede id supersession => discard (supersedeSemantic env call id supersession)
  | .override id request => discard (overrideSemantic env call id request)
  | .merge target merge => discard (mergeSemantic env call target merge)
  | .retract id retraction => discard (retractSemantic env call id retraction)
  | .purge id actorId => purgeSemanticAs env call id actorId
  | .remember record => discard (remember env call record)
  | .archive id => archiveEpisode env call id
  | .delete id => deleteEpisode env call id
  | .share ctx id target => discard (shareMemory env call ctx id target)
  | .promote ctx id => discard (promoteToShared env call ctx id)

def step (db : Db) (request : Call × Request) : Db := (run (perform env request.1 request.2) db).2
end Hirn.Engine
