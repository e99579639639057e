import Hirn.CallRules
import Hirn.EpisodeAging

/-! The episodic store under calls that run side by side: remembering, new revisions, reads through the
head cache, deletion, and the buffered accesses that a flush writes to the rows. -/
namespace Hirn.Engine
namespace EpisodeCalls
open Chains Calls
open Aging (AgedEpisode Settings decay heads recordAccess)

/-- The episodes, the cache of their heads and the buffered accesses; and as a record of the run the
ids, deletions, rows and accesses that the statements speak of. -/
structure State where
  episodes : Store AgedEpisode
  accesses : List MemoryId
  born : List (MemoryId × LogicalMemoryId)
  owed : List (ℕ × LogicalMemoryId)
  deleted : List (MemoryId × LogicalMemoryId)
  plain : List AgedEpisode
  initial : LogicalMemoryId → ℕ
  recorded : List MemoryId
  taken : List (ℕ × MemoryId)
  held : List (ℕ × AgedEpisode)
  restarted : Bool

def State.empty : State := ⟨Store.empty,[],[],[],[],[],fun _ => 0,[],[],[],false⟩

def State.restart (s : State) : State :=
  {s with episodes := ⟨s.episodes.rows,fun _ => none⟩,accesses := [],owed := [],restarted := true}

inductive StoreOp
  | look
  /-- A call to the graph or to the embedder. -/
  | outside
  | appendFirst (r : AgedEpisode)
  /-- The revision that follows a row that the call has read. -/
  | appendNext (c : ℕ) (current r : AgedEpisode)
  /-- The cached head is compared and replaced in one step; the source looks it up and puts the new one in two. -/
  | cacheHead (c : ℕ) (r : AgedEpisode)
  | evictHead (logicalId : LogicalMemoryId)
  | dropChain (id : MemoryId) (logicalId : LogicalMemoryId)
  | access (id : MemoryId)
  | drain (c : ℕ)
  | beginAccess (c : ℕ) (id : MemoryId)
  | readRows (ids : List MemoryId)
  | dropRows (c : ℕ) (rows : List AgedEpisode)
  | appendRows (c : ℕ) (rows : List AgedEpisode)

def StoreOp.inMemory : StoreOp → Bool
  | .cacheHead _ _ | .evictHead _ | .access _ | .drain _ | .beginAccess _ _ => true
  | _ => false

def effect : StoreOp → State → State
  | .appendFirst r, s => {s with
      episodes := s.episodes.append [r]
      born := s.born++[(r.id,r.logicalMemoryId)]
      plain := s.plain++[r]
      initial := Function.update s.initial r.logicalMemoryId r.accessCount}
  | .appendNext c _ r, s => {s with
      episodes := s.episodes.append [r]
      born := s.born++[(r.id,r.logicalMemoryId)]
      owed := s.owed++[(c,r.logicalMemoryId)]
      plain := s.plain++[r]}
  | .cacheHead c r, s => {s with
      episodes := s.episodes.cacheHead r
      owed := s.owed.filter (· != (c,r.logicalMemoryId))}
  | .evictHead k, s => {s with episodes := s.episodes.evict k}
  | .dropChain id k, s => {s with
      episodes := s.episodes.dropChain k
      deleted := s.deleted++[(id,k)]
      plain := s.plain.filter (·.logicalMemoryId != k)}
  | .access id, s => {s with accesses := s.accesses++[id],recorded := s.recorded++[id]}
  | .drain c, s => {s with accesses := [],taken := s.taken++s.accesses.map (c,·)}
  | .beginAccess c id, s => {s with taken := s.taken++[(c,id)],recorded := s.recorded++[id]}
  | .dropRows c rows, s => {s with
      episodes := {s.episodes with rows := s.episodes.rows.filter fun r => !(rows.map (·.id)).contains r.id}
      held := s.held++(s.episodes.rows.filter fun r => (rows.map (·.id)).contains r.id).map (c,·)}
  | .appendRows c rows, s => {s with
      episodes := s.episodes.append rows
      taken := s.taken.filter fun x => !(x.1 == c && (rows.map (·.id)).contains x.2)
      held := s.held.filter (·.1 != c)}
  | .look, s | .outside, s | .readRows _, s => s

inductive Admission
  | accept
  | merge (target : MemoryId)
  | refuse (error : HirnError)

structure Env where
  settings : Settings
  admission : State → AgedEpisode → Admission
  embedText : String → List ℚ
  fresh : ℕ → ℕ → MemoryId

inductive Answer
  | done
  | record (r : AgedEpisode)
  | records (rs : List AgedEpisode)
  deriving DecidableEq

def Answer.served : Answer → List AgedEpisode
  | .done => []
  | .record r => [r]
  | .records rs => rs

abbrev Act := Calls.Action HirnError StoreOp State
def backendError : HirnError := .storageError "storage backend"
def look {α : Type} (f : State → α) : Act α := f <$> request .look backendError
def write (o : StoreOp) : Act Unit := (fun _ => ()) <$> request o backendError

/-- An error is given on behind a removal from the graph that is only tried. -/
def undoing (m : Act Unit) : Act Unit := do
  let outcome ← attempt m
  match outcome with
  | .ok _ => pure ()
  | .error e => do
    let _ ← attempt (write .outside)
    throw e

variable (env : Env) (c : ℕ) (now : Timestamp)

def readEpisodicRecord (id : MemoryId) : Act AgedEpisode := do
  let found ← look (·.episodes.find id)
  expect found (.notFound ("episodic record "++ulid id))

/-- The cached head, or the newest row, which is cached then. -/
def episodicHeadForLogicalId (k : LogicalMemoryId) : Act AgedEpisode := do
  let cached ← look (·.episodes.heads k)
  match cached with
  | some r => pure r
  | none => do
    let loaded ← look (·.episodes.loadHead env.settings.backend k)
    match loaded with
    | some r => do
      write (.cacheHead c r)
      pure r
    | none => do
      write (.evictHead k)
      throw (.notFound ("episodic logical memory "++ulid k))

def liveHeads (heads : List AgedEpisode) : List AgedEpisode := heads.filter (·.isLive)

/-- Newest rows that are not cached are cached; chains without a live head are evicted. -/
def loadLiveHeads (cached : List AgedEpisode) (missing : List LogicalMemoryId) :
    Act (List AgedEpisode) := do
  let rows ← look fun s => s.episodes.rows.filter fun r => missing.contains r.logicalMemoryId
  forEach (fun r => write (.cacheHead c r)) (missing.dedup.filterMap (Store.collapse rows))
  forEach (fun k => write (.evictHead k)) (missing.filter fun k =>
    !((cached++liveHeads (missing.dedup.filterMap (Store.collapse rows))).map
      (·.logicalMemoryId)).contains k)
  pure (cached++liveHeads (missing.dedup.filterMap (Store.collapse rows)))

def liveEpisodicHeadsForLogicalIds (ks : List LogicalMemoryId) : Act (List AgedEpisode) := do
  let cached ← look fun s => s.episodes.heads
  if (ks.filter fun k => (cached k).isNone).isEmpty then pure (liveHeads (ks.filterMap cached))
  else loadLiveHeads c (liveHeads (ks.filterMap cached)) (ks.filter fun k => (cached k).isNone)

def episodicEditTarget (id : MemoryId) : Act AgedEpisode := do
  let record ← readEpisodicRecord id
  let head ← episodicHeadForLogicalId env c record.logicalMemoryId
  require head.isLive (.invalidInput ("episodic logical memory "++ulid head.logicalMemoryId++
    " is not live"))
  pure head

structure Edit where
  operation : RevisionOperation
  reason : String
  archives : Bool
  body : EpisodicBody → EpisodicBody

def nextRevision (current : AgedEpisode) (edit : Edit) (id : MemoryId) : AgedEpisode :=
  {current with toEpisodicRecord :=
    {revisedEpisode current.toEpisodicRecord id edit.operation (some edit.reason) now with
      archived := current.archived || edit.archives
      body := edit.body current.body}}

def reembedded (current next : AgedEpisode) : Act AgedEpisode :=
  if next.body.content = current.body.content then pure next
  else do
    write .outside
    pure {next with body := {next.body with embedding := some (env.embedText next.body.content)}}

def applySimilarityEdges (next : AgedEpisode) : Act Unit :=
  if next.isLive && next.body.embedding.isSome then undoing (write .outside) else pure ()

/-- Node and edges first, then the row, which is cached; the old node may stay. -/
def appendEpisodicSuccessor (i : ℕ) (current : AgedEpisode) (edit : Edit) : Act Unit := do
  let next ← reembedded env current (nextRevision now current edit (env.fresh c i))
  write .outside
  undoing (write .outside)
  applySimilarityEdges next
  undoing (write (.appendNext c current next))
  write (.cacheHead c next)
  let _ ← attempt (write .outside)
  pure ()

def mergeAdmittedDuplicate (target : MemoryId) (candidate : AgedEpisode) : Act Unit := do
  let current ← episodicEditTarget env c target
  require (current.ns == candidate.ns) (.accessDenied ("admission merge target "++ulid target ++
    " is outside namespace '"++candidate.ns++"'"))
  appendEpisodicSuccessor env c now 0 current ⟨.merge,"admission duplicate merged from candidate "++
    ulid candidate.id,false,mergedBody candidate.body⟩

/-- Remembering appends the row and leaves the head cache as it is. -/
def remember (record : AgedEpisode) : Act Unit := do
  raise (env.settings.denial record.provenance.createdBy .remember record.ns)
  let admission ← look fun s => env.admission s record
  match admission with
  | .refuse error => throw error
  | .merge target => mergeAdmittedDuplicate env c now target record
  | .accept => do
    -- the envelope and the node, then the edges, the row, the temporal edge and the event
    write .outside
    write .outside
    undoing (write .outside)
    undoing (write (.appendFirst record))
    let _ ← attempt (write .outside)
    write .outside

variable (id : MemoryId)

def archiveEpisode : Act Unit := do
  let head ← episodicEditTarget env c id
  raise (env.settings.denial head.provenance.createdBy .forget head.ns)
  appendEpisodicSuccessor env c now 0 head ⟨.retract,"episodic record archived",true,fun b => b⟩

def updateEpisode (update : EpisodicBody → EpisodicBody) : Act Unit := do
  let head ← episodicEditTarget env c id
  appendEpisodicSuccessor env c now 0 head ⟨.correct,"episodic record corrected",false,update⟩

def decayOne (i : ℕ) (r : AgedEpisode) : Act Unit :=
  match decay env.settings now r with
  | some change => appendEpisodicSuccessor env c now i r ⟨change.operation,change.reason,
      change.archives,fun b => {b with importance := change.importance}⟩
  | none => pure ()

def decayEach : ℕ → List AgedEpisode → Act Unit
  | _, [] => pure ()
  | i, r::rest => do
    decayOne env c now i r
    decayEach (i+1) rest

def decayMemories : Act Unit := do
  let current ← look fun s => env.settings.values (heads s.episodes.rows)
  decayEach env c now 0 current

/-- The nodes are removed if that works, then all rows. The cached head stays. -/
def deleteEpisode : Act Unit := do
  let record ← readEpisodicRecord id
  let head ← episodicHeadForLogicalId env c record.logicalMemoryId
  raise (env.settings.denial head.provenance.createdBy .forget head.ns)
  let history ← look (·.episodes.chainRows record.logicalMemoryId)
  forEach (fun _ => do
    let _ ← attempt (write .outside)
    pure ()) history
  write (.dropChain id record.logicalMemoryId)

def counts (accesses : List MemoryId) : List (MemoryId × ℕ) :=
  accesses.dedup.map fun id => (id,accesses.count id)

def recordAccesses (r : AgedEpisode) : ℕ → AgedEpisode
  | 0 => r
  | n+1 => recordAccess (recordAccesses r n) now

def chunkSize : ℕ := 256

def readEpisodicRecordsBatch : List (List MemoryId) → Act (List AgedEpisode)
  | [] => pure []
  | ids::rest => do
    let s ← request (.readRows ids) backendError
    let others ← readEpisodicRecordsBatch rest
    pure (ids.filterMap s.episodes.find++others)

/-- The records that were found are deleted in chunks and appended with their accesses, beside the head
cache. -/
def applyEpisodeAccessCounts (counts : List (MemoryId × ℕ)) : Act Unit :=
  if counts.isEmpty then pure ()
  else do
    let found ← readEpisodicRecordsBatch ((counts.map Prod.fst).toChunks chunkSize)
    if found.isEmpty then pure ()
    else do
      forEach (fun rows => write (.dropRows c rows)) (found.toChunks chunkSize)
      write (.appendRows c (found.map fun r => recordAccesses now r ((counts.lookup r.id).getD 0)))

def flushEpisodicAccess : Act Unit := do
  let s ← request (.drain c) backendError
  applyEpisodeAccessCounts c now (counts s.accesses)

def recordEpisodeAccess : Act Unit := do
  write (.beginAccess c id)
  applyEpisodeAccessCounts c now [(id,1)]

inductive Request
  | remember (record : AgedEpisode)
  | archive (id : MemoryId)
  | update (id : MemoryId) (f : EpisodicBody → EpisodicBody)
  | decay
  | delete (id : MemoryId)
  | access (id : MemoryId)
  | flush
  | recordAccess (id : MemoryId)
  | get (id : MemoryId)
  | head (k : LogicalMemoryId)
  | liveHeads (ks : List LogicalMemoryId)

def answer (env : Env) (c : ℕ) (now : Timestamp) : Request → Act Answer
  | .remember record => (fun _ => .done) <$> remember env c now record
  | .archive id => (fun _ => .done) <$> archiveEpisode env c now id
  | .update id f => (fun _ => .done) <$> updateEpisode env c now id f
  | .decay => (fun _ => .done) <$> decayMemories env c now
  | .delete id => (fun _ => .done) <$> deleteEpisode env c id
  | .access id => (fun _ => .done) <$> write (.access id)
  | .flush => (fun _ => .done) <$> flushEpisodicAccess c now
  | .recordAccess id => (fun _ => .done) <$> recordEpisodeAccess c now id
  | .get id => .record <$> readEpisodicRecord id
  | .head k => .record <$> episodicHeadForLogicalId env c k
  | .liveHeads ks => .records <$> liveEpisodicHeadsForLogicalIds c ks

def serve (env : Env) (c : ℕ) (call : Timestamp × Request) :
    Prog StoreOp State (Except HirnError Answer) :=
  (answer env c call.1 call.2).run

abbrev Episodes := Pool (Timestamp × Request) StoreOp State (Except HirnError Answer)

def after (env : Env) (events : List (Event (Timestamp × Request))) : Episodes :=
  Runs.exec (Pool.stepWith effect State.restart (serve env)) ⟨State.empty,[]⟩ events

instance (t : Option (Prog StoreOp State (Except HirnError Answer))) :
    Decidable (t = none ∨ ∃ reply, t = some (.done reply)) :=
  match t with
  | none => .isTrue (.inl rfl)
  | some (.done reply) => .isTrue (.inr ⟨reply,rfl⟩)
  | some (.call _ _) => .isFalse (by rintro (h | ⟨_,h⟩) <;> cases h)

def Quiescent (p : Episodes) : Prop := ∀ t ∈ p.tasks, t.2 = none ∨ ∃ reply, t.2 = some (.done reply)
  deriving Decidable

def reply? (p : Episodes) (c : ℕ) : Option (Except HirnError Answer) :=
  match p.tasks[c]? with
  | some (_,some (.done reply)) => some reply
  | _ => none

def plainEnv : Env := ⟨Aging.halvedSettings,fun _ _ => .accept,fun _ => [],fun c i => 1000*(c+1)+i⟩

def alone (c n : ℕ) (call : Timestamp × Request) : List (Event (Timestamp × Request)) :=
  .start call::List.replicate n (.step c true)
end EpisodeCalls
end Hirn.Engine
