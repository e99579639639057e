import Hirn.CallRules
import Hirn.Records

/-! The review of quarantined records: quarantining, approval with what it promotes, rejection, and the
rollback of an approval. Every operation is a program of single calls, and reviews run side by side. -/
namespace Hirn.Quarantine
open Engine Calls

inductive QuarantineStatus
  | pending | approved | rejected | rolledBack
  deriving DecidableEq

inductive GeneratedCognitionDecision
  | pendingReview | rejectedByQualityGate | approved | rejected | rolledBack
  deriving DecidableEq

/-- The review of a generated record, with the ids that its approval has applied. -/
structure GeneratedCognitionReview where
  decision : GeneratedCognitionDecision
  reasons : List String
  rollbackReceipt : Option (List MemoryId)
  rollbackReason : Option String
  rolledBackBy : Option AgentId
  rolledBackAt : Option Timestamp

def GeneratedCognitionReview.allowsPromotion (review : GeneratedCognitionReview) : Bool :=
  review.decision == .pendingReview

/-- An episode, perhaps with a time before which it is not reviewed, a semantic record, or one that
proposes to reconcile others. -/
inductive Quarantined
  | episodic (reviewNotBefore : Option Timestamp)
  | semantic
  | reconcileProposal
  deriving DecidableEq

structure QuarantineRow where
  memoryId : MemoryId
  content : Quarantined
  status : QuarantineStatus
  reviewedBy : Option AgentId
  reviewedAt : Option Timestamp
  generatedReview : Option GeneratedCognitionReview

/-- The quarantine and the ids in the main store and the graph; and as a record of the run the rows
still to be written, all ids that were quarantined, promoted or applied, and every change of a status.
-/
structure Store where
  rows : List QuarantineRow
  (main nodes : List MemoryId)
  holes : List (ℕ × MemoryId × QuarantineStatus)
  owed : List (ℕ × MemoryId)
  entered : List (MemoryId × Quarantined)
  (promotions applied : List MemoryId)
  moves : List (MemoryId × QuarantineStatus × QuarantineStatus)

def Store.empty : Store := ⟨[],[],[],[],[],[],[],[],[]⟩

inductive StoreOp
  | look
  | appendRow (row : QuarantineRow)
  | deleteRow (c : ℕ) (id : MemoryId) (loaded next : QuarantineStatus)
  | putRow (c : ℕ) (row : QuarantineRow)
  /-- Node and row of a record in one step; the source adds the node first and the row later. -/
  | promote (c : ℕ) (id : MemoryId)
  | mergeInto (id target : MemoryId)
  /-- All that `approve_reconcile_proposal` applies, in one step. -/
  | reconcile (c : ℕ) (entry : MemoryId) (ids : List MemoryId)
  | deleteSemantic (c : ℕ) (entry id : MemoryId)
  | removeNode (id : MemoryId)
  | restoreHeads
  | audit

def effect : StoreOp → Store → Store
  | .appendRow row, s => {s with rows := s.rows++[row],entered := s.entered++[(row.memoryId,row.content)]}
  | .deleteRow c id _ _, s => {s with
      rows := s.rows.filter (·.memoryId != id)
      holes := s.holes++(s.rows.filter (·.memoryId == id)).map fun row => (c,id,row.status)}
  | .putRow c row, s => {s with
      rows := s.rows++[row]
      holes := s.holes.filter fun h => !(h.1 == c && h.2.1 == row.memoryId)
      owed := s.owed.filter (· != (c,row.memoryId))
      moves := s.moves++(s.holes.filter fun h => h.1 == c && h.2.1 == row.memoryId).map fun h =>
        (row.memoryId,h.2.2,row.status)}
  | .promote c id, s => {s with
      main := s.main++[id]
      nodes := s.nodes++[id]
      owed := s.owed++[(c,id)]
      promotions := s.promotions++[id]}
  | .reconcile c entry ids, s => {s with
      main := s.main++ids
      nodes := s.nodes++ids
      owed := s.owed++[(c,entry)]
      promotions := s.promotions++[entry]
      applied := s.applied++ids}
  | .deleteSemantic c entry id, s => {s with
      main := s.main.filter (· != id)
      owed := s.owed++if id = entry then [(c,id)] else []}
  | .removeNode id, s => {s with nodes := s.nodes.filter (· != id)}
  | .look, s | .mergeInto _ _, s | .restoreHeads, s | .audit, s => s

/-- A record is stored, merged, refused, or put in quarantine once more. -/
inductive Admission
  | store
  | merge (target : MemoryId)
  | refuse (error : HirnError)
  | quarantine (error : HirnError)

/-- The write path's decision, a proposal's application, heads, and the ids handed out. -/
structure Env where
  admission : Store → QuarantineRow → Admission
  reconcile : Store → MemoryId → Except HirnError ℕ
  advanced : Store → MemoryId → Bool
  fresh : ℕ → ℕ → MemoryId

abbrev Act := Action HirnError StoreOp Store
def backendError : HirnError := .storageError "storage backend"
def look {α : Type} (f : Store → α) : Act α := f <$> request .look backendError
def write (o : StoreOp) : Act Unit := (fun _ => ()) <$> request o backendError

section
variable (env : Env) (c : ℕ) (now : Timestamp) (id : MemoryId)

/-- Quarantining ends in an error, with the row stored and the event audited. -/
def quarantineRecord (content : Quarantined) (decision : Option GeneratedCognitionDecision) :
    Act Unit := do
  write (.appendRow ⟨id,content,.pending,none,none,decision.map fun d => ⟨d,[],none,none,none,none⟩⟩)
  write .audit
  throw (.quarantined ("memory "++ulid id++" quarantined"))

def loadQuarantineRow : Act QuarantineRow := do
  let found ← look fun s => s.rows.find? (·.memoryId == id)
  expect found (.notFound ("quarantine entry "++ulid id))

/-- The status that the caller has loaded is only a record of the run. -/
def replaceQuarantineRow (loaded : QuarantineStatus) (row : QuarantineRow) : Act Unit := do
  write (.deleteRow c row.memoryId loaded row.status)
  write (.putRow c row)

variable (row : QuarantineRow)

/-- Store the record, unless a node shows that it is there. -/
def storeRecord : Act Unit := do
  let present ← look fun s => s.nodes.contains row.memoryId
  if present then pure ()
  else do
    let admission ← look fun s => env.admission s row
    match admission with
    | .store => write (.promote c row.memoryId)
    | .merge target => write (.mergeInto row.memoryId target)
    | .refuse error => throw error
    | .quarantine error => do
      write (.appendRow {row with status := .pending,reviewedBy := none,reviewedAt := none,generatedReview := none})
      write .audit
      throw error

def approvedReview (review : Option GeneratedCognitionReview) (applied : List MemoryId) :
    Option GeneratedCognitionReview :=
  review.map fun r => {r with rollbackReceipt := some applied,decision := .approved}

/-- Promote what is quarantined, and give back the review that goes to the row. -/
def promoteRecord : Act (Option GeneratedCognitionReview) :=
  match row.content with
  | .episodic reviewNotBefore => do
    require (!reviewNotBefore.any (· > now)) (.invalidInput ("quarantine entry "++ulid row.memoryId ++
      " cannot be reviewed before "++toString (reviewNotBefore.getD 0)))
    storeRecord env c row
    pure none
  | .semantic => do
    storeRecord env c row
    pure (approvedReview row.generatedReview [row.memoryId])
  | .reconcileProposal => do
    let outcome ← look fun s => env.reconcile s row.memoryId
    match outcome with
    | .error error => throw error
    | .ok n => do
      write (.reconcile c row.memoryId ((List.range n).map (env.fresh c)))
      write .audit
      pure (approvedReview row.generatedReview ((List.range n).map (env.fresh c)))

def approveQuarantine (approvedBy : AgentId) : Act Unit := do
  let row ← loadQuarantineRow id
  require (row.status == .pending) (.invalidInput ("quarantine entry "++ulid id++
    " is not pending review"))
  require (row.generatedReview.all (·.allowsPromotion))
    (.invalidInput ("quarantine entry "++ulid id++" failed the generated cognition quality gate"))
  let review ← promoteRecord env c now row
  replaceQuarantineRow c row.status {row with
    status := .approved,reviewedBy := some approvedBy,reviewedAt := some now,generatedReview := review}
  write .audit

def rejectQuarantine : Act Unit := do
  let row ← loadQuarantineRow id
  replaceQuarantineRow c row.status {row with
    status := .rejected
    reviewedAt := some now
    generatedReview := row.generatedReview.map fun r =>
      {r with decision := .rejected,reasons := r.reasons++["rejected during quarantine review"]}}
  write .audit

def validateReceipt : List MemoryId → Act Unit
  | [] => pure ()
  | id::rest => do
    let present ← look fun s => s.main.contains id
    require present (.notFound ("semantic record "++ulid id))
    let advanced ← look fun s => env.advanced s id
    require (!advanced) (.invalidInput
      ("rollback cannot proceed because the logical memory advanced beyond generated revision "++
      ulid id))
    validateReceipt rest

/-- The row goes; a node that cannot be removed is left. -/
def deleteGenerated (entry : MemoryId) : List MemoryId → Act Unit
  | [] => pure ()
  | id::rest => do
    write (.deleteSemantic c entry id)
    let _ ← attempt (write (.removeNode id))
    deleteGenerated entry rest

def rollbackQuarantineApproval (rolledBackBy : AgentId) (reason : String) : Act Unit := do
  let row ← loadQuarantineRow id
  require (row.status == .approved) (.invalidInput ("quarantine entry "++ulid id++" is not approved"))
  let review ← expect row.generatedReview (.invalidInput ("quarantine entry "++ulid id ++
    " does not carry generated cognition rollback metadata"))
  let receipt ← expect review.rollbackReceipt (.invalidInput ("quarantine entry "++ulid id ++
    " cannot be rolled back because no rollback receipt was recorded"))
  validateReceipt env receipt
  deleteGenerated c row.memoryId receipt
  write .restoreHeads
  replaceQuarantineRow c row.status {row with
    status := .rolledBack
    reviewedBy := some rolledBackBy
    reviewedAt := some now
    generatedReview := some {review with
      decision := .rolledBack,rollbackReason := some reason,rolledBackBy := some rolledBackBy,
      rolledBackAt := some now}}
  write .audit
end

inductive Request
  | quarantine (id : MemoryId) (content : Quarantined) (decision : Option GeneratedCognitionDecision)
  | approve (id : MemoryId) (approvedBy : AgentId)
  | reject (id : MemoryId)
  | rollback (id : MemoryId) (rolledBackBy : AgentId) (reason : String)
  deriving DecidableEq

def serve (env : Env) (c : ℕ) (call : Timestamp × Request) :
    Prog StoreOp Store (Except HirnError Unit) :=
  match call.2 with
  | .quarantine id content decision => (quarantineRecord id content decision).run
  | .approve id approvedBy => (approveQuarantine env c call.1 id approvedBy).run
  | .reject id => (rejectQuarantine c call.1 id).run
  | .rollback id rolledBackBy reason => (rollbackQuarantineApproval env c call.1 id rolledBackBy
      reason).run

def Moves : QuarantineStatus → QuarantineStatus → Bool
  | .pending, .approved | .approved, .rolledBack | .pending, .rejected => true
  | _, _ => false

/-- A step may be made: a record is quarantined once and before it is stored, promoted or applied once
while its entry is pending, taken back while it is approved, and a row is replaced while it has the
status that the caller has loaded, which for a rejection is pending. -/
def Store.Admits (s : Store) : StoreOp → Prop
  | .appendRow row => row.memoryId ∉ s.entered.map Prod.fst ∧ row.memoryId ∉ s.main ∧
      row.memoryId ∉ s.nodes ∧ row.memoryId ∉ s.applied
  | .promote _ id => (∃ row ∈ s.rows, row.memoryId = id ∧ row.status = .pending) ∧ id ∉ s.main
  | .mergeInto _ _ => False
  | .reconcile _ entry ids => (∃ row ∈ s.rows, row.memoryId = entry ∧ row.status = .pending) ∧
      (∀ x ∈ s.owed, x.2 ≠ entry) ∧ ∀ id ∈ ids, id ∉ s.entered.map Prod.fst
  | .deleteSemantic _ entry _ => ∃ row ∈ s.rows, row.memoryId = entry ∧ row.status = .approved
  | .deleteRow _ id loaded next => (∃ row ∈ s.rows, row.memoryId = id ∧ row.status = loaded) ∧
      (next = .rejected → loaded = .pending)
  | _ => True

instance (s : Store) (o : StoreOp) : Decidable (s.Admits o) := by
  cases o <;> unfold Store.Admits <;> infer_instance

/-- The call has no row to complete: none to write again, promote or delete. -/
def Store.Free (c : ℕ) (s : Store) : Prop := (∀ x ∈ s.owed, x.1 ≠ c) ∧ ∀ x ∈ s.holes, x.1 ≠ c
  deriving Decidable

/-- A removal from the graph may fail, since it is tried only. -/
def StoreOp.isTried : StoreOp → Bool
  | .removeNode _ => true
  | _ => false

/-- A step that succeeds may be made; one that fails leaves nothing to complete. -/
def Allowed (c : ℕ) (_ : Timestamp × Request) (s : Store) (o : StoreOp) (succeeds : Bool) : Prop :=
  (succeeds = true → s.Admits o) ∧ (succeeds = false → o.isTried = true ∨ s.Free c)

instance (c : ℕ) (call : Timestamp × Request) (s : Store) (o : StoreOp) (succeeds : Bool) :
    Decidable (Allowed c call s o succeeds) := inferInstanceAs (Decidable (_ ∧ _))

def StopsWhole (p : Pool (Timestamp × Request) StoreOp Store (Except HirnError Unit))
    (e : Event (Timestamp × Request)) :
    Prop := e = .crash → p.store.holes = []

instance (p : Pool (Timestamp × Request) StoreOp Store (Except HirnError Unit))
    (e : Event (Timestamp × Request)) :
    Decidable (StopsWhole p e) := inferInstanceAs (Decidable (_ → _))
end Hirn.Quarantine
