import Hirn.Bytes
import Hirn.Runs

/-! The audit trail of the policy runtime. Each entry is signed together with the tag of its
predecessor under a lock, then stored; the dataset is read back, ordered and checked as a whole. -/
namespace Hirn.Audit
open Bytes

abbrev MemoryId := Fin (2^128)

def validAgentId (s : String) : Bool :=
  s ≠ "" ∧ (bytes s).length ≤ 128 ∧ s.toList.all fun c => c.isAlphanum || c == '_' ||
  c == '.' || c == '-'

/-- Agent ids are checked when they are made. -/
structure AgentId where
  text : String
  valid : validAgentId text = true

def AgentId.new (s : String) : Option AgentId :=
  if h : validAgentId s = true then some ⟨s,h⟩ else none

/-- What `AuditEntry::new` is given and draws, before the entry has a place. -/
structure Draft (α : Type) where
  id : MemoryId
  timestamp : ℤ
  actor : Option AgentId
  action : α

structure AuditEntry (α : Type) extends Draft α where
  seq : ℕ
  (hmac prevHmac : Option String)

/-- A row of the dataset `_audit`. -/
structure AuditRow where
  id : String
  seq : ℕ
  timestampMs : ℤ
  actor : Option String
  actionJson : List UInt8
  (hmac prevHmac : Option String)

/-- Code of other crates: ULIDs as text, JSON of actions, and the keyed hash. -/
structure Externals (α : Type) where
  idText : MemoryId → String
  parseId : String → Option MemoryId
  toJson : α → List UInt8
  fromJson : List UInt8 → Option α
  computeHmac : List UInt8 → List UInt8 → List UInt8
  parseId_idText : ∀ id, parseId (idText id) = some id
  length_idText : ∀ id, (bytes (idText id)).length < 256^4
  length_computeHmac : ∀ key content, (computeHmac key content).length = 32

variable {α : Type} (ext : Externals α)

def toRow (e : AuditEntry α) : AuditRow :=
  ⟨ext.idText e.id,e.seq,e.timestamp,e.actor.map (·.text),ext.toJson e.action,e.hmac,e.prevHmac⟩

def maxUtcMs : ℤ := 8210266876799999

/-- A stored number is read as unsigned, up to the last time. -/
def fromMillis (ms : ℤ) : ℤ := if 0 ≤ ms ∧ ms ≤ maxUtcMs then ms else maxUtcMs

/-- A null is no actor; a text has to be an agent id. -/
def readActor : Option String → Option (Option AgentId)
  | none => some none
  | some text => (AgentId.new text).map some

def fromRow (r : AuditRow) : Option (AuditEntry α) := do
  let id ← ext.parseId r.id
  let actor ← readActor r.actor
  let action ← ext.fromJson r.actionJson
  return ⟨⟨id,fromMillis r.timestampMs,actor,action⟩,r.seq,r.hmac,r.prevHmac⟩

def Precedes (e f : AuditEntry α) : Prop := e.seq < f.seq ∨ e.seq = f.seq ∧ e.timestamp ≤ f.timestamp
  deriving Decidable

def fromRows : List AuditRow → Option (List (AuditEntry α))
  | [] => some []
  | r::rows => do
    let e ← fromRow ext r
    let es ← fromRows rows
    return e::es

def auditLog (rows : List AuditRow) : Option (List (AuditEntry α)) :=
  (fromRows ext rows).map (List.insertionSort Precedes)

def content (e : AuditEntry α) : List UInt8 :=
  framed [toLeBytes 8 e.seq,bytes (ext.idText e.id),toLeBytesInt 8 e.timestamp,
    bytes ((e.actor.map (·.text)).getD ""),bytes (e.prevHmac.getD ""),ext.toJson e.action]

def auditEntryTag (key : List UInt8) (e : AuditEntry α) : String :=
  hexEncode (ext.computeHmac key (content ext e))

def auditEntryTagValid (key : List UInt8) (e : AuditEntry α) : Bool :=
  e.hmac.bind hexDecode == some (ext.computeHmac key (content ext e))

inductive AuditError
  | unreadable
  | seqGap (prevSeq seq : ℕ)
  | badTag (seq : ℕ)
  | unlinked (seq : ℕ) (expected found : Option String)
  deriving DecidableEq

inductive AuditChainVerification
  | unsigned
  | verified (entries : ℕ)
  deriving DecidableEq

/-- The loop over the entries, with the number and the tag of the one before. -/
def walk (key : List UInt8) : Option ℕ → Option String → List (AuditEntry α) → Except AuditError Unit
  | _, _, [] => .ok ()
  | prevSeq, prevTag, e::es =>
    match prevSeq.filter (fun ps => e.seq ≠ ps+1) with
    | some ps => .error (.seqGap ps e.seq)
    | none =>
      if auditEntryTagValid ext key e = false then .error (.badTag e.seq)
      else if e.prevHmac ≠ prevTag then .error (.unlinked e.seq prevTag e.prevHmac)
      else walk key (some e.seq) e.hmac es

def verifyAuditChain (auditKey : Option (List UInt8)) (rows : List AuditRow) :
    Except AuditError AuditChainVerification :=
  match auditKey with
  | none => .ok .unsigned
  | some key =>
    match auditLog ext rows with
    | none => .error .unreadable
    | some entries => (walk ext key none none entries).map fun _ => .verified entries.length

/-- The dataset and the running process. For the statements it counts the appends that returned `Ok`,
and knows whether one failed behind the last row. -/
structure Trail (α : Type) where
  rows : List AuditRow
  nextAuditSeq : ℕ
  chainHead : Option String
  critical : Option (AuditEntry α × Bool)
  acknowledged : ℕ
  skipped : Bool

def Trail.unreturned (s : Trail α) : ℕ := if s.critical.any (·.2) then 1 else 0
def Trail.empty : Trail α := ⟨[],0,none,none,0,false⟩

def recoverAuditChainState (rows : List AuditRow) : ℕ × Option String :=
  match rows.foldl (fun (best : Option AuditRow) r =>
      if best.all (fun b => b.seq < r.seq) then some r else best) none with
  | none => (0,none)
  | some r => (r.seq+1,r.hmac)

/-- An append takes the lock and signs, is stored, returns; the process may end anywhere. -/
inductive Event (α : Type)
  | begin (draft : Draft α)
  | stored | failed | returned | restart

def sign (key : List UInt8) (draft : Draft α) (seq : ℕ) (head : Option String) : AuditEntry α :=
  let entry : AuditEntry α := ⟨draft,seq,none,head⟩
  {entry with hmac := some (auditEntryTag ext key entry)}

/-- What cannot happen changes nothing: who finds the lock taken waits. -/
def step (key : List UInt8) (s : Trail α) : Event α → Trail α
  | .begin draft =>
    match s.critical with
    | some _ => s
    | none =>
      {s with
        nextAuditSeq := s.nextAuditSeq+1
        critical := some (sign ext key draft s.nextAuditSeq s.chainHead,false)}
  | .stored =>
    match s.critical with
    | some (e,false) =>
      {s with rows := s.rows++[toRow ext e],critical := some (e,true),skipped := false}
    | _ => s
  | .failed =>
    match s.critical with
    | some (_,false) => {s with critical := none,skipped := s.skipped || !s.rows.isEmpty}
    | _ => s
  | .returned =>
    match s.critical with
    | some (e,true) => {s with chainHead := e.hmac,critical := none,acknowledged := s.acknowledged+1}
    | _ => s
  | .restart =>
    {s with
      nextAuditSeq := (recoverAuditChainState s.rows).1
      chainHead := (recoverAuditChainState s.rows).2
      critical := none
      skipped := false}
end Hirn.Audit
