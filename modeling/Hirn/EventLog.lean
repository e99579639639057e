import Hirn.EventEnvelope
import Hirn.Fallible
import Hirn.HashChain
import Hirn.Runs

/-! The signed event log: rows of a dataset, the process that appends to it and compacts it, and
the sidecar file with the high-water mark. A step is what happens between two calls of the storage. -/
namespace Hirn.EventLog
open Bytes HashChain List EventEnvelope

/-- A row of the dataset. `eventType` is neither signed nor read back. -/
structure EventRow where
  seq : ℕ
  timestampUs : ℤ
  (realm ns agentId eventType : String)
  payload : List UInt8
  (hmac prevHmac : Option String)
  deriving DecidableEq

/-- The serialisers, and the hashes under the secret's two keys. -/
structure Externals where
  (bincode toVersionedBytes : MemoryEvent → List UInt8)
  fromVersionedBytes : List UInt8 → Option MemoryEvent
  (eventHash hwmHash : List UInt8 → List UInt8)
  fromVersionedBytes_toVersionedBytes : ∀ e, fromVersionedBytes (toVersionedBytes e) = some e

variable (ext : Externals)

def computeHmac (data : List UInt8) : String := hexEncode (ext.eventHash data)

variable (e : EventEnvelope)

def EventEnvelope.sign : EventEnvelope :=
  {e with hmac := some (computeHmac ext (signableBytes ext.bincode e))}

def EventEnvelope.signChained (prevHmac : Option String) : EventEnvelope :=
  sign ext {e with prevHmac := prevHmac}

def EventEnvelope.verifyHmac : Bool :=
  match e.hmac with
  | none => false
  | some stored => stored == computeHmac ext (signableBytes ext.bincode e)

def rowFor : EventRow where
  seq := e.seq
  timestampUs := e.timestampUs
  realm := e.realm
  ns := e.ns
  agentId := e.agentId
  eventType := e.event.eventType
  payload := ext.toVersionedBytes e.event
  hmac := e.hmac
  prevHmac := e.prevHmac

def envelopeOf (r : EventRow) : Option EventEnvelope :=
  (ext.fromVersionedBytes r.payload).map fun event =>
    {seq := r.seq,timestampUs := r.timestampUs,realm := r.realm,ns := r.ns,agentId := r.agentId,
      event := event,hmac := r.hmac,prevHmac := r.prevHmac}

inductive ChainError
  | unreadable (seq : ℕ)
  | invalidHmac (seq : ℕ)
  | missingBoundary (boundary seq : ℕ)
  | linkedRoot (seq : ℕ) (prevHmac : Option String)
  | gap (prevSeq seq : ℕ)
  | unlinked (seq : ℕ) (expected found : Option String)
  deriving DecidableEq

def decodeRows : List EventRow → Except ChainError (List EventEnvelope)
  | [] => .ok []
  | r::rows =>
    match envelopeOf ext r with
    | none => .error (.unreadable r.seq)
    | some e => (decodeRows rows).map (e::·)

/-- The scan orders by `seq`; the rows are decoded as they come. -/
def readAll (rows : List EventRow) : Except ChainError (List EventEnvelope) :=
  decodeRows ext (rows.insertionSort (fun r q => r.seq ≤ q.seq))

def MemoryEvent.beforeSeq : MemoryEvent → ℕ
  | .compactionCompleted beforeSeq _ => beforeSeq
  | _ => 0

/-- The highest `before_seq` of a checkpoint, 0 without one. -/
def boundary (es : List EventEnvelope) : ℕ := (es.map (·.event.beforeSeq)).foldr max 0

/-- The loop of `verify_chain`; the third argument is absent before the root. -/
def walkChain (boundary : ℕ) : Option (ℕ × Option String) → List EventEnvelope → Except ChainError Unit
  | _, [] => .ok ()
  | prev, e::es =>
    if verifyHmac ext e = false then .error (.invalidHmac e.seq)
    else if e.seq < boundary then walkChain boundary prev es
    else
      match prev with
      | none =>
        if 0 < boundary then
          if e.seq ≠ boundary then .error (.missingBoundary boundary e.seq)
          else walkChain boundary (some (e.seq,e.hmac)) es
        else if e.prevHmac.isSome then .error (.linkedRoot e.seq e.prevHmac)
        else walkChain boundary (some (e.seq,e.hmac)) es
      | some (prevSeq,prevTag) =>
        if e.seq ≠ prevSeq+1 then .error (.gap prevSeq e.seq)
        else if e.prevHmac ≠ prevTag then .error (.unlinked e.seq prevTag e.prevHmac)
        else walkChain boundary (some (e.seq,e.hmac)) es

def verifyChain (rows : List EventRow) : Except ChainError Unit :=
  (readAll ext rows).bind fun es => walkChain ext (boundary es) none es

structure HwmRecord where
  seq : ℕ
  (head mac : String)
  deriving DecidableEq

inductive Sidecar
  | absent
  | unparsable
  | holding (record : HwmRecord)
  deriving DecidableEq

inductive OpenError
  | unparsable
  | unauthentic
  | emptyDataset (recordSeq : ℕ)
  | rolledBack (recordSeq maxSeq : ℕ)
  | otherTag (maxSeq : ℕ)
  deriving DecidableEq

def hwmMac (seq : ℕ) (head : String) : List UInt8 := ext.hwmHash (toLeBytes 8 seq++bytes head)
def writeHwmFile (seq : ℕ) (head : String) : Sidecar :=
  .holding ⟨seq,head,hexEncode (hwmMac ext seq head)⟩

def loadHwmFile : Sidecar → Except OpenError (Option HwmRecord)
  | .absent => .ok none
  | .unparsable => .error .unparsable
  | .holding record =>
    if hexDecode record.mac = some (hwmMac ext record.seq record.head) then .ok (some record)
    else .error .unauthentic

def newestRow (rows : List EventRow) : Option EventRow := rows.argmax EventRow.seq

variable {rows : List EventRow}

theorem newestRow_eq_none : newestRow rows = none ↔ rows = [] := argmax_eq_none
theorem newestRow_mem (h : newestRow rows = some m) : m ∈ rows := argmax_mem h

theorem le_newestRow (h : newestRow rows = some m) {r : EventRow} (hr : r ∈ rows) : r.seq ≤ m.seq :=
  le_of_mem_argmax hr h

def recoverNextSeq (rows : List EventRow) : ℕ := ((newestRow rows).map (·.seq+1)).getD 0
def recoverChainHead (rows : List EventRow) : Option String := (newestRow rows).bind (·.hmac)

/-- What the sidecar holds behind the check, or why the log is not opened. -/
def checkAgainstHwm (sidecar : Sidecar) (nextSeq : ℕ) (chainHead : Option String) :
    Except OpenError Sidecar :=
  match loadHwmFile ext sidecar with
  | .error err => .error err
  | .ok none =>
    match chainHead with
    | some head => .ok (if 0 < nextSeq then writeHwmFile ext (nextSeq-1) head else sidecar)
    | none => .ok sidecar
  | .ok (some record) =>
    if nextSeq = 0 then .error (.emptyDataset record.seq)
    else if nextSeq-1 < record.seq then .error (.rolledBack record.seq (nextSeq-1))
    else if record.seq = nextSeq-1 ∧ chainHead ≠ some record.head then .error (.otherTag (nextSeq-1))
    else
      match chainHead with
      | some head => .ok (if record.seq < nextSeq-1 then writeHwmFile ext (nextSeq-1)
          head else sidecar)
      | none => .ok sidecar

/-- A compaction that has deleted its rows and has yet to append its checkpoint. -/
structure Compaction where
  (beforeSeq removed : ℕ)
  deriving DecidableEq

/-- The task that holds the chain head has signed its events, or stored them. -/
inductive Critical
  | signed (es : List EventEnvelope) (checkpoint : Option Compaction)
  | stored (es : List EventEnvelope)
  deriving DecidableEq

structure Process where
  nextSeq : ℕ
  chainHead : Option String
  critical : Option Critical
  compactions : List Compaction
  /-- A storage append has failed in this process. -/
  failed : Bool
  deriving DecidableEq

/-- What is durable, the process if one runs, and for the statements all that was ever stored or
acknowledged. -/
structure Log where
  rows : List EventRow
  sidecar : Sidecar
  process : Option Process
  history : List EventEnvelope
  acknowledged : List ℕ

def Log.empty : Log where
  rows := []
  sidecar := .absent
  process := none
  history := []
  acknowledged := []

/-- An event before the log gives it its number and its tags. -/
structure Draft where
  timestampUs : ℤ
  (realm ns agentId : String)
  event : MemoryEvent
  deriving DecidableEq

def signBatch : ℕ → Option String → List Draft → List EventEnvelope
  | _, _, [] => []
  | seq, prev, d::ds =>
    let e := signChained ext
      {seq := seq,timestampUs := d.timestampUs,realm := d.realm,ns := d.ns,agentId := d.agentId,
        event := d.event,hmac := none,prevHmac := none} prev
    e::signBatch (seq+1) e.hmac ds

def checkpointDraft (timestampUs : ℤ) (c : Compaction) : Draft :=
  ⟨timestampUs,"system","system","system",.compactionCompleted c.beforeSeq c.removed⟩

/-- The kinds that a compaction never deletes, by the column of the row. -/
def keptTypes : List String := ["access_granted","access_denied","policy_changed",
    "compaction_completed"]

/-- The predicate that `compact` hands to the storage. -/
def EventRow.compactable (beforeSeq : ℕ) (r : EventRow) : Bool :=
  decide (r.seq < beforeSeq) && !decide (r.eventType ∈ keptTypes)

inductive Event
  /-- The dataset and the sidecar are opened. -/
  | reopen
  /-- An append takes the lock and signs a batch, of one event for `append`. -/
  | begin (drafts : List Draft)
  /-- The deletion of a compaction. -/
  | delete (beforeSeq : ℕ)
  /-- A compaction gives up, since the storage could not be optimised. -/
  | abandon (i : ℕ)
  /-- A compaction takes the lock and signs its checkpoint. -/
  | checkpoint (i : ℕ) (timestampUs : ℤ)
  | stored
  | storeFailed
  /-- The sidecar has been written or has failed to be, and the call returns. -/
  | finish (written : Bool)
  | crash
  deriving DecidableEq

variable (guarded : Bool)

def openInner (rows : List EventRow) (sidecar : Sidecar) : Except OpenError (Process × Sidecar) :=
  let process : Process := ⟨recoverNextSeq rows,recoverChainHead rows,none,[],false⟩
  if guarded then
    (checkAgainstHwm ext sidecar (recoverNextSeq rows) (recoverChainHead rows)).map fun sidecar =>
    (process,sidecar)
  else .ok (process,sidecar)

def Process.sign (p : Process) (drafts : List Draft) (checkpoint : Option Compaction) : Process :=
  {p with nextSeq := p.nextSeq+drafts.length
          critical := some (.signed (signBatch ext p.nextSeq p.chainHead drafts) checkpoint)}

def advanceHwm (sidecar : Sidecar) (es : List EventEnvelope) : Sidecar :=
  match es.getLast? with
  | none => sidecar
  | some e => if guarded then (e.hmac.map (writeHwmFile ext e.seq)).getD sidecar else sidecar

/-- A step of a running process. -/
def stepProcess (s : Log) (p : Process) : Event → Log
  | .reopen => s
  | .begin drafts =>
    if p.critical = none ∧ drafts ≠ [] then
      {s with process := some (Process.sign ext p drafts none)} else s
  | .delete beforeSeq =>
    -- a dataset without events is compacted too; without a dataset `compact` returns before this step
    {s with rows := s.rows.filter (fun r => !r.compactable beforeSeq)
            process := some {p with compactions :=
              p.compactions++[⟨beforeSeq,s.rows.countP (fun r => r.compactable beforeSeq)⟩]}}
  | .abandon i => {s with process := some {p with compactions := p.compactions.eraseIdx i}}
  | .checkpoint i timestampUs =>
    match p.compactions[i]?, p.critical with
    | some c, none =>
      {s with process := some (Process.sign ext {p with compactions := p.compactions.eraseIdx i}
                 [checkpointDraft timestampUs c] (some c))}
    | _, _ => s
  | .stored =>
    match p.critical with
    | some (.signed es _) =>
      {s with rows := s.rows++es.map (rowFor ext)
              history := s.history++es
              process := some {p with chainHead := (es.getLast?.bind (·.hmac)),critical := some (.stored es)}}
    | _ => s
  | .storeFailed =>
    match p.critical with
    | some (.signed _ _) => {s with process := some {p with critical := none,failed := true}}
    | _ => s
  | .finish written =>
    match p.critical with
    | some (.stored es) =>
      if written ∨ guarded = false then
        {s with sidecar := advanceHwm ext guarded s.sidecar es
                acknowledged := s.acknowledged++es.map (·.seq)
                process := some {p with critical := none}}
      else {s with process := some {p with critical := none}}
    | _ => s
  | .crash => {s with process := none}

def step (s : Log) (a : Event) : Log :=
  match s.process with
  | some p => stepProcess ext guarded s p a
  | none =>
    match a with
    | .reopen =>
      match openInner ext guarded s.rows s.sidecar with
      | .ok (p,sidecar) => {s with process := some p,sidecar := sidecar}
      | .error _ => s
    | _ => s

variable {ext guarded} in
theorem step_closed {s : Log} {a : Event} (hp : s.process = none) (ha : a ≠ .reopen) :
    step ext guarded s a = s := by
  cases a <;> simp_all [step]

variable {ext guarded} in
theorem openInner_eq_ok {p : Process} {rows : List EventRow} {sidecar sidecar' : Sidecar}
    (h : openInner ext guarded rows sidecar = .ok (p,sidecar')) :
    p = ⟨recoverNextSeq rows,recoverChainHead rows,none,[],false⟩ := by
  cases guarded with
  | false => exact (Prod.mk.inj (Except.ok.inj h)).1.symm
  | true =>
    obtain ⟨sc,-,hp⟩ := Fallible.map_eq_ok.mp h
    exact (Prod.mk.inj hp).1.symm

variable {ext}

theorem envelopeOf_rowFor (e : EventEnvelope) : envelopeOf ext (rowFor ext e) = some e := by
  rw [envelopeOf,rowFor,ext.fromVersionedBytes_toVersionedBytes]
  rfl

def EventEnvelope.Signed (ext : Externals) (e : EventEnvelope) : Prop :=
  e.hmac = some (computeHmac ext (signableBytes ext.bincode e))

theorem verifyHmac_eq_true {e : EventEnvelope} : verifyHmac ext e ↔ EventEnvelope.Signed ext e := by
  rw [verifyHmac,EventEnvelope.Signed]
  cases e.hmac with
  | none => simp
  | some tag => simp

variable {n : ℕ} {prev : Option String} {drafts : List Draft}

theorem signBatch_seq : (signBatch ext n prev drafts).map (·.seq) = List.range' n drafts.length := by
  induction drafts generalizing n prev with
  | nil => rfl
  | cons d drafts ih =>
    rw [signBatch,map_cons,ih]
    rfl

@[simp] theorem length_signBatch : (signBatch ext n prev drafts).length = drafts.length := by
  have h : ((signBatch ext n prev drafts).map (·.seq)).length =
    (List.range' n drafts.length).length := by
    rw [signBatch_seq]
  rwa [length_map,length_range'] at h

theorem signBatch_nonempty (h : drafts ≠ []) : signBatch ext n prev drafts ≠ [] := by
  intro hnil
  have hlength : drafts.length = 0 := by rw [← length_signBatch (n := n),hnil,length_nil]
  exact h (length_eq_zero_iff.mp hlength)

theorem signBatch_signed {e : EventEnvelope} (he : e ∈ signBatch ext n prev drafts) :
    EventEnvelope.Signed ext e := by
  induction drafts generalizing n prev with
  | nil => cases he
  | cons d drafts ih =>
    rcases mem_cons.mp he with rfl | he
    · rfl
    · exact ih he

theorem signBatch_linked : Linked prevHmac hmac prev (signBatch ext n prev drafts) := by
  induction drafts generalizing n prev with
  | nil => trivial
  | cons d drafts ih => exact ⟨rfl,ih⟩

theorem signBatch_event : (signBatch ext n prev drafts).map (·.event) = drafts.map (·.event) := by
  induction drafts generalizing n prev with
  | nil => rfl
  | cons d drafts ih =>
    rw [signBatch,map_cons,ih]
    rfl

def sampleText (bs : List UInt8) : Option String := String.fromUTF8? ⟨bs.toArray⟩

/-- Reads what `sampleBincode` writes. -/
def sampleDecode : List UInt8 → Option MemoryEvent
  | [] => none
  | kind::bs =>
    let n := (bs.takeWhile (· = 1)).length
    let rest := (bs.dropWhile (· = 1)).tail
    if kind = 1 then (sampleText rest).map (.snapshotTaken n)
    else if kind = 2 then some (.compactionCompleted n rest.length)
    else (sampleText rest).map (.recorded (EventKind.ofNat n))

theorem sampleText_bytes (s : String) : sampleText (bytes s) = some s := by
  have hbytes : (⟨(bytes s).toArray⟩ : ByteArray) = s.toUTF8 := rfl
  have hvalid : s.toUTF8.IsValidUTF8 := s.isValidUTF8
  rw [sampleText,hbytes,String.fromUTF8?,dif_pos hvalid]
  rfl

theorem sampleDecode_sampleBincode (e : MemoryEvent) : sampleDecode (sampleBincode e) = some e := by
  cases e with
  | snapshotTaken seq tag => simp [sampleBincode,sampleDecode,sampleText_bytes]
  | compactionCompleted beforeSeq removed => simp [sampleBincode,sampleDecode]
  | recorded kind body =>
    simp [sampleBincode,sampleDecode,sampleText_bytes,EventKind.ofNat_ctorIdx]

def sampleHash (bs : List UInt8) : List UInt8 := toLeBytes 32 (bs.foldl (fun h b => h*257+b.toNat+1) 0)

def sampleExternals : Externals where
  bincode := sampleBincode
  toVersionedBytes := sampleBincode
  fromVersionedBytes := sampleDecode
  eventHash := sampleHash
  hwmHash bs := sampleHash (1::bs)
  fromVersionedBytes_toVersionedBytes := sampleDecode_sampleBincode

def sampleDraft (n : ℕ) : Draft := ⟨n,"acme","shared","agent",.recorded .workingPushed ""⟩

/-- The steps of an append that returns `Ok`. -/
def appended (n : ℕ) : List Event := [.begin [sampleDraft n],.stored,.finish true]
end Hirn.EventLog
