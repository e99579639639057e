import Hirn.Bytes

/-! Events of the database and their envelopes. The envelope is signed over bytes in which the
texts are joined with a zero byte, and a tag that is absent stands as an empty text. -/
namespace Hirn.EventLog
open Bytes List

/-- The kinds of events that the log itself does not look into. -/
inductive EventKind
  | episodeCreated | semanticCreated | proceduralCreated | memoryCorrected | memorySuperseded
  | memoryOverridden | memoryMerged | memoryRetracted | workingPushed | importanceUpdated
  | reconsolidated | edgeCreated | edgeWeightUpdated | archived | forgotten | consolidated
  | admissionEvaluated | hypothesisGenerated | hypothesisValidated | hypothesisDiscarded
  | accessGranted | accessDenied | policyChanged | memoryRecalled | contradictionDetected
  | causalEdgeDiscovered | error | unknown
  deriving DecidableEq

def EventKind.name : EventKind → String
  | .episodeCreated => "episode_created"
  | .semanticCreated => "semantic_created"
  | .proceduralCreated => "procedural_created"
  | .memoryCorrected => "memory_corrected"
  | .memorySuperseded => "memory_superseded"
  | .memoryOverridden => "memory_overridden"
  | .memoryMerged => "memory_merged"
  | .memoryRetracted => "memory_retracted"
  | .workingPushed => "working_pushed"
  | .importanceUpdated => "importance_updated"
  | .reconsolidated => "reconsolidated"
  | .edgeCreated => "edge_created"
  | .edgeWeightUpdated => "edge_weight_updated"
  | .archived => "archived"
  | .forgotten => "forgotten"
  | .consolidated => "consolidated"
  | .admissionEvaluated => "admission_evaluated"
  | .hypothesisGenerated => "hypothesis_generated"
  | .hypothesisValidated => "hypothesis_validated"
  | .hypothesisDiscarded => "hypothesis_discarded"
  | .accessGranted => "access_granted"
  | .accessDenied => "access_denied"
  | .policyChanged => "policy_changed"
  | .memoryRecalled => "memory_recalled"
  | .contradictionDetected => "contradiction_detected"
  | .causalEdgeDiscovered => "causal_edge_discovered"
  | .error => "error"
  | .unknown => "unknown"

inductive MemoryEvent
  | snapshotTaken (seq : ℕ) (tag : String)
  | compactionCompleted (beforeSeq eventsRemoved : ℕ)
  | recorded (kind : EventKind) (body : String)
  deriving DecidableEq

def MemoryEvent.eventType : MemoryEvent → String
  | .snapshotTaken _ _ => "snapshot_taken"
  | .compactionCompleted _ _ => "compaction_completed"
  | .recorded kind _ => kind.name

structure EventEnvelope where
  seq : ℕ
  timestampUs : ℤ
  (realm ns agentId : String)
  event : MemoryEvent
  (hmac prevHmac : Option String)
  deriving DecidableEq

/-- The numbers are a `u64` and an `i64`. -/
structure EventEnvelope.InRange (e : EventEnvelope) : Prop where
  seq_lt : e.seq < 2^64
  le_timestamp : -2^63 ≤ e.timestampUs
  timestamp_lt : e.timestampUs < 2^63

variable (bincode : MemoryEvent → List UInt8)

def signableBytes (e : EventEnvelope) : List UInt8 :=
  toLeBytes 8 e.seq++toLeBytesInt 8 e.timestampUs++bytes e.realm++[0]++bytes e.ns++[0] ++
    bytes e.agentId++[0]++(e.prevHmac.map bytes).getD []++[0]++bincode e.event

/-- All that is signed is the same; only the tag may differ. -/
structure EventEnvelope.Agree (a b : EventEnvelope) : Prop where
  seq : a.seq = b.seq
  timestampUs : a.timestampUs = b.timestampUs
  realm : a.realm = b.realm
  ns : a.ns = b.ns
  agentId : a.agentId = b.agentId
  prevHmac : a.prevHmac = b.prevHmac
  event : a.event = b.event

def EventEnvelope.texts (e : EventEnvelope) : String :=
  e.realm++"\x00"++e.ns++"\x00"++e.agentId++"\x00"++e.prevHmac.getD ""

variable {bincode} {a b : EventEnvelope}

theorem signableBytes_eq (e : EventEnvelope) : signableBytes bincode e =
    toLeBytes 8 e.seq++toLeBytesInt 8 e.timestampUs++(bytes e.texts++0::bincode e.event) := by
  have hzero : bytes "\x00" = [0] := by decide +kernel
  have hprev : (e.prevHmac.map bytes).getD [] = bytes (e.prevHmac.getD "") := by
    cases e.prevHmac with
    | none => rfl
    | some t => rfl
  simp only [signableBytes,EventEnvelope.texts,bytes_append,hzero,hprev,append_assoc,
    cons_append,nil_append]

theorem signableBytes_inj (ha : a.InRange) (hb : b.InRange) :
    signableBytes bincode b = signableBytes bincode a ↔ b.seq = a.seq ∧ b.timestampUs = a.timestampUs ∧
      bytes b.texts++0::bincode b.event = bytes a.texts++0::bincode a.event := by
  rw [signableBytes_eq,signableBytes_eq]
  constructor
  · intro h
    obtain ⟨hhead,hrest⟩ := append_inj h (by simp)
    obtain ⟨hseq,htime⟩ := append_inj hhead (by simp)
    refine ⟨toLeBytes_inj (lt_of_lt_of_eq hb.seq_lt (by norm_num))
      (lt_of_lt_of_eq ha.seq_lt (by norm_num)) hseq,toLeBytesInt_inj ?_ htime,hrest⟩
    have := ha.le_timestamp
    have := ha.timestamp_lt
    have := hb.le_timestamp
    have := hb.timestamp_lt
    omega
  · rintro ⟨hseq,htime,hrest⟩
    rw [hseq,htime,hrest]

theorem count_texts (e : EventEnvelope) : (bytes e.texts).count 0 = (bytes e.realm).count 0 +
    (bytes e.ns).count 0 + (bytes e.agentId).count 0 + (bytes (e.prevHmac.getD "")).count 0 + 3 := by
  have hzero : bytes "\x00" = [0] := by decide +kernel
  simp only [EventEnvelope.texts,bytes_append,hzero,count_append,count_singleton_self]
  omega

/-- The texts have no zero character and the envelope follows a tag. -/
structure EventEnvelope.Plain (e : EventEnvelope) : Prop where
  realm : '\x00' ∉ e.realm.toList
  ns : '\x00' ∉ e.ns.toList
  agentId : '\x00' ∉ e.agentId.toList
  prevHmac : ∃ tag, e.prevHmac = some tag ∧ tag ≠ "" ∧ '\x00' ∉ tag.toList

theorem EventEnvelope.Plain.count_texts (h : a.Plain) : (bytes a.texts).count 0 = 3 := by
  obtain ⟨tag,htag,-,hprev⟩ := h.prevHmac
  have hnone : ∀ s : String, '\x00' ∉ s.toList → (bytes s).count 0 = 0 := by
    intro s hs
    exact count_eq_zero.mpr (mt zero_mem_bytes.mp hs)
  rw [EventLog.count_texts,hnone _ h.realm,hnone _ h.ns,hnone _ h.agentId,htag,Option.getD_some,
    hnone _ hprev]

theorem texts_inj (h : a.Plain) (htexts : bytes b.texts = bytes a.texts) :
    b.realm = a.realm ∧ b.ns = a.ns ∧ b.agentId = a.agentId ∧ b.prevHmac = a.prevHmac := by
  have hcount := count_texts b
  rw [htexts,h.count_texts] at hcount
  have hfree : ∀ s : String, (bytes s).count 0 = 0 → 0 ∉ bytes s := fun s hs => count_eq_zero.mp hs
  have hrealm := hfree b.realm (by omega)
  have hns := hfree b.ns (by omega)
  have hagent := hfree b.agentId (by omega)
  have hzero : bytes "\x00" = [0] := by decide +kernel
  simp only [EventEnvelope.texts,bytes_append,hzero,append_assoc,cons_append,
    nil_append] at htexts
  obtain ⟨h₁,htexts⟩ := separated_inj hrealm (mt zero_mem_bytes.mp h.realm) htexts
  obtain ⟨h₂,htexts⟩ := separated_inj hns (mt zero_mem_bytes.mp h.ns) htexts
  obtain ⟨h₃,htexts⟩ := separated_inj hagent (mt zero_mem_bytes.mp h.agentId) htexts
  refine ⟨bytes_injective h₁,bytes_injective h₂,bytes_injective h₃,?_⟩
  obtain ⟨tag,htag,hne,-⟩ := h.prevHmac
  have hprev := bytes_injective htexts
  rw [htag,Option.getD_some] at hprev
  cases hb : b.prevHmac with
  | none =>
    rw [hb] at hprev
    exact absurd hprev.symm hne
  | some t =>
    rw [hb,Option.getD_some] at hprev
    rw [htag,hprev]

def Unsplit (bincode : MemoryEvent → List UInt8) (event : MemoryEvent) : Prop :=
  ∀ (front : String) (inner : MemoryEvent), bincode event ≠ bytes front++0::bincode inner

theorem agree_of_plain (hbincode : Function.Injective bincode) (ha : a.InRange) (hb : b.InRange)
    (hplain : a.Plain) (hsplit : Unsplit bincode a.event)
    (h : signableBytes bincode b = signableBytes bincode a) : b.Agree a := by
  obtain ⟨hseq,htime,hrest⟩ := (signableBytes_inj ha hb).mp h
  rcases append_eq_append_iff.mp hrest with ⟨u,htexts,hevent⟩ | ⟨u,htexts,hevent⟩
  · -- the texts of `b` end earlier: those of `a` would have a fourth zero byte
    cases u with
    | nil =>
      rw [append_nil] at htexts
      obtain ⟨hrealm,hns,hagent,hprev⟩ := texts_inj hplain htexts.symm
      exact ⟨hseq,htime,hrealm,hns,hagent,hprev,hbincode (List.cons.inj hevent).2⟩
    | cons z u =>
      obtain ⟨rfl,-⟩ := List.cons.inj hevent
      have hcount := hplain.count_texts
      rw [htexts,count_append,count_texts,count_cons_self] at hcount
      omega
  · cases u with
    | nil =>
      rw [append_nil] at htexts
      obtain ⟨hrealm,hns,hagent,hprev⟩ := texts_inj hplain htexts
      exact ⟨hseq,htime,hrealm,hns,hagent,hprev,hbincode (List.cons.inj hevent).2.symm⟩
    | cons z u =>
      -- the texts of `b` reach into the event of `a`
      obtain ⟨rfl,hinner⟩ := List.cons.inj hevent
      obtain ⟨r,-,hr⟩ := bytes_eq_append htexts
      have hzero : bytes "\x00" = [0] := by decide +kernel
      have hr' : bytes r = bytes "\x00"++u := by rw [← hr,hzero,singleton_append]
      obtain ⟨front,-,rfl⟩ := bytes_eq_append hr'
      exact absurd hinner (hsplit front b.event)

theorem exists_zero_split {s : String} (h : '\x00' ∈ s.toList) : ∃ l r, s = l++"\x00"++r := by
  obtain ⟨l,r,hlr⟩ := append_of_mem h
  refine ⟨String.ofList l,String.ofList r,?_⟩
  apply String.toList_inj.mp
  simp [hlr]

theorem ne_append_zero (l r : String) : l ≠ l++"\x00"++r := by
  intro h
  have hlength := congrArg String.length h
  rw [String.length_append,String.length_append] at hlength
  have : "\x00".length = 1 := rfl
  omega

def Unique (bincode : MemoryEvent → List UInt8) (a : EventEnvelope) : Prop :=
  ∀ b : EventEnvelope, b.InRange → signableBytes bincode b = signableBytes bincode a → b.Agree a

theorem Unique.texts (ha : a.InRange) (hunique : Unique bincode a) (realm ns agentId : String)
    (prevHmac : Option String) (event : MemoryEvent)
    (h : bytes (EventEnvelope.texts ⟨a.seq,a.timestampUs,realm,ns,agentId,event,none,prevHmac⟩) ++
      0::bincode event = bytes a.texts++0::bincode a.event) :
    realm = a.realm ∧ ns = a.ns ∧ agentId = a.agentId ∧ prevHmac = a.prevHmac := by
  have hb : EventEnvelope.InRange ⟨a.seq,a.timestampUs,realm,ns,agentId,event,none,prevHmac⟩ :=
    ⟨ha.seq_lt,ha.le_timestamp,ha.timestamp_lt⟩
  have hagree := hunique _ hb ((signableBytes_inj ha hb).mpr ⟨rfl,rfl,h⟩)
  exact ⟨hagree.realm,hagree.ns,hagree.agentId,hagree.prevHmac⟩

/-- A zero character is a second place to cut, an empty tag an absent one. -/
theorem Unique.plain (ha : a.InRange) (hunique : Unique bincode a) : a.Plain := by
  have hprev : ∃ tag, a.prevHmac = some tag ∧ tag ≠ "" := by
    cases hcase : a.prevHmac with
    | none =>
      have hother := hunique.texts ha a.realm a.ns a.agentId (some "") a.event
        (by simp [EventEnvelope.texts,hcase])
      rw [hcase] at hother
      exact absurd hother.2.2.2 (by simp)
    | some tag =>
      refine ⟨tag,rfl,?_⟩
      rintro rfl
      have hother := hunique.texts ha a.realm a.ns a.agentId none a.event
        (by simp [EventEnvelope.texts,hcase])
      rw [hcase] at hother
      exact absurd hother.2.2.2 (by simp)
  obtain ⟨tag,htag,hne⟩ := hprev
  refine ⟨?_,?_,?_,tag,htag,hne,?_⟩
  · intro hzero
    obtain ⟨l,r,hlr⟩ := exists_zero_split hzero
    have hmoved := hunique.texts ha l (r++"\x00"++a.ns) a.agentId a.prevHmac a.event
      (by simp [EventEnvelope.texts,hlr,String.append_assoc])
    exact ne_append_zero l r (hmoved.1.trans hlr)
  · intro hzero
    obtain ⟨l,r,hlr⟩ := exists_zero_split hzero
    have hmoved := hunique.texts ha (a.realm++"\x00"++l) r a.agentId a.prevHmac a.event
      (by simp [EventEnvelope.texts,hlr,String.append_assoc])
    exact ne_append_zero a.realm l hmoved.1.symm
  · intro hzero
    obtain ⟨l,r,hlr⟩ := exists_zero_split hzero
    have hmoved := hunique.texts ha a.realm (a.ns++"\x00"++l) r a.prevHmac a.event
      (by simp [EventEnvelope.texts,hlr,String.append_assoc])
    exact ne_append_zero a.ns l hmoved.2.1.symm
  · intro hzero
    obtain ⟨l,r,hlr⟩ := exists_zero_split hzero
    have hmoved := hunique.texts ha a.realm a.ns (a.agentId++"\x00"++l) (some r) a.event
      (by simp [EventEnvelope.texts,htag,hlr,String.append_assoc])
    exact ne_append_zero a.agentId l hmoved.2.2.1.symm

theorem Unique.unsplit (ha : a.InRange) (hunique : Unique bincode a) : Unsplit bincode a.event := by
  intro front inner hsplit
  have hzero : bytes "\x00" = [0] := by decide +kernel
  have hmoved := hunique.texts ha (a.realm++"\x00"++a.ns) a.agentId (a.prevHmac.getD "")
    (some front) inner (by simp [EventEnvelope.texts,hsplit,bytes_append,hzero])
  exact ne_append_zero a.realm a.ns hmoved.1.symm

/-- Signed bytes have one envelope exactly if it is plain and its event has no split. -/
theorem signed_encoding_unique_iff {bincode : MemoryEvent → List UInt8} {a : EventEnvelope}
    (hbincode : Function.Injective bincode) (ha : a.InRange) :
    Unique bincode a ↔ a.Plain ∧ Unsplit bincode a.event := by
  constructor
  · intro hunique
    exact ⟨hunique.plain ha,hunique.unsplit ha⟩
  · rintro ⟨hplain,hsplit⟩ b hb h
    exact agree_of_plain hbincode ha hb hplain hsplit h

/-- Numbers in unary, then a zero byte, then the rest. -/
def sampleBincode : MemoryEvent → List UInt8
  | .snapshotTaken seq tag => 1::List.replicate seq 1++0::bytes tag
  | .compactionCompleted beforeSeq eventsRemoved =>
    2::List.replicate beforeSeq 1++0::List.replicate eventsRemoved 1
  | .recorded kind body => 3::List.replicate kind.ctorIdx 1++0::bytes body

theorem unary_inj {m n : ℕ} {u v : List UInt8}
    (h : List.replicate m 1++0::u = List.replicate n 1++0::v) : m = n ∧ u = v := by
  have hfree : ∀ k, (0 : UInt8) ∉ List.replicate k 1 := by
    intro k hk
    exact absurd (eq_of_mem_replicate hk) (by decide)
  obtain ⟨hunary,hrest⟩ := separated_inj (hfree m) (hfree n) h
  exact ⟨replicate_left_injective 1 hunary,hrest⟩

theorem sampleBincode_injective : Function.Injective sampleBincode := by
  intro e f h
  rcases e with ⟨m,s⟩ | ⟨m,k⟩ | ⟨kind,s⟩ <;> rcases f with ⟨n,t⟩ | ⟨n,l⟩ | ⟨kind',t⟩ <;>
    obtain ⟨hhead,htail⟩ := List.cons.inj h
  case snapshotTaken.snapshotTaken =>
    obtain ⟨rfl,hrest⟩ := unary_inj htail
    rw [bytes_injective hrest]
  case compactionCompleted.compactionCompleted =>
    obtain ⟨rfl,hrest⟩ := unary_inj htail
    rw [replicate_left_injective 1 hrest]
  case recorded.recorded =>
    obtain ⟨hkind,hrest⟩ := unary_inj htail
    rw [bytes_injective hrest,← EventKind.ofNat_ctorIdx kind,hkind,EventKind.ofNat_ctorIdx]
  all_goals exact absurd hhead (by decide)

/-- The first of two envelopes with the same bytes: a realm with a zero character. -/
def shiftedEnvelope : EventEnvelope :=
  ⟨1,0,"acme\x00prod","shared","ada",.recorded .archived "",none,some "aa"⟩

def sampleEnvelope : EventEnvelope := ⟨1,0,"acme","shared","ada",.recorded .archived "",none,some "aa"⟩

theorem signed_encoding_unique_sample : Function.Injective sampleBincode ∧ sampleEnvelope.InRange ∧
    Unique sampleBincode sampleEnvelope := by
  have hrange : sampleEnvelope.InRange := ⟨by decide,by decide,by decide⟩
  refine ⟨sampleBincode_injective,hrange,
    (signed_encoding_unique_iff sampleBincode_injective hrange).mpr ⟨?_,?_⟩⟩
  · exact ⟨by decide,by decide,by decide,"aa",rfl,by decide,by decide⟩
  · intro front inner h
    -- each encoding has a zero byte of its own, this one has no other
    have hzero : 0 ∈ sampleBincode inner := by
      cases inner <;> simp [sampleBincode]
    have hpos := count_pos_iff.mpr hzero
    have hcount := congrArg (List.count 0) h
    rw [count_append,count_cons_self,
      show List.count 0 (sampleBincode sampleEnvelope.event) = 1 by decide +kernel] at hcount
    omega

/-- One character moves from the realm to the namespace; the bytes stay. -/
theorem signed_encoding_collides : ∃ b : EventEnvelope, b.InRange ∧
    signableBytes sampleBincode b = signableBytes sampleBincode shiftedEnvelope ∧
    b.realm = "acme" ∧ b.ns = "prod\x00shared" := by
  refine ⟨{shiftedEnvelope with realm := "acme",ns := "prod\x00shared"},
    ⟨by decide,by decide,by decide⟩,?_,rfl,rfl⟩
  decide +kernel
end Hirn.EventLog
