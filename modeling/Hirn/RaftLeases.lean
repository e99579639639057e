import Hirn.Runs
import Hirn.Token

/-! The cluster metadata that Raft replicates, and what applying a log of requests does to the
consolidation leases in it: who may take a lease over, and which fence each acquisition gets. -/
namespace Hirn.Raft
open Runs Function
open Token (saturatingAdd)

abbrev NodeId := ℕ

/-- Ids order by the leader that wrote the entry, then by position. -/
structure LogId where
  term : ℕ
  leader : NodeId
  index : ℕ

structure ConsolidationLease where
  holder : NodeId
  (acquiredAt expiresAt : ℕ)
  realm : String
  fence : ℕ
  deriving DecidableEq

namespace ConsolidationLease

def new (realm : String) (holder : NodeId) (durationSecs acquiredAt fence : ℕ) : ConsolidationLease :=
  ⟨holder,acquiredAt,saturatingAdd acquiredAt durationSecs,realm,fence⟩

def isExpiredAt (l : ConsolidationLease) (now : ℕ) : Bool := decide (l.expiresAt ≤ now)

def renewAt (l : ConsolidationLease) (durationSecs now : ℕ) : ConsolidationLease :=
  {l with expiresAt := saturatingAdd now durationSecs}
end ConsolidationLease

structure Membership where
  configs : List (List NodeId)
  nodes : List (NodeId × String)
  deriving DecidableEq, Inhabited

structure StoredMembership where
  logId : Option LogId
  membership : Membership
  deriving Inhabited

/-- The replicated data. The trees of the source are kept as partial functions. -/
@[ext] structure StateMachineData where
  lastAppliedLog : Option LogId
  lastMembership : StoredMembership
  realmOwners : String → Option NodeId
  nodes : NodeId → Option String
  leases : String → Option ConsolidationLease
  leaseFenceCounter : ℕ

instance : Inhabited StateMachineData :=
  ⟨⟨none,default,fun _ => none,fun _ => none,fun _ => none,0⟩⟩

inductive RaftRequest
  | assignRealm (realm : String) (ownerNode : NodeId)
  | releaseRealm (realm : String)
  | acquireLease (realm : String) (holder : NodeId) (durationSecs proposedAtEpochSecs : ℕ)
  | releaseLease (realm : String) (holder : NodeId)
  | renewLease (realm : String) (holder : NodeId) (durationSecs proposedAtEpochSecs : ℕ)
  | registerNode (nodeId : NodeId) (addr : String)
  | deregisterNode (nodeId : NodeId)

inductive RaftResponse
  | ok
  | leaseConflict (holder : NodeId) (expiresAtEpochSecs : ℕ)
  | leaseRenewalFailed (realm : String)
  | nodeRegistered (nodeId : NodeId)
  | realmAssigned (realm : String) (owner : NodeId)
  deriving DecidableEq

variable (data : StateMachineData)

/-- The lease that an acquisition meets: another node's, not expired by the request's time. -/
def StateMachineData.conflicting (realm : String) (holder : NodeId) (proposedAt : ℕ) :
    Option ConsolidationLease :=
  (data.leases realm).filter fun l => !l.isExpiredAt proposedAt && l.holder != holder

def applyRequest : RaftRequest → StateMachineData × RaftResponse
  | .assignRealm realm owner =>
    ({data with realmOwners := update data.realmOwners realm (some owner)},.realmAssigned realm owner)
  | .releaseRealm realm =>
    ({data with realmOwners := update data.realmOwners realm none},.ok)
  | .acquireLease realm holder durationSecs proposedAt =>
    match data.conflicting realm holder proposedAt with
    | some existing => (data,.leaseConflict existing.holder existing.expiresAt)
    | none =>
      let fence := saturatingAdd data.leaseFenceCounter 1
      let lease := ConsolidationLease.new realm holder durationSecs proposedAt fence
      ({data with
          leaseFenceCounter := fence
          leases := update data.leases realm (some lease)},.ok)
  | .releaseLease realm holder =>
    match data.leases realm with
    | some existing =>
      if existing.holder = holder then
        ({data with leases := update data.leases realm none},.ok)
      else (data,.ok)
    | none => (data,.ok)
  | .renewLease realm holder durationSecs proposedAt =>
    match data.leases realm with
    | some lease =>
      -- the expiry of the lease is not looked at here
      if lease.holder = holder then
        ({data with leases := update data.leases realm (some (lease.renewAt durationSecs proposedAt))},.ok)
      else (data,.leaseRenewalFailed realm)
    | none => (data,.leaseRenewalFailed realm)
  | .registerNode nodeId addr =>
    ({data with nodes := update data.nodes nodeId (some addr)},.nodeRegistered nodeId)
  | .deregisterNode nodeId =>
    ({data with
        nodes := update data.nodes nodeId none
        realmOwners := fun realm => (data.realmOwners realm).filter (· != nodeId)
        leases := fun realm => (data.leases realm).filter fun l => l.holder != nodeId},.ok)

def activeLease (realm : String) (now : ℕ) : Option ConsolidationLease :=
  (data.leases realm).filter fun l => !l.isExpiredAt now

def issuedBy (req : RaftRequest) : Option ℕ :=
  match req,(applyRequest data req).2 with
  | .acquireLease realm _ _ _,.ok => ((applyRequest data req).1.leases realm).map (·.fence)
  | _,_ => none

variable {data : StateMachineData}

theorem conflicting_eq_none : data.conflicting realm holder stamp = none ↔
    ∀ l, data.leases realm = some l → l.holder ≠ holder → l.expiresAt ≤ stamp := by
  simp only [StateMachineData.conflicting,Option.filter_eq_none_iff,ConsolidationLease.isExpiredAt]
  refine forall₂_congr fun l _ => ?_
  by_cases hholder : l.holder = holder <;> simp [hholder]

theorem acquire_granted (h : data.conflicting realm holder stamp = none) :
    applyRequest data (.acquireLease realm holder duration stamp) =
      ({data with
          leaseFenceCounter := saturatingAdd data.leaseFenceCounter 1
          leases := update data.leases realm (some
            (.new realm holder duration stamp (saturatingAdd data.leaseFenceCounter 1)))},.ok) := by
  rw [applyRequest,h]

theorem acquire_refused (h : data.conflicting realm holder stamp = some l) :
    applyRequest data (.acquireLease realm holder duration stamp) =
    (data,.leaseConflict l.holder l.expiresAt) := by
  rw [applyRequest,h]

theorem acquire_ok_iff : (applyRequest data (.acquireLease realm holder duration stamp)).2 = .ok ↔
    data.conflicting realm holder stamp = none := by
  cases h : data.conflicting realm holder stamp with
  | none => simp [acquire_granted h]
  | some l => simp [acquire_refused h]

theorem issuedBy_acquire : issuedBy data (.acquireLease realm holder duration stamp) =
    if data.conflicting realm holder stamp = none then
      some (saturatingAdd data.leaseFenceCounter 1) else none := by
  cases h : data.conflicting realm holder stamp with
  | none => simp [issuedBy,acquire_granted h,ConsolidationLease.new]
  | some l => simp [issuedBy,acquire_refused h]

theorem issuedBy_eq_some (h : issuedBy data req = some fence) :
    ∃ realm holder duration stamp, req = .acquireLease realm holder duration stamp ∧
      data.conflicting realm holder stamp = none ∧ fence = saturatingAdd data.leaseFenceCounter 1 := by
  cases req with
  | acquireLease realm holder duration stamp =>
    rw [issuedBy_acquire] at h
    split at h
    · rename_i hfree
      exact ⟨realm,holder,duration,stamp,rfl,hfree,(Option.some.inj h).symm⟩
    · cases h
  | _ => cases h

theorem leases_of_issued (h : issuedBy data req = some fence) :
    ∃ realm holder duration stamp, req = .acquireLease realm holder duration stamp ∧
      (applyRequest data req).1.leaseFenceCounter = fence ∧
      (applyRequest data req).1.leases realm = some (.new realm holder duration stamp fence) ∧
      ∀ r l, (applyRequest data req).1.leases r = some l →
        r = realm ∧ l.fence = fence ∨ r ≠ realm ∧ data.leases r = some l := by
  obtain ⟨realm,holder,duration,stamp,rfl,hfree,rfl⟩ := issuedBy_eq_some h
  refine ⟨realm,holder,duration,stamp,rfl,?_⟩
  rw [acquire_granted hfree]
  refine ⟨rfl,by simp,fun r l hl => ?_⟩
  by_cases hr : r = realm
  · subst hr
    have hl : ConsolidationLease.new r holder duration stamp
      (saturatingAdd data.leaseFenceCounter 1) = l := by
      simpa using hl
    exact .inl ⟨rfl,by rw [← hl]; rfl⟩
  · exact .inr ⟨hr,by simpa [hr] using hl⟩

/-- A lease behind a request without a fence was there, up to the expiry of a renewal. -/
theorem kept_of_not_issued (h : issuedBy data req = none) :
    (applyRequest data req).1.leaseFenceCounter = data.leaseFenceCounter ∧
      ∀ realm l, (applyRequest data req).1.leases realm = some l →
      ∃ old, data.leases realm = some old ∧
        (l = old ∨ ∃ duration stamp, req = .renewLease realm old.holder duration stamp ∧
        l = old.renewAt duration stamp) := by
  have hsame : ∀ realm l, data.leases realm = some l → ∃ old, data.leases realm = some old ∧
      (l = old ∨ ∃ duration stamp, req = .renewLease realm old.holder duration stamp ∧
      l = old.renewAt duration stamp) :=
    fun realm l hl => ⟨l,hl,.inl rfl⟩
  cases req with
  | acquireLease realm holder duration stamp =>
    cases hc : data.conflicting realm holder stamp with
    | none =>
      rw [issuedBy_acquire,if_pos hc] at h
      cases h
    | some l =>
      rw [acquire_refused hc]
      exact ⟨rfl,hsame⟩
  | releaseLease realm holder =>
    rw [applyRequest]
    split
    · split
      · refine ⟨rfl,fun r l hl => ?_⟩
        by_cases hr : r = realm
        · subst hr
          simp at hl
        · exact hsame r l (by simpa [hr] using hl)
      · exact ⟨rfl,hsame⟩
    · exact ⟨rfl,hsame⟩
  | renewLease realm holder duration stamp =>
    rw [applyRequest]
    split
    case h_1 lease hlease =>
      split
      case isTrue hholder =>
        refine ⟨rfl,fun r l hl => ?_⟩
        by_cases hr : r = realm
        · subst hr
          have hl : lease.renewAt duration stamp = l := by simpa using hl
          subst holder
          exact ⟨lease,hlease,.inr ⟨duration,stamp,rfl,hl.symm⟩⟩
        · exact hsame r l (by simpa [hr] using hl)
      case isFalse => exact ⟨rfl,hsame⟩
    case h_2 => exact ⟨rfl,hsame⟩
  | deregisterNode nodeId =>
    refine ⟨rfl,fun r l hl => hsame r l ?_⟩
    exact (Option.filter_eq_some_iff.mp hl).1
  | _ => exact ⟨rfl,hsame⟩

/-- The machine behind a log, with the fences that it has issued, oldest first. -/
structure History where
  data : StateMachineData
  issued : List ℕ

def History.step (h : History) (req : RaftRequest) : History :=
  ⟨(applyRequest h.data req).1,h.issued++(issuedBy h.data req).toList⟩

def replay (log : List RaftRequest) : History := exec History.step ⟨default,[]⟩ log
@[simp] theorem replay_nil : replay [] = ⟨default,[]⟩ := rfl

@[simp] theorem replay_concat (log : List RaftRequest) (req : RaftRequest) :
    replay (log++[req]) = (replay log).step req := by
  rw [replay,exec_append]
  rfl

theorem issued_length_le : (replay log).issued.length ≤ (replay (log++more)).issued.length := by
  induction more using List.reverseRecOn with
  | nil => simp
  | append_singleton more req ih =>
    rw [← List.append_assoc,replay_concat]
    refine ih.trans ?_
    simp [History.step]

theorem issued_length_le_of_isPrefix (h : done <+: log) :
    (replay done).issued.length ≤ (replay log).issued.length := by
  obtain ⟨more,rfl⟩ := h
  exact issued_length_le

/-- Until it saturates the counter counts acquisitions, and no fence comes twice. -/
structure Fenced (h : History) : Prop where
  counter : h.data.leaseFenceCounter = h.issued.length
  issued_le : ∀ fence ∈ h.issued, fence ≤ h.data.leaseFenceCounter
  stored_le : ∀ realm l, h.data.leases realm = some l → l.fence ≤ h.data.leaseFenceCounter
  distinct : ∀ r₁ r₂ l₁ l₂, h.data.leases r₁ = some l₁ → h.data.leases r₂ = some l₂ →
    l₁.fence = l₂.fence → r₁ = r₂

theorem Fenced.issued_eq (hf : Fenced h)
    (hfew : (h.step req).issued.length < 2^64) (hi : issuedBy h.data req = some fence) :
    fence = h.data.leaseFenceCounter+1 := by
  obtain ⟨_,_,_,_,_,_,hfence⟩ := issuedBy_eq_some hi
  have hlen : h.issued.length+1 < 2^64 := by simpa [History.step,hi] using hfew
  rw [hfence,saturatingAdd,hf.counter]
  omega

theorem fenced_step (hfew : (h.step req).issued.length < 2^64) (hf : Fenced h) :
    Fenced (h.step req) := by
  cases hi : issuedBy h.data req with
  | none =>
    obtain ⟨hcounter,hleases⟩ := kept_of_not_issued hi
    have hfence : ∀ realm l, (applyRequest h.data req).1.leases realm = some l →
        ∃ old, h.data.leases realm = some old ∧ l.fence = old.fence := by
      intro realm l hl
      obtain ⟨old,hold,rfl | ⟨_,_,_,rfl⟩⟩ := hleases realm l hl
      · exact ⟨l,hold,rfl⟩
      · exact ⟨old,hold,rfl⟩
    constructor
    · simp [History.step,hi,hcounter,hf.counter]
    · simpa [History.step,hi,hcounter] using hf.issued_le
    · intro realm l hl
      obtain ⟨old,hold,hsame⟩ := hfence realm l hl
      rw [hsame,History.step,hcounter]
      exact hf.stored_le realm old hold
    · intro r₁ r₂ l₁ l₂ h₁ h₂ hfences
      obtain ⟨o₁,ho₁,hs₁⟩ := hfence r₁ l₁ h₁
      obtain ⟨o₂,ho₂,hs₂⟩ := hfence r₂ l₂ h₂
      exact hf.distinct r₁ r₂ o₁ o₂ ho₁ ho₂ (by rw [← hs₁,← hs₂,hfences])
  | some fence =>
    have hnew := hf.issued_eq hfew hi
    obtain ⟨realm,_,_,_,_,hcounter,_,hleases⟩ := leases_of_issued hi
    constructor
    · simp [History.step,hi,hcounter,hnew,hf.counter]
    · intro f hf'
      simp only [History.step,hi,hcounter,Option.toList_some,List.mem_append,
        List.mem_singleton] at hf' ⊢
      rcases hf' with hf' | rfl
      · have := hf.issued_le f hf'
        omega
      · exact le_rfl
    · intro r l hl
      rw [History.step,hcounter]
      rcases hleases r l hl with ⟨_,hl⟩ | ⟨_,hl⟩
      · exact hl.le
      · have := hf.stored_le r l hl
        omega
    · intro r₁ r₂ l₁ l₂ h₁ h₂ hfences
      rcases hleases r₁ l₁ h₁ with ⟨hr₁,hs₁⟩ | ⟨_,hs₁⟩ <;> rcases hleases r₂ l₂ h₂ with ⟨hr₂,
        hs₂⟩ | ⟨_,hs₂⟩
      · exact hr₁.trans hr₂.symm
      · have := hf.stored_le r₂ l₂ hs₂
        omega
      · have := hf.stored_le r₁ l₁ hs₁
        omega
      · exact hf.distinct r₁ r₂ l₁ l₂ hs₁ hs₂ hfences

theorem fenced_replay (hfew : (replay log).issued.length < 2^64) : Fenced (replay log) := by
  induction log using List.reverseRecOn with
  | nil =>
    constructor <;> simp
    rfl
  | append_singleton log req ih =>
    rw [replay_concat] at hfew ⊢
    refine fenced_step hfew (ih (lt_of_le_of_lt ?_ hfew))
    simp [History.step]
end Hirn.Raft
