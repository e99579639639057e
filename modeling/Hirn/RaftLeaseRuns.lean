import Hirn.RaftLeases

/-! Leases over whole logs. Fences increase and are never shared, and a lease passes to another
node only once it has expired. An expired lease may come back, though: a renewal does not look
at the expiry of what it renews. -/
namespace Hirn.Raft
open Runs List
open Token (saturatingAdd)

/-- No two leases share a fence, and no fence is ahead of the counter. -/
def FencesApart (data : StateMachineData) : Prop :=
  (∀ realm l, data.leases realm = some l → l.fence ≤ data.leaseFenceCounter) ∧
  ∀ r₁ r₂ l₁ l₂, r₁ ≠ r₂ → data.leases r₁ = some l₁ → data.leases r₂ = some l₂ → l₁.fence ≠ l₂.fence

/-- A successful acquisition stores a fence above all issued, and the lease was free. -/
def GrantsFresh (h : History) (req : RaftRequest) : Prop :=
  ∀ realm holder secs stamp, req = .acquireLease realm holder secs stamp →
  (applyRequest h.data req).2 = .ok →
    (∃ l, (applyRequest h.data req).1.leases realm = some l ∧ l.holder = holder ∧
      l.fence = (applyRequest h.data req).1.leaseFenceCounter ∧ ∀ fence ∈ h.issued, fence < l.fence) ∧
    ∀ l, h.data.leases realm = some l → l.holder ≠ holder → l.expiresAt ≤ stamp

/-- Other requests and refused acquisitions leave the fences as they are. -/
def KeepsFences (h : History) (req : RaftRequest) : Prop :=
  (∀ realm holder secs stamp, req = .acquireLease realm holder secs stamp →
  (applyRequest h.data req).2 ≠ .ok) →
    (h.step req).issued = h.issued ∧
    (applyRequest h.data req).1.leaseFenceCounter = h.data.leaseFenceCounter ∧
    ∀ realm l, (applyRequest h.data req).1.leases realm = some l →
      ∃ old, h.data.leases realm = some old ∧ l.fence = old.fence

theorem Fenced.apart (hf : Fenced h) : FencesApart h.data := by
  refine ⟨hf.stored_le,fun r₁ r₂ l₁ l₂ hr h₁ h₂ hfences => ?_⟩
  exact hr (hf.distinct r₁ r₂ l₁ l₂ h₁ h₂ hfences)

theorem grantsFresh_of_fenced (hf : Fenced h) (hfew : h.issued.length < 2^64-1) :
    GrantsFresh h req := by
  rintro realm holder secs stamp rfl hok
  have hfree := acquire_ok_iff.mp hok
  refine ⟨⟨.new realm holder secs stamp (saturatingAdd h.data.leaseFenceCounter 1),?_,rfl,?_,?_⟩,
    conflicting_eq_none.mp hfree⟩
  · simp [acquire_granted hfree]
  · simp [acquire_granted hfree,ConsolidationLease.new]
  · intro fence hfence
    have hle := hf.issued_le fence hfence
    have hcount := hf.counter
    show fence < saturatingAdd h.data.leaseFenceCounter 1
    rw [saturatingAdd]
    omega

theorem keepsFences (h : History) (req : RaftRequest) : KeepsFences h req := by
  intro hrefused
  have hnone : issuedBy h.data req = none := by
    cases hi : issuedBy h.data req with
    | none => rfl
    | some fence =>
      obtain ⟨realm,holder,secs,stamp,rfl,hfree,-⟩ := issuedBy_eq_some hi
      exact absurd (acquire_ok_iff.mpr hfree) (hrefused realm holder secs stamp rfl)
  obtain ⟨hcounter,hleases⟩ := kept_of_not_issued hnone
  refine ⟨by simp [History.step,hnone],hcounter,fun realm l hl => ?_⟩
  obtain ⟨old,hold,rfl | ⟨_,_,_,rfl⟩⟩ := hleases realm l hl
  · exact ⟨l,hold,rfl⟩
  · exact ⟨old,hold,rfl⟩

/-- At every point of a log the stored fences are apart, an acquisition gets one above all before it
once the lease is free, and nothing else issues or changes one. -/
theorem lease_fences_increase (log : List RaftRequest) (hfew : (replay log).issued.length < 2^64-1) :
    (∀ done, done <+: log → FencesApart (replay done).data) ∧
    ∀ done req, done++[req] <+: log →
      GrantsFresh (replay done) req ∧ KeepsFences (replay done) req := by
  have hfenced : ∀ done, done <+: log → (replay done).issued.length < 2^64-1 ∧
    Fenced (replay done) := by
    intro done hdone
    have hlt := lt_of_le_of_lt (issued_length_le_of_isPrefix hdone) hfew
    exact ⟨hlt,fenced_replay (by omega)⟩
  constructor
  · exact fun done hdone => (hfenced done hdone).2.apart
  · intro done req hdone
    obtain ⟨hlt,hf⟩ := hfenced done ((prefix_append done [req]).trans hdone)
    exact ⟨grantsFresh_of_fenced hf hlt,keepsFences _ req⟩

def sampleLog : List RaftRequest :=
  [.acquireLease "a" 1 10 100,.acquireLease "b" 2 10 100,.acquireLease "a" 2 10 105,
  .acquireLease "a" 2 10 110,
    .releaseLease "b" 2,.renewLease "a" 2 10 115,.deregisterNode 2,.acquireLease "b" 1 10 116]

theorem lease_fences_increase_sample : (replay sampleLog).issued = [1,2,3,4] ∧
    FencesApart (replay sampleLog).data ∧ GrantsFresh (replay (sampleLog.take 3))
    (.acquireLease "a" 2 10 110) := by
  have hissued : (replay sampleLog).issued = [1,2,3,4] := by decide
  have hall := lease_fences_increase sampleLog (by rw [hissued]; norm_num)
  refine ⟨hissued,hall.1 _ (prefix_refl _),(hall.2 _ _ ?_).1⟩
  exact ⟨sampleLog.drop 4,rfl⟩

variable {secs : ℕ}

def RaftRequest.stamp : RaftRequest → Option ℕ
  | .acquireLease _ _ _ proposedAt => some proposedAt
  | .renewLease _ _ _ proposedAt => some proposedAt
  | _ => none

def SessionOver (data : StateMachineData) (realm : String) (fence time : ℕ) : Prop :=
  ∀ l, data.leases realm = some l → l.fence = fence → l.isExpiredAt time = true

/-- Once an entry is stamped behind the expiry of a lease its session stays over, and a renewal stamped
so fails. -/
def StaysExpired (log : List RaftRequest) : Prop :=
  ∀ done req rest, log = done++req::rest → ∀ stamp, req.stamp = some stamp →
    ∀ realm l, (replay done).data.leases realm = some l → l.isExpiredAt stamp = true →
      (∀ more, more <+: rest → SessionOver (replay (done++req::more)).data realm l.fence stamp) ∧
      ∀ holder secs, req = .renewLease realm holder secs stamp →
        applyRequest (replay done).data req = ((replay done).data,.leaseRenewalFailed realm)

def RenewsInTime (h : History) : RaftRequest → Prop
  | .renewLease realm holder _ stamp => ∀ l, h.data.leases realm = some l → l.holder = holder →
      stamp < l.expiresAt
  | _ => True

variable {realm : String} {data : StateMachineData} {l : ConsolidationLease}

theorem renew_failed (hl : data.leases realm = some l) (hholder : l.holder ≠ holder) :
    applyRequest data (.renewLease realm holder secs stamp) = (data,.leaseRenewalFailed realm) := by
  simp [applyRequest,hl,hholder]

theorem renew_ok
    (hl : data.leases realm = some l) : (applyRequest data
    (.renewLease realm l.holder secs stamp)).2 = .ok := by
  simp [applyRequest,hl]

theorem sessionOver_step
    (hfenced : Fenced h) (hfew : (h.step req).issued.length < 2^64)
    (hle : fence ≤ h.data.leaseFenceCounter)
    (htime : ∀ stamp, req.stamp = some stamp → time ≤ stamp) (hok : RenewsInTime h req)
    (hover : SessionOver h.data realm fence time) :
    fence ≤ (h.step req).data.leaseFenceCounter ∧ SessionOver (h.step req).data realm fence time := by
  cases hi : issuedBy h.data req with
  | none =>
    obtain ⟨hcounter,hleases⟩ := kept_of_not_issued hi
    refine ⟨hle.trans_eq hcounter.symm,fun l hl hfence => ?_⟩
    obtain ⟨old,hold,rfl | ⟨secs,stamp,rfl,rfl⟩⟩ := hleases realm l hl
    · exact hover l hold hfence
    · have hexpired : old.expiresAt ≤ time := by
        simpa [ConsolidationLease.isExpiredAt] using hover old hold hfence
      have hin : stamp < old.expiresAt := hok old hold rfl
      have := htime stamp rfl
      omega
  | some issued =>
    have hnew := hfenced.issued_eq hfew hi
    obtain ⟨r,_,_,_,_,hcounter,_,hleases⟩ := leases_of_issued hi
    refine ⟨?_,fun l hl hfence => ?_⟩
    · rw [History.step,hcounter]
      omega
    · rcases hleases realm l hl with ⟨_,hissued⟩ | ⟨_,hold⟩
      · omega
      · exact hover l hold hfence

theorem sessionOver_run
    (hfew : (replay (done++later)).issued.length < 2^64)
    (hle : fence ≤ (replay done).data.leaseFenceCounter)
    (htime : ∀ req ∈ later, ∀ stamp, req.stamp = some stamp → time ≤ stamp)
    (hok : Admissible History.step RenewsInTime (replay done) later)
    (hover : SessionOver (replay done).data realm fence time) :
    fence ≤ (replay (done++later)).data.leaseFenceCounter ∧
      SessionOver (replay (done++later)).data realm fence time := by
  induction later using List.reverseRecOn with
  | nil => simpa using ⟨hle,hover⟩
  | append_singleton later req ih =>
    obtain ⟨hfirst,hlast⟩ := admissible_append.mp hok
    rw [← append_assoc] at hfew ⊢
    have hfew' := lt_of_le_of_lt issued_length_le hfew
    obtain ⟨hle',hover'⟩ := ih hfew' (fun r hr => htime r (by simp [hr])) hfirst
    have hexec : exec History.step (replay done) later = replay (done++later) := by
      rw [replay,replay,exec_append]
    rw [hexec] at hlast
    rw [replay_concat] at hfew ⊢
    exact sessionOver_step (fenced_replay hfew') hfew hle' (htime req (by simp)) hlast.1 hover'

theorem stamps_le (hstamp : req.stamp = some stamp)
    (hsorted : ((done++req::rest).filterMap RaftRequest.stamp).Pairwise (· ≤ ·)) :
    ∀ r ∈ req::rest, ∀ s, r.stamp = some s → stamp ≤ s := by
  rw [filterMap_append,filterMap_cons_some hstamp] at hsorted
  have hrest := (pairwise_cons.mp (pairwise_append.mp hsorted).2.1).1
  intro r hr s hs
  rcases mem_cons.mp hr with rfl | hr
  · rw [hstamp] at hs
    exact (Option.some.inj hs).le
  · exact hrest s (mem_filterMap.mpr ⟨r,hr,hs⟩)

theorem renewsInTime_of_staysExpired (h : StaysExpired log) :
    ∀ done rest, log = done++rest → Admissible History.step RenewsInTime (replay done) rest := by
  intro done rest
  induction rest generalizing done with
  | nil => exact fun _ => trivial
  | cons req rest ih =>
    intro hlog
    have htail := ih (done++[req]) (by simpa using hlog)
    rw [replay_concat] at htail
    refine ⟨?_,htail⟩
    cases req with
    | renewLease realm holder secs stamp =>
      rintro l hl rfl
      by_contra hlate
      have hexpired : l.isExpiredAt stamp := by simpa [ConsolidationLease.isExpiredAt] using hlate
      have hfailed := (h done _ rest hlog stamp rfl realm l hl hexpired).2 l.holder secs rfl
      have hsucceeds : (applyRequest _ (.renewLease realm l.holder secs stamp)).2 = .ok := renew_ok hl
      rw [hfailed] at hsucceeds
      cases hsucceeds
    | _ => trivial

/-- Expired sessions stay over exactly in the logs whose renewals come in time. -/
theorem expired_session_stays_iff (log : List RaftRequest)
    (hsorted : (log.filterMap RaftRequest.stamp).Pairwise (· ≤ ·)) :
    (StaysExpired log → Admissible History.step RenewsInTime (replay []) log) ∧
    (Admissible History.step RenewsInTime (replay []) log → (replay log).issued.length < 2^64 →
      StaysExpired log) := by
  refine ⟨fun h => renewsInTime_of_staysExpired h [] log rfl,fun hok hfew => ?_⟩
  intro done req rest hlog stamp hstamp realm l hl hexpired
  subst hlog
  have hrest := (admissible_append.mp hok).2
  have hfenced := fenced_replay (lt_of_le_of_lt issued_length_le hfew)
  have hstamps := stamps_le hstamp hsorted
  constructor
  · intro more hmore
    have hpre : req::more <+: req::rest := cons_prefix_cons.mpr ⟨rfl,hmore⟩
    obtain ⟨behind,hbehind⟩ := hpre
    rw [← hbehind] at hrest hfew hstamps
    rw [← append_assoc] at hfew
    refine (sessionOver_run (lt_of_le_of_lt issued_length_le hfew) (hfenced.stored_le realm l hl)
      (fun r hr => hstamps r (mem_append_left _ hr)) (admissible_append.mp hrest).1 ?_).2
    intro l' hl' _
    rw [hl] at hl'
    rwa [← Option.some.inj hl']
  · rintro holder secs rfl
    refine renew_failed hl fun hholder => ?_
    have hin : stamp < l.expiresAt := hrest.1 l hl hholder
    have hexpired : l.expiresAt ≤ stamp := by simpa [ConsolidationLease.isExpiredAt] using hexpired
    omega

def lateRenewal : List RaftRequest :=
  [.acquireLease "a" 1 10 100,.acquireLease "b" 2 10 115,.renewLease "a" 1 10 120]

/-- The lease had expired at 110, and runs to 130 with the same fence. -/
theorem expired_session_revived : (lateRenewal.filterMap RaftRequest.stamp).Pairwise (· ≤ ·) ∧
    (replay (lateRenewal.take 1)).data.leases "a" = some ⟨1,100,110,"a",1⟩ ∧
    (replay lateRenewal).data.leases "a" = some ⟨1,100,130,"a",1⟩ ∧
    (applyRequest (replay (lateRenewal.take 2)).data (.renewLease "a" 1 10 120)).2 = .ok ∧
    ¬StaysExpired lateRenewal := by
  refine ⟨by decide,by decide,by decide,by decide,fun h => ?_⟩
  have hover := (h [.acquireLease "a" 1 10 100] (.acquireLease "b" 2 10 115)
    [.renewLease "a" 1 10 120] rfl 115 rfl
    "a" ⟨1,100,110,"a",1⟩ (by decide) (by decide)).1 _ (prefix_refl _)
  exact absurd (hover ⟨1,100,130,"a",1⟩ (by decide) rfl) (by decide)

/-- A renewal in time, then one by a node that does not hold the lease. -/
theorem expired_session_stays_sample :
    StaysExpired [.acquireLease "a" 1 10 100,.renewLease "a" 1 10 105,.renewLease "a" 2 10 120] := by
  refine (expired_session_stays_iff _ (by decide)).2 ⟨trivial,?_,?_,trivial⟩ (by decide)
  · rintro l hl -
    have hl' : l = ⟨1,100,110,"a",1⟩ := (Option.some.inj hl).symm
    subst hl'
    decide
  · rintro l hl hholder
    have hl' : l = ⟨1,100,115,"a",1⟩ := (Option.some.inj hl).symm
    subst hl'
    cases hholder
end Hirn.Raft
