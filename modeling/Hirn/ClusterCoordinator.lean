import Hirn.RaftLeases

/-! Nodes that acquire leases through the cluster. An acquisition is answered by the leader, and
its fence is then read from the caller's own state machine, which may not be as far as the
leader's, or further. -/
namespace Hirn.Raft
open Runs List Option History
open Token (saturatingAdd)

inductive LeaseOutcome
  | acquired (fence : ℕ)
  | conflict (holder : NodeId)
  deriving DecidableEq

/-- The fence that a caller reads from its own machine by its own clock, or 0. -/
def readFence (data : StateMachineData) (node : NodeId) (realm : String) (now : ℕ) : ℕ :=
  (((activeLease data realm now).filter fun l => l.holder == node).map (·.fence)).getD 0

/-- What `acquire_lease` makes of the answer, with the caller's data and clock. -/
def leaseOutcome (response : RaftResponse) (node : NodeId) (realm : String)
    (data : StateMachineData) (now : ℕ) : Option LeaseOutcome :=
  match response with
  | .ok => some (.acquired (readFence data node realm now))
  | .leaseConflict holder _ => some (.conflict holder)
  | _ => none

inductive Progress
  | proposed
  | answered (response : RaftResponse)
  | returned (outcome : Option LeaseOutcome)
  deriving DecidableEq

/-- A call with the position that its entry got in the log. -/
structure LeaseCall where
  node : NodeId
  realm : String
  (durationSecs proposedAt index : ℕ)
  progress : Progress
  deriving DecidableEq

def LeaseCall.request (k : LeaseCall) : RaftRequest :=
  .acquireLease k.realm k.node k.durationSecs k.proposedAt

/-- A node's machine, and what it answered to each entry that it has applied. -/
structure Replica where
  data : StateMachineData
  responses : List RaftResponse

structure Cluster where
  log : List RaftRequest
  replica : NodeId → Replica
  calls : List LeaseCall

def Cluster.start : Cluster := ⟨[],fun _ => ⟨default,[]⟩,[]⟩

inductive Event
  | acquireLease (node : NodeId) (realm : String) (durationSecs now : ℕ)
  | commit (req : RaftRequest)
  | apply (node : NodeId)
  | answer (call : ℕ) (leader : NodeId)
  | fail (call : ℕ)
  | readBack (call : ℕ) (now : ℕ)

variable (c : Cluster)

def Cluster.setProgress (k : ℕ) (p : Progress) : Cluster :=
  {c with calls := c.calls.modify k fun call => {call with progress := p}}

/-- One step of a cluster. The entries are those that Raft has committed. -/
def Cluster.step : Event → Cluster
  | .acquireLease node realm secs now =>
    {c with
      log := c.log++[.acquireLease realm node secs now]
      calls := c.calls++[⟨node,realm,secs,now,c.log.length,.proposed⟩]}
  | .commit req => {c with log := c.log++[req]}
  | .apply node =>
    let r := c.replica node
    match c.log[r.responses.length]? with
    | some req =>
      let result := applyRequest r.data req
      {c with replica := Function.update c.replica node ⟨result.1,r.responses++[result.2]⟩}
    | none => c
  | .answer k leader =>
    match c.calls[k]? with
    | some call =>
      -- the leader is the caller itself or the node that the proposal was forwarded to
      match call.progress,(c.replica leader).responses[call.index]? with
      | .proposed,some response => c.setProgress k (.answered response)
      | _,_ => c
    | none => c
  | .fail k =>
    match c.calls[k]? with
    | some call => if call.progress = .proposed then c.setProgress k (.returned none) else c
    | none => c
  | .readBack k now =>
    match c.calls[k]? with
    | some call =>
      match call.progress with
      | .answered response =>
        c.setProgress k (.returned (leaseOutcome response call.node call.realm
          (c.replica call.node).data now))
      | _ => c
    | none => c

def machineAt (log : List RaftRequest) (n : ℕ) : History := replay (log.take n)

def entryFence (log : List RaftRequest) (i : ℕ) : Option ℕ :=
  log[i]?.bind (issuedBy (machineAt log i).data)

def FencesTrue : Prop :=
  ∀ call ∈ c.calls, ∀ fence, call.progress = .returned (some (.acquired fence)) →
    entryFence c.log call.index = some fence

/-- The request leaves the node's lease of the realm in place. -/
def Spares (node : NodeId) (realm : String) (h : History) : RaftRequest → Prop
  | .acquireLease r holder _ stamp => r = realm → h.data.conflicting r holder stamp ≠ none
  | .releaseLease r holder => r = realm → holder ≠ node
  | .deregisterNode n => n ≠ node
  | _ => True

/-- Where a call reads its fence the entry is applied, and the lease stands and runs. -/
def ReadsOwnLease : Event → Prop
  | .readBack k now => ∀ call, c.calls[k]? = some call → call.progress = .answered .ok →
      call.index < (c.replica call.node).responses.length ∧
      Admissible step (Spares call.node call.realm) (machineAt c.log (call.index+1))
        ((c.log.take (c.replica call.node).responses.length).drop (call.index+1)) ∧
      ∀ l, (c.replica call.node).data.leases call.realm = some l → now < l.expiresAt
  | _ => True

variable {n : ℕ}

theorem machineAt_succ (h : log[n]? = some req) :
    machineAt log (n+1) = (machineAt log n).step req := by
  rw [machineAt,take_add_one,h,toList_some,replay_concat,machineAt]

theorem machineAt_concat (h : n ≤ log.length) : machineAt (log++[req]) n = machineAt log n := by
  rw [machineAt,take_append_of_le_length h,machineAt]

theorem machineAt_exec (h : i ≤ n) : exec step (machineAt log i) ((log.take n).drop i) =
    machineAt log n := by
  rw [machineAt,replay,← exec_append,machineAt,replay]
  rw [← Nat.min_eq_left h,← take_take,Nat.min_eq_left h,take_append_drop]

theorem machineAt_exec_of_isPrefix (h : i ≤ n)
    (hdone : done <+: (log.take n).drop i) :
    ∃ m, exec step (machineAt log i) done = machineAt log m := by
  obtain ⟨more,hmore⟩ := hdone
  have hsplit : log.take i++(done++more) = log.take n := by
    rw [hmore,← Nat.min_eq_left h,← take_take,Nat.min_eq_left h,take_append_drop]
  have hpre : log.take i++done <+: log := by
    refine List.IsPrefix.trans ⟨more,?_⟩ ( take_prefix n log)
    rw [append_assoc,hsplit]
  refine ⟨(log.take i++done).length,?_⟩
  rw [machineAt,replay,← exec_append,machineAt,replay,← prefix_iff_eq_take.mp hpre]

theorem entryFence_concat (h : i < log.length) : entryFence (log++[req]) i = entryFence log i := by
  rw [entryFence,getElem?_append_left h,machineAt_concat h.le,entryFence]

variable {c : Cluster} {k : ℕ} {call : LeaseCall}

/-- Machines have applied the log up to some point, calls know their entry and answer. -/
structure Consistent (c : Cluster) : Prop where
  applied_le : ∀ node, (c.replica node).responses.length ≤ c.log.length
  data : ∀ node, (c.replica node).data = (machineAt c.log (c.replica node).responses.length).data
  response : ∀ node i response, (c.replica node).responses[i]? = some response →
    ∃ req, c.log[i]? = some req ∧ response = (applyRequest (machineAt c.log i).data req).2
  entry : ∀ call ∈ c.calls, c.log[call.index]? = some call.request
  answer : ∀ call ∈ c.calls, ∀ response, call.progress = .answered response →
    response = (applyRequest (machineAt c.log call.index).data call.request).2

theorem getElem?_isSome_lt {α : Type} {xs : List α} {x : α} (h : xs[i]? = some x) : i < xs.length :=
  (List.getElem?_eq_some_iff.mp h).1

theorem consistent_concat (hc : Consistent c) (req : RaftRequest) :
    Consistent {c with log := c.log++[req]} where
  applied_le node := (hc.applied_le node).trans (by simp)
  data node := by rw [hc.data node,machineAt_concat (hc.applied_le node)]
  response node i response h := by
    obtain ⟨r,hr,hresponse⟩ := hc.response node i response h
    have hi := getElem?_isSome_lt hr
    exact ⟨r,by rw [getElem?_append_left hi,hr],by rw [machineAt_concat hi.le,hresponse]⟩
  entry call hcall := by
    have h := hc.entry call hcall
    rw [getElem?_append_left (getElem?_isSome_lt h),h]
  answer call hcall response h := by
    rw [machineAt_concat (getElem?_isSome_lt (hc.entry call hcall)).le]
    exact hc.answer call hcall response h

theorem mem_setProgress (h : call ∈ (c.setProgress k p).calls) :
    call ∈ c.calls ∨ ∃ old, c.calls[k]? = some old ∧ call = {old with progress := p} := by
  obtain ⟨j,hj⟩ := mem_iff_getElem?.mp h
  rw [Cluster.setProgress,getElem?_modify] at hj
  obtain ⟨old,hold,hcall⟩ := map_eq_some_iff.mp hj
  split at hcall
  · rename_i hk
    exact .inr ⟨old,hk ▸ hold,hcall.symm⟩
  · exact .inl (mem_iff_getElem?.mpr ⟨j,by rw [hold,← hcall]⟩)

theorem consistent_setProgress (hc : Consistent c)
    (hcall : c.calls[k]? = some call) (hp : ∀ response, p = .answered response →
      response = (applyRequest (machineAt c.log call.index).data call.request).2) :
    Consistent (c.setProgress k p) where
  applied_le := hc.applied_le
  data := hc.data
  response := hc.response
  entry call' h := by
    rcases mem_setProgress h with h | ⟨old,hold,rfl⟩
    · exact hc.entry call' h
    · exact hc.entry old (mem_of_getElem? hold)
  answer call' h response hresponse := by
    rcases mem_setProgress h with h | ⟨old,hold,rfl⟩
    · exact hc.answer call' h response hresponse
    · rw [hcall] at hold
      cases hold
      exact hp response hresponse

theorem consistent_apply (hc : Consistent c) (node : NodeId)
    (hreq : c.log[(c.replica node).responses.length]? = some req) :
    Consistent (c.step (.apply node)) := by
  have hstep : c.step (.apply node) = ⟨c.log,Function.update c.replica node
      ⟨(applyRequest (c.replica node).data req).1,
        (c.replica node).responses++[(applyRequest (c.replica node).data req).2]⟩,c.calls⟩ := by
    simp [Cluster.step,hreq]
  rw [hstep]
  have hlt := getElem?_isSome_lt hreq
  constructor
  · intro m
    by_cases hm : m = node
    · subst hm
      simpa using hlt
    · simpa [hm] using hc.applied_le m
  · intro m
    by_cases hm : m = node
    · subst hm
      simp only [Function.update_self,length_append,length_singleton]
      rw [machineAt_succ hreq,step,hc.data m]
    · simpa [hm] using hc.data m
  · intro m i response h
    by_cases hm : m = node
    · subst hm
      simp only [Function.update_self,getElem?_append] at h
      split at h
      · exact hc.response m i response h
      · have hi' : i = (c.replica m).responses.length := by
          have := getElem?_isSome_lt h
          simp only [length_singleton] at this
          omega
        subst hi'
        simp only [Nat.sub_self,getElem?_cons_zero,some.injEq] at h
        exact ⟨req,hreq,by rw [← h,hc.data m]⟩
    · exact hc.response m i response (by simpa [hm] using h)
  · exact hc.entry
  · exact hc.answer

theorem consistent_step (e : Event) (hc : Consistent c) : Consistent (c.step e) := by
  cases e with
  | acquireLease node realm secs now =>
    have hlog := consistent_concat hc (.acquireLease realm node secs now)
    refine ⟨hlog.applied_le,hlog.data,hlog.response,?_,?_⟩
    · intro call hcall
      rcases mem_append.mp hcall with hcall | hcall
      · exact hlog.entry call hcall
      · rw [mem_singleton.mp hcall]
        simp [Cluster.step,LeaseCall.request]
    · intro call hcall response h
      rcases mem_append.mp hcall with hcall | hcall
      · exact hlog.answer call hcall response h
      · rw [mem_singleton.mp hcall] at h
        cases h
  | commit req => exact consistent_concat hc req
  | apply node =>
    cases hreq : c.log[(c.replica node).responses.length]? with
    | none => simpa only [Cluster.step,hreq] using hc
    | some req => exact consistent_apply hc node hreq
  | answer k leader =>
    rw [Cluster.step]
    split
    case h_1 call hcall =>
      split
      case h_1 response hprogress hresponse =>
        refine consistent_setProgress hc hcall fun r hr => ?_
        cases hr
        obtain ⟨req,hreq,hr⟩ := hc.response leader call.index response hresponse
        rw [hc.entry call (mem_of_getElem? hcall)] at hreq
        cases hreq
        exact hr
      case h_2 => exact hc
    case h_2 => exact hc
  | fail | readBack =>
    rw [Cluster.step]
    split
    case h_1 call hcall =>
      split
      · exact consistent_setProgress hc hcall fun _ h => nomatch h
      · exact hc
    case h_2 => exact hc

theorem consistent_start : Consistent Cluster.start := by
  constructor <;> simp [Cluster.start,machineAt]

variable {realm : String} {node : NodeId} {fence : ℕ}

def Stores (node : NodeId) (realm : String) (fence : ℕ) (h : History) : Prop :=
  ∃ l, h.data.leases realm = some l ∧ l.holder = node ∧ l.fence = fence

variable {h : History}

theorem stores_step (hspare : Spares node realm h req)
    (hs : Stores node realm fence h) : Stores node realm fence (h.step req) := by
  obtain ⟨l,hl,hholder,hfence⟩ := hs
  have hsame : (applyRequest h.data req).1.leases realm = some l →
    Stores node realm fence (h.step req) :=
    fun h' => ⟨l,h',hholder,hfence⟩
  cases req with
  | acquireLease r holder secs stamp =>
    cases hc : h.data.conflicting r holder stamp with
    | some existing => exact hsame (by rw [acquire_refused hc,hl])
    | none =>
      have hr : realm ≠ r := fun hr => hspare hr.symm hc
      exact hsame (by rw [acquire_granted hc]; simpa [hr] using hl)
  | releaseLease r holder =>
    apply hsame
    rw [applyRequest]
    split
    case h_1 existing hexisting =>
      split
      case isTrue hheld =>
        have hr : realm ≠ r := by
          rintro rfl
          rw [hl] at hexisting
          cases hexisting
          exact hspare rfl (hheld.symm.trans hholder)
        simpa [hr] using hl
      case isFalse => exact hl
    case h_2 => exact hl
  | renewLease r holder secs stamp =>
    by_cases hr : realm = r
    · subst hr
      by_cases hheld : l.holder = holder
      · exact ⟨l.renewAt secs stamp,by simp [step,applyRequest,hl,hheld],hholder,hfence⟩
      · exact hsame (by simp [applyRequest,hl,hheld])
    · apply hsame
      rw [applyRequest]
      split
      · split
        · simpa [hr] using hl
        · exact hl
      · exact hl
  | deregisterNode n =>
    apply hsame
    have hne : l.holder ≠ n := fun h => hspare (h.symm.trans hholder)
    simp [applyRequest,hl,hne]
  | _ => exact hsame hl

/-- The fence has been issued, and no lease of the realm carries it. -/
def Gone (realm : String) (fence : ℕ) (h : History) : Prop :=
  fence ≤ h.data.leaseFenceCounter ∧ ∀ l, h.data.leases realm = some l → l.fence ≠ fence

theorem gone_step (hfenced : Fenced h) (hfew : (h.step req).issued.length < 2^64)
    (hgone : Gone realm fence h) : Gone realm fence (h.step req) := by
  cases hi : issuedBy h.data req with
  | none =>
    obtain ⟨hcounter,hleases⟩ := kept_of_not_issued hi
    refine ⟨hgone.1.trans_eq hcounter.symm,fun l hl => ?_⟩
    obtain ⟨old,hold,rfl | ⟨_,_,_,rfl⟩⟩ := hleases realm l hl
    · exact hgone.2 l hold
    · exact hgone.2 old hold
  | some issued =>
    have hnew := hfenced.issued_eq hfew hi
    have hle := hgone.1
    obtain ⟨r,_,_,_,_,hcounter,_,hleases⟩ := leases_of_issued hi
    refine ⟨?_,fun l hl => ?_⟩
    · rw [step,hcounter]
      omega
    · rcases hleases realm l hl with ⟨_,hissued⟩ | ⟨_,hold⟩
      · omega
      · exact hgone.2 l hold

theorem gone_of_not_spares (hfenced : Fenced h)
    (hfew : (h.step req).issued.length < 2^64) (hs : Stores node realm fence h)
    (hspare : ¬Spares node realm h req) : Gone realm fence (h.step req) := by
  obtain ⟨l,hl,hholder,rfl⟩ := hs
  have hle := hfenced.stored_le realm l hl
  cases req with
  | acquireLease r holder secs stamp =>
    obtain ⟨rfl,hfree⟩ : r = realm ∧ h.data.conflicting r holder stamp = none := by
      simpa [Spares] using hspare
    have hi : issuedBy h.data (.acquireLease r holder secs stamp) =
      some (saturatingAdd h.data.leaseFenceCounter 1) := by
      rw [issuedBy_acquire,if_pos hfree]
    have hnew := hfenced.issued_eq hfew hi
    obtain ⟨_,_,_,_,heq,hcounter,hnewLease,_⟩ := leases_of_issued hi
    cases heq
    refine ⟨?_,fun l' hl' => ?_⟩
    · rw [step,hcounter]
      omega
    · rw [step,hnewLease] at hl'
      cases hl'
      simp only [ConsolidationLease.new]
      omega
  | releaseLease r holder =>
    obtain ⟨rfl,rfl⟩ : r = realm ∧ holder = node := by simpa [Spares] using hspare
    have hstep : applyRequest h.data (.releaseLease r holder) =
        ({h.data with leases := Function.update h.data.leases r none},.ok) := by
      simp [applyRequest,hl,hholder]
    refine ⟨by rw [step,hstep]; exact hle,fun l' hl' => ?_⟩
    rw [step,hstep] at hl'
    simp at hl'
  | deregisterNode n =>
    have hn : n = node := by simpa [Spares] using hspare
    refine ⟨hle,fun l' hl' => ?_⟩
    have hheld : l.holder = n := hholder.trans hn.symm
    simp only [step,applyRequest,hl,filter_some,hheld,bne_self_eq_false,Bool.false_eq_true,
      if_false,reduceCtorEq] at hl'
  | _ => exact absurd trivial hspare

theorem stores_or_gone (hfenced : ∀ done, done <+: later →
      Fenced (exec step h done) ∧ (exec step h done).issued.length < 2^64)
    (hs : Stores node realm fence h) :
    Admissible step (Spares node realm) h later ∨ Gone realm fence (exec step h later) := by
  induction later using List.reverseRecOn with
  | nil => exact .inl trivial
  | append_singleton later req ih =>
    have hpre := fun done hdone => hfenced done (List.IsPrefix.trans hdone (prefix_append later [req]))
    have hlast := (hfenced _ (prefix_refl _)).2
    obtain ⟨hf,_⟩ := hpre later (prefix_refl _)
    rw [exec_append] at hlast ⊢
    rcases ih hpre with hok | hgone
    · have hstored : Stores node realm fence (exec step h later) :=
        invariant (fun _ _ => stores_step) hs hok
      by_cases hspare : Spares node realm (exec step h later) req
      · exact .inl (admissible_append.mpr ⟨hok,hspare,trivial⟩)
      · exact .inr (gone_of_not_spares hf hlast hstored hspare)
    · exact .inr (gone_step hf hlast hgone)

variable {now : ℕ}

theorem entryFence_of_ok (hc : Consistent c) (hcall : call ∈ c.calls)
    (hok : call.progress = .answered .ok) : ∃ fence, entryFence c.log call.index = some fence ∧
    0 < fence ∧
      Stores call.node call.realm fence (machineAt c.log (call.index+1)) := by
  have hentry := hc.entry call hcall
  have hfree := acquire_ok_iff.mp (hc.answer call hcall _ hok).symm
  have hi : issuedBy (machineAt c.log call.index).data call.request =
      some (saturatingAdd (machineAt c.log call.index).data.leaseFenceCounter 1) := by
    rw [LeaseCall.request,issuedBy_acquire,if_pos hfree]
  obtain ⟨_,_,_,_,heq,_,hlease,_⟩ := leases_of_issued hi
  cases heq
  refine ⟨_,by rw [entryFence,hentry]; exact hi,?_,?_⟩
  · rw [saturatingAdd]
    omega
  · rw [machineAt_succ hentry]
    exact ⟨_,hlease,rfl,rfl⟩

variable {data : StateMachineData}

theorem readFence_of_stored (hl : data.leases realm = some l) (hholder : l.holder = node)
    (hnow : now < l.expiresAt) : readFence data node realm now = l.fence := by
  have hactive : activeLease data realm now = some l := by
    rw [activeLease,hl,filter_eq_some_iff]
    exact ⟨rfl,by simpa [ConsolidationLease.isExpiredAt] using hnow⟩
  rw [readFence,hactive]
  simp [filter_some,hholder]

theorem stored_of_readFence (h : readFence data node realm now = fence) (hpos : 0 < fence) :
    ∃ l, data.leases realm = some l ∧ now < l.expiresAt ∧ l.fence = fence := by
  cases hr : (activeLease data realm now).filter fun l => l.holder == node with
  | none =>
    rw [readFence,hr] at h
    exact absurd h hpos.ne
  | some l =>
    rw [readFence,hr] at h
    obtain ⟨hl,hlive⟩ := filter_eq_some_iff.mp (filter_eq_some_iff.mp hr).1
    refine ⟨l,hl,?_,h⟩
    simpa [ConsolidationLease.isExpiredAt] using hlive

theorem readFence_of_readsOwn (hc : Consistent c) (hcall : c.calls[k]? = some call)
    (hok : call.progress = .answered .ok) (hown : ReadsOwnLease c (.readBack k now)) :
    entryFence c.log call.index = some (readFence (c.replica call.node).data call.node call.realm
    now) := by
  obtain ⟨fence,hfence,_,hstores⟩ := entryFence_of_ok hc (mem_of_getElem? hcall) hok
  obtain ⟨happlied,hspared,hlive⟩ := hown call hcall hok
  have hnow : Stores call.node call.realm fence
    (machineAt c.log (c.replica call.node).responses.length) := by
    rw [← machineAt_exec happlied]
    exact invariant (fun _ _ => stores_step) hstores hspared
  obtain ⟨l,hl,hholder,rfl⟩ := hnow
  rw [← hc.data call.node] at hl
  rw [hfence,readFence_of_stored hl hholder (hlive l hl)]

/-- Read elsewhere a fence is another's, until the counter saturates. -/
theorem readsOwn_of_readFence (hc : Consistent c) (hcall : c.calls[k]? = some call)
    (hok : call.progress = .answered .ok) (hfew : (replay c.log).issued.length < 2^64)
    (htrue : entryFence c.log call.index =
    some (readFence (c.replica call.node).data call.node call.realm now)) :
    ReadsOwnLease c (.readBack k now) := by
  intro call' hcall' _
  rw [hcall] at hcall'
  cases hcall'
  obtain ⟨fence,hfence,hpos,hstores⟩ := entryFence_of_ok hc (mem_of_getElem? hcall) hok
  rw [hfence] at htrue
  obtain ⟨l,hl,hlive,hown⟩ := stored_of_readFence (some.inj htrue).symm hpos
  have hfew' : ∀ n, (machineAt c.log n).issued.length < 2^64 :=
    fun n => lt_of_le_of_lt (issued_length_le_of_isPrefix ( take_prefix n _)) hfew
  have hfenced : ∀ n, Fenced (machineAt c.log n) := fun n => fenced_replay (hfew' n)
  have hentry := hc.entry call (mem_of_getElem? hcall)
  have hmachine : (machineAt c.log (c.replica call.node).responses.length).data.leases call.realm =
    some l := by
    rw [← hc.data call.node,hl]
  have happlied : call.index < (c.replica call.node).responses.length := by
    by_contra hbehind
    have hissued : issuedBy (machineAt c.log call.index).data call.request = some fence := by
      rwa [entryFence,hentry] at hfence
    have hnext := hfew' (call.index+1)
    rw [machineAt_succ hentry] at hnext
    have hnew := (hfenced call.index).issued_eq hnext hissued
    have hle := (hfenced _).stored_le _ _ hmachine
    rw [(hfenced _).counter] at hle hnew
    have hmono := issued_length_le_of_isPrefix (take_prefix_take_left (not_lt.mp hbehind) (l := c.log))
    change (machineAt c.log _).issued.length ≤ (machineAt c.log _).issued.length at hmono
    omega
  refine ⟨happlied,?_,fun l' hl' => ?_⟩
  · refine (stores_or_gone (fun done hdone => ?_) hstores).resolve_right fun hgone => ?_
    · obtain ⟨m,hm⟩ := machineAt_exec_of_isPrefix happlied hdone
      rw [hm]
      exact ⟨hfenced m,hfew' m⟩
    · rw [machineAt_exec happlied] at hgone
      exact hgone.2 l hmachine hown
  · rw [hl] at hl'
    cases hl'
    exact hlive

theorem fencesTrue_setProgress
    (hcall : c.calls[k]? = some call) (hopen : ∀ outcome, call.progress ≠ .returned outcome) :
    FencesTrue (c.setProgress k p) ↔ FencesTrue c ∧ ∀ fence, p = .returned (some (.acquired fence)) →
      entryFence c.log call.index = some fence := by
  constructor
  · intro h
    constructor
    · intro other hother fence hreturned
      obtain ⟨j,hj⟩ := mem_iff_getElem?.mp hother
      have hjk : k ≠ j := by
        rintro rfl
        rw [hcall] at hj
        cases hj
        exact hopen _ hreturned
      refine h other (mem_iff_getElem?.mpr ⟨j,?_⟩) fence hreturned
      simp [Cluster.setProgress,hjk,hj]
    · intro fence hp
      refine h {call with progress := p} (mem_iff_getElem?.mpr ⟨k,?_⟩) fence hp
      simp [Cluster.setProgress,hcall]
  · rintro ⟨hold,hnew⟩ other hother fence hreturned
    rcases mem_setProgress hother with hother | ⟨old,hk,rfl⟩
    · exact hold other hother fence hreturned
    · rw [hcall] at hk
      cases hk
      exact hnew fence hreturned

theorem fencesTrue_concat (hc : Consistent c) (req : RaftRequest) :
    FencesTrue {c with log := c.log++[req]} ↔ FencesTrue c := by
  refine forall₂_congr fun call hcall => ?_
  rw [entryFence_concat (getElem?_isSome_lt (hc.entry call hcall))]

/-- What an event other than a reading does not change, and what a reading adds. -/
theorem fencesTrue_step (hc : Consistent c) (e : Event) :
    FencesTrue (c.step e) ↔ FencesTrue c ∧ ∀ k now call, e = .readBack k now →
    c.calls[k]? = some call →
      call.progress = .answered .ok →
      entryFence c.log call.index = some (readFence (c.replica call.node).data call.node call.realm
      now) := by
  cases e with
  | acquireLease node realm secs now =>
    have hlog := fencesTrue_concat hc (.acquireLease realm node secs now)
    simp only [reduceCtorEq,false_implies,implies_true,and_true]
    rw [← hlog]
    constructor
    · exact fun h call hcall => h call (mem_append_left _ hcall)
    · intro h call hcall fence hreturned
      rcases mem_append.mp hcall with hcall | hcall
      · exact h call hcall fence hreturned
      · rw [mem_singleton.mp hcall] at hreturned
        cases hreturned
  | commit req =>
    simp only [reduceCtorEq,false_implies,implies_true,and_true]
    exact fencesTrue_concat hc req
  | apply node =>
    simp only [reduceCtorEq,false_implies,implies_true,and_true,Cluster.step]
    split <;> exact Iff.rfl
  | answer k leader =>
    simp only [reduceCtorEq,false_implies,implies_true,and_true,Cluster.step]
    split
    case h_1 call hcall =>
      split
      case h_1 response hprogress hresponse =>
        rw [fencesTrue_setProgress hcall fun o h => by rw [hprogress] at h; cases h]
        simp
      case h_2 => exact Iff.rfl
    case h_2 => exact Iff.rfl
  | fail k =>
    simp only [reduceCtorEq,false_implies,implies_true,and_true,Cluster.step]
    split
    case h_1 call hcall =>
      split
      case isTrue hprogress =>
        rw [fencesTrue_setProgress hcall fun o h => by rw [hprogress] at h; cases h]
        simp
      case isFalse => exact Iff.rfl
    case h_2 => exact Iff.rfl
  | readBack k now =>
    simp only [Event.readBack.injEq,Cluster.step]
    split
    case h_1 call hcall =>
      split
      case h_1 response hprogress =>
        rw [fencesTrue_setProgress hcall fun o h => by rw [hprogress] at h; cases h]
        refine and_congr_right fun _ => ?_
        constructor
        · rintro h _ _ call' ⟨rfl,rfl⟩ hcall' hok
          rw [hcall] at hcall'
          cases hcall'
          rw [hprogress] at hok
          cases hok
          exact h _ rfl
        · intro h fence hfence
          have hok : response = .ok := by
            cases response with
            | ok => rfl
            | _ => cases hfence
          subst hok
          cases hfence
          exact h k now call ⟨rfl,rfl⟩ hcall hprogress
      case h_2 hprogress =>
        refine (and_iff_left ?_).symm
        rintro _ _ call' ⟨rfl,rfl⟩ hcall' hok
        rw [hcall] at hcall'
        cases hcall'
        exact absurd hok (hprogress _)
    case h_2 hnone =>
      refine (and_iff_left ?_).symm
      rintro _ _ call' ⟨rfl,rfl⟩ hcall' _
      rw [hnone] at hcall'
      cases hcall'

theorem step_log (c : Cluster) (e : Event) : c.log <+: (c.step e).log := by
  cases e with
  | acquireLease => exact prefix_append _ _
  | commit => exact prefix_append _ _
  | apply node =>
    rw [Cluster.step]
    split <;> exact prefix_refl _
  | answer | fail | readBack =>
    rw [Cluster.step]
    split
    · split <;> exact prefix_refl _
    · exact prefix_refl _

/-- Fences are those of their entries if callers read while their lease stands and, until the counter
saturates, only then. -/
theorem returned_fences_true_iff (events : List Event) :
    (Admissible Cluster.step ReadsOwnLease Cluster.start events →
      FencesTrue (exec Cluster.step Cluster.start events)) ∧
    ((replay (exec Cluster.step Cluster.start events).log).issued.length < 2^64 →
      FencesTrue (exec Cluster.step Cluster.start events) →
      Admissible Cluster.step ReadsOwnLease Cluster.start events) := by
  constructor
  · intro hok
    refine (invariant (I := fun c => Consistent c ∧ FencesTrue c) ?_
      ⟨consistent_start,by simp [FencesTrue,Cluster.start]⟩ hok).2
    rintro c e hown ⟨hc,htrue⟩
    refine ⟨consistent_step e hc,(fencesTrue_step hc e).mpr ⟨htrue,?_⟩⟩
    rintro k now call rfl hcall hanswered
    exact readFence_of_readsOwn hc hcall hanswered hown
  · intro hfew htrue
    refine (admissible_of_holds (I := Consistent) (P := FencesTrue) (Q := fun _ => True)
      (F := fun c => (replay c.log).issued.length < 2^64) (fun c e => consistent_step e)
      (fun c e => lt_of_le_of_lt (issued_length_le_of_isPrefix (step_log c e))) ?_
      (fun _ _ => trivial) consistent_start hfew htrue).2.2
    intro c e _ hc hfew htrue
    obtain ⟨hbefore,hread⟩ := (fencesTrue_step hc e).mp htrue
    refine ⟨hbefore,?_⟩
    cases e with
    | readBack k now =>
      intro call hcall hanswered
      have hfew' := lt_of_le_of_lt (issued_length_le_of_isPrefix (step_log c (.readBack k now))) hfew
      exact readsOwn_of_readFence hc hcall hanswered hfew' (hread k now call rfl hcall hanswered)
        call hcall hanswered
    | _ => trivial

def forwarded : List Event := [.acquireLease 2 "a" 10 100,.apply 1,.answer 0 1]

def laggingRead : Cluster := exec Cluster.step Cluster.start (forwarded++[.readBack 0 101])

def earlierRead : Cluster := exec Cluster.step Cluster.start (forwarded ++
  [.apply 2,.acquireLease 2 "a" 10 102,.apply 1,.answer 1 1,.readBack 1 103])

/-- The first call returns 0, the second the fence of the acquisition before. -/
theorem lagging_follower_misreads :
    laggingRead.calls = [⟨2,"a",10,100,0,.returned (some (.acquired 0))⟩] ∧
    entryFence laggingRead.log 0 = some 1 ∧
    earlierRead.calls[1]? = some ⟨2,"a",10,102,1,.returned (some (.acquired 1))⟩ ∧
    entryFence earlierRead.log 1 = some 2 ∧ ¬FencesTrue laggingRead := by
  have hcalls : laggingRead.calls = [⟨2,"a",10,100,0,.returned (some (.acquired 0))⟩] := by
    decide +kernel
  have hentry : entryFence laggingRead.log 0 = some 1 := by decide +kernel
  refine ⟨hcalls,hentry,by decide +kernel,by decide +kernel,fun h => ?_⟩
  have htrue := h ⟨2,"a",10,100,0,.returned (some (.acquired 0))⟩ (by rw [hcalls]; simp) 0 rfl
  cases htrue

/-- Once the follower has applied the entry it reads the fence of it. -/
theorem caught_up_follower_reads_own :
    FencesTrue (exec Cluster.step Cluster.start (forwarded++[.apply 2,.readBack 0 101])) := by
  refine (returned_fences_true_iff _).1 ⟨trivial,trivial,trivial,trivial,?_,trivial⟩
  intro call hcall _
  have hcall' : call = ⟨2,"a",10,100,0,.answered .ok⟩ := (some.inj hcall).symm
  subst hcall'
  refine ⟨by decide,trivial,fun l hl => ?_⟩
  have hl' : l = ⟨2,100,110,"a",1⟩ := (some.inj hl).symm
  subst hl'
  decide
end Hirn.Raft
