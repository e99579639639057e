import Hirn.IdempotencyCache
import Hirn.Runs

/-! Requests that run through the cache, interleaved at every locked operation. A reservation
lives no longer than the cache's lifetime, however long its request runs: as long as requests
are faster than that, they exclude one another, are replayed, and leave each other's entries
alone. -/
namespace Hirn.Idempotency
open Runs Function OrderedTable
variable {κ : Type} {u ttl : ℕ}

/-- The permit of a running request, with its reservation's number and time. -/
structure Permit (κ : Type) where
  id : NotifyId
  request : IdempotencyRequest κ
  reservedAt : ℕ
  deriving DecidableEq

inductive Outcome
  | replayed (response : CachedJsonResponse)
  | refused (status : ℕ) (message : String) (retryable : Bool)
  | finished (response : CachedJsonResponse)
  | dropped
  deriving DecidableEq

/-- Where a task stands in `acquire_idempotency_permit`, and behind it. -/
inductive Phase (κ : Type)
  | idle
  | calling (request : IdempotencyRequest κ)
  | replaying (request : IdempotencyRequest κ) (response : CachedJsonResponse) (scope : ReplayScope)
  | stale (request : IdempotencyRequest κ)
  | waiting (request : IdempotencyRequest κ) (notify : NotifyId)
  | registered (request : IdempotencyRequest κ) (notify : NotifyId)
  | holding (permit : Permit κ)
  | returned (outcome : Outcome)
  deriving DecidableEq

def Phase.permit? : Phase κ → Option (Permit κ)
  | .holding p => some p
  | _ => none

/-- A task that has left the lock first notifies those that it has to. -/
structure Task (κ : Type) where
  pending : List NotifyId
  phase : Phase κ
  deriving DecidableEq

inductive Event (κ : Type)
  | call (task : ℕ) (request : IdempotencyRequest κ)
  | reserve (task : ℕ) (now : ℕ)
  | check (task : ℕ) (owner : Option ℕ)
  | invalidate (task : ℕ)
  | register (task : ℕ)
  | finish (task : ℕ) (response : CachedJsonResponse) (scope : ReplayScope) (now : ℕ)
  | drop (task : ℕ)
  | notify (task : ℕ)

def ReplayScope.isCurrent : ReplayScope → Option ℕ → Bool
  | .localNode,_ => true
  | .forwarded owner,current => current == some owner

def afterReserve (request : IdempotencyRequest κ) (now : ℕ) (notify : NotifyId) : Reservation → Phase κ
  | .acquired => .holding ⟨notify,request,now⟩
  | .replay response scope => .replaying request response scope
  | .wait notify => .waiting request notify
  | .conflict =>
    .returned (.refused 409 "X-Idempotency-Key cannot be reused with a different request payload"
      false)
  | .atCapacity => .returned (.refused 503 "idempotency cache is at capacity — retry later" true)

/-- `notify_waiters` wakes the futures that are registered, and no others. -/
def wake (notify : NotifyId) (task : Task κ) : Task κ :=
  match task.phase with
  | .registered request n => if n = notify then {task with phase := .calling request} else task
  | _ => task

def Event.now? : Event κ → Option ℕ
  | .reserve _ now => some now
  | .finish _ _ _ now => some now
  | _ => none

def Event.task : Event κ → ℕ
  | .call t _ => t
  | .reserve t _ => t
  | .check t _ => t
  | .invalidate t => t
  | .register t => t
  | .finish t _ _ _ => t
  | .drop t => t
  | .notify t => t

variable {task : Task κ} {p : Permit κ} {tasks : ℕ → Task κ} {t : ℕ}

theorem holding_update (h : (update tasks t task u).phase = .holding p) :
    u = t ∧ task.phase = .holding p ∨ u ≠ t ∧ (tasks u).phase = .holding p := by
  by_cases hu : u = t
  · subst hu
    exact .inl ⟨rfl,by simpa using h⟩
  · exact .inr ⟨hu,by simpa [hu] using h⟩

variable {phase : Phase κ}

theorem ne_holding (h : phase.permit? = none) (p : Permit κ) : phase ≠ .holding p := by
  rintro rfl
  cases h

theorem not_holding_of_update (hphase : task.phase.permit? = none)
    (h : (update tasks t task u).phase = .holding p) : u ≠ t ∧ (tasks u).phase = .holding p := by
  rcases holding_update h with ⟨-,h⟩ | h
  · exact absurd h (ne_holding hphase p)
  · exact h

variable {now : ℕ} {request : IdempotencyRequest κ}

theorem afterReserve_holding {notify : NotifyId} {answer : Reservation}
    (h : afterReserve request now notify answer = .holding p) : answer = .acquired ∧
    p = ⟨notify,request,now⟩ := by
  cases answer with
  | acquired => exact ⟨rfl,(Phase.holding.inj h).symm⟩
  | _ => cases h

theorem wake_holding (h : (wake n task).phase = .holding p) : task.phase = .holding p := by
  unfold wake at h
  split at h
  · split at h
    · cases h
    · exact h
  · exact h

variable [LinearOrder κ]

/-- The cache with its tasks. `kept` is the last success stored under a key that was not evicted or
invalidated. -/
structure Server (κ : Type) [LinearOrder κ] where
  entries : Entries κ
  clock : ℕ
  nextNotify : NotifyId
  tasks : ℕ → Task κ
  kept : κ → Option CacheEntry

def Server.start : Server κ := ⟨.empty,0,0,fun _ => ⟨[],.idle⟩,fun _ => none⟩

def forgetEvicted (before after : Entries κ) (kept : κ → Option CacheEntry) (k : κ) :
    Option CacheEntry :=
  if (before.lookup k).isSome && (after.lookup k).isNone then none else kept k

variable (l : Limits) (s : Server κ)

def Server.stepReserve (t : ℕ) (request : IdempotencyRequest κ) (now : ℕ) : Server κ :=
  let locked := Idempotency.reserve l s.entries request now s.nextNotify
  {entries := locked.entries
   clock := now
   nextNotify := s.nextNotify+1
   tasks := Function.update s.tasks t ⟨locked.waiters,afterReserve request now s.nextNotify locked.answer⟩
   kept := forgetEvicted (evictExpired s.entries now l.ttl).1 locked.entries s.kept}

def Server.stepStore (t : ℕ) (p : Permit κ) (response : CachedJsonResponse) (scope : ReplayScope)
    (now : ℕ) : Server κ :=
  let locked := storeResponse l s.entries p.request response scope now
  let kept := forgetEvicted (evictExpired s.entries now l.ttl).1 locked.entries s.kept
  {entries := locked.entries
   clock := now
   nextNotify := s.nextNotify
   tasks := Function.update s.tasks t ⟨locked.waiters,.returned (.finished response)⟩
   kept := if locked.answer then
       Function.update kept p.request.cacheKey (some ⟨now,p.request.requestHash,.ready response scope⟩)
     else kept}

def Server.stepAbort (t : ℕ) (p : Permit κ) (outcome : Outcome) : Server κ :=
  let locked := abort s.entries p.request
  {s with entries := locked.entries,tasks := Function.update s.tasks t ⟨locked.waiters,.returned outcome⟩}

def Server.setPhase (t : ℕ) (phase : Phase κ) : Server κ :=
  {s with tasks := Function.update s.tasks t ⟨[],phase⟩}

/-- An event that its task is not ready for changes nothing. -/
def Server.step : Event κ → Server κ
  | .call t request =>
    match s.tasks t with
    | ⟨[],.idle⟩ => s.setPhase t (.calling request)
    | _ => s
  | .reserve t now =>
    match s.tasks t with
    | ⟨[],.calling request⟩ => s.stepReserve l t request now
    | _ => s
  | .check t owner =>
    match s.tasks t with
    | ⟨[],.replaying request response scope⟩ =>
      s.setPhase t (if scope.isCurrent owner then .returned (.replayed response) else .stale request)
    | _ => s
  | .invalidate t =>
    match s.tasks t with
    | ⟨[],.stale request⟩ =>
      let entries := invalidateReady s.entries request
      {s.setPhase t (.calling request) with
        entries := entries
        kept := forgetEvicted s.entries entries s.kept}
    | _ => s
  | .register t =>
    match s.tasks t with
    | ⟨[],.waiting request notify⟩ => s.setPhase t (.registered request notify)
    | _ => s
  | .finish t response scope now =>
    match s.tasks t with
    | ⟨[],.holding p⟩ =>
      if response.isSuccess then s.stepStore l t p response scope now
      else s.stepAbort t p (.finished response)
    | _ => s
  | .drop t =>
    match s.tasks t with
    | ⟨[],.holding p⟩ => s.stepAbort t p .dropped
    | _ => s
  | .notify t =>
    match s.tasks t with
    | ⟨n::ns,phase⟩ => {s with tasks := fun u => if u = t then ⟨ns,phase⟩ else wake n (s.tasks u)}
    | _ => s

def Timely (e : Event κ) : Prop := ∀ now ∈ e.now?, s.clock ≤ now
  deriving Decidable

/-- When the clock is read, other running reservations are within the lifetime. -/
def Young (e : Event κ) : Prop :=
  ∀ now ∈ e.now?, ∀ u p, u ≠ e.task → (s.tasks u).phase = .holding p → now-p.reservedAt < l.ttl

def Exclusive : Prop :=
  ∀ t u p q, t ≠ u → (s.tasks t).phase = .holding p → (s.tasks u).phase = .holding q →
    ¬(p.request.cacheKey = q.request.cacheKey ∧ p.request.requestHash = q.request.requestHash)

def Replays : Prop :=
  ∀ t request now e, s.tasks t = ⟨[],.calling request⟩ → s.clock ≤ now →
  s.kept request.cacheKey = some e →
    e.requestHash = request.requestHash → now-e.insertedAt < l.ttl → ∃ response scope,
      e.state = .ready response scope ∧
      ((s.step l (.reserve t now)).tasks t).phase = .replaying request response scope

/-- A request's end leaves all entries but its own and responses past their lifetime. -/
def SparesOthers (e : Event κ) : Prop :=
  ∀ t p, s.tasks t = ⟨[],.holding p⟩ → (e = .drop t ∨ ∃ response scope now,
  e = .finish t response scope now) →
    ∀ k entry, s.entries.lookup k = some entry → entry.state ≠ .inFlight p.id →
      (s.step l e).entries.lookup k = some entry ∨
        entry.state.isReady = true ∧ ∃ now ∈ e.now?, entry.isExpired l.ttl now = true

variable {s}

open Server

theorem length_step_le (e : Event κ) (h : s.entries.rows.length ≤ l.maxEntries) :
    (s.step l e).entries.rows.length ≤ l.maxEntries := by
  cases e with
  | reserve t now =>
    simp only [step]
    split
    · exact length_reserve_le _ h
    · exact h
  | invalidate t =>
    simp only [step]
    split
    · exact length_invalidateReady_le.trans h
    · exact h
  | finish t response scope now =>
    simp only [step]
    split
    · split
      · exact length_storeResponse_le h
      · exact length_abort_le.trans h
    · exact h
  | drop t =>
    simp only [step]
    split
    · exact length_abort_le.trans h
    · exact h
  | _ =>
    simp only [step]
    split <;> exact h

variable {entries : Entries κ} {q : Permit κ} {e : CacheEntry}

section

def Permit.reservation (p : Permit κ) : CacheEntry :=
  ⟨p.reservedAt,p.request.requestHash,.inFlight p.id⟩

/-- Every running reservation in the map is that of a permit which is held. -/
def Running (s : Server κ) : Prop :=
  ∀ k e, s.entries.lookup k = some e → e.state.isReady = false →
    ∃ u q, (s.tasks u).phase = .holding q ∧ q.request.cacheKey = k ∧ e = q.reservation

variable {l}

theorem Running.of_subset (h : Running s)
    (hentries : ∀ k e, s'.entries.lookup k = some e → e.state.isReady = false →
    s.entries.lookup k = some e)
    (hphase : ∀ u q, (s.tasks u).phase = .holding q → (s'.tasks u).phase = .holding q) :
    Running s' := by
  intro k e he hstate
  obtain ⟨u,q,hq,hkey⟩ := h k e (hentries k e he hstate) hstate
  exact ⟨u,q,hphase u q hq,hkey⟩

theorem lookup_of_evictExpired
    (h : (evictExpired entries now ttl).1.lookup k = some e) : entries.lookup k = some e := by
  rw [lookup_evictExpired] at h
  exact (Option.filter_eq_some_iff.mp h).1

theorem holding_of_ne (ht : s.tasks t = task)
    (hphase : task.phase.permit? = none) (hq : (s.tasks u).phase = .holding q) :
    (update s.tasks t task' u).phase = .holding q := by
  have hu : u ≠ t := by
    rintro rfl
    rw [ht] at hq
    exact ne_holding hphase q hq
  rwa [update_of_ne hu]

theorem running_reserve (h : Running s)
    (htask : s.tasks t = ⟨[],.calling request⟩) : Running (s.stepReserve l t request now) := by
  intro k e he hstate
  have hsubset : (evictExpired s.entries now l.ttl).1.lookup k = some e →
      ∃ u q, ((s.stepReserve l t request now).tasks u).phase = .holding q ∧ q.request.cacheKey = k ∧
        e = q.reservation := by
    intro hevicted
    obtain ⟨u,q,hq,hkey⟩ := h k e (lookup_of_evictExpired hevicted) hstate
    exact ⟨u,q,holding_of_ne htask rfl hq,hkey⟩
  rcases lookup_reserve s.entries request now s.nextNotify k with hsame | ⟨hnone,-⟩ | ⟨rfl,-,
    hanswer,hnew⟩
  · exact hsubset (hsame.symm.trans he)
  · cases hnone.symm.trans he
  · refine ⟨t,⟨s.nextNotify,request,now⟩,?_,rfl,Option.some.inj (he.symm.trans hnew)⟩
    simp [stepReserve,hanswer,afterReserve]

theorem running_end (h : Running s) (htask : (s.tasks t).phase = .holding p)
    {waiters : List NotifyId} {outcome : Outcome} {clock nextNotify : ℕ} {kept : κ → Option CacheEntry}
    (hentries : ∀ k e, entries.lookup k = some e → e.state.isReady = false →
    s.entries.lookup k = some e) (hown : s.entries.lookup p.request.cacheKey = some p.reservation →
      entries.lookup p.request.cacheKey ≠ some p.reservation) :
    Running ⟨entries,clock,nextNotify,update s.tasks t ⟨waiters,.returned outcome⟩,kept⟩ := by
  intro k e he hstate
  have hbefore := hentries k e he hstate
  obtain ⟨u,q,hq,rfl,rfl⟩ := h k e hbefore hstate
  have hu : u ≠ t := by
    rintro rfl
    rw [htask] at hq
    cases hq
    exact hown hbefore he
  exact ⟨u,q,by simpa [hu] using hq,rfl,rfl⟩

theorem reservation_ends_store (hbound : s.entries.rows.length ≤ l.maxEntries)
    (response : CachedJsonResponse) (scope : ReplayScope) (now : ℕ) :
    (storeResponse l s.entries p.request response scope now).entries.lookup p.request.cacheKey ≠
    some p.reservation := by
  intro hafter
  rcases storeResponse_cases p.request response scope now hbound with ⟨hanswer,hsame⟩ | ⟨-,-,hstored⟩
  · rw [hsame] at hafter
    have hfound : (storeResponse l s.entries p.request response scope now).answer := by
      simp [storeResponse,hafter,Permit.reservation]
    rw [hanswer] at hfound
    cases hfound
  · rw [hstored,lookup_insert_self] at hafter
    cases hafter

theorem running_store (h : Running s) (hbound : s.entries.rows.length ≤ l.maxEntries)
    (htask : (s.tasks t).phase = .holding p) (response : CachedJsonResponse) (scope : ReplayScope) :
    Running (s.stepStore l t p response scope now) := by
  refine running_end h htask (fun k e he hstate => ?_) fun _ => reservation_ends_store hbound
    response scope now
  rcases storeResponse_cases p.request response scope now hbound with ⟨-,hsame⟩ | ⟨-,-,hstored⟩
  · rw [hsame] at he
    exact lookup_of_evictExpired he
  · rw [hstored] at he
    by_cases hk : k = p.request.cacheKey
    · subst hk
      rw [lookup_insert_self] at he
      cases he
      cases hstate
    · rw [lookup_insert_of_ne hk,lookup_remove_of_ne hk] at he
      exact lookup_of_evictExpired he

theorem running_abort (h : Running s) (htask : (s.tasks t).phase = .holding p)
    (outcome : Outcome) : Running (s.stepAbort t p outcome) := by
  refine running_end h htask (fun k e he _ => ?_) fun hown hafter => ?_
  · rcases lookup_abort s.entries p.request k with hsame | ⟨-,hnone,-⟩
    · exact hsame.symm.trans he
    · cases hnone.symm.trans he
  · cases (lookup_abort_self hown).symm.trans hafter

theorem running_step (e : Event κ) (hbound : s.entries.rows.length ≤ l.maxEntries) (h : Running s) :
    Running (s.step l e) := by
  have hphase : ∀ {t : ℕ} {phase phase' : Phase κ}, s.tasks t = ⟨[],phase⟩ → phase.permit? = none →
      Running (s.setPhase t phase') := fun ht hne =>
    h.of_subset (fun _ _ he _ => he) fun u q hq => holding_of_ne ht hne hq
  cases e with
  | call t request =>
    simp only [step]
    split
    · rename_i htask
      exact hphase htask rfl
    · exact h
  | reserve t now =>
    simp only [step]
    split
    · rename_i request htask
      exact running_reserve h htask
    · exact h
  | check t owner =>
    simp only [step]
    split
    · rename_i request response scope htask
      exact hphase htask rfl
    · exact h
  | invalidate t =>
    simp only [step]
    split
    · rename_i request htask
      refine h.of_subset (fun k e he _ => ?_) fun u q hq => holding_of_ne htask rfl hq
      rcases lookup_invalidateReady s.entries request k with hsame | ⟨-,hnone,-⟩
      · exact hsame.symm.trans he
      · cases hnone.symm.trans he
    · exact h
  | register t =>
    simp only [step]
    split
    · rename_i request n htask
      exact hphase htask rfl
    · exact h
  | finish t response scope now =>
    simp only [step]
    split
    · rename_i p htask
      have hholding : (s.tasks t).phase = .holding p := by rw [htask]
      split
      · exact running_store h hbound hholding response scope
      · exact running_abort h hholding _
    · exact h
  | drop t =>
    simp only [step]
    split
    · rename_i p htask
      exact running_abort h (by rw [htask]) _
    · exact h
  | notify t =>
    simp only [step]
    split
    · rename_i n ns phase htask
      refine h.of_subset (fun _ _ he _ => he) fun u q hq => ?_
      by_cases hu : u = t
      · subst hu
        rw [htask] at hq
        simpa using hq
      · simp [hu,wake,hq]
    · exact h
end
section

/-- Permits have reservations in the map, and kept successes are there until they expire. -/
structure Owned (s : Server κ) : Prop where
  held : ∀ t p, (s.tasks t).phase = .holding p → s.entries.lookup p.request.cacheKey =
    some p.reservation
  unique : ∀ t u p q, (s.tasks t).phase = .holding p → (s.tasks u).phase = .holding q →
    p.id = q.id → t = u
  fresh : ∀ t p, (s.tasks t).phase = .holding p → p.id < s.nextNotify
  kept : ∀ k e, s.kept k = some e → e.state.isReady = true ∧
    (s.entries.lookup k = some e ∨ l.ttl ≤ s.clock-e.insertedAt)

variable {l} (h : Owned l s)
include h

theorem Owned.key_unique (ht : (s.tasks t).phase = .holding p) (hu : (s.tasks u).phase = .holding q)
    (hkey : p.request.cacheKey = q.request.cacheKey) : t = u := by
  have hp := h.held t p ht
  rw [hkey,h.held u q hu] at hp
  refine h.unique t u p q ht hu ?_
  have hstate := congrArg CacheEntry.state (Option.some.inj hp)
  exact (EntryState.inFlight.inj hstate).symm

theorem Owned.frame (hentries : s'.entries = s.entries)
    (hclock : s'.clock = s.clock) (hnext : s'.nextNotify = s.nextNotify) (hkept : s'.kept = s.kept)
    (hphase : ∀ t p, (s'.tasks t).phase = .holding p → (s.tasks t).phase = .holding p) :
    Owned l s' where
  held t p ht := hentries ▸ h.held t p (hphase t p ht)
  unique t u p q ht hu := h.unique t u p q (hphase t p ht) (hphase u q hu)
  fresh t p ht := hnext ▸ h.fresh t p (hphase t p ht)
  kept k e he := by
    rw [hentries,hclock]
    exact h.kept k e (hkept ▸ he)

theorem owned_setPhase (hphase : phase.permit? = none) : Owned l (s.setPhase t phase) :=
  h.frame rfl rfl rfl rfl fun _ _ hu => (not_holding_of_update hphase hu).2

omit h in
theorem isExpired_eq_false (h : now-e.insertedAt < ttl) : e.isExpired ttl now = false := by
  simpa [CacheEntry.isExpired] using h

omit h in
theorem lookup_evictExpired_young {k : κ} (h : entries.lookup k = some e)
    (hyoung : now-e.insertedAt < ttl) : (evictExpired entries now ttl).1.lookup k = some e := by
  rw [lookup_evictExpired,h,Option.filter_some,isExpired_eq_false hyoung]
  rfl

theorem kept_of_evicted {after : Entries κ} (htime : s.clock ≤ now) {k : κ}
    (hafter : (evictExpired s.entries now l.ttl).1.lookup k = some e →
      after.lookup k = some e ∨ after.lookup k = none)
    (hk : forgetEvicted (evictExpired s.entries now l.ttl).1 after s.kept k = some e) :
    e.state.isReady ∧ (after.lookup k = some e ∨ l.ttl ≤ now-e.insertedAt) := by
  rw [forgetEvicted] at hk
  split at hk
  · cases hk
  rename_i hpresent
  obtain ⟨hready,hlookup⟩ := h.kept k e hk
  refine ⟨hready,?_⟩
  by_cases hyoung : now-e.insertedAt < l.ttl
  · have hbefore : s.entries.lookup k = some e := hlookup.resolve_right (by omega)
    have hevicted := lookup_evictExpired_young hbefore hyoung
    rcases hafter hevicted with hsame | hnone
    · exact .inl hsame
    · simp [hevicted,hnone] at hpresent
  · exact .inr (not_lt.mp hyoung)

theorem owned_reserve (htime : s.clock ≤ now)
    (hyoung : ∀ u p, u ≠ t → (s.tasks u).phase = .holding p → now-p.reservedAt < l.ttl) :
    Owned l (s.stepReserve l t request now) := by
  have hothers : ∀ u p, u ≠ t → (s.tasks u).phase = .holding p →
      (evictExpired s.entries now l.ttl).1.lookup p.request.cacheKey = some p.reservation :=
    fun u p hu hp => lookup_evictExpired_young (h.held u p hp) (hyoung u p hu hp)
  constructor
  · intro u p hp
    rcases holding_update hp with ⟨rfl,hnew⟩ | ⟨hu,hold⟩
    · obtain ⟨hacquired,rfl⟩ := afterReserve_holding hnew
      exact (reserve_acquired hacquired).2
    · have hevicted := hothers u p hu hold
      rcases lookup_reserve s.entries request now s.nextNotify p.request.cacheKey with hsame | ⟨-,e,
        he,hready⟩ | ⟨-,hnone,-⟩
      · exact hsame.trans hevicted
      · rw [hevicted] at he
        cases he
        cases hready
      · rw [hevicted] at hnone
        cases hnone
  · intro u v p q hp hq hid
    rcases holding_update hp with ⟨rfl,hnew⟩ | ⟨hu,hold⟩ <;> rcases holding_update hq with ⟨rfl,
      hnew'⟩ | ⟨hv,hold'⟩
    · rfl
    · obtain ⟨-,rfl⟩ := afterReserve_holding hnew
      exact absurd hid (h.fresh v q hold').ne'
    · obtain ⟨-,rfl⟩ := afterReserve_holding hnew'
      exact absurd hid (h.fresh u p hold).ne
    · exact h.unique u v p q hold hold' hid
  · intro u p hp
    rcases holding_update hp with ⟨rfl,hnew⟩ | ⟨-,hold⟩
    · obtain ⟨-,rfl⟩ := afterReserve_holding hnew
      exact Nat.lt_succ_self _
    · exact (h.fresh u p hold).trans (Nat.lt_succ_self _)
  · intro k e hk
    refine kept_of_evicted h htime (fun hevicted => ?_) hk
    rcases lookup_reserve s.entries request now s.nextNotify k with hsame | ⟨hnone,-⟩ | ⟨-,hnone,-⟩
    · exact .inl (hsame.trans hevicted)
    · exact .inr hnone
    · rw [hevicted] at hnone
      cases hnone

omit h in
theorem lookup_stepStore (hbound : s.entries.rows.length ≤ l.maxEntries) (t : ℕ) (p : Permit κ)
    (response : CachedJsonResponse) (scope : ReplayScope) (now : ℕ) (hk : k ≠ p.request.cacheKey) :
    (s.stepStore l t p response scope now).entries.lookup k =
    (evictExpired s.entries now l.ttl).1.lookup k := by
  rcases storeResponse_cases p.request response scope now hbound with ⟨-,hsame⟩ | ⟨-,-,hstored⟩
  · exact congrArg (lookup · k) hsame
  · refine (congrArg (lookup · k) hstored).trans ?_
    rw [lookup_insert_of_ne hk,lookup_remove_of_ne hk]

theorem owned_store (hbound : s.entries.rows.length ≤ l.maxEntries)
    (htask : (s.tasks t).phase = .holding p) (htime : s.clock ≤ now)
    (hyoung : ∀ u q, u ≠ t → (s.tasks u).phase = .holding q → now-q.reservedAt < l.ttl)
    (response : CachedJsonResponse) (scope : ReplayScope) :
    Owned l (s.stepStore l t p response scope now) := by
  have hback : ∀ u q, ((s.stepStore l t p response scope now).tasks u).phase = .holding q →
      u ≠ t ∧ (s.tasks u).phase = .holding q := fun u q hq => not_holding_of_update rfl hq
  constructor
  · intro u q hq
    obtain ⟨hu,hold⟩ := hback u q hq
    have hkey : q.request.cacheKey ≠ p.request.cacheKey :=
      fun hkey => hu (h.key_unique hold htask hkey)
    rw [lookup_stepStore hbound t p response scope now hkey]
    exact lookup_evictExpired_young (h.held u q hold) (hyoung u q hu hold)
  · intro u v q r hq hr
    exact h.unique u v q r (hback u q hq).2 (hback v r hr).2
  · intro u q hq
    exact h.fresh u q (hback u q hq).2
  · intro k e hk
    by_cases hkey : k = p.request.cacheKey
    · subst hkey
      rcases storeResponse_cases p.request response scope now hbound with ⟨hanswer,
        hsame⟩ | ⟨hanswer,-,hstored⟩
      · simp only [stepStore,hanswer] at hk ⊢
        refine kept_of_evicted h htime (fun hevicted => .inl ?_) hk
        rw [hsame,hevicted]
      · simp only [stepStore,hanswer,if_true,update_self,Option.some.injEq] at hk ⊢
        subst hk
        refine ⟨rfl,.inl ?_⟩
        rw [hstored,lookup_insert_self]
    · have hlookup := lookup_stepStore hbound t p response scope now hkey
      have hk' : forgetEvicted (evictExpired s.entries now l.ttl).1
          (s.stepStore l t p response scope now).entries s.kept k = some e := by
        simp only [stepStore] at hk ⊢
        split at hk
        · rwa [update_of_ne hkey] at hk
        · exact hk
      exact kept_of_evicted h htime (fun hevicted => .inl (hlookup.trans hevicted)) hk'

theorem owned_abort (htask : (s.tasks t).phase = .holding p)
    (outcome : Outcome) : Owned l (s.stepAbort t p outcome) := by
  have hback : ∀ u q, ((s.stepAbort t p outcome).tasks u).phase = .holding q →
      u ≠ t ∧ (s.tasks u).phase = .holding q := fun u q hq => not_holding_of_update rfl hq
  constructor
  · intro u q hq
    obtain ⟨hu,hold⟩ := hback u q hq
    rcases lookup_abort s.entries p.request q.request.cacheKey with hsame | ⟨hkey,-⟩
    · exact hsame.trans (h.held u q hold)
    · exact absurd (h.key_unique hold htask hkey) hu
  · intro u v q r hq hr
    exact h.unique u v q r (hback u q hq).2 (hback v r hr).2
  · intro u q hq
    exact h.fresh u q (hback u q hq).2
  · intro k e hk
    obtain ⟨hready,hlookup⟩ := h.kept k e hk
    refine ⟨hready,hlookup.imp_left fun hlookup => ?_⟩
    rcases lookup_abort s.entries p.request k with hsame | ⟨-,-,time,notify,hinFlight⟩
    · exact hsame.trans hlookup
    · rw [hlookup] at hinFlight
      cases hinFlight
      cases hready

theorem owned_invalidate (htask : s.tasks t = ⟨[],.stale request⟩) :
    Owned l (s.step l (.invalidate t)) := by
  simp only [step,htask]
  have hback : ∀ u q, (update s.tasks t ⟨[],.calling request⟩ u).phase = .holding q →
      (s.tasks u).phase = .holding q := fun u q hq => (not_holding_of_update rfl hq).2
  constructor
  · intro u q hq
    have hheld := h.held u q (hback u q hq)
    rcases lookup_invalidateReady s.entries request q.request.cacheKey with hsame | ⟨-,-,e,he,hready⟩
    · exact hsame.trans hheld
    · rw [hheld] at he
      cases he
      cases hready
  · intro u v q r hq hr
    exact h.unique u v q r (hback u q hq) (hback v r hr)
  · intro u q hq
    exact h.fresh u q (hback u q hq)
  · intro k e hk
    simp only [forgetEvicted] at hk
    split at hk
    · cases hk
    rename_i hpresent
    obtain ⟨hready,hlookup⟩ := h.kept k e hk
    refine ⟨hready,hlookup.imp_left fun hlookup => ?_⟩
    rcases lookup_invalidateReady s.entries request k with hsame | ⟨-,hnone,-⟩
    · exact hsame.trans hlookup
    · simp [hlookup,hnone] at hpresent

omit h in
theorem owned_step (e : Event κ) (hbound : s.entries.rows.length ≤ l.maxEntries)
    (htime : Timely s e) (hyoung : Young l s e) (h : Owned l s) : Owned l (s.step l e) := by
  cases e with
  | call t request =>
    simp only [step]
    split
    · exact owned_setPhase h rfl
    · exact h
  | reserve t now =>
    simp only [step]
    split
    · exact owned_reserve h (htime now rfl) (hyoung now rfl)
    · exact h
  | check t owner =>
    simp only [step]
    split
    · refine owned_setPhase h ?_
      split <;> rfl
    · exact h
  | invalidate t =>
    by_cases hstale : ∃ request, s.tasks t = ⟨[],.stale request⟩
    · obtain ⟨request,htask⟩ := hstale
      exact owned_invalidate h htask
    · simp only [step]
      split
      · rename_i request htask
        exact absurd ⟨request,htask⟩ hstale
      · exact h
  | register t =>
    simp only [step]
    split
    · exact owned_setPhase h rfl
    · exact h
  | finish t response scope now =>
    simp only [step]
    split
    · rename_i p htask
      have hphase : (s.tasks t).phase = .holding p := by rw [htask]
      split
      · exact owned_store h hbound hphase (htime now rfl) (hyoung now rfl) response scope
      · exact owned_abort h hphase _
    · exact h
  | drop t =>
    simp only [step]
    split
    · rename_i p htask
      exact owned_abort h (by rw [htask]) _
    · exact h
  | notify t =>
    simp only [step]
    split
    · rename_i n ns phase htask
      refine h.frame rfl rfl rfl rfl fun u p hp => ?_
      by_cases hu : u = t
      · subst hu
        rw [htask]
        simpa using hp
      · simp only [hu,if_false] at hp
        exact wake_holding hp
    · exact h

omit h in
theorem owned_start : Owned l (start : Server κ) := by
  constructor <;> simp [start]

theorem Owned.exclusive : Exclusive s := by
  rintro t u p q htu hp hq ⟨hkey,-⟩
  exact htu (h.key_unique hp hq hkey)

theorem Owned.replays : Replays l s := by
  intro t request now e htask htime hkept hhash hyoung
  obtain ⟨hready,hlookup⟩ := h.kept _ e hkept
  have hevicted := lookup_evictExpired_young (hlookup.resolve_right (by omega)) hyoung
  cases hstate : e.state with
  | inFlight n =>
    rw [hstate] at hready
    cases hready
  | ready response scope =>
    simp [step,htask,stepReserve,Idempotency.reserve,hevicted,hhash,hstate,afterReserve]

theorem Owned.sparesOthers (hrunning : Running s)
    (hbound : s.entries.rows.length ≤ l.maxEntries) {e : Event κ} (hyoung : Young l s e) :
    SparesOthers l s e := by
  rintro t p htask hends k entry hentry hother
  have hholding : (s.tasks t).phase = .holding p := by rw [htask]
  have hkey : k ≠ p.request.cacheKey := by
    rintro rfl
    rw [h.held t p hholding] at hentry
    cases hentry
    exact hother rfl
  have habort : ∀ outcome, (s.stepAbort t p outcome).entries.lookup k = some entry := by
    intro outcome
    rcases lookup_abort s.entries p.request k with hsame | ⟨hk,-⟩
    · exact hsame.trans hentry
    · exact absurd hk hkey
  rcases hends with rfl | ⟨response,scope,now,rfl⟩
  · left
    simp only [step,htask]
    exact habort _
  · simp only [step,htask]
    split
    · rw [lookup_stepStore hbound t p response scope now hkey,lookup_evictExpired,hentry,
        Option.filter_some]
      cases hexpired : entry.isExpired l.ttl now with
      | false => exact .inl rfl
      | true =>
        right
        refine ⟨?_,now,rfl,hexpired⟩
        by_contra hstate
        obtain ⟨u,q,hq,rfl,rfl⟩ := hrunning k entry hentry (by simpa using hstate)
        have hu : u ≠ t := by
          rintro rfl
          rw [hholding] at hq
          cases hq
          exact hkey rfl
        have hage := isExpired_eq_false (hyoung now rfl u q hu hq) (e := q.reservation)
        rw [hage] at hexpired
        cases hexpired
    · exact .inl (habort _)
end

theorem bounded_exec (l : Limits) (events : List (Event κ)) :
    (exec (step l) (.start : Server κ) events).entries.rows.length ≤ l.maxEntries := by
  refine invariant_of_forall (I := fun s : Server κ => s.entries.rows.length ≤ l.maxEntries)
    (Q := fun _ => True) (fun s e _ h => length_step_le l e h) ?_ fun _ _ => trivial
  simp [start]

theorem running_exec (l : Limits) (events : List (Event κ)) :
    Running (exec (step l) (.start : Server κ) events) := by
  refine (invariant_of_forall (Q := fun _ => True)
    (I := fun s : Server κ => s.entries.rows.length ≤ l.maxEntries ∧ Running s)
    (fun s e _ h => ⟨length_step_le l e h.1,running_step e h.1 h.2⟩) ?_ fun _ _ => trivial).2
  exact ⟨by simp [start],by simp [Running,start]⟩

theorem owned_exec {l : Limits}
    (hok : Admissible (step l) (fun s e => Timely s e ∧ Young l s e) (.start : Server κ) events) :
    Owned l (exec (step l) (.start : Server κ) events) := by
  refine (invariant (I := fun s : Server κ => s.entries.rows.length ≤ l.maxEntries ∧ Owned l s)
    (fun s e hok h => ⟨length_step_le l e h.1,owned_step e h.1 hok.1 hok.2 h.2⟩) ?_ hok).2
  exact ⟨by simp [start],owned_start⟩

/-- The map keeps to its capacity; and where requests are faster than their reservations, they exclude
one another, successes are replayed and others' entries stay. -/
theorem idempotent_requests_once {κ : Type} [LinearOrder κ] (l : Limits) (events : List (Event κ))
    (htime : Admissible (step l) Timely .start events) :
    let s := exec (step l) (.start : Server κ) events
    s.entries.rows.length ≤ l.maxEntries ∧
    (Admissible (step l) (Young l) .start events →
      Exclusive s ∧ Replays l s ∧ ∀ e, Timely s e → Young l s e → SparesOthers l s e) := by
  refine ⟨bounded_exec l events,fun hyoung => ?_⟩
  have howned := owned_exec (htime.and hyoung)
  refine ⟨howned.exclusive,howned.replays,fun e _ hyoung => ?_⟩
  exact howned.sparesOthers (running_exec l events) (bounded_exec l events) hyoung

def sampleLimits : Limits := ⟨10,4⟩
def sampleRequest : IdempotencyRequest ℕ := ⟨1,"hash"⟩
def created : CachedJsonResponse := ⟨201,[]⟩

/-- A request runs as long as its reservation lives, and another of its key comes. -/
def overtaken : List (Event ℕ) :=
  [.call 0 sampleRequest,.reserve 0 0,.call 1 sampleRequest,.reserve 1 10,.notify 1]

/-- The second request finishes while the first still holds a permit, whose drop or success then takes
its place. -/
theorem slow_request_runs_twice : let s := exec (step sampleLimits) .start overtaken
    Admissible (step sampleLimits) Timely .start overtaken ∧
    (s.tasks 0).phase = .holding ⟨0,sampleRequest,0⟩ ∧
    (s.tasks 1).phase = .holding ⟨1,sampleRequest,10⟩ ∧
    s.entries.lookup 1 = some ⟨10,"hash",.inFlight 1⟩ ∧
    (s.step sampleLimits (.drop 0)).entries.lookup 1 = none ∧
    (s.step sampleLimits (.finish 0 created .localNode 11)).entries.lookup 1 =
      some ⟨11,"hash",.ready created .localNode⟩ ∧
    ¬Exclusive s := by
  intro s
  have h₀ : (s.tasks 0).phase = .holding ⟨0,sampleRequest,0⟩ := by decide
  have h₁ : (s.tasks 1).phase = .holding ⟨1,sampleRequest,10⟩ := by decide
  exact ⟨by decide,h₀,h₁,by decide,by decide,by decide,fun h => h 0 1 _ _ (by decide) h₀ h₁ ⟨rfl,rfl⟩⟩

def inTime : List (Event ℕ) :=
  [.call 0 sampleRequest,.reserve 0 0,.call 1 sampleRequest,.reserve 1 5,.register 1,
  .finish 0 created .localNode 9,
    .notify 0]

theorem inTime_young : Admissible (step sampleLimits) (Young sampleLimits) .start inTime := by
  refine ⟨nofun,?_,nofun,?_,nofun,?_,nofun,trivial⟩
  · rintro now ⟨⟩ u p - hp
    rcases u with _ | u <;> cases hp
  · rintro now ⟨⟩ u p - hp
    rcases u with _ | _ | u <;> cases hp
    decide
  · rintro now ⟨⟩ u p hu hp
    rcases u with _ | _ | u
    · exact absurd rfl hu
    · cases hp
    · cases hp

theorem idempotent_requests_once_inTime :
    (exec (step sampleLimits) (.start : Server ℕ) inTime).kept 1 =
    some ⟨9,"hash",.ready created .localNode⟩ ∧
    (exec (step sampleLimits) (.start : Server ℕ) inTime).tasks 1 = ⟨[],.calling sampleRequest⟩ ∧
    Replays sampleLimits (exec (step sampleLimits) (.start : Server ℕ) inTime) := by
  refine ⟨by decide,by decide,?_⟩
  exact ((idempotent_requests_once sampleLimits inTime (by decide)).2 inTime_young).2.1
end Hirn.Idempotency
