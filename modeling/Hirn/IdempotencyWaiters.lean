import Hirn.IdempotencyRuns
import Hirn.Schedules

/-! Requests that wait for another one with their key. A waiter takes the `Notify` under the lock
and registers with it later: a notification that falls between the two is lost, and nothing
else wakes the waiter. -/
namespace Hirn.Idempotency
open Schedules Server Function Event
variable {κ : Type} {n' : NotifyId}

def Phase.isRunnable : Phase κ → Bool
  | .idle => false
  | .registered _ _ => false
  | .returned _ => false
  | _ => true

/-- The request of a call to `acquire_idempotency_permit` that has not returned. -/
def Phase.calls? : Phase κ → Option (IdempotencyRequest κ)
  | .calling request => some request
  | .replaying request _ _ => some request
  | .stale request => some request
  | .waiting request _ => some request
  | .registered request _ => some request
  | _ => none

def Phase.awaits? : Phase κ → Option (IdempotencyRequest κ × NotifyId)
  | .waiting request n => some (request,n)
  | .registered request n => some (request,n)
  | _ => none

def Phase.hasReturned : Phase κ → Bool
  | .holding _ => true
  | .returned _ => true
  | _ => false

variable {task : Task κ} {n : NotifyId}

theorem wake_of_calls (h : ∀ request n, task.phase ≠ .registered request n) : wake n task = task := by
  unfold wake
  split
  · rename_i hphase
    exact absurd hphase (h _ _)
  · rfl

variable {request : IdempotencyRequest κ}

theorem wake_registered (h : task.phase = .registered request n') :
    (wake n task).phase = if n' = n then .calling request else .registered request n' := by
  simp only [wake,h]
  split
  · rfl
  · exact h

def scripted (script : List (Event κ)) (n : ℕ) : Event κ := script.getD n (.notify 0)

variable {t : ℕ} {script : List (Event κ)}

theorem scripted_task_ne (h : ∀ e ∈ script, e.task < t) (ht : 0 < t) (m : ℕ) :
    (scripted script m).task ≠ t := by
  rw [scripted,List.getD_eq_getElem?_getD]
  cases hm : script[m]? with
  | none => exact ht.ne
  | some e => exact (h e (List.mem_of_getElem? hm)).ne

variable [LinearOrder κ]

/-- The task of the event is ready for it. -/
def Server.ready (s : Server κ) : Event κ → Prop
  | .call t _ => s.tasks t = ⟨[],.idle⟩
  | .reserve t _ => ∃ request, s.tasks t = ⟨[],.calling request⟩
  | .check t _ => ∃ request response scope, s.tasks t = ⟨[],.replaying request response scope⟩
  | .invalidate t => ∃ request, s.tasks t = ⟨[],.stale request⟩
  | .register t => ∃ request n, s.tasks t = ⟨[],.waiting request n⟩
  | .finish t _ _ _ => ∃ p, s.tasks t = ⟨[],.holding p⟩
  | .drop t => ∃ p, s.tasks t = ⟨[],.holding p⟩
  | .notify t => ∃ n ns phase, s.tasks t = ⟨n::ns,phase⟩

def Server.Busy (s : Server κ) (t : ℕ) : Prop :=
  (s.tasks t).pending ≠ [] ∨ (s.tasks t).phase.isRunnable = true
  deriving Decidable

def serving (l : Limits) (events : ℕ → Event κ) : ℕ → Server κ := states (Server.step l) .start events

/-- Every task that can go on does so, one that holds a permit included. -/
def Fair (l : Limits) (events : ℕ → Event κ) : Prop :=
  ∀ n t, (serving l events n).Busy t →
    ∃ m, n ≤ m ∧ (events m).task = t ∧ (serving l events m).ready (events m)

/-- Whoever got hold of a `Notify` has registered with it before it is notified. -/
def Heard (s : Server κ) (e : Event κ) : Prop :=
  ∀ t n ns, e = .notify t → (s.tasks t).pending = n::ns →
  ∀ u request, (s.tasks u).phase ≠ .waiting request n

def Acquires (l : Limits) (s : Server κ) (k : κ) (e : Event κ) : Prop :=
  ∃ t now request, e = .reserve t now ∧ s.tasks t = ⟨[],.calling request⟩ ∧ request.cacheKey = k ∧
    (reserve l s.entries request now s.nextNotify).answer = .acquired

variable {l : Limits} {scope : ReplayScope} {phase : Phase κ} {s : Server κ} {p : Permit κ}
  {response : CachedJsonResponse} {ns : List NotifyId} {e : Event κ}

section
variable {u : ℕ}

theorem step_of_not_ready (h : ¬s.ready e) : s.step l e = s := by
  cases e with
  | call t request =>
    simp only [step]
    split
    · rename_i htask
      exact absurd htask h
    · rfl
  | check t owner =>
    simp only [step]
    split
    · rename_i htask
      exact absurd ⟨_,_,_,htask⟩ h
    · rfl
  | register t =>
    simp only [step]
    split
    · rename_i htask
      exact absurd ⟨_,_,htask⟩ h
    · rfl
  | notify t =>
    simp only [step]
    split
    · rename_i htask
      exact absurd ⟨_,_,_,htask⟩ h
    · rfl
  | _ =>
    simp only [step]
    split
    · rename_i htask
      exact absurd ⟨_,htask⟩ h
    · rfl

theorem tasks_step_of_ne (hu : u ≠ e.task) : (s.step l e).tasks u = s.tasks u ∨
    ∃ n ns phase, e = .notify e.task ∧ s.tasks e.task = ⟨n::ns,phase⟩ ∧
    (s.step l e).tasks u = wake n (s.tasks u) := by
  cases e with
  | finish t response scope now =>
    left
    simp only [step]
    split
    · split <;> exact update_of_ne hu _ _
    · rfl
  | notify t =>
    simp only [step]
    split
    · rename_i n ns phase htask
      exact .inr ⟨n,ns,phase,rfl,htask,if_neg hu⟩
    · exact .inl rfl
  | _ =>
    left
    simp only [step]
    split
    · exact update_of_ne hu _ _
    · rfl

theorem tasks_step_of_not_turn (hturn : ¬(e.task = u ∧ s.ready e))
    (hphase : ∀ request n, (s.tasks u).phase ≠ .registered request n) :
    (s.step l e).tasks u = s.tasks u := by
  by_cases hu : u = e.task
  · rw [step_of_not_ready fun h => hturn ⟨hu.symm,h⟩]
  · rcases tasks_step_of_ne (s := s) (l := l) hu with h | ⟨n,ns,phase,-,-,h⟩
    · exact h
    · rw [h,wake_of_calls hphase]

variable (hready : s.ready e)
include hready

theorem event_of_pending (h : s.tasks e.task = ⟨n::ns,phase⟩) : e = .notify e.task := by
  cases e <;> simp_all [ready,task]

theorem tasks_step_notify (h : s.tasks e.task = ⟨n::ns,phase⟩) (u : ℕ) :
    (s.step l e).tasks u = if u = e.task then ⟨ns,phase⟩ else wake n (s.tasks u) := by
  have he := event_of_pending hready h
  generalize e.task = t at he h
  subst he
  simp [step,h]

theorem event_of_calling (h : s.tasks e.task = ⟨[],.calling request⟩) :
    ∃ now, e = .reserve e.task now := by
  cases e <;> simp_all [ready,task]

theorem event_of_replaying
    (h : s.tasks e.task = ⟨[],.replaying request response scope⟩) :
    ∃ owner, e = .check e.task owner := by
  cases e <;> simp_all [ready,task]

theorem event_of_stale (h : s.tasks e.task = ⟨[],.stale request⟩) : e = .invalidate e.task := by
  cases e <;> simp_all [ready,task]

theorem event_of_waiting (h : s.tasks e.task = ⟨[],.waiting request n⟩) : e = .register e.task := by
  cases e <;> simp_all [ready,task]

theorem event_of_holding (h : s.tasks e.task = ⟨[],.holding p⟩) :
    e = .drop e.task ∨ ∃ response scope now, e = .finish e.task response scope now := by
  cases e <;> simp_all [ready,task]
end

/-- Whoever waits waits for a reservation in the map, or one about to be announced. -/
structure Awaited (s : Server κ) : Prop where
  silent : ∀ u request n, (s.tasks u).phase = .registered request n → (s.tasks u).pending = []
  announced : ∀ u request n, (s.tasks u).phase.awaits? = some (request,n) →
    (∃ entry, s.entries.lookup request.cacheKey = some entry ∧ entry.state = .inFlight n) ∨
      ∃ v, n ∈ (s.tasks v).pending

/-- A step of one task, which announces the reservations that it removes. -/
theorem Awaited.update (h : Awaited s)
    (htask : s.tasks t = ⟨[],phase⟩) (htasks : s'.tasks = update s.tasks t ⟨waiters,phase'⟩)
    (hentries : ∀ k entry n, s.entries.lookup k = some entry → entry.state = .inFlight n →
      s'.entries.lookup k = some entry ∨ n ∈ waiters)
    (hsilent : ∀ request n, phase' = .registered request n → waiters = [])
    (hphase : ∀ request n, phase'.awaits? = some (request,n) → phase.awaits? = some (request,n) ∨
      ∃ entry, s'.entries.lookup request.cacheKey = some entry ∧ entry.state = .inFlight n) :
      Awaited s' := by
  have hself : s'.tasks t = ⟨waiters,phase'⟩ := by simp [htasks]
  have hother : ∀ u, u ≠ t → s'.tasks u = s.tasks u := fun u hu => by rw [htasks,update_of_ne hu]
  have hkept : ∀ u request n, (s.tasks u).phase.awaits? = some (request,n) →
      (∃ entry, s'.entries.lookup request.cacheKey = some entry ∧ entry.state = .inFlight n) ∨
        ∃ v, n ∈ (s'.tasks v).pending := by
    intro u request n hu
    rcases h.announced u request n hu with ⟨entry,hentry,hstate⟩ | ⟨v,hv⟩
    · rcases hentries _ entry n hentry hstate with hsame | hwaiter
      · exact .inl ⟨entry,hsame,hstate⟩
      · exact .inr ⟨t,by rwa [hself]⟩
    · have hvt : v ≠ t := by
        rintro rfl
        rw [htask] at hv
        cases hv
      exact .inr ⟨v,by rwa [hother v hvt]⟩
  constructor
  · intro u request n hu
    by_cases hut : u = t
    · subst hut
      rw [hself] at hu ⊢
      exact hsilent request n hu
    · rw [hother u hut] at hu ⊢
      exact h.silent u request n hu
  · intro u request n hu
    by_cases hut : u = t
    · subst hut
      rw [hself] at hu
      rcases hphase request n hu with hbefore | hentry
      · exact hkept u request n (by rwa [htask])
      · exact .inl hentry
    · rw [hother u hut] at hu
      exact hkept u request n hu

theorem awaited_notify (h : Awaited s) (hheard : Heard s (.notify t)) :
    Awaited (s.step l (.notify t)) := by
  simp only [step]
  split
  swap
  · exact h
  rename_i n ns phase htask
  -- those who waited for this announcement are woken; of the others nothing changes
  have hback : ∀ u, u ≠ t → ∀ request n', (wake n (s.tasks u)).phase.awaits? = some (request,n') →
      (s.tasks u).phase.awaits? = some (request,n') ∧ n' ≠ n := by
    intro u hu request n' hawaits
    cases hphase : (s.tasks u).phase with
    | registered request' m =>
      rw [wake_registered hphase] at hawaits
      split at hawaits
      · cases hawaits
      · rename_i hm
        cases hawaits
        exact ⟨rfl,hm⟩
    | waiting request' m =>
      rw [wake_of_calls (by simp [hphase]),hphase] at hawaits
      refine ⟨hawaits,?_⟩
      rintro rfl
      cases hawaits
      exact hheard t n' ns rfl (by rw [htask]) u request hphase
    | _ =>
      rw [wake_of_calls (by simp [hphase]),hphase] at hawaits
      cases hawaits
  constructor
  · intro u request n' hu
    by_cases hut : u = t
    · subst hut
      simp only [if_true] at hu ⊢
      have := h.silent u request n' (by rw [htask]; exact hu)
      rw [htask] at this
      cases this
    · simp only [hut,if_false] at hu ⊢
      cases hphase : (s.tasks u).phase with
      | registered request' m =>
        have hpending := h.silent u request' m hphase
        simp only [wake,hphase]
        split <;> exact hpending
      | _ =>
        rw [wake_of_calls (by simp [hphase]),hphase] at hu
        cases hu
  · intro u request n' hu
    have hbefore : (s.tasks u).phase.awaits? = some (request,n') ∧ n' ≠ n := by
      by_cases hut : u = t
      · subst hut
        simp only [if_true] at hu
        refine ⟨by rw [htask]; exact hu,?_⟩
        rintro rfl
        cases phase with
        | waiting request' m =>
          cases hu
          exact hheard u n' ns rfl (by rw [htask]) u request (by rw [htask])
        | registered request' m =>
          have := h.silent u request' m (by rw [htask])
          rw [htask] at this
          cases this
        | _ => cases hu
      · simp only [hut] at hu
        exact hback u hut request n' hu
    refine (h.announced u request n' hbefore.1).imp_right fun hv => ?_
    obtain ⟨v,hv⟩ := hv
    by_cases hvt : v = t
    · subst hvt
      rw [htask] at hv
      exact ⟨v,by simpa [hbefore.2] using hv⟩
    · refine ⟨v,?_⟩
      simp only [hvt,if_false,wake]
      split
      · split <;> exact hv
      · exact hv

theorem awaited_step (h : Awaited s) (hheard : Heard s e) : Awaited (s.step l e) := by
  have hsame : ∀ {waiters : List NotifyId} k entry n, s.entries.lookup k = some entry →
    entry.state = .inFlight n →
      s.entries.lookup k = some entry ∨ n ∈ waiters := fun k entry n h _ => .inl h
  cases e with
  | call t request =>
    simp only [step]
    split
    · rename_i htask
      exact h.update htask rfl hsame (by simp) (by simp [Phase.awaits?])
    · exact h
  | reserve t now =>
    simp only [step]
    split
    · rename_i request htask
      refine h.update htask rfl (fun k entry n => kept_or_waiter_reserve s.nextNotify)
        (fun r n hphase => ?_) fun r n hphase => .inr ?_
      · cases hanswer : (Idempotency.reserve l s.entries request now s.nextNotify).answer <;>
          rw [hanswer] at hphase <;> cases hphase
      · cases hanswer : (Idempotency.reserve l s.entries request now s.nextNotify).answer with
        | wait notify =>
          rw [hanswer] at hphase
          cases hphase
          exact reserve_wait hanswer
        | _ =>
          rw [hanswer] at hphase
          cases hphase
    · exact h
  | check t owner =>
    simp only [step]
    split
    · rename_i request response scope htask
      refine h.update htask rfl hsame (fun r n hphase => rfl) fun r n hphase => ?_
      split at hphase <;> cases hphase
    · exact h
  | invalidate t =>
    simp only [step]
    split
    · rename_i request htask
      exact h.update htask rfl (fun k entry n he hstate =>
        .inl (lookup_invalidateReady_inFlight request he hstate))
        (by simp) (by simp [Phase.awaits?])
    · exact h
  | register t =>
    simp only [step]
    split
    · rename_i request n htask
      exact h.update htask rfl hsame (fun _ _ _ => rfl) fun r n' hphase => .inl hphase
    · exact h
  | finish t response scope now =>
    simp only [step]
    split
    · rename_i p htask
      split
      · exact h.update htask rfl (fun k entry n => kept_or_waiter_storeResponse response scope)
          (by simp) (by simp [Phase.awaits?])
      · exact h.update htask rfl (fun k entry n => kept_or_waiter_abort p.request)
          (by simp) (by simp [Phase.awaits?])
    · exact h
  | drop t =>
    simp only [step]
    split
    · rename_i p htask
      exact h.update htask rfl (fun k entry n => kept_or_waiter_abort p.request)
        (by simp) (by simp [Phase.awaits?])
    · exact h
  | notify t => exact awaited_notify h hheard

/-- A call goes on with its request until it returns. -/
theorem calls_step (h : (s.tasks t).phase.calls? = some request) :
    ((s.step l e).tasks t).phase.calls? = some request ∨ ((s.step l e).tasks t).phase.hasReturned := by
  by_cases ht : t = e.task
  · by_cases hready : s.ready e
    swap
    · rw [step_of_not_ready hready]
      exact .inl h
    subst ht
    cases e with
    | call u r =>
      simp only [ready] at hready
      simp [task,hready,Phase.calls?] at h
    | reserve u now =>
      obtain ⟨r,htask⟩ := hready
      simp only [task,htask,Phase.calls?,Option.some.injEq] at h
      subst h
      simp only [task,step,htask,stepReserve]
      cases (Idempotency.reserve l s.entries r now s.nextNotify).answer <;> simp [afterReserve,
        Phase.calls?,Phase.hasReturned]
    | check u owner =>
      obtain ⟨r,response,scope,htask⟩ := hready
      simp only [task,htask,Phase.calls?,Option.some.injEq] at h
      subst h
      simp only [task,step,htask,setPhase,update_self]
      split
      · exact .inr rfl
      · exact .inl rfl
    | invalidate u =>
      obtain ⟨r,htask⟩ := hready
      simp only [task,htask] at h
      left
      simp only [task,step,htask,setPhase,update_self]
      exact h
    | register u =>
      obtain ⟨r,n,htask⟩ := hready
      simp only [task,htask] at h
      left
      simp only [task,step,htask,setPhase,update_self]
      exact h
    | finish u response scope now =>
      obtain ⟨p,htask⟩ := hready
      simp [task,htask,Phase.calls?] at h
    | drop u =>
      obtain ⟨p,htask⟩ := hready
      simp [task,htask,Phase.calls?] at h
    | notify u =>
      obtain ⟨n,ns,phase,htask⟩ := hready
      left
      simpa only [task,step,htask,if_true] using h
  · left
    rcases tasks_step_of_ne (s := s) (l := l) ht with hsame | ⟨n,ns,phase,-,-,hwake⟩
    · rwa [hsame]
    · rw [hwake]
      cases hphase : (s.tasks t).phase with
      | registered r n' =>
        rw [hphase] at h
        rw [wake_registered hphase]
        split <;> exact h
      | _ => rwa [wake_of_calls (by simp [hphase])]

theorem registered_step (h : (s.tasks t).phase = .registered request n) :
    ((s.step l e).tasks t).phase = .registered request n ∨
    ((s.step l e).tasks t).phase = .calling request := by
  by_cases ht : t = e.task
  · by_cases hready : s.ready e
    swap
    · rw [step_of_not_ready hready]
      exact .inl h
    subst ht
    obtain ⟨u,rfl⟩ : ∃ u, e = .notify u := by
      rcases htask : s.tasks e.task with ⟨pending,phase⟩
      cases e <;> simp_all [ready,task]
    obtain ⟨n,ns,phase,htask⟩ := hready
    left
    simpa only [task,step,htask,if_true] using h
  · rcases tasks_step_of_ne (s := s) (l := l) ht with hsame | ⟨n,ns,phase,-,-,hwake⟩
    · rw [hsame]
      exact .inl h
    · rw [hwake,wake_registered h]
      split
      · exact .inr rfl
      · exact .inl rfl

variable {k : κ} {entry : CacheEntry}

/-- Where the key is not acquired, its entry is an old one or a response. -/
theorem entry_of_step (hbound : s.entries.rows.length ≤ l.maxEntries) (hno : ¬Acquires l s k e)
    (h : (s.step l e).entries.lookup k = some entry) :
    ∃ before, s.entries.lookup k = some before ∧ before.requestHash = entry.requestHash ∧
      (entry = before ∨ entry.state.isReady) := by
  have hsame : ∀ {entry}, s.entries.lookup k = some entry →
    ∃ before, s.entries.lookup k = some before ∧
      before.requestHash = entry.requestHash ∧ (entry = before ∨ entry.state.isReady = true) :=
    fun h => ⟨_,h,rfl,.inl rfl⟩
  have habort : ∀ p : Permit κ, (abort s.entries p.request).entries.lookup k = some entry →
      s.entries.lookup k = some entry := by
    intro p h
    rcases lookup_abort s.entries p.request k with heq | ⟨-,hnone,-⟩
    · exact heq.symm.trans h
    · cases hnone.symm.trans h
  cases e with
  | reserve t now =>
    simp only [step] at h
    split at h
    · rename_i request htask
      rcases lookup_reserve s.entries request now s.nextNotify k with heq | ⟨hnone,-⟩ | ⟨rfl,-,
        hanswer,-⟩
      · exact hsame (lookup_of_evictExpired (heq.symm.trans h))
      · cases hnone.symm.trans h
      · exact absurd ⟨t,now,request,rfl,htask,rfl,hanswer⟩ hno
    · exact hsame h
  | invalidate t =>
    simp only [step] at h
    split at h
    · rename_i request htask
      rcases lookup_invalidateReady s.entries request k with heq | ⟨-,hnone,-⟩
      · exact hsame (heq.symm.trans h)
      · cases hnone.symm.trans h
    · exact hsame h
  | finish t response scope now =>
    simp only [step] at h
    split at h
    · rename_i p htask
      split at h
      · by_cases hk : k = p.request.cacheKey
        · subst hk
          rcases storeResponse_cases p.request response scope now hbound with ⟨-,heq⟩ | ⟨-,
            ⟨before,hbefore,hhash⟩,heq⟩
          · exact hsame (lookup_of_evictExpired
              ((congrArg (OrderedTable.lookup · _) heq).symm.trans h))
          · have hnew := (congrArg (OrderedTable.lookup · p.request.cacheKey) heq).symm.trans h
            simp only [OrderedTable.lookup_insert_self,Option.some.injEq] at hnew
            subst hnew
            exact ⟨before,lookup_of_evictExpired hbefore,hhash,.inr rfl⟩
        · rw [lookup_stepStore hbound t p response scope now hk] at h
          exact hsame (lookup_of_evictExpired h)
      · exact hsame (habort p h)
    · exact hsame h
  | drop t =>
    simp only [step] at h
    split at h
    · rename_i p htask
      exact hsame (habort p h)
    · exact hsame h
  | _ =>
    simp only [step] at h
    split at h <;> exact hsame h

theorem reservation_ends (hbound : s.entries.rows.length ≤ l.maxEntries) (hready : s.ready e)
    (htask : s.tasks e.task = ⟨[],.holding p⟩) (hbefore : s.entries.lookup p.request.cacheKey =
    some p.reservation) : (s.step l e).entries.lookup p.request.cacheKey ≠ some p.reservation := by
  have habort : ∀ outcome, (s.stepAbort e.task p outcome).entries.lookup p.request.cacheKey ≠
    some p.reservation := by
    intro outcome hafter
    cases (lookup_abort_self hbefore).symm.trans hafter
  rcases event_of_holding hready htask with he | ⟨response,scope,now,he⟩
  · rw [he]
    simp only [step,htask]
    exact habort _
  · rw [he]
    simp only [step,htask]
    split
    · exact reservation_ends_store hbound response scope now
    · exact habort _

/-- No entry of the request's hash is in the way of its next reservation. -/
def Clear (s : Server κ) (request : IdempotencyRequest κ) : Prop :=
  ∀ entry, s.entries.lookup request.cacheKey = some entry → entry.requestHash ≠ request.requestHash

theorem reserve_returns {now : ℕ} {notify : NotifyId} (h : Clear s request) :
    (afterReserve request now notify (reserve l s.entries request now notify).answer).hasReturned := by
  cases hfound : (evictExpired s.entries now l.ttl).1.lookup request.cacheKey with
  | none =>
    simp only [reserve,hfound]
    split <;> rfl
  | some entry =>
    have hhash := h entry (lookup_of_evictExpired hfound)
    simp only [reserve,hfound,ne_eq,hhash]
    rfl

theorem reserve_of_ready (l : Limits) (s : Server κ) (now : ℕ) (notify : NotifyId)
    (h : ∀ entry, s.entries.lookup request.cacheKey = some entry → entry.state.isReady) :
    (afterReserve request now notify (reserve l s.entries request now notify).answer).hasReturned ∨
      ∃ response scope,
        afterReserve request now notify (reserve l s.entries request now notify).answer =
        .replaying request response scope := by
  cases hanswer : (reserve l s.entries request now notify).answer with
  | wait n =>
    obtain ⟨entry,hentry,hstate⟩ := reserve_wait hanswer
    rcases lookup_reserve s.entries request now notify request.cacheKey with hsame | ⟨hnone,-⟩ | ⟨-,
      -,hacquired,-⟩
    · have := h entry (lookup_of_evictExpired (hsame.symm.trans hentry))
      rw [hstate] at this
      cases this
    · cases hnone.symm.trans hentry
    · cases hacquired.symm.trans hanswer
  | replay response scope => exact .inr ⟨response,scope,rfl⟩
  | _ => exact .inl rfl

variable {events : ℕ → Event κ} {m n : ℕ}

/-- The task returns at `n` or later. -/
def Returns (l : Limits) (events : ℕ → Event κ) (t n : ℕ) : Prop :=
  ∃ m, n ≤ m ∧ ((serving l events m).tasks t).phase.hasReturned

theorem Returns.of_le (h : Returns l events t m) (hm : n ≤ m) : Returns l events t n := by
  obtain ⟨j,hj,h⟩ := h
  exact ⟨j,hm.trans hj,h⟩

section

theorem serving_succ (n : ℕ) : serving l events (n+1) = (serving l events n).step l (events n) := rfl

theorem serving_bounded (n : ℕ) : (serving l events n).entries.rows.length ≤ l.maxEntries := by
  induction n with
  | zero => simp [serving,states,start]
  | succ n ih => exact length_step_le l _ ih

theorem serving_running (n : ℕ) : Running (serving l events n) := by
  induction n with
  | zero => simp [serving,states,Running,start]
  | succ n ih => exact running_step _ (serving_bounded n) ih

theorem serving_awaited (hheard : ∀ n, Heard (serving l events n) (events n)) (n : ℕ) :
    Awaited (serving l events n) := by
  refine Schedules.invariant (I := Awaited) (fun s e (he : Heard s e) h => awaited_step h he)
    ?_ hheard n
  constructor <;> simp [start,Phase.awaits?]

theorem clear_stays (hm : n ≤ m) (hquiet : ∀ j, n ≤ j →
    ¬Acquires l (serving l events j) request.cacheKey (events j))
    (hclear : Clear (serving l events n) request) : Clear (serving l events m) request := by
  refine stays (P := fun m => Clear (serving l events m) request) hclear
    (fun j hj h entry hentry => ?_) hm
  obtain ⟨before,hbefore,hhash,-⟩ := entry_of_step (serving_bounded j) (hquiet j hj) hentry
  rw [← hhash]
  exact h before hbefore

variable (hfair : Fair l events)
include hfair

theorem turn_comes (hbusy : (serving l events n).Busy t)
    (hphase : ∀ request n', ((serving l events n).tasks t).phase ≠ .registered request n') :
    ∃ m, n ≤ m ∧ (serving l events m).tasks t = (serving l events n).tasks t ∧
      (events m).task = t ∧ (serving l events m).ready (events m) := by
  refine holds_until (P := fun m => (serving l events m).tasks t = (serving l events n).tasks t) rfl
    (fun m _ hsame hturn => ?_) (hfair n t hbusy)
  rw [serving_succ,tasks_step_of_not_turn hturn (by rw [hsame]; exact hphase),hsame]

theorem phase_comes (hphase : ((serving l events n).tasks t).phase = phase)
    (hrunnable : phase.isRunnable) : ∃ m, n ≤ m ∧ (serving l events m).tasks t = ⟨[],phase⟩ ∧
      (events m).task = t ∧ (serving l events m).ready (events m) := by
  rcases htask : (serving l events n).tasks t with ⟨pending,phase'⟩
  obtain rfl : phase' = phase := by rw [← hphase,htask]
  clear hphase
  induction pending generalizing n with
  | nil =>
    obtain ⟨m,hm,hsame,hturn⟩ := turn_comes hfair (n := n) (t := t) (.inr (by rw [htask]; exact hrunnable))
      (by rintro r n' h; rw [htask] at h; subst h; cases hrunnable)
    exact ⟨m,hm,hsame.trans htask,hturn⟩
  | cons n' ns ih =>
    obtain ⟨m,hm,hsame,rfl,hready⟩ := turn_comes hfair (n := n) (t := t) (.inr (by rw [htask]; exact hrunnable))
      (by rintro r n' h; rw [htask] at h; subst h; cases hrunnable)
    obtain ⟨j,hj,hrest⟩ := ih (n := m+1) (by
      rw [serving_succ,tasks_step_notify hready (hsame.trans htask),if_pos rfl])
    exact ⟨j,by omega,hrest⟩

theorem registered_wakes (hheard : ∀ n, Heard (serving l events n) (events n))
    (hphase : ((serving l events n).tasks t).phase = .registered request n')
    (hpending : n' ∈ ((serving l events n).tasks v).pending) :
    ∃ m, n ≤ m ∧ ((serving l events m).tasks t).phase = .calling request := by
  rcases htask : (serving l events n).tasks v with ⟨pending,phase⟩
  rw [htask] at hpending
  induction pending generalizing n with
  | nil => cases hpending
  | cons first ns ih =>
    by_contra hnever
    have hnot : ∀ m, n ≤ m → ((serving l events m).tasks t).phase ≠ .calling request :=
      fun m hm h => hnever ⟨m,hm,h⟩
    have hregistered : ∀ m, n ≤ m → ((serving l events m).tasks t).phase = .registered request n' :=
      fun m hm =>
      stays (P := fun m => ((serving l events m).tasks t).phase = .registered request n') hphase
        (fun j hj h => (registered_step h).resolve_right (hnot (j+1) (by omega))) hm
    obtain ⟨m,hm,hsame,rfl,hready⟩ := turn_comes hfair (n := n) (t := v) (.inl (by simp [htask])) (by
      rintro r x h
      have := (serving_awaited hheard n).silent v r x h
      rw [htask] at this
      cases this)
    have hfirst := hsame.trans htask
    have hstep := tasks_step_notify (l := l) hready hfirst
    have hne : t ≠ (events m).task := by
      rintro rfl
      have := (serving_awaited hheard m).silent _ request n' (hregistered m hm)
      rw [hfirst] at this
      cases this
    have hafter : ((serving l events (m+1)).tasks t).phase = .registered request n' :=
      hregistered (m+1) (by omega)
    by_cases hn : n' = first
    · rw [serving_succ,hstep,if_neg hne,wake_registered (hregistered m hm),if_pos hn] at hafter
      cases hafter
    · obtain ⟨j,hj,hcalling⟩ := ih (n := m+1) hafter (List.mem_of_ne_of_mem hn hpending) (by
        rw [serving_succ,hstep,if_pos rfl])
      exact hnot j (by omega) hcalling

variable {k : κ} {N : ℕ} (hquiet : ∀ m, N ≤ m → ¬Acquires l (serving l events m) k (events m))
include hquiet

/-- Once a key is not acquired any more, its reservations come to an end. -/
theorem reservations_end : ∃ N', N ≤ N' ∧ ∀ m, N' ≤ m →
    ∀ entry, (serving l events m).entries.lookup k = some entry →
    entry.state.isReady := by
  have hstays : ∀ n, N ≤ n → (∀ entry, (serving l events n).entries.lookup k = some entry →
    entry.state.isReady) →
      ∀ m, n ≤ m → ∀ entry, (serving l events m).entries.lookup k = some entry →
      entry.state.isReady = true := by
    intro n hn hready m hm
    refine stays (P := fun m => ∀ entry, (serving l events m).entries.lookup k = some entry →
      entry.state.isReady = true) hready (fun j hj h entry hentry => ?_) hm
    obtain ⟨before,hbefore,-,rfl | hnew⟩ := entry_of_step (serving_bounded j)
      (hquiet j (hn.trans hj)) hentry
    · exact h entry hbefore
    · exact hnew
  by_cases hready : ∀ entry, (serving l events N).entries.lookup k = some entry →
    entry.state.isReady = true
  · exact ⟨N,le_rfl,hstays N le_rfl hready⟩
  push Not at hready
  obtain ⟨entry,hentry,hstate⟩ := hready
  obtain ⟨u,q,hq,rfl,rfl⟩ := serving_running N k entry hentry (by simpa using hstate)
  obtain ⟨m,hm,hholding,rfl,hturn⟩ := phase_comes hfair hq rfl
  -- until the permit's turn comes, no reservation but its own is entered for the key
  have honly : ∀ entry, (serving l events m).entries.lookup q.request.cacheKey = some entry →
      entry.state.isReady = true ∨ entry = q.reservation := by
    refine stays (P := fun m => ∀ entry, (serving l events m).entries.lookup q.request.cacheKey =
      some entry →
      entry.state.isReady = true ∨ entry = q.reservation) ?_ (fun j hj h entry hnow => ?_) hm
    · rintro entry hnow
      rw [hentry] at hnow
      exact .inr (Option.some.inj hnow).symm
    · obtain ⟨before,hbefore,-,rfl | hnew⟩ := entry_of_step (serving_bounded j) (hquiet j hj) hnow
      · exact h entry hbefore
      · exact .inl hnew
  refine ⟨m+1,by omega,hstays (m+1) (by omega) fun entry hnow => ?_⟩
  obtain ⟨before,hbefore,-,rfl | hnew⟩ := entry_of_step (serving_bounded m) (hquiet m hm) hnow
  · rcases honly entry hbefore with hready | rfl
    · exact hready
    · exact absurd hnow (reservation_ends (serving_bounded m) hturn hholding hbefore)
  · exact hnew

variable (hkey : request.cacheKey = k)
include hkey

theorem calling_returns_of_clear (hn : N ≤ n)
    (hphase : ((serving l events n).tasks t).phase = .calling request)
    (hclear : Clear (serving l events n) request) : Returns l events t n := by
  obtain ⟨m,hm,htask,rfl,hready⟩ := phase_comes hfair hphase rfl
  obtain ⟨now,he⟩ := event_of_calling hready htask
  refine ⟨m+1,by omega,?_⟩
  rw [serving_succ]
  generalize (events m).task = t at he htask ⊢
  simp only [he,step,htask,stepReserve,update_self]
  refine reserve_returns (clear_stays hm (fun j hj => ?_) hclear)
  rw [hkey]
  exact hquiet j (hn.trans hj)

variable (hended : ∀ m, N ≤ m → ∀ entry, (serving l events m).entries.lookup k = some entry →
  entry.state.isReady = true)

include hended

theorem stale_returns (hn : N ≤ n) (hphase : ((serving l events n).tasks t).phase =
    .stale request) : Returns l events t n := by
  obtain ⟨m,hm,htask,rfl,hready⟩ := phase_comes hfair hphase rfl
  have he := event_of_stale hready htask
  generalize (events m).task = t at he htask ⊢
  have hstep : (serving l events (m+1)).tasks t = ⟨[],.calling request⟩ := by
    simp [serving_succ,he,step,htask,setPhase]
  have hclear : Clear (serving l events (m+1)) request := by
    intro entry hentry
    simp only [serving_succ,he,step,htask] at hentry
    exact invalidateReady_clear (by rw [hkey]; exact hended m (hn.trans hm)) hentry
  exact (calling_returns_of_clear hfair hquiet hkey (n := m+1) (by omega) (by rw [hstep])
    hclear).of_le (by omega)

theorem replaying_returns (hn : N ≤ n)
    (hphase : ((serving l events n).tasks t).phase = .replaying request response scope) :
    Returns l events t n := by
  obtain ⟨m,hm,htask,rfl,hready⟩ := phase_comes hfair hphase rfl
  obtain ⟨owner,he⟩ := event_of_replaying hready htask
  generalize (events m).task = t at he htask ⊢
  have hstep : ((serving l events (m+1)).tasks t).phase =
      if scope.isCurrent owner then .returned (.replayed response) else .stale request := by
    simp [serving_succ,he,step,htask,setPhase]
  split at hstep
  · exact ⟨m+1,by omega,by rw [hstep]; rfl⟩
  · exact (stale_returns hfair hquiet hkey hended (n := m+1) (by omega) hstep).of_le (by omega)

theorem calling_returns (hn : N ≤ n) (hphase : ((serving l events n).tasks t).phase =
    .calling request) : Returns l events t n := by
  obtain ⟨m,hm,htask,rfl,hready⟩ := phase_comes hfair hphase rfl
  obtain ⟨now,he⟩ := event_of_calling hready htask
  generalize (events m).task = t at he htask ⊢
  have hstep : ((serving l events (m+1)).tasks t).phase = afterReserve request now
    (serving l events m).nextNotify
      (reserve l (serving l events m).entries request now (serving l events m).nextNotify).answer := by
    simp [serving_succ,he,step,htask,stepReserve]
  rcases reserve_of_ready l (serving l events m) now (serving l events m).nextNotify
    (by rw [hkey]; exact hended m (hn.trans hm)) with hreturned | ⟨response,scope,hreplay⟩
  · exact ⟨m+1,by omega,by rwa [hstep]⟩
  · exact (replaying_returns hfair hquiet hkey hended (n := m+1) (by omega)
      (hstep.trans hreplay)).of_le (by omega)

variable (hheard : ∀ n, Heard (serving l events n) (events n))
include hheard

theorem registered_returns (hn : N ≤ n) (hphase : ((serving l events n).tasks t).phase =
    .registered request n') : Returns l events t n := by
  rcases (serving_awaited hheard n).announced t request n' (by rw [hphase]; rfl) with ⟨entry,hentry,hstate⟩ | ⟨v,hv⟩
  · rw [hkey] at hentry
    have := hended n hn entry hentry
    rw [hstate] at this
    cases this
  · obtain ⟨m,hm,hcalling⟩ := registered_wakes hfair hheard hphase hv
    exact (calling_returns hfair hquiet hkey hended (hn.trans hm) hcalling).of_le hm

theorem waiting_returns (hn : N ≤ n) (hphase : ((serving l events n).tasks t).phase =
    .waiting request n') : Returns l events t n := by
  obtain ⟨m,hm,htask,rfl,hready⟩ := phase_comes hfair hphase rfl
  have he := event_of_waiting hready htask
  generalize (events m).task = t at he htask ⊢
  have hstep : (serving l events (m+1)).tasks t = ⟨[],.registered request n'⟩ := by
    simp [serving_succ,he,step,htask,setPhase]
  exact (registered_returns hfair hquiet hkey hended hheard (n := m+1) (t := t) (by omega)
    (by rw [hstep])).of_le (by omega)

theorem call_returns (hn : N ≤ n) (hcall : ((serving l events n).tasks t).phase.calls? =
    some request) : Returns l events t n := by
  cases hphase : ((serving l events n).tasks t).phase <;> rw [hphase] at hcall <;> cases hcall
  case calling => exact calling_returns hfair hquiet hkey hended hn hphase
  case replaying => exact replaying_returns hfair hquiet hkey hended hn hphase
  case stale => exact stale_returns hfair hquiet hkey hended hn hphase
  case waiting => exact waiting_returns hfair hquiet hkey hended hheard hn hphase
  case registered => exact registered_returns hfair hquiet hkey hended hheard hn hphase
end

/-- In every fair interleaving in which waiters register before they are notified, a call that has to
wait returns, if its key is not acquired for ever. -/
theorem waiters_return {κ : Type} [LinearOrder κ] (l : Limits) (events : ℕ → Event κ)
    (hfair : Fair l events) (hheard : ∀ n, Heard (serving l events n) (events n)) {n t : ℕ}
    {request : IdempotencyRequest κ} {notify : NotifyId}
    (hwaiting : ((serving l events n).tasks t).phase = .waiting request notify)
    (hquiet : ∃ N, ∀ m, N ≤ m → ¬Acquires l (serving l events m) request.cacheKey (events m)) :
    ∃ m, n ≤ m ∧ ((serving l events m).tasks t).phase.hasReturned = true := by
  obtain ⟨N,hquiet⟩ := hquiet
  obtain ⟨N',hN,hended⟩ := reservations_end hfair hquiet
  by_contra hnever
  have hcall : ((serving l events (max n N')).tasks t).phase.calls? = some request := by
    refine stays (P := fun m => ((serving l events m).tasks t).phase.calls? = some request) (by rw [hwaiting]; rfl)
      (fun j hj h => (calls_step h).resolve_right fun hreturned => ?_) (le_max_left n N')
    exact hnever ⟨j+1,by omega,hreturned⟩
  obtain ⟨m,hm,hreturned⟩ := call_returns hfair (fun m hm => hquiet m (hN.trans hm)) rfl hended
    hheard (le_max_right n N') hcall
  exact hnever ⟨m,(le_max_left n N').trans hm,hreturned⟩

theorem idle_of_unnamed (h : ∀ m, (events m).task ≠ t) (n : ℕ) :
    (serving l events n).tasks t = ⟨[],.idle⟩ := by
  induction n with
  | zero => rfl
  | succ n ih => rw [serving_succ,tasks_step_of_not_turn (fun hturn => h n hturn.1) (by rw [ih]; nofun),ih]

section
variable (hrest : ∀ t, ¬(serving l (scripted script) script.length).Busy t)
include hrest

theorem scripted_rest (hm : script.length ≤ m) :
    serving l (scripted script) m = serving l (scripted script) script.length := by
  refine states_of_rest (fun j hj => ?_) hm
  rw [scripted,List.getD_eq_default script _ hj]
  refine step_of_not_ready ?_
  rintro ⟨n,ns,phase,htask⟩
  exact hrest 0 (.inl (by simp only [serving] at htask ⊢; rw [htask]; simp))

theorem scripted_fair (hturns : ∀ n, n < script.length →
    ∀ t, (serving l (scripted script) n).Busy t → ∃ m, n ≤ m ∧
      (scripted script m).task = t ∧ (serving l (scripted script) m).ready (scripted script m)) :
    Fair l (scripted script) := by
  intro n t hbusy
  by_cases hn : n < script.length
  · exact hturns n hn t hbusy
  · rw [scripted_rest hrest (not_lt.mp hn)] at hbusy
    exact absurd hbusy (hrest t)
end

theorem not_busy_of_idle (h : s.tasks t = ⟨[],.idle⟩) : ¬s.Busy t := by
  simp [Server.Busy,h,Phase.isRunnable]

/-- The first request ends after the second has got its `Notify`, before it registers. -/
def lostWakeup : List (Event ℕ) :=
  [.call 0 sampleRequest,.reserve 0 0,.call 1 sampleRequest,.reserve 1 1,
  .finish 0 created .localNode 2,.notify 0,
    .register 1]

def heardWakeup : List (Event ℕ) :=
  [.call 0 sampleRequest,.reserve 0 0,.call 1 sampleRequest,.reserve 1 1,.register 1,
    .finish 0 created .localNode 2,.notify 0,.reserve 1 3,.check 1 none]

theorem lostWakeup_rest (t : ℕ) : ¬(serving sampleLimits (scripted lostWakeup)
    lostWakeup.length).Busy t := by
  rcases t with _ | _ | t
  · decide
  · decide
  · exact not_busy_of_idle (idle_of_unnamed
      (scripted_task_ne (by simp [lostWakeup,task]) (by omega)) _)

theorem lostWakeup_fair : Fair sampleLimits (scripted lostWakeup) := by
  refine scripted_fair lostWakeup_rest fun n hn t hbusy => ?_
  have hn' : n < 7 := hn
  rcases t with _ | _ | t
  · by_cases h₁ : n ≤ 1
    · exact ⟨1,h₁,rfl,_,rfl⟩
    by_cases h₄ : n ≤ 4
    · exact ⟨4,h₄,rfl,_,rfl⟩
    by_cases h₅ : n ≤ 5
    · exact ⟨5,h₅,rfl,_,_,_,rfl⟩
    obtain rfl : n = 6 := by omega
    exact absurd hbusy (by decide)
  · by_cases h₃ : n ≤ 3
    · exact ⟨3,h₃,rfl,_,rfl⟩
    exact ⟨6,by omega,rfl,_,_,rfl⟩
  · exact absurd hbusy (not_busy_of_idle
      (idle_of_unnamed (scripted_task_ne (by simp [lostWakeup,task]) (by omega)) _))

/-- The wakeup is lost, and the second request waits for ever. -/
theorem waiter_stranded : Fair sampleLimits (scripted lostWakeup) ∧
    ((serving sampleLimits (scripted lostWakeup) 4).tasks 1).phase = .waiting sampleRequest 0 ∧
    ∀ m, 7 ≤ m → ((serving sampleLimits (scripted lostWakeup) m).tasks 1).phase =
    .registered sampleRequest 0 := by
  refine ⟨lostWakeup_fair,by decide,fun m hm => ?_⟩
  rw [scripted_rest lostWakeup_rest hm]
  decide

theorem heardWakeup_rest (t : ℕ) : ¬(serving sampleLimits (scripted heardWakeup)
    heardWakeup.length).Busy t := by
  rcases t with _ | _ | t
  · decide
  · decide
  · exact not_busy_of_idle (idle_of_unnamed
      (scripted_task_ne (by simp [heardWakeup,task]) (by omega)) _)

theorem heardWakeup_fair : Fair sampleLimits (scripted heardWakeup) := by
  refine scripted_fair heardWakeup_rest fun n hn t hbusy => ?_
  have hn' : n < 9 := hn
  rcases t with _ | _ | t
  · by_cases h₁ : n ≤ 1
    · exact ⟨1,h₁,rfl,_,rfl⟩
    by_cases h₅ : n ≤ 5
    · exact ⟨5,h₅,rfl,_,rfl⟩
    by_cases h₆ : n ≤ 6
    · exact ⟨6,h₆,rfl,_,_,_,rfl⟩
    obtain rfl | rfl : n = 7 ∨ n = 8 := by omega
    · exact absurd hbusy (by decide)
    · exact absurd hbusy (by decide)
  · by_cases h₃ : n ≤ 3
    · exact ⟨3,h₃,rfl,_,rfl⟩
    by_cases h₄ : n ≤ 4
    · exact ⟨4,h₄,rfl,_,_,rfl⟩
    by_cases h₇ : n ≤ 7
    · exact ⟨7,h₇,rfl,_,rfl⟩
    exact ⟨8,by omega,rfl,_,_,_,rfl⟩
  · exact absurd hbusy (not_busy_of_idle
      (idle_of_unnamed (scripted_task_ne (by simp [heardWakeup,task]) (by omega)) _))

theorem heardWakeup_heard (n : ℕ) : Heard (serving sampleLimits (scripted heardWakeup) n)
    (scripted heardWakeup n) := by
  rintro t n' ns he hpending u request hphase
  by_cases hn : heardWakeup.length ≤ n
  · rw [scripted_rest heardWakeup_rest hn] at hpending
    exact heardWakeup_rest t (.inl (by simp [hpending]))
  · have hn' : n < 9 := not_le.mp hn
    interval_cases n <;> cases he
    rcases u with _ | _ | u <;> cases hphase

theorem waiters_return_heardWakeup :
    ((serving sampleLimits (scripted heardWakeup) 4).tasks 1).phase = .waiting sampleRequest 0 ∧
    ∃ m, 4 ≤ m ∧ ((serving sampleLimits (scripted heardWakeup) m).tasks 1).phase.hasReturned =
    true := by
  have hwaiting : ((serving sampleLimits (scripted heardWakeup) 4).tasks 1).phase =
    .waiting sampleRequest 0 := by decide
  refine ⟨hwaiting,waiters_return sampleLimits _ heardWakeup_fair heardWakeup_heard hwaiting
    ⟨9,fun m hm => ?_⟩⟩
  rintro ⟨t,now,request,he,-⟩
  rw [scripted,List.getD_eq_default heardWakeup _ hm] at he
  cases he
end Hirn.Idempotency
