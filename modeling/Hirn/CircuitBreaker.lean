import Hirn.Runs

/-! The circuit breaker in front of a provider, with the calls that it has let through. Its count of probes
does not tell a probe from a call that was let through before the breaker opened. -/
namespace Hirn.CircuitBreaker
open List Runs

inductive CircuitState
  | closed | opened | halfOpen
  deriving DecidableEq

structure CircuitBreakerConfig where
  (failureThreshold recoveryTimeout successThreshold : ℕ)

structure BreakerState where
  state : CircuitState
  (consecutiveFailures consecutiveSuccesses : ℕ)
  lastFailureTime : Option ℕ
  inFlightProbes : ℕ

namespace BreakerState

def new : BreakerState := ⟨.closed,0,0,none,0⟩

variable (config : CircuitBreakerConfig) (b : BreakerState)

def recordSuccess : BreakerState :=
  match b.state with
  | .closed => {b with consecutiveFailures := 0}
  | .halfOpen =>
    let b := {b with inFlightProbes := b.inFlightProbes-1,consecutiveSuccesses := b.consecutiveSuccesses+1}
    if config.successThreshold ≤ b.consecutiveSuccesses then
      {b with state := .closed,consecutiveFailures := 0,consecutiveSuccesses := 0}
    else b
  | .opened => b

def recordFailure (now : ℕ) : BreakerState :=
  let b := {b with lastFailureTime := some now}
  match b.state with
  | .closed =>
    let b := {b with consecutiveFailures := b.consecutiveFailures+1}
    if config.failureThreshold ≤ b.consecutiveFailures then {b with state := .opened} else b
  | .halfOpen => {b with state := .opened,consecutiveSuccesses := 0,inFlightProbes := 0}
  | .opened => b

def maybeTransitionToHalfOpen (now : ℕ) : BreakerState :=
  match b.state, b.lastFailureTime with
  | .opened, some last =>
    if config.recoveryTimeout ≤ now-last then
      {b with state := .halfOpen,consecutiveSuccesses := 0,inFlightProbes := 0}
    else b
  | _, _ => b

theorem maybeTransitionToHalfOpen_cases (now : ℕ) : b.maybeTransitionToHalfOpen config now = b ∨
    b.state = .opened ∧ b.maybeTransitionToHalfOpen config now =
      {b with state := .halfOpen,consecutiveSuccesses := 0,inFlightProbes := 0} := by
  unfold maybeTransitionToHalfOpen
  split
  next hstate _ =>
    split
    · exact .inr ⟨hstate,rfl⟩
    · exact .inl rfl
  next => exact .inl rfl

def allowCall (now : ℕ) : BreakerState × Bool :=
  let b := b.maybeTransitionToHalfOpen config now
  match b.state with
  | .closed => (b,true)
  | .halfOpen =>
    if b.inFlightProbes < config.successThreshold then
      ({b with inFlightProbes := b.inFlightProbes+1},true)
    else (b,false)
  | .opened => (b,false)
end BreakerState

/-- The breaker and its callers. A call that is out has the number of half-open periods that had begun
before it. -/
structure World where
  breaker : BreakerState
  periods : ℕ
  outstanding : List ℕ
  /-- The successes, in the last period, of the calls let through in it. -/
  successes : ℕ
  /-- The successes behind each move from half-open to closed. -/
  closings : List ℕ

def World.start : World := ⟨.new,0,[],0,[]⟩

/-- What a caller does: ask, and report how a call that was let through ended. -/
inductive Event
  | allowCall (now : ℕ)
  | recordSuccess (call : ℕ)
  | recordFailure (call now : ℕ)

def World.grant (w : World) (r : BreakerState × Bool) : World :=
  let begins : Bool := w.breaker.state = .opened ∧ r.1.state = .halfOpen
  let periods := if begins then w.periods+1 else w.periods
  {w with
    breaker := r.1
    periods := periods
    outstanding := if r.2 then periods::w.outstanding else w.outstanding
    successes := if begins then 0 else w.successes}

def World.succeed (w : World) (call : ℕ) (b : BreakerState) : World :=
  let successes := if call = w.periods then w.successes+1 else w.successes
  {w with
    breaker := b
    outstanding := w.outstanding.erase call
    successes := successes
    closings := if w.breaker.state = .halfOpen ∧ b.state = .closed then successes::w.closings else w.closings}

def step (config : CircuitBreakerConfig) (w : World) : Event → World
  | .allowCall now => w.grant (w.breaker.allowCall config now)
  | .recordSuccess call => if call ∈ w.outstanding then
      w.succeed call (w.breaker.recordSuccess config) else w
  | .recordFailure call now =>
    if call ∈ w.outstanding then
      {w with breaker := w.breaker.recordFailure config now,outstanding := w.outstanding.erase call}
    else w

/-- Probes are few, and enough of their successes closed the breaker. -/
structure World.Guarded (config : CircuitBreakerConfig) (w : World) : Prop where
  probes : w.breaker.state = .halfOpen → w.outstanding.count w.periods ≤ config.successThreshold
  closings : ∀ n ∈ w.closings, config.successThreshold ≤ n

/-- No call from before the half-open period reports a success in it. -/
def Timely (w : World) : Event → Prop
  | .recordSuccess call => call ∈ w.outstanding → w.breaker.state = .halfOpen → call = w.periods
  | _ => True

instance (w : World) : ∀ e, Decidable (Timely w e)
  | .recordSuccess _ => inferInstanceAs (Decidable (_ → _))
  | .allowCall _ => .isTrue trivial
  | .recordFailure .. => .isTrue trivial

/-- In a half-open period the slots are those of its own calls. -/
structure World.Exact (config : CircuitBreakerConfig) (w : World) : Prop where
  begun : ∀ call ∈ w.outstanding, call ≤ w.periods
  slots : w.breaker.state = .halfOpen → w.outstanding.count w.periods = w.breaker.inFlightProbes
  few : w.breaker.state = .halfOpen → w.breaker.inFlightProbes ≤ config.successThreshold
  successes : w.breaker.state = .halfOpen → w.breaker.consecutiveSuccesses = w.successes
  closings : ∀ n ∈ w.closings, config.successThreshold ≤ n

section
variable {config : CircuitBreakerConfig} {w : World}

theorem World.Exact.of_not_halfOpen (hstate : w.breaker.state ≠ .halfOpen)
    (hbegun : ∀ call ∈ w.outstanding, call ≤ w.periods)
    (hclosings : ∀ n ∈ w.closings, config.successThreshold ≤ n) : w.Exact config :=
  ⟨hbegun,fun h => absurd h hstate,fun h => absurd h hstate,fun h => absurd h hstate,hclosings⟩

variable (h : w.Exact config)
include h

theorem exact_allowCall (now : ℕ) : (step config w (.allowCall now)).Exact config := by
  have hbegun : ∀ call ∈ w.periods::w.outstanding, call ≤ w.periods :=
    forall_mem_cons.mpr ⟨le_rfl,h.begun⟩
  have hlater : ∀ call ∈ w.outstanding, call ≤ w.periods+1 := fun call hcall =>
    Nat.le_succ_of_le (h.begun call hcall)
  have hnew : w.outstanding.count (w.periods+1) = 0 :=
    count_eq_zero.mpr fun hmem => absurd (h.begun _ hmem) (by omega)
  rw [step,BreakerState.allowCall]
  rcases w.breaker.maybeTransitionToHalfOpen_cases config now with hsame | ⟨hopened,hnext⟩
  · rw [hsame,World.grant]
    cases hstate : w.breaker.state with
    | closed => exact .of_not_halfOpen (by simp [hstate]) (by simpa using hbegun) h.closings
    | opened => exact .of_not_halfOpen (by simp [hstate]) (by simpa [hstate] using h.begun) h.closings
    | halfOpen =>
      dsimp only
      split
      next hroom => exact ⟨hbegun,fun _ => by simp [h.slots hstate],fun _ => hroom,fun _ => h.successes hstate,h.closings⟩
      next => exact ⟨h.begun,h.slots,h.few,h.successes,h.closings⟩
  · rw [hnext,World.grant,hopened]
    dsimp only
    split
    next hroom => exact ⟨by simpa using hlater,fun _ => by simp [hnew],fun _ => hroom,fun _ => rfl,h.closings⟩
    next => exact ⟨hlater,fun _ => hnew,fun _ => Nat.zero_le _,fun _ => rfl,h.closings⟩

theorem exact_recordSuccess {call : ℕ} (htimely : Timely w (.recordSuccess call)) :
    (step config w (.recordSuccess call)).Exact config := by
  have hbegun : ∀ c ∈ w.outstanding.erase call, c ≤ w.periods :=
    fun c hc => h.begun c (mem_of_mem_erase hc)
  rw [step]
  split
  swap
  · exact h
  next hout =>
    unfold World.succeed BreakerState.recordSuccess
    cases hstate : w.breaker.state with
    | closed => exact .of_not_halfOpen (by simp) hbegun h.closings
    | opened => exact .of_not_halfOpen (by simp [hstate]) hbegun h.closings
    | halfOpen =>
      obtain rfl := htimely hout hstate
      dsimp only
      split
      next hclosing =>
        refine .of_not_halfOpen (by simp) hbegun ?_
        simp only [and_self]
        exact forall_mem_cons.mpr ⟨h.successes hstate ▸ hclosing,h.closings⟩
      next =>
        exact ⟨hbegun,fun _ => by simp [h.slots hstate],fun _ => (Nat.sub_le _ _).trans (h.few hstate),
          fun _ => by simp [h.successes hstate],by simpa using h.closings⟩

theorem exact_recordFailure (call now : ℕ) :
    (step config w (.recordFailure call now)).Exact config := by
  rw [step]
  split
  swap
  · exact h
  next =>
    refine .of_not_halfOpen ?_ (fun c hc => h.begun c (mem_of_mem_erase hc)) h.closings
    unfold BreakerState.recordFailure
    cases hstate : w.breaker.state with
    | closed => dsimp only; split <;> simp
    | halfOpen => simp
    | opened => simp
end

/-- If no call from before a half-open period reports a success in it, probes stay below the threshold
and only they close the breaker. -/
theorem probes_bounded (config : CircuitBreakerConfig) (events : List Event)
    (h : Admissible (step config) Timely .start events) :
    (exec (step config) .start events).Guarded config := by
  have hexact : (exec (step config) .start events).Exact config := by
    refine invariant (fun w e htimely hw => ?_) ⟨nofun,nofun,nofun,nofun,nofun⟩ h
    cases e with
    | allowCall now => exact exact_allowCall hw now
    | recordSuccess call => exact exact_recordSuccess hw htimely
    | recordFailure call now => exact exact_recordFailure hw call now
  exact ⟨fun hhalf => (hexact.slots hhalf).trans_le (hexact.few hhalf),hexact.closings⟩

def reopened : List Event :=
  [.allowCall 0,.allowCall 0,.recordFailure 0 0,.allowCall 30,.allowCall 30]

theorem probes_bounded_reopened :
    (exec (step ⟨1,30,2⟩) .start (reopened++[.recordSuccess 1,.recordSuccess 1])).Guarded ⟨1,30,2⟩ :=
  probes_bounded _ _ (by decide)

/-- The success of another call frees the slot of a probe, and closes the breaker with the success of
one probe. -/
theorem stale_success_counts :
    (exec (step ⟨1,30,2⟩) .start (reopened++[.recordSuccess 0,.allowCall 30])).outstanding = [1,1,1] ∧
    (exec (step ⟨1,30,2⟩) .start (reopened++[.recordSuccess 0,.allowCall 30])).breaker.state =
    .halfOpen ∧
    (exec (step ⟨1,30,2⟩) .start (reopened++[.recordSuccess 0,.recordSuccess 1])).closings = [1] := by
  decide

/-- An open breaker knows when a call failed, and a slot is taken only by a call that is out. -/
structure World.Live (w : World) : Prop where
  failed : w.breaker.state = .opened → w.breaker.lastFailureTime.isSome
  slots : w.breaker.state = .halfOpen → w.breaker.inFlightProbes ≤ w.outstanding.count w.periods

theorem live_step (config : CircuitBreakerConfig) (w : World) (e : Event) (h : w.Live) :
    (step config w e).Live := by
  cases e with
  | allowCall now =>
    rw [step,BreakerState.allowCall]
    rcases w.breaker.maybeTransitionToHalfOpen_cases config now with hsame | ⟨hopened,hnext⟩
    · rw [hsame,World.grant]
      cases hstate : w.breaker.state with
      | closed => exact ⟨by simp [hstate],by simp [hstate]⟩
      | opened => exact ⟨fun _ => h.failed hstate,by simp [hstate]⟩
      | halfOpen =>
        dsimp only
        split <;> exact ⟨by simp [hstate],fun _ => by simpa using h.slots hstate⟩
    · rw [hnext,World.grant,hopened]
      dsimp only
      split <;> exact ⟨nofun,fun _ => by simp⟩
  | recordSuccess call =>
    rw [step]
    split
    swap
    · exact h
    unfold World.succeed BreakerState.recordSuccess
    cases hstate : w.breaker.state with
    | closed => exact ⟨nofun,nofun⟩
    | opened => exact ⟨fun _ => h.failed hstate,by simp [hstate]⟩
    | halfOpen =>
      dsimp only
      split
      · exact ⟨nofun,nofun⟩
      · refine ⟨nofun,fun _ => ?_⟩
        rw [count_erase]
        exact tsub_le_tsub (h.slots hstate) (by split_ifs <;> simp)
  | recordFailure call now =>
    rw [step]
    split
    swap
    · exact h
    unfold BreakerState.recordFailure
    cases w.breaker.state <;> dsimp only <;> try split
    all_goals exact ⟨fun _ => rfl,nofun⟩

/-- Whatever was reported, from some time on a call is refused only while as many calls of the half-open
period are out as it takes to close the breaker. -/
theorem never_stuck_open (config : CircuitBreakerConfig) (events : List Event) :
    let w := exec (step config) .start events
    ∃ t, ∀ now, t ≤ now → (w.breaker.allowCall config now).2 = false →
      config.successThreshold ≤ w.outstanding.count w.periods := by
  have hlive : (exec (step config) .start events).Live :=
    invariant_of_forall (Q := fun _ => True) (fun w e _ => live_step config w e) ⟨nofun,nofun⟩
    fun _ _ => trivial
  generalize exec (step config) .start events = w at hlive
  refine ⟨w.breaker.lastFailureTime.getD 0+config.recoveryTimeout,fun now hnow hrefused => ?_⟩
  rw [BreakerState.allowCall,BreakerState.maybeTransitionToHalfOpen] at hrefused
  cases hstate : w.breaker.state with
  | closed => simp [hstate] at hrefused
  | halfOpen =>
    have hfull : config.successThreshold ≤ w.breaker.inFlightProbes := by
      simpa [hstate,apply_ite Prod.snd] using hrefused
    exact hfull.trans (hlive.slots hstate)
  | opened =>
    obtain ⟨time,htime⟩ := Option.isSome_iff_exists.mp (hlive.failed hstate)
    rw [htime,Option.getD_some] at hnow
    have hrecovered : config.recoveryTimeout ≤ now-time := by omega
    have hnone : config.successThreshold = 0 := by
      simpa [hstate,htime,hrecovered,apply_ite Prod.snd] using hrefused
    exact hnone.trans_le (Nat.zero_le _)
end Hirn.CircuitBreaker
