import Hirn.Runs

/-! Programs that call a store. A call may fail, and then has no effect; the process may stop between
two calls; and programs may run side by side, one call at a time. -/
namespace Hirn.Calls
open Runs List
variable {ω σ α β γ : Type}

/-- A program is done or makes a call, and goes on with the store that the call has met, or without if
it failed. -/
inductive Prog (ω σ α : Type)
  | done (a : α)
  | call (o : ω) (next : Option σ → Prog ω σ α)

namespace Prog

def bind : Prog ω σ α → (α → Prog ω σ β) → Prog ω σ β
  | done a, f => f a
  | call o next, f => call o fun answer => (next answer).bind f

instance : Monad (Prog ω σ) where
  pure := done
  bind := bind

@[simp] theorem pure_eq (a : α) : (pure a : Prog ω σ α) = done a := rfl
@[simp] theorem done_bind (a : α) (f : α → Prog ω σ β) : (done a : Prog ω σ α) >>= f = f a := rfl

@[simp] theorem call_bind (o : ω) (next : Option σ → Prog ω σ α) (f : α → Prog ω σ β) :
    call o next >>= f = call o fun answer => next answer >>= f := rfl

theorem bind_assoc (m : Prog ω σ α) (f : α → Prog ω σ β) (g : β → Prog ω σ γ) :
    m >>= f >>= g = m >>= fun a => f a >>= g := by
  induction m with
  | done a => rfl
  | call o next ih => exact congrArg (call o) (funext ih)

theorem bind_done (m : Prog ω σ α) : m >>= done = m := by
  induction m with
  | done a => rfl
  | call o next ih => exact congrArg (call o) (funext ih)

instance : LawfulMonad (Prog ω σ) := LawfulMonad.mk' (Prog ω σ) bind_done (fun _ _ => rfl) bind_assoc
end Prog
variable {f : α → Prog ω σ β} {m : Prog ω σ α} (effect : ω → σ → σ)

def run : Prog ω σ α → σ → α × σ
  | .done a, s => (a,s)
  | .call o next, s => run (next (some s)) (effect o s)

/-- The stores that the program leaves if the process stops, when no call fails. -/
def stops : Prog ω σ α → σ → List σ
  | .done _, s => [s]
  | .call o next, s => s::stops (next (some s)) (effect o s)

variable {effect}

theorem run_bind (m : Prog ω σ α) (f : α → Prog ω σ β) (s : σ) :
    run effect (m >>= f) s = run effect (f (run effect m s).1) (run effect m s).2 := by
  induction m generalizing s with
  | done a => rfl
  | call o next ih => exact ih (some s) (effect o s)

@[simp] theorem mem_stops_done : t ∈ stops effect (.done a : Prog ω σ α) s ↔ t = s := mem_singleton

theorem mem_stops_self (m : Prog ω σ α) (s : σ) : s ∈ stops effect m s := by
  cases m with
  | done a => exact mem_singleton_self s
  | call o next => exact mem_cons_self

theorem run_mem_stops (m : Prog ω σ α) (s : σ) : (run effect m s).2 ∈ stops effect m s := by
  induction m generalizing s with
  | done a => exact mem_singleton_self s
  | call o next ih => exact mem_cons_of_mem _ (ih (some s) (effect o s))

theorem mem_stops_bind : t ∈ stops effect (m >>= f) s ↔
      t ∈ stops effect m s ∨ t ∈ stops effect (f (run effect m s).1) (run effect m s).2 := by
  induction m generalizing s with
  | done a =>
    refine ⟨.inr,?_⟩
    rintro (h | h)
    · rw [mem_singleton.mp h]
      exact mem_stops_self _ s
    · exact h
  | call o next ih =>
    have hnext := @ih (some s) (effect o s)
    change t ∈ s::stops effect (next (some s) >>= f) (effect o s) ↔
      t ∈ s::stops effect (next (some s)) (effect o s) ∨ _
    rw [mem_cons,mem_cons,hnext,or_assoc]
    rfl

abbrev Action (ε ω σ α : Type) := ExceptT ε (Prog ω σ) α

section
variable {ε : Type}

def request (o : ω) (e : ε) : Action ε ω σ σ :=
  ExceptT.mk (.call o fun
    | some s => .done (.ok s)
    | none => .done (.error e))

def attempt (m : Action ε ω σ α) : Action ε ω σ (Except ε α) :=
  ExceptT.mk (m.run >>= fun x => .done (.ok x))
def perform (effect : ω → σ → σ) (m : Action ε ω σ α) (s : σ) : Except ε α × σ := run effect m.run s
@[simp] theorem perform_pure (a : α) : perform effect (pure a : Action ε ω σ α) s = (.ok a,s) := rfl
@[simp] theorem perform_throw (e : ε) : perform effect (throw e : Action ε ω σ α) s =
    (.error e,s) := rfl

@[simp] theorem perform_request (o : ω) (e : ε) :
    perform effect (request o e : Action ε ω σ σ) s = (.ok s,effect o s) := rfl

theorem perform_bind (m : Action ε ω σ α) (f : α → Action ε ω σ β) :
    perform effect (m >>= f) s = match perform effect m s with
      | (.ok a,t) => perform effect (f a) t
      | (.error e,t) => (.error e,t) := by
  change run effect (m.run >>= ExceptT.bindCont f) s = _
  rw [run_bind]
  rcases h : run effect m.run s with ⟨_ | a,t⟩ <;> simp only [perform,h]
  · rfl
  · rfl

variable {m : Action ε ω σ α} {f : α → Action ε ω σ β}

theorem perform_bind_ok (h : perform effect m s = (.ok a,t)) :
    perform effect (m >>= f) s = perform effect (f a) t := by
  rw [perform_bind,h]

theorem perform_bind_error (h : perform effect m s = (.error e,t)) :
    perform effect (m >>= f) s = (.error e,t) := by
  rw [perform_bind,h]

@[simp] theorem perform_attempt (m : Action ε ω σ α) :
    perform effect (attempt m) s = (.ok (perform effect m s).1,(perform effect m s).2) := by
  change run effect (m.run >>= _) s = _
  rw [run_bind]
  rfl

theorem mem_stops_action_bind (h : perform effect m s = (.ok a,u)) : t ∈ stops effect (m >>= f).run s ↔
      t ∈ stops effect m.run s ∨ t ∈ stops effect (f a).run u := by
  change t ∈ stops effect (m.run >>= ExceptT.bindCont f) s ↔ _
  have hrun : run effect m.run s = (.ok a,u) := h
  rw [mem_stops_bind,hrun]
  rfl

theorem mem_stops_action_bind_error
    (h : perform effect m s = (.error e,u)) : t ∈ stops effect (m >>= f).run s ↔
    t ∈ stops effect m.run s := by
  change t ∈ stops effect (m.run >>= ExceptT.bindCont f) s ↔ _
  have hrun : run effect m.run s = (.error e,u) := h
  have hlast : (run effect m.run s).2 ∈ stops effect m.run s := run_mem_stops m.run s
  rw [hrun] at hlast
  rw [mem_stops_bind,hrun]
  change _ ∨ t ∈ [u] ↔ _
  rw [mem_singleton]
  exact or_iff_left_of_imp fun heq => heq ▸ hlast

theorem mem_stops_attempt : t ∈ stops effect (attempt m).run s ↔ t ∈ stops effect m.run s := by
  change t ∈ stops effect (m.run >>= _) s ↔ _
  rw [mem_stops_bind]
  change _ ∨ t ∈ [(run effect m.run s).2] ↔ _
  rw [mem_singleton]
  exact or_iff_left_of_imp fun heq => heq ▸ run_mem_stops m.run s
end

/-- Programs that run side by side, each with the call it was started for; those that are `none` were
stopped. -/
structure Pool (γ ω σ α : Type) where
  store : σ
  tasks : List (γ × Option (Prog ω σ α))

inductive Event (γ : Type)
  | start (call : γ)
  | step (c : ℕ) (succeeds : Bool)
  | crash
  deriving DecidableEq

def halt : Option (Prog ω σ α) → Option (Prog ω σ α)
  | some (.done a) => some (.done a)
  | _ => none

namespace Pool

def next? (p : Pool γ ω σ α) (c : ℕ) : Option (γ × ω) :=
  match p.tasks[c]? with
  | some (call,some (.call o _)) => some (call,o)
  | _ => none

variable (effect) (code : ℕ → γ → Prog ω σ α)

/-- What happens to the pool; `code c` is what the call number `c` runs. -/
def step (p : Pool γ ω σ α) : Event γ → Pool γ ω σ α
  | .start call => {p with tasks := p.tasks++[(call,some (code p.tasks.length call))]}
  | .step c succeeds =>
    match p.tasks[c]? with
    | some (call,some (.call o next)) =>
      if succeeds then ⟨effect o p.store,p.tasks.set c (call,some (next (some p.store)))⟩
      else {p with tasks := p.tasks.set c (call,some (next none))}
    | _ => p
  | .crash => {p with tasks := p.tasks.map fun t => (t.1,halt t.2)}
end Pool

theorem exists_exec_steps (effect : ω → σ → σ) (code : ℕ → γ → Prog ω σ α) (call : γ)
    (m : Prog ω σ α) (p : Pool γ ω σ α) (c : ℕ) (hm : p.tasks[c]? = some (call,some m)) :
    ∃ n, exec (Pool.step effect code) p (List.replicate n (.step c true)) =
      ⟨(run effect m p.store).2,p.tasks.set c (call,some (.done (run effect m p.store).1))⟩ := by
  induction m generalizing p with
  | done a =>
    refine ⟨0,?_⟩
    have hsame : p.tasks.set c (call,some (.done a)) = p.tasks := by
      refine ext_getElem? fun i => ?_
      rw [getElem?_set]
      split
      next hi =>
        subst hi
        split
        · exact hm.symm
        next hlt => rw [getElem?_eq_none (by omega)]
      · rfl
    change p = ⟨p.store,p.tasks.set c (call,some (.done a))⟩
    rw [hsame]
  | call o next ih =>
    have hlt : c < p.tasks.length := (List.getElem?_eq_some_iff.mp hm).1
    obtain ⟨n,hn⟩ := ih (some p.store) ⟨effect o p.store,
      p.tasks.set c (call,some (next (some p.store)))⟩ (getElem?_set_self hlt)
    refine ⟨n+1,?_⟩
    have hstep : Pool.step effect code p (.step c true) =
        ⟨effect o p.store,p.tasks.set c (call,some (next (some p.store)))⟩ := by
      simp [Pool.step,hm]
    rw [replicate_succ,exec_cons,hstep,hn,set_set]
    rfl

/-- The steps that are made meet a condition, as steps that succeed or fail. -/
def Meets (ok : ℕ → γ → σ → ω → Bool → Prop) (p : Pool γ ω σ α) : Event γ → Prop
  | .step c succeeds => ∀ x, p.next? c = some x → ok c x.1 p.store x.2 succeeds
  | _ => True

instance {ok : ℕ → γ → σ → ω → Bool → Prop} [∀ c call s o b, Decidable (ok c call s o b)]
    (p : Pool γ ω σ α) (e : Event γ) : Decidable (Meets ok p e) := by
  cases e <;> unfold Meets <;> infer_instance

variable (effect) (ok : σ → ω → Bool → Prop) (I : σ → Prop) (guar : ℕ → σ → σ → Prop)

/-- What the others may do leaves the assertion of a program as it is. -/
def Stable (c : ℕ) (A : σ → Prop) : Prop := ∀ d s s', d ≠ c → I s → A s → guar d s s' → A s'

def Lasting (F : σ → Prop) : Prop := ∀ d s s', I s → F s → guar d s s' → F s'

/-- The program keeps to what it may do whatever the others do, and ends with `Q`. -/
def Safe (c : ℕ) (Q : α → σ → Prop) : Prog ω σ α → σ → Prop
  | .done a, s => Q a s
  | .call o next, s => ∃ A : σ → Prop, A s ∧ Stable I guar c A ∧ ∀ t, I t → A t →
      (ok t o true → I (effect o t) ∧ guar c t (effect o t) ∧
      Safe c Q (next (some t)) (effect o t)) ∧ (ok t o false → Safe c Q (next none) t)

variable {effect ok I guar}

theorem Stable.and (hA : Stable I guar c A) (hB : Stable I guar c B) :
    Stable I guar c fun s => A s ∧ B s :=
  fun d s s' hd hs h hguar => ⟨hA d s s' hd hs h.1 hguar,hB d s s' hd hs h.2 hguar⟩

theorem Lasting.stable (hF : Lasting I guar F) : Stable I guar c F :=
  fun d s s' _ hs hFs hguar => hF d s s' hs hFs hguar

theorem Lasting.and (hF : Lasting I guar F) (hG : Lasting I guar G) :
    Lasting I guar fun s => F s ∧ G s :=
  fun d s s' hs h hguar => ⟨hF d s s' hs h.1 hguar,hG d s s' hs h.2 hguar⟩

theorem Safe.bind (hs : I s) (hm : Safe effect ok I guar c R m s)
    (hf : ∀ a t, I t → R a t → Safe effect ok I guar c Q (f a) t) :
    Safe effect ok I guar c Q (m >>= f) s := by
  induction m generalizing s with
  | done a => exact hf a s hs hm
  | call o next ih =>
    obtain ⟨A,hA,hstable,hcalls⟩ := hm
    refine ⟨A,hA,hstable,fun t hI hAt => ⟨fun hok => ?_,fun hok => ?_⟩⟩
    · obtain ⟨hI',hguar,hnext⟩ := (hcalls t hI hAt).1 hok
      exact ⟨hI',hguar,ih (some t) hI' hnext⟩
    · exact ih none hI ((hcalls t hI hAt).2 hok)

variable {m : Prog ω σ β}

theorem Safe.run (hok : ∀ s o, ok s o true) (hs : I s) (hm : Safe effect ok I guar c Q m s) :
    I (run effect m s).2 ∧ Q (run effect m s).1 (run effect m s).2 := by
  induction m generalizing s with
  | done b => exact ⟨hs,hm⟩
  | call o next ih =>
    obtain ⟨A,hA,-,hcalls⟩ := hm
    obtain ⟨hI,-,hnext⟩ := (hcalls s hs hA).1 (hok s o)
    exact ih (some s) hI hnext

theorem Safe.mono (hs : I s) (hm : Safe effect ok I guar c Q m s)
    (hQ : ∀ b t, I t → Q b t → Q' b t) : Safe effect ok I guar c Q' m s := by
  rw [← bind_pure m]
  exact Safe.bind hs hm hQ

theorem Safe.lasting (hF : Lasting I guar F) (hs : I s) (hFs : F s)
    (hm : Safe effect ok I guar c Q m s) : Safe effect ok I guar c (fun b t => Q b t ∧ F t) m s := by
  induction m generalizing s with
  | done b => exact ⟨hm,hFs⟩
  | call o next ih =>
    obtain ⟨A,hA,hstable,hcalls⟩ := hm
    refine ⟨fun t => A t ∧ F t,⟨hA,hFs⟩,?_,fun t hI hAt => ⟨fun hok => ?_,fun hok => ?_⟩⟩
    · rintro d t t' hd hI ⟨hAt,hFt⟩ hguar
      exact ⟨hstable d t t' hd hI hAt hguar,hF d t t' hI hFt hguar⟩
    · obtain ⟨hI',hguar,hnext⟩ := (hcalls t hI hAt.1).1 hok
      exact ⟨hI',hguar,ih (some t) hI' (hF c t _ hI hAt.2 hguar) hnext⟩
    · exact ih none hI hAt.2 ((hcalls t hI hAt.1).2 hok)

theorem Safe.frame (hm : Safe effect ok I guar c Q m s) (hd : d ≠ c)
    (hQ : ∀ b, Stable I guar c (Q b)) (hs : I s) (hguar : guar d s s') :
    Safe effect ok I guar c Q m s' := by
  cases m with
  | done b => exact hQ b d s s' hd hs hm hguar
  | call o next =>
    obtain ⟨A,hA,hstable,hcalls⟩ := hm
    exact ⟨A,hstable d s s' hd hs hA hguar,hstable,hcalls⟩

variable (effect) (ok : ℕ → γ → σ → ω → Bool → Prop) (I : σ → Prop) (guar : ℕ → σ → σ → Prop)
    (P : ℕ → γ → β → σ → Prop) (fresh : ℕ → σ → Prop)

/-- Every program of the pool is safe, and nothing of later calls is there. -/
structure Running (p : Pool γ ω σ β) : Prop where
  holds : I p.store
  fresh : ∀ c, p.tasks.length ≤ c → fresh c p.store
  tasks : ∀ c call t, p.tasks[c]? = some (call,some t) →
    Safe effect (ok c call) I guar c (P c call) t p.store

/-- The others leave what a call starts from and ends with; from the one it is safe. -/
structure Sound (code : ℕ → γ → Prog ω σ β) : Prop where
  stable : ∀ c call b, Stable I guar c (P c call b)
  start : ∀ c, Stable I guar c (fresh c)
  safe : ∀ c call s, I s → fresh c s → Safe effect (ok c call) I guar c (P c call) (code c call) s

variable {effect ok I guar P fresh} {code : ℕ → γ → Prog ω σ β}

/-- A pool of sound calls keeps running well. -/
theorem running_step (hsound : Sound effect ok I guar P fresh code) (p : Pool γ ω σ β) (e : Event γ)
    (hok : Meets ok p e) (h : Running effect ok I guar P fresh p) :
    Running effect ok I guar P fresh (p.step effect code e) := by
  cases e with
  | start call =>
    refine ⟨h.holds,fun c hc => h.fresh c ?_,fun c call' t ht => ?_⟩
    · rw [Pool.step,length_append] at hc
      omega
    · change (p.tasks++_)[c]? = _ at ht
      rcases lt_or_ge c p.tasks.length with hlt | hge
      · rw [getElem?_append_left hlt] at ht
        exact h.tasks c call' t ht
      · rw [getElem?_append_right hge,getElem?_singleton] at ht
        split at ht
        next hc =>
          have hlen : c = p.tasks.length := by omega
          cases ht
          rw [← hlen]
          exact hsound.safe c call p.store h.holds (h.fresh c hge)
        · cases ht
  | step c succeeds =>
    simp only [Pool.step]
    split
    next call o next htask =>
      have hok : ok c call p.store o succeeds := hok (call,o) (by rw [Pool.next?,htask])
      obtain ⟨A,hA,hstable,hcalls⟩ := h.tasks c call _ htask
      obtain ⟨hsucceeds,hfails⟩ := hcalls p.store h.holds hA
      have hlt : c < p.tasks.length := (List.getElem?_eq_some_iff.mp htask).1
      split
      next htrue =>
        obtain ⟨hI,hguar,hnext⟩ := hsucceeds (htrue ▸ hok)
        refine ⟨hI,fun d hd => ?_,fun d call' t ht => ?_⟩
        · rw [length_set] at hd
          exact hsound.start d c p.store _ (by omega) h.holds (h.fresh d hd) hguar
        · by_cases hd : c = d
          · rw [← hd,getElem?_set_self hlt] at ht
            cases ht
            exact hd ▸ hnext
          · rw [getElem?_set_ne hd] at ht
            exact (h.tasks d call' t ht).frame hd (hsound.stable d call') h.holds hguar
      next hfalse =>
        have hnext := hfails (Bool.eq_false_iff.mpr hfalse ▸ hok)
        refine ⟨h.holds,fun d hd => h.fresh d (by rwa [length_set] at hd),fun d call' t ht => ?_⟩
        by_cases hd : c = d
        · rw [← hd,getElem?_set_self hlt] at ht
          cases ht
          exact hd ▸ hnext
        · rw [getElem?_set_ne hd] at ht
          exact h.tasks d call' t ht
    · exact h
  | crash =>
    refine ⟨h.holds,fun c hc => h.fresh c (by rwa [Pool.step,length_map] at hc),fun c call t ht => ?_⟩
    rw [Pool.step,getElem?_map] at ht
    obtain ⟨⟨call',u⟩,hu,hhalt⟩ := Option.map_eq_some_iff.mp ht
    rw [Prod.mk.injEq] at hhalt
    obtain ⟨rfl,hhalt⟩ := hhalt
    unfold halt at hhalt
    split at hhalt
    next a hdone =>
      cases hhalt
      exact h.tasks c call' _ (hu.trans (by rw [show u = some (.done a) from hdone]))
    · cases hhalt

theorem running_exec (hsound : Sound effect ok I guar P fresh code)
    (hp : Running effect ok I guar P fresh p)
    (h : Admissible (Pool.step effect code) (Meets ok) p events) :
    Running effect ok I guar P fresh (exec (Pool.step effect code) p events) :=
  invariant (fun p e => running_step hsound p e) hp h

theorem Running.mono
    (h : Running effect ok I guar P fresh p) (hP : ∀ c call b s, c < p.tasks.length → P c call b s →
    P' c call b s)
    (hfresh : ∀ c, p.tasks.length ≤ c → fresh' c p.store) : Running effect ok I guar P' fresh' p :=
  ⟨h.holds,hfresh,fun c call t ht => (h.tasks c call t ht).mono h.holds fun b s _ =>
    hP c call b s (List.getElem?_eq_some_iff.mp ht).1⟩

theorem running_nil (hs : I s) (hstart : ∀ c, fresh c s) : Running effect ok I guar P fresh ⟨s,[]⟩ :=
  ⟨hs,fun c _ => hstart c,by simp⟩
end Hirn.Calls
