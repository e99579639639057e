import Hirn.Calls

/-! Rules for actions that run among others. An action is followed call by call; between two of its calls
it relies on an assertion that the others leave, and it ends with a result or with an error. -/
namespace Hirn.Calls
open Runs
variable {ε ω σ α β γ : Type}

def require (b : Bool) (e : ε) : Action ε ω σ Unit := if b then pure () else throw e

def expect (o : Option α) (e : ε) : Action ε ω σ α :=
  match o with
  | some a => pure a
  | none => throw e

def raise : Option ε → Action ε ω σ Unit
  | some e => throw e
  | none => pure ()

def forEach (f : α → Action ε ω σ Unit) : List α → Action ε ω σ Unit
  | [] => pure ()
  | a::rest => do
    f a
    forEach f rest

def Ends (F : α → σ → Prop) (E : σ → Prop) : Except ε α → σ → Prop
  | .ok a, s => F a s
  | .error _, s => E s

variable {b : Bool} {s : σ} {A : σ → Prop} {e : ε} {a : α} {o : Option ε} {f : α → Action ε ω σ Unit}
variable (effect : ω → σ → σ) (ok : σ → ω → Bool → Prop) (I : σ → Prop)
    (guar : ℕ → σ → σ → Prop) (c : ℕ)

/-- From here on the action keeps to what it may do, and ends as it should. -/
def Guarded (F : α → σ → Prop) (E : σ → Prop) (m : Action ε ω σ α) (s : σ) : Prop :=
  Safe effect ok I guar c (Ends F E) m.run s

variable {effect ok I guar c} {F F' : α → σ → Prop} {G : β → σ → Prop} {E E' : σ → Prop}

theorem guarded_pure (h : F a s) : Guarded effect ok I guar c F E (pure a : Action ε ω σ α) s := h
theorem guarded_throw (h : E s) : Guarded effect ok I guar c F E (throw e : Action ε ω σ α) s := h

theorem guarded_request {F : σ → σ → Prop} {o : ω} (A : σ → Prop) (hs : A s) (hA : Stable I guar c A)
    (hnext : ∀ t, I t → A t → ok t o true → I (effect o t) ∧ guar c t (effect o t) ∧ F t (effect o t))
    (hfail : ∀ t, I t → A t → ok t o false → E t) :
    Guarded effect ok I guar c F E (request o e : Action ε ω σ σ) s :=
  ⟨A,hs,hA,fun t hI hAt => ⟨hnext t hI hAt,hfail t hI hAt⟩⟩

variable {m : Action ε ω σ α} {g : α → Action ε ω σ β}

theorem guarded_bind (hs : I s) (hm : Guarded effect ok I guar c F E m s)
    (hg : ∀ a t, I t → F a t → Guarded effect ok I guar c G E (g a) t) :
    Guarded effect ok I guar c G E (m >>= g) s := by
  refine Safe.bind hs hm fun x t hI hx => ?_
  cases x with
  | ok a => exact hg a t hI hx
  | error e => exact hx

theorem guarded_attempt_bind {g : Except ε α → Action ε ω σ β} (hs : I s)
    (hm : Guarded effect ok I guar c F E' m s)
    (hok : ∀ a t, I t → F a t → Guarded effect ok I guar c G E (g (.ok a)) t)
    (herror : ∀ e t, I t → E' t → Guarded effect ok I guar c G E (g (.error e)) t) :
    Guarded effect ok I guar c G E (attempt m >>= g) s := by
  have hrun : (attempt m >>= g).run = m.run >>= fun x => (g x).run :=
    Prog.bind_assoc m.run _ (ExceptT.bindCont g)
  rw [Guarded,hrun]
  refine Safe.bind hs hm fun x t hI hx => ?_
  cases x with
  | ok a => exact hok a t hI hx
  | error e => exact herror e t hI hx

theorem guarded_mono (hs : I s) (hm : Guarded effect ok I guar c F E m s)
    (hF : ∀ a t, I t → F a t → F' a t) (hE : ∀ t, I t → E t → E' t) :
    Guarded effect ok I guar c F' E' m s := by
  refine Safe.mono hs hm fun x t hI hx => ?_
  cases x with
  | ok a => exact hF a t hI hx
  | error e => exact hE t hI hx

theorem guarded_lasting {L : σ → Prop} (hL : Lasting I guar L) (hs : I s) (hLs : L s)
    (hm : Guarded effect ok I guar c F E m s) :
    Guarded effect ok I guar c (fun a t => F a t ∧ L t) E m s := by
  refine Safe.mono hs (Safe.lasting hL hs hLs hm) fun x t _ hx => ?_
  cases x with
  | ok a => exact hx
  | error e => exact hx.1

theorem guarded_map {f : α → β} (hs : I s)
    (hm : Guarded effect ok I guar c (fun a t => G (f a) t) E m s) :
    Guarded effect ok I guar c G E (f <$> m) s := by
  exact guarded_bind hs hm fun a t _ ht => guarded_pure ht

theorem guarded_require_bind {g : Unit → Action ε ω σ β} (hE : E s)
    (h : b → Guarded effect ok I guar c G E (g ()) s) :
    Guarded effect ok I guar c G E (require b e >>= g) s := by
  cases b with
  | true => exact h rfl
  | false => exact hE

theorem guarded_expect_bind {o : Option α} (hE : E s)
    (h : ∀ a, o = some a → Guarded effect ok I guar c G E (g a) s) :
    Guarded effect ok I guar c G E (expect o e >>= g) s := by
  cases o with
  | some a => exact h a rfl
  | none => exact hE

theorem guarded_raise_bind {g : Unit → Action ε ω σ β} (hE : E s)
    (h : Guarded effect ok I guar c G E (g ()) s) :
    Guarded effect ok I guar c G E (raise o >>= g) s := by
  cases o with
  | some e => exact hE
  | none => exact h

theorem guarded_forEach {l : List α}
    (hf : ∀ a ∈ l, ∀ t, I t → A t → Guarded effect ok I guar c (fun _ => A) E (f a) t) (hs : I s)
    (hA : A s) : Guarded effect ok I guar c (fun _ => A) E (forEach f l) s := by
  induction l generalizing s with
  | nil => exact hA
  | cons a rest ih =>
    exact guarded_bind hs (hf a List.mem_cons_self s hs hA) fun _ t ht hAt =>
      ih (fun b hb => hf b (List.mem_cons_of_mem _ hb)) ht hAt

def Uses (allowed : ω → Prop) : Prog ω σ α → Prop
  | .done _ => True
  | .call o next => allowed o ∧ ∀ answer, Uses allowed (next answer)

variable {m : Prog ω σ α} {allowed : ω → Prop}

theorem Uses.bind {f : α → Prog ω σ β} (hm : Uses allowed m) (hf : ∀ a, Uses allowed (f a)) :
    Uses allowed (m >>= f) := by
  induction m with
  | done a => exact hf a
  | call o next ih => exact ⟨hm.1,fun answer => ih answer (hm.2 answer)⟩

theorem Uses.safe {ok : σ → ω → Bool → Prop} (hm : Uses allowed m) (hstable : Stable I guar c A)
    (hkeeps : ∀ o t, allowed o → I t → A t → ok t o true → I (effect o t) ∧ guar c t (effect o t) ∧
    A (effect o t)) (hs : A s) : Safe effect ok I guar c (fun _ => A) m s := by
  induction m generalizing s with
  | done a => exact hs
  | call o next ih =>
    refine ⟨A,hs,hstable,fun t ht hA => ⟨fun hok => ?_,fun _ => ih none (hm.2 none) hA⟩⟩
    obtain ⟨hnext,hguar,hkept⟩ := hkeeps o t hm.1 ht hA hok
    exact ⟨hnext,hguar,ih (some t) (hm.2 (some t)) hkept⟩

theorem uses_pure : Uses allowed (pure a : Action ε ω σ α).run := trivial
theorem uses_throw : Uses allowed (throw e : Action ε ω σ α).run := trivial

theorem uses_request {o : ω} (h : allowed o) : Uses allowed (request o e : Action ε ω σ σ).run :=
  ⟨h,fun answer => by cases answer <;> trivial⟩

variable {m : Action ε ω σ α}

theorem uses_bind {g : α → Action ε ω σ β} (hm : Uses allowed m.run)
    (hg : ∀ a, Uses allowed (g a).run) : Uses allowed (m >>= g).run := by
  refine Uses.bind hm fun x => ?_
  cases x with
  | ok a => exact hg a
  | error e => trivial

theorem uses_map {f : α → β} (hm : Uses allowed m.run) : Uses allowed (f <$> m).run :=
  uses_bind (g := fun a => pure (f a)) hm fun _ => trivial

theorem uses_attempt (hm : Uses allowed m.run) : Uses allowed (attempt m).run :=
  Uses.bind hm fun _ => trivial

theorem uses_require : Uses allowed (require b e : Action ε ω σ Unit).run := by
  cases b <;> trivial

theorem uses_expect {o : Option α} : Uses allowed (expect o e : Action ε ω σ α).run := by
  cases o <;> trivial

theorem uses_raise : Uses allowed (raise o : Action ε ω σ Unit).run := by
  cases o <;> trivial

theorem uses_forEach (hf : ∀ a, Uses allowed (f a).run) (l : List α) :
    Uses allowed (forEach f l).run := by
  induction l with
  | nil => trivial
  | cons a rest ih => exact uses_bind (hf a) fun _ => ih

variable {call : γ} {P : ℕ → γ → β → σ → Prop} {p : Pool γ ω σ β} {fresh : ℕ → σ → Prop}
  {ok : ℕ → γ → σ → ω → Bool → Prop}

theorem Running.guarantees (h : Running effect ok I guar P fresh p) {o : ω}
    {next : Option σ → Prog ω σ β} (ht : p.tasks[c]? = some (call,some (.call o next)))
    (hok : Meets ok p (.step c true)) : guar c p.store (effect o p.store) := by
  obtain ⟨A,hA,-,hcalls⟩ := h.tasks c call _ ht
  have hnext : p.next? c = some (call,o) := by rw [Pool.next?,ht]
  exact ((hcalls p.store h.holds hA).1 (hok (call,o) hnext)).2.1

theorem Running.store_step (h : Running effect ok I guar P fresh p) (code : ℕ → γ → Prog ω σ β)
    (e : Event γ) (hok : Meets ok p e) : (p.step effect code e).store = p.store ∨
      ∃ c call o next, p.tasks[c]? = some (call,some (.call o next)) ∧ e = .step c true ∧
        (p.step effect code e).store = effect o p.store ∧ guar c p.store (effect o p.store) := by
  cases e with
  | start call => exact .inl rfl
  | crash => exact .inl rfl
  | step c succeeds =>
    simp only [Pool.step]
    split
    next call o next ht =>
      cases succeeds with
      | false => exact .inl rfl
      | true => exact .inr ⟨c,call,o,next,ht,rfl,rfl,h.guarantees ht hok⟩
    · exact .inl rfl

theorem Running.lasting {code : ℕ → γ → Prog ω σ β} (hsound : Sound effect ok I guar P fresh code)
    {F : σ → Prop}
    (hF : Lasting I guar F) {events : List (Event γ)} (hp : Running effect ok I guar P fresh p)
    (hFp : F p.store) (h : Admissible (Pool.step effect code) (Meets ok) p events) :
    F (exec (Pool.step effect code) p events).store := by
  refine (invariant (I := fun p => Running effect ok I guar P fresh p ∧ F p.store)
    (fun p e hok hp => ?_) ⟨hp,hFp⟩ h).2
  refine ⟨running_step hsound p e hok hp.1,?_⟩
  rcases hp.1.store_step code e hok with hsame | ⟨c,call,o,next,-,-,hstore,hguar⟩
  · rw [hsame]
    exact hp.2
  · rw [hstore]
    exact hF c p.store _ hp.1.holds hp.2 hguar

variable (effect) (reset : σ → σ) (code : ℕ → γ → Prog ω σ β)

/-- A process that stops comes up again with what of the store outlives it. -/
def Pool.stepWith (p : Pool γ ω σ β) (e : Event γ) : Pool γ ω σ β :=
  match e with
  | .crash => ⟨reset p.store,(p.step effect code .crash).tasks⟩
  | e => p.step effect code e

variable {effect reset code}


/-- What a restart leaves of the store, and of where calls start and end. -/
structure Outlives (I : σ → Prop) (P : ℕ → γ → β → σ → Prop) (fresh : ℕ → σ → Prop) (reset : σ → σ)
    (stops : σ → Prop) : Prop where
  holds : ∀ s, I s → stops s → I (reset s)
  ends : ∀ c call b s, I s → stops s → P c call b s → P c call b (reset s)
  starts : ∀ c s, I s → stops s → fresh c s → fresh c (reset s)

theorem running_stepWith {stops : σ → Prop} (hsound : Sound effect ok I guar P fresh code)
    (hreset : Outlives I P fresh reset stops) (p : Pool γ ω σ β) (e : Event γ) (hok : Meets ok p e)
    (hstops : e = .crash → stops p.store) (h : Running effect ok I guar P fresh p) :
    Running effect ok I guar P fresh (p.stepWith effect reset code e) := by
  have hrun := running_step hsound p e hok h
  cases e with
  | start call => exact hrun
  | step c succeeds => exact hrun
  | crash =>
    have hstops := hstops rfl
    refine ⟨hreset.holds _ hrun.holds hstops,fun c hc => hreset.starts c _ hrun.holds hstops
      (hrun.fresh c hc),fun c call t ht => ?_⟩
    have hsafe := hrun.tasks c call t ht
    change (p.tasks.map _)[c]? = _ at ht
    rw [List.getElem?_map] at ht
    obtain ⟨⟨call',u⟩,-,hhalt⟩ := Option.map_eq_some_iff.mp ht
    obtain ⟨b,rfl⟩ : ∃ b, t = .done b := by
      have hu : halt u = some t := congrArg Prod.snd hhalt
      unfold halt at hu
      split at hu
      next b => exact ⟨b,(Option.some.inj hu).symm⟩
      · cases hu
    exact hreset.ends c call b _ hrun.holds hstops hsafe

theorem Pool.stepWith_id (p : Pool γ ω σ β) (e : Event γ) :
    p.stepWith effect id code e = p.step effect code e := by
  cases e <;> rfl

theorem Pool.stopped_of_step {d : ℕ} {succeeds : Bool}
    (h : (p.step effect code (.step d succeeds)).tasks[c]? = some (call,none)) :
    p.tasks[c]? = some (call,none) := by
  simp only [Pool.step] at h
  split at h
  next call' o next ht =>
    split at h
    · rw [List.getElem?_set] at h
      split at h
      · split at h <;> cases h
      · exact h
    · rw [List.getElem?_set] at h
      split at h
      · split at h <;> cases h
      · exact h
  · exact h

theorem stopped_stepWith {Q : ℕ → σ → Prop} (hQ : ∀ c, Stable I guar c (Q c))
    (hp : Running effect ok I guar P fresh p) (e : Event γ) (hok : Meets ok p e)
    (hcrash : e = .crash → ∀ c, Q c (reset p.store)) (h : ∀ c call, p.tasks[c]? = some (call,none) →
    Q c p.store) : ∀ c call, (p.stepWith effect reset code e).tasks[c]? = some (call,none) →
      Q c (p.stepWith effect reset code e).store := by
  intro c call hc
  cases e with
  | crash => exact hcrash rfl c
  | start call' =>
    change (p.tasks++_)[c]? = _ at hc
    rw [List.getElem?_append] at hc
    split at hc
    · exact h c call hc
    · rw [List.getElem?_singleton] at hc
      split at hc <;> cases hc
  | step d succeeds =>
    change (p.step effect code (.step d succeeds)).tasks[c]? = _ at hc
    have hstopped := Pool.stopped_of_step hc
    rcases hp.store_step code (.step d succeeds) hok with hsame | ⟨c',call',o,next,ht,-,hstore,hguar⟩
    · change Q c (p.step effect code (.step d succeeds)).store
      rw [hsame]
      exact h c call hstopped
    · change Q c (p.step effect code (.step d succeeds)).store
      rw [hstore]
      refine hQ c c' p.store _ ?_ hp.holds (h c call hstopped) hguar
      rintro rfl
      cases ht.symm.trans hstopped
end Hirn.Calls
