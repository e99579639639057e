import Mathlib

/-! Programs that change a state and may fail. A failure keeps the changes made before it, so
a rule speaks about the state behind a program whatever its outcome. -/
namespace Hirn.Effects

universe v

variable {σ ε α β : Type v}

/-- A program over the state `σ` with failures `ε`. -/
abbrev Prog (σ ε α : Type v) := ExceptT ε (StateM σ) α
def run (m : Prog σ ε α) (s : σ) : Except ε α × σ := StateT.run (ExceptT.run m) s

def raise (e : Option ε) : Prog σ ε PUnit :=
  match e with
  | some e => throw e
  | none => pure ⟨⟩

def require (b : Bool) (e : ε) : Prog σ ε PUnit := if b then pure ⟨⟩ else throw e

def lift (x : Except ε α) : Prog σ ε α :=
  match x with
  | .ok a => pure a
  | .error e => throw e

def expect (o : Option α) (e : ε) : Prog σ ε α :=
  match o with
  | some a => pure a
  | none => throw e

@[simp] theorem run_pure (a : α) (s : σ) : run (pure a : Prog σ ε α) s = (.ok a,s) := rfl
@[simp] theorem run_throw (e : ε) (s : σ) : run (throw e : Prog σ ε α) s = (.error e,s) := rfl
@[simp] theorem run_get (s : σ) : run (get : Prog σ ε σ) s = (.ok s,s) := rfl
@[simp] theorem run_set (t s : σ) : run (set t : Prog σ ε PUnit) s = (.ok ⟨⟩,t) := rfl
@[simp] theorem run_modify (f : σ → σ) (s : σ) : run (modify f : Prog σ ε PUnit) s = (.ok ⟨⟩,f s) :=
  rfl

theorem run_bind (m : Prog σ ε α) (f : α → Prog σ ε β) (s : σ) :
    run (m >>= f) s = match run m s with
      | (.ok a,t) => run (f a) t
      | (.error e,t) => (.error e,t) := by
  show (ExceptT.bindCont f (run m s).1) (run m s).2 = _
  rcases run m s with ⟨_ | _,t⟩ <;> rfl

@[simp] theorem run_discard (m : Prog σ ε α) (s : σ) :
    run (discard m) s = ((run m s).1.map fun _ => PUnit.unit,(run m s).2) := by
  show run (m >>= fun _ => pure PUnit.unit) s = _
  rw [run_bind]
  rcases run m s with ⟨_ | _,t⟩ <;> rfl

variable {f : α → Prog σ ε β} {m : Prog σ ε α} {s : σ} {t : σ}

theorem run_bind_ok {a : α} (h : run m s = (.ok a,t)) :
    run (m >>= f) s = run (f a) t := by simp [run_bind,h]
theorem run_bind_error {e : ε} (h : run m s = (.error e,t)) :
    run (m >>= f) s = (.error e,t) := by simp [run_bind,h]
@[simp] theorem run_raise_none (s : σ) : run (raise none : Prog σ ε PUnit) s = (.ok ⟨⟩,s) := rfl
@[simp] theorem run_raise_some (e : ε) (s : σ) :
    run (raise (some e) : Prog σ ε PUnit) s = (.error e,s) := rfl
@[simp] theorem run_require_true (e : ε) (s : σ) :
    run (require true e : Prog σ ε PUnit) s = (.ok ⟨⟩,s) := rfl
@[simp] theorem run_require_false (e : ε) (s : σ) :
    run (require false e : Prog σ ε PUnit) s = (.error e,s) := rfl

@[simp] theorem run_lift (x : Except ε α) (s : σ) : run (lift x : Prog σ ε α) s = (x,s) := by
  cases x <;> rfl

@[simp] theorem run_expect_some (a : α) (e : ε) (s : σ) :
    run (expect (some a) e : Prog σ ε α) s = (.ok a,s) := rfl
@[simp] theorem run_expect_none (e : ε) (s : σ) :
    run (expect none e : Prog σ ε α) s = (.error e,s) := rfl

theorem run_bind_eq_ok {b : β} :
    run (m >>= f) s = (.ok b,t) ↔ ∃ a u, run m s = (.ok a,u) ∧ run (f a) u = (.ok b,t) := by
  rw [run_bind]
  rcases run m s with ⟨_ | a,u⟩ <;> simp

variable {x : PUnit}

theorem run_raise_eq_ok {e : Option ε} : run (raise e : Prog σ ε PUnit) s = (.ok x,t) ↔ e = none ∧
    s = t := by
  cases e <;> simp

theorem run_require_eq_ok {b : Bool} {e : ε} : run (require b e : Prog σ ε PUnit) s = (.ok x,t) ↔
    b ∧ s = t := by
  cases b <;> simp

/-- From `P` the program ends as in `Q`, or fails in a state with `E`. -/
def Triple (P : σ → Prop) (m : Prog σ ε α) (Q : α → σ → Prop) (E : σ → Prop) : Prop :=
  ∀ s, P s → match run m s with
    | (.ok a,t) => Q a t
    | (.error _,t) => E t

variable {P E : σ → Prop} {Q : α → σ → Prop}

theorem Triple.pure {a : α} (h : ∀ s, P s → Q a s) : Triple P (pure a : Prog σ ε α) Q E := h
theorem Triple.throw (e : ε) (hE : ∀ s, P s → E s) : Triple P (throw e : Prog σ ε α) Q E := hE
theorem Triple.get : Triple P (get : Prog σ ε σ) (fun a s => P a ∧ P s) E := fun _ h => ⟨h,h⟩

theorem Triple.modify {f : σ → σ} {Q : PUnit → σ → Prop} (h : ∀ s, P s → Q ⟨⟩ (f s)) :
    Triple P (modify f : Prog σ ε PUnit) Q E := h

theorem Triple.bind (hm : Triple P m Q E) (hf : ∀ a, Triple (Q a) (f a) R E) :
    Triple P (m >>= f) R E := by
  intro s hs
  have hq := hm s hs
  rw [run_bind]
  rcases hrun : run m s with ⟨_ | a,t⟩
  · rwa [hrun] at hq
  · rw [hrun] at hq
    exact hf a t hq

theorem Triple.raise (e : Option ε) (hE : ∀ s, P s → E s) :
    Triple P (raise e : Prog σ ε PUnit) (fun _ => P) E := by
  intro s hs
  cases e with
  | none => exact hs
  | some e => exact hE s hs

theorem Triple.require (b : Bool) (e : ε) (hE : ∀ s, P s → E s) :
    Triple P (require b e : Prog σ ε PUnit) (fun _ s => b ∧ P s) E := by
  intro s hs
  cases b with
  | false => exact hE s hs
  | true => exact ⟨rfl,hs⟩

theorem Triple.lift (x : Except ε α) (hE : ∀ s, P s → E s) :
    Triple P (lift x : Prog σ ε α) (fun a s => x = .ok a ∧ P s) E := by
  intro s hs
  cases x with
  | error e => exact hE s hs
  | ok a => exact ⟨rfl,hs⟩

theorem Triple.expect (o : Option α) (e : ε) (hE : ∀ s, P s → E s) :
    Triple P (expect o e : Prog σ ε α) (fun a s => o = some a ∧ P s) E := by
  intro s hs
  cases o with
  | none => exact hE s hs
  | some a => exact ⟨rfl,hs⟩

theorem Triple.given {p : Prop} (h : p → Triple P m Q E) : Triple (fun s => p ∧ P s) m Q E :=
  fun s hs => h hs.1 s hs.2

theorem Triple.conseq (hm : Triple P m Q E) (hP : ∀ s, P' s → P s) (hQ : ∀ a s, Q a s → Q' a s) :
    Triple P' m Q' E := by
  intro s hs
  have hq := hm s (hP s hs)
  rcases hrun : run m s with ⟨_ | a,t⟩
  · rwa [hrun] at hq
  · rw [hrun] at hq
    exact hQ a t hq

theorem Triple.final (hm : Triple P m (fun _ => E) E) (hs : P s) : E (run m s).2 := by
  have hq := hm s hs
  rcases hrun : run m s with ⟨_ | a,t⟩ <;> rwa [hrun] at hq
end Hirn.Effects
