import Mathlib

/-! Inversion rules for computations in `Except`: what a successful or a failed bind says
about its parts. -/
namespace Hirn.Fallible
open List

universe v w

variable {ε : Type v} {α β : Type w} {x : Except ε α} {f : α → Except ε β}

@[simp] theorem bind_eq_ok {b : β} : (x >>= f) = .ok b ↔ ∃ a, x = .ok a ∧ f a = .ok b := by
  cases x <;> simp [bind,Except.bind]

@[simp] theorem bind_eq_ok' {b : β} : x.bind f = .ok b ↔ ∃ a, x = .ok a ∧ f a = .ok b := bind_eq_ok

@[simp] theorem map_eq_ok {f : α → β} {b : β} : x.map f = .ok b ↔ ∃ a, x = .ok a ∧ f a = b := by
  cases x <;> simp [Except.map]

@[simp] theorem ok_bind (a : α) (f : α → Except ε β) : (Except.ok a >>= f) = f a := rfl
@[simp] theorem error_bind (e : ε) (f : α → Except ε β) : (Except.error e >>= f) = .error e := rfl
@[simp] theorem map_ok (a : α) (f : α → β) : (Except.ok a : Except ε α).map f = .ok (f a) := rfl
@[simp] theorem map_error (e : ε) (f : α → β) : (Except.error e : Except ε α).map f = .error e := rfl
@[simp] theorem pure_eq_ok (a : α) : (pure a : Except ε α) = .ok a := rfl

theorem eq_ok_of_toOption {a : α} (h : x.toOption = some a) : x = .ok a := by
  cases x with
  | ok b => rw [Option.some.inj h]
  | error e => simp [Except.toOption] at h

def optionally {γ : Type*} (o : Option γ) (f : γ → α → Except ε α) (a : α) : Except ε α :=
  match o with
  | some c => f c a
  | none => .ok a

@[simp] theorem optionally_none {γ : Type*} (f : γ → α → Except ε α) (a : α) :
    optionally none f a = .ok a := rfl

@[simp] theorem optionally_some {γ : Type*} (c : γ) (f : γ → α → Except ε α) (a : α) :
    optionally (some c) f a = f c a := rfl

variable {γ : Type*} {δ : Type*} {step : α → γ → Except ε α} {l : List γ}

theorem foldlM_gathers (kept : α → List δ) (added : γ → List δ)
    (hstep : ∀ c ∈ l, ∀ a a', step a c = .ok a' → kept a' = kept a++added c) {a b : α}
    (h : l.foldlM step a = .ok b) : kept b = kept a++l.flatMap added := by
  induction l generalizing a with
  | nil =>
    simp only [foldlM_nil,pure_eq_ok,Except.ok.injEq] at h
    simp [h]
  | cons c l ih =>
    rw [foldlM_cons,bind_eq_ok] at h
    obtain ⟨a',ha',h⟩ := h
    have hrest := ih (fun c hc => hstep c (by simp [hc])) h
    rw [hrest,hstep c (by simp) a a' ha',append_assoc,flatMap_cons]

theorem foldlM_step {a b : α} (h : l.foldlM step a = .ok b) {c : γ} (hc : c ∈ l) :
    ∃ a a', step a c = .ok a' := by
  induction l generalizing a with
  | nil => simp at hc
  | cons c' l ih =>
    rw [foldlM_cons,bind_eq_ok] at h
    obtain ⟨a',ha',h⟩ := h
    rcases mem_cons.1 hc with rfl | hc
    · exact ⟨a,a',ha'⟩
    · exact ih h hc

theorem foldlM_invariant {I : α → Prop} (hstep : ∀ c ∈ l, ∀ a a', I a → step a c = .ok a' → I a')
    {a b : α} (ha : I a) (h : l.foldlM step a = .ok b) : I b := by
  induction l generalizing a with
  | nil =>
    simp only [foldlM_nil,pure_eq_ok,Except.ok.injEq] at h
    exact h ▸ ha
  | cons c l ih =>
    rw [foldlM_cons,bind_eq_ok] at h
    obtain ⟨a',ha',h⟩ := h
    exact ih (fun c hc => hstep c (by simp [hc])) (hstep c (by simp) a a' ha ha') h
end Hirn.Fallible
