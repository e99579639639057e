import Mathlib

/-! Runs of a system that takes one input after the other, and the rule by which an
invariant of its admissible steps holds behind every run. -/
namespace Hirn.Runs
variable {σ ι : Type*} {step : σ → ι → σ} {ok : σ → ι → Prop}

def exec (step : σ → ι → σ) (s : σ) (inputs : List ι) : σ := inputs.foldl step s

def Admissible (step : σ → ι → σ) (ok : σ → ι → Prop) : σ → List ι → Prop
  | _, [] => True
  | s, i::inputs => ok s i ∧ Admissible step ok (step s i) inputs

instance Admissible.decidable [∀ s i, Decidable (ok s i)] :
    ∀ s inputs, Decidable (Admissible step ok s inputs)
  | _, [] => .isTrue trivial
  | s, i::inputs =>
    have := Admissible.decidable (step s i) inputs
    inferInstanceAs (Decidable (_ ∧ _))

@[simp] theorem exec_nil (s : σ) : exec step s [] = s := rfl

@[simp] theorem exec_cons (s : σ) (i : ι) (inputs : List ι) :
    exec step s (i::inputs) = exec step (step s i) inputs := rfl

theorem exec_append (s : σ) (as bs : List ι) :
    exec step s (as++bs) = exec step (exec step s as) bs := List.foldl_append

variable {s : σ}

theorem admissible_append {as bs : List ι} : Admissible step ok s (as++bs) ↔
      Admissible step ok s as ∧ Admissible step ok (exec step s as) bs := by
  induction as generalizing s with
  | nil => simp [Admissible]
  | cons a as ih => simp [Admissible,ih,and_assoc]

variable {ok' : σ → ι → Prop} {inputs : List ι} (h : Admissible step ok s inputs)
include h

theorem Admissible.mono (hok : ∀ s i, ok s i → ok' s i) : Admissible step ok' s inputs := by
  induction inputs generalizing s with
  | nil => trivial
  | cons i inputs ih => exact ⟨hok s i h.1,ih h.2⟩

theorem Admissible.and
    (h' : Admissible step ok' s inputs) : Admissible step (fun s i => ok s i ∧ ok' s i) s inputs := by
  induction inputs generalizing s with
  | nil => trivial
  | cons i inputs ih => exact ⟨⟨h.1,h'.1⟩,ih h.2 h'.2⟩

theorem Admissible.and_forall {P : ι → Prop}
    (hP : ∀ i ∈ inputs, P i) : Admissible step (fun s i => ok s i ∧ P i) s inputs := by
  induction inputs generalizing s with
  | nil => trivial
  | cons i inputs ih => exact ⟨⟨h.1,hP i (by simp)⟩,ih h.2 fun j hj => hP j (by simp [hj])⟩

omit h

theorem admissible_of_forall (h : ∀ i ∈ inputs, ∀ s, ok s i) : Admissible step ok s inputs := by
  induction inputs generalizing s with
  | nil => trivial
  | cons i inputs ih => exact ⟨h i (by simp) s,ih fun j hj => h j (by simp [hj])⟩

variable {I : σ → Prop}

theorem invariant (hstep : ∀ s i, ok s i → I s → I (step s i))
    (hs : I s) (hok : Admissible step ok s inputs) : I (exec step s inputs) := by
  induction inputs generalizing s with
  | nil => exact hs
  | cons i inputs ih => exact ih (hstep s i hok.1 hs) hok.2

variable {Q : ι → Prop}

theorem invariant_of_forall (hstep : ∀ s i, Q i → I s → I (step s i))
    (hs : I s) (hQ : ∀ i ∈ inputs, Q i) : I (exec step s inputs) := by
  induction inputs generalizing s with
  | nil => exact hs
  | cons i inputs ih => exact ih (hstep s i (hQ i (by simp)) hs) fun j hj => hQ j (by simp [hj])

theorem holds_iff_admissible {P : σ → Prop} (hI : ∀ s i, Q i → I s → I (step s i))
    (hP : ∀ s i, Q i → I s → (P (step s i) ↔ P s ∧ ok s i))
    (hQ : ∀ i ∈ inputs, Q i) (hs : I s) : P (exec step s inputs) ↔ P s ∧
    Admissible step ok s inputs := by
  induction inputs generalizing s with
  | nil => simp [Admissible]
  | cons i inputs ih =>
    have hi := hQ i (by simp)
    rw [exec_cons,ih (fun j hj => hQ j (by simp [hj])) (hI s i hi hs),hP s i hi hs,Admissible,
      and_assoc]

theorem admissible_congr (hok : ∀ s i, Q i → I s → (ok s i ↔ ok' s i)) (hI : ∀ s i, Q i → I s →
    ok s i → I (step s i))
    (hQ : ∀ i ∈ inputs, Q i) (hs : I s) : Admissible step ok s inputs ↔
    Admissible step ok' s inputs := by
  induction inputs generalizing s with
  | nil => exact Iff.rfl
  | cons i inputs ih =>
    have hi := hQ i (by simp)
    constructor
    · rintro ⟨hfirst,hrest⟩
      exact ⟨(hok s i hi hs).mp hfirst,(ih (fun j hj => hQ j (by simp [hj]))
        (hI s i hi hs hfirst)).mp hrest⟩
    · rintro ⟨hfirst,hrest⟩
      have hfirst := (hok s i hi hs).mpr hfirst
      exact ⟨hfirst,(ih (fun j hj => hQ j (by simp [hj])) (hI s i hi hs hfirst)).mpr hrest⟩

theorem admissible_of_holds {P F : σ → Prop} (hI : ∀ s i, I s → I (step s i))
    (hF : ∀ s i, F (step s i) → F s) (hP : ∀ s i, Q i → I s → F (step s i) → P (step s i) → P s ∧
    ok s i) (hQ : ∀ i ∈ inputs, Q i) (hs : I s) (hend : F (exec step s inputs))
    (hholds : P (exec step s inputs)) : F s ∧ P s ∧ Admissible step ok s inputs := by
  induction inputs generalizing s with
  | nil => exact ⟨hend,hholds,trivial⟩
  | cons i inputs ih =>
    obtain ⟨hlater,hstep,hrest⟩ := ih (fun j hj => hQ j (by simp [hj])) (hI s i hs) hend hholds
    obtain ⟨hfirst,hok⟩ := hP s i (hQ i (by simp)) hs hlater hstep
    exact ⟨hF s i hlater,hfirst,hok,hrest⟩

theorem unchanged_iff {same : σ → σ → Prop} (hsame : Equivalence same) {bad : σ → ι → Prop}
    {P : ι → Prop} (hgood : ∀ s i, P i → I s → ok s i → ¬bad s i → same s (step s i) ∧ I (step s i))
    (hbad : ∀ s i, P i → I s → ok s i → bad s i → ¬same s (step s i))
    (hP : ∀ i ∈ inputs, P i) (hs : I s) (hok : Admissible step ok s inputs) :
    (∀ done, done <+: inputs → same s (exec step s done)) ↔
      Admissible step (fun s i => ¬bad s i) s inputs := by
  induction inputs generalizing s with
  | nil =>
    constructor
    · exact fun _ => trivial
    · rintro - done hdone
      rw [List.prefix_nil.mp hdone]
      exact hsame.refl s
  | cons i inputs ih =>
    have hi := hP i (by simp)
    constructor
    · intro hall
      have hfirst : ¬bad s i := fun h => hbad s i hi hs hok.1 h (hall [i] (by simp))
      obtain ⟨hstep,hbase⟩ := hgood s i hi hs hok.1 hfirst
      refine ⟨hfirst,(ih (fun j hj => hP j (by simp [hj])) hbase hok.2).mp fun done hdone => ?_⟩
      exact hsame.trans (hsame.symm hstep) (hall (i::done) (by simpa using hdone))
    · rintro ⟨hfirst,hrest⟩ done hdone
      obtain ⟨hstep,hbase⟩ := hgood s i hi hs hok.1 hfirst
      cases done with
      | nil => exact hsame.refl s
      | cons j done =>
        obtain ⟨rfl,htail⟩ := List.cons_prefix_cons.mp hdone
        exact hsame.trans hstep ((ih (fun j hj => hP j (by simp [hj])) hbase hok.2).mpr hrest
          done htail)
end Hirn.Runs
