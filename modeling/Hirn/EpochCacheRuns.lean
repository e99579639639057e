import Hirn.EpochCache

/-! What holds behind every interleaving of calls of the cache: when its values are as fresh as the
calls that get them, when closures are not repeated, and when the map keeps to its bound. -/
namespace Hirn.EpochCache
open Runs List Cache
variable {κ ν : Type} {x n : ℕ} {k victim : κ}

theorem lookup_of_erase [DecidableEq κ] {map : AList fun _ : κ => CacheEntry ν}
    (h : (map.erase victim).lookup k = some e) : map.lookup k = some e := by
  by_cases hk : k = victim
  · subst hk
    simp at h
  · rwa [AList.lookup_erase_ne hk] at h

variable {v : Computed ν}

theorem value_update_none {cells : ℕ → Cell ν} {y : ℕ} {running : Bool}
    (h : (Function.update cells x ⟨none,running⟩ y).value = some v) : (cells y).value = some v := by
  by_cases hy : y = x
  · simp [hy] at h
  · simpa [hy] using h

variable {s : Cache κ ν} {c : ℕ}

theorem act_of [DecidableEq κ] (P : Cache κ ν → Prop) {next : Task κ ν → Cache κ ν} (h : P s)
    (hnext : ∀ t, s.tasks[c]? = some t → P (next t)) : P (s.act c next) := by
  unfold act
  split
  next t htask => exact hnext t htask
  · exact h

variable {a : ℕ × ℕ} {s' : Cache κ ν} {phase : Phase κ ν} {t t' u : Task κ ν}
    {events : List (Event κ ν)}
  {key : κ}

section

/-- What the call has is no older than its epoch and its key's invalidations. -/
structure Task.IsFresh (s : Cache κ ν) (t : Task κ ν) : Prop where
  born : t.born.1 ≤ s.epoch ∧ t.born.2 ≤ s.invalidations t.key
  read : t.phase ≠ .entering → t.born.1 ≤ t.epoch
  cell : ∀ x v, t.Holds x → (s.cells x).value = some v → v.Since (t.epoch,s.invalidations t.key)
  starts : ∀ a, t.phase = .computing a → t.epoch ≤ a.1 ∧ s.invalidations t.key ≤ a.2
  carried : ∀ v, t.phase.value? = some v → v.Since (t.epoch,s.invalidations t.key)
  puts : t.cell = none → ∀ v, t.phase.value? = some v → v.started = none
  served : ∀ v, t.phase = .finished (some v) → v.Since t.born

structure Fresh [DecidableEq κ] (s : Cache κ ν) : Prop where
  entries : ∀ k e, s.map.lookup k = some e → e.value.Since (e.epoch,s.invalidations k)
  tasks : ∀ t ∈ s.tasks, t.IsFresh s

theorem Computed.Since.mono (h : v.Since a) (h₁ : b.1 ≤ a.1) (h₂ : b.2 ≤ a.2) : v.Since b :=
  fun started hstarted => ⟨h₁.trans (h started hstarted).1,h₂.trans (h started hstarted).2⟩

theorem since_of_none (h : v.started = none) : v.Since a := by
  intro started hstarted
  rw [h] at hstarted
  cases hstarted

theorem Task.IsFresh.since_born (h : t.IsFresh s) (hread : t.phase ≠ .entering)
    (hv : v.Since (t.epoch,s.invalidations t.key)) : v.Since t.born := hv.mono (h.read hread) h.born.2

theorem Task.IsFresh.frame (h : u.IsFresh s) (hepoch : s.epoch ≤ s'.epoch)
    (hinv : s'.invalidations u.key = s.invalidations u.key)
    (hcells : ∀ x v, u.Holds x → (s'.cells x).value = some v →
      (s.cells x).value = some v ∨ v.Since (u.epoch,s.invalidations u.key)) : u.IsFresh s' where
  born := ⟨h.born.1.trans hepoch,hinv ▸ h.born.2⟩
  read := h.read
  cell x v hx hv := by
    rw [hinv]
    rcases hcells x v hx hv with hbefore | hsince
    · exact h.cell x v hx hbefore
    · exact hsince
  starts := by rw [hinv]; exact h.starts
  carried := by rw [hinv]; exact h.carried
  puts := h.puts
  served := h.served

theorem Task.IsFresh.proceed (h : t.IsFresh s) (hread : t.phase ≠ .entering)
    (hholds : phase.isHolding → t.phase.isHolding := by simp)
    (hstarts : ∀ a, phase = .computing a → t.epoch ≤ a.1 ∧ s.invalidations t.key ≤ a.2 := by simp)
    (hcarried : ∀ v, phase.value? = some v → v.Since (t.epoch,s.invalidations t.key) ∧
      (t.cell = none → v.started = none) := by simp)
    (hserved : ∀ v, phase = .finished (some v) → v.Since t.born := by simp) :
    Task.IsFresh s {t with phase := phase} where
  born := h.born
  read _ := h.read hread
  cell x v hx := h.cell x v ⟨hx.1,hholds hx.2⟩
  starts := hstarts
  carried v hv := (hcarried v hv).1
  puts hnone v hv := (hcarried v hv).2 hnone
  served := hserved

theorem Task.IsFresh.carry (h : t.IsFresh s) (hbefore : t.phase.value? = some v)
    (hafter : phase.value? = some v) : Task.IsFresh s {t with phase := phase} := by
  refine h.proceed ?_ ?_ ?_ ?_ ?_
  · intro hphase
    simp [hphase] at hbefore
  · intro _
    rw [Phase.isHolding,hbefore,Option.isSome_some,Bool.or_true]
  · rintro a rfl
    cases hafter
  · intro w hw
    rw [hafter] at hw
    cases hw
    exact ⟨h.carried v hbefore,fun hnone => h.puts hnone v hbefore⟩
  · rintro w rfl
    cases hafter

theorem fresh_enter (h : t.IsFresh s) (hnone : t.cell = none)
    (hstarts : ∀ a, phase ≠ .computing a) (hcarried : ∀ v, phase.value? = some v → v.started = none)
    (hserved : ∀ v, phase ≠ .finished (some v)) :
    Task.IsFresh s {t with epoch := s.epoch,phase := phase} where
  born := h.born
  read _ := h.born.1
  cell x v hx := by simp [Task.Holds,hnone] at hx
  starts a ha := absurd ha (hstarts a)
  carried v hv := since_of_none (hcarried v hv)
  puts _ v hv := hcarried v hv
  served v hv := absurd hv (hserved v)

variable [DecidableEq κ]

theorem Fresh.update (h : Fresh s) (htasks : s'.tasks = s.tasks.set c t') (hepoch : s'.epoch = s.epoch)
    (hinv : s'.invalidations = s.invalidations) (hentries : ∀ k e, s'.map.lookup k = some e →
      s.map.lookup k = some e ∨ e.value.Since (e.epoch,s.invalidations k))
    (hcells : ∀ u ∈ s.tasks, ∀ x v, u.Holds x → (s'.cells x).value = some v →
      (s.cells x).value = some v ∨ v.Since (u.epoch,s.invalidations u.key)) (hown :
      t'.IsFresh s') : Fresh s' := by
  constructor
  · intro k e he
    rw [hinv]
    rcases hentries k e he with hbefore | hsince
    · exact h.entries k e hbefore
    · exact hsince
  · intro u hu
    rcases mem_set htasks hu with hu | rfl
    · exact (h.tasks u hu).frame hepoch.ge (by rw [hinv]) (hcells u hu)
    · exact hown

theorem Fresh.move (h : Fresh s) (htasks : s'.tasks = s.tasks.set c t') (hown : t'.IsFresh s)
    (hmap : s'.map = s.map := by rfl) (hcells : s'.cells = s.cells := by rfl)
    (hepoch : s'.epoch = s.epoch := by rfl)
    (hinv : s'.invalidations = s.invalidations := by rfl) : Fresh s' := by
  refine h.update htasks hepoch hinv (fun k e he => .inl (hmap ▸ he))
    (fun u _ x v _ hv => .inl (hcells ▸ hv)) ?_
  exact hown.frame hepoch.ge (by rw [hinv]) fun x v _ hv => .inl (hcells ▸ hv)

theorem fresh_looking (h : Fresh s) (hmem : t ∈ s.tasks) (hphase : t.phase = .looking)
    (hentry : s.lookup t = some entry) : entry.value.Since t.born := by
  obtain ⟨hfound,hcurrent⟩ := Option.filter_eq_some_iff.mp hentry
  have hsince := h.entries t.key entry hfound
  exact (h.tasks t hmem).since_born (by simp [hphase]) (hsince.mono (by simpa using hcurrent) le_rfl)

theorem fresh_join (hl : Linked s) (h : Fresh s)
    (htask : s.tasks[c]? = some t) (hphase : t.phase = .joining)
    (hown : s.joinsOwnEpoch t) : Fresh (s.join c t) := by
  have hmem := mem_of_lookup htask
  have hfresh := h.tasks t hmem
  have htake : ∀ x, (∀ v, (s.cells x).value = some v → v.Since (t.epoch,s.invalidations t.key)) →
      Task.IsFresh s {t with cell := some x,phase := .awaiting} := by
    intro x hx
    refine ⟨hfresh.born,fun _ => hfresh.read (by simp [hphase]),?_,by simp,by simp,by simp,by simp⟩
    rintro y v ⟨hy,-⟩ hv
    cases hy
    exact hx v hv
  unfold join
  split
  next x hx =>
    refine h.move rfl (htake x fun v hv => ?_)
    obtain ⟨u,hu,hkey,hholds,howner⟩ := hl.owner_of_flying hx
    have hsince := (h.tasks u hu).cell x v hholds hv
    rwa [hkey,epoch_of_joinsOwnEpoch hown hphase hx howner] at hsince
  next hx =>
    refine h.update rfl rfl rfl (fun _ _ he => .inl he)
      (fun u hu y v _ hv => .inl (value_update_none hv)) ?_
    refine ⟨hfresh.born,fun _ => hfresh.read (by simp [hphase]),?_,by simp,by simp,by simp,by simp⟩
    rintro y v ⟨hy,-⟩ hv
    cases hy
    simp [setTask] at hv

theorem fresh_await (h : Fresh s) (hmem : t ∈ s.tasks) (hepoch : t.epoch ≤ s.epoch)
    (hphase : t.phase = .awaiting) (hcell : t.cell = some x) : Fresh (s.await c x t) := by
  have hfresh := h.tasks t hmem
  have hread : t.phase ≠ .entering := by simp [hphase]
  unfold await
  split
  next v hv =>
    refine h.move rfl (hfresh.proceed hread (by simp [hphase]) (by simp) ?_)
    intro w hw
    cases hw
    exact ⟨hfresh.cell x v ⟨hcell,by simp [hphase]⟩ hv,by simp [hcell]⟩
  next hv =>
    split
    · exact h
    · refine h.update rfl rfl rfl (fun _ _ he => .inl he)
        (fun u hu y v _ hv => .inl (value_update_none hv)) ?_
      have hown : Task.IsFresh s {t with phase := .computing (s.epoch,s.invalidations t.key)} := by
        refine hfresh.proceed hread (by simp [hphase]) ?_
        intro a ha
        cases ha
        exact ⟨hepoch,le_rfl⟩
      exact hown.frame le_rfl rfl fun y v _ hv => .inl (value_update_none hv)

theorem fresh_advance (hl : Linked s) (h : Fresh s)
    (htask : s.tasks[c]? = some t) (hown : s.joinsOwnEpoch t) : Fresh (s.stepAdvance c t) := by
  have hmem := mem_of_lookup htask
  have hfresh := h.tasks t hmem
  unfold stepAdvance
  split
  next hphase =>
    have hnone : t.cell = none := hl.early t hmem (by simp [hphase])
    split
    · refine h.move rfl (fresh_enter hfresh hnone (by simp) ?_ (by simp))
      intro v hv
      cases hv
      rfl
    · exact h.move rfl (fresh_enter hfresh hnone (by simp) (by simp) (by simp))
  next hphase =>
    have hread : t.phase ≠ .entering := by simp [hphase]
    split
    next entry hentry =>
      refine h.move rfl (hfresh.proceed hread (by simp) (by simp) (by simp) ?_)
      intro v hv
      cases hv
      exact fresh_looking h hmem hphase hentry
    · exact h.move rfl (hfresh.proceed hread)
    · exact h.move rfl (hfresh.proceed hread)
  next hphase => exact fresh_join hl h htask hphase hown
  next hphase =>
    split
    next x hcell => exact fresh_await h hmem (hl.epochs t hmem) hphase hcell
    · exact h
  next result hphase =>
    split
    next x hcell =>
      have hremove : ∀ phase : Phase κ ν, Task.IsFresh s {t with phase := phase} →
          Fresh ((s.removeIf t.key x).setTask c {t with phase := phase}) := by
        intro phase hphase
        unfold removeIf
        split <;> exact h.move rfl hphase
      have hread : t.phase ≠ .entering := by simp [hphase]
      cases result with
      | some value => exact hremove _ (hfresh.carry (by simp [hphase]) rfl)
      | none => exact hremove _ (hfresh.proceed hread)
    · exact h
  next value hphase =>
    refine h.move rfl ?_
    split
    · exact hfresh.carry (by simp [hphase]) rfl
    · exact hfresh.carry (by simp [hphase]) rfl
  next value victim hphase =>
    refine h.update rfl rfl rfl ?_ (fun u _ x v _ hv => .inl hv)
      ((hfresh.carry (by simp [hphase]) rfl).frame le_rfl rfl fun x v _ hv => .inl hv)
    intro k e he
    exact .inl (lookup_of_erase he)
  next value hphase =>
    have hcarried := hfresh.carried value (by simp [hphase])
    have hserved : Task.IsFresh s {t with phase := .finished (some value)} := by
      refine hfresh.proceed (by simp [hphase]) (by simp) (by simp) (by simp) ?_
      intro v hv
      cases hv
      exact hfresh.since_born (by simp [hphase]) hcarried
    refine h.update rfl rfl rfl ?_ (fun u _ x v _ hv => .inl hv)
      (hserved.frame le_rfl rfl fun x v _ hv => .inl hv)
    intro k e he
    by_cases hk : k = t.key
    · subst hk
      right
      have hentry : e = ⟨value,t.epoch⟩ := by simpa [setTask] using he.symm
      rw [hentry]
      exact hcarried
    · left
      simpa [setTask,AList.lookup_insert_ne hk] using he
  · exact h

/-- What a closure has computed is as fresh as the calls that wait for it. -/
theorem fresh_computed (hl : Linked s) (h : Fresh s)
    (htask : s.tasks[c]? = some t) (result : Option ν) : Fresh (s.stepComputed c t result) := by
  have hmem := mem_of_lookup htask
  have hfresh := h.tasks t hmem
  unfold stepComputed
  split
  next started x hphase hcell =>
    have hstarts := hfresh.starts started hphase
    have hread : t.phase ≠ .entering := by simp [hphase]
    cases result with
    | some value =>
      have hcells : ∀ u ∈ s.tasks, ∀ y v, u.Holds y →
          ((Function.update s.cells x ⟨some ⟨value,some started⟩,false⟩) y).value = some v →
          (s.cells y).value = some v ∨ v.Since (u.epoch,s.invalidations u.key) := by
        intro u hu y v hy hv
        by_cases hyx : y = x
        · subst hyx
          right
          obtain ⟨hkey,hepoch⟩ := (hl.held u hu y hy).unique
            (hl.held t hmem y ⟨hcell,by simp [hphase]⟩)
          rw [Function.update_self] at hv
          cases hv
          intro a ha
          cases ha
          rw [hkey,hepoch]
          exact hstarts
        · left
          simpa [hyx] using hv
      refine h.update rfl rfl rfl (fun _ _ he => .inl he) hcells ?_
      have hown : Task.IsFresh s {t with phase := .removing (some ⟨value,some started⟩)} := by
        refine hfresh.proceed hread (by simp [hphase]) (by simp) ?_
        intro v hv
        cases hv
        refine ⟨?_,by simp [hcell]⟩
        intro a ha
        cases ha
        exact hstarts
      exact hown.frame le_rfl rfl fun y v hy hv => hcells t hmem y v ⟨hy.1,by simp [hphase]⟩ hv
    | none =>
      refine h.update rfl rfl rfl (fun _ _ he => .inl he)
        (fun u _ y v _ hv => .inl (value_update_none hv)) ?_
      have hown : Task.IsFresh s {t with phase := .removing none} :=
        hfresh.proceed hread (by simp [hphase])
      exact hown.frame le_rfl rfl fun y v _ hv => .inl (value_update_none hv)
  · exact h

theorem fresh_chosen (h : Fresh s) (htask : s.tasks[c]? = some t) (victim : κ) :
    Fresh (s.stepChosen c t victim) := by
  have hfresh := h.tasks t (mem_of_lookup htask)
  unfold stepChosen
  split
  next value hphase =>
    split
    · split
      · exact h.move rfl (hfresh.carry (by simp [hphase]) rfl)
      · exact h
    · split
      · exact h.move rfl (hfresh.carry (by simp [hphase]) rfl)
      · exact h
  · exact h

theorem Fresh.call (h : Fresh s) (key : κ) (call : Call ν) : Fresh (s.step (.call key call)) := by
  refine ⟨h.entries,fun u hu => ?_⟩
  rcases mem_append.mp hu with hu | hu
  · exact (h.tasks u hu).frame le_rfl rfl fun _ _ _ hv => .inl hv
  · rw [mem_singleton.mp hu]
    exact ⟨⟨le_rfl,le_rfl⟩,by simp,by simp [Task.Holds],by simp,by simp,by simp,by simp⟩

theorem Fresh.invalidateAll (h : Fresh s) : Fresh (s.step .invalidateAll) :=
  ⟨h.entries,fun u hu => (h.tasks u hu).frame (Nat.le_succ _) rfl fun _ _ _ hv => .inl hv⟩

theorem of_isUnheld (h : s.isUnheld key) (hu : u ∈ s.tasks) (hkey : u.key = key) :
    u.cell = none ∨ u.phase.isHolding = false := by
  have hall := all_eq_true.mp h u hu
  simp only [hkey,beq_self_eq_true,Bool.true_and,Bool.not_eq_true',Bool.and_eq_false_iff] at hall
  exact hall.imp_left fun hs => Option.isNone_iff_eq_none.mp (Option.isSome_eq_false_iff.mp hs)

theorem Fresh.invalidate (hl : Linked s) (h : Fresh s) (hunheld : s.isUnheld key) :
    Fresh (s.step (.invalidate key)) := by
  constructor
  · intro k e he
    have hbefore := h.entries k e (lookup_of_erase he)
    by_cases hk : k = key
    · subst hk
      simp [step] at he
    · simpa [step,hk] using hbefore
  · intro u hu
    have hfresh := h.tasks u hu
    by_cases hkey : u.key = key
    · have hnot := of_isUnheld hunheld hu hkey
      refine ⟨⟨hfresh.born.1,hfresh.born.2.trans ?_⟩,hfresh.read,?_,?_,?_,hfresh.puts,hfresh.served⟩
      · simp [step,hkey]
      · rintro x v ⟨hcell,hholds⟩
        rcases hnot with hnone | hfalse
        · simp [hnone] at hcell
        · exact absurd (hfalse.symm.trans hholds) Bool.false_ne_true
      · intro a ha
        rcases hnot with hnone | hfalse
        · exact absurd hnone (hl.awaits u hu (by simp [ha]))
        · simp [ha] at hfalse
      · intro v hv
        rcases hnot with hnone | hfalse
        · exact since_of_none (hfresh.puts hnone v hv)
        · rw [Phase.isHolding,hv] at hfalse
          simp at hfalse
    · exact hfresh.frame le_rfl (by simp [step,hkey]) fun _ _ _ hv => .inl hv

theorem linked_step (hl : Linked s) (e : Event κ ν)
    (hown : ∀ c t, e = .advance c → s.tasks[c]? = some t → s.joinsOwnEpoch t) : Linked (s.step e) := by
  cases e with
  | call key call => exact hl.call rfl rfl rfl
  | invalidate key => exact hl.keep rfl rfl le_rfl
  | invalidateAll => exact hl.keep rfl rfl (Nat.le_succ _)
  | advance c => exact act_of Linked hl fun t htask => linked_advance hl htask (hown c t rfl htask)
  | computed c result => exact act_of Linked hl fun t htask => linked_computed hl htask result
  | chosen c victim => exact act_of Linked hl fun t htask => linked_chosen hl htask victim

theorem fresh_step (e : Event κ ν) (hok : s.isUndisturbed e) (h : Linked s ∧ Fresh s) :
    Linked (s.step e) ∧ Fresh (s.step e) := by
  obtain ⟨hl,h⟩ := h
  have hown : ∀ c t, e = .advance c → s.tasks[c]? = some t → s.joinsOwnEpoch t := by
    rintro c t rfl htask
    simpa [isUndisturbed,htask] using hok
  refine ⟨linked_step hl e hown,?_⟩
  cases e with
  | call key call => exact h.call key call
  | invalidate key => exact Fresh.invalidate hl h hok
  | invalidateAll => exact h.invalidateAll
  | advance c => exact act_of Fresh h fun t htask => fresh_advance hl h htask (hown c t rfl htask)
  | computed c result => exact act_of Fresh h fun t htask => fresh_computed hl h htask result
  | chosen c victim => exact act_of Fresh h fun t htask => fresh_chosen h htask victim

omit [DecidableEq κ] in
theorem linked_withCapacity (n : ℕ) : Linked (withCapacity n : Cache κ ν) := by
  constructor <;> simp [withCapacity]

theorem fresh_withCapacity (n : ℕ) : Fresh (withCapacity n : Cache κ ν) := by
  constructor <;> simp [withCapacity]

theorem servesFresh_of_undisturbed (h : Admissible step (fun s e => s.isUndisturbed e)
    (withCapacity n) events) : ServesFresh (exec step (withCapacity n) events) := by
  have hrun := invariant (fun s e => fresh_step e) ⟨linked_withCapacity n,fresh_withCapacity n⟩ h
  exact fun t ht => (hrun.2.tasks t ht).served
end
section

def Live (s : Cache κ ν) (x : ℕ) : Prop := (s.cells x).value ≠ none ∨ ∃ t ∈ s.tasks, t.Holds x

/-- A key and an epoch have one cell alive, its value in the map or about to be. -/
structure Single [DecidableEq κ] (s : Cache κ ν) : Prop where
  entries : ∀ k e, s.map.lookup k = some e → e.epoch ≤ s.epoch
  runs : ∀ t ∈ s.tasks, ∀ a x, t.phase = .computing a → t.cell = some x → s.cells x = ⟨none,true⟩
  runner : ∀ (c d : ℕ) (t u : Task κ ν) (a b : ℕ × ℕ) (x : ℕ), s.tasks[c]? = some t →
    s.tasks[d]? = some u →
    t.phase = .computing a → u.phase = .computing b → t.cell = some x → u.cell = some x → c = d
  live : ∀ x y k e, Owner s x k e → Owner s y k e → Live s x → Live s y → x = y
  kept : ∀ x k, Owner s x k s.epoch → (s.cells x).value ≠ none →
    s.isCurrent k = true ∨ ∃ t ∈ s.tasks, t.cell = some x ∧ t.phase.value? ≠ none
  counted : ∀ p ∈ s.completed, ∃ x, Owner s x p.1 p.2 ∧ (s.cells x).value ≠ none
  once : s.completed.Nodup

theorem isHolding_of_value? (h : phase.value? ≠ none) : phase.isHolding := by
  rw [Phase.isHolding,Option.isSome_iff_ne_none.mpr h,Bool.or_true]

theorem computing_holds (hphase : t.phase = .computing a) (hcell : t.cell = some x) :
    t.Holds x := ⟨hcell,by simp [hphase]⟩

variable [DecidableEq κ] (hl : Linked s)
include hl

variable (h : Single s)
include h

variable (htask : s.tasks[c]? = some t)
include htask

theorem Single.move (htasks : s'.tasks = s.tasks.set c t')
    (hcells : s'.cells = s.cells) (hepoch : s'.epoch = s.epoch)
    (hcompleted : s'.completed = s.completed)
    (hcell : t'.cell = t.cell) (hkey : t'.key = t.key) (hown : t.cell ≠ none → t'.epoch = t.epoch)
    (hentries : ∀ k e, s'.map.lookup k = some e → e.epoch ≤ s.epoch)
    (hcurrent : ∀ k, s.isCurrent k → s'.isCurrent k) (hstarts : ∀ a, t'.phase ≠ .computing a)
    (hholds : t'.phase.isHolding → t.phase.isHolding ∨ t.cell = none)
    (hcarries : t.phase.value? ≠ none → t.cell ≠ none → t.epoch = s.epoch →
      t'.phase.value? ≠ none ∨ s'.isCurrent t.key) : Single s' := by
  have howner : ∀ x k e, Owner s' x k e ↔ Owner s x k e := fun x k e => owner_set htask htasks hcell
    hkey hown
  have hlive : ∀ x, Live s' x → Live s x := by
    rintro x (hvalue | ⟨u,hu,hx⟩)
    · exact .inl (hcells ▸ hvalue)
    · refine .inr ?_
      rcases mem_set htasks hu with hu | rfl
      · exact ⟨u,hu,hx⟩
      · have hx' : t.cell = some x := hcell ▸ hx.1
        exact ⟨t,mem_of_lookup htask,hx',(hholds hx.2).resolve_right (by simp [hx'])⟩
  constructor
  · intro k e he
    exact hepoch ▸ hentries k e he
  · intro u hu a x ha hx
    rw [hcells]
    rcases mem_set htasks hu with hu | rfl
    · exact h.runs u hu a x ha hx
    · exact absurd ha (hstarts a)
  · intro d d' u u' a b x hd hd' ha hb hx hx'
    rw [lookup_set htask htasks] at hd hd'
    split at hd
    · cases hd
      exact absurd ha (hstarts a)
    · split at hd'
      · cases hd'
        exact absurd hb (hstarts b)
      · exact h.runner d d' u u' a b x hd hd' ha hb hx hx'
  · intro x y k e hx hy hlx hly
    exact h.live x y k e ((howner x k e).mp hx) ((howner y k e).mp hy) (hlive x hlx) (hlive y hly)
  · intro x k hx hvalue
    rw [howner,hepoch] at hx
    rcases h.kept x k hx (hcells ▸ hvalue) with hk | ⟨u,hu,hux,huv⟩
    · exact .inl (hcurrent k hk)
    · rcases mem_of_set htask htasks hu with hu | rfl
      · exact .inr ⟨u,hu,hux,huv⟩
      · obtain ⟨hkey',hepoch'⟩ := (hl.held u (mem_of_lookup htask) x
          ⟨hux,isHolding_of_value? huv⟩).unique hx
        rcases hcarries huv (by simp [hux]) hepoch' with hv | hk
        · exact .inr ⟨t',new_mem_set htask htasks,hcell.trans hux,hv⟩
        · exact .inl (hkey' ▸ hk)
  · intro p hp
    obtain ⟨x,hx,hvalue⟩ := h.counted p (hcompleted ▸ hp)
    exact ⟨x,(howner x p.1 p.2).mpr hx,hcells ▸ hvalue⟩
  · exact hcompleted ▸ h.once

theorem Single.proceed (htasks : s'.tasks = s.tasks.set c {t with phase := phase})
    (hstarts : ∀ a, phase ≠ .computing a := by simp)
    (hholds : phase.isHolding = true → t.phase.isHolding = true := by simp [*])
    (hcarries : t.phase.value? ≠ none → phase.value? ≠ none := by simp [*])
    (hmap : s'.map = s.map := by rfl)
    (hcells : s'.cells = s.cells := by rfl) (hepoch : s'.epoch = s.epoch := by rfl)
    (hcompleted : s'.completed = s.completed := by rfl) : Single s' := by
  refine h.move hl htask htasks hcells hepoch hcompleted rfl rfl (fun _ => rfl) ?_ ?_ hstarts
    (fun hp => .inl (hholds hp)) fun hv _ _ => .inl (hcarries hv)
  · intro k e he
    exact h.entries k e (hmap ▸ he)
  · intro k hk
    rw [isCurrent,hmap,hepoch]
    exact hk

omit htask in
omit h in
omit hl in
theorem isCurrent_iff : s.isCurrent k ↔ ∃ e, s.map.lookup k = some e ∧ e.epoch = s.epoch := by
  simp [isCurrent,Option.any_eq_true]

/-- A call takes a cell that is alive, or a new one where there is none. -/
theorem Single.take (hphase : t.phase = .joining)
    (htasks : s'.tasks = s.tasks.set c {t with cell := some x,phase := .awaiting})
    (hmap : s'.map = s.map)
    (hcells : ∀ y, y ≠ c → s'.cells y = s.cells y) (hepoch : s'.epoch = s.epoch)
    (hcompleted : s'.completed = s.completed)
    (hx : x ≠ c ∧ Live s x ∨ x = c ∧ (s'.cells c).value = none ∧ ∀ y, Owner s y t.key t.epoch →
    ¬Live s y) :
    Single s' := by
  have hmem := mem_of_lookup htask
  have hnone : t.cell = none := hl.early t hmem (by simp [hphase])
  have hne : ∀ {y k e}, Owner s y k e → y ≠ c := by
    rintro y k e ⟨u,hu,hcell,-⟩ rfl
    rw [htask] at hu
    cases hu
    simp [hnone] at hcell
  have howner : ∀ {y k e}, Owner s' y k e → Owner s y k e ∨ y = c ∧ x = c ∧ k = t.key ∧
    e = t.epoch := by
    rintro y k e ⟨u,hu,hcell,hkey,hepoch⟩
    rw [lookup_set htask htasks] at hu
    split at hu
    next hy =>
      cases hu
      refine .inr ⟨hy,?_,hkey.symm,hepoch.symm⟩
      simpa [hy] using hcell
    next hy => exact .inl ⟨u,hu,hcell,hkey,hepoch⟩
  have hgrow : ∀ {y k e}, Owner s y k e → Owner s' y k e :=
    fun ho => ho.grow (lookup_of_taken htask hnone htasks)
  have hlive : ∀ {y k e}, Owner s y k e → Live s' y → Live s y := by
    rintro y k e ho (hvalue | ⟨u,hu,huy⟩)
    · exact .inl (hcells y (hne ho) ▸ hvalue)
    · rcases mem_set htasks hu with hu | rfl
      · exact .inr ⟨u,hu,huy⟩
      · cases huy.1
        rcases hx with ⟨-,hlx⟩ | ⟨rfl,-,-⟩
        · exact hlx
        · exact absurd rfl (hne ho)
  have hruns : ∀ u ∈ s'.tasks, ∀ a y, u.phase = .computing a → u.cell = some y → u ∈ s.tasks ∧
    y ≠ c := by
    intro u hu a y ha hy
    rcases mem_set htasks hu with hu | rfl
    · exact ⟨hu,hne (hl.held u hu y (computing_holds ha hy))⟩
    · cases ha
  constructor
  · intro k e he
    rw [hepoch]
    exact h.entries k e (hmap ▸ he)
  · intro u hu a y ha hy
    obtain ⟨hu',hyc⟩ := hruns u hu a y ha hy
    rw [hcells y hyc]
    exact h.runs u hu' a y ha hy
  · intro d d' u u' a b y hd hd' ha hb hy hy'
    rw [lookup_set htask htasks] at hd hd'
    split at hd
    · cases hd
      cases ha
    · split at hd'
      · cases hd'
        cases hb
      · exact h.runner d d' u u' a b y hd hd' ha hb hy hy'
  · intro y z k e hy hz hly hlz
    rcases howner hy with hy | ⟨rfl,hxc,rfl,rfl⟩
    · rcases howner hz with hz | ⟨rfl,hxc,rfl,rfl⟩
      · exact h.live y z k e hy hz (hlive hy hly) (hlive hz hlz)
      · rcases hx with ⟨hxc',-⟩ | ⟨-,-,hdead⟩
        · exact absurd hxc hxc'
        · exact absurd (hlive hy hly) (hdead y hy)
    · rcases howner hz with hz | ⟨rfl,-,-,-⟩
      · rcases hx with ⟨hxc',-⟩ | ⟨-,-,hdead⟩
        · exact absurd hxc hxc'
        · exact absurd (hlive hz hlz) (hdead z hz)
      · rfl
  · intro y k hy hvalue
    have hcurrent : s'.isCurrent k = s.isCurrent k := by rw [isCurrent,hmap,hepoch,isCurrent]
    rw [hcurrent]
    rcases howner hy with hy | ⟨rfl,hxc,-,-⟩
    · rw [hepoch] at hy
      refine (h.kept y k hy (hcells y (hne hy) ▸ hvalue)).imp_right ?_
      rintro ⟨u,hu,huy,huv⟩
      rcases mem_of_set htask htasks hu with hu | rfl
      · exact ⟨u,hu,huy,huv⟩
      · simp [hnone] at huy
    · rcases hx with ⟨hxc',-⟩ | ⟨-,hempty,-⟩
      · exact absurd hxc hxc'
      · exact absurd hempty hvalue
  · intro p hp
    obtain ⟨y,hy,hvalue⟩ := h.counted p (hcompleted ▸ hp)
    exact ⟨y,hgrow hy,by rwa [hcells y (hne hy)]⟩
  · exact hcompleted ▸ h.once

theorem single_join (hphase : t.phase = .joining) (hkeeps : s.keepsCurrent t) :
    Single (s.join c t) := by
  have hmem := mem_of_lookup htask
  unfold join
  split
  next x hx =>
    obtain ⟨u,hu,-,hholds,howner⟩ := hl.owner_of_flying hx
    refine h.take hl htask hphase rfl rfl (fun _ _ => rfl) rfl rfl (.inl ⟨?_,.inr ⟨u,hu,hholds⟩⟩)
    rintro rfl
    obtain ⟨w,hw,hcell,-⟩ := howner
    rw [htask] at hw
    cases hw
    simp [hl.early t hmem (by simp [hphase])] at hcell
  next hx =>
    obtain ⟨⟨hepoch,hcurrent⟩,hunheld⟩ : (t.epoch = s.epoch ∧ s.isCurrent t.key = false) ∧
      s.isUnheld t.key := by
      simpa [keepsCurrent,hphase,hx] using hkeeps
    have hnobody : ∀ y, Owner s y t.key t.epoch → ∀ u ∈ s.tasks, ¬u.Holds y := by
      intro y hy u hu huy
      rcases of_isUnheld hunheld hu ((hl.held u hu y huy).unique hy).1 with hcell | hfalse
      · exact absurd (hcell.symm.trans huy.1) (by simp)
      · exact absurd (hfalse.symm.trans huy.2) Bool.false_ne_true
    refine h.take hl htask hphase rfl rfl (fun y hy => Function.update_of_ne hy _ _) rfl rfl
      (.inr ⟨rfl,?_,?_⟩)
    · simp [setTask]
    · rintro y hy (hvalue | ⟨u,hu,huy⟩)
      · rcases h.kept y t.key (hepoch ▸ hy) hvalue with hk | ⟨u,hu,huy,huv⟩
        · exact absurd (hcurrent.symm.trans hk) Bool.false_ne_true
        · exact hnobody y hy u hu ⟨huy,isHolding_of_value? huv⟩
      · exact hnobody y hy u hu huy

/-- A call starts its closure for the cell that it has, or ends it. -/
theorem Single.fill (hcell : t.cell = some x) (hawaits : t.phase.isAwaiting)
    (hempty : (s.cells x).value = none)
    (halone : ∀ (d : ℕ) (u : Task κ ν) (b : ℕ × ℕ), s.tasks[d]? = some u → u.phase = .computing b →
    u.cell = some x → d = c)
    (htasks : s'.tasks = s.tasks.set c {t with phase := phase}) (hmap : s'.map = s.map)
    (hcells : s'.cells = Function.update s.cells x cell) (hepoch : s'.epoch = s.epoch)
    (hvalue : t.phase.value? = none) (hstarts : ∀ a, phase = .computing a → cell = ⟨none,true⟩)
    (hcompleted : s'.completed = s.completed ∧ cell.value = none ∨
      s'.completed = s.completed++[(t.key,t.epoch)] ∧ cell.value ≠ none ∧
      phase.value? ≠ none) : Single s' := by
  have hmem := mem_of_lookup htask
  have hholds : t.Holds x := ⟨hcell,isHolding_of_isAwaiting hawaits⟩
  have howner : ∀ {y k e}, Owner s' y k e ↔ Owner s y k e := owner_set htask htasks rfl rfl fun _ =>
    rfl
  have hself : s'.cells x = cell := by rw [hcells,Function.update_self]
  have hother : ∀ y, y ≠ x → s'.cells y = s.cells y := fun y hy => by
    rw [hcells,Function.update_of_ne hy]
  have hlive : ∀ y, Live s' y → Live s y := by
    rintro y (hy | ⟨u,hu,huy⟩)
    · by_cases hyx : y = x
      · exact .inr ⟨t,hmem,hyx ▸ hholds⟩
      · exact .inl (hother y hyx ▸ hy)
    · rcases mem_set htasks hu with hu | rfl
      · exact .inr ⟨u,hu,huy⟩
      · exact .inr ⟨t,hmem,huy.1,hholds.2⟩
  have hgrows : ∀ y, (s.cells y).value ≠ none → (s'.cells y).value ≠ none := by
    intro y hy
    rw [hother y (by rintro rfl; exact hy hempty)]
    exact hy
  constructor
  · intro k e he
    rw [hepoch]
    exact h.entries k e (hmap ▸ he)
  · intro u hu a y ha hy
    obtain ⟨d,hd⟩ := mem_iff_getElem?.mp hu
    rw [lookup_set htask htasks] at hd
    split at hd
    next hdc =>
      cases hd
      have hyx : y = x := by simpa [hcell] using hy.symm
      rw [hyx,hself]
      exact hstarts a ha
    next hdc =>
      rw [hother y (by rintro rfl; exact hdc (halone d u a hd ha hy))]
      exact h.runs u (mem_of_lookup hd) a y ha hy
  · intro d d' u u' a b y hd hd' ha hb hy hy'
    rw [lookup_set htask htasks] at hd hd'
    split at hd
    next hdc =>
      cases hd
      split at hd'
      next hdc' => exact hdc.trans hdc'.symm
      next hdc' =>
        have hyx : y = x := by simpa [hcell] using hy.symm
        exact absurd (halone d' u' b hd' hb (hyx ▸ hy')) hdc'
    next hdc =>
      split at hd'
      next hdc' =>
        cases hd'
        have hyx : y = x := by simpa [hcell] using hy'.symm
        exact absurd (halone d u a hd ha (hyx ▸ hy)) hdc
      next hdc' => exact h.runner d d' u u' a b y hd hd' ha hb hy hy'
  · intro y z k e hy hz hly hlz
    exact h.live y z k e (howner.mp hy) (howner.mp hz) (hlive y hly) (hlive z hlz)
  · intro y k hy hvalued
    have hcurrent : s'.isCurrent k = s.isCurrent k := by rw [isCurrent,hmap,hepoch,isCurrent]
    rw [hcurrent]
    by_cases hyx : y = x
    · subst hyx
      rw [hself] at hvalued
      rcases hcompleted with ⟨-,hnone⟩ | ⟨-,-,hcarried⟩
      · exact absurd hnone hvalued
      · exact .inr ⟨_,new_mem_set htask htasks,hcell,hcarried⟩
    · rw [howner,hepoch] at hy
      refine (h.kept y k hy (hother y hyx ▸ hvalued)).imp_right ?_
      rintro ⟨u,hu,huy,huv⟩
      rcases mem_of_set htask htasks hu with hu | rfl
      · exact ⟨u,hu,huy,huv⟩
      · exact absurd hvalue huv
  · intro p hp
    have hold : p ∈ s.completed → ∃ y, Owner s' y p.1 p.2 ∧ (s'.cells y).value ≠ none := by
      intro hp
      obtain ⟨y,hy,hvalued⟩ := h.counted p hp
      exact ⟨y,howner.mpr hy,hgrows y hvalued⟩
    rcases hcompleted with ⟨hsame,-⟩ | ⟨hnew,hvalued,-⟩
    · exact hold (hsame ▸ hp)
    · rw [hnew] at hp
      rcases mem_append.mp hp with hp | hp
      · exact hold hp
      · rw [mem_singleton.mp hp]
        exact ⟨x,howner.mpr (hl.held t hmem x hholds),by rwa [hself]⟩
  · rcases hcompleted with ⟨hsame,-⟩ | ⟨hnew,-,-⟩
    · exact hsame ▸ h.once
    · rw [hnew]
      refine h.once.append (nodup_singleton _) ?_
      -- a cell that already counts would be alive beside this one, which has no value yet
      intro p hp hp'
      rw [mem_singleton.mp hp'] at hp
      obtain ⟨y,hy,hvalued⟩ := h.counted _ hp
      have hyx := h.live y x t.key t.epoch hy (hl.held t hmem x hholds) (.inl hvalued)
        (.inr ⟨t,hmem,hholds⟩)
      exact hvalued (hyx ▸ hempty)

theorem single_await (hphase : t.phase = .awaiting) (hcell : t.cell = some x) :
    Single (s.await c x t) := by
  unfold await
  split
  next v hv => exact h.proceed hl htask rfl
  next hv =>
    split
    · exact h
    next hidle =>
      refine h.fill hl htask hcell (by simp [hphase]) hv ?_ rfl rfl rfl rfl (by simp [hphase])
        (by simp) (.inl ⟨rfl,rfl⟩)
      intro d u b hd hb hux
      exact absurd (by rw [h.runs u (mem_of_lookup hd) b x hb hux]) hidle

theorem single_computed (result : Option ν) : Single (s.stepComputed c t result) := by
  unfold stepComputed
  split
  next started x hphase hcell =>
    have hempty : (s.cells x).value = none := by
      rw [h.runs t (mem_of_lookup htask) started x hphase hcell]
    have halone : ∀ (d : ℕ) (u : Task κ ν) (b : ℕ × ℕ), s.tasks[d]? = some u →
      u.phase = .computing b → u.cell = some x →
        d = c := fun d u b hd hb hux => h.runner d c u t b started x hd htask hb hphase hux hcell
    cases result with
    | some value =>
      exact h.fill hl htask hcell (by simp [hphase]) hempty halone rfl rfl rfl rfl
        (by simp [hphase]) (by simp) (.inr ⟨rfl,by simp,by simp⟩)
    | none =>
      exact h.fill hl htask hcell (by simp [hphase]) hempty halone rfl rfl rfl rfl
        (by simp [hphase]) (by simp) (.inl ⟨rfl,rfl⟩)
  · exact h

theorem single_chosen (victim : κ) : Single (s.stepChosen c t victim) := by
  unfold stepChosen
  split
  next value hphase =>
    split
    · split
      · exact h.proceed hl htask rfl
      · exact h
    · split
      · exact h.proceed hl htask rfl
      · exact h
  · exact h

theorem single_advance (hkeeps : s.keepsCurrent t) : Single (s.stepAdvance c t) := by
  have hmem := mem_of_lookup htask
  unfold stepAdvance
  split
  next hphase =>
    have hnone : t.cell = none := hl.early t hmem (by simp [hphase])
    have henter : ∀ phase : Phase κ ν, (∀ a, phase ≠ .computing a) →
        Single (s.setTask c {t with epoch := s.epoch,phase := phase}) := by
      intro phase hstarts
      exact h.move hl htask rfl rfl rfl rfl rfl rfl (absurd hnone) h.entries (fun _ hk => hk)
        hstarts (fun _ => .inr hnone) (by simp [hphase])
    split
    · exact henter _ (by simp)
    · exact henter _ (by simp)
  next hphase =>
    split
    · exact h.proceed hl htask rfl
    · exact h.proceed hl htask rfl
    · exact h.proceed hl htask rfl
  next hphase => exact single_join hl h htask hphase hkeeps
  next hphase =>
    split
    next x hcell => exact single_await hl h htask hphase hcell
    · exact h
  next result hphase =>
    split
    next x hcell =>
      unfold removeIf
      cases result with
      | some value =>
        split <;> exact h.proceed hl htask rfl
      | none => split <;> exact h.proceed hl htask rfl
    · exact h
  next value hphase =>
    refine h.proceed hl htask rfl ?_ (by simp [hphase]) ?_
    · split <;> simp
    · split <;> simp
  next value victim hphase =>
    have hvictim : s.isCurrent victim = false := by simpa [keepsCurrent,hphase] using hkeeps
    refine h.move hl htask rfl rfl rfl rfl rfl rfl (fun _ => rfl)
      (fun k e he => h.entries k e (lookup_of_erase he)) ?_ (by simp) (by simp [hphase]) (by simp)
    intro k hk
    have hne : k ≠ victim := by
      rintro rfl
      exact absurd (hvictim.symm.trans hk) Bool.false_ne_true
    obtain ⟨e,he,hepoch⟩ := isCurrent_iff.mp hk
    exact isCurrent_iff.mpr ⟨e,by simpa [setTask,AList.lookup_erase_ne hne] using he,hepoch⟩
  next value hphase =>
    have hinsert : t.epoch = s.epoch ∨ s.isCurrent t.key = false := by
      simpa [keepsCurrent,hphase] using hkeeps
    refine h.move hl htask rfl rfl rfl rfl rfl rfl (fun _ => rfl) ?_ ?_ (by simp) (by simp) ?_
    · intro k e he
      by_cases hk : k = t.key
      · subst hk
        have hentry : e = ⟨value,t.epoch⟩ := by simpa [setTask] using he.symm
        rw [hentry]
        exact hl.epochs t hmem
      · exact h.entries k e (by simpa [setTask,AList.lookup_insert_ne hk] using he)
    · intro k hcurrent
      by_cases hk : k = t.key
      · subst hk
        rcases hinsert with hepoch | hfalse
        · exact isCurrent_iff.mpr ⟨⟨value,t.epoch⟩,by simp [setTask],hepoch⟩
        · exact absurd (hfalse.symm.trans hcurrent) Bool.false_ne_true
      · obtain ⟨e,he,hepoch⟩ := isCurrent_iff.mp hcurrent
        exact isCurrent_iff.mpr ⟨e,by simpa [setTask,AList.lookup_insert_ne hk] using he,hepoch⟩
    · intro _ _ hepoch
      exact .inr (isCurrent_iff.mpr ⟨⟨value,t.epoch⟩,by simp [setTask],hepoch⟩)
  · exact h

omit htask

omit hl in
theorem Single.call (key : κ) (call : Call ν) : Single (s.step (.call key call)) := by
  have htasks : (s.step (.call key call)).tasks =
      s.tasks++[⟨key,call,(s.epoch,s.invalidations key),0,none,.entering⟩] := rfl
  have hlookup : ∀ (d : ℕ) (u : Task κ ν), (s.step (.call key call)).tasks[d]? = some u →
      s.tasks[d]? = some u ∨ u = ⟨key,call,(s.epoch,s.invalidations key),0,none,.entering⟩ := by
    intro d u hd
    rw [htasks] at hd
    rcases lt_or_ge d s.tasks.length with hlt | hge
    · exact .inl (by rwa [getElem?_append_left hlt] at hd)
    · rw [getElem?_append_right hge] at hd
      exact .inr (by simpa using mem_of_getElem? hd)
  have hmem : ∀ u ∈ (s.step (.call key call)).tasks, ∀ x, u.cell = some x → u ∈ s.tasks := by
    intro u hu x hx
    obtain ⟨d,hd⟩ := mem_iff_getElem?.mp hu
    rcases hlookup d u hd with hd | rfl
    · exact mem_of_lookup hd
    · cases hx
  have howner : ∀ {x k e}, Owner (s.step (.call key call)) x k e → Owner s x k e := by
    rintro x k e ⟨u,hu,hcell,hrest⟩
    rcases hlookup x u hu with hu | rfl
    · exact ⟨u,hu,hcell,hrest⟩
    · cases hcell
  have hlive : ∀ x, Live (s.step (.call key call)) x → Live s x :=
    fun x => Or.imp_right fun ⟨u,hu,hx⟩ => ⟨u,hmem u hu x hx.1,hx⟩
  constructor
  · exact h.entries
  · intro u hu a x ha hx
    exact h.runs u (hmem u hu x hx) a x ha hx
  · intro d d' u u' a b x hd hd' ha hb hx hx'
    rcases hlookup d u hd with hd | rfl
    · rcases hlookup d' u' hd' with hd' | rfl
      · exact h.runner d d' u u' a b x hd hd' ha hb hx hx'
      · cases hb
    · cases ha
  · intro x y k e hx hy hlx hly
    exact h.live x y k e (howner hx) (howner hy) (hlive x hlx) (hlive y hly)
  · intro x k hx hvalue
    refine (h.kept x k (howner hx) hvalue).imp_right ?_
    rintro ⟨u,hu,hrest⟩
    exact ⟨u,mem_append_left _ hu,hrest⟩
  · intro p hp
    obtain ⟨x,hx,hvalue⟩ := h.counted p hp
    refine ⟨x,hx.grow fun d u hd _ => ?_,hvalue⟩
    rw [htasks,getElem?_append_left (List.getElem?_eq_some_iff.mp hd).1,hd]
  · exact h.once

theorem Single.invalidateAll : Single (s.step .invalidateAll) where
  entries k e he := (h.entries k e he).trans (Nat.le_succ _)
  runs := h.runs
  runner := h.runner
  live := h.live
  kept := by
    -- no call has read the new epoch
    rintro x k ⟨u,hu,-,-,hepoch⟩
    exact absurd (hl.epochs u (mem_of_lookup hu)) (by rw [hepoch]; exact Nat.not_succ_le_self _)
  counted := h.counted
  once := h.once

omit hl

theorem Single.invalidate (hstale : s.isCurrent key = false) :
    Single (s.step (.invalidate key)) where
  entries k e he := h.entries k e (lookup_of_erase he)
  runs := h.runs
  runner := h.runner
  live := h.live
  kept x k hx hvalue := by
    refine (h.kept x k hx hvalue).imp_left fun hk => ?_
    have hne : k ≠ key := by
      rintro rfl
      exact absurd (hstale.symm.trans hk) Bool.false_ne_true
    obtain ⟨e,he,hepoch⟩ := isCurrent_iff.mp hk
    exact isCurrent_iff.mpr ⟨e,by simpa [step,AList.lookup_erase_ne hne] using he,hepoch⟩
  counted := h.counted
  once := h.once

omit h

theorem single_step (e : Event κ ν) (hok : s.isUnrepeated e) (h : Linked s ∧ Single s) :
    Linked (s.step e) ∧ Single (s.step e) := by
  obtain ⟨hl,h⟩ := h
  have hadvance : ∀ c t, e = .advance c → s.tasks[c]? = some t → s.joinsOwnEpoch t ∧
    s.keepsCurrent t := by
    rintro c t rfl htask
    simpa [isUnrepeated,htask] using hok
  refine ⟨linked_step hl e fun c t he htask => (hadvance c t he htask).1,?_⟩
  cases e with
  | call key call => exact h.call key call
  | invalidate key => exact h.invalidate (by simpa [isUnrepeated] using hok)
  | invalidateAll => exact h.invalidateAll hl
  | advance c =>
    exact act_of Single h fun t htask => single_advance hl h htask (hadvance c t rfl htask).2
  | computed c result => exact act_of Single h fun t htask => single_computed hl h htask result
  | chosen c victim => exact act_of Single h fun t htask => single_chosen hl h htask victim

theorem computesOnce_of_unrepeated (h : Admissible step (fun s e => s.isUnrepeated e)
    (withCapacity n) events) : ComputesOnce (exec step (withCapacity n) events) := by
  have hstart : Single (withCapacity n : Cache κ ν) := by
    constructor <;> simp [withCapacity,Live]
  have hrun := invariant (fun s e => single_step e) ⟨linked_withCapacity n,hstart⟩ h
  exact hrun.2.once
end
section

/-- A call that has checked the length is alone, and has made room for its entry. -/
structure Roomy [DecidableEq κ] (s : Cache κ ν) : Prop where
  within : WithinCapacity s
  alone : ∀ (c d : ℕ) (t u : Task κ ν), s.tasks[c]? = some t → s.tasks[d]? = some u →
    t.phase.isInserting = true → u.phase.isInserting = true → c = d
  evicts : ∀ t ∈ s.tasks, ∀ v victim, t.phase = .evicting v victim → s.len < max 1 s.maxEntries ∨
    victim ∈ s.map
  inserts : ∀ t ∈ s.tasks, ∀ v, t.phase = .inserting v → s.len < max 1 s.maxEntries

variable [DecidableEq κ] (map : AList fun _ : κ => CacheEntry ν)

theorem length_erase_le (k : κ) : (map.erase k).keys.length ≤ map.keys.length := by
  rw [AList.keys_erase]
  exact List.length_erase_le

theorem room_erase (hn : map.keys.length ≤ n)
    (h : map.keys.length < n ∨ victim ∈ map) : (map.erase k).keys.length < n ∨
    victim ∈ map.erase k := by
  rcases h with h | h
  · exact .inl ((length_erase_le map k).trans_lt h)
  · by_cases hk : victim = k
    · subst hk
      have hpos := length_pos_of_mem (AList.mem_keys.mp h)
      rw [AList.keys_erase,length_erase_of_mem (AList.mem_keys.mp h)]
      omega
    · exact .inr (AList.mem_erase.mpr ⟨hk,h⟩)

variable (h : Roomy s)
include h

variable (htask : s.tasks[c]? = some t)
include htask

/-- Calls and the map change while room is kept for whoever has checked the length. -/
theorem Roomy.update (htasks : s'.tasks = s.tasks.set c t')
    (hmax : s'.maxEntries = s.maxEntries) (hlen : s'.len ≤ s.len)
    (hroom : ∀ victim, (s.len < max 1 s.maxEntries ∨ victim ∈ s.map) → s'.len < max 1 s.maxEntries ∨
    victim ∈ s'.map)
    (halone : t'.phase.isInserting → t.phase.isInserting ∨ ∀ u ∈ s.tasks, u.phase.isInserting = false)
    (hevicts : ∀ v victim, t'.phase = .evicting v victim → s'.len < max 1 s.maxEntries ∨
    victim ∈ s'.map)
    (hinserts : ∀ v, t'.phase = .inserting v → s'.len < max 1 s.maxEntries) : Roomy s' := by
  constructor
  · rw [WithinCapacity,hmax]
    exact hlen.trans h.within
  · have hown : ∀ (d : ℕ) (u : Task κ ν), s.tasks[d]? = some u → t'.phase.isInserting →
        u.phase.isInserting = true → d = c := by
      intro d u hd ht hu
      rcases halone ht with hbefore | hnobody
      · exact h.alone d c u t hd htask hu hbefore
      · exact absurd ((hnobody u (mem_of_lookup hd)).symm.trans hu) Bool.false_ne_true
    intro d d' u u' hd hd' hu hu'
    rw [lookup_set htask htasks] at hd hd'
    split at hd
    next hdc =>
      cases hd
      split at hd'
      next hdc' => exact hdc.trans hdc'.symm
      next hdc' => exact absurd (hown d' u' hd' hu hu') hdc'
    next hdc =>
      split at hd'
      next hdc' =>
        cases hd'
        exact absurd (hown d u hd hu' hu) hdc
      next hdc' => exact h.alone d d' u u' hd hd' hu hu'
  · intro u hu v victim hphase
    rw [hmax]
    rcases mem_set htasks hu with hu | rfl
    · exact hroom victim (h.evicts u hu v victim hphase)
    · exact hevicts v victim hphase
  · intro u hu v hphase
    rw [hmax]
    rcases mem_set htasks hu with hu | rfl
    · exact hlen.trans_lt (h.inserts u hu v hphase)
    · exact hinserts v hphase

theorem Roomy.proceed (htasks : s'.tasks = s.tasks.set c t')
    (hmax : s'.maxEntries = s.maxEntries := by rfl)
    (hmap : s'.map = s.map := by rfl) (hphase : t'.phase.isInserting = false := by rfl) :
    Roomy s' := by
  have hlen : s'.len = s.len := by rw [len,hmap,len]
  refine h.update htask htasks hmax hlen.le (fun victim hv => ?_) (fun ht => ?_)
    (fun v victim ht => ?_) fun v ht => ?_
  · rwa [hlen,hmap]
  · exact absurd (hphase.symm.trans ht) Bool.false_ne_true
  · simp [ht] at hphase
  · simp [ht] at hphase

theorem roomy_advance
    (halone : ∀ v, t.phase = .checking v → ∀ u ∈ s.tasks, u.phase.isInserting = false) :
    Roomy (s.stepAdvance c t) := by
  unfold stepAdvance
  split
  next hphase =>
    split
    · exact h.proceed htask rfl
    · exact h.proceed htask rfl
  next hphase =>
    split
    · exact h.proceed htask rfl
    · exact h.proceed htask rfl
    · exact h.proceed htask rfl
  next hphase =>
    unfold join
    split
    · exact h.proceed htask rfl
    · exact h.proceed htask rfl
  next hphase =>
    split
    · unfold await
      split
      · exact h.proceed htask rfl
      · split
        · exact h
        · exact h.proceed htask rfl
    · exact h
  next result hphase =>
    split
    · unfold removeIf
      cases result with
      | some value => split <;> exact h.proceed htask rfl
      | none => split <;> exact h.proceed htask rfl
    · exact h
  next value hphase =>
    refine h.update htask rfl rfl le_rfl (fun _ hv => hv) (fun _ => .inr (halone value hphase)) ?_ ?_
    · intro v victim hv
      split at hv <;> cases hv
    · intro v hv
      split at hv
      · cases hv
      next hlt => exact lt_max_of_lt_right (not_le.mp hlt)
  next value victim hphase =>
    have hroom := h.evicts t (mem_of_lookup htask) value victim hphase
    refine h.update htask rfl rfl (length_erase_le s.map victim)
      (fun _ => room_erase s.map h.within) (by simp [hphase]) (by simp) ?_
    intro v _
    exact (room_erase s.map h.within hroom).resolve_right (by simp)
  next value hphase =>
    have hlt := h.inserts t (mem_of_lookup htask) value hphase
    -- the others are not in `insert_evicting`, and so need no room
    have hnobody : ∀ u ∈ (({s with map := s.map.insert t.key ⟨value,t.epoch⟩}.setTask c
        {t with phase := .finished (some value)}) : Cache κ ν).tasks, u.phase.isInserting = false := by
      intro u hu
      obtain ⟨d,hd⟩ := mem_iff_getElem?.mp hu
      rw [lookup_set htask rfl] at hd
      split at hd
      · cases hd
        rfl
      next hdc =>
        by_contra hinserting
        exact hdc (h.alone d c u t hd htask (Bool.eq_true_of_not_eq_false hinserting)
          (by simp [hphase]))
    constructor
    · have hlength := List.length_erase_le (a := t.key) (l := s.map.keys)
      rw [len] at hlt
      rw [WithinCapacity,len,setTask]
      dsimp only
      rw [AList.keys_insert,length_cons]
      omega
    · intro d d' u u' hd _ hu _
      exact absurd ((hnobody u (mem_of_lookup hd)).symm.trans hu) Bool.false_ne_true
    · intro u hu v victim huphase
      simpa [huphase] using hnobody u hu
    · intro u hu v huphase
      simpa [huphase] using hnobody u hu
  · exact h

theorem roomy_computed (result : Option ν) : Roomy (s.stepComputed c t result) := by
  unfold stepComputed
  split
  · cases result with
    | some value => exact h.proceed htask rfl
    | none => exact h.proceed htask rfl
  · exact h

theorem roomy_chosen (victim : κ) : Roomy (s.stepChosen c t victim) := by
  unfold stepChosen
  split
  next value hphase =>
    split
    next entry hentry =>
      split
      · refine h.update htask rfl rfl le_rfl (fun _ hv => hv) (by simp [hphase]) ?_ (by simp)
        intro v k hk
        cases hk
        exact .inr (AList.lookup_isSome.mp (Option.isSome_iff_exists.mpr ⟨entry,hentry⟩))
      · exact h
    · split
      next hempty =>
        refine h.update htask rfl rfl le_rfl (fun _ hv => hv) (by simp [hphase]) (by simp) ?_
        intro v _
        exact lt_max_of_lt_left (by rw [setTask]; exact hempty ▸ Nat.one_pos)
      · exact h
  · exact h

omit h

omit htask

theorem roomy_step (e : Event κ ν) (hok : s.insertsAlone e) (h : Roomy s) : Roomy (s.step e) := by
  cases e with
  | call key call =>
    have hmem : ∀ u ∈ (s.step (.call key call)).tasks, u.phase.isInserting → u ∈ s.tasks := by
      intro u hu hinserting
      rcases mem_append.mp hu with hu | hu
      · exact hu
      · rw [mem_singleton.mp hu] at hinserting
        cases hinserting
    have hlookup : ∀ (d : ℕ) (u : Task κ ν), (s.step (.call key call)).tasks[d]? = some u →
        u.phase.isInserting = true → s.tasks[d]? = some u := by
      intro d u hd hinserting
      rcases lt_or_ge d s.tasks.length with hlt | hge
      · rwa [step,getElem?_append_left hlt] at hd
      · rw [step,getElem?_append_right hge] at hd
        rw [mem_singleton.mp (mem_of_getElem? hd)] at hinserting
        cases hinserting
    refine ⟨h.within,?_,?_,?_⟩
    · intro d d' u u' hd hd' hu hu'
      exact h.alone d d' u u' (hlookup d u hd hu) (hlookup d' u' hd' hu') hu hu'
    · intro u hu v victim hphase
      exact h.evicts u (hmem u hu (by simp [hphase])) v victim hphase
    · intro u hu v hphase
      exact h.inserts u (hmem u hu (by simp [hphase])) v hphase
  | invalidate key =>
    refine ⟨(length_erase_le s.map key).trans h.within,h.alone,?_,?_⟩
    · intro u hu v victim hphase
      exact room_erase s.map h.within (h.evicts u hu v victim hphase)
    · intro u hu v hphase
      exact (length_erase_le s.map key).trans_lt (h.inserts u hu v hphase)
  | invalidateAll => exact ⟨h.within,h.alone,h.evicts,h.inserts⟩
  | advance c =>
    refine act_of Roomy h fun t htask => roomy_advance h htask fun v hphase u hu => ?_
    have hall : s.tasks.all (fun u => !u.phase.isInserting) := by
      simpa only [insertsAlone,htask,Option.all_some,hphase] using hok
    simpa only [Bool.not_eq_true'] using all_eq_true.mp hall u hu
  | computed c result => exact act_of Roomy h fun t htask => roomy_computed h htask result
  | chosen c victim => exact act_of Roomy h fun t htask => roomy_chosen h htask victim

theorem withinCapacity_of_insertsAlone (h : Admissible step (fun s e => s.insertsAlone e)
    (withCapacity n) events) : WithinCapacity (exec step (withCapacity n) events) := by
  have hstart : Roomy (withCapacity n : Cache κ ν) := by
    constructor <;> simp [withCapacity,WithinCapacity,len]
  exact (invariant (fun s e => roomy_step e) hstart h).within
end

/-- Each promise is kept by the interleavings that stay clear of its race. -/
theorem cache_promises {κ ν : Type} [DecidableEq κ] (n : ℕ) (events : List (Event κ ν)) :
    (Admissible step (fun s e => s.isUndisturbed e = true) (withCapacity n) events →
      ServesFresh (exec step (withCapacity n) events)) ∧
    (Admissible step (fun s e => s.isUnrepeated e = true) (withCapacity n) events →
      ComputesOnce (exec step (withCapacity n) events)) ∧
    (Admissible step (fun s e => s.insertsAlone e = true) (withCapacity n) events →
      WithinCapacity (exec step (withCapacity n) events)) :=
  ⟨servesFresh_of_undisturbed,computesOnce_of_unrepeated,withinCapacity_of_insertsAlone⟩

/-- Two calls share a computation while others put two more keys. Behind an invalidation two calls share
the next one, and the first of them evicts. -/
def recomputed : List (Event ℕ ℕ) :=
  [.call 0 .getOrInsertWith,.call 0 .getOrInsertWith,.advance 0,.advance 1,.advance 0,.advance 1,
  .advance 0,.advance 1,
    .advance 0,.call 1 (.put 9),.advance 2,.computed 0 (some 7),.advance 1,.advance 0,.advance 2,
    .advance 2,.advance 1,
    .call 2 (.put 9),.advance 3,.advance 0,.advance 0,.advance 1,.advance 1,.advance 3,.advance 3,
    .invalidateAll,
    .call 0 .getOrInsertWith,.call 0 .getOrInsertWith,.advance 4,.advance 5,.advance 5,.advance 4,
    .advance 5,.advance 4,
    .advance 5,.computed 5 (some 8),.advance 4,.advance 5,.advance 4,.advance 5,.chosen 5 1,
    .advance 5,.advance 5,.advance 4,.advance 4]

theorem recomputed_kept : (exec step (withCapacity 3) recomputed).map.keys.length = 2 ∧
    (exec step (withCapacity 3) recomputed).tasks.map (·.phase) =
      [.finished (some ⟨7,some (0,0)⟩),.finished (some ⟨7,some (0,0)⟩),.finished (some ⟨9,none⟩),
        .finished (some ⟨9,none⟩),.finished (some ⟨8,some (1,0)⟩),.finished (some ⟨8,some (1,0)⟩)] ∧
    ServesFresh (exec step (withCapacity 3) recomputed) ∧
    ComputesOnce (exec step (withCapacity 3) recomputed) ∧
    WithinCapacity (exec step (withCapacity 3) recomputed) := by
  obtain ⟨hfresh,honce,hwithin⟩ := cache_promises 3 recomputed
  exact ⟨by decide,by decide,hfresh (by decide),honce (by decide),hwithin (by decide)⟩

def joinedLate : List (Event ℕ ℕ) :=
  [.call 0 .getOrInsertWith,.advance 0,.advance 0,.advance 0,.advance 0,.invalidateAll,
  .call 0 .getOrInsertWith,
    .advance 1,.advance 1,.advance 1,.computed 0 (some 7),.advance 1,.advance 1,.advance 1,.advance 1]

/-- A call misses the entry before it is there, and its computation when it is gone. -/
def missedBoth : List (Event ℕ ℕ) :=
  [.call 0 .getOrInsertWith,.advance 0,.advance 0,.advance 0,.advance 0,.computed 0 (some 7),
  .call 0 .getOrInsertWith,
    .advance 1,.advance 1,.advance 0,.advance 1,.advance 1,.computed 1 (some 8)]

def checkedTwice : List (Event ℕ ℕ) :=
  [.call 0 (.put 7),.call 1 (.put 8),.advance 0,.advance 1,.advance 0,.advance 1,.advance 0,.advance 1]

theorem cache_promises_broken : ¬ServesFresh (exec step (withCapacity 2) joinedLate) ∧
    ¬ComputesOnce (exec step (withCapacity 2) missedBoth) ∧
    ¬WithinCapacity (exec step (withCapacity 1) checkedTwice) := by
  refine ⟨fun h => ?_,?_,?_⟩
  · have htask : (exec step (withCapacity 2) joinedLate).tasks[1]? =
        some ⟨0,.getOrInsertWith,(1,0),1,some 0,.finished (some ⟨7,some (0,0)⟩)⟩ := by decide
    have hsince := h _ (mem_of_getElem? htask) _ rfl (0,0) rfl
    exact absurd hsince.1 (by decide)
  · rw [ComputesOnce]
    decide
  · rw [WithinCapacity]
    decide
end Hirn.EpochCache
