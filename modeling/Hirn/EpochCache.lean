import Hirn.Runs

/-! The cache whose entries carry the epoch of their computation. Every operation on the map, the
epoch counter, the table of computations in flight and their cells is a step of its own, and the steps
of all calls may interleave. -/
namespace Hirn.EpochCache
open Runs List
variable {κ ν : Type}

/-- A value, and where a closure computed it, its epoch and its key's invalidations at the start. -/
structure Computed (ν : Type) where
  value : ν
  started : Option (ℕ × ℕ)
  deriving DecidableEq

structure CacheEntry (ν : Type) where
  value : Computed ν
  epoch : ℕ

/-- A `OnceCell`, and whether a closure is running for it. -/
structure Cell (ν : Type) where
  value : Option (Computed ν)
  running : Bool

inductive Call (ν : Type)
  | getOrInsertWith
  | get
  | put (value : ν)
  deriving DecidableEq

/-- What a call does next. `checking` to `inserting` are in `insert_evicting`. -/
inductive Phase (κ ν : Type)
  | entering | looking | joining | awaiting
  | computing (started : ℕ × ℕ)
  | removing (result : Option (Computed ν))
  | checking (value : Computed ν)
  | choosing (value : Computed ν)
  | evicting (value : Computed ν) (victim : κ)
  | inserting (value : Computed ν)
  | finished (result : Option (Computed ν))
  deriving DecidableEq

/-- A call, with its epoch and its cell. `born` is the epoch and the invalidations of its key when it
started. -/
structure Task (κ ν : Type) where
  key : κ
  call : Call ν
  born : ℕ × ℕ
  epoch : ℕ
  cell : Option ℕ
  phase : Phase κ ν
  deriving DecidableEq

/-- The cache and its calls. A cell has the number of its creator; `completed` lists the successful
closures by key and epoch. -/
structure Cache (κ ν : Type) where
  (maxEntries epoch : ℕ)
  map : AList fun _ : κ => CacheEntry ν
  inflight : κ → Option ℕ
  cells : ℕ → Cell ν
  tasks : List (Task κ ν)
  invalidations : κ → ℕ
  completed : List (κ × ℕ)

inductive Event (κ ν : Type)
  | call (key : κ) (call : Call ν)
  | invalidate (key : κ)
  | invalidateAll
  | advance (c : ℕ)
  | computed (c : ℕ) (result : Option ν)
  | chosen (c : ℕ) (victim : κ)

def withCapacity (maxEntries : ℕ) : Cache κ ν :=
  ⟨maxEntries,0,∅,fun _ => none,fun _ => ⟨none,false⟩,[],fun _ => 0,[]⟩

namespace Cache

def len (s : Cache κ ν) : ℕ := s.map.keys.length
def setTask (s : Cache κ ν) (c : ℕ) (t : Task κ ν) : Cache κ ν := {s with tasks := s.tasks.set c t}

variable [DecidableEq κ] (s : Cache κ ν)

def lookup (t : Task κ ν) : Option (CacheEntry ν) :=
  (s.map.lookup t.key).filter fun entry => entry.epoch ≥ t.epoch

variable (c : ℕ)

/-- The cell in flight for the key, or else a new one. -/
def join (t : Task κ ν) : Cache κ ν :=
  match s.inflight t.key with
  | some x => s.setTask c {t with cell := some x,phase := .awaiting}
  | none =>
    {s with inflight := Function.update s.inflight t.key (some c),cells := Function.update s.cells c ⟨none,false⟩}.setTask c
      {t with cell := some c,phase := .awaiting}

/-- A turn at `get_or_try_init`: take the value, or start the closure unless one is running. -/
def await (c x : ℕ) (t : Task κ ν) : Cache κ ν :=
  match (s.cells x).value with
  | some value => s.setTask c {t with phase := .removing (some value)}
  | none =>
    if (s.cells x).running then s
    else
      {s with cells := Function.update s.cells x ⟨none,true⟩}.setTask c
        {t with phase := .computing (s.epoch,s.invalidations t.key)}

def removeIf (key : κ) (x : ℕ) : Cache κ ν :=
  if s.inflight key = some x then {s with inflight := Function.update s.inflight key none} else s

/-- The next step of a call, but for the end of its closure and the choice of a victim. -/
def stepAdvance (t : Task κ ν) : Cache κ ν :=
  match t.phase with
  | .entering =>
    match t.call with
    | .put value => s.setTask c {t with epoch := s.epoch,phase := .checking ⟨value,none⟩}
    | _ => s.setTask c {t with epoch := s.epoch,phase := .looking}
  | .looking =>
    match s.lookup t,t.call with
    | some entry,_ => s.setTask c {t with phase := .finished (some entry.value)}
    | none,.getOrInsertWith => s.setTask c {t with phase := .joining}
    | none,_ => s.setTask c {t with phase := .finished none}
  | .joining => s.join c t
  | .awaiting =>
    match t.cell with
    | some x => s.await c x t
    | none => s
  | .removing result =>
    match t.cell with
    | some x =>
      (s.removeIf t.key x).setTask c {t with phase :=
        match result with
        | some value => .checking value
        | none => .finished none}
    | none => s
  | .checking value =>
    s.setTask c {t with phase := if s.len ≥ s.maxEntries then .choosing value else .inserting value}
  | .evicting value victim => {s with map := s.map.erase victim}.setTask c
      {t with phase := .inserting value}
  | .inserting value =>
    {s with map := s.map.insert t.key ⟨value,t.epoch⟩}.setTask c
      {t with phase := .finished (some value)}
  | _ => s

/-- The closure of the call has ended. -/
def stepComputed (t : Task κ ν) (result : Option ν) : Cache κ ν :=
  match t.phase,t.cell with
  | .computing started,some x =>
    match result with
    | some value =>
      {s with cells := Function.update s.cells x ⟨some ⟨value,some started⟩,false⟩,
              completed := s.completed++[(t.key,t.epoch)]}.setTask c
        {t with phase := .removing (some ⟨value,some started⟩)}
    | none => {s with cells := Function.update s.cells x ⟨none,false⟩}.setTask c
        {t with phase := .removing none}
  | _,_ => s

/-- `min_by_key` over the map gives one of the entries with the smallest epoch. -/
def stepChosen (t : Task κ ν) (victim : κ) : Cache κ ν :=
  match t.phase with
  | .choosing value =>
    match s.map.lookup victim with
    | some entry =>
      if s.map.entries.all fun e => entry.epoch ≤ e.2.epoch then
        s.setTask c {t with phase := .evicting value victim}
      else s
    | none => if s.len = 0 then s.setTask c {t with phase := .inserting value} else s
  | _ => s

def act (next : Task κ ν → Cache κ ν) : Cache κ ν :=
  match s.tasks[c]? with
  | some t => next t
  | none => s

def step : Event κ ν → Cache κ ν
  | .call key call => {s with tasks := s.tasks++[⟨key,call,(s.epoch,s.invalidations key),0,none,.entering⟩]}
  | .invalidate key =>
    {s with map := s.map.erase key,invalidations := Function.update s.invalidations key (s.invalidations key+1)}
  | .invalidateAll => {s with epoch := s.epoch+1}
  | .advance c => s.act c fun t => s.stepAdvance c t
  | .computed c result => s.act c fun t => s.stepComputed c t result
  | .chosen c victim => s.act c fun t => s.stepChosen c t victim
end Cache

def Computed.Since (v : Computed ν) (seen : ℕ × ℕ) : Prop :=
  ∀ a ∈ v.started, seen.1 ≤ a.1 ∧ seen.2 ≤ a.2

/-- No call returns the value of a closure from before an invalidation in front of it. -/
def ServesFresh (s : Cache κ ν) : Prop := ∀ t ∈ s.tasks, ∀ v, t.phase = .finished (some v) →
    v.Since t.born

def ComputesOnce (s : Cache κ ν) : Prop := s.completed.Nodup
def WithinCapacity (s : Cache κ ν) : Prop := s.len ≤ max 1 s.maxEntries

namespace Phase

/-- The call has not come to the table of computations in flight. -/
@[simp] def isEarly : Phase κ ν → Bool
  | .entering => true
  | .looking => true
  | .joining => true
  | _ => false

/-- The call is in flight: its cell is not removed from the table. -/
@[simp] def isAwaiting : Phase κ ν → Bool
  | .awaiting => true
  | .computing _ => true
  | .removing _ => true
  | _ => false

@[simp] def isInserting : Phase κ ν → Bool
  | .choosing _ => true
  | .evicting _ _ => true
  | .inserting _ => true
  | _ => false

@[simp] def value? : Phase κ ν → Option (Computed ν)
  | .removing result => result
  | .checking value => some value
  | .choosing value => some value
  | .evicting value _ => some value
  | .inserting value => some value
  | _ => none

@[simp] def isHolding (phase : Phase κ ν) : Bool := phase.isAwaiting || phase.value?.isSome
end Phase
section
variable [DecidableEq κ] (s : Cache κ ν)

def Cache.isCurrent (key : κ) : Bool := (s.map.lookup key).any fun entry => entry.epoch == s.epoch

/-- A call joins a computation only if it has read its starter's epoch. -/
def Cache.joinsOwnEpoch (t : Task κ ν) : Bool :=
  match t.phase with
  | .joining => (s.inflight t.key).all fun x => (s.tasks[x]?).all fun u => u.epoch == t.epoch
  | _ => true

def Cache.isUnheld (key : κ) : Bool :=
  s.tasks.all fun t => !(t.key == key && t.cell.isSome && t.phase.isHolding)

/-- A key is not invalidated while calls hold a cell for it. -/
def Cache.isUndisturbed : Event κ ν → Bool
  | .advance c => (s.tasks[c]?).all s.joinsOwnEpoch
  | .invalidate key => s.isUnheld key
  | _ => true

/-- A computation starts only at the current epoch, where neither an entry nor a cell of the key is
there; and current entries stay. -/
def Cache.keepsCurrent (t : Task κ ν) : Bool :=
  match t.phase with
  | .joining => (s.inflight t.key).isSome || t.epoch == s.epoch && !s.isCurrent t.key &&
      s.isUnheld t.key
  | .evicting _ victim => !s.isCurrent victim
  | .inserting _ => t.epoch == s.epoch || !s.isCurrent t.key
  | _ => true

def Cache.isUnrepeated : Event κ ν → Bool
  | .advance c => (s.tasks[c]?).all fun t => s.joinsOwnEpoch t && s.keepsCurrent t
  | .invalidate key => !s.isCurrent key
  | _ => true

/-- A call checks the length only while no other is between check and insertion. -/
def Cache.insertsAlone : Event κ ν → Bool
  | .advance c => (s.tasks[c]?).all fun t =>
    match t.phase with
    | .checking _ => s.tasks.all fun u => !u.phase.isInserting
    | _ => true
  | _ => true
end
section

def Task.Holds (t : Task κ ν) (x : ℕ) : Prop := t.cell = some x ∧ t.phase.isHolding = true

def Owner (s : Cache κ ν) (x : ℕ) (key : κ) (epoch : ℕ) : Prop :=
  ∃ u, s.tasks[x]? = some u ∧ u.cell = some x ∧ u.key = key ∧ u.epoch = epoch

/-- How calls, cells and the table of computations in flight hang together. -/
structure Linked (s : Cache κ ν) : Prop where
  epochs : ∀ t ∈ s.tasks, t.epoch ≤ s.epoch
  early : ∀ t ∈ s.tasks, t.phase.isEarly = true → t.cell = none
  awaits : ∀ t ∈ s.tasks, t.phase.isAwaiting = true → t.cell ≠ none
  held : ∀ t ∈ s.tasks, ∀ x, t.Holds x → Owner s x t.key t.epoch
  flying : ∀ key x, s.inflight key = some x → ∃ t ∈ s.tasks, t.key = key ∧ t.cell = some x ∧
    t.phase.isAwaiting = true

variable {s s' : Cache κ ν} {c : ℕ} {t t' u : Task κ ν} {phase : Phase κ ν}

theorem isHolding_of_isAwaiting (h : phase.isAwaiting) : phase.isHolding := by
  rw [Phase.isHolding,h,Bool.true_or]

theorem mem_of_lookup {d : ℕ} (h : s.tasks[d]? = some u) : u ∈ s.tasks := mem_of_getElem? h

theorem lookup_set (htask : s.tasks[c]? = some t) (htasks : s'.tasks = s.tasks.set c t') (d : ℕ) :
    s'.tasks[d]? = if d = c then some t' else s.tasks[d]? := by
  have hlt := (List.getElem?_eq_some_iff.mp htask).1
  rw [htasks,getElem?_set,if_pos hlt]
  simp [eq_comm]

theorem mem_set (htasks : s'.tasks = s.tasks.set c t') (hu : u ∈ s'.tasks) : u ∈ s.tasks ∨ u = t' := by
  rw [htasks] at hu
  exact mem_or_eq_of_mem_set hu

theorem mem_of_set (htask : s.tasks[c]? = some t) (htasks : s'.tasks = s.tasks.set c t')
    (hu : u ∈ s.tasks) : u ∈ s'.tasks ∨ u = t := by
  obtain ⟨d,hd⟩ := mem_iff_getElem?.mp hu
  by_cases hdc : d = c
  · subst hdc
    rw [htask] at hd
    cases hd
    exact .inr rfl
  · left
    refine mem_of_getElem? (i := d) ?_
    rw [lookup_set htask htasks,if_neg hdc,hd]

theorem new_mem_set (htask : s.tasks[c]? = some t) (htasks : s'.tasks = s.tasks.set c t') :
    t' ∈ s'.tasks := by
  refine mem_of_getElem? (i := c) ?_
  rw [lookup_set htask htasks,if_pos rfl]

variable {x epoch : ℕ} {key : κ}

theorem owner_set (htask : s.tasks[c]? = some t) (htasks : s'.tasks = s.tasks.set c t')
    (hcell : t'.cell = t.cell)
    (hkey : t'.key = t.key) (hepoch : t.cell ≠ none → t'.epoch = t.epoch) :
    Owner s' x key epoch ↔ Owner s x key epoch := by
  simp only [Owner,lookup_set htask htasks]
  split
  next hx =>
    subst hx
    rw [htask]
    simp only [Option.some.injEq,exists_eq_left',hcell,hkey]
    refine and_congr_right fun hsome => ?_
    rw [hepoch (by simp [hsome])]
  next => rfl

variable (h : Linked s)
include h

/-- A call goes on with the cell that it has. -/
theorem Linked.move (htask : s.tasks[c]? = some t) (htasks : s'.tasks = s.tasks.set c t')
    (hcell : t'.cell = t.cell) (hkey : t'.key = t.key) (hown : t.cell ≠ none → t'.epoch = t.epoch)
    (hepoch : s.epoch ≤ s'.epoch ∧ t'.epoch ≤ s'.epoch) (hearly : t'.phase.isEarly → t.phase.isEarly)
    (hawaits : t'.phase.isAwaiting → t.phase.isAwaiting)
    (hholds : t'.phase.isHolding → t.phase.isHolding ∨ t.cell = none)
    (hflying : ∀ key x, s'.inflight key = some x → s.inflight key = some x ∧
      (key = t.key → t.cell = some x → t.phase.isAwaiting → t'.phase.isAwaiting)) : Linked s' := by
  have hmem := mem_of_lookup htask
  constructor
  · intro u hu
    rcases mem_set htasks hu with hu | rfl
    · exact (h.epochs u hu).trans hepoch.1
    · exact hepoch.2
  · intro u hu hphase
    rcases mem_set htasks hu with hu | rfl
    · exact h.early u hu hphase
    · rw [hcell]
      exact h.early t hmem (hearly hphase)
  · intro u hu hphase
    rcases mem_set htasks hu with hu | rfl
    · exact h.awaits u hu hphase
    · rw [hcell]
      exact h.awaits t hmem (hawaits hphase)
  · intro u hu x hx
    rw [owner_set htask htasks hcell hkey hown]
    rcases mem_set htasks hu with hu | rfl
    · exact h.held u hu x hx
    · have hx' : t.cell = some x := hcell.symm.trans hx.1
      have hsome : t.cell ≠ none := by simp [hx']
      rw [hkey,hown hsome]
      exact h.held t hmem x ⟨hx',(hholds hx.2).resolve_right hsome⟩
  · intro key x hx
    obtain ⟨hbefore,hstays⟩ := hflying key x hx
    obtain ⟨u,hu,hukey,hucell,hphase⟩ := h.flying key x hbefore
    rcases mem_of_set htask htasks hu with hu | rfl
    · exact ⟨u,hu,hukey,hucell,hphase⟩
    · exact ⟨t',new_mem_set htask htasks,hkey.trans hukey,hcell.trans hucell,
        hstays hukey.symm hucell hphase⟩

theorem Linked.proceed (htask : s.tasks[c]? = some t)
    (htasks : s'.tasks = s.tasks.set c {t with phase := phase})
    (hkind : (phase.isEarly = true → t.phase.isEarly = true) ∧
      phase.isAwaiting = t.phase.isAwaiting ∧
      (phase.isHolding = true → t.phase.isHolding = true) := by simp [*])
    (hinflight : s'.inflight = s.inflight := by rfl) (hepoch : s'.epoch = s.epoch := by rfl) :
    Linked s' := by
  obtain ⟨hearly,hawaits,hholds⟩ := hkind
  refine h.move htask htasks rfl rfl (fun _ => rfl) ?_ hearly hawaits.symm.trans
    (fun hp => .inl (hholds hp)) ?_
  · exact ⟨hepoch.ge,hepoch ▸ h.epochs t (mem_of_lookup htask)⟩
  · intro key x hx
    exact ⟨hinflight ▸ hx,fun _ _ => hawaits.trans⟩

theorem Linked.keep (htasks : s'.tasks = s.tasks) (hinflight : s'.inflight = s.inflight)
    (hepoch : s.epoch ≤ s'.epoch) : Linked s' := by
  constructor
  · intro u hu
    exact (h.epochs u (htasks ▸ hu)).trans hepoch
  · intro u hu
    exact h.early u (htasks ▸ hu)
  · intro u hu
    exact h.awaits u (htasks ▸ hu)
  · intro u hu x hx
    rw [Owner,htasks]
    exact h.held u (htasks ▸ hu) x hx
  · intro key x hx
    rw [htasks]
    exact h.flying key x (hinflight ▸ hx)

omit h in
theorem Owner.grow (h : Owner s x key epoch)
    (htasks : ∀ (d : ℕ) (u : Task κ ν), s.tasks[d]? = some u → u.cell ≠ none → s'.tasks[d]? = some u) :
    Owner s' x key epoch := by
  obtain ⟨u,hu,hcell,hkey,hepoch⟩ := h
  exact ⟨u,htasks x u hu (by simp [hcell]),hcell,hkey,hepoch⟩

theorem Linked.call {call : Call ν} {born : ℕ × ℕ}
    (htasks : s'.tasks = s.tasks++[⟨key,call,born,0,none,.entering⟩])
    (hinflight : s'.inflight = s.inflight) (hepoch : s'.epoch = s.epoch) : Linked s' := by
  have hmem : ∀ u ∈ s'.tasks, u ∈ s.tasks ∨ u = ⟨key,call,born,0,none,.entering⟩ := by
    intro u hu
    rw [htasks] at hu
    simpa using hu
  constructor
  · intro u hu
    rcases hmem u hu with hu | rfl
    · exact hepoch ▸ h.epochs u hu
    · exact Nat.zero_le _
  · intro u hu hphase
    rcases hmem u hu with hu | rfl
    · exact h.early u hu hphase
    · rfl
  · intro u hu hphase
    rcases hmem u hu with hu | rfl
    · exact h.awaits u hu hphase
    · cases hphase
  · intro u hu x hx
    rcases hmem u hu with hu | rfl
    · refine (h.held u hu x hx).grow fun d w hw _ => ?_
      rw [htasks,getElem?_append_left (List.getElem?_eq_some_iff.mp hw).1,hw]
    · cases hx.1
  · intro key x hx
    obtain ⟨u,hu,hrest⟩ := h.flying key x (hinflight ▸ hx)
    exact ⟨u,by rw [htasks]; exact mem_append_left _ hu,hrest⟩

omit h in
theorem lookup_of_taken (htask : s.tasks[c]? = some t) (hnone : t.cell = none)
    (htasks : s'.tasks = s.tasks.set c t') (d : ℕ) (u : Task κ ν)
    (hd : s.tasks[d]? = some u) (hcell : u.cell ≠ none) : s'.tasks[d]? = some u := by
  rw [lookup_set htask htasks,if_neg,hd]
  rintro rfl
  rw [htask] at hd
  cases hd
  exact hcell hnone

theorem Linked.take (htask : s.tasks[c]? = some t) (hnone : t.cell = none)
    (htasks : s'.tasks = s.tasks.set c {t with cell := some x,phase := .awaiting})
    (hepoch : s'.epoch = s.epoch) (howner : Owner s' x t.key t.epoch)
    (hflying : ∀ key y, s'.inflight key = some y → s.inflight key = some y ∨ key = t.key ∧ y = x) :
    Linked s' := by
  constructor
  · intro u hu
    rw [hepoch]
    rcases mem_set htasks hu with hu | rfl
    · exact h.epochs u hu
    · exact h.epochs t (mem_of_lookup htask)
  · intro u hu hearly
    rcases mem_set htasks hu with hu | rfl
    · exact h.early u hu hearly
    · cases hearly
  · intro u hu hawaits
    rcases mem_set htasks hu with hu | rfl
    · exact h.awaits u hu hawaits
    · simp
  · intro u hu y hy
    rcases mem_set htasks hu with hu | rfl
    · exact (h.held u hu y hy).grow (lookup_of_taken htask hnone htasks)
    · cases hy.1
      exact howner
  · intro key y hy
    rcases hflying key y hy with hbefore | ⟨rfl,rfl⟩
    · obtain ⟨u,hu,hukey,hucell,huphase⟩ := h.flying key y hbefore
      rcases mem_of_set htask htasks hu with hu | rfl
      · exact ⟨u,hu,hukey,hucell,huphase⟩
      · simp [hnone] at hucell
    · exact ⟨_,new_mem_set htask htasks,rfl,rfl,rfl⟩

theorem Linked.owner_of_flying (hx : s.inflight key = some x) :
    ∃ u ∈ s.tasks, u.key = key ∧ u.Holds x ∧ Owner s x key u.epoch := by
  obtain ⟨u,hu,hkey,hcell,hphase⟩ := h.flying key x hx
  have hholds : u.Holds x := ⟨hcell,isHolding_of_isAwaiting hphase⟩
  exact ⟨u,hu,hkey,hholds,hkey ▸ h.held u hu x hholds⟩

omit h in
theorem epoch_of_joinsOwnEpoch (hown : s.joinsOwnEpoch t) (hphase : t.phase = .joining)
    (hx : s.inflight t.key = some x) (howner : Owner s x t.key epoch) : epoch = t.epoch := by
  obtain ⟨w,hw,-,-,hwepoch⟩ := howner
  rw [← hwepoch]
  simpa [Cache.joinsOwnEpoch,hphase,hx,hw] using hown

omit h in
theorem Owner.unique (h : Owner s x k e) (h' : Owner s x k' e') : k = k' ∧ e = e' := by
  obtain ⟨u,hu,-,rfl,rfl⟩ := h
  obtain ⟨w,hw,-,rfl,rfl⟩ := h'
  rw [hu] at hw
  cases hw
  exact ⟨rfl,rfl⟩

variable [DecidableEq κ]

section
variable (htask : s.tasks[c]? = some t)
include htask

theorem Linked.join (hphase : t.phase = .joining) (hown : s.joinsOwnEpoch t) :
    Linked (s.join c t) := by
  have hnone : t.cell = none := h.early t (mem_of_lookup htask) (by rw [hphase]; rfl)
  unfold Cache.join
  split
  next x hx =>
    refine h.take htask hnone rfl rfl ?_ fun key y hy => .inl hy
    obtain ⟨u,-,-,-,howner⟩ := h.owner_of_flying hx
    rw [← epoch_of_joinsOwnEpoch hown hphase hx howner]
    exact howner.grow (lookup_of_taken htask hnone rfl)
  next hx =>
    refine h.take htask hnone rfl rfl ?_ fun key y hy => ?_
    · exact ⟨{t with cell := some c,phase := .awaiting},by rw [lookup_set htask rfl,if_pos rfl],rfl,rfl,rfl⟩
    · by_cases hkey : key = t.key
      · subst hkey
        exact .inr ⟨rfl,by simpa [Cache.setTask] using hy.symm⟩
      · exact .inl (by simpa [Cache.setTask,hkey] using hy)

theorem Linked.removeIf {result : Option (Computed ν)}
    (hphase : t.phase = .removing result) (hcell : t.cell = some x) (hearly : phase.isEarly = false)
    (hawaits : phase.isAwaiting = false) :
    Linked ((s.removeIf t.key x).setTask c {t with phase := phase}) := by
  have htasks : ((s.removeIf t.key x).setTask c {t with phase := phase}).tasks =
    s.tasks.set c {t with phase := phase} := by
    rw [Cache.removeIf]
    split <;> rfl
  have hepoch : ((s.removeIf t.key x).setTask c {t with phase := phase}).epoch = s.epoch := by
    rw [Cache.removeIf]
    split <;> rfl
  refine h.move htask htasks rfl rfl (fun _ => rfl) ⟨hepoch.ge,?_⟩ (by rw [hearly]; simp) (by rw [hawaits]; simp)
    (fun _ => .inl ?_) ?_
  · exact hepoch ▸ h.epochs t (mem_of_lookup htask)
  · rw [hphase]
    rfl
  · intro key y hy
    rw [Cache.setTask,Cache.removeIf] at hy
    split at hy
    next hx =>
      by_cases hkey : key = t.key
      · simp [hkey] at hy
      · exact ⟨by simpa [hkey] using hy,fun h => absurd h hkey⟩
    next hx =>
      refine ⟨hy,?_⟩
      rintro rfl hy'
      exact absurd (hy.trans (hy'.symm.trans hcell)) hx

theorem linked_advance (hown : s.joinsOwnEpoch t) : Linked (s.stepAdvance c t) := by
  have hmem := mem_of_lookup htask
  unfold Cache.stepAdvance
  split
  next hphase =>
    have hnone : t.cell = none := h.early t hmem (by rw [hphase]; rfl)
    have henter : ∀ phase : Phase κ ν, phase.isAwaiting = false →
        Linked (s.setTask c {t with epoch := s.epoch,phase := phase}) := by
      intro phase hawaits
      refine h.move htask rfl rfl rfl (absurd hnone) ⟨le_rfl,le_rfl⟩ ?_ (by rw [hawaits]; simp) (fun _ => .inr hnone) ?_
      · rw [hphase]
        exact fun _ => rfl
      · intro key x hx
        exact ⟨hx,by simp [hnone]⟩
    split
    · exact henter _ rfl
    · exact henter _ rfl
  next hphase =>
    split
    · exact h.proceed htask rfl
    · exact h.proceed htask rfl
    · exact h.proceed htask rfl
  next hphase => exact h.join htask hphase hown
  next hphase =>
    split
    next x hcell =>
      unfold Cache.await
      split
      · exact h.proceed htask rfl
      · split
        · exact h
        · exact h.proceed htask rfl
    · exact h
  next result hphase =>
    split
    next x hcell =>
      cases result with
      | some value => exact h.removeIf htask hphase hcell rfl rfl
      | none => exact h.removeIf htask hphase hcell rfl rfl
    · exact h
  next value hphase =>
    refine h.proceed htask rfl ?_
    split <;> simp [hphase]
  next value victim hphase =>
    exact h.proceed htask rfl
  next value hphase =>
    exact h.proceed htask rfl
  · exact h
end

omit [DecidableEq κ] in
theorem linked_computed (htask : s.tasks[c]? = some t) (result : Option ν) :
    Linked (s.stepComputed c t result) := by
  unfold Cache.stepComputed
  split
  next started x hphase hcell =>
    split
    · exact h.proceed htask rfl
    · exact h.proceed htask rfl
  · exact h

theorem linked_chosen (htask : s.tasks[c]? = some t) (victim : κ) :
    Linked (s.stepChosen c t victim) := by
  unfold Cache.stepChosen
  split
  next value hphase =>
    split
    · split
      · exact h.proceed htask rfl
      · exact h
    · split
      · exact h.proceed htask rfl
      · exact h
  · exact h
end
end Hirn.EpochCache
