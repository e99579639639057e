import Hirn.Runs

/-! Writes to one Lance dataset from any number of store handles. Each handle has a lock and a
cached dataset of its own, so handles race for the creation of the dataset: one that finds it
missing and then finds it created hands back the dataset without its rows. -/
namespace Hirn.Lance
open Runs List
variable {ρ : Type}

/-- A row with the call and position it comes from, and the merge that has overwritten it. -/
structure Stored (ρ : Type) where
  origin : Option (ℕ × ℕ)
  row : ρ
  overwrittenBy : Option ℕ
  deriving DecidableEq

inductive Call (ρ : Type)
  | appendBatches (batches : List (List ρ))
  | mergeInsertWhere (on : ρ → ρ → Bool) (batch : List ρ) (whenMatchedCondition : Option (ρ → Bool))

def Call.append (batch : List ρ) : Call ρ := .appendBatches [batch]
def Call.mergeInsert (on : ρ → ρ → Bool) (batch : List ρ) : Call ρ := .mergeInsertWhere on batch none

def Call.rows : Call ρ → List ρ
  | .appendBatches batches => batches.flatten
  | .mergeInsertWhere _ batch _ => batch

def Call.isAppend : Call ρ → Bool
  | .appendBatches _ => true
  | .mergeInsertWhere _ _ _ => false

/-- How an operation or a call ends; a conflict is an error that may be retried. -/
inductive Outcome
  | ok | conflict | failed
  deriving DecidableEq

/-- Where a call stands. `creating` to `rejoining` are in `open_or_create_batches`. -/
inductive Phase
  | queued
  | opening
  | reopening (attempt : ℕ)
  | committing (attempt : ℕ)
  | creating | writing | recovering | rejoining | indexing
  | finished (outcome : Outcome)
  deriving DecidableEq

structure Task (ρ : Type) where
  handle : ℕ
  call : Call ρ
  phase : Phase

/-- The dataset, and of each handle whether it has it cached and who holds its lock. -/
structure Store (ρ : Type) where
  dataset : Option (List (Stored ρ))
  cached : ℕ → Bool
  holder : ℕ → Option ℕ
  tasks : List (Task ρ)

inductive Event (ρ : Type)
  | call (handle : ℕ) (call : Call ρ)
  | lock (c : ℕ)
  | opened (c : ℕ) (readable : Bool)
  | committed (c : ℕ) (outcome : Outcome)
  | indexed (c : ℕ) (outcome : Outcome)
  | refreshDataset (handle : ℕ)

inductive Opened
  | found | missing | failed

def maxCommitRetries : ℕ := 5

def Store.start (initial : Option (List ρ)) : Store ρ :=
  ⟨initial.map fun rows => rows.map fun row => ⟨none,row,none⟩,fun _ => false,fun _ => none,[]⟩

def Store.rows (s : Store ρ) : List (Stored ρ) := s.dataset.getD []

def recordBatchReader (c : ℕ) (rows : List ρ) : List (Stored ρ) :=
  rows.mapIdx fun i row => ⟨some (c,i),row,none⟩

/-- What Lance decides in the merge of a call: which of several matching rows overwrites a row, and in
which order the rows come to lie. -/
structure MergeOrder (ρ : Type) where
  choose : ℕ → List ρ → Option ρ
  arrange : ℕ → List (Stored ρ) → List (Stored ρ)
  choose_eq_none : ∀ c rows, choose c rows = none ↔ rows = []
  choose_mem : ∀ c rows, ∀ row ∈ choose c rows, row ∈ rows
  arrange_perm : ∀ c rows, (arrange c rows).Perm rows

/-- The first match overwrites, and new rows lie behind the others. -/
def MergeOrder.plain (ρ : Type) : MergeOrder ρ where
  choose _ := head?
  arrange _ rows := rows
  choose_eq_none _ _ := head?_eq_none_iff
  choose_mem _ _ _ h := mem_of_mem_head? h
  arrange_perm _ _ := .rfl

variable (order : MergeOrder ρ)

def overwrite (c : ℕ) (on : ρ → ρ → Bool) (batch : List ρ)
    (condition : Option (ρ → Bool)) (target : Stored ρ) : Stored ρ :=
  match order.choose c (batch.filter fun row => on row target.row) with
  | some row =>
    if condition.all fun holds => holds target.row then
      {target with row := row,overwrittenBy := some c} else target
  | none => target

def merge (c : ℕ) (on : ρ → ρ → Bool) (batch : List ρ)
    (condition : Option (ρ → Bool)) (target : List (Stored ρ)) : List (Stored ρ) :=
  order.arrange c (target.map (overwrite order c on batch condition) ++
    (recordBatchReader c batch).filter fun new => !target.any fun old => on new.row old.row)

variable {order} (s : Store ρ)

/-- `Dataset::open`. -/
def Store.datasetOpen (readable : Bool) : Opened :=
  if readable then (if s.dataset.isSome then .found else .missing) else .failed

/-- The handle's cached dataset, or the one that is opened and cached now. -/
def Store.openDataset (handle : ℕ) (readable : Bool) : Store ρ × Opened :=
  if s.cached handle then (s,.found)
  else
    match s.datasetOpen readable with
    | .found => ({s with cached := Function.update s.cached handle true},.found)
    | opened => (s,opened)

def Store.invalidate (handle : ℕ) : Store ρ := {s with cached := Function.update s.cached handle false}

variable (c : ℕ)

def Store.setPhase (phase : Phase) : Store ρ :=
  {s with tasks := s.tasks.modify c fun t => {t with phase := phase}}

variable (t : Task ρ) (outcome : Outcome)

def Store.finish : Store ρ :=
  {s.setPhase c (.finished outcome) with holder := Function.update s.holder t.handle none}

/-- `open_or_create_batches` has returned a dataset. -/
def Store.handBack : Store ρ :=
  match t.call with
  | .appendBatches _ => s.setPhase c .indexing
  | .mergeInsertWhere _ _ _ => s.finish c t .ok

def Store.stepOpened (readable : Bool) : Store ρ :=
  match t.phase with
  | .opening =>
    let opened := s.openDataset t.handle readable
    match opened.2 with
    | .found => opened.1.setPhase c (.reopening 0)
    | .missing => opened.1.setPhase c .creating
    | .failed => opened.1.finish c t .failed
  | .reopening attempt =>
    let opened := s.openDataset t.handle readable
    match opened.2 with
    | .found => opened.1.setPhase c (.committing attempt)
    | _ => opened.1.finish c t .failed
  | .creating =>
    match s.datasetOpen readable with
    | .found => s.handBack c t
    | .missing => s.setPhase c .writing
    | .failed => s.finish c t .failed
  | .recovering =>
    match s.datasetOpen readable with
    | .found => s.setPhase c .rejoining
    | _ => s.finish c t .failed
  | _ => s

def Store.stepCommitted (order : MergeOrder ρ) : Store ρ :=
  match t.phase with
  | .committing attempt =>
    match outcome,s.dataset with
    | .ok,some rows =>
      match t.call with
      | .appendBatches batches =>
        {s with dataset := some (rows++recordBatchReader c batches.flatten)}.setPhase c .indexing
      | .mergeInsertWhere on batch condition =>
        ({s with dataset := some (merge order c on batch condition rows)}.invalidate
          t.handle).finish c t .ok
    | .conflict,_ =>
      if maxCommitRetries ≤ attempt then s.finish c t .conflict
      else (s.invalidate t.handle).setPhase c (.reopening (attempt+1))
    | _,_ => s.finish c t .failed
  | .writing =>
    match outcome,s.dataset with
    | .ok,none => ({s with dataset := some (recordBatchReader c t.call.rows)}.invalidate
        t.handle).handBack c t
    | .failed,_ => s.finish c t .failed
    -- the mode is `Create`, so a dataset that is there by now is an error of its own
    | _,_ => s.setPhase c .recovering
  | .rejoining =>
    match outcome,s.dataset with
    | .ok,some rows =>
      ({s with dataset := some (rows++recordBatchReader c t.call.rows)}.invalidate
        t.handle).handBack c t
    | .conflict,_ => s.finish c t .conflict
    | _,_ => s.finish c t .failed
  | _ => s

/-- `ensure_default_vector_index_if_needed`, behind which the dataset is cached. -/
def Store.stepIndexed : Store ρ :=
  match t.phase with
  | .indexing =>
    match outcome with
    | .ok => {s with cached := Function.update s.cached t.handle true}.finish c t .ok
    | outcome => s.finish c t outcome
  | _ => s

def Store.stepLock : Store ρ :=
  if t.phase = .queued ∧ s.holder t.handle = none then
    {s.setPhase c .opening with holder := Function.update s.holder t.handle (some c)}
  else s

def entryPhase : Call ρ → Phase
  | .appendBatches [] => .finished .ok
  | _ => .queued

def Store.act (s : Store ρ) (c : ℕ) (next : Task ρ → Store ρ) : Store ρ :=
  match s.tasks[c]? with
  | some t => next t
  | none => s

def Store.step (order : MergeOrder ρ) (s : Store ρ) : Event ρ → Store ρ
  | .call handle call => {s with tasks := s.tasks++[⟨handle,call,entryPhase call⟩]}
  | .lock c => s.act c fun t => s.stepLock c t
  | .opened c readable => s.act c fun t => s.stepOpened c t readable
  | .committed c outcome => s.act c fun t => s.stepCommitted c t outcome order
  | .indexed c outcome => s.act c fun t => s.stepIndexed c t outcome
  | .refreshDataset handle => s.invalidate handle

/-- An append that has found no dataset still finds none when it creates it. -/
def Unraced (s : Store ρ) : Event ρ → Prop
  | .opened c true => ∀ t ∈ s.tasks[c]?, t.phase = .creating → t.call.isAppend = true →
      s.dataset.isNone = true
  | _ => True

instance (s : Store ρ) (e : Event ρ) : Decidable (Unraced s e) := by
  unfold Unraced
  split <;> infer_instance

/-- Each row of the call is there once, as written unless a merge has overwritten it. -/
def AllPresent (c : ℕ) (call : Call ρ) (rows : List (Stored ρ)) : Prop :=
  ∀ i row, call.rows[i]? = some row → ∃ stored, (rows.filter fun r => r.origin = some (c,i)) =
  [stored] ∧
    (stored.overwrittenBy = none → stored.row = row)

def AllAbsent (c : ℕ) (rows : List (Stored ρ)) : Prop := ∀ r ∈ rows, ∀ i, r.origin ≠ some (c,i)

variable {c} {batch : List ρ}

/-- The positions of a call whose rows are in the dataset, in its order. -/
def positions (c : ℕ) (rows : List (Stored ρ)) : List ℕ :=
  rows.filterMap fun r => r.origin.bind fun o => if o.1 = c then some o.2 else none

variable {d i : ℕ} {rows : List (Stored ρ)}

theorem positions_append (rows rows' : List (Stored ρ)) :
    positions c (rows++rows') = positions c rows++positions c rows' := filterMap_append

theorem positions_recordBatchReader (c : ℕ) (batch : List ρ) :
    positions c (recordBatchReader c batch) = List.range batch.length := by
  rw [positions,recordBatchReader,mapIdx_eq_zipIdx_map]
  simp [range_eq_range']

theorem positions_eq_nil : positions c rows = [] ↔ AllAbsent c rows := by
  simp only [positions,filterMap_eq_nil_iff,Option.bind_eq_none_iff]
  constructor
  · intro h r hr i hi
    simpa using h r hr _ hi
  · intro h r hr o ho
    split
    · rename_i hc
      subst hc
      exact absurd ho (h r hr o.2)
    · rfl

theorem mem_recordBatchReader :
    r ∈ recordBatchReader c batch ↔ ∃ i row, batch[i]? = some row ∧ r = ⟨some (c,i),row,none⟩ := by
  simp only [recordBatchReader,mem_mapIdx]
  constructor
  · rintro ⟨i,hi,rfl⟩
    exact ⟨i,batch[i],getElem?_eq_getElem hi,rfl⟩
  · rintro ⟨i,row,hrow,rfl⟩
    obtain ⟨hi,rfl⟩ := List.getElem?_eq_some_iff.mp hrow
    exact ⟨i,hi,rfl⟩

theorem positions_of_ne (h : d ≠ c) : positions d (recordBatchReader c batch) = [] := by
  rw [positions_eq_nil]
  intro r hr i hi
  obtain ⟨j,row,-,rfl⟩ := mem_recordBatchReader.mp hr
  cases hi
  exact h rfl

theorem overwrite_origin (c : ℕ) (on : ρ → ρ → Bool) (batch : List ρ) (condition : Option (ρ → Bool))
    (target : Stored ρ) : (overwrite order c on batch condition target).origin = target.origin := by
  unfold overwrite
  split
  · split <;> rfl
  · rfl

theorem positions_merge (h : d ≠ c) (on : ρ → ρ → Bool) (batch : List ρ)
    (condition : Option (ρ → Bool)) :
    (positions d (merge order c on batch condition rows)).Perm (positions d rows) := by
  have hnew : positions d ((recordBatchReader c batch).filter fun new => !rows.any fun old =>
    on new.row old.row) = [] := by
    rw [positions_eq_nil]
    intro r hr
    exact positions_eq_nil.mp (positions_of_ne h) r (mem_of_mem_filter hr)
  refine ((order.arrange_perm c _).filterMap _).trans (.of_eq ?_)
  rw [← positions,positions_append,hnew,append_nil,positions,filterMap_map]
  refine filterMap_congr fun r _ => ?_
  simp [overwrite_origin]

theorem length_filter_origin (c i : ℕ) (rows : List (Stored ρ)) :
    (rows.filter fun r => r.origin = some (c,i)).length = (positions c rows).count i := by
  induction rows with
  | nil => rfl
  | cons r rows ih =>
    rw [positions,filterMap_cons,← positions]
    cases horigin : r.origin with
    | none => simp [horigin,ih]
    | some o =>
      obtain ⟨d,j⟩ := o
      by_cases hd : d = c
      · by_cases hj : j = i
        · simp [horigin,hd,hj,ih]
        · simp [horigin,hd,hj,ih]
      · simp [horigin,hd,ih]

variable {U : Prop} {s} {t}

/-- All rows have been written; without `U` it may be that none have. -/
def Written (U : Prop) (n : ℕ) (ps : List ℕ) : Prop := ps.Perm (List.range n) ∨ ¬U ∧ ps = []

/-- What the rows of a call that are in the dataset say about its phase. -/
def Traced (U : Prop) (t : Task ρ) (ps : List ℕ) : Prop :=
  match t.phase with
  | .indexing => t.call.isAppend = true ∧ Written U t.call.rows.length ps
  | .finished .ok => t.call.isAppend = true → Written U t.call.rows.length ps
  | .finished _ => ps = [] ∨ ps.Perm (List.range t.call.rows.length)
  | _ => ps = []

theorem Written.perm {n : ℕ} {ps ps' : List ℕ} (hp : ps'.Perm ps) (h : Written U n ps) :
    Written U n ps' :=
  h.imp hp.trans fun ⟨hnot,hnil⟩ => ⟨hnot,perm_nil.mp (hnil ▸ hp)⟩

theorem Traced.perm {ps ps' : List ℕ} (hp : ps'.Perm ps) (h : Traced U t ps) : Traced U t ps' := by
  have hnil : ps = [] → ps' = [] := fun h => perm_nil.mp (h ▸ hp)
  unfold Traced at h ⊢
  split at h
  · exact ⟨h.1,h.2.perm hp⟩
  · exact fun happend => (h happend).perm hp
  · exact h.imp hnil hp.trans
  · exact hnil h

structure Sound (U : Prop) (s : Store ρ) : Prop where
  fresh : ∀ c, s.tasks.length ≤ c → positions c s.rows = []
  traced : ∀ c t, s.tasks[c]? = some t → Traced U t (positions c s.rows)
  contents : ∀ r ∈ s.rows, ∀ c i, r.origin = some (c,i) → r.overwrittenBy = none →
    ∃ t, s.tasks[c]? = some t ∧ t.call.rows[i]? = some r.row

variable {s' : Store ρ} {phase : Phase}

section
variable (h : Sound U s)
include h

section
variable (htask : s.tasks[c]? = some t)
include htask

section
variable (htasks : s'.tasks = s.tasks.modify c fun t => {t with phase := phase})
include htasks

/-- A step of one call, which touches no rows but its own. -/
theorem Sound.update (hothers : ∀ d, d ≠ c → (positions d s'.rows).Perm (positions d s.rows))
    (hown : Traced U {t with phase := phase} (positions c s'.rows))
    (hcontents : ∀ r ∈ s'.rows, ∀ d i, r.origin = some (d,i) → r.overwrittenBy = none →
      r ∈ s.rows ∨ d = c ∧ t.call.rows[i]? = some r.row) : Sound U s' := by
  have hlookup : ∀ d, s'.tasks[d]? = if c = d then some {t with phase := phase} else s.tasks[d]? := by
    intro d
    rw [htasks,getElem?_modify]
    split
    · rename_i hd
      subst hd
      rw [htask]
      rfl
    · simp
  have hlength : s'.tasks.length = s.tasks.length := by rw [htasks,length_modify]
  constructor
  · intro d hd
    have hne : d ≠ c := by
      have := (List.getElem?_eq_some_iff.mp htask).1
      omega
    exact perm_nil.mp (h.fresh d (by omega) ▸ hothers d hne)
  · intro d u hu
    rw [hlookup] at hu
    split at hu
    · rename_i hd
      subst hd
      cases hu
      exact hown
    · rename_i hd
      exact (h.traced d u hu).perm (hothers d (Ne.symm hd))
  · intro r hr d i horigin hoverwritten
    rcases hcontents r hr d i horigin hoverwritten with hold | ⟨rfl,hnew⟩
    · obtain ⟨u,hu,hrow⟩ := h.contents r hold d i horigin hoverwritten
      rw [hlookup]
      split
      · rename_i hd
        subst hd
        rw [htask] at hu
        cases hu
        exact ⟨_,rfl,hrow⟩
      · exact ⟨u,hu,hrow⟩
    · rw [hlookup,if_pos rfl]
      exact ⟨_,rfl,hnew⟩

theorem Sound.move (hown : Traced U {t with phase := phase} (positions c s.rows))
    (hdataset : s'.dataset = s.dataset := by rfl) : Sound U s' := by
  have hrows : s'.rows = s.rows := by rw [Store.rows,hdataset,Store.rows]
  exact h.update htask htasks (fun d _ => .of_eq (by rw [hrows])) (by rwa [hrows])
    fun r hr _ _ _ _ => .inl (hrows ▸ hr)
end

theorem Sound.write (hbefore : positions c s.rows = [])
    (htasks : s'.tasks = s.tasks.modify c fun t => {t with phase := phase})
    (hrows : s'.rows = s.rows++recordBatchReader c t.call.rows)
    (hown : Traced U {t with phase := phase} (List.range t.call.rows.length)) : Sound U s' := by
  refine h.update htask htasks (fun d hd => ?_) ?_ fun r hr d i horigin _ => ?_
  · rw [hrows,positions_append,positions_of_ne hd,append_nil]
  · rwa [hrows,positions_append,hbefore,positions_recordBatchReader]
  · rw [hrows] at hr
    refine (mem_append.mp hr).imp_right fun hnew => ?_
    obtain ⟨j,row,hrow,rfl⟩ := mem_recordBatchReader.mp hnew
    cases horigin
    exact ⟨rfl,hrow⟩

theorem Sound.merged (hcall : t.call = .mergeInsertWhere on batch condition)
    (htasks : s'.tasks = s.tasks.modify c fun t => {t with phase := .finished .ok})
    (hrows : s'.rows = merge order c on batch condition s.rows) : Sound U s' := by
  refine h.update htask htasks (fun d hd => ?_) ?_ fun r hr d i horigin hoverwritten => ?_
  · rw [hrows]
    exact positions_merge hd on batch condition
  · intro hfalse
    simp only [hcall] at hfalse
    cases hfalse
  · rw [hrows] at hr
    rcases mem_append.mp ((order.arrange_perm c _).mem_iff.mp hr) with hr | hr
    · left
      obtain ⟨target,htarget,rfl⟩ := mem_map.mp hr
      unfold overwrite at hoverwritten ⊢
      split at hoverwritten
      · split at hoverwritten
        · cases hoverwritten
        · rename_i hcondition
          rwa [if_neg hcondition]
      · exact htarget
    · right
      obtain ⟨j,row,hrow,rfl⟩ := mem_recordBatchReader.mp (mem_of_mem_filter hr)
      cases horigin
      exact ⟨rfl,by rw [hcall]; exact hrow⟩
end
end

theorem handBack_dataset (s : Store ρ) (c : ℕ) (t : Task ρ) :
    (s.handBack c t).dataset = s.dataset := by
  unfold Store.handBack
  split <;> rfl

theorem handBack_tasks (s : Store ρ) (c : ℕ) (t : Task ρ) :
    (s.handBack c t).tasks = s.tasks.modify c fun u =>
    {u with phase := if t.call.isAppend then .indexing else .finished .ok} := by
  unfold Store.handBack
  split <;> rename_i hcall <;> simp only [hcall] <;> rfl

theorem traced_handBack (h : t.call.isAppend → Written U t.call.rows.length ps) :
    Traced U {t with phase := if t.call.isAppend then .indexing else .finished .ok} ps := by
  split
  · rename_i happend
    exact ⟨happend,h happend⟩
  · exact h

theorem traced_entryPhase (handle : ℕ) (call : Call ρ) :
    Traced U ⟨handle,call,entryPhase call⟩ [] := by
  cases call with
  | appendBatches batches =>
    cases batches with
    | nil => exact fun _ => .inl .nil
    | cons batch batches => rfl
  | mergeInsertWhere on batch condition => rfl

theorem openDataset_frame (s : Store ρ) (handle : ℕ) (readable : Bool) :
    (s.openDataset handle readable).1.dataset = s.dataset ∧
    (s.openDataset handle readable).1.tasks = s.tasks := by
  unfold Store.openDataset
  split
  · exact ⟨rfl,rfl⟩
  · split <;> exact ⟨rfl,rfl⟩

section
variable (h : Sound U s)
include h

section
variable (htask : s.tasks[c]? = some t)
include htask

theorem sound_opened (readable : Bool)
    (hU : U → Unraced s (.opened c readable)) : Sound U (s.stepOpened c t readable) := by
  have htraced := h.traced c t htask
  obtain ⟨hdataset,htasks⟩ := openDataset_frame s t.handle readable
  unfold Store.stepOpened
  split
  · rename_i hphase
    simp only [Traced,hphase] at htraced
    dsimp only
    split
    · exact h.move htask (congrArg (List.modify · c _) htasks) htraced hdataset
    · exact h.move htask (congrArg (List.modify · c _) htasks) htraced hdataset
    · exact h.move htask (congrArg (List.modify · c _) htasks) (.inl htraced) hdataset
  · rename_i attempt hphase
    simp only [Traced,hphase] at htraced
    dsimp only
    split
    · exact h.move htask (congrArg (List.modify · c _) htasks) htraced hdataset
    · exact h.move htask (congrArg (List.modify · c _) htasks) (.inl htraced) hdataset
  · rename_i hphase
    simp only [Traced,hphase] at htraced
    split
    · rename_i hfound
      refine h.move htask (handBack_tasks s c t) (traced_handBack fun happend => ?_)
        (handBack_dataset s c t)
      refine .inr ⟨fun hu => ?_,htraced⟩
      -- the dataset was created in between, which is the race that `U` excludes
      cases readable with
      | false => simp [Store.datasetOpen] at hfound
      | true =>
        have hnone := hU hu t htask hphase happend
        simp [Store.datasetOpen,Option.isNone_iff_eq_none.mp hnone] at hfound
    · exact h.move htask rfl htraced
    · exact h.move htask rfl (.inl htraced)
  · rename_i hphase
    simp only [Traced,hphase] at htraced
    split
    · exact h.move htask rfl htraced
    · exact h.move htask rfl (.inl htraced)
  · exact h

theorem sound_committed (outcome : Outcome) : Sound U (s.stepCommitted c t outcome order) := by
  have htraced := h.traced c t htask
  unfold Store.stepCommitted
  split
  · rename_i attempt hphase
    simp only [Traced,hphase] at htraced
    split
    · rename_i rows hdataset
      have hrows : s.rows = rows := by rw [Store.rows,hdataset]; rfl
      split
      · rename_i batches hcall
        refine h.write htask htraced rfl ?_ ⟨by simp only [hcall]; rfl,.inl .rfl⟩
        rw [hrows,hcall]
        rfl
      · rename_i on batch condition hcall
        have hmerged : some (merge order c on batch condition rows) =
          some (merge order c on batch condition s.rows) := by
          rw [hrows]
        exact h.merged htask hcall rfl (congrArg (·.getD []) hmerged)
    · split
      · exact h.move htask rfl (.inl htraced)
      · exact h.move htask rfl htraced
    · exact h.move htask rfl (.inl htraced)
  · rename_i hphase
    simp only [Traced,hphase] at htraced
    split
    · rename_i hdataset
      have hrows : s.rows = [] := by rw [Store.rows,hdataset]; rfl
      refine h.write htask htraced (handBack_tasks _ c t) ?_ (traced_handBack fun _ => .inl .rfl)
      rw [Store.rows,handBack_dataset,hrows]
      rfl
    · exact h.move htask rfl (.inl htraced)
    · exact h.move htask rfl htraced
  · rename_i hphase
    simp only [Traced,hphase] at htraced
    split
    · rename_i rows hdataset
      have hrows : s.rows = rows := by rw [Store.rows,hdataset]; rfl
      refine h.write htask htraced (handBack_tasks _ c t) ?_ (traced_handBack fun _ => .inl .rfl)
      rw [Store.rows,handBack_dataset,hrows]
      rfl
    · exact h.move htask rfl (.inl htraced)
    · exact h.move htask rfl (.inl htraced)
  · exact h

theorem sound_indexed (outcome : Outcome) : Sound U (s.stepIndexed c t outcome) := by
  have htraced := h.traced c t htask
  unfold Store.stepIndexed
  split
  · rename_i hphase
    have hwritten : t.call.isAppend ∧ Written U t.call.rows.length (positions c s.rows) := by
      simpa [Traced,hphase] using htraced
    split
    · exact h.move htask rfl fun _ => hwritten.2
    · rename_i hok
      have hwhole : positions c s.rows = [] ∨
        (positions c s.rows).Perm (List.range t.call.rows.length) :=
        (hwritten.2.imp_right And.right).symm
      refine h.move htask rfl ?_
      cases outcome with
      | ok => exact absurd rfl hok
      | conflict => exact hwhole
      | failed => exact hwhole
  · exact h
end

theorem sound_step (hU : U → Unraced s e) : Sound U (s.step order e) := by
  have hact : ∀ c (next : Task ρ → Store ρ), (∀ t, s.tasks[c]? = some t → Sound U (next t)) →
      Sound U (s.act c next) := by
    intro c next hnext
    unfold Store.act
    split
    · rename_i t htask
      exact hnext t htask
    · exact h
  cases e with
  | call handle call =>
    constructor
    · intro c hc
      exact h.fresh c (by simp [Store.step] at hc; omega)
    · intro c t ht
      simp only [Store.step] at ht
      rcases lt_or_ge c s.tasks.length with hlt | hge
      · rw [getElem?_append_left hlt] at ht
        exact h.traced c t ht
      · have hfresh := h.fresh c hge
        rw [getElem?_append_right hge,getElem?_singleton] at ht
        split at ht
        · cases ht
          show Traced U _ (positions c s.rows)
          rw [hfresh]
          exact traced_entryPhase handle call
        · cases ht
    · intro r hr c i horigin hoverwritten
      obtain ⟨t,ht,hrow⟩ := h.contents r hr c i horigin hoverwritten
      refine ⟨t,?_,hrow⟩
      simp only [Store.step]
      rwa [getElem?_append_left (List.getElem?_eq_some_iff.mp ht).1]
  | lock c =>
    refine hact c _ fun t htask => ?_
    unfold Store.stepLock
    split
    · rename_i hlock
      have hbefore := h.traced c t htask
      simp only [Traced,hlock.1] at hbefore
      exact h.move htask rfl hbefore
    · exact h
  | opened c readable => exact hact c _ fun t htask => sound_opened h htask readable hU
  | committed c outcome => exact hact c _ fun t htask => sound_committed h htask outcome
  | indexed c outcome => exact hact c _ fun t htask => sound_indexed h htask outcome
  | refreshDataset handle => exact ⟨h.fresh,h.traced,h.contents⟩
end

theorem sound_start (initial : Option (List ρ)) : Sound U (Store.start initial) := by
  have habsent : ∀ r ∈ (Store.start initial).rows, r.origin = none := by
    intro r hr
    cases initial with
    | none => cases hr
    | some rows =>
      obtain ⟨row,-,rfl⟩ := mem_map.mp hr
      rfl
  constructor
  · intro c _
    rw [positions_eq_nil]
    intro r hr i
    rw [habsent r hr]
    nofun
  · intro c t ht
    cases ht
  · intro r hr c i horigin
    rw [habsent r hr] at horigin
    cases horigin

theorem sound_exec {initial : Option (List ρ)} {events : List (Event ρ)}
    (h : U → Admissible (Store.step order) Unraced (.start initial) events) :
    Sound U (exec (Store.step order) (.start initial) events) := by
  suffices hrun : ∀ (s : Store ρ) (events : List (Event ρ)), Sound U s →
    (U → Admissible (Store.step order) Unraced s events) →
      Sound U (exec (Store.step order) s events) from hrun _ events (sound_start initial) h
  intro s events
  induction events generalizing s with
  | nil => exact fun hs _ => hs
  | cons e events ih => exact fun hs hU => ih _ (sound_step hs fun hu => (hU hu).1) fun hu => (hU hu).2

theorem Sound.allPresent (h : Sound U s) (htask : s.tasks[c]? = some t)
    (hwritten : (positions c s.rows).Perm (List.range t.call.rows.length)) :
    AllPresent c t.call s.rows := by
  intro i row hrow
  have hi : i < t.call.rows.length := (List.getElem?_eq_some_iff.mp hrow).1
  have hlength : (s.rows.filter fun r => r.origin = some (c,i)).length = 1 := by
    rw [length_filter_origin,hwritten.count_eq]
    exact count_eq_one_of_mem nodup_range (mem_range.mpr hi)
  obtain ⟨stored,hstored⟩ := length_eq_one_iff.mp hlength
  refine ⟨stored,hstored,fun hkept => ?_⟩
  obtain ⟨hmem,horigin⟩ := mem_filter.mp (hstored ▸ mem_singleton_self stored)
  obtain ⟨u,hu,hcontent⟩ := h.contents stored hmem c i (of_decide_eq_true horigin) hkept
  rw [htask] at hu
  cases hu
  rw [hrow] at hcontent
  exact (Option.some.inj hcontent).symm

/-- Where no append loses the race for the creation of the dataset, the rows of a returned append are
there once; a failed call has always written all or none. -/
theorem acknowledged_appends_kept {ρ : Type} (order : MergeOrder ρ)
    (initial : Option (List ρ)) (events : List (Event ρ)) :
    let s := exec (Store.step order) (.start initial) events
    (Admissible (Store.step order) Unraced (.start initial) events →
      ∀ c t, s.tasks[c]? = some t → t.call.isAppend = true → t.phase = .finished .ok →
      AllPresent c t.call s.rows) ∧
    ∀ c t outcome, s.tasks[c]? = some t → t.phase = .finished outcome → outcome ≠ .ok →
      AllPresent c t.call s.rows ∨ AllAbsent c s.rows := by
  intro s
  constructor
  · intro hunraced c t htask happend hphase
    have hsound : Sound True s := sound_exec fun _ => hunraced
    have htraced := hsound.traced c t htask
    simp only [Traced,hphase] at htraced
    rcases htraced happend with hwritten | ⟨hfalse,-⟩
    · exact hsound.allPresent htask hwritten
    · exact absurd trivial hfalse
  · intro c t outcome htask hphase hfailed
    have hsound : Sound False s := sound_exec False.elim
    have htraced := hsound.traced c t htask
    have hwhole : positions c s.rows = [] ∨
      (positions c s.rows).Perm (List.range t.call.rows.length) := by
      cases outcome with
      | ok => exact absurd rfl hfailed
      | conflict => simpa only [Traced,hphase] using htraced
      | failed => simpa only [Traced,hphase] using htraced
    rcases hwhole with habsent | hwritten
    · exact .inr (positions_eq_nil.mp habsent)
    · exact .inl (hsound.allPresent htask hwritten)

/-- Two handles append to a dataset that is missing, and both find it so. -/
def bothMissing : List (Event ℕ) :=
  [.call 0 (.append [7]),.call 1 (.append [8]),.lock 0,.lock 1,.opened 0 true,.opened 1 true]

def lostAppend : List (Event ℕ) :=
  bothMissing++[.opened 1 true,.committed 1 .ok,.indexed 1 .ok,.opened 0 true,.indexed 0 .ok]

def racedCreate : List (Event ℕ) :=
  bothMissing++[.opened 1 true,.opened 0 true,.committed 1 .ok,.committed 0 .ok,.opened 0 true,
  .committed 0 .ok,
    .indexed 1 .ok,.indexed 0 .ok]

/-- Both appends return, and the row of the first is nowhere. -/
theorem raced_append_lost :
    (exec (Store.step (.plain ℕ)) (.start none) lostAppend).tasks.map (·.phase) = [.finished .ok,
    .finished .ok] ∧
    (exec (Store.step (.plain ℕ)) (.start none) lostAppend).rows = [⟨some (1,0),8,none⟩] ∧
    ¬AllPresent 0 (.append [7]) (exec (Store.step (.plain ℕ)) (.start none) lostAppend).rows := by
  have hrows : (exec (Store.step (.plain ℕ)) (.start none) lostAppend).rows =
    [⟨some (1,0),8,none⟩] := by decide
  refine ⟨by decide,hrows,fun h => ?_⟩
  obtain ⟨stored,hstored,-⟩ := h 0 7 rfl
  cases hstored

theorem raced_create_keeps_both :
    (exec (Store.step (.plain ℕ)) (.start none) racedCreate).rows = [⟨some (1,0),8,none⟩,
    ⟨some (0,0),7,none⟩] ∧
    AllPresent 0 (.append [7]) (exec (Store.step (.plain ℕ)) (.start none) racedCreate).rows := by
  refine ⟨by decide,?_⟩
  exact (acknowledged_appends_kept (.plain ℕ) none racedCreate).1 (by decide) 0
    ⟨0,.append [7],.finished .ok⟩ rfl rfl rfl
end Hirn.Lance
