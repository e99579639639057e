import Hirn.EpisodeListing
import Hirn.EpisodicEdits
import Hirn.Runs

/-! The passes that age episodes: decay, forgetting with what it archives and purges, archiving and
the recording of accesses. A purge takes what the floor and the grace period leave to it. -/
namespace Hirn.Engine
namespace Aging
open Chains Effects Runs List Triple Function
variable {x : AgedEpisode}

/-- A stored episode with what the passes read beside the record. -/
structure AgedEpisode extends Episode where
  pinned : Bool
  stability : ℚ
  deriving DecidableEq

instance : Revision AgedEpisode where
  key := (·.id)
  chain := (·.logicalMemoryId)
  revision := (·.revisionId)
  version := (·.version)
  recordedAt := (·.createdAt)

def AgedEpisode.isLive (r : AgedEpisode) : Bool := r.toEpisodicRecord.isLive
def AgedEpisode.isExpired (r : AgedEpisode) (now : Timestamp) : Bool := r.expiresAt.any (· ≤ now)

/-- The configuration, with the functions of decay and retention, the policy engine and the orders of a
map and the backend. -/
structure Settings where
  (memoryMinImportance archiveThreshold purgeThreshold retentionFloor : ℚ)
  consolidationBatchSize : ℕ
  /-- The importance after so many seconds without access. -/
  decayed : ℚ → ℤ → ℚ
  /-- The retention score for the hours without access, stability and accesses. -/
  retentionScore : ℤ → ℚ → ℕ → ℚ
  denial : AgentId → Action → Namespace → Option HirnError
  values : List AgedEpisode → List AgedEpisode
  values_perm : ∀ l, (values l).Perm l
  backend : Backend AgedEpisode

/-- A hard deletion: the chain's first revision, its last archival, the start of the pass. -/
structure Purge where
  first : Option AgedEpisode
  archivedAt : Option Timestamp
  time : Timestamp

/-- Episodes, clock and drawn ids, and what the run has stored, archived by passes and purged. -/
structure State where
  episodes : Store AgedEpisode
  (readings drawn : ℕ)
  stored : LogicalMemoryId → Option AgedEpisode
  archivedAt : LogicalMemoryId → Option Timestamp
  purged : List Purge

def State.empty : State := ⟨Store.empty,0,0,fun _ => none,fun _ => none,[]⟩
abbrev Pass (α : Type) := Prog State HirnError α

/-- What a pass changes in an episode with a new revision. -/
structure Change where
  operation : RevisionOperation
  reason : String
  importance : ℚ
  archives : Bool

def numHours (d : ℤ) : ℤ := d.tdiv 3600000
def numSeconds (d : ℤ) : ℤ := d.tdiv 1000
def gracePeriodHours : ℤ := 168
def stabilityGrowthFactor : ℚ := 11/10
def maxStabilityHours : ℚ := 24*365

variable (settings : Settings) (clock : ℕ → Timestamp) (fresh : ℕ → MemoryId)

def now : Pass Timestamp := do
  let s ← get
  modify fun s => {s with readings := s.readings+1}
  pure (clock s.readings)

def newId : Pass MemoryId := do
  let s ← get
  modify fun s => {s with drawn := s.drawn+1}
  pure (fresh s.drawn)

def heads (rows : List AgedEpisode) : List AgedEpisode :=
  (rows.map (·.logicalMemoryId)).dedup.filterMap (Store.collapse rows)

def successor (current : AgedEpisode) (change : Change) (id : MemoryId) (t : Timestamp) :
    AgedEpisode :=
  {current with toEpisodicRecord :=
    {revisedEpisode current.toEpisodicRecord id change.operation (some change.reason) t with
      archived := current.archived || change.archives
      body := {current.body with importance := change.importance}}}

def State.succeed (s : State) (next : AgedEpisode) (archived : Option Timestamp) : State :=
  {s with
    episodes := (s.episodes.append [next]).cacheHead next
    archivedAt := match archived with
      | some t => Function.update s.archivedAt next.logicalMemoryId (some t)
      | none => s.archivedAt}

def appendEpisodicSuccessor (current : AgedEpisode) (change : Change) : Pass Unit := do
  let t ← now clock
  let id ← newId fresh
  modify (·.succeed (successor current change id t) (if change.archives then some t else none))

/-- What decay does to an episode. -/
def decay (now : Timestamp) (r : AgedEpisode) : Option Change :=
  if !r.isLive || r.isExpired now || r.pinned then none
  else if numHours (now-r.timestamp) < 1 then none
  else
    let newImportance := settings.decayed r.body.importance (max (numSeconds (now-r.lastAccessed)) 0)
    if newImportance < settings.memoryMinImportance then
      some ⟨.retract,"episodic importance decayed below archival threshold",newImportance,true⟩
    else if newImportance < r.body.importance*(999/1000) then
      some ⟨.correct,"episodic importance decayed",newImportance,false⟩
    else none

def decayEach (now : Timestamp) : List AgedEpisode → Pass Unit
  | [] => pure ()
  | r::rest => do
    match decay settings now r with
    | some change => appendEpisodicSuccessor clock fresh r change
    | none => pure ()
    decayEach now rest

def decayMemories : Pass Unit := do
  let t ← now clock
  let s ← get
  decayEach settings clock fresh t (settings.values (heads s.episodes.rows))

def readEpisodicRecord (id : MemoryId) : Pass AgedEpisode := do
  let s ← get
  expect (s.episodes.find id) (.notFound ("episodic record "++ulid id))

def episodicHeadForLogicalId (logicalId : LogicalMemoryId) : Pass AgedEpisode := do
  let s ← get
  modify fun s => {s with episodes := s.episodes.touch settings.backend logicalId}
  expect (s.episodes.headFor settings.backend logicalId)
    (.notFound ("episodic logical memory "++ulid logicalId))

def archiveEpisode (id : MemoryId) : Pass Unit := do
  let record ← readEpisodicRecord id
  let head ← episodicHeadForLogicalId settings record.logicalMemoryId
  require head.isLive (.invalidInput ("episodic logical memory "++ulid head.logicalMemoryId++
    " is not live"))
  raise (settings.denial head.provenance.createdBy .forget head.ns)
  appendEpisodicSuccessor clock fresh head ⟨.retract,"episodic record archived",
    head.body.importance,true⟩

/-- Every revision of the chain is deleted. The cached head stays. -/
def State.purge (s : State) (logicalId : LogicalMemoryId) (time : Timestamp) : State :=
  {s with
    episodes := s.episodes.dropChain logicalId
    purged := s.purged++[⟨s.stored logicalId,s.archivedAt logicalId,time⟩]}

def deleteEpisode (time : Timestamp) (id : MemoryId) : Pass Unit := do
  let record ← readEpisodicRecord id
  let head ← episodicHeadForLogicalId settings record.logicalMemoryId
  raise (settings.denial head.provenance.createdBy .forget head.ns)
  modify (·.purge record.logicalMemoryId time)

def pageSize : ℕ := max settings.consolidationBatchSize 1

def listEpisodes (offset : ℕ) : Pass (List AgedEpisode) := do
  let t ← now clock
  let s ← get
  let results := ((settings.values (heads s.episodes.rows)).filter fun r =>
    !r.isExpired t).insertionSort
    fun left right => Listing.listOrder left.toEpisode right.toEpisode
  pure ((results.drop offset).take (pageSize settings))

def pages : ℕ → ℕ → Pass (List AgedEpisode)
  | 0, _ => pure []
  | fuel+1, offset => do
    let page ← listEpisodes settings clock offset
    if page.length < pageSize settings then pure page
    else do
      let rest ← pages fuel (offset+pageSize settings)
      pure (page++rest)

def effectiveImportance (now : Timestamp) (r : AgedEpisode) : ℚ :=
  r.body.importance * settings.retentionScore (numHours (now-r.lastAccessed)) r.stability r.accessCount

def purges (now : Timestamp) (r : AgedEpisode) : Bool :=
  !(numHours (now-r.timestamp) < 1) && (r.archived && effectiveImportance settings now r <
  settings.purgeThreshold &&
    !r.pinned && r.body.importance < settings.retentionFloor) &&
    (numHours (now-r.lastAccessed) > gracePeriodHours && numHours (now-r.updatedAt) > gracePeriodHours)

def archives (now : Timestamp) (r : AgedEpisode) : Bool :=
  !(numHours (now-r.timestamp) < 1) && !purges settings now r &&
    (!r.archived && effectiveImportance settings now r < settings.archiveThreshold && !r.pinned)

def deleteEach (time : Timestamp) : List AgedEpisode → Pass Unit
  | [] => pure ()
  | r::rest => do
    deleteEpisode settings time r.id
    deleteEach time rest

def archiveEach : List AgedEpisode → Pass Unit
  | [] => pure ()
  | r::rest => do
    archiveEpisode settings clock fresh r.id
    archiveEach rest

def runForgetting : Pass Unit := do
  let t ← now clock
  let s ← get
  let listed ← pages settings clock (s.episodes.rows.length+1) 0
  deleteEach settings t (listed.filter (purges settings t))
  archiveEach settings clock fresh (listed.filter (archives settings t))

def recordAccess (r : AgedEpisode) (t : Timestamp) : AgedEpisode :=
  {r with
    accessCount := r.accessCount+1
    lastAccessed := t
    updatedAt := t
    stability := min (r.stability*stabilityGrowthFactor) maxStabilityHours}

def recordAccesses (r : AgedEpisode) : ℕ → Pass AgedEpisode
  | 0 => pure r
  | n+1 => do
    let r ← recordAccesses r n
    let t ← now clock
    pure (recordAccess r t)

/-- How often each record has been read. -/
structure AccessCounts where
  entries : List (MemoryId × ℕ)
  keys : (entries.map Prod.fst).Nodup

/-- The records that are there, with their accesses. -/
def updatedRecords (records : MemoryId → Option AgedEpisode) :
    List (MemoryId × ℕ) → Pass (List AgedEpisode)
  | [] => pure []
  | (id,n)::rest =>
    match records id with
    | none => updatedRecords records rest
    | some r => do
      let updated ← recordAccesses clock r n
      let others ← updatedRecords records rest
      pure (updated::others)

/-- The rows of some ids are deleted and written again; the head cache stays. -/
def State.rewrite (s : State) (updated : List AgedEpisode) : State :=
  {s with episodes := {s.episodes with
    rows := s.episodes.rows.filter (fun r => !(updated.map (·.id)).contains r.id)++updated}}

def applyEpisodeAccessCounts (counts : AccessCounts) : Pass Unit := do
  let s ← get
  let updated ← updatedRecords clock s.episodes.find counts.entries
  modify (·.rewrite updated)

/-- An episode is stored as the builder makes it. -/
def State.store (s : State) (r : AgedEpisode) : State :=
  {s with
    episodes := s.episodes.append [r]
    stored := Function.update s.stored r.logicalMemoryId (some r)}

def built (draft : AgedEpisode) (id : MemoryId) (t : Timestamp) : AgedEpisode :=
  {draft with
    id := id
    logicalMemoryId := id
    revisionId := id
    version := 1
    revisionOperation := .create
    revisionReason := none
    revisionCausationId := none
    createdAt := t
    updatedAt := t
    lastAccessed := draft.timestamp
    supersededBy := none
    accessCount := 0
    archived := false}

def remember (draft : AgedEpisode) : Pass Unit := do
  let t ← now clock
  let id ← newId fresh
  modify (·.store (built draft id t))

inductive Step
  | remember (draft : AgedEpisode)
  | decayMemories
  | runForgetting
  | archiveEpisode (id : MemoryId)
  | recordAccess (counts : AccessCounts)

def pass : Step → Pass Unit
  | .remember draft => remember clock fresh draft
  | .decayMemories => decayMemories settings clock fresh
  | .runForgetting => runForgetting settings clock fresh
  | .archiveEpisode id => archiveEpisode settings clock fresh id
  | .recordAccess counts => applyEpisodeAccessCounts clock counts

/-- What a pass leaves, whether it comes to its end or fails on the way. -/
def step (s : State) (i : Step) : State := (run (pass settings clock fresh i) s).2

/-- Decay leaves an episode at the floor or above it that was stored there. -/
def Spares (s : State) : Step → Prop
  | .decayMemories => ∀ r ∈ heads s.episodes.rows, ∀ first, s.stored r.logicalMemoryId = some first →
      settings.retentionFloor ≤ first.body.importance → ∀ change, decay settings (clock s.readings)
      r = some change → settings.retentionFloor ≤ change.importance
  | _ => True

section
variable (spares : Prop)

/-- The revision is pinned as the stored one was and stays above a floor that decay spares. -/
def State.Protects (s : State) (r : AgedEpisode) : Prop :=
  ∃ first, s.stored r.logicalMemoryId = some first ∧ r.pinned = first.pinned ∧
    (spares → settings.retentionFloor ≤ first.body.importance →
    settings.retentionFloor ≤ r.body.importance)

structure State.Sound (s : State) : Prop where
  ids : (s.episodes.rows.map (·.id)).Nodup
  drawn : ∀ r, s.episodes.Present r → (∃ i < s.drawn, r.id = fresh i) ∧
    ∃ i < s.drawn, r.logicalMemoryId = fresh i
  clocked : ∀ r, s.episodes.Present r → ∃ i < s.readings, r.updatedAt = clock i
  protects : ∀ r, s.episodes.Present r → s.Protects settings spares r
  archived : ∀ r, s.episodes.Present r → r.archived = true →
    ∃ a, s.archivedAt r.logicalMemoryId = some a ∧ a ≤ r.updatedAt
  archivals : ∀ c a, s.archivedAt c = some a → ∃ i < s.drawn, c = fresh i
  /-- A cached head has the greatest version left of its chain. -/
  cached : ∀ c h, s.episodes.heads c = some h → h.logicalMemoryId = c ∧ ∀ r ∈ s.episodes.rows,
    r.logicalMemoryId = c → r.version ≤ h.version ∧ ∃ x ∈ s.episodes.rows, x.logicalMemoryId = c ∧
    x.version = h.version
  /-- Where a chain has been archived, no head of it is live. -/
  closed : ∀ c a, s.archivedAt c = some a → (∀ r ∈ s.episodes.rows, r.logicalMemoryId = c →
    r.archived = false → ∃ x ∈ s.episodes.rows, x.logicalMemoryId = c ∧ newer x r = true) ∧
    ∀ h, s.episodes.heads c = some h → h.archived = true

/-- Stored unpinned, below the floor unless decay went past it, archived seven days before. -/
def Purge.Due (p : Purge) : Prop :=
  ∃ first a, p.first = some first ∧ p.archivedAt = some a ∧ first.pinned = false ∧
    (spares → first.body.importance < settings.retentionFloor) ∧ a + gracePeriodHours*3600000 ≤ p.time

def State.Kept (s : State) : Prop :=
  s.Sound settings clock fresh spares ∧ ∀ p ∈ s.purged, p.Due settings spares

/-- The revision is the head of its chain, and the chain has not been archived. -/
structure State.Current (s : State) (r : AgedEpisode) : Prop where
  present : s.episodes.Present r
  unarchived : r.archived = false
  versions : ∀ x ∈ s.episodes.rows, x.logicalMemoryId = r.logicalMemoryId → x.version ≤ r.version
  heads : ∀ h, s.episodes.heads r.logicalMemoryId = some h → h.version ≤ r.version
  open_ : s.archivedAt r.logicalMemoryId = none

variable {settings clock fresh spares} {s : State} {r next : AgedEpisode}

open Store

theorem numHours_gt (h : numHours d > gracePeriodHours) : gracePeriodHours*3600000 ≤ d := by
  rw [numHours,gracePeriodHours] at h
  rw [gracePeriodHours]
  have hpos : 0 ≤ d := by
    by_contra hneg
    have hneg' : d.tdiv 3600000 ≤ 0 := by
      rw [← Int.neg_neg d,Int.neg_tdiv,Int.neg_nonpos_iff]
      exact Int.tdiv_nonneg (by omega) (by decide)
    omega
  rw [Int.tdiv_eq_ediv_of_nonneg hpos] at h
  omega

theorem isLive_archived (h : r.isLive) : r.archived = false := by
  rw [AgedEpisode.isLive,EpisodicRecord.isLive,Bool.and_eq_true,Bool.not_eq_true'] at h
  exact h.1

section
variable (hs : s.Sound settings clock fresh spares)
include hs

theorem State.Sound.current_of_newest (hr : Newest s.episodes.rows r)
    (harchived : r.archived = false) : s.Current r := by
  refine ⟨.inl hr.1,harchived,fun x hx hc => hr.version_le hx hc,fun h hh => ?_,?_⟩
  · obtain ⟨-,x,hx,hc,hv⟩ := (hs.cached _ h hh).2 r hr.1 rfl
    rw [← hv]
    exact hr.version_le hx hc
  · cases ha : s.archivedAt r.logicalMemoryId with
    | none => rfl
    | some a =>
      obtain ⟨x,hx,hc,hnewer⟩ := (hs.closed _ a ha).1 r hr.1 rfl harchived
      rw [hr.2 x hx hc] at hnewer
      cases hnewer

theorem State.Sound.current_of_headFor {b : Backend AgedEpisode} {c : ℕ}
    (h : s.episodes.headFor b c = some r) (harchived : r.archived = false) : s.Current r := by
  cases hc : s.episodes.heads c with
  | none =>
    rw [headFor,hc] at h
    exact hs.current_of_newest (newest_of_loadHead h) harchived
  | some x =>
    rw [headFor,hc] at h
    cases h
    obtain ⟨hchain,hrows⟩ := hs.cached c r hc
    refine ⟨.inr ⟨c,hc⟩,harchived,fun x hx hxr => (hrows x hx (hxr.trans hchain)).1,fun h hh => ?_,?_⟩
    · rw [hchain,hc] at hh
      cases hh
      exact le_rfl
    · cases ha : s.archivedAt r.logicalMemoryId with
      | none => rfl
      | some a =>
        have := (hs.closed _ a ha).2 r (hchain ▸ hc)
        rw [harchived] at this
        cases this

theorem State.Sound.tick : State.Sound settings clock fresh spares {s with readings := s.readings+1} :=
  {hs with clocked := fun r hr => (hs.clocked r hr).imp fun _ h => ⟨h.1.trans (Nat.lt_succ_self _),h.2⟩}

theorem State.Sound.draw : State.Sound settings clock fresh spares {s with drawn := s.drawn+1} := by
  refine {hs with drawn := fun r hr => ?_,archivals := fun c a ha => ?_}
  · obtain ⟨⟨i,hi,hid⟩,j,hj,hchain⟩ := hs.drawn r hr
    exact ⟨⟨i,hi.trans (Nat.lt_succ_self _),hid⟩,j,hj.trans (Nat.lt_succ_self _),hchain⟩
  · obtain ⟨i,hi,hc⟩ := hs.archivals c a ha
    exact ⟨i,hi.trans (Nat.lt_succ_self _),hc⟩

theorem State.Sound.touch (b : Backend AgedEpisode) (c : LogicalMemoryId) :
    State.Sound settings clock fresh spares {s with episodes := s.episodes.touch b c} := by
  have hpresent : ∀ r, (s.episodes.touch b c).Present r → s.episodes.Present r :=
    fun r => Store.Present.of_touch
  have hcached : ∀ c' h, (s.episodes.touch b c).heads c' = some h → s.episodes.heads c' = some h ∨
      Newest s.episodes.rows h ∧ h.logicalMemoryId = c' := by
    intro c' h hh
    by_cases hc : c' = c
    · subst hc
      rw [heads_touch_self] at hh
      cases hold : s.episodes.heads c' with
      | some x =>
        rw [headFor,hold] at hh
        exact .inl hh
      | none =>
        rw [headFor,hold] at hh
        exact .inr ⟨newest_of_loadHead hh,(mem_of_loadHead hh).2⟩
    · rw [heads_touch_of_ne hc] at hh
      exact .inl hh
  refine ⟨by simpa using hs.ids,fun r hr => hs.drawn r (hpresent r hr),fun r hr => hs.clocked r (hpresent r hr),
    fun r hr => hs.protects r (hpresent r hr),fun r hr => hs.archived r (hpresent r hr),
    hs.archivals,fun c' h hh => ?_,fun c' a ha => ?_⟩
  · rw [rows_touch]
    rcases hcached c' h hh with hh | ⟨hnewest,rfl⟩
    · exact hs.cached c' h hh
    · exact ⟨rfl,fun r hr hc => ⟨hnewest.version_le hr hc,h,hnewest.1,rfl,rfl⟩⟩
  · rw [rows_touch]
    refine ⟨(hs.closed c' a ha).1,fun h hh => ?_⟩
    rcases hcached c' h hh with hh | ⟨hnewest,rfl⟩
    · exact (hs.closed c' a ha).2 h hh
    · by_contra hlive
      obtain ⟨x,hx,hc,hnewer⟩ := (hs.closed _ a ha).1 h hnewest.1 rfl (by simpa using hlive)
      rw [hnewest.2 x hx hc] at hnewer
      cases hnewer
end

def State.Follows (s : State) (next : AgedEpisode) : Prop :=
  ∀ x, s.episodes.Present x → x.logicalMemoryId = next.logicalMemoryId → x.version < next.version ∧
  x.archived = false

theorem heads_succeed (hcached : ∀ c h, s.episodes.heads c = some h → h.logicalMemoryId = c)
    (hnext : s.Follows next) (archived : Option Timestamp) (c : LogicalMemoryId) :
    (s.succeed next archived).episodes.heads c =
      if c = next.logicalMemoryId then some next else s.episodes.heads c := by
  split
  next hc =>
    subst hc
    refine heads_cacheHead_self (s := s.episodes.append [next]) fun x hx => ?_
    have hlt := (hnext x (.inr ⟨_,hx⟩) (hcached _ x hx)).1
    rw [newer,Bool.or_eq_true]
    exact .inl (decide_eq_true hlt)
  next hc => exact heads_cacheHead_of_ne (s := s.episodes.append [next]) hc

variable {archived : Option Timestamp}

theorem present_succeed (h : (s.succeed next archived).episodes.Present r) :
    s.episodes.Present r ∨ r = next := by
  rcases Store.Present.of_cacheHead h with h | h
  · exact (Store.Present.of_append h).imp_right mem_singleton.mp
  · exact .inr h

theorem rows_succeed (archived : Option Timestamp) :
    (s.succeed next archived).episodes.rows = s.episodes.rows++[next] := rows_cacheHead

variable (next) in
/-- A revision that follows its chain may be appended; an archived one archives the chain. -/
theorem State.Sound.succeed (hs : s.Sound settings clock fresh spares) (hnext : s.Follows next)
    (hid : ∀ x, s.episodes.Present x → x.id ≠ next.id)
    (hdrawn : (∃ i < s.drawn, next.id = fresh i) ∧ ∃ i < s.drawn, next.logicalMemoryId = fresh i)
    (hclocked : ∃ i < s.readings, next.updatedAt = clock i)
    (hprotects : s.Protects settings spares next)
    (harchived : if next.archived then archived = some next.updatedAt else archived = none)
    (hopen : s.archivedAt next.logicalMemoryId = none) :
    (s.succeed next archived).Sound settings clock fresh spares := by
  have hheads := heads_succeed (fun c h hh => (hs.cached c h hh).1) hnext archived
  have hat : ∀ c, (s.succeed next archived).archivedAt c =
      if c = next.logicalMemoryId then archived else s.archivedAt c := by
    intro c
    cases archived with
    | none =>
      change s.archivedAt c = _
      split
      next hc => rw [hc,hopen]
      · rfl
    | some t => exact update_apply _ _ _ _
  refine ⟨?_,fun r hr => ?_,fun r hr => ?_,fun r hr => ?_,fun r hr hr' => ?_,fun c a ha => ?_,
    fun c h hh => ?_, fun c a ha => ?_⟩
  · rw [rows_succeed,map_append,map_singleton,← concat_eq_append,nodup_concat]
    refine ⟨?_,hs.ids⟩
    rw [mem_map]
    rintro ⟨x,hx,hxid⟩
    exact hid x (.inl hx) hxid
  · rcases present_succeed hr with hr | rfl
    · exact hs.drawn r hr
    · exact hdrawn
  · rcases present_succeed hr with hr | rfl
    · exact hs.clocked r hr
    · exact hclocked
  · rcases present_succeed hr with hr | rfl
    · exact hs.protects r hr
    · exact hprotects
  · rw [hat]
    rcases present_succeed hr with hr | rfl
    · rw [if_neg fun hc => ?_]
      · exact hs.archived r hr hr'
      · rw [(hnext r hr hc).2] at hr'
        cases hr'
    · rw [if_pos rfl]
      rw [if_pos hr'] at harchived
      exact ⟨_,harchived,le_rfl⟩
  · rw [hat] at ha
    split at ha
    next hc =>
      rw [hc]
      exact hdrawn.2
    · exact hs.archivals c a ha
  · rw [hheads] at hh
    rw [rows_succeed]
    split at hh
    next hc =>
      cases hh
      refine ⟨hc.symm,fun r hr hrc => ⟨?_,next,by simp,hc.symm,rfl⟩⟩
      rcases mem_append.mp hr with hr | hr
      · exact (hnext r (.inl hr) (hrc.trans hc)).1.le
      · rw [mem_singleton.mp hr]
    next hc =>
      obtain ⟨hchain,hrows⟩ := hs.cached c h hh
      refine ⟨hchain,fun r hr hrc => ?_⟩
      rcases mem_append.mp hr with hr | hr
      · obtain ⟨hle,x,hx,hxc⟩ := hrows r hr hrc
        exact ⟨hle,x,mem_append_left _ hx,hxc⟩
      · rw [mem_singleton.mp hr] at hrc
        exact absurd hrc.symm hc
  · rw [hat] at ha
    rw [rows_succeed]
    by_cases hc : c = next.logicalMemoryId
    · rw [if_pos hc] at ha
      have hnextArchived : next.archived := by
        by_contra hlive
        rw [if_neg hlive,ha] at harchived
        cases harchived
      refine ⟨fun r hr hrc hlive => ⟨next,by simp,hc.symm,?_⟩,fun h hh => ?_⟩
      · rcases mem_append.mp hr with hr | hr
        · rw [newer,Bool.or_eq_true]
          exact .inl (decide_eq_true (hnext r (.inl hr) (hrc.trans hc)).1)
        · rw [mem_singleton.mp hr,hnextArchived] at hlive
          cases hlive
      · rw [hheads,if_pos hc] at hh
        cases hh
        exact hnextArchived
    · rw [if_neg hc] at ha
      refine ⟨fun r hr hrc hlive => ?_,fun h hh => ?_⟩
      · rcases mem_append.mp hr with hr | hr
        · obtain ⟨x,hx,hxc⟩ := (hs.closed c a ha).1 r hr hrc hlive
          exact ⟨x,mem_append_left _ hx,hxc⟩
        · rw [mem_singleton.mp hr] at hrc
          exact absurd hrc.symm hc
      · rw [hheads,if_neg hc] at hh
        exact (hs.closed c a ha).2 h hh

theorem State.Sound.purge (hs : s.Sound settings clock fresh spares) (c : LogicalMemoryId)
    (time : Timestamp) : (s.purge c time).Sound settings clock fresh spares := by
  have hpresent : ∀ r, (s.episodes.dropChain c).Present r → s.episodes.Present r :=
    fun r => Store.Present.of_dropChain
  have hrow : ∀ r, r ∈ (s.episodes.dropChain c).rows ↔ r ∈ s.episodes.rows ∧
    r.logicalMemoryId ≠ c := by
    simp [dropChain,Revision.chain]
  refine ⟨hs.ids.sublist (filter_sublist.map _),fun r hr => hs.drawn r (hpresent r hr),
    fun r hr => hs.clocked r (hpresent r hr),fun r hr => hs.protects r (hpresent r hr),
    fun r hr => hs.archived r (hpresent r hr),hs.archivals,fun c' h hh => ?_,fun c' a ha => ?_⟩
  · obtain ⟨hchain,hrows⟩ := hs.cached c' h hh
    refine ⟨hchain,fun r hr hrc => ?_⟩
    obtain ⟨hr,hne⟩ := (hrow r).mp hr
    obtain ⟨hle,x,hx,hxc,hv⟩ := hrows r hr hrc
    exact ⟨hle,x,(hrow x).mpr ⟨hx,fun h => hne (hrc.trans (hxc.symm.trans h))⟩,hxc,hv⟩
  · obtain ⟨hrows,hheads⟩ := hs.closed c' a ha
    refine ⟨fun r hr hrc hlive => ?_,hheads⟩
    obtain ⟨hr,hne⟩ := (hrow r).mp hr
    obtain ⟨x,hx,hxc,hnewer⟩ := hrows r hr hrc hlive
    exact ⟨x,(hrow x).mpr ⟨hx,fun h => hne (hrc.trans (hxc.symm.trans h))⟩,hxc,hnewer⟩

def Refreshed (r x : AgedEpisode) : Prop :=
  x = {r with accessCount := x.accessCount,lastAccessed := x.lastAccessed,updatedAt := x.updatedAt,
              stability := x.stability}

theorem Refreshed.newer_iff {r r' x' : AgedEpisode} (h : Refreshed r x) (h' : Refreshed r' x') :
    newer x x' = newer r r' := by
  rw [h,h']
  rfl

theorem Refreshed.trans {r y : AgedEpisode} (h : Refreshed r x) (h' : Refreshed x y) :
    Refreshed r y := by
  rw [Refreshed,h',h]

theorem mem_rewrite : x ∈ (s.rewrite updated).episodes.rows ↔
    x ∈ s.episodes.rows ∧ x.id ∉ updated.map (·.id) ∨ x ∈ updated := by
  simp [State.rewrite]

theorem State.Sound.rewrite (hs : s.Sound settings clock fresh spares)
    (hids : (updated.map (·.id)).Nodup) (hupdated : ∀ x ∈ updated, ∃ r ∈ s.episodes.rows,
    Refreshed r x ∧
      r.updatedAt ≤ x.updatedAt ∧ ∃ i < s.readings, x.updatedAt = clock i) :
    (s.rewrite updated).Sound settings clock fresh spares := by
  have hback : ∀ x ∈ (s.rewrite updated).episodes.rows, ∃ r ∈ s.episodes.rows, Refreshed r x ∧
      r.updatedAt ≤ x.updatedAt ∧ ∃ i < s.readings, x.updatedAt = clock i := by
    intro x hx
    rcases mem_rewrite.mp hx with ⟨hx,-⟩ | hx
    · exact ⟨x,hx,rfl,le_rfl,hs.clocked x (.inl hx)⟩
    · exact hupdated x hx
  have hforth : ∀ r ∈ s.episodes.rows, ∃ x ∈ (s.rewrite updated).episodes.rows, Refreshed r x := by
    intro r hr
    by_cases hid : r.id ∈ updated.map (·.id)
    · obtain ⟨x,hx,hxr⟩ := mem_map.mp hid
      obtain ⟨r',hr',hrefreshed,-⟩ := hupdated x hx
      have hsame : r'.id = r.id := (congrArg (·.id) hrefreshed).symm.trans hxr
      rw [inj_on_of_nodup_map hs.ids hr' hr hsame] at hrefreshed
      exact ⟨x,mem_rewrite.mpr (.inr hx),hrefreshed⟩
    · exact ⟨r,mem_rewrite.mpr (.inl ⟨hr,hid⟩),rfl⟩
  have hpresent : ∀ x, (s.rewrite updated).episodes.Present x → ∃ r, s.episodes.Present r ∧
      Refreshed r x ∧ r.updatedAt ≤ x.updatedAt ∧ ∃ i < s.readings, x.updatedAt = clock i := by
    rintro x (hx | ⟨c,hx⟩)
    · obtain ⟨r,hr,h⟩ := hback x hx
      exact ⟨r,.inl hr,h⟩
    · exact ⟨x,.inr ⟨c,hx⟩,rfl,le_rfl,hs.clocked x (.inr ⟨c,hx⟩)⟩
  refine ⟨?_,fun x hx => ?_,fun x hx => ?_,fun x hx => ?_,fun x hx harchived => ?_,hs.archivals,
    fun c h hh => ?_, fun c a ha => ?_⟩
  · change ((s.episodes.rows.filter _++updated).map _).Nodup
    rw [map_append,nodup_append']
    refine ⟨hs.ids.sublist (filter_sublist.map _),hids,fun i hi hi' => ?_⟩
    obtain ⟨r,hr,rfl⟩ := mem_map.mp hi
    have := of_mem_filter hr
    simp [mem_map.mp hi'] at this
  · obtain ⟨r,hr,hrefreshed,-⟩ := hpresent x hx
    rw [hrefreshed]
    exact hs.drawn r hr
  · obtain ⟨r,-,-,-,hclocked⟩ := hpresent x hx
    exact hclocked
  · obtain ⟨r,hr,hrefreshed,-⟩ := hpresent x hx
    rw [hrefreshed]
    exact hs.protects r hr
  · obtain ⟨r,hr,hrefreshed,hle,-⟩ := hpresent x hx
    have hchain : x.logicalMemoryId = r.logicalMemoryId := congrArg (·.logicalMemoryId) hrefreshed
    obtain ⟨a,ha,har⟩ := hs.archived r hr ((congrArg (·.archived) hrefreshed).symm.trans harchived)
    exact ⟨a,hchain ▸ ha,har.trans hle⟩
  · obtain ⟨hchain,hrows⟩ := hs.cached c h hh
    refine ⟨hchain,fun x hx hxc => ?_⟩
    obtain ⟨r,hr,hrefreshed,-⟩ := hback x hx
    obtain ⟨hle,y,hy,hyc,hv⟩ := hrows r hr ((congrArg (·.logicalMemoryId) hrefreshed).symm.trans hxc)
    obtain ⟨y',hy',hrefreshed'⟩ := hforth y hy
    exact ⟨(congrArg (·.version) hrefreshed).le.trans hle,y',hy',
      (congrArg (·.logicalMemoryId) hrefreshed').trans hyc,(congrArg (·.version) hrefreshed').trans hv⟩
  · obtain ⟨hrows,hheads⟩ := hs.closed c a ha
    refine ⟨fun x hx hxc hlive => ?_,hheads⟩
    obtain ⟨r,hr,hrefreshed,-⟩ := hback x hx
    obtain ⟨y,hy,hyc,hnewer⟩ := hrows r hr ((congrArg (·.logicalMemoryId) hrefreshed).symm.trans
      hxc) ((congrArg (·.archived) hrefreshed).symm.trans hlive)
    obtain ⟨y',hy',hrefreshed'⟩ := hforth y hy
    exact ⟨y',hy',(congrArg (·.logicalMemoryId) hrefreshed').trans hyc,
      (hrefreshed'.newer_iff hrefreshed).trans hnewer⟩

/-- An episode of a chain of its own may be stored. -/
theorem State.Sound.store (hs : s.Sound settings clock fresh spares)
    (hnew : ∀ x, s.episodes.Present x → x.id ≠ r.id ∧ x.logicalMemoryId ≠ r.logicalMemoryId)
    (hdrawn : (∃ i < s.drawn, r.id = fresh i) ∧ ∃ i < s.drawn, r.logicalMemoryId = fresh i)
    (hclocked : ∃ i < s.readings, r.updatedAt = clock i) (hlive : r.archived = false)
    (hopen : s.archivedAt r.logicalMemoryId = none) :
    (s.store r).Sound settings clock fresh spares := by
  have hpresent : ∀ x, (s.store r).episodes.Present x → s.episodes.Present x ∨ x = r := fun x hx =>
    (Store.Present.of_append hx).imp_right mem_singleton.mp
  refine ⟨?_,fun x hx => ?_,fun x hx => ?_,fun x hx => ?_,fun x hx harchived => ?_,hs.archivals,
    fun c h hh => ?_, fun c a ha => ?_⟩
  · change ((s.episodes.rows++[r]).map _).Nodup
    rw [map_append,map_singleton,← concat_eq_append,nodup_concat]
    refine ⟨?_,hs.ids⟩
    rw [mem_map]
    rintro ⟨x,hx,hxid⟩
    exact (hnew x (.inl hx)).1 hxid
  · rcases hpresent x hx with hx | rfl
    · exact hs.drawn x hx
    · exact hdrawn
  · rcases hpresent x hx with hx | rfl
    · exact hs.clocked x hx
    · exact hclocked
  · rcases hpresent x hx with hx | rfl
    · obtain ⟨first,hfirst,h⟩ := hs.protects x hx
      exact ⟨first,(update_of_ne (hnew x hx).2 _ _).trans hfirst,h⟩
    · exact ⟨x,update_self _ _ _,rfl,fun _ => id⟩
  · rcases hpresent x hx with hx | rfl
    · exact hs.archived x hx harchived
    · rw [hlive] at harchived
      cases harchived
  · obtain ⟨hchain,hrows⟩ := hs.cached c h hh
    refine ⟨hchain,fun x hx hxc => ?_⟩
    rcases mem_append.mp hx with hx | hx
    · obtain ⟨hle,y,hy,hyc⟩ := hrows x hx hxc
      exact ⟨hle,y,mem_append_left _ hy,hyc⟩
    · rw [mem_singleton.mp hx] at hxc
      exact absurd (hchain.trans hxc.symm) (hnew h (.inr ⟨c,hh⟩)).2
  · obtain ⟨hrows,hheads⟩ := hs.closed c a ha
    refine ⟨fun x hx hxc hxlive => ?_,hheads⟩
    rcases mem_append.mp hx with hx | hx
    · obtain ⟨y,hy,hyc⟩ := hrows x hx hxc hxlive
      exact ⟨y,mem_append_left _ hy,hyc⟩
    · rw [mem_singleton.mp hx] at hxc
      have hnone : s.archivedAt c = none := hxc ▸ hopen
      rw [show (s.store r).archivedAt c = s.archivedAt c from rfl,hnone] at ha
      cases ha
end
variable {spares : Prop} {settings clock fresh} {s : State} {r : AgedEpisode}

theorem mem_heads (h : r ∈ heads rows) : Newest rows r := by
  obtain ⟨c,-,hc⟩ := mem_filterMap.mp h
  exact (newest_of_collapse hc).1

theorem heads_chains (rows : List AgedEpisode) : ((heads rows).map (·.logicalMemoryId)).Nodup := by
  have hsub : ∀ l : List ℕ, ((l.filterMap (Store.collapse rows)).map
    (·.logicalMemoryId)).Sublist l := by
    intro l
    induction l with
    | nil => simp
    | cons c l ih =>
      rw [filterMap_cons]
      split
      · exact ih.cons c
      next x hx =>
        rw [map_cons,show x.logicalMemoryId = c from (newest_of_collapse hx).2]
        exact ih.cons_cons c
  exact (nodup_dedup _).sublist (hsub _)

theorem State.Sound.fresh_id (hfresh : Function.Injective fresh)
    (hs : s.Sound settings clock fresh spares)
    (hx : s.episodes.Present x) : x.id ≠ fresh s.drawn ∧ x.logicalMemoryId ≠ fresh s.drawn := by
  obtain ⟨⟨i,hi,hid⟩,j,hj,hchain⟩ := hs.drawn x hx
  refine ⟨fun h => ?_,fun h => ?_⟩
  · exact hi.ne (hfresh (hid.symm.trans h))
  · exact hj.ne (hfresh (hchain.symm.trans h))

def State.succeeded (clock : ℕ → Timestamp) (fresh : ℕ → MemoryId) (s : State)
    (current : AgedEpisode) (change : Change) : State :=
  State.succeed {s with readings := s.readings+1,drawn := s.drawn+1}
    (successor current change (fresh s.drawn) (clock s.readings))
    (if change.archives then some (clock s.readings) else none)

theorem State.Sound.succeeded (hfresh : Function.Injective fresh)
    (hs : s.Sound settings clock fresh spares)
    (hr : s.Current r) {change : Change}
    (hfloor : spares → ∀ first, s.stored r.logicalMemoryId = some first →
      settings.retentionFloor ≤ first.body.importance → settings.retentionFloor ≤ change.importance) :
    (s.succeeded clock fresh r change).Sound settings clock fresh spares := by
  obtain ⟨j,hj,hchain⟩ := (hs.drawn r hr.present).2
  obtain ⟨first,hfirst,hpinned,-⟩ := hs.protects r hr.present
  refine State.Sound.succeed (successor r change (fresh s.drawn) (clock s.readings)) hs.tick.draw
    (fun x hx hc => ?_) (fun x hx => (hs.fresh_id hfresh hx).1)
    ⟨⟨s.drawn,Nat.lt_succ_self _,rfl⟩,j,hj.trans (Nat.lt_succ_self _),hchain⟩ ⟨s.readings,
    Nat.lt_succ_self _,rfl⟩
    ⟨first,hfirst,hpinned,fun hspares => hfloor hspares first hfirst⟩ ?_ hr.open_
  · refine ⟨Nat.lt_succ_of_le ?_,?_⟩
    · rcases hx with hx | ⟨c,hx⟩
      · exact hr.versions x hx hc
      · have hxc : c = r.logicalMemoryId := (hs.cached c x hx).1.symm.trans hc
        exact hr.heads x (hxc ▸ hx)
    · by_contra harchived
      obtain ⟨a,ha,-⟩ := hs.archived x hx (by simpa using harchived)
      rw [show x.logicalMemoryId = r.logicalMemoryId from hc,hr.open_] at ha
      cases ha
  · have hnext : (successor r change (fresh s.drawn) (clock s.readings)).archived =
      change.archives := by
      change (r.archived || change.archives) = change.archives
      rw [hr.unarchived,Bool.false_or]
    rw [hnext]
    split <;> rfl

theorem State.Current.succeeded (hx : s.Current x) (hs : s.Sound settings clock fresh spares)
    (hne : x.logicalMemoryId ≠ r.logicalMemoryId) (change : Change) :
    (s.succeeded clock fresh r change).Current x := by
  have hheads : (s.succeeded clock fresh r change).episodes.heads x.logicalMemoryId =
      s.episodes.heads x.logicalMemoryId :=
    Store.heads_cacheHead_of_ne (s := s.episodes.append [successor r change _ _]) hne
  refine ⟨?_,hx.unarchived,fun y hy hc => ?_,fun h hh => hx.heads h (hheads ▸ hh),?_⟩
  · rcases hx.present with h | ⟨c,h⟩
    · exact .inl (by rw [State.succeeded,rows_succeed]; exact mem_append_left _ h)
    · have hc := (hs.cached c x h).1
      exact .inr ⟨x.logicalMemoryId,hheads.trans (hc ▸ h)⟩
  · rw [State.succeeded,rows_succeed] at hy
    rcases mem_append.mp hy with hy | hy
    · exact hx.versions y hy hc
    · rw [mem_singleton.mp hy] at hc
      exact absurd hc.symm hne
  · change (match if change.archives then some (clock s.readings) else none with
      | some t => update s.archivedAt r.logicalMemoryId (some t)
      | none => s.archivedAt) x.logicalMemoryId = none
    split
    · exact (update_of_ne hne _ _).trans hx.open_
    · exact hx.open_

theorem isLive_of_decay (h : decay settings t r = some change) : r.isLive := by
  rw [decay] at h
  split at h
  · cases h
  next hskip =>
    simp only [Bool.or_eq_true,Bool.not_eq_true',not_or,Bool.not_eq_false] at hskip
    exact hskip.1.1

theorem kept_decayEach (hfresh : Function.Injective fresh) (t : Timestamp)
    (hl : (l.map (·.logicalMemoryId)).Nodup) (hs : s.Kept settings clock fresh spares)
    (hcurrent : ∀ r ∈ l, r.isLive → s.Current r)
    (hfloor : spares → ∀ r ∈ l, ∀ first, s.stored r.logicalMemoryId = some first →
      settings.retentionFloor ≤ first.body.importance → ∀ change, decay settings t r = some change →
      settings.retentionFloor ≤ change.importance) :
    State.Kept settings clock fresh spares (run (decayEach settings clock fresh t l) s).2 := by
  induction l generalizing s with
  | nil => exact hs
  | cons r l ih =>
    rw [map_cons,nodup_cons] at hl
    rw [decayEach]
    split
    next change hchange =>
      have hr := hcurrent r (by simp) (isLive_of_decay hchange)
      have hsound := hs.1.succeeded hfresh hr fun hspares first hfirst hle =>
        hfloor hspares r (by simp) first hfirst hle change hchange
      refine ih hl.2 ⟨hsound,hs.2⟩ (fun x hx hlive => ?_) fun hspares x hx =>
        hfloor hspares x (by simp [hx])
      refine (hcurrent x (by simp [hx]) hlive).succeeded hs.1 (fun hc => hl.1 ?_) change
      exact hc ▸ mem_map_of_mem hx
    · exact ih hl.2 hs (fun x hx => hcurrent x (by simp [hx])) fun hspares x hx =>
        hfloor hspares x (by simp [hx])

theorem kept_decayMemories (hfresh : Function.Injective fresh)
    (hs : s.Kept settings clock fresh spares)
    (hok : spares → Spares settings clock s .decayMemories) :
    State.Kept settings clock fresh spares (run (decayMemories settings clock fresh) s).2 := by
  have hperm := settings.values_perm (heads s.episodes.rows)
  have hmem : ∀ r ∈ settings.values (heads s.episodes.rows), r ∈ heads s.episodes.rows :=
    fun r hr => hperm.mem_iff.mp hr
  have htick : State.Kept settings clock fresh spares {s with readings := s.readings+1} :=
    ⟨hs.1.tick,hs.2⟩
  refine kept_decayEach hfresh (clock s.readings) ((hperm.map _).nodup_iff.mpr (heads_chains _))
    htick (fun r hr hlive => ?_) fun hspares r hr => hok hspares r (hmem r hr)
  exact htick.1.current_of_newest (mem_heads (hmem r hr)) (isLive_archived hlive)

theorem triple_readEpisodicRecord (id : MemoryId) (hE : ∀ s, P s → E s) :
    Triple P (readEpisodicRecord id) (fun r s => P s ∧ r ∈ s.episodes.rows ∧ r.id = id) E := by
  intro s hs
  rw [readEpisodicRecord,run_bind_ok (run_get s)]
  cases h : s.episodes.find id with
  | none => exact hE s hs
  | some r => exact ⟨hs,Store.find_eq_some h⟩

theorem triple_episodicHeadForLogicalId (c : LogicalMemoryId) (hE : ∀ s, P s → E s)
    (htouch : ∀ s, P s → P {s with episodes := s.episodes.touch settings.backend c}) :
    Triple P (episodicHeadForLogicalId settings c)
      (fun h s => P s ∧ s.episodes.headFor settings.backend c = some h) E := by
  intro s hs
  rw [episodicHeadForLogicalId,run_bind_ok (run_get s)]
  cases h : s.episodes.headFor settings.backend c with
  | none => exact hE _ (htouch s hs)
  | some r => exact ⟨htouch s hs,Store.headFor_touch.trans h⟩

theorem State.Kept.touch (hs : s.Kept settings clock fresh spares) (b : Backend AgedEpisode)
    (c : LogicalMemoryId) :
    State.Kept settings clock fresh spares {s with episodes := s.episodes.touch b c} :=
    ⟨hs.1.touch b c,hs.2⟩

theorem kept_archiveEpisode (hfresh : Function.Injective fresh) (target : MemoryId) :
    Triple (State.Kept settings clock fresh spares) (archiveEpisode settings clock fresh target)
      (fun _ => State.Kept settings clock fresh spares) (State.Kept settings clock fresh spares) := by
  refine (triple_readEpisodicRecord target fun _ => id).bind fun record => ?_
  refine bind (conseq (triple_episodicHeadForLogicalId record.logicalMemoryId (fun _ => id)
    fun s hs => hs.touch settings.backend record.logicalMemoryId) (fun s hs => hs.1) fun _ _ => id)
    fun head => ?_
  refine (require _ _ fun s hs => hs.1).bind fun _ => given fun hlive => ?_
  refine (raise _ fun s hs => hs.1).bind fun _ => ?_
  rintro s ⟨hs,hhead⟩
  have hcurrent := hs.1.current_of_headFor hhead (isLive_archived hlive)
  refine ⟨hs.1.succeeded hfresh hcurrent fun hspares first hfirst hle => ?_,hs.2⟩
  obtain ⟨first',hfirst',-,hfloor⟩ := hs.1.protects head hcurrent.present
  rw [hfirst] at hfirst'
  cases hfirst'
  exact hfloor hspares hle

theorem kept_archiveEach (hfresh : Function.Injective fresh) (l : List AgedEpisode) :
    Triple (State.Kept settings clock fresh spares) (archiveEach settings clock fresh l)
      (fun _ => State.Kept settings clock fresh spares) (State.Kept settings clock fresh spares) := by
  induction l with
  | nil => exact pure fun _ => id
  | cons r l ih => exact (kept_archiveEpisode hfresh r.id).bind fun _ => ih

def State.Doomed (settings : Settings) (spares : Prop) (time : Timestamp) (l : List AgedEpisode)
    (s : State) : Prop :=
  ∀ r ∈ l, ∀ x ∈ s.episodes.rows, x.id = r.id →
    Purge.Due settings spares ⟨s.stored x.logicalMemoryId,s.archivedAt x.logicalMemoryId,time⟩

theorem kept_deleteEpisode (time : Timestamp) (r : AgedEpisode) (l : List AgedEpisode) :
    Triple (fun s => s.Kept settings clock fresh spares ∧ s.Doomed settings spares time (r::l))
    (deleteEpisode settings time r.id)
      (fun _ s => s.Kept settings clock fresh spares ∧ s.Doomed settings spares time l)
      (State.Kept settings clock fresh spares) := by
  refine (triple_readEpisodicRecord r.id fun s hs => hs.1).bind fun record => ?_
  refine bind (triple_episodicHeadForLogicalId record.logicalMemoryId (fun s hs => hs.1.1) ?_)
    fun head => ?_
  · rintro s ⟨⟨hs,hdoomed⟩,hrow⟩
    refine ⟨⟨hs.touch settings.backend record.logicalMemoryId,fun r hr x hx => ?_⟩,?_⟩
    · rw [Store.rows_touch] at hx
      exact hdoomed r hr x hx
    · rwa [Store.rows_touch]
  · refine (raise _ fun s hs => hs.1.1.1).bind fun _ => modify ?_
    rintro s ⟨⟨⟨hs,hdoomed⟩,hrow,hid⟩,-⟩
    refine ⟨⟨hs.1.purge _ _,fun p hp => ?_⟩,fun r' hr' x hx => ?_⟩
    · rcases mem_append.mp hp with hp | hp
      · exact hs.2 p hp
      · rw [mem_singleton.mp hp]
        exact hdoomed r (by simp) record hrow hid
    · exact hdoomed r' (by simp [hr']) x (mem_of_mem_filter hx)

theorem kept_deleteEach (time : Timestamp) (l : List AgedEpisode) :
    Triple (fun s => s.Kept settings clock fresh spares ∧ s.Doomed settings spares time l)
    (deleteEach settings time l)
      (fun _ => State.Kept settings clock fresh spares) (State.Kept settings clock fresh spares) := by
  induction l with
  | nil => exact pure fun s hs => hs.1
  | cons r l ih => exact (kept_deleteEpisode time r l).bind fun _ => ih

variable (settings clock) in
theorem run_listEpisodes (offset : ℕ) (s : State) :
    ∃ page, run (listEpisodes settings clock offset) s =
    (.ok page,{s with readings := s.readings+1}) ∧ (∀ r ∈ page, Newest s.episodes.rows r) ∧
      page.length ≤ (heads s.episodes.rows).length-offset := by
  refine ⟨_,rfl,fun r hr => ?_,(length_take_le' _ _).trans ?_⟩
  · have hsorted := mem_of_mem_drop (mem_of_mem_take hr)
    have hmem := mem_of_mem_filter ((perm_insertionSort _ _).mem_iff.mp hsorted)
    exact mem_heads ((settings.values_perm _).mem_iff.mp hmem)
  · rw [length_drop,length_insertionSort,← (settings.values_perm (heads s.episodes.rows)).length_eq]
    exact Nat.sub_le_sub_right (length_filter_le _ _) _

variable (settings clock) in
theorem run_pages (fuel offset : ℕ) (s : State) : ∃ n l, run (pages settings clock fuel offset) s =
    (.ok l,{s with readings := s.readings+n}) ∧ ∀ r ∈ l, Newest s.episodes.rows r := by
  induction fuel generalizing offset s with
  | zero => exact ⟨0,[],rfl,by simp⟩
  | succ fuel ih =>
    obtain ⟨page,hrun,hnewest,-⟩ := run_listEpisodes settings clock offset s
    rw [pages,run_bind_ok hrun]
    split
    · exact ⟨1,page,rfl,hnewest⟩
    · obtain ⟨n,l,hrest,hl⟩ := ih (offset+pageSize settings) {s with readings := s.readings+1}
      rw [run_bind_ok hrest]
      refine ⟨1+n,page++l,by rw [run_pure,Nat.add_assoc],fun r hr => ?_⟩
      exact (mem_append.mp hr).elim (hnewest r) (hl r)

theorem State.Sound.ticks (hs : s.Sound settings clock fresh spares) (n : ℕ) :
    State.Sound settings clock fresh spares {s with readings := s.readings+n} := by
  induction n with
  | zero => exact hs
  | succ n ih => exact ih.tick

theorem due_of_purges (hs : s.Sound settings clock fresh spares) {t : Timestamp}
    (hr : r ∈ s.episodes.rows) (h : purges settings t r) :
    Purge.Due settings spares ⟨s.stored r.logicalMemoryId,s.archivedAt r.logicalMemoryId,t⟩ := by
  simp only [purges,Bool.and_eq_true,Bool.not_eq_true',decide_eq_true_eq] at h
  obtain ⟨⟨-,⟨⟨harchived,-⟩,hpinned⟩,hfloor⟩,-,hgrace⟩ := h
  obtain ⟨a,ha,hle⟩ := hs.archived r (.inl hr) harchived
  obtain ⟨first,hfirst,hfirstPinned,hprotects⟩ := hs.protects r (.inl hr)
  refine ⟨first,a,hfirst,ha,hfirstPinned.symm.trans hpinned,?_,?_⟩
  · intro hspares
    by_contra hstored
    exact hfloor.not_ge (hprotects hspares (not_lt.mp hstored))
  · have hlong := numHours_gt hgrace
    exact (add_le_add_left hle _).trans (le_sub_iff_add_le'.mp hlong)

theorem kept_runForgetting (hfresh : Function.Injective fresh)
    (hs : s.Kept settings clock fresh spares) :
    State.Kept settings clock fresh spares (run (runForgetting settings clock fresh) s).2 := by
  obtain ⟨n,l,hrun,hl⟩ := run_pages settings clock (s.episodes.rows.length+1) 0
    {s with readings := s.readings+1}
  have hnow : run (now clock) s = (.ok (clock s.readings),{s with readings := s.readings+1}) := rfl
  rw [runForgetting,run_bind_ok hnow,run_bind_ok (run_get _),run_bind_ok hrun]
  refine final ((kept_deleteEach (clock s.readings)
    (l.filter (purges settings (clock s.readings)))).bind
    fun _ => kept_archiveEach hfresh _) ⟨⟨hs.1.tick.ticks n,hs.2⟩,fun r hr x hx hid => ?_⟩
  have hrow := (hl r (mem_of_mem_filter hr)).1
  rw [inj_on_of_nodup_map hs.1.ids hx hrow hid]
  exact due_of_purges hs.1 hrow (of_mem_filter hr)

theorem recordAccess_refreshed (r : AgedEpisode) (t : Timestamp) : Refreshed r (recordAccess r t) :=
  rfl

variable (clock) in
theorem run_recordAccesses (r : AgedEpisode) (n : ℕ) (s : State) :
    ∃ x, run (recordAccesses clock r n) s =
    (.ok x,{s with readings := s.readings+n}) ∧ Refreshed r x ∧
      (x = r ∨ ∃ i, s.readings ≤ i ∧ i < s.readings+n ∧ x.updatedAt = clock i) := by
  induction n with
  | zero => exact ⟨r,rfl,rfl,.inl rfl⟩
  | succ n ih =>
    obtain ⟨x,hrun,hx,-⟩ := ih
    refine ⟨recordAccess x (clock (s.readings+n)),?_,hx.trans (recordAccess_refreshed x _),
      .inr ⟨s.readings+n,by omega,by omega,rfl⟩⟩
    rw [recordAccesses,run_bind_ok hrun]
    rfl

variable (clock) in
theorem run_updatedRecords (hrecords : ∀ id r, records id = some r → r.id = id)
    (hkeys : (entries.map Prod.fst).Nodup) (s : State) :
    ∃ n l, run (updatedRecords clock records entries) s = (.ok l,{s with readings := s.readings+n}) ∧
      (l.map (·.id)).Nodup ∧ ∀ x ∈ l, x.id ∈ entries.map Prod.fst ∧ ∃ r, records x.id = some r ∧
      Refreshed r x ∧
        (x = r ∨ ∃ i, s.readings ≤ i ∧ i < s.readings+n ∧ x.updatedAt = clock i) := by
  induction entries generalizing s with
  | nil => exact ⟨0,[],rfl,by simp,by simp⟩
  | cons entry entries ih =>
    obtain ⟨id,n⟩ := entry
    rw [map_cons,nodup_cons] at hkeys
    rw [updatedRecords]
    split
    next hnone =>
      obtain ⟨m,l,hrun,hnodup,hl⟩ := ih hkeys.2 s
      exact ⟨m,l,hrun,hnodup,fun x hx => ⟨mem_cons_of_mem _ (hl x hx).1,(hl x hx).2⟩⟩
    next r hr =>
      obtain ⟨y,hrun,hy,hclock⟩ := run_recordAccesses clock r n s
      obtain ⟨m,l,hrest,hnodup,hl⟩ := ih hkeys.2 {s with readings := s.readings+n}
      have hid : y.id = id := (congrArg (·.id) hy).trans (hrecords id r hr)
      refine ⟨n+m,y::l,?_,?_,fun x hx => ?_⟩
      · rw [run_bind_ok hrun,run_bind_ok hrest,run_pure,Nat.add_assoc]
      · rw [map_cons,nodup_cons,hid]
        refine ⟨fun hmem => ?_,hnodup⟩
        obtain ⟨x,hx,hxid⟩ := mem_map.mp hmem
        exact hkeys.1 (hxid ▸ (hl x hx).1)
      · rcases mem_cons.mp hx with rfl | hx
        · refine ⟨by simp [hid],r,hid.symm ▸ hr,hy,hclock.imp_right ?_⟩
          rintro ⟨i,hlow,hhigh,hi⟩
          exact ⟨i,hlow,by omega,hi⟩
        · obtain ⟨hmem,r',hr',hrefreshed,hclock'⟩ := hl x hx
          refine ⟨mem_cons_of_mem _ hmem,r',hr',hrefreshed,hclock'.imp_right ?_⟩
          rintro ⟨i,hlow,hhigh,hi⟩
          simp only at hlow hhigh
          exact ⟨i,by omega,by omega,hi⟩

theorem kept_applyEpisodeAccessCounts (hclock : Monotone clock)
    (hs : s.Kept settings clock fresh spares) (counts : AccessCounts) :
    State.Kept settings clock fresh spares (run (applyEpisodeAccessCounts clock counts) s).2 := by
  obtain ⟨n,l,hrun,hnodup,hl⟩ := run_updatedRecords clock (fun id r h => (Store.find_eq_some h).2)
    counts.keys s
  rw [applyEpisodeAccessCounts,run_bind_ok (run_get s),run_bind_ok hrun]
  refine ⟨(hs.1.ticks n).rewrite hnodup fun x hx => ?_,hs.2⟩
  obtain ⟨-,r,hr,hrefreshed,hx⟩ := hl x hx
  have hrow := (Store.find_eq_some hr).1
  obtain ⟨j,hj,hjr⟩ := hs.1.clocked r (.inl hrow)
  refine ⟨r,hrow,hrefreshed,?_⟩
  rcases hx with rfl | ⟨i,hlow,hhigh,hi⟩
  · exact ⟨le_rfl,j,hj.trans_le (Nat.le_add_right _ _),hjr⟩
  · refine ⟨?_,i,hhigh,hi⟩
    rw [hjr,hi]
    exact hclock (hj.le.trans hlow)

theorem kept_remember (hfresh : Function.Injective fresh) (hs : s.Kept settings clock fresh spares)
    (draft : AgedEpisode) :
    State.Kept settings clock fresh spares (run (remember clock fresh draft) s).2 := by
  refine ⟨hs.1.tick.draw.store (r := built draft (fresh s.drawn) (clock s.readings))
    (fun x hx => hs.1.fresh_id hfresh hx) ⟨⟨s.drawn,Nat.lt_succ_self _,rfl⟩,s.drawn,
    Nat.lt_succ_self _,rfl⟩ ⟨s.readings,Nat.lt_succ_self _,rfl⟩ rfl ?_,hs.2⟩
  change s.archivedAt (fresh s.drawn) = none
  cases ha : s.archivedAt (fresh s.drawn) with
  | none => rfl
  | some a =>
    obtain ⟨i,hi,hc⟩ := hs.1.archivals _ a ha
    exact absurd (hfresh hc).symm hi.ne

theorem kept_step (hclock : Monotone clock) (hfresh : Function.Injective fresh) (i : Step)
    (hok : spares → Spares settings clock s i) (hs : s.Kept settings clock fresh spares) :
    (step settings clock fresh s i).Kept settings clock fresh spares := by
  cases i with
  | remember draft => exact kept_remember hfresh hs draft
  | decayMemories => exact kept_decayMemories hfresh hs hok
  | runForgetting => exact kept_runForgetting hfresh hs
  | archiveEpisode target => exact (kept_archiveEpisode hfresh target).final hs
  | recordAccess counts => exact kept_applyEpisodeAccessCounts hclock hs counts

theorem kept_empty : State.empty.Kept settings clock fresh spares := by
  have hnone : ∀ r, ¬State.empty.episodes.Present r := by
    rintro r (h | ⟨c,h⟩) <;> cases h
  refine ⟨⟨nodup_nil,?_,?_,?_,?_,?_,?_,?_⟩,fun p hp => absurd hp (not_mem_nil)⟩
  · exact fun r hr => absurd hr (hnone r)
  · exact fun r hr => absurd hr (hnone r)
  · exact fun r hr => absurd hr (hnone r)
  · exact fun r hr => absurd hr (hnone r)
  · exact fun c a ha => nomatch ha
  · exact fun c h hh => nomatch hh
  · exact fun c a ha => nomatch ha

/-- What is purged was stored unpinned and archived by a pass seven days before; where decay spares the
floor, it was stored below it. -/
theorem purged_only_below_floor_and_after_grace (settings : Settings) (clock : ℕ → Timestamp)
    (fresh : ℕ → MemoryId) (hclock : Monotone clock) (hfresh : Function.Injective fresh)
    (steps : List Step) :
    (∀ p ∈ (exec (step settings clock fresh) State.empty steps).purged,
      ∃ first a, p.first = some first ∧ p.archivedAt = some a ∧ first.pinned = false ∧
        a+7*24*3600000 ≤ p.time) ∧
    (Admissible (step settings clock fresh) (Spares settings clock) State.empty steps →
      ∀ p ∈ (exec (step settings clock fresh) State.empty steps).purged,
        ∃ first, p.first = some first ∧ first.body.importance < settings.retentionFloor) := by
  constructor
  · have hadmissible : Admissible (step settings clock fresh) (fun s i => False →
      Spares settings clock s i)
        State.empty steps := admissible_of_forall fun _ _ _ h => h.elim
    have hkept := invariant (fun _ i hok hs => kept_step hclock hfresh i hok hs) kept_empty hadmissible
    intro p hp
    obtain ⟨first,a,hfirst,ha,hpinned,-,hgrace⟩ := hkept.2 p hp
    exact ⟨first,a,hfirst,ha,hpinned,hgrace⟩
  · intro h
    have hkept := invariant (fun _ i hok hs => kept_step hclock hfresh i (fun _ : True => hok) hs)
      kept_empty h
    intro p hp
    obtain ⟨first,a,hfirst,-,-,hfloor,-⟩ := hkept.2 p hp
    exact ⟨first,hfirst,hfloor trivial⟩

def halvedSettings : Settings where
  memoryMinImportance := 1/10
  archiveThreshold := 3/10
  purgeThreshold := 1/5
  retentionFloor := 1/2
  consolidationBatchSize := 10
  decayed importance seconds := if seconds ≥ 360000 then importance/20 else importance
  retentionScore _ _ _ := 1/10
  denial _ _ _ := none
  values l := l
  values_perm l := .refl l
  backend := Backend.stable

def slowClock (n : ℕ) : Timestamp := n*(200*3600000)

def deployment (importance : ℚ) : AgedEpisode where
  id := 0
  logicalMemoryId := 0
  revisionId := 0
  version := 1
  revisionOperation := .create
  revisionReason := none
  revisionCausationId := none
  timestamp := 0
  createdAt := 0
  updatedAt := 0
  supersededBy := none
  body := ⟨"deployment failed","deploy fail",[],none,importance,0,[],.episodicEvent⟩
  accessCount := 0
  lastAccessed := 0
  provenance := .withOrigin .directObservation "agent"
  ns := "shared"
  archived := false
  eventType := .error
  validUntil := none
  expiresAt := none
  pinned := false
  stability := 24

/-- Decay takes an important episode below the floor, and forgetting purges it. -/
theorem decayed_episode_purged : ∃ p ∈ (exec (step halvedSettings slowClock id) State.empty
    [.remember (deployment (4/5)),.decayMemories,.runForgetting]).purged,
    p.first.any fun first => halvedSettings.retentionFloor ≤ first.body.importance := by decide +kernel

theorem slowClock_monotone : Monotone slowClock :=
  fun _ _ h => mul_le_mul_of_nonneg_right (Int.ofNat_le.mpr h) (by decide)

def fadingSteps : List Step := [.remember (deployment (1/10)),.archiveEpisode 0,.runForgetting]

theorem fading_episode_purged : (exec (step halvedSettings slowClock id) State.empty
    fadingSteps).purged ≠ [] ∧
    (∀ p ∈ (exec (step halvedSettings slowClock id) State.empty fadingSteps).purged, ∃ first a,
      p.first = some first ∧ p.archivedAt = some a ∧ first.pinned = false ∧ a+7*24*3600000 ≤ p.time) ∧
    ∀ p ∈ (exec (step halvedSettings slowClock id) State.empty fadingSteps).purged, ∃ first,
      p.first = some first ∧ first.body.importance < halvedSettings.retentionFloor := by
  have h := purged_only_below_floor_and_after_grace halvedSettings slowClock id slowClock_monotone
    injective_id fadingSteps
  exact ⟨by decide +kernel,h.1,h.2 ⟨trivial,trivial,trivial,trivial⟩⟩
end Aging
end Hirn.Engine
