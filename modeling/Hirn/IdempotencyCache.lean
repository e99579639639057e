import Hirn.OrderedTable

/-! The cache behind idempotent requests: reservations of running requests and the responses of
finished ones, under one lock, with a lifetime and a capacity. -/
namespace Hirn.Idempotency
open List OrderedTable

inductive ReplayScope
  | localNode
  | forwarded (ownerNodeId : ℕ)
  deriving DecidableEq

structure CachedJsonResponse where
  status : ℕ
  body : List UInt8
  deriving DecidableEq

def CachedJsonResponse.isSuccess (r : CachedJsonResponse) : Bool :=
  decide (200 ≤ r.status) && decide (r.status < 300)

/-- A `Notify` is known by a number of its own. -/
abbrev NotifyId := ℕ

inductive EntryState
  | inFlight (notify : NotifyId)
  | ready (response : CachedJsonResponse) (replayScope : ReplayScope)
  deriving DecidableEq

structure CacheEntry where
  insertedAt : ℕ
  requestHash : String
  state : EntryState
  deriving DecidableEq

structure IdempotencyRequest (κ : Type) where
  cacheKey : κ
  requestHash : String
  deriving DecidableEq

structure Limits where
  (ttl maxEntries : ℕ)

variable {κ : Type} [LinearOrder κ]

/-- The map of the cache; its keys are in the order of the walk. -/
abbrev Entries (κ : Type) [LinearOrder κ] := OrderedTable κ CacheEntry

def EntryState.isReady : EntryState → Bool
  | .ready _ _ => true
  | .inFlight _ => false

def EntryState.notify? : EntryState → Option NotifyId
  | .inFlight notify => some notify
  | .ready _ _ => none

/-- Times are readings of a monotonic clock; a difference below zero is zero. -/
def CacheEntry.isExpired (e : CacheEntry) (ttl now : ℕ) : Bool := decide (ttl ≤ now-e.insertedAt)

variable (entries : Entries κ)

def evictExpired (now ttl : ℕ) : Entries κ × List NotifyId :=
  let expired := entries.rows.filter fun r => r.2.isExpired ttl now
  ((expired.map Prod.fst).foldl OrderedTable.remove entries,expired.filterMap fun r =>
  r.2.state.notify?)

def oldestReady : Option κ :=
  ((entries.rows.filter fun r => r.2.state.isReady).argmin fun r => r.2.insertedAt).map Prod.fst

def evictLoop (maxEntries : ℕ) : ℕ → Entries κ → Entries κ
  | 0,entries => entries
  | n+1,entries =>
    if entries.rows.length < maxEntries then entries
    else
      match oldestReady entries with
      | some key => evictLoop maxEntries n (entries.remove key)
      | none => entries

/-- Each round removes a row, so there are no more rounds than rows. -/
def evictUntilCapacity (maxEntries : ℕ) : Entries κ :=
  evictLoop maxEntries entries.rows.length entries

inductive Reservation
  | acquired
  | replay (response : CachedJsonResponse) (replayScope : ReplayScope)
  | wait (notify : NotifyId)
  | conflict
  | atCapacity

/-- What a locked operation leaves: the map, an answer, and whom to notify. -/
structure Locked (κ α : Type) [LinearOrder κ] where
  entries : Entries κ
  answer : α
  waiters : List NotifyId

variable (l : Limits) (entries : Entries κ) (request : IdempotencyRequest κ)

/-- A reservation that is acquired is entered with the `Notify` that is passed. -/
def reserve (now : ℕ) (notify : NotifyId) : Locked κ Reservation :=
  let evicted := evictExpired entries now l.ttl
  match evicted.1.lookup request.cacheKey with
  | some entry =>
    if entry.requestHash ≠ request.requestHash then ⟨evicted.1,.conflict,evicted.2⟩
    else
      match entry.state with
      | .ready response scope => ⟨evicted.1,.replay response scope,evicted.2⟩
      | .inFlight notify => ⟨evicted.1,.wait notify,evicted.2⟩
  | none =>
    let room := evictUntilCapacity evicted.1 l.maxEntries
    if l.maxEntries ≤ room.rows.length then ⟨room,.atCapacity,evicted.2⟩
    else ⟨room.insert request.cacheKey ⟨now,request.requestHash,.inFlight notify⟩,.acquired,evicted.2⟩

/-- The answer says whether the response was stored. -/
def storeResponse (response : CachedJsonResponse) (replayScope : ReplayScope) (now : ℕ) :
    Locked κ Bool :=
  let evicted := evictExpired entries now l.ttl
  match evicted.1.lookup request.cacheKey with
  | none => ⟨evicted.1,false,evicted.2⟩
  | some entry =>
    if entry.requestHash ≠ request.requestHash then ⟨evicted.1,false,evicted.2⟩
    else
      let room := evictUntilCapacity (evicted.1.remove request.cacheKey) l.maxEntries
      ⟨room.insert request.cacheKey ⟨now,request.requestHash,.ready response replayScope⟩,true,
        evicted.2++entry.state.notify?.toList⟩

/-- The reservation is known by its key and the hash of the body only. -/
def abort : Locked κ Unit :=
  match entries.lookup request.cacheKey with
  | some ⟨_,requestHash,.inFlight notify⟩ =>
    if requestHash = request.requestHash then ⟨entries.remove request.cacheKey,(),[notify]⟩ else
      ⟨entries,(),[]⟩
  | _ => ⟨entries,(),[]⟩

def invalidateReady : Entries κ :=
  match entries.lookup request.cacheKey with
  | some ⟨_,requestHash,.ready _ _⟩ =>
    if requestHash = request.requestHash then entries.remove request.cacheKey else entries
  | _ => entries

variable {entries} {n : ℕ}

theorem lookup_evictExpired :
    (evictExpired entries now ttl).1.lookup k = (entries.lookup k).filter fun e =>
    !e.isExpired ttl now := by
  rw [evictExpired,foldl_remove,lookup_keep]
  cases hk : entries.lookup k with
  | none => simp
  | some e =>
    have hrow := lookup_eq_some.mp hk
    have hmem : k ∈ (entries.rows.filter fun r => r.2.isExpired ttl now).map Prod.fst ↔
      e.isExpired ttl now := by
      simp only [mem_map,mem_filter]
      constructor
      · rintro ⟨⟨k',e'⟩,⟨hr,hexpired⟩,rfl⟩
        rwa [value_unique hrow hr]
      · exact fun hexpired => ⟨(k,e),⟨hrow,hexpired⟩,rfl⟩
    by_cases hexpired : e.isExpired ttl now = true
    · simp [hmem,Option.filter_some]
    · simp [hmem,Option.filter_some]

theorem length_evictExpired_le : (evictExpired entries now ttl).1.rows.length ≤
    entries.rows.length := by
  rw [evictExpired,foldl_remove]
  exact length_keep_le

theorem oldestReady_some (h : oldestReady entries = some key) :
    ∃ e, entries.lookup key = some e ∧ e.state.isReady := by
  obtain ⟨r,hr,rfl⟩ := Option.map_eq_some_iff.mp h
  obtain ⟨hmem,hready⟩ := mem_filter.mp (argmin_mem hr)
  exact ⟨r.2,lookup_eq_some.mpr hmem,hready⟩

theorem lookup_evictLoop (entries : Entries κ) (k : κ) :
    (evictLoop m n entries).lookup k = entries.lookup k ∨
    (evictLoop m n entries).lookup k = none ∧ ∃ e, entries.lookup k = some e ∧ e.state.isReady := by
  induction n generalizing entries with
  | zero => exact .inl rfl
  | succ n ih =>
    rw [evictLoop]
    split
    · exact .inl rfl
    · split
      · rename_i key hkey
        by_cases hk : k = key
        · subst hk
          have hnone : (entries.remove k).lookup k = none := lookup_remove_self
          rcases ih (entries.remove k) with h | ⟨h,-⟩
          · exact .inr ⟨h.trans hnone,oldestReady_some hkey⟩
          · exact .inr ⟨h,oldestReady_some hkey⟩
        · have hsame : (entries.remove key).lookup k = entries.lookup k := lookup_remove_of_ne hk
          have := ih (entries.remove key)
          rwa [hsame] at this
      · exact .inl rfl

theorem length_evictLoop_le : (evictLoop m n entries).rows.length ≤ entries.rows.length := by
  induction n generalizing entries with
  | zero => exact le_rfl
  | succ n ih =>
    rw [evictLoop]
    split
    · exact le_rfl
    · split
      · exact ih.trans length_keep_le
      · exact le_rfl

theorem evictUntilCapacity_of_lt (h : entries.rows.length < m) :
    evictUntilCapacity entries m = entries := by
  rw [evictUntilCapacity]
  cases hn : entries.rows.length with
  | zero => rfl
  | succ n => rw [evictLoop,if_pos h]

theorem lookup_evictUntilCapacity (entries : Entries κ) (m : ℕ) (k : κ) :
    (evictUntilCapacity entries m).lookup k = entries.lookup k ∨
      (evictUntilCapacity entries m).lookup k = none ∧ ∃ e, entries.lookup k = some e ∧
      e.state.isReady :=
  lookup_evictLoop entries k

theorem lookup_evictUntilCapacity_inFlight (h : entries.lookup k = some e)
    (hstate : e.state.isReady = false) : (evictUntilCapacity entries m).lookup k = some e := by
  rcases lookup_evictUntilCapacity entries m k with hsame | ⟨-,e',he',hready⟩
  · rw [hsame,h]
  · rw [h] at he'
    cases he'
    rw [hstate] at hready
    cases hready

variable {request}

section
variable {l}

theorem lookup_reserve (entries : Entries κ) (request : IdempotencyRequest κ) (now : ℕ)
    (notify : NotifyId) (k : κ) :
    (reserve l entries request now notify).entries.lookup k =
    (evictExpired entries now l.ttl).1.lookup k ∨
    ((reserve l entries request now notify).entries.lookup k = none ∧
      ∃ e, (evictExpired entries now l.ttl).1.lookup k = some e ∧ e.state.isReady) ∨
    k = request.cacheKey ∧ (evictExpired entries now l.ttl).1.lookup k = none ∧
      (reserve l entries request now notify).answer = .acquired ∧
      (reserve l entries request now notify).entries.lookup k =
      some ⟨now,request.requestHash,.inFlight notify⟩ := by
  cases hfound : (evictExpired entries now l.ttl).1.lookup request.cacheKey with
  | some entry =>
    left
    simp only [reserve,hfound]
    split
    · rfl
    · split <;> rfl
  | none =>
    simp only [reserve,hfound]
    split
    · exact (lookup_evictUntilCapacity _ _ k).imp_right .inl
    · by_cases hk : k = request.cacheKey
      · subst hk
        exact .inr (.inr ⟨rfl,hfound,rfl,lookup_insert_self⟩)
      · simp only [lookup_insert_of_ne hk]
        exact (lookup_evictUntilCapacity _ _ k).imp_right .inl

theorem reserve_acquired (h : (reserve l entries request now notify).answer = .acquired) :
    (evictExpired entries now l.ttl).1.lookup request.cacheKey = none ∧
      (reserve l entries request now notify).entries.lookup request.cacheKey =
        some ⟨now,request.requestHash,.inFlight notify⟩ := by
  cases hfound : (evictExpired entries now l.ttl).1.lookup request.cacheKey with
  | some entry =>
    simp only [reserve,hfound] at h
    split at h
    · cases h
    · split at h <;> cases h
  | none =>
    simp only [reserve,hfound] at h ⊢
    split
    · rename_i hfull
      rw [if_pos hfull] at h
      cases h
    · exact ⟨trivial,lookup_insert_self⟩

theorem length_reserve_le (notify : NotifyId) (h : entries.rows.length ≤ l.maxEntries) :
    (reserve l entries request now notify).entries.rows.length ≤ l.maxEntries := by
  have hevicted : (evictExpired entries now l.ttl).1.rows.length ≤ l.maxEntries :=
    length_evictExpired_le.trans h
  cases hfound : (evictExpired entries now l.ttl).1.lookup request.cacheKey with
  | some entry =>
    simp only [reserve,hfound]
    split
    · exact hevicted
    · split <;> exact hevicted
  | none =>
    simp only [reserve,hfound]
    split
    · exact length_evictLoop_le.trans hevicted
    · rename_i hroom
      exact length_insert_le.trans (not_le.mp hroom)

theorem storeResponse_cases (request : IdempotencyRequest κ) (response : CachedJsonResponse)
    (scope : ReplayScope) (now : ℕ) (h : entries.rows.length ≤ l.maxEntries) :
    ((storeResponse l entries request response scope now).answer = false ∧
      (storeResponse l entries request response scope now).entries =
      (evictExpired entries now l.ttl).1) ∨
    (storeResponse l entries request response scope now).answer ∧
      (∃ e, (evictExpired entries now l.ttl).1.lookup request.cacheKey = some e ∧
        e.requestHash = request.requestHash) ∧
      (storeResponse l entries request response scope now).entries =
        ((evictExpired entries now l.ttl).1.remove request.cacheKey).insert request.cacheKey
          ⟨now,request.requestHash,.ready response scope⟩ := by
  cases hfound : (evictExpired entries now l.ttl).1.lookup request.cacheKey with
  | none =>
    left
    simp only [storeResponse,hfound]
    exact ⟨trivial,trivial⟩
  | some entry =>
    by_cases hhash : entry.requestHash = request.requestHash
    · have hlt := length_remove_lt hfound
      have hroom : ((evictExpired entries now l.ttl).1.remove request.cacheKey).rows.length <
        l.maxEntries :=
        hlt.trans_le (length_evictExpired_le.trans h)
      simp [storeResponse,hfound,hhash,evictUntilCapacity_of_lt hroom]
    · simp [storeResponse,hfound,hhash]

theorem length_storeResponse_le (h : entries.rows.length ≤ l.maxEntries) :
    (storeResponse l entries request response scope now).entries.rows.length ≤ l.maxEntries := by
  have hevicted : (evictExpired entries now l.ttl).1.rows.length ≤ l.maxEntries :=
    length_evictExpired_le.trans h
  rcases storeResponse_cases request response scope now h with ⟨-,hsame⟩ | ⟨-,⟨e,hfound,-⟩,hstored⟩
  · rwa [hsame]
  · rw [hstored]
    have hlt := length_remove_lt hfound
    exact length_insert_le.trans (hlt.trans_le hevicted)

theorem lookup_abort (entries : Entries κ) (request : IdempotencyRequest κ) (k : κ) :
    (abort entries request).entries.lookup k = entries.lookup k ∨
    k = request.cacheKey ∧ (abort entries request).entries.lookup k = none ∧
      ∃ time notify, entries.lookup k = some ⟨time,request.requestHash,.inFlight notify⟩ := by
  unfold abort
  split
  · rename_i time hash notify hfound
    split
    · rename_i hhash
      by_cases hk : k = request.cacheKey
      · subst hk
        exact .inr ⟨rfl,lookup_remove_self,time,notify,by rw [hfound,hhash]⟩
      · exact .inl (lookup_remove_of_ne hk)
    · exact .inl rfl
  · exact .inl rfl

theorem lookup_abort_self {time : ℕ}
    (h : entries.lookup request.cacheKey = some ⟨time,request.requestHash,.inFlight notify⟩) :
    (abort entries request).entries.lookup request.cacheKey = none := by
  simp only [abort,h]
  exact lookup_remove_self

theorem length_abort_le : (abort entries request).entries.rows.length ≤ entries.rows.length := by
  unfold abort
  split
  · split
    · exact length_keep_le
    · exact le_rfl
  · exact le_rfl

theorem lookup_invalidateReady (entries : Entries κ) (request : IdempotencyRequest κ) (k : κ) :
    (invalidateReady entries request).lookup k = entries.lookup k ∨
    k = request.cacheKey ∧ (invalidateReady entries request).lookup k = none ∧
      ∃ e, entries.lookup k = some e ∧ e.state.isReady := by
  unfold invalidateReady
  split
  · rename_i time hash response scope hfound
    split
    · by_cases hk : k = request.cacheKey
      · subst hk
        exact .inr ⟨rfl,lookup_remove_self,_,hfound,rfl⟩
      · exact .inl (lookup_remove_of_ne hk)
    · exact .inl rfl
  · exact .inl rfl

theorem length_invalidateReady_le : (invalidateReady entries request).rows.length ≤
    entries.rows.length := by
  unfold invalidateReady
  split
  · split
    · exact length_keep_le
    · exact le_rfl
  · exact le_rfl
end
variable {l}
  {n : NotifyId}

theorem kept_or_waiter_evictExpired (ttl now : ℕ) (h : entries.lookup k = some entry)
    (hstate : entry.state = .inFlight n) :
    (evictExpired entries now ttl).1.lookup k = some entry ∨ n ∈ (evictExpired entries now ttl).2 := by
  cases hexpired : entry.isExpired ttl now with
  | false =>
    left
    rw [lookup_evictExpired,h,Option.filter_some,hexpired]
    rfl
  | true =>
    right
    refine mem_filterMap.mpr ⟨(k,entry),mem_filter.mpr ⟨lookup_eq_some.mp h,hexpired⟩,?_⟩
    simp [hstate,EntryState.notify?]

theorem reserve_waiters (notify : NotifyId) :
    (reserve l entries request now notify).waiters = (evictExpired entries now l.ttl).2 := by
  unfold reserve
  dsimp only
  split
  · split
    · rfl
    · split <;> rfl
  · split <;> rfl

theorem kept_or_waiter_reserve (notify : NotifyId) (h : entries.lookup k = some entry)
    (hstate : entry.state = .inFlight n) : (reserve l entries request now notify).entries.lookup k =
    some entry ∨
      n ∈ (reserve l entries request now notify).waiters := by
  rw [reserve_waiters]
  refine (kept_or_waiter_evictExpired l.ttl now h hstate).imp_left fun hevicted => ?_
  rcases lookup_reserve entries request now notify k with hsame | ⟨-,e,he,hready⟩ | ⟨-,hnone,-⟩
  · exact hsame.trans hevicted
  · rw [hevicted] at he
    cases he
    rw [hstate] at hready
    cases hready
  · rw [hevicted] at hnone
    cases hnone

theorem kept_or_waiter_storeResponse (response : CachedJsonResponse) (scope : ReplayScope)
    (h : entries.lookup k = some entry) (hstate : entry.state = .inFlight n) :
    (storeResponse l entries request response scope now).entries.lookup k = some entry ∨
      n ∈ (storeResponse l entries request response scope now).waiters := by
  rcases kept_or_waiter_evictExpired l.ttl now h hstate with hevicted | hwaiter
  · cases hfound : (evictExpired entries now l.ttl).1.lookup request.cacheKey with
    | none => exact .inl (by simpa only [storeResponse,hfound] using hevicted)
    | some found =>
      by_cases hhash : found.requestHash = request.requestHash
      · by_cases hk : k = request.cacheKey
        · subst hk
          rw [hevicted] at hfound
          cases hfound
          simp [storeResponse,hevicted,hhash,hstate,EntryState.notify?]
        · left
          simp only [storeResponse,hfound,hhash,ne_eq,not_true_eq_false,if_false]
          rw [lookup_insert_of_ne hk]
          refine lookup_evictUntilCapacity_inFlight ?_ (by rw [hstate]; rfl)
          rwa [lookup_remove_of_ne hk]
      · left
        simpa [storeResponse,hfound,hhash] using hevicted
  · right
    unfold storeResponse
    dsimp only
    split
    · exact hwaiter
    · split
      · exact hwaiter
      · exact mem_append_left _ hwaiter

theorem kept_or_waiter_abort (request : IdempotencyRequest κ) (h : entries.lookup k = some entry)
    (hstate : entry.state = .inFlight n) :
    (abort entries request).entries.lookup k = some entry ∨ n ∈ (abort entries request).waiters := by
  rcases lookup_abort entries request k with hsame | ⟨rfl,-,time,notify,hfound⟩
  · exact .inl (hsame.trans h)
  · rw [h] at hfound
    cases hfound
    cases hstate
    simp [abort,h]

theorem lookup_invalidateReady_inFlight (request : IdempotencyRequest κ)
    (h : entries.lookup k = some entry)
    (hstate : entry.state = .inFlight n) : (invalidateReady entries request).lookup k =
    some entry := by
  rcases lookup_invalidateReady entries request k with hsame | ⟨-,-,e,he,hready⟩
  · exact hsame.trans h
  · rw [h] at he
    cases he
    rw [hstate] at hready
    cases hready

theorem reserve_wait (h : (reserve l entries request now notify).answer = .wait n) :
    ∃ entry, (reserve l entries request now notify).entries.lookup request.cacheKey = some entry ∧
      entry.state = .inFlight n := by
  cases hfound : (evictExpired entries now l.ttl).1.lookup request.cacheKey with
  | none =>
    simp only [reserve,hfound] at h
    split at h <;> cases h
  | some entry =>
    simp only [reserve,hfound] at h ⊢
    split
    · rename_i hhash
      rw [if_pos hhash] at h
      cases h
    · rename_i hhash
      rw [if_neg hhash] at h
      split
      · rename_i hstate
        rw [hstate] at h
        cases h
      · rename_i hstate
        rw [hstate] at h
        cases h
        exact ⟨entry,hfound,hstate⟩

theorem invalidateReady_clear (h : ∀ entry, entries.lookup request.cacheKey = some entry →
    entry.state.isReady)
    (hafter : (invalidateReady entries request).lookup request.cacheKey = some entry) :
    entry.requestHash ≠ request.requestHash := by
  cases hfound : entries.lookup request.cacheKey with
  | none =>
    simp only [invalidateReady,hfound] at hafter
    cases hafter
  | some found =>
    have hready := h found hfound
    obtain ⟨time,hash,state⟩ := found
    cases state with
    | inFlight n => cases hready
    | ready response scope =>
      simp only [invalidateReady,hfound] at hafter
      split at hafter
      · rw [lookup_remove_self] at hafter
        cases hafter
      · rename_i hhash
        cases hfound.symm.trans hafter
        exact hhash
end Hirn.Idempotency
