import Hirn.Runs

/-! Leases that are items of a DynamoDB table. The fence is an attribute of the item, so it
counts on only as long as the item is there: a release or the table's expiry deletes both. -/
namespace Hirn.Dynamo
open Runs List Option
variable {holder : String} {now secs : ℕ}

structure LeaseItem where
  holder : String
  (acquiredAt expiresAt ttl fence : ℕ)

def wrappingAdd (a b : ℕ) : ℕ := (a+b)%2^64

/-- Items of the locks table by realm, under the key `lease#realm`. -/
abbrev LocksTable := String → Option LeaseItem

/-- The conditional update that acquires: `none` where the condition fails. -/
def acquireUpdate (item : Option LeaseItem) (holder : String) (now durationSecs : ℕ) :
    Option LeaseItem :=
  let expires := wrappingAdd now durationSecs
  let fence := (item.map (·.fence)).getD 0
  if item.all fun i => decide (i.expiresAt < now) || decide (i.holder = holder) then
    some ⟨holder,now,expires,wrappingAdd expires 60,fence+1⟩
  else none

def renewUpdate (item : Option LeaseItem) (holder : String) (now durationSecs : ℕ) :
    Option LeaseItem :=
  let expires := wrappingAdd now durationSecs
  (item.filter fun i => decide (i.holder = holder) && decide (now ≤ i.expiresAt)).map fun i =>
    {i with expiresAt := expires,ttl := wrappingAdd expires 60}

/-- A request is answered, or fails whether or not the table has taken it. -/
inductive Delivery
  | answered
  | failed (taken : Bool) (reason : String)

def Delivery.taken : Delivery → Bool
  | .answered => true
  | .failed taken _ => taken

/-- What `acquire_lease` returns. -/
def acquireResult (update : Option LeaseItem) : Delivery → Except String (Option ℕ)
  | .answered =>
    match update with
    | some item =>
      if item.fence < 2^64 then .ok (some item.fence)
      else .error "DynamoDB lease acquired but fence attribute missing"
    | none => .ok none
  | .failed _ reason => .error ("DynamoDB lease acquire error: "++reason)

inductive Event
  | acquireLease (realm holder : String) (durationSecs now : ℕ) (delivery : Delivery)
  | renewLease (realm holder : String) (durationSecs now : ℕ) (delivery : Delivery)
  | releaseLease (realm holder : String) (delivery : Delivery)
  | expire (realm : String) (time : ℕ)

/-- The table, and the fences returned for each realm, oldest first. -/
structure Locks where
  table : LocksTable
  returned : String → List ℕ

def Locks.empty : Locks := ⟨fun _ => none,fun _ => []⟩

variable (s : Locks)

def Locks.put (realm : String) (item : Option LeaseItem) : Locks :=
  {s with table := Function.update s.table realm item}

def Locks.record (realm : String) : Except String (Option ℕ) → Locks
  | .ok (some fence) => {s with returned := Function.update s.returned realm (s.returned realm++[fence])}
  | _ => s

def Locks.step : Event → Locks
  | .acquireLease realm holder secs now delivery =>
    let update := acquireUpdate (s.table realm) holder now secs
    let s' := if delivery.taken && update.isSome then s.put realm update else s
    s'.record realm (acquireResult update delivery)
  | .renewLease realm holder secs now delivery =>
    let update := renewUpdate (s.table realm) holder now secs
    if delivery.taken && update.isSome then s.put realm update else s
  | .releaseLease realm holder delivery =>
    if delivery.taken && (s.table realm).any fun i => decide (i.holder = holder) then
      s.put realm none else s
  | .expire realm time =>
    -- the table's expiry may take an item away any time after its `ttl`
    if (s.table realm).any fun i => decide (i.ttl ≤ time) then s.put realm none else s

def FencesGrow : Prop := ∀ realm, (s.returned realm).Pairwise (· < ·)

/-- An acquisition without an item comes before any fence of the realm is returned. -/
def FindsItem : Event → Prop
  | .acquireLease realm _ _ _ delivery => delivery.taken = true → s.table realm = none →
      s.returned realm = []
  | _ => True

/-- No answer to an acquisition gets lost after the table has taken it. -/
def Event.Answered : Event → Prop
  | .acquireLease _ _ _ _ delivery => delivery.taken = true → delivery = .answered
  | _ => True

variable {s : Locks} {new : LeaseItem}

section

@[simp] theorem put_table_self (item : Option LeaseItem) : (s.put realm item).table realm = item :=
  Function.update_self _ _ _

theorem put_table_of_ne (hr : r ≠ realm) (item : Option LeaseItem) :
    (s.put realm item).table r = s.table r := Function.update_of_ne hr _ _

@[simp] theorem put_returned (item : Option LeaseItem) : (s.put realm item).returned = s.returned :=
  rfl

@[simp] theorem record_table (result : Except String (Option ℕ)) :
    (s.record realm result).table = s.table := by
  unfold Locks.record
  split <;> rfl

theorem record_returned_of_ne (hr : r ≠ realm) (result : Except String (Option ℕ)) :
    (s.record realm result).returned r = s.returned r := by
  unfold Locks.record
  split
  · exact Function.update_of_ne hr _ _
  · rfl

variable {item : Option LeaseItem}

theorem acquireUpdate_fence
    (h : acquireUpdate item holder now secs = some new) :
    new.fence = (item.map (·.fence)).getD 0+1 := by
  simp only [acquireUpdate] at h
  split at h
  · rw [← some.inj h]
  · cases h

theorem renewUpdate_fence (h : renewUpdate item holder now secs = some new) :
    item.map (·.fence) = some new.fence := by
  simp only [renewUpdate,map_eq_some_iff] at h
  obtain ⟨old,hold,rfl⟩ := h
  rw [(filter_eq_some_iff.mp hold).1,map_some]

theorem renew_fence (holder : String) (secs now : ℕ) (delivery : Delivery) (r : String) :
    ((s.step (.renewLease realm holder secs now delivery)).table r).map (·.fence) = (s.table r).map
    (·.fence) := by
  simp only [Locks.step]
  split
  · rename_i htaken
    obtain ⟨new,hnew⟩ := isSome_iff_exists.mp (Bool.and_eq_true_iff.mp htaken).2
    by_cases hr : r = realm
    · subst hr
      rw [put_table_self,hnew,map_some,renewUpdate_fence hnew]
    · rw [put_table_of_ne hr]
  · rfl

theorem acquire_other (hr : r ≠ realm) (holder : String) (secs now : ℕ) (delivery : Delivery) :
    (s.step (.acquireLease realm holder secs now delivery)).table r = s.table r ∧
      (s.step (.acquireLease realm holder secs now delivery)).returned r = s.returned r := by
  simp only [Locks.step,record_table,record_returned_of_ne hr]
  split
  · exact ⟨put_table_of_ne hr _,rfl⟩
  · exact ⟨rfl,rfl⟩

variable (s : Locks)

theorem acquire_cases (realm holder : String) (secs now : ℕ) (delivery : Delivery) :
    s.step (.acquireLease realm holder secs now delivery) = s ∨
    ∃ new, delivery.taken ∧ new.fence = ((s.table realm).map (·.fence)).getD 0+1 ∧
      s.step (.acquireLease realm holder secs now delivery) =
        (s.put realm (some new)).record realm (acquireResult (some new) delivery) := by
  simp only [Locks.step]
  cases hupdate : acquireUpdate (s.table realm) holder now secs with
  | none =>
    cases delivery <;> simp [acquireResult,Locks.record]
  | some new =>
    cases htaken : delivery.taken with
    | true =>
      right
      exact ⟨new,rfl,acquireUpdate_fence hupdate,by simp⟩
    | false =>
      left
      cases delivery with
      | answered => cases htaken
      | failed taken reason => rfl

theorem record_acquireResult (realm : String) (new : LeaseItem) (delivery : Delivery) :
    (s.record realm (acquireResult (some new) delivery)).returned realm = s.returned realm ∨
      delivery = .answered ∧
        (s.record realm (acquireResult (some new) delivery)).returned realm = s.returned realm++
        [new.fence] := by
  cases delivery with
  | failed taken reason => exact .inl rfl
  | answered =>
    rw [acquireResult]
    split
    · exact .inr ⟨rfl,Function.update_self _ _ _⟩
    · exact .inl rfl

/-- A step that is no acquisition of the realm returns no fence for it, and keeps its fence or removes
the item. -/
theorem step_other (h : ∀ holder secs now delivery, e ≠ .acquireLease realm holder secs now
    delivery) : (s.step e).returned realm = s.returned realm ∧
      ((s.step e).table realm = none ∨ ((s.step e).table realm).map (·.fence) = (s.table realm).map
      (·.fence)) := by
  have hremoved : ∀ r, (s.put r none).table realm = none ∨
    (s.put r none).table realm = s.table realm := by
    intro r
    by_cases hr : realm = r
    · subst hr
      exact .inl (put_table_self _)
    · exact .inr (put_table_of_ne hr _)
  have hgone : ∀ r, (s.put r none).table realm = none ∨
      ((s.put r none).table realm).map (·.fence) = (s.table realm).map (·.fence) :=
    fun r => (hremoved r).imp_right fun h => by rw [h]
  cases e with
  | acquireLease r holder secs now delivery =>
    have hr : realm ≠ r := fun hr => h holder secs now delivery (by rw [hr])
    obtain ⟨htable,hreturned⟩ := acquire_other (s := s) hr holder secs now delivery
    exact ⟨hreturned,.inr (by rw [htable])⟩
  | renewLease r holder secs now delivery =>
    refine ⟨?_,.inr (renew_fence holder secs now delivery realm)⟩
    simp only [Locks.step]
    split <;> rfl
  | releaseLease r holder delivery =>
    simp only [Locks.step]
    split
    · exact ⟨rfl,hgone r⟩
    · exact ⟨rfl,.inr rfl⟩
  | expire r time =>
    simp only [Locks.step]
    split
    · exact ⟨rfl,hgone r⟩
    · exact ⟨rfl,.inr rfl⟩
end

/-- The fences of a realm grow from 1, and none is ahead of the item's. -/
structure Covered (s : Locks) (realm : String) : Prop where
  grow : (s.returned realm).Pairwise (· < ·)
  covered : ∀ item, s.table realm = some item → ∀ fence ∈ s.returned realm, fence ≤ item.fence

theorem covered_other {s' : Locks} (hreturned : s'.returned realm = s.returned realm)
    (htable : s'.table realm = none ∨ (s'.table realm).map (·.fence) = (s.table realm).map
    (·.fence)) (h : Covered s realm) : Covered s' realm := by
  refine ⟨hreturned ▸ h.grow,fun item hitem fence hfence => ?_⟩
  rw [hreturned] at hfence
  rcases htable with hnone | hsame
  · rw [hnone] at hitem
    cases hitem
  · rw [hitem,map_some,eq_comm,map_eq_some_iff] at hsame
    obtain ⟨old,hold,hfences⟩ := hsame
    rw [← hfences]
    exact h.covered old hold fence hfence

theorem covered_step (e : Event) (hok : FindsItem s e) (h : Covered s realm) :
    Covered (s.step e) realm := by
  by_cases hacquire : ∃ holder secs now delivery, e = .acquireLease realm holder secs now delivery
  · obtain ⟨holder,secs,now,delivery,rfl⟩ := hacquire
    rcases acquire_cases s realm holder secs now delivery with hstep | ⟨new,htaken,hfence,hstep⟩
    · rw [hstep]
      exact h
    · have hbelow : ∀ fence ∈ s.returned realm, fence < new.fence := by
        intro fence hmem
        rw [hfence]
        cases hitem : s.table realm with
        | none =>
          rw [hok htaken hitem] at hmem
          cases hmem
        | some item => exact Nat.lt_succ_of_le (h.covered item hitem fence hmem)
      rw [hstep]
      rcases record_acquireResult (s.put realm (some new)) realm new delivery with hreturned | ⟨-,
        hreturned⟩
      · refine ⟨hreturned ▸ h.grow,fun item hitem fence hmem => ?_⟩
        rw [hreturned] at hmem
        rw [record_table,put_table_self] at hitem
        cases hitem
        exact (hbelow fence hmem).le
      · refine ⟨?_,fun item hitem fence hmem => ?_⟩
        · rw [hreturned]
          exact pairwise_append.mpr ⟨h.grow,pairwise_singleton _ _,by simpa using hbelow⟩
        · rw [record_table,put_table_self] at hitem
          cases hitem
          rw [hreturned] at hmem
          rcases mem_append.mp hmem with hmem | hmem
          · exact (hbelow fence hmem).le
          · exact (mem_singleton.mp hmem).le
  · obtain ⟨hreturned,htable⟩ := step_other s fun holder secs now delivery he =>
      hacquire ⟨holder,secs,now,delivery,he⟩
    exact covered_other hreturned htable h

theorem returned_step (s : Locks) (e : Event) (realm : String) :
    ∃ more, (s.step e).returned realm = s.returned realm++more ∧ ∀ fence ∈ more, 1 ≤ fence := by
  by_cases hacquire : ∃ holder secs now delivery, e = .acquireLease realm holder secs now delivery
  · obtain ⟨holder,secs,now,delivery,rfl⟩ := hacquire
    rcases acquire_cases s realm holder secs now delivery with hstep | ⟨new,-,hfence,hstep⟩
    · exact ⟨[],by rw [hstep,append_nil],by simp⟩
    · rw [hstep]
      rcases record_acquireResult (s.put realm (some new)) realm new delivery with hreturned | ⟨-,
        hreturned⟩
      · exact ⟨[],by rw [hreturned,append_nil,put_returned],by simp⟩
      · exact ⟨[new.fence],by rw [hreturned,put_returned],by simp [hfence]⟩
  · obtain ⟨hreturned,-⟩ := step_other s fun holder secs now delivery he =>
      hacquire ⟨holder,secs,now,delivery,he⟩
    exact ⟨[],by rw [hreturned,append_nil],by simp⟩

theorem positive_step (e : Event) (hpos : ∀ fence ∈ s.returned realm, 1 ≤ fence) :
    ∀ fence ∈ (s.step e).returned realm, 1 ≤ fence := by
  intro fence hmem
  obtain ⟨more,hmore,hone⟩ := returned_step s e realm
  rw [hmore] at hmem
  rcases mem_append.mp hmem with hmem | hmem
  · exact hpos fence hmem
  · exact hone fence hmem

theorem returns_one (hnone : s.table realm = none) :
    (s.step (.acquireLease realm holder secs now .answered)).returned realm = s.returned realm++
    [1] := by
  have hupdate : acquireUpdate (s.table realm) holder now secs =
      some ⟨holder,now,wrappingAdd now secs,wrappingAdd (wrappingAdd now secs) 60,1⟩ := by
    simp [acquireUpdate,hnone]
  simp only [Locks.step,hupdate,isSome_some,Bool.and_true,Delivery.taken,if_true,acquireResult,
    show 1 < 2^64 by norm_num,Locks.record]
  rw [Function.update_self,put_returned]

theorem findsItem_of_grow (hpos : ∀ realm, ∀ fence ∈ s.returned realm, 1 ≤ fence)
    (hanswered : e.Answered) (hgrow : FencesGrow (s.step e)) : FindsItem s e := by
  cases e with
  | acquireLease realm holder secs now delivery =>
    intro htaken hnone
    obtain rfl : delivery = .answered := hanswered htaken
    have hpair := hgrow realm
    rw [returns_one hnone] at hpair
    refine eq_nil_iff_forall_not_mem.mpr fun fence hmem => ?_
    have hlt := (pairwise_append.mp hpair).2.2 fence hmem 1 (by simp)
    have := hpos realm fence hmem
    omega
  | _ => trivial

/-- Fences grow if an acquisition without an item is the first to return one and, where no answer is
lost, only then. -/
theorem dynamo_fences_grow_iff (events : List Event) :
    (Admissible Locks.step FindsItem .empty events → FencesGrow (exec Locks.step .empty events)) ∧
    ((∀ e ∈ events, e.Answered) → FencesGrow (exec Locks.step .empty events) →
      Admissible Locks.step FindsItem .empty events) ∧
    ∀ realm holder secs now delivery r,
      (((exec Locks.step .empty events).step
        (.renewLease realm holder secs now delivery)).table r).map (·.fence) =
        ((exec Locks.step .empty events).table r).map (·.fence) := by
  refine ⟨fun hok realm => ?_,fun hanswered hgrow => ?_,fun _ holder secs now delivery r => ?_⟩
  · refine (invariant (I := fun s => Covered s realm) (fun s e hok h => covered_step e hok h) ?_
      hok).grow
    exact ⟨.nil,nofun⟩
  · refine (admissible_of_holds (I := fun s => ∀ realm, ∀ fence ∈ s.returned realm, 1 ≤ fence)
      (P := FencesGrow)
      (F := fun _ => True) ?_ (fun _ _ _ => trivial) ?_ hanswered (by simp [Locks.empty]) trivial
      hgrow).2.2
    · exact fun s e hpos realm => positive_step e (hpos realm)
    · intro s e hanswered hpos _ hgrow
      refine ⟨fun realm => ?_,findsItem_of_grow hpos hanswered hgrow⟩
      obtain ⟨more,hmore,-⟩ := returned_step s e realm
      have hpair := hgrow realm
      rw [hmore] at hpair
      exact (pairwise_append.mp hpair).1
  · exact renew_fence holder secs now delivery r

def releasedBetween : List Event :=
  [.acquireLease "a" "n1" 10 100 .answered,.acquireLease "a" "n1" 10 105 .answered,
  .releaseLease "a" "n1" .answered,
    .acquireLease "a" "n2" 10 106 .answered]

def expiredBetween : List Event :=
  [.acquireLease "a" "n1" 10 100 .answered,.expire "a" 170,.acquireLease "a" "n2" 10 200 .answered]

/-- Fences start again at 1. -/
theorem released_lease_repeats_fence : (exec Locks.step .empty releasedBetween).returned "a" = [1,2,
    1] ∧ (exec Locks.step .empty expiredBetween).returned "a" = [1,1] ∧
    ¬FencesGrow (exec Locks.step .empty releasedBetween) := by
  have hreturned : (exec Locks.step .empty releasedBetween).returned "a" = [1,2,1] := by decide +kernel
  refine ⟨hreturned,by decide +kernel,fun h => ?_⟩
  have hpair := h "a"
  exact absurd hpair (by decide)
end Hirn.Dynamo
