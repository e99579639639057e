import Mathlib

/-! The limiter in front of the HTTP routes. It keeps the hits of each class and actor, and when the map
is full it sweeps a part of it in the order in which the map happens to be visited. -/
namespace Hirn.Throttle
open List Function

inductive RateLimitClass
  | auth | read | write | admin
  deriving DecidableEq

inductive RateLimitActor
  | agent (realm agentId : String)
  | peerIp (ip : List UInt8)
  deriving DecidableEq

structure RateLimitKey where
  class_ : RateLimitClass
  actor : RateLimitActor
  deriving DecidableEq

structure RateLimitBudget where
  (maxRequests windowSecs : ℕ)

structure ThrottleConfig where
  enabled : Bool
  maxEntries : ℕ
  (auth read write admin : RateLimitBudget)

abbrev Entries := AList fun _ : RateLimitKey => List ℕ
def evictScanLimit : ℕ := 64
def hitsOf (entries : Entries) (key : RateLimitKey) : List ℕ := (entries.lookup key).getD []

namespace RateLimitBudget
variable (b : RateLimitBudget)

def retain (now : ℕ) (hits : List ℕ) : List ℕ := hits.filter fun t => (now-t)/10^9 < b.windowSecs

/-- Fewer than the budget of the calls that were allowed lie inside the window. -/
def admits (allowed : List ℕ) (now : ℕ) : Bool :=
  (allowed.filter fun t => (now-t)/10^9 < b.windowSecs).length < b.maxRequests

def allowed (times : List ℕ) : List ℕ :=
  times.foldl (fun allowed now => if b.admits allowed now then allowed++[now] else allowed) []

theorem retain_retain {b : RateLimitBudget} {now t : ℕ} (h : now ≤ t) :
    b.retain t (b.retain now hits) = b.retain t hits := by
  unfold retain
  rw [filter_filter]
  refine filter_congr fun x _ => ?_
  have hage : (now-x)/10^9 ≤ (t-x)/10^9 := Nat.div_le_div_right (Nat.sub_le_sub_right h x)
  rw [Bool.eq_iff_iff,Bool.and_eq_true,decide_eq_true_eq,decide_eq_true_eq]
  exact and_iff_left_of_imp hage.trans_lt
end RateLimitBudget

/-- A request at a time, with the order in which a sweep would visit the map. -/
structure Call where
  order : List RateLimitKey
  now : ℕ
  key : RateLimitKey

namespace ThrottleConfig
variable (config : ThrottleConfig)

def budget (key : RateLimitKey) : RateLimitBudget :=
  match key.class_ with
  | .auth => config.auth
  | .read => config.read
  | .write => config.write
  | .admin => config.admin

def retain (now : ℕ) (entries : Entries) (key : RateLimitKey) : Entries :=
  match entries.lookup key with
  | none => entries
  | some hits => entries.insert key ((config.budget key).retain now hits)

/-- The sweep of a full map, over the entries that come first in its order. -/
def evict (order : List RateLimitKey) (now : ℕ) (entries : Entries) : Entries :=
  if config.maxEntries ≤ entries.keys.length then
    let visited := order.take evictScanLimit
    let entries := visited.foldl (config.retain now) entries
    (visited.filter fun key => entries.lookup key = some []).foldl
    (fun entries key => entries.erase key) entries
  else entries

/-- The limiter's other fields are those of its configuration and never change. -/
def check (entries : Entries) (c : Call) : Entries × Bool :=
  if !config.enabled then (entries,true)
  else
    let budget := config.budget c.key
    let entries := config.evict c.order c.now entries
    let hits := budget.retain c.now (hitsOf entries c.key)
    if budget.maxRequests ≤ hits.length then (entries.insert c.key hits,false)
    else (entries.insert c.key (hits++[c.now]),true)

def after (calls : List Call) : Entries := calls.foldl (fun entries c => (config.check entries c).1) ∅

/-- The calls of a class and an actor that are allowed if there are no others. -/
def alone (calls : List Call) (key : RateLimitKey) : List ℕ :=
  (config.budget key).allowed ((calls.filter (·.key = key)).map (·.now))

/-- The map has the allowed hits of every class and actor, as far as they count. -/
def Agrees (now : ℕ) (entries : Entries) (allowed : RateLimitKey → List ℕ) : Prop :=
  ∀ key t, now ≤ t → (config.budget key).retain t (hitsOf entries key) = (config.budget key).retain
  t (allowed key)

variable {config} {now : ℕ} {entries : Entries} {allowed : RateLimitKey → List ℕ}

section
variable (h : config.Agrees now entries allowed)
include h

theorem Agrees.insert (hkey : ∀ t, now ≤ t → (config.budget key).retain t hits =
    (config.budget key).retain t hits') :
    config.Agrees now (entries.insert key hits) (update allowed key hits') := by
  intro key' t ht
  rcases eq_or_ne key' key with rfl | hne
  · rw [hitsOf,AList.lookup_insert,update_self]
    exact hkey t ht
  · rw [hitsOf,AList.lookup_insert_ne hne,update_of_ne hne]
    exact h key' t ht

theorem Agrees.retain (key : RateLimitKey) :
    config.Agrees now (config.retain now entries key) allowed := by
  unfold ThrottleConfig.retain
  split
  next => exact h
  next hits hlookup =>
    rw [← update_eq_self key allowed]
    refine h.insert fun t ht => ?_
    rw [RateLimitBudget.retain_retain ht,← h key t ht,hitsOf,hlookup,Option.getD_some]

theorem Agrees.evict (order : List RateLimitKey) :
    config.Agrees now (config.evict order now entries) allowed := by
  unfold ThrottleConfig.evict
  split
  swap
  · exact h
  have hretained : config.Agrees now ((order.take evictScanLimit).foldl (config.retain now) entries)
    allowed :=
    foldlRecOn (motive := fun e => config.Agrees now e allowed) _ _ h fun e he key _ => he.retain key
  dsimp only
  generalize (order.take evictScanLimit).foldl (config.retain now) entries = retained at hretained ⊢
  rwa [Agrees,foldlRecOn (motive := fun e => hitsOf e = hitsOf retained) _ _ rfl ?_]
  intro e he key hkey
  funext key'
  rcases eq_or_ne key' key with rfl | hne
  · rw [hitsOf,hitsOf,AList.lookup_erase,of_decide_eq_true (mem_filter.mp hkey).2]
    rfl
  · rw [hitsOf,AList.lookup_erase_ne hne,← he,hitsOf]
end

theorem alone_append (calls : List Call) (c : Call) :
    config.alone (calls++[c]) = update (config.alone calls) c.key
    (if (config.budget c.key).admits (config.alone calls c.key) c.now then
    config.alone calls c.key++[c.now]
      else config.alone calls c.key) := by
  funext key
  unfold alone RateLimitBudget.allowed
  rcases eq_or_ne key c.key with rfl | hne
  · simp
  · simp [hne,Ne.symm hne]

theorem Agrees.check (henabled : config.enabled)
    (h : config.Agrees c.now entries (config.alone calls)) :
    (config.check entries c).2 = (config.budget c.key).admits (config.alone calls c.key) c.now ∧
      config.Agrees c.now (config.check entries c).1 (config.alone (calls++[c])) := by
  have hswept := h.evict c.order
  have hbefore := fun t ht => (RateLimitBudget.retain_retain ht).trans (hswept c.key t ht)
  rw [ThrottleConfig.check,henabled,alone_append,RateLimitBudget.admits,← RateLimitBudget.retain,
    ← hswept c.key c.now le_rfl]
  simp only [Bool.not_true,Bool.false_eq_true,if_false]
  split
  next hfull =>
    rw [decide_eq_false hfull.not_gt]
    exact ⟨rfl,hswept.insert hbefore⟩
  next hroom =>
    rw [decide_eq_true (not_le.mp hroom)]
    refine ⟨rfl,hswept.insert fun t ht => ?_⟩
    have hsame := hbefore t ht
    unfold RateLimitBudget.retain at hsame ⊢
    rw [if_pos rfl,filter_append,filter_append,hsame]

theorem agrees_after (henabled : config.enabled)
    (hsorted : (calls.map (·.now)++[now]).Pairwise (· ≤ ·)) :
    config.Agrees now (config.after calls) (config.alone calls) := by
  induction calls using reverseRecOn generalizing now with
  | nil => exact fun _ _ _ => rfl
  | append_singleton calls c ih =>
    rw [map_append] at hsorted
    obtain ⟨hbefore,-,hle⟩ := pairwise_append.mp hsorted
    have hnow : c.now ≤ now := hle c.now (by simp) now (mem_singleton_self now)
    rw [after,foldl_append]
    exact fun key t ht => ((ih hbefore).check henabled).2 key t (hnow.trans ht)

def oneHit : ThrottleConfig := ⟨true,0,⟨1,60⟩,⟨1,60⟩,⟨1,60⟩,⟨1,60⟩⟩

end ThrottleConfig
end Hirn.Throttle
