import Hirn.Runs

/-! The cache of compiled plans. Recency is a queue of stamps, all stale but the newest of each
entry; the live ones, in the order of the queue, are the keys of an ideal LRU map. -/
namespace Hirn.PlanCache
open List Runs

structure CacheEntry (σ π : Type) where
  normalizedSource : σ
  plan : π
  generation : ℕ

/-- A `HashMap` is the list of its entries; nothing reads their order. -/
abbrev Entries (κ σ π : Type) := List (κ × CacheEntry σ π)

structure PlanCacheInner (κ σ π : Type) where
  entries : Entries κ σ π
  recency : List (ℕ × κ)
  generation : ℕ

inductive Op (σ π : Type)
  | get (source : σ)
  | put (source : σ) (plan : π)
  | clear

variable {κ σ π : Type} [DecidableEq κ] [DecidableEq σ] (E : Entries κ σ π) (n : ℕ) (hash : σ → κ)
    (key : κ) (s : σ)
  (p : π) (c : PlanCacheInner κ σ π) (L : List (σ × π))

def lookup : Option (CacheEntry σ π) := (E.find? (·.1 = key)).map Prod.snd
def remove : Entries κ σ π := E.filter (·.1 ≠ key)

def isLive (stamp : ℕ × κ) : Bool := (lookup E stamp.2).any (·.generation = stamp.1)

/-- `evict_lru`: the entries and the stamps that it leaves. -/
def evictLru : List (ℕ × κ) → Entries κ σ π × List (ℕ × κ)
  | [] => (E,[])
  | stamp::recency => if isLive E stamp then (remove E stamp.2,recency) else evictLru recency

def compactIfNeeded : PlanCacheInner κ σ π :=
  if c.recency.length ≤ max c.entries.length n*2 then c else
    {c with recency := c.recency.filter (isLive c.entries)}

/-- A hit and an insert: the entry takes the next generation and a stamp of it. -/
def stamped : PlanCacheInner κ σ π :=
  compactIfNeeded n ⟨remove c.entries key++[(key,⟨s,p,c.generation+1⟩)],
  c.recency++[(c.generation+1,key)],c.generation+1⟩

def get : Option π × PlanCacheInner κ σ π :=
  match lookup c.entries key with
  | none => (none,c)
  | some e => if e.normalizedSource = s then (some e.plan,stamped n key s e.plan c) else (none,c)

def put : PlanCacheInner κ σ π :=
  if n = 0 then c
  else if (lookup c.entries key).isNone && decide (n ≤ c.entries.length) then
    let (entries,recency) := evictLru c.entries c.recency
    stamped n key s p {c with entries := entries, recency := recency}
  else stamped n key s p c

def step : Op σ π → PlanCacheInner κ σ π
  | .get source => (get n (hash source) source c).2
  | .put source plan => put n (hash source) source plan c
  | .clear => {c with entries := [], recency := []}

/-- The ideal map holds its pairs from the least to the most recently used. -/
def idealGet : Option π := (L.find? (·.1 = s)).map Prod.snd

/-- Move or add a pair to the end, behind those that there is room for. -/
def idealUse : List (σ × π) :=
  let others := L.filter (·.1 ≠ s)
  others.drop (others.length+1-n)++[(s,p)]

def idealStep : Op σ π → List (σ × π)
  | .get source => ((idealGet source L).map fun plan => idealUse n source plan L).getD L
  | .put source plan => idealUse n source plan L
  | .clear => []

/-- The entries are the pairs of the ideal map, and the live stamps are theirs. -/
structure Simulates : Prop where
  inj : hash.Injective
  pairs : c.entries.map (fun x => (x.1,x.2.normalizedSource,x.2.plan)) = L.map fun x => (hash x.1,x)
  stamps : c.recency.filter (isLive c.entries) = c.entries.map fun x => (x.2.generation,x.1)
  nodup : (L.map Prod.fst).Nodup
  old : ∀ stamp ∈ c.recency, stamp.1 ≤ c.generation

structure Tracks : Prop extends Simulates hash c L where
  card : L.length ≤ n
  short : c.recency.length ≤ 2*n

variable {E n hash key s p c L} {R : List (ℕ × κ)}

omit [DecidableEq σ] in
theorem isLive_remove : isLive (remove E key) = fun stamp => decide (stamp.2 ≠ key) &&
    isLive E stamp := by
  funext stamp
  have hlookup : lookup (remove E key) stamp.2 = if stamp.2 = key then none else lookup E stamp.2 := by
    induction E with
    | nil => simp [lookup,remove]
    | cons x E ih =>
      by_cases hx : x.1 = key <;> by_cases hk : x.1 = stamp.2 <;> simp_all [lookup,remove]
  rw [isLive,isLive,hlookup]
  by_cases h : stamp.2 = key <;> simp [h]

omit [DecidableEq σ] in
theorem evictLru_eq (h : R.filter (isLive E) = stamp::live) :
    ∃ rest, evictLru E R = (remove E stamp.2,rest) ∧ rest <:+ R ∧ rest.filter (isLive E) = live := by
  induction R with
  | nil => simp at h
  | cons t R ih =>
    rw [evictLru]
    split_ifs with ht
    · obtain ⟨rfl,rfl⟩ : t = stamp ∧ R.filter (isLive E) = live := by simpa [ht] using h
      exact ⟨R,rfl,suffix_cons t R,rfl⟩
    · obtain ⟨rest,heq,hsuffix,hlive⟩ := ih (by simpa [ht] using h)
      exact ⟨rest,heq,hsuffix.trans (suffix_cons t R),hlive⟩

namespace Simulates
variable (h : Simulates hash c L)
include h

omit [DecidableEq σ] in
theorem length_eq : c.entries.length = L.length := by simpa using congrArg length h.pairs

theorem find_eq (s : σ) : (c.entries.find? (·.1 = hash s)).map
    (fun x => (x.1,x.2.normalizedSource,x.2.plan)) =
    (L.find? (·.1 = s)).map fun x => (hash x.1,x) := by
  have := congrArg (find? (·.1 = hash s)) h.pairs
  simpa [h.inj.eq_iff] using this

theorem find_eq_none : c.entries.find? (·.1 = hash s) = none ↔ ∀ x ∈ L, x.1 ≠ s := by
  have := congrArg (· = none) (h.find_eq s)
  simpa using this

theorem without (s : σ) : Simulates hash {c with entries := remove c.entries (hash s)}
    (L.filter (·.1 ≠ s)) := by
  refine ⟨h.inj,?_,?_,h.nodup.sublist (filter_sublist.map _),h.old⟩
  · have := congrArg (filter fun x => decide (x.1 ≠ hash s)) h.pairs
    rw [filter_map,filter_map] at this
    simpa [remove,Function.comp_def,h.inj.eq_iff] using this
  · have := congrArg (filter fun x => decide (x.2 ≠ hash s)) h.stamps
    rw [filter_map,filter_filter] at this
    rw [isLive_remove]
    exact this

theorem push (hs : ∀ x ∈ L, x.1 ≠ s) : Simulates hash
    ⟨c.entries++[(hash s,⟨s,p,c.generation+1⟩)],c.recency++[(c.generation+1,hash s)],c.generation+1⟩
    (L++[(s,p)]) := by
  have hnew := h.find_eq_none.mpr hs
  have hlive : ∀ stamp : ℕ × κ, isLive (c.entries++[(hash s,⟨s,p,c.generation+1⟩)]) stamp =
      (isLive c.entries stamp || decide ((c.generation+1,hash s) = stamp)) := by
    intro stamp
    by_cases hk : stamp.2 = hash s
    · simp [isLive,lookup,hk,hnew,Prod.ext_iff]
    · simp [isLive,lookup,Ne.symm hk,Prod.ext_iff]
  refine ⟨h.inj,by simp [h.pairs],?_,?_,?_⟩
  · rw [filter_append,map_append,← h.stamps]
    congr 1
    · refine filter_congr fun stamp hst => ?_
      have := h.old stamp hst
      rw [hlive,decide_eq_false (by rintro rfl; simp at this),Bool.or_false]
    · simp [hlive]
  · rw [map_append,nodup_append]
    exact ⟨h.nodup,by simp,by simpa using fun x y hx => hs _ hx⟩
  · simpa using fun g k hst => Or.elim hst (fun hst => (h.old _ hst).trans (by simp)) (by simp_all)

omit [DecidableEq σ] in
theorem compact (hn : L.length ≤ n) : Tracks n hash (compactIfNeeded n c) L := by
  have hlen := h.length_eq
  rw [compactIfNeeded]
  split_ifs with hle
  · exact ⟨h,hn,by omega⟩
  · refine ⟨⟨h.inj,h.pairs,by simpa using h.stamps,h.nodup,
      fun stamp hst => h.old stamp (mem_of_mem_filter hst)⟩,hn,?_⟩
    simp only [h.stamps,length_map]
    omega

theorem stamped (hn : (L.filter (·.1 ≠ s)).length < n) :
    Tracks n hash (stamped n (hash s) s p c) (idealUse n s p L) := by
  rw [idealUse,Nat.sub_eq_zero_of_le hn]
  exact ((h.without s).push (by simp)).compact (by simpa using hn)

theorem get_eq : get n (hash s) s c =
    (idealGet s L,((idealGet s L).map fun p => PlanCache.stamped n (hash s) s p c).getD c) := by
  have hfind := h.find_eq s
  rw [get,lookup,idealGet]
  cases hL : L.find? (·.1 = s) with
  | none =>
    rw [hL] at hfind
    simp [Option.map_eq_none_iff.mp hfind]
  | some x =>
    obtain ⟨y,hy,heq⟩ := Option.map_eq_some_iff.mp (hfind.trans (congrArg _ hL))
    obtain ⟨-,rfl⟩ := Prod.ext_iff.mp heq
    have hs : y.2.normalizedSource = s := by simpa using find?_some hL
    simp [hy,hs]
end Simulates

theorem Simulates.evict (h : Simulates hash c (x::L)) : Simulates hash {c with
      entries := (evictLru c.entries c.recency).1, recency := (evictLru c.entries c.recency).2} L := by
  obtain ⟨y,E,hE⟩ := exists_cons_of_length_eq_add_one h.length_eq
  have hx := h.without x.1
  have hout : ∀ y ∈ L, decide (y.1 ≠ x.1) = true := by
    have := (nodup_cons.mp h.nodup).1
    aesop
  rw [filter_cons_of_neg (by simp),filter_eq_self.mpr hout] at hx
  have hstamps := h.stamps
  have hpairs := h.pairs
  rw [hE,map_cons] at hstamps hpairs
  rw [← hE] at hstamps
  have hy : y.1 = hash x.1 := congrArg Prod.fst (cons.inj hpairs).1
  obtain ⟨rest,heq,hsuffix,hlive⟩ := evictLru_eq hstamps
  simp only [heq,hy]
  refine ⟨h.inj,hx.pairs,?_,hx.nodup,fun stamp hst => h.old stamp (hsuffix.subset hst)⟩
  rw [← hx.stamps,isLive_remove,← filter_filter,← filter_filter,hlive,hstamps]
  simp [hy]

/-- One call keeps the cache and the ideal map together. -/
theorem tracks_step (hn : 1 ≤ n) (op : Op σ π) (h : Tracks n hash c L) :
    Tracks n hash (step n hash c op) (idealStep n L op) := by
  have hcount := h.length_eq
  have hcard := h.card
  have hothers : ∀ s, (∃ x ∈ L, x.1 = s) → (L.filter (·.1 ≠ s)).length < n := fun s hs =>
    (length_filter_lt_length_iff_exists.mpr (by simpa using hs)).trans_le hcard
  cases op with
  | clear => exact ⟨⟨h.inj,rfl,rfl,nodup_nil,by simp [step]⟩,by simp [idealStep],by simp [step]⟩
  | get s =>
    rw [step,h.get_eq,idealStep]
    cases hg : idealGet s L with
    | none => exact h
    | some p =>
      obtain ⟨x,hx,-⟩ := Option.map_eq_some_iff.mp hg
      exact h.stamped (hothers s ⟨x,mem_of_find?_eq_some hx,by simpa using find?_some hx⟩)
  | put s p =>
    rw [step,put,if_neg (by omega),idealStep]
    by_cases hs : ∃ x ∈ L, x.1 = s
    · have hin : lookup c.entries (hash s) ≠ none := by
        simpa [lookup,h.find_eq_none] using hs
      rw [if_neg (by simp [hin])]
      exact h.stamped (hothers s hs)
    · have hout : ∀ x ∈ L, x.1 ≠ s := fun x hx hxs => hs ⟨x,hx,hxs⟩
      rw [lookup,h.find_eq_none.mpr hout]
      have hself := fun M (hM : M ⊆ L) => filter_eq_self.mpr fun y hy =>
        decide_eq_true (hout y (hM hy))
      by_cases hfull : n ≤ c.entries.length
      · obtain ⟨x,L',rfl⟩ := exists_cons_of_ne_nil (l := L) (by rintro rfl; rw [length_nil] at hcount; omega)
        obtain rfl : n = L'.length+1 := by rw [length_cons] at hcount hcard; omega
        have hsame : idealUse (L'.length+1) s p (x::L') = idealUse (L'.length+1) s p L' := by
          rw [idealUse,idealUse,hself _ (Subset.refl _),hself L' (subset_cons_self x L')]
          simp
        rw [if_pos (by simpa using hfull),hsame]
        exact h.evict.stamped ((length_filter_le _ _).trans_lt hcard)
      · rw [if_neg (by simpa using hfull)]
        exact h.stamped ((length_filter_le _ _).trans_lt (by omega))

/-- Behind every run the cache holds the pairs of the ideal map and answers as it does, with a queue of
at most twice the capacity. -/
theorem planCache_exact {κ σ π : Type} [DecidableEq κ] [DecidableEq σ] {n : ℕ} {hash : σ → κ}
    (hhash : hash.Injective) (hn : 1 ≤ n) (ops : List (Op σ π)) :
    let c := exec (step n hash) ⟨[],[],0⟩ ops
    let L := exec (idealStep n) [] ops
    c.entries.map (fun x => (x.1,x.2.normalizedSource,x.2.plan)) = L.map (fun x => (hash x.1,x)) ∧
      (∀ s, (get n (hash s) s c).1 = idealGet s L) ∧ (L.map Prod.fst).Nodup ∧ L.length ≤ n ∧
      c.recency.length ≤ 2*n := by
  have h : Tracks n hash (exec (step n hash) ⟨[],[],0⟩ ops) (exec (idealStep n) [] ops) := by
    induction ops using reverseRecOn with
    | nil => exact ⟨⟨hhash,rfl,rfl,nodup_nil,by simp⟩,by simp,by simp⟩
    | append_singleton ops op ih =>
      rw [exec_append,exec_append]
      exact tracks_step hn op ih
  exact ⟨h.pairs,fun s => by rw [h.get_eq],h.nodup,h.card,h.short⟩

theorem planCache_exact_pair : (get 1 2 2 (exec (step 1 id) ⟨[],[],0⟩ [.put 1 5,.put 2 6])).1 =
    some 6 :=
  ((planCache_exact Function.injective_id le_rfl [.put 1 5,.put 2 6]).2.1 2).trans rfl
end Hirn.PlanCache
