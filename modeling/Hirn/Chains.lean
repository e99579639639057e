import Mathlib

/-! Chains of revisions in a store of rows, and a cache of the newest revision of each chain.
A store is written by appending rows and by deleting the rows of an id or of a chain. -/
namespace Hirn.Chains
open List Bool
variable {ρ : Type*}

/-- Rows, and the cached head of each chain. -/
structure Store (ρ : Type*) where
  rows : List ρ
  heads : ℕ → Option ρ

variable {x : ρ} {c c' : ℕ} {s : Store ρ}

namespace Store

def empty : Store ρ := ⟨[],fun _ => none⟩
def append (s : Store ρ) (rs : List ρ) : Store ρ := {s with rows := s.rows++rs}
def evict (s : Store ρ) (c : ℕ) : Store ρ := {s with heads := Function.update s.heads c none}

/-- A revision that a reader of the store can get, from a row or from the cache. -/
def Present (s : Store ρ) (r : ρ) : Prop := r ∈ s.rows ∨ ∃ c, s.heads c = some r
@[simp] theorem rows_append (rs : List ρ) : (s.append rs).rows = s.rows++rs := rfl
@[simp] theorem heads_append (rs : List ρ) : (s.append rs).heads = s.heads := rfl
@[simp] theorem rows_evict : (s.evict c).rows = s.rows := rfl

theorem heads_evict_of_ne (hc : c' ≠ c) : (s.evict c).heads c' = s.heads c' :=
  Function.update_of_ne hc _ _

@[simp] theorem heads_evict_self : (s.evict c).heads c = none := Function.update_self _ _ _

theorem cached_evict (h : (s.evict c).heads c' = some x) : s.heads c' = some x ∧ c' ≠ c := by
  by_cases hc : c' = c
  · subst hc
    simp at h
  · exact ⟨by rwa [heads_evict_of_ne hc] at h,hc⟩

theorem Present.of_append {rs : List ρ} (h : (s.append rs).Present x) : s.Present x ∨ x ∈ rs := by
  rcases h with h | h
  · rcases mem_append.mp h with h | h
    · exact .inl (.inl h)
    · exact .inr h
  · exact .inl (.inr h)

theorem Present.of_evict (h : (s.evict c).Present x) : s.Present x := by
  rcases h with h | ⟨c',h⟩
  · exact .inl h
  · exact .inr ⟨c',(cached_evict h).1⟩
end Store
variable {t : Store ρ} {y : ρ}

section
variable {κ ν : Type*} (k : ρ → κ) (v : ρ → ν)

/-- Revisions with the same `k` have the same `v`. -/
def Determines (s : Store ρ) : Prop :=
  ∀ r r', s.Present r → s.Present r' → k r = k r' → v r = v r'

/-- The revision has the `v` of every revision with its `k`. -/
def Fits (s : Store ρ) (x : ρ) : Prop := ∀ r, s.Present r → k r = k x → v r = v x

variable {k v} (h : Determines k v s)
include h

theorem Determines.fits (hy : s.Present y) (hk : k x = k y) (hv : v x = v y) : Fits k v s x :=
  fun r hr hkr => (h r y hr hy (hkr.trans hk)).trans hv.symm

theorem Determines.mono (hsub : ∀ r, t.Present r → s.Present r) :
    Determines k v t := fun r r' hr hr' => h r r' (hsub r hr) (hsub r' hr')

theorem Determines.grow (xs : List ρ) (hsub : ∀ r, t.Present r → s.Present r ∨ r ∈ xs)
    (hfit : ∀ x ∈ xs, Fits k v s x)
    (hxs : ∀ x ∈ xs, ∀ y ∈ xs, k x = k y → v x = v y) : Determines k v t := by
  intro r r' hr hr' hk
  rcases hsub r hr with hr | hr <;> rcases hsub r' hr' with hr' | hr'
  · exact h r r' hr hr' hk
  · exact hfit r' hr' r hr hk
  · exact (hfit r hr r' hr' hk.symm).symm
  · exact hxs r hr r' hr' hk
end

/-- What identifies a revision and places it in its chain. -/
class Revision (ρ : Type*) where
  key : ρ → ℕ
  chain : ρ → ℕ
  revision : ρ → ℕ
  version : ρ → ℕ
  recordedAt : ρ → ℤ

open Revision
variable [Revision ρ]

def newer (candidate current : ρ) : Bool :=
  version candidate > version current ||
    (version candidate == version current &&
      (recordedAt candidate > recordedAt current ||
        (recordedAt candidate == recordedAt current && revision candidate > revision current)))

def earlier (a b : ρ) : Bool :=
  version a < version b || (version a == version b && recordedAt a < recordedAt b)

def rank (r : ρ) : ℕ ×ₗ ℤ ×ₗ ℕ := toLex (version r,toLex (recordedAt r,revision r))
def age (r : ρ) : ℕ ×ₗ ℤ := toLex (version r,recordedAt r)

theorem newer_iff (a b : ρ) : newer a b ↔ rank b < rank a := by
  simp only [newer,rank,Prod.Lex.toLex_lt_toLex,or_eq_true,and_eq_true,
    decide_eq_true_eq,beq_iff_eq,gt_iff_lt]
  grind

theorem earlier_iff (a b : ρ) : earlier a b ↔ age a < age b := by
  simp [earlier,age,Prod.Lex.toLex_lt_toLex]

/-- How a backend orders the rows of a scan: by the keys, and equal keys in its own way. -/
structure Backend (ρ : Type*) [Revision ρ] where
  (latest oldest : List ρ → List ρ)
  latest_perm : ∀ rows, (latest rows).Perm rows
  oldest_perm : ∀ rows, (oldest rows).Perm rows
  latest_sorted : ∀ rows, (latest rows).Pairwise fun a b => newer b a = false
  oldest_sorted : ∀ rows, (oldest rows).Pairwise fun a b => earlier b a = false

instance : Std.Total fun a b : ρ => newer b a = false :=
  ⟨fun a b => by simp [Bool.eq_false_iff,newer_iff,le_total]⟩

instance : IsTrans ρ fun a b => newer b a = false :=
  ⟨fun a b c hab hbc => by simp_all [Bool.eq_false_iff,newer_iff]; exact hbc.trans hab⟩

instance : Std.Total fun a b : ρ => earlier b a = false :=
  ⟨fun a b => by simp [Bool.eq_false_iff,earlier_iff,le_total]⟩

instance : IsTrans ρ fun a b => earlier b a = false :=
  ⟨fun a b c hab hbc => by simp_all [Bool.eq_false_iff,earlier_iff]; exact hab.trans hbc⟩

/-- A backend that leaves rows with equal keys in the order of the store. -/
def Backend.stable : Backend ρ where
  latest := List.insertionSort fun a b => newer b a = false
  oldest := List.insertionSort fun a b => earlier b a = false
  latest_perm := perm_insertionSort _
  oldest_perm := perm_insertionSort _
  latest_sorted := pairwise_insertionSort _
  oldest_sorted := pairwise_insertionSort _

variable {closed : Option ρ} {r : ρ}

namespace Store
variable (b : Backend ρ) (s : Store ρ) (c : ℕ)

def chainRows : List ρ := s.rows.filter (chain · == c)
def find (i : ℕ) : Option ρ := s.rows.find? (key · == i)
def dropKey (i : ℕ) : Store ρ := {s with rows := s.rows.filter (key · != i)}
def dropChain : Store ρ := {s with rows := s.rows.filter (chain · != c)}
def put (r : ρ) : Store ρ := {s with heads := Function.update s.heads (chain r) (some r)}

def cacheHead (r : ρ) : Store ρ :=
  match s.heads (chain r) with
  | some current => if newer r current then s.put r else s
  | none => s.put r

def collapse (rows : List ρ) : ℕ → Option ρ := (rows.foldl cacheHead empty).heads
def loadHead : Option ρ := (b.latest (s.chainRows c)).head?

def headFor : Option ρ := (s.heads c).or (s.loadHead b c)

def touch : Store ρ :=
  match s.heads c with
  | some _ => s
  | none =>
    match s.loadHead b c with
    | some r => s.cacheHead r
    | none => s.evict c

def overwrite (r : ρ) : Store ρ := ((s.dropKey (key r)).append [r]).evict (chain r)

/-- Append a successor, replace the predecessor's row if asked to, cache the successor. -/
def succeed (next : ρ) (closed : Option ρ) : Store ρ :=
  (match closed with
    | some r => (s.append [next]).overwrite r
    | none => s.append [next]).cacheHead next

def Indexed : Prop := ∀ c r, s.heads c = some r → chain r = c

variable {b s} {c} {next h : ρ}

@[simp] theorem rows_put : (s.put r).rows = s.rows := rfl
@[simp] theorem heads_put_self : (s.put r).heads (chain r) = some r := Function.update_self _ _ _

@[simp] theorem rows_cacheHead : (s.cacheHead r).rows = s.rows := by
  unfold cacheHead
  split
  · split <;> rfl
  · rfl

theorem heads_cacheHead_of_ne (hc : c ≠ chain r) : (s.cacheHead r).heads c = s.heads c := by
  unfold cacheHead
  split
  · split
    · exact Function.update_of_ne hc _ _
    · rfl
  · exact Function.update_of_ne hc _ _

theorem heads_cacheHead_self (h : ∀ x, s.heads (chain r) = some x → newer r x) :
    (s.cacheHead r).heads (chain r) = some r := by
  unfold cacheHead
  split
  next x hx => simp [h x hx]
  next hx => simp

theorem cached_cacheHead (h : (s.cacheHead r).heads c = some x) :
    s.heads c = some x ∨ x = r ∧ c = chain r := by
  by_cases hc : c = chain r
  · subst hc
    unfold cacheHead at h
    split at h
    · split at h
      · exact .inr ⟨by simpa using h.symm,rfl⟩
      · exact .inl h
    · exact .inr ⟨by simpa using h.symm,rfl⟩
  · exact .inl (by rwa [heads_cacheHead_of_ne hc] at h)

theorem mem_chainRows : r ∈ s.chainRows c ↔ r ∈ s.rows ∧ chain r = c := by simp [chainRows]

theorem mem_of_loadHead (h : s.loadHead b c = some r) : r ∈ s.rows ∧ chain r = c :=
  mem_chainRows.mp ((b.latest_perm _).mem_iff.mp (mem_of_mem_head? h))

theorem loadHead_eq_none : s.loadHead b c = none ↔ ∀ r ∈ s.rows, chain r ≠ c := by
  rw [loadHead,head?_eq_none_iff]
  constructor
  · intro h r hr hc
    have hmem := (b.latest_perm (s.chainRows c)).mem_iff.mpr (mem_chainRows.mpr ⟨hr,hc⟩)
    simp [h] at hmem
  · intro h
    rw [eq_nil_iff_forall_not_mem]
    intro r hr
    obtain ⟨hrow,hc⟩ := mem_chainRows.mp ((b.latest_perm _).mem_iff.mp hr)
    exact h r hrow hc

theorem loadHead_congr (h : s.chainRows c = t.chainRows c) :
    s.loadHead b c = t.loadHead b c := by rw [loadHead,h,loadHead]

theorem headFor_congr (hrows : s.chainRows c = t.chainRows c)
    (hheads : s.heads c = t.heads c) : s.headFor b c = t.headFor b c := by
  rw [headFor,hheads,loadHead_congr hrows,headFor]

theorem Indexed.chain_headFor (hs : s.Indexed) (h : s.headFor b c = some r) : chain r = c := by
  rcases hc : s.heads c with _ | x
  · rw [headFor,hc] at h
    exact (mem_of_loadHead h).2
  · rw [headFor,hc] at h
    cases h
    exact hs c _ hc

theorem present_of_headFor (h : s.headFor b c = some r) : s.Present r := by
  rcases hc : s.heads c with _ | x
  · rw [headFor,hc] at h
    exact .inl (mem_of_loadHead h).1
  · rw [headFor,hc] at h
    cases h
    exact .inr ⟨c,hc⟩

theorem headFor_of_row (hr : r ∈ s.rows) (hc : chain r = c) : ∃ h, s.headFor b c = some h := by
  rcases hcached : s.heads c with _ | x
  · rcases hload : s.loadHead b c with _ | x
    · exact absurd hc (loadHead_eq_none.mp hload r hr)
    · exact ⟨x,by simp [headFor,hcached,hload]⟩
  · exact ⟨x,by simp [headFor,hcached]⟩

variable {i : ℕ}

theorem find_eq_some (h : s.find i = some r) : r ∈ s.rows ∧ key r = i := by
  have hi := find?_some h
  exact ⟨mem_of_find?_eq_some h,by simpa using hi⟩

theorem find_congr (h : s.rows = t.rows) : s.find i = t.find i := by
  rw [find,h,find]

theorem find_eq_none (h : ∀ x, s.Present x → key x ≠ i) : s.find i = none := by
  rw [find,find?_eq_none]
  intro x hx
  simpa using h x (.inl hx)

theorem find_append (rs : List ρ) (h : s.find i = some r) : (s.append rs).find i = some r := by
  rw [find] at h
  simp [find,h]

theorem find_append_new (h : ∀ x, s.Present x → key x ≠ key r) :
    (s.append [r]).find (key r) = some r := by
  have hnone := find_eq_none h
  rw [find] at hnone
  simp [find,hnone]

@[simp] theorem rows_touch : (s.touch b c).rows = s.rows := by
  unfold touch
  split
  · rfl
  · split
    · exact rows_cacheHead
    · rfl

theorem heads_touch_of_ne (hc : c' ≠ c) : (s.touch b c).heads c' = s.heads c' := by
  unfold touch
  split
  · rfl
  · split
    next r hr => exact heads_cacheHead_of_ne ((mem_of_loadHead hr).2 ▸ hc)
    · exact Function.update_of_ne hc _ _

theorem heads_touch_self : (s.touch b c).heads c = s.headFor b c := by
  unfold touch
  split
  next r hr => simp [headFor,hr]
  next hnone =>
    split
    next r hr =>
      obtain ⟨-,rfl⟩ := mem_of_loadHead hr
      rw [heads_cacheHead_self (by simp [hnone])]
      simp [headFor,hnone,hr]
    next hr => simp [headFor,hnone,hr]

@[simp] theorem chainRows_touch : (s.touch b c).chainRows c' = s.chainRows c' := by
  rw [chainRows,rows_touch,chainRows]

@[simp] theorem headFor_touch : (s.touch b c).headFor b c' = s.headFor b c' := by
  by_cases hc : c' = c
  · subst hc
    rw [headFor,heads_touch_self,loadHead_congr chainRows_touch]
    rcases hh : s.headFor b c' with _ | x
    · rw [headFor,Option.or_eq_none_iff] at hh
      simp [hh.2]
    · rfl
  · exact headFor_congr chainRows_touch (heads_touch_of_ne hc)

section
variable (hs : s.Indexed)
include hs

theorem Indexed.touch : (s.touch b c).Indexed := by
  intro c' r hr
  by_cases hc : c' = c
  · subst hc
    rw [heads_touch_self] at hr
    exact hs.chain_headFor hr
  · rw [heads_touch_of_ne hc] at hr
    exact hs c' r hr

theorem Indexed.cacheHead : (s.cacheHead r).Indexed := by
  intro c x hx
  rcases cached_cacheHead hx with h | ⟨rfl,rfl⟩
  · exact hs c x h
  · rfl

theorem Indexed.evict : (s.evict c).Indexed :=
  fun c' x hx => hs c' x (cached_evict hx).1

theorem Indexed.overwrite : (s.overwrite r).Indexed :=
  Indexed.evict (s := (s.dropKey (key r)).append [r]) hs

theorem Indexed.succeed : (s.succeed next closed).Indexed := by
  cases closed with
  | none => exact Indexed.cacheHead (s := s.append [next]) hs
  | some r => exact (Indexed.overwrite (s := s.append [next]) hs).cacheHead
end

theorem Present.of_touch (h : (s.touch b c).Present r) : s.Present r := by
  rcases h with h | ⟨c',h⟩
  · exact .inl (by simpa using h)
  · by_cases hc : c' = c
    · subst hc
      rw [heads_touch_self] at h
      exact present_of_headFor h
    · rw [heads_touch_of_ne hc] at h
      exact .inr ⟨c',h⟩

theorem Present.of_cacheHead (h : (s.cacheHead r).Present x) : s.Present x ∨ x = r := by
  rcases h with h | ⟨c,h⟩
  · exact .inl (.inl (by simpa using h))
  · rcases cached_cacheHead h with h | h
    · exact .inl (.inr ⟨c,h⟩)
    · exact .inr h.1

theorem Present.of_dropKey (h : (s.dropKey i).Present x) : s.Present x := by
  rcases h with h | h
  · exact .inl (mem_of_mem_filter h)
  · exact .inr h

theorem Present.of_dropChain (h : (s.dropChain c).Present x) : s.Present x := by
  rcases h with h | h
  · exact .inl (mem_of_mem_filter h)
  · exact .inr h

theorem Present.of_overwrite (h : (s.overwrite r).Present x) : s.Present x ∨ x = r := by
  rcases Present.of_append (Present.of_evict h) with h | h
  · exact .inl h.of_dropKey
  · exact .inr (by simpa using h)

theorem Present.of_succeed (h : (s.succeed next closed).Present x) :
    s.Present x ∨ x = next ∨ closed = some x := by
  rcases Present.of_cacheHead h with h | h
  · cases closed with
    | none => exact (Present.of_append h).imp_right fun h => .inl (by simpa using h)
    | some r =>
      rcases Present.of_overwrite h with h | rfl
      · exact (Present.of_append h).imp_right fun h => .inl (by simpa using h)
      · exact .inr (.inr rfl)
  · exact .inr (.inl h)
end Store

def Newest (rows : List ρ) (r : ρ) : Prop := r ∈ rows ∧ ∀ x ∈ rows, chain x = chain r →
    newer x r = false

instance [DecidableEq ρ] (rows : List ρ) (r : ρ) : Decidable (Newest rows r) :=
  inferInstanceAs (Decidable (_ ∧ _))

variable {rows : List ρ}

theorem newer_self (r : ρ) : newer r r = false := by simp [eq_false_iff,newer_iff]

theorem newer_eq_false_trans (hxr : newer x r = false) (hry : newer r y = false) :
    newer x y = false := by
  simp only [eq_false_iff,ne_eq,newer_iff,not_lt] at *
  exact hxr.trans hry

theorem newer_asymm (h : newer r x) : newer x r = false := by
  rw [newer_iff] at h
  simp [eq_false_iff,newer_iff,h.le]

theorem collapse_append_singleton : Store.collapse (rows++[x]) =
    ((rows.foldl Store.cacheHead Store.empty).cacheHead x).heads := by
  simp [Store.collapse]

theorem collapse_eq_none : Store.collapse rows c = none ↔ ∀ r ∈ rows, chain r ≠ c := by
  induction rows using List.reverseRecOn with
  | nil => simp [Store.collapse,Store.empty]
  | append_singleton rows x ih =>
    rw [collapse_append_singleton]
    by_cases hc : c = chain x
    · subst hc
      unfold Store.cacheHead
      constructor
      · intro h
        split at h
        · split at h <;> simp_all [Store.put]
        · simp at h
      · intro h
        exact absurd rfl (h x (by simp))
    · rw [Store.heads_cacheHead_of_ne hc,← Store.collapse,ih,forall_mem_append,forall_mem_singleton]
      exact (and_iff_left (Ne.symm hc)).symm

theorem newest_of_collapse (h : Store.collapse rows c = some r) : Newest rows r ∧ chain r = c := by
  induction rows using List.reverseRecOn generalizing r with
  | nil => simp [Store.collapse,Store.empty] at h
  | append_singleton rows x ih =>
    rw [collapse_append_singleton] at h
    by_cases hc : c = chain x
    · subst hc
      unfold Store.cacheHead at h
      split at h
      next current hcurrent =>
        obtain ⟨⟨hmem,hnewest⟩,hchain⟩ := ih hcurrent
        split at h
        next hnewer =>
          have hr : x = r := by simpa using h
          subst hr
          refine ⟨⟨by simp,?_⟩,rfl⟩
          intro y hy hyx
          rcases mem_append.mp hy with hy | hy
          · exact newer_eq_false_trans (hnewest y hy (hyx.trans hchain.symm)) (newer_asymm hnewer)
          · rw [mem_singleton.mp hy]
            exact newer_self x
        next hnewer =>
          have hr : current = r := by simpa [hcurrent] using h
          subst hr
          refine ⟨⟨by simp [hmem],?_⟩,hchain⟩
          intro y hy hyx
          rcases mem_append.mp hy with hy | hy
          · exact hnewest y hy hyx
          · rw [mem_singleton.mp hy]
            exact eq_false_iff.mpr hnewer
      next hnone =>
        have hr : x = r := by simpa using h
        subst hr
        refine ⟨⟨by simp,?_⟩,rfl⟩
        intro y hy hyx
        rcases mem_append.mp hy with hy | hy
        · exact absurd hyx (collapse_eq_none.mp hnone y hy)
        · rw [mem_singleton.mp hy]
          exact newer_self x
    · rw [Store.heads_cacheHead_of_ne hc] at h
      obtain ⟨⟨hmem,hnewest⟩,hchain⟩ := ih h
      refine ⟨⟨by simp [hmem],?_⟩,hchain⟩
      intro y hy hyr
      rcases mem_append.mp hy with hy | hy
      · exact hnewest y hy hyr
      · rw [mem_singleton.mp hy] at hyr
        exact absurd (hyr.trans hchain).symm hc

theorem Newest.unique (hrows : ∀ r ∈ rows, ∀ x ∈ rows, revision r = revision x → r = x)
    (hr : Newest rows r) (hx : Newest rows x) (hc : chain r = chain x) : r = x := by
  have hrx := hr.2 x hx.1 hc.symm
  have hxr := hx.2 r hr.1 hc
  simp only [eq_false_iff,ne_eq,newer_iff,not_lt] at hrx hxr
  have hrank := le_antisymm hrx hxr
  refine hrows r hr.1 x hx.1 ?_
  simp only [rank,EmbeddingLike.apply_eq_iff_eq,Prod.mk.injEq] at hrank
  exact hrank.2.2.symm

theorem Newest.version_le (hr : Newest rows r) (hx : x ∈ rows) (hc : chain x = chain r) :
    version x ≤ version r := by
  have hnewer := hr.2 x hx hc
  rw [newer,or_eq_false_iff] at hnewer
  simpa using hnewer.1

theorem Newest.append {new : List ρ} (h : Newest rows r)
    (hnew : ∀ x ∈ new, chain x = chain r → newer x r = false) : Newest (rows++new) r :=
  ⟨mem_append_left _ h.1,fun y hy hc => (mem_append.mp hy).elim (fun hy => h.2 y hy hc) fun hy =>
  hnew y hy hc⟩

theorem Newest.filter {p : ρ → Bool} (h : Newest rows r) (hr : p r) : Newest (rows.filter p) r :=
  ⟨mem_filter.mpr ⟨h.1,hr⟩,fun y hy => h.2 y (mem_of_mem_filter hy)⟩

theorem newest_of_loadHead {b : Backend ρ} (h : s.loadHead b c = some r) : Newest s.rows r := by
  obtain ⟨hmem,hc⟩ := Store.mem_of_loadHead h
  refine ⟨hmem,fun x hx hxr => ?_⟩
  have hlisted : x ∈ b.latest (s.chainRows c) :=
    (b.latest_perm _).mem_iff.mpr (Store.mem_chainRows.mpr ⟨hx,hxr.trans hc⟩)
  obtain ⟨rest,hrest⟩ := head?_eq_some_iff.mp h
  have hsorted := b.latest_sorted (s.chainRows c)
  rw [hrest] at hlisted hsorted
  rcases mem_cons.mp hlisted with rfl | hlater
  · exact newer_self x
  · exact rel_of_pairwise_cons hsorted hlater

theorem collapse_eq_some (hrows : ∀ r ∈ rows, ∀ x ∈ rows, revision r = revision x → r = x) :
    Store.collapse rows c = some r ↔ Newest rows r ∧ chain r = c := by
  constructor
  · exact newest_of_collapse
  · rintro ⟨hr,hc⟩
    cases h : Store.collapse rows c with
    | none => exact absurd hc (collapse_eq_none.mp h r hr.1)
    | some x =>
      obtain ⟨hx,hxc⟩ := newest_of_collapse h
      rw [hr.unique hrows hx (hc.trans hxc.symm)]
end Hirn.Chains
