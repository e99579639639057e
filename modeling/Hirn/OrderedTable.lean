import Mathlib

/-! Tables with one row a key, in the order of their keys. -/
namespace Hirn
open List

@[ext] structure OrderedTable (κ ν : Type) [LinearOrder κ] where
  rows : List (κ × ν)
  sorted : rows.Pairwise fun a b => a.1 < b.1

namespace OrderedTable
variable {κ ν ξ : Type} [LinearOrder κ]

def empty : OrderedTable κ ν := ⟨[],.nil⟩

variable (t : OrderedTable κ ν)

def keep (p : κ → Bool) : OrderedTable κ ν :=
  ⟨t.rows.filter fun r => p r.1,t.sorted.filter _⟩

def insert (k : κ) (v : ν) : OrderedTable κ ν where
  rows := t.rows.filter (fun r => decide (r.1 < k))++(k,v)::t.rows.filter fun r => decide (k < r.1)
  sorted := by
    simp only [pairwise_append,pairwise_cons,mem_filter,mem_cons,decide_eq_true_eq]
    refine ⟨t.sorted.filter _,⟨fun r hr => hr.2,t.sorted.filter _⟩,?_⟩
    rintro a ⟨-,ha⟩ b (rfl | ⟨-,hb⟩)
    · exact ha
    · exact ha.trans hb

def remove (k : κ) : OrderedTable κ ν := t.keep fun j => decide (j ≠ k)
def keys : List κ := t.rows.map Prod.fst
def values : List ν := t.rows.map Prod.snd
def lookup (k : κ) : Option ν := (t.rows.find? fun r => decide (r.1 = k)).map Prod.snd

def last? : Option (κ × ν) := t.rows.getLast?

def map (g : ν → ξ) (t : OrderedTable κ ν) : OrderedTable κ ξ :=
  ⟨t.rows.map fun r => (r.1,g r.2),t.sorted.map _ fun _ _ h => h⟩

variable {t : OrderedTable κ ν} {k : κ} {v : ν} {p : κ → Bool}

@[simp] theorem rows_empty : (empty : OrderedTable κ ν).rows = [] := rfl
@[simp] theorem map_empty (g : ν → ξ) : (empty : OrderedTable κ ν).map g = empty := rfl
theorem mem_keep {r : κ × ν} : r ∈ (t.keep p).rows ↔ r ∈ t.rows ∧ p r.1 := mem_filter

theorem mem_insert {r : κ × ν} : r ∈ (t.insert k v).rows ↔ r = (k,v) ∨ r ∈ t.rows ∧ r.1 ≠ k := by
  simp only [insert,mem_append,mem_cons,mem_filter,decide_eq_true_eq]
  constructor
  · rintro (⟨hr,hlt⟩ | rfl | ⟨hr,hlt⟩)
    · exact .inr ⟨hr,hlt.ne⟩
    · exact .inl rfl
    · exact .inr ⟨hr,hlt.ne'⟩
  · rintro (rfl | ⟨hr,hne⟩)
    · exact .inr (.inl rfl)
    · rcases lt_or_gt_of_ne hne with hlt | hlt
      · exact .inl ⟨hr,hlt⟩
      · exact .inr (.inr ⟨hr,hlt⟩)

theorem value_unique {v' : ν} (h : (k,v) ∈ t.rows) (h' : (k,v') ∈ t.rows) : v = v' := by
  by_contra hne
  have hkeys : t.rows.Pairwise fun a b => a.1 ≠ b.1 := t.sorted.imp fun h => h.ne
  have : Std.Symm fun a b : κ × ν => a.1 ≠ b.1 := ⟨fun _ _ h => h.symm⟩
  exact hkeys.forall h h' (fun heq => hne (congrArg Prod.snd heq)) rfl

theorem lookup_eq_some : t.lookup k = some v ↔ (k,v) ∈ t.rows := by
  rw [lookup,Option.map_eq_some_iff]
  constructor
  · rintro ⟨r,hr,rfl⟩
    have hkey : r.1 = k := by simpa using find?_some hr
    rw [← hkey]
    exact mem_of_find?_eq_some hr
  · intro h
    have hfound : (t.rows.find? fun r => decide (r.1 = k)).isSome := find?_isSome.mpr ⟨(k,v),h,by simp⟩
    obtain ⟨r,hr⟩ := Option.isSome_iff_exists.mp hfound
    have hkey : r.1 = k := by simpa using find?_some hr
    refine ⟨r,hr,value_unique (k := k) ?_ h⟩
    rw [← hkey]
    exact mem_of_find?_eq_some hr

theorem lookup_congr {t' : OrderedTable κ ν} {k' : κ} (h : ∀ v, (k,v) ∈ t.rows ↔ (k',v) ∈ t'.rows) :
    t.lookup k = t'.lookup k' := by
  ext v
  simp [lookup_eq_some,h v]

@[simp] theorem lookup_empty : (empty : OrderedTable κ ν).lookup k = none := rfl

theorem lookup_insert_self : (t.insert k v).lookup k = some v := by
  rw [lookup_eq_some,mem_insert]
  exact .inl rfl

theorem lookup_insert_of_ne {j : κ} (h : j ≠ k) : (t.insert k v).lookup j = t.lookup j := by
  refine lookup_congr fun w => ?_
  simp [mem_insert,h]

theorem lookup_keep : (t.keep p).lookup k = if p k then t.lookup k else none := by
  split
  · rename_i hp
    exact lookup_congr fun w => by simp [mem_keep,hp]
  · rename_i hp
    rw [Option.eq_none_iff_forall_not_mem]
    intro w hw
    exact hp (mem_keep.mp (lookup_eq_some.mp hw)).2

theorem lookup_remove_self : (t.remove k).lookup k = none := by
  simp [remove,lookup_keep]

theorem lookup_remove_of_ne {j : κ} (h : j ≠ k) : (t.remove k).lookup j = t.lookup j := by
  simp [remove,lookup_keep,h]

theorem length_keep_le : (t.keep p).rows.length ≤ t.rows.length := length_filter_le _ _

theorem length_remove_lt (h : t.lookup k = some v) : (t.remove k).rows.length < t.rows.length := by
  refine length_filter_lt_length_iff_exists.mpr ⟨(k,v),lookup_eq_some.mp h,?_⟩
  simp

theorem length_insert_le : (t.insert k v).rows.length ≤ t.rows.length+1 := by
  have hdisjoint : ∀ rows : List (κ × ν), (rows.filter fun r => decide (r.1 < k)).length +
      (rows.filter fun r => decide (k < r.1)).length ≤ rows.length := by
    intro rows
    induction rows with
    | nil => simp
    | cons r rows ih =>
      rcases lt_trichotomy r.1 k with h | h | h
      · simp only [filter_cons,h,h.not_gt,decide_true,decide_false,if_true,Bool.false_eq_true,
          if_false,length_cons]
        omega
      · simp only [filter_cons,h,lt_irrefl,decide_false,Bool.false_eq_true,if_false,length_cons]
        omega
      · simp only [filter_cons,h,h.not_gt,decide_true,decide_false,if_true,Bool.false_eq_true,
          if_false,length_cons]
        omega
  have := hdisjoint t.rows
  simp only [insert,length_append,length_cons]
  omega

theorem le_last {r l : κ × ν} (hr : r ∈ t.rows) (hl : t.last? = some l) : r.1 ≤ l.1 := by
  obtain ⟨front,hfront⟩ := getLast?_eq_some_iff.mp hl
  have hsorted := t.sorted
  rw [hfront] at hr hsorted
  rcases mem_append.mp hr with hr | hr
  · exact ((pairwise_append.mp hsorted).2.2 r hr l (by simp)).le
  · rw [mem_singleton.mp hr]

theorem mem_of_last {l : κ × ν} (hl : t.last? = some l) : l ∈ t.rows := mem_of_getLast? hl

theorem last_insert (h : ∀ r ∈ t.rows, r.1 < k) : (t.insert k v).last? = some (k,v) := by
  have hnone : (t.rows.filter fun r => decide (k < r.1)) = [] := by
    refine filter_eq_nil_iff.mpr fun r hr => ?_
    simpa using (h r hr).le
  simp [last?,insert,hnone]

theorem foldl_remove (ks : List κ) : ks.foldl remove t = t.keep fun j => decide (j ∉ ks) := by
  induction ks generalizing t with
  | nil => simp [keep]
  | cons k ks ih =>
    rw [foldl_cons,ih]
    simp only [remove,keep,filter_filter,OrderedTable.mk.injEq]
    congr 1
    funext r
    by_cases h : r.1 = k <;> simp [h]

theorem foldl_remove_keys : (t.keys.filter fun j => !p j).foldl remove t = t.keep p := by
  rw [foldl_remove]
  simp only [keep,OrderedTable.mk.injEq]
  refine filter_congr fun r hr => ?_
  have hkey : r.1 ∈ t.keys := mem_map_of_mem hr
  cases hp : p r.1 <;> simp [hp,hkey]

variable (g : ν → ξ)

theorem map_keep : (t.keep p).map g = (t.map g).keep p := by
  simp [map,keep,filter_map,Function.comp_def]

theorem map_insert : (t.insert k v).map g = (t.map g).insert k (g v) := by
  simp [map,insert,filter_map,Function.comp_def]

theorem last_map : (t.map g).last? = t.last?.map fun r => (r.1,g r.2) := by
  rw [last?,map,getLast?_map,last?]
end OrderedTable
end Hirn
