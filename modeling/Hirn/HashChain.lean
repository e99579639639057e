import Mathlib

/-! Lists whose entries carry a tag and the tag of their predecessor. Where the tags belong to one
entry each, an entry that names a tag can stand at one place only. -/
namespace Hirn.HashChain
variable {ε τ : Type*} (prev tag : ε → Option τ)

/-- Each entry names the tag of the one before it, the first one the given tag. -/
def Linked : Option τ → List ε → Prop
  | _, [] => True
  | t, e::es => prev e = t ∧ Linked (tag e) es

def lastTag (t : Option τ) (es : List ε) : Option τ := es.foldl (fun _ e => tag e) t

variable {prev tag}

@[simp] theorem lastTag_nil : lastTag tag t [] = t := rfl

@[simp] theorem lastTag_concat : lastTag tag t (es++[e]) = tag e := by
  rw [lastTag,List.foldl_append]
  rfl

theorem lastTag_of_getLast? (h : es.getLast? = some e) : lastTag tag t es = tag e := by
  obtain ⟨ds,rfl⟩ := List.getLast?_eq_some_iff.mp h
  exact lastTag_concat

theorem linked_append : Linked prev tag t (es++fs) ↔ Linked prev tag t es ∧
    Linked prev tag (lastTag tag t es) fs := by
  induction es generalizing t with
  | nil => simp [Linked]
  | cons e es ih =>
    rw [List.cons_append,Linked,Linked,ih,and_assoc]
    rfl

theorem linked_congr (h : List.Forall₂ (fun e g => prev e = prev g ∧ tag e = tag g) es fs) :
    Linked prev tag t es ↔ Linked prev tag t fs := by
  induction h generalizing t with
  | nil => rfl
  | cons hhead _ ih => rw [Linked,Linked,hhead.1,hhead.2,ih]

theorem Linked.prev_zero (h : Linked prev tag t es) (he : es[0]? = some e) : prev e = t := by
  cases es with
  | nil => cases he
  | cons d es =>
    obtain rfl : d = e := Option.some.inj he
    exact h.1

theorem Linked.prev_succ {i : ℕ} (h : Linked prev tag t es)
    (he : es[i]? = some e) (hg : es[i+1]? = some g) : prev g = tag e := by
  induction es generalizing t i with
  | nil => cases he
  | cons d es ih =>
    cases i with
    | zero =>
      obtain rfl : d = e := Option.some.inj he
      exact h.2.prev_zero hg
    | succ i => exact ih h.2 he hg

theorem Linked.next {i : ℕ} (h : Linked prev tag none es) (hnodup : es.Nodup) (he : es[i]? = some e)
    (hown : ∀ d ∈ es, tag d = t → d = e) (ht : t ≠ none) (hg : g ∈ es) (hprev : prev g = t) :
    es[i+1]? = some g := by
  obtain ⟨j,hj⟩ := List.mem_iff_getElem?.mp hg
  cases j with
  | zero => exact absurd ((h.prev_zero hj).symm.trans hprev).symm ht
  | succ j =>
    obtain ⟨hlt,-⟩ := List.getElem?_eq_some_iff.mp hj
    have hd : es[j]? = some es[j] := List.getElem?_eq_getElem (by omega)
    have hde : es[j] = e := hown _ (List.getElem_mem _) ((h.prev_succ hd hj).symm.trans hprev)
    obtain ⟨hi,hei⟩ := List.getElem?_eq_some_iff.mp he
    have hij : j = i := (List.Nodup.getElem_inj_iff hnodup).mp (hde.trans hei.symm)
    rwa [hij] at hj

theorem Linked.first (h : Linked prev tag none es) (htags : ∀ d ∈ es, tag d ≠ none) (hg : g ∈ es)
    (hprev : prev g = none) : es[0]? = some g := by
  obtain ⟨j,hj⟩ := List.mem_iff_getElem?.mp hg
  cases j with
  | zero => exact hj
  | succ j =>
    obtain ⟨hlt,-⟩ := List.getElem?_eq_some_iff.mp hj
    have hd : es[j]? = some es[j] := List.getElem?_eq_getElem (by omega)
    exact absurd ((h.prev_succ hd hj).symm.trans hprev) (htags _ (List.getElem_mem _))
end Hirn.HashChain
