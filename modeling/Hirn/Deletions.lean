import Mathlib

/-! Deleting the patterns of a table from a text, each of them once over, in the table's order.
Where the patterns never overlap, none of them is left exactly if no deletions, in whatever
order, make one that is interrupted by itself or by one behind it in the table. -/
namespace Hirn.Deletions
open List
variable {α : Type*} {a b p q : List α}

section
variable [DecidableEq α]

/-- The text without the occurrences of a pattern; `k` symbols are still to be skipped. -/
def removeFrom (p : List α) : ℕ → List α → List α
  | _,[] => []
  | k+1,_::text => removeFrom p k text
  | 0,a::text => if p.isPrefixOf (a::text) then removeFrom p (p.length-1) text else
      a::removeFrom p 0 text

def remove (p text : List α) : List α := removeFrom p 0 text

theorem removeFrom_eq_remove (p : List α) (k : ℕ) (text : List α) :
    removeFrom p k text = remove p (text.drop k) := by
  induction k generalizing text with
  | zero => rfl
  | succ k ih =>
    cases text with
    | nil => rfl
    | cons c text => exact ih text

@[simp] theorem remove_nil : remove p [] = [] := rfl

variable (hp : p ≠ [])
include hp

theorem remove_append_self (text : List α) : remove p (p++text) = remove p text := by
  cases p with
  | nil => exact absurd rfl hp
  | cons c p =>
    rw [cons_append,remove,removeFrom,removeFrom_eq_remove]
    simp

omit hp in
theorem remove_cons (c : α) (h : ¬p <+: c::text) : remove p (c::text) = c::remove p text := by
  have hfront : ¬p.isPrefixOf (c::text) := by rwa [ isPrefixOf_iff_prefix]
  rw [remove,removeFrom,if_neg hfront,remove]

theorem remove_induction {motive : List α → Prop}
    (hnil : motive []) (happend : ∀ text, motive text → motive (p++text))
    (hcons : ∀ c text, ¬p <+: c::text → motive text → motive (c::text)) (text : List α) :
    motive text := by
  induction hn : text.length using Nat.strong_induction_on generalizing text with
  | _ n ih =>
    by_cases hfront : p <+: text
    · obtain ⟨rest,rfl⟩ := hfront
      have hpos := length_pos_of_ne_nil hp
      have hlt : rest.length < n := by
        rw [length_append] at hn
        omega
      exact happend rest (ih rest.length hlt rest rfl)
    · cases text with
      | nil => exact hnil
      | cons c text =>
        refine hcons c text hfront (ih text.length ?_ text rfl)
        simp [← hn]

theorem mem_of_mem_remove {c : α} (h : c ∈ remove p text) : c ∈ text := by
  induction text using remove_induction hp with
  | hnil => exact h
  | happend text ih =>
    rw [remove_append_self hp] at h
    exact mem_append_right p (ih h)
  | hcons d text hfront ih =>
    rw [remove_cons d hfront] at h
    rcases mem_cons.mp h with rfl | h
    · exact mem_cons_self
    · exact mem_cons_of_mem d (ih h)

omit hp in
def Crosses (p a b : List α) : Prop := ∃ x y, x ≠ [] ∧ y ≠ [] ∧ x++y = p ∧ x <:+ a ∧ y <+: b

theorem remove_append (h : ¬Crosses p a b) : remove p (a++b) = remove p a++remove p b := by
  induction a using remove_induction hp with
  | hnil => rfl
  | happend a ih =>
    rw [append_assoc,remove_append_self hp,remove_append_self hp]
    refine ih fun ⟨x,y,hx,hy,hxy,hxa,hyb⟩ => h ⟨x,y,hx,hy,hxy,hxa.trans (suffix_append p a),hyb⟩
  | hcons c a hfront ih =>
    have hfront' : ¬p <+: c::(a++b) := by
      intro hlong
      rcases prefix_or_prefix_of_prefix hlong (prefix_append (c::a) b) with hshort | ⟨y,rfl⟩
      · exact hfront hshort
      · refine h ⟨c::a,y,by simp,?_,rfl,suffix_refl _,(prefix_append_right_inj (c::a)).mp hlong⟩
        rintro rfl
        exact hfront (by simp)
    rw [cons_append,remove_cons c hfront',remove_cons c hfront,cons_append]
    rw [ih fun ⟨x,y,hx,hy,hxy,hxa,hyb⟩ => h ⟨x,y,hx,hy,hxy,hxa.trans (suffix_cons c a),hyb⟩]

theorem remove_of_not_isInfix (h : ¬p <:+: text) : remove p text = text := by
  induction text using remove_induction hp with
  | hnil => rfl
  | happend text _ => exact absurd (prefix_append p text).isInfix h
  | hcons c text hfront ih =>
    rw [remove_cons c hfront,ih fun hlater => h (hlater.trans (suffix_cons c text).isInfix)]

theorem remove_self : remove p p = [] := by
  simpa using remove_append_self hp []

theorem exists_of_remove_eq_append (h : remove p text = a++b) :
    ∃ s t, text = s++t ∧ remove p s = a ∧ remove p t = b := by
  induction text using remove_induction hp generalizing a with
  | hnil =>
    obtain ⟨rfl,rfl⟩ := append_eq_nil_iff.mp h.symm
    exact ⟨[],[],rfl,rfl,rfl⟩
  | happend text ih =>
    rw [remove_append_self hp] at h
    obtain ⟨s,t,rfl,hs,ht⟩ := ih h
    exact ⟨p++s,t,(append_assoc p s t).symm,by rwa [remove_append_self hp],ht⟩
  | hcons c text hfront ih =>
    cases a with
    | nil => exact ⟨[],c::text,rfl,rfl,h⟩
    | cons d a =>
      rw [remove_cons c hfront] at h
      obtain ⟨rfl,hrest⟩ := List.cons.inj h
      obtain ⟨s,t,rfl,hs,ht⟩ := ih hrest
      have hfront' : ¬p <+: c::s := fun hs => hfront (hs.trans (prefix_append (c::s) t))
      exact ⟨c::s,t,rfl,by rw [remove_cons c hfront',hs],ht⟩

theorem exists_first (h : remove p text ≠ text) :
    ∃ s t, text = s++p++t ∧ ¬p <:+: s ∧ remove p text = s++remove p t := by
  induction text using remove_induction hp with
  | hnil => exact absurd rfl h
  | happend text _ =>
    refine ⟨[],text,rfl,?_,remove_append_self hp text⟩
    rw [infix_nil]
    exact hp
  | hcons c text hfront ih =>
    rw [remove_cons c hfront] at h ⊢
    obtain ⟨s,t,rfl,hs,ht⟩ := ih fun hsame => h (by rw [hsame])
    refine ⟨c::s,t,rfl,fun hin => ?_,by rw [ht]; rfl⟩
    rcases infix_cons_iff.mp hin with hin | hin
    · exact hfront (hin.trans (by simp))
    · exact hs hin
end

/-- No pattern of the table begins inside another or begins it. -/
structure Apart (ps : List (List α)) : Prop where
  nodup : ps.Nodup
  ne_nil : ∀ p ∈ ps, p ≠ []
  inside : ∀ p ∈ ps, ∀ q ∈ ps, ∀ x y, x ≠ [] → y ≠ [] → x++y = p → ¬y <+: q ∧ ¬q <+: y
  front : ∀ p ∈ ps, ∀ q ∈ ps, q <+: p → q = p

variable {ps : List (List α)}

section

theorem apart_of_drop (hnodup : ps.Nodup)
    (hne : ∀ p ∈ ps, p ≠ []) (hfront : ∀ p ∈ ps, ∀ q ∈ ps, q <+: p → q = p)
    (hdrop : ∀ p ∈ ps, ∀ q ∈ ps, ∀ k, k < p.length → 0 < k → ¬p.drop k <+: q ∧ ¬q <+: p.drop k) :
    Apart ps where
  nodup := hnodup
  ne_nil := hne
  front := hfront
  inside p hp q hq x y hx hy hxy := by
    subst hxy
    have hxpos := length_pos_of_ne_nil hx
    have hypos := length_pos_of_ne_nil hy
    simpa using hdrop (x++y) hp q hq x.length (by simp [hypos]) hxpos

variable (h : Apart ps)
include h

variable (hp : p ∈ ps)
include hp

variable (hq : q ∈ ps)
include hq

theorem Apart.not_isInfix (hne : p ≠ q) : ¬p <:+: q := by
  rintro ⟨x,z,hxz⟩
  by_cases hx : x = []
  · subst hx
    exact hne (h.front q hq p hp ⟨z,by simpa using hxz⟩)
  · refine (h.inside q hq p hp x (p++z) hx ?_ (by simpa using hxz)).2 (prefix_append p z)
    simp [h.ne_nil p hp]

theorem Apart.not_crosses_left : ¬Crosses p a (q++b) := by
  rintro ⟨x,y,hx,hy,hxy,-,hyb⟩
  have hinside := h.inside p hp q hq x y hx hy hxy
  rcases prefix_or_prefix_of_prefix hyb (prefix_append q b) with hyq | hqy
  · exact hinside.1 hyq
  · exact hinside.2 hqy

theorem Apart.not_crosses_right : ¬Crosses p (a++q) b := by
  rintro ⟨x,y,hx,hy,hxy,hxa,-⟩
  have hwhole : x ≠ q := by
    rintro rfl
    have := h.front p hp x hq ⟨y,hxy⟩
    rw [← this] at hxy
    exact hy (append_right_eq_self.mp hxy)
  rcases suffix_or_suffix_of_suffix hxa (suffix_append a q) with ⟨z,hz⟩ | ⟨z,hz⟩
  · have hzne : z ≠ [] := by
      rintro rfl
      exact hwhole hz
    exact (h.inside q hq p hp z x hzne hx hz).1 ⟨y,hxy⟩
  · have hzne : z ≠ [] := by
      rintro rfl
      exact hwhole hz.symm
    have hqy : q++y ≠ [] := by simp [hy]
    refine (h.inside p hp q hq z (q++y) hzne hqy ?_).2 (prefix_append q y)
    rw [← append_assoc,hz,hxy]

variable [DecidableEq α]

theorem Apart.remove_around (a b : List α) :
    remove p (a++q++b) = remove p a++remove p q++remove p b := by
  rw [remove_append (h.ne_nil p hp) (h.not_crosses_right hp hq)]
  have hleft : ¬Crosses p a q := by simpa using h.not_crosses_left (a := a) (b := []) hp hq
  rw [remove_append (h.ne_nil p hp) hleft]

theorem Apart.remove_of_ne (hne : p ≠ q) : remove p q = q :=
  remove_of_not_isInfix (h.ne_nil p hp) (h.not_isInfix hp hq hne)

omit hp

omit hq

theorem Apart.remove_interrupted {r : List α} (hr : r ∈ ps) (hp : p ∈ ps) (hq : q ∈ ps)
    (hx : x ≠ []) (hy : y ≠ []) (hxy : x++y = p) (a b : List α) :
    remove r (a++x++q++(y++b)) = remove r a++x++remove r q++(y++remove r b) := by
  have hne := h.ne_nil r hr
  have hpart : ∀ z, z <:+: p → z.length < p.length → remove r z = z := by
    intro z hz hlt
    refine remove_of_not_isInfix hne fun hin => ?_
    by_cases hrp : r = p
    · subst hrp
      exact absurd hin.length_le (by omega)
    · exact h.not_isInfix hr hp hrp (hin.trans hz)
  have hlength : x.length+y.length = p.length := by rw [← hxy,length_append]
  have hxpos := length_pos_of_ne_nil hx
  have hypos := length_pos_of_ne_nil hy
  have hleft : ¬Crosses r a x := by
    rintro ⟨x',y',hx',hy',hxy',-,hyx⟩
    exact (h.inside r hr p hp x' y' hx' hy' hxy').1 (hyx.trans ⟨y,hxy⟩)
  have hright : ¬Crosses r y b := by
    rintro ⟨x',y',hx',hy',hxy',⟨z,hz⟩,-⟩
    refine (h.inside p hp r hr (x++z) x' (by simp [hx]) hx' ?_).1 ⟨y',hxy'⟩
    rw [append_assoc,hz,hxy]
  rw [h.remove_around hr hq,remove_append hne hleft,remove_append hne hright,
    hpart x ⟨[],y,by simpa using hxy⟩ (by omega),hpart y ⟨x,[],by simpa using hxy⟩ (by omega)]
end
section

/-- One pattern after the other, wherever it stands. -/
inductive Deletes (ps : List (List α)) (text : List α) : List α → Prop
  | refl : Deletes ps text text
  | step {p a b : List α} : Deletes ps text (a++p++b) → p ∈ ps → Deletes ps text (a++b)

/-- A pattern has in it an occurrence of itself or of one behind it. -/
def Interrupted (ps : List (List α)) (text : List α) : Prop :=
  ∃ before q behind, ps = before++q::behind ∧ ∃ p ∈ before++[q], ∃ a x y b, x ≠ [] ∧ y ≠ [] ∧
  x++y = p ∧
    text = a++x++q++(y++b)

def Unspliced (ps : List (List α)) (text : List α) : Prop :=
  ∀ text', Deletes ps text text' → ¬Interrupted ps text'

theorem Deletes.trans (h : Deletes ps text text') (h' : Deletes ps text' text'') :
    Deletes ps text text'' := by
  induction h' with
  | refl => exact h
  | step _ hp ih => exact ih.step hp

theorem Deletes.between (h : Deletes ps text text') (a b : List α) :
    Deletes ps (a++text++b) (a++text'++b) := by
  induction h with
  | refl => exact .refl
  | @step p c d _ hp ih =>
    have hstep : Deletes ps (a++text++b) ((a++c)++p++(d++b)) := by simpa using ih
    simpa using hstep.step hp

variable {before behind : List (List α)}

theorem mem_of_mem_front (h : p ∈ before++[q]) : p ∈ before++q::behind := by
  rw [append_cons]
  exact mem_append_left behind h

variable [DecidableEq α]

def deleteEach (ps : List (List α)) (text : List α) : List α :=
  ps.foldl (fun text p => remove p text) text

theorem deletes_remove (hp : p ∈ ps) (hne : p ≠ []) (text : List α) :
    Deletes ps text (remove p text) := by
  induction text using remove_induction hne with
  | hnil => exact .refl
  | happend text ih =>
    rw [remove_append_self hne]
    have hfirst : Deletes ps (p++text) ([]++text) := Deletes.step (p := p) (a := []) .refl hp
    exact hfirst.trans ih
  | hcons c text hfront ih =>
    rw [remove_cons c hfront]
    simpa using ih.between [c] []

variable (h : Apart ps)
include h

theorem Apart.deleteEach_keeps (hp : p ∈ ps) {qs : List (List α)} (hqs : ∀ q ∈ qs, q ∈ ps ∧ q ≠ p)
    (a b : List α) : p <:+: deleteEach qs (a++p++b) := by
  induction qs generalizing a b with
  | nil => exact ⟨a,b,rfl⟩
  | cons q qs ih =>
    obtain ⟨hq,hne⟩ := hqs q (by simp)
    rw [deleteEach,foldl_cons,h.remove_around hq hp,h.remove_of_ne hq hp hne]
    exact ih (fun r hr => hqs r (by simp [hr])) _ _

variable (hsub : before++q::behind <:+ ps)
include hsub

/-- A pattern that is interrupted when its turn has come is there at the end. -/
theorem Apart.deleteEach_interrupted
    (hp : p ∈ before++[q]) (hx : x ≠ []) (hy : y ≠ []) (hxy : x++y = p) (a b : List α) :
    p <:+: deleteEach (before++q::behind) (a++x++q++(y++b)) := by
  have hmem : ∀ r ∈ before++q::behind, r ∈ ps := fun r hr => hsub.subset hr
  have hq : q ∈ ps := hmem q (by simp)
  have hp' : p ∈ ps := hmem p (mem_of_mem_front hp)
  have hnodup := h.nodup.sublist hsub.sublist
  rw [deleteEach,foldl_append,foldl_cons]
  -- up to the turn of `q` the pattern stays interrupted; then it is whole, and its own turn is past
  have hbefore : ∃ a' b', before.foldl (fun text p => remove p text) (a++x++q++(y++b)) =
      a'++x++q++(y++b') := by
    have hne : ∀ r ∈ before, r ∈ ps ∧ r ≠ q := by
      intro r hr
      refine ⟨hmem r (by simp [hr]),?_⟩
      rintro rfl
      exact (nodup_append.mp hnodup).2.2 r hr r (by simp) rfl
    clear hsub hp hmem hnodup
    induction before generalizing a b with
    | nil => exact ⟨a,b,rfl⟩
    | cons r before ih =>
      obtain ⟨hr,hrq⟩ := hne r (by simp)
      rw [foldl_cons,h.remove_interrupted hr hp' hq hx hy hxy,h.remove_of_ne hr hq hrq]
      exact ih _ _ fun r hr => hne r (by simp [hr])
  obtain ⟨a',b',hbefore⟩ := hbefore
  rw [hbefore,h.remove_interrupted hq hp' hq hx hy hxy,remove_self (h.ne_nil q hq)]
  have hwhole : remove q a'++x++[]++(y++remove q b') = remove q a'++p++remove q b' := by simp [← hxy]
  rw [hwhole]
  refine h.deleteEach_keeps hp' (fun r hr => ⟨hmem r (by simp [hr]),?_⟩) _ _
  rintro rfl
  obtain ⟨-,hbehind,hdisjoint⟩ := nodup_append.mp hnodup
  rcases mem_append.mp hp with hp | hp
  · exact hdisjoint r hp r (by simp [hr]) rfl
  · rw [mem_singleton.mp hp] at hr
    exact (nodup_cons.mp hbehind).1 hr

section
variable (hclean : ∀ p ∈ ps, ¬p <:+: deleteEach (before++q::behind) (a++q++b))
include hclean

theorem Apart.not_crosses_of_clean (hp : p ∈ before++[q]) : ¬Crosses p a b := by
  rintro ⟨x,y,hx,hy,hxy,⟨a',rfl⟩,⟨b',rfl⟩⟩
  exact hclean p (hsub.subset (mem_of_mem_front hp)) (h.deleteEach_interrupted hsub hp hx hy hxy a' b')

theorem Apart.deleteEach_step : deleteEach (before++q::behind) (a++b) =
    deleteEach (before++q::behind) (a++q++b) := by
  have hq : q ∈ ps := hsub.subset (by simp)
  induction before generalizing a b with
  | nil =>
    have hne := h.ne_nil q hq
    have hcross : ¬Crosses q a b := h.not_crosses_of_clean hsub hclean (by simp)
    simp only [nil_append,deleteEach,foldl_cons]
    rw [remove_append hne hcross,h.remove_around hq hq,remove_self hne,append_nil]
  | cons p before ih =>
    have hp : p ∈ ps := hsub.subset (by simp)
    have hpq : p ≠ q := by
      have hnodup := h.nodup.sublist hsub.sublist
      rintro rfl
      simp at hnodup
    have hcross : ¬Crosses p a b := h.not_crosses_of_clean hsub hclean (by simp)
    have hstep : remove p (a++q++b) = remove p a++q++remove p b := by
      rw [h.remove_around hp hq,h.remove_of_ne hp hq hpq]
    simp only [cons_append,deleteEach,foldl_cons] at hclean ⊢
    rw [hstep] at hclean ⊢
    rw [remove_append (h.ne_nil p hp) hcross]
    exact ih (List.IsSuffix.trans (suffix_cons p _) hsub) hclean
end

omit hsub

omit h in
/-- A pattern that comes up when another one is removed was interrupted by it. -/
theorem interrupted_of_remove (hq : q ∈ ps)
    (hqne : q ≠ []) (hp : p ≠ []) {s : List α} (h : remove q s = p) :
    (p <:+: s ∧ p ≠ q) ∨ ∃ a x y b, x ≠ [] ∧ y ≠ [] ∧ x++y = p ∧ Deletes ps s (a++x++q++(y++b)) := by
  induction hn : s.length using Nat.strong_induction_on generalizing s with
  | _ n ih =>
    by_cases hsame : remove q s = s
    · left
      rw [← h,hsame]
      refine ⟨infix_refl s,?_⟩
      rintro rfl
      rw [remove_self hqne] at h
      exact hp h.symm
    obtain ⟨x,t,rfl,hx,hremove⟩ := exists_first hqne hsame
    rw [hremove] at h
    have hqpos := length_pos_of_ne_nil hqne
    by_cases hxnil : x = []
    · subst hxnil
      have hlt : t.length < n := by
        simp only [nil_append,length_append] at hn
        omega
      rcases ih t.length hlt (by simpa using h) rfl with ⟨hin,hne⟩ | ⟨a,x,y,b,hx,hy,hxy,hdeletes⟩
      · exact .inl ⟨hin.trans (suffix_append _ t).isInfix,hne⟩
      · refine .inr ⟨q++a,x,y,b,hx,hy,hxy,?_⟩
        simpa using hdeletes.between q []
    · by_cases hy : remove q t = []
      · left
        rw [hy,append_nil] at h
        subst h
        refine ⟨⟨[],q++t,by simp⟩,?_⟩
        rintro rfl
        exact hx (infix_refl x)
      · refine .inr ⟨[],x,remove q t,[],hxnil,hy,h,?_⟩
        simpa using (deletes_remove hq hqne t).between (x++q) []

theorem Apart.deleteEach_clean (hunspliced : Unspliced ps text) (hps : ps = before++behind) :
    Deletes ps text (deleteEach before text) ∧ ∀ p ∈ before, ¬p <:+: deleteEach before text := by
  induction before using List.reverseRecOn generalizing behind with
  | nil => exact ⟨.refl,by simp⟩
  | append_singleton before q ih =>
    have hps' : ps = before++q::behind := by simpa using hps
    obtain ⟨hdeletes,hclean⟩ := ih hps'
    have hq : q ∈ ps := by simp [hps']
    have hqne := h.ne_nil q hq
    rw [deleteEach,foldl_append,foldl_cons,foldl_nil,← deleteEach]
    refine ⟨hdeletes.trans (deletes_remove hq hqne _),?_⟩
    rintro p hp ⟨a,b,hin⟩
    have hpne : p ≠ [] := by
      refine h.ne_nil p ?_
      rw [hps]
      exact mem_append_left _ hp
    obtain ⟨s,u,hs,hleft,-⟩ := exists_of_remove_eq_append hqne hin.symm
    obtain ⟨s₁,s₂,rfl,-,hs₂⟩ := exists_of_remove_eq_append hqne hleft
    rcases interrupted_of_remove hq hqne hpne hs₂ with ⟨hmiddle,hne⟩ | ⟨a',x,y,b',hx,hy,hxy,hinner⟩
    · have hp' : p ∈ before := by
        rcases mem_append.mp hp with hp | hp
        · exact hp
        · exact absurd (mem_singleton.mp hp) hne
      exact hclean p hp' (hs ▸ hmiddle.trans ⟨s₁,u,rfl⟩)
    · refine hunspliced (s₁++a'++x++q++(y++(b'++u))) ?_
        ⟨before,q,behind,hps',p,hp,s₁++a',x,y,b'++u,hx,hy,hxy,rfl⟩
      have hsurround := hinner.between s₁ u
      rw [← hs] at hsurround
      simpa using hdeletes.trans hsurround

theorem Apart.deleteEach_clean_iff (text : List α) :
    (∀ p ∈ ps, ¬p <:+: deleteEach ps text) ↔ Unspliced ps text := by
  constructor
  · intro hclean text' hdeletes
    have hsame : deleteEach ps text' = deleteEach ps text := by
      induction hdeletes with
      | refl => rfl
      | @step p a b _ hp ih =>
        obtain ⟨before,behind,hps⟩ := append_of_mem hp
        have hwhole : before++p::behind <:+ ps := by rw [hps]
        have hstep := h.deleteEach_step (a := a) (b := b) hwhole (by rwa [← hps,ih])
        rw [← hps] at hstep
        rw [hstep,ih]
    rintro ⟨before,q,behind,hps,p,hp,a,x,y,b,hx,hy,hxy,rfl⟩
    have hwhole : before++q::behind <:+ ps := by rw [hps]
    have hin := h.deleteEach_interrupted hwhole hp hx hy hxy a b
    rw [← hps,hsame] at hin
    exact hclean p (hwhole.subset (mem_of_mem_front hp)) hin
  · intro hunspliced
    exact (h.deleteEach_clean hunspliced (append_nil ps).symm).2
end
end Hirn.Deletions
