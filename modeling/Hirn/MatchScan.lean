import Mathlib

/-! Multi-pattern search that reports a match as soon as it is seen and starts afresh behind it.
The text since the last restart is the window: a pattern is seen when the window ends in it. -/
namespace Hirn.MatchScan
open List
variable {α : Type*}

structure Match where
  (pattern start stop : ℕ)
  deriving DecidableEq

def scan [DecidableEq α] (patterns : List (List α)) : List α → ℕ → List α → List Match
  | _, _, [] => []
  | window, pos, a::rest =>
    match patterns.findIdx? (fun p => decide (p <:+ window++[a])) with
    | some k => ⟨k,pos+1-(patterns.getD k []).length,pos+1⟩::scan patterns [] (pos+1) rest
    | none => scan patterns (window++[a]) (pos+1) rest

/-- The matches in the order in which they are seen. No two of them overlap. -/
def findIter [DecidableEq α] (patterns : List (List α)) (text : List α) : List Match :=
  scan patterns [] 0 text

def Occurs (text p : List α) (s : ℕ) : Prop := p <+: text.drop s

instance [DecidableEq α] (text p : List α) (s : ℕ) : Decidable (Occurs text p s) :=
  inferInstanceAs (Decidable (p <+: text.drop s))

variable {patterns : List (List α)} {text p q front window rest : List α} {j s pos : ℕ}

theorem Occurs.getElem? (h : Occurs text p s) {i : ℕ} (hi : i < p.length) : text[s+i]? = p[i]? := by
  obtain ⟨r,hr⟩ := h
  rw [← getElem?_drop,← hr,getElem?_append_left hi]

theorem Occurs.le_length (h : Occurs text p s) (hp : p ≠ []) : s+p.length ≤ text.length := by
  have hlen := h.length_le
  have hpos := length_pos_of_ne_nil hp
  rw [length_drop] at hlen
  omega

theorem occurs_of_suffix (h : p <:+ front) : Occurs (front++rest) p (front.length-p.length) := by
  obtain ⟨l,rfl⟩ := h
  rw [Occurs,length_append,Nat.add_sub_cancel,append_assoc,drop_left]
  exact prefix_append p rest

theorem Occurs.suffix (h : Occurs (front++rest) p s) (hend : s+p.length = front.length) :
    p <:+ front := by
  have hdrop : p = front.drop s := by
    rw [Occurs,drop_append_of_le_length (by omega)] at h
    apply List.IsPrefix.eq_of_length (prefix_of_prefix_length_le h (prefix_append _ _) ?_) ?_
    all_goals rw [length_drop]; omega
  rw [hdrop]
  exact drop_suffix s front

theorem Occurs.of_front (h : Occurs text q s) (hp : p <+: q) : Occurs text p s := hp.trans h

theorem Occurs.append (hp : Occurs text p s) (hq : Occurs text q (s+p.length)) :
    Occurs text (p++q) s := by
  obtain ⟨r,hr⟩ := hp
  rw [Occurs,← drop_drop,← hr,drop_left] at hq
  rw [Occurs,← hr]
  exact (prefix_append_right_inj p).mpr hq

theorem Occurs.suffix_take (h : Occurs text p s) (hfit : s+p.length ≤ text.length) :
    p <:+ text.take (s+p.length) := by
  rw [← take_append_drop (s+p.length) text] at h
  exact h.suffix (length_take_of_le hfit).symm

theorem occurs_of_suffix_take (h : p <:+ text.take s) (hs : s ≤ text.length) :
    Occurs text p (s-p.length) := by
  have hoccurs := @occurs_of_suffix α p _ (text.drop s) h
  rwa [take_append_drop,length_take_of_le hs] at hoccurs

theorem Occurs.overlap (hp : Occurs text p j) (hq : Occurs text q s) (hjs : j ≤ s)
    (hend : j+p.length ≤ s+q.length) : p.drop (s-j) <+: q := by
  rw [prefix_iff_eq_take]
  apply ext_getElem?
  intro i
  rw [getElem?_drop,getElem?_take,length_drop]
  by_cases hi : i < p.length-(s-j)
  · have hp' : text[j+(s-j+i)]? = p[s-j+i]? := hp.getElem? (by omega)
    have hq' : text[s+i]? = q[i]? := hq.getElem? (by omega)
    rw [if_pos hi,← hp',← hq',← Nat.add_assoc,Nat.add_sub_cancel' hjs]
  · rw [if_neg hi,getElem?_eq_none (by omega)]

theorem Occurs.isInfix (hp : Occurs text p j) (hq : Occurs text q s) (hsj : s ≤ j)
    (hend : j+p.length ≤ s+q.length) : p <:+: q := by
  have hfront : p <+: q.drop (j-s) := by
    rw [prefix_iff_eq_take]
    apply ext_getElem?
    intro i
    rw [getElem?_take,getElem?_drop]
    by_cases hi : i < p.length
    · rw [if_pos hi,← hp.getElem? hi,← hq.getElem? (by omega),← Nat.add_assoc,
        Nat.add_sub_cancel' hsj]
    · rw [if_neg hi,getElem?_eq_none (by omega)]
  exact hfront.isInfix.trans (drop_suffix _ _).isInfix

theorem isInfix_iff_occurs : p <:+: text ↔ ∃ i, Occurs text p i := by
  constructor
  · rintro ⟨a,b,rfl⟩
    refine ⟨a.length,?_⟩
    rw [Occurs,append_assoc,drop_left]
    exact prefix_append p b
  · rintro ⟨i,h⟩
    exact (List.IsPrefix.isInfix h).trans (drop_suffix i text).isInfix

def Separate (p q : List α) : Prop :=
  ∀ text i j, Occurs text p i → Occurs text q j → i+p.length ≤ j ∨ j+q.length ≤ i

theorem Separate.isInfix_around (h : Separate p q) (a b : List α) :
    p <:+: a++q++b ↔ p <:+: a ∨ p <:+: b := by
  constructor
  · intro hin
    obtain ⟨i,hi⟩ := isInfix_iff_occurs.mp hin
    have hq : Occurs (a++q++b) q a.length := by
      rw [Occurs,append_assoc,drop_left]
      exact prefix_append q b
    rcases h _ _ _ hi hq with hleft | hright
    · left
      rw [Occurs,append_assoc,drop_append_of_le_length (by omega)] at hi
      have hfront := prefix_of_prefix_length_le hi (prefix_append _ _) (by rw [length_drop]; omega)
      exact hfront.isInfix.trans (drop_suffix i a).isInfix
    · right
      rw [Occurs,drop_append,drop_of_length_le (by rw [length_append]; omega)] at hi
      exact (List.IsPrefix.isInfix hi).trans (drop_suffix _ b).isInfix
  · rintro (hin | hin)
    · exact hin.trans ⟨[],q++b,by simp⟩
    · exact hin.trans (suffix_append _ b).isInfix

variable [DecidableEq α]

def overlapsAt (p q : List α) (d : ℕ) : Bool :=
  decide (d < p.length) && ((p.drop d).isPrefixOf q || q.isPrefixOf (p.drop d))

theorem Occurs.overlapsAt (hp : Occurs text p j) (hq : Occurs text q s) (hle : j ≤ s)
    (hlt : s < j+p.length) : overlapsAt p q (s-j) := by
  have hlength : s-j < p.length := by omega
  have hrest : p.drop (s-j) <+: text.drop s := by
    have := List.IsPrefix.drop hp (s-j)
    rwa [drop_drop,Nat.add_sub_cancel' hle] at this
  simp only [MatchScan.overlapsAt,hlength,decide_true,Bool.true_and,
    Bool.or_eq_true, isPrefixOf_iff_prefix]
  exact prefix_or_prefix_of_prefix hrest hq

def neverOverlap (p q : List α) : Bool :=
  ((List.range p.length).all fun d => !overlapsAt p q d) && (List.range q.length).all fun d =>
  !overlapsAt q p d

theorem separate_of_neverOverlap (h : neverOverlap p q) : Separate p q := by
  simp only [neverOverlap,Bool.and_eq_true,all_eq_true,mem_range] at h
  intro text i j hi hj
  by_contra hshare
  push Not at hshare
  rcases le_total i j with hle | hle
  · have := h.1 (j-i) (by omega)
    rw [hi.overlapsAt hj hle hshare.1] at this
    cases this
  · have := h.2 (i-j) (by omega)
    rw [hj.overlapsAt hi hle hshare.2] at this
    cases this

theorem mem_scan {m : Match} (hpos : (front++window).length = pos)
    (hm : m ∈ scan patterns window pos rest) :
    front.length ≤ m.start ∧ pos < m.stop ∧ ∃ p, patterns[m.pattern]? = some p ∧
      m.stop = m.start+p.length ∧ Occurs (front++window++rest) p m.start := by
  induction rest generalizing front window pos with
  | nil => simp [scan] at hm
  | cons a rest ih =>
    have hnext : (front++(window++[a])).length = pos+1 := by simp [← hpos,Nat.add_assoc]
    have htext : front++window++a::rest = front++(window++[a])++rest := by simp
    rw [htext]
    rw [scan] at hm
    split at hm
    case h_1 k hk =>
      rcases mem_cons.mp hm with rfl | hm
      · rw [findIdx?_eq_some_iff_getElem] at hk
        obtain ⟨hlt,hsuffix,-⟩ := hk
        rw [decide_eq_true_eq] at hsuffix
        have hget : patterns.getD k [] = patterns[k] := by simp [hlt]
        have hlength := hsuffix.length_le
        have hoccurs : Occurs (front++(window++[a])++rest) patterns[k] (pos+1-patterns[k].length) := by
          rw [← hnext]
          exact occurs_of_suffix (hsuffix.trans (suffix_append front _))
        rw [length_append] at hnext
        simp only [hget]
        exact ⟨by omega,by omega,patterns[k],by simp,by omega,hoccurs⟩
      · have hfront : ((front++(window++[a]))++[]).length = pos+1 := by rw [append_nil,hnext]
        obtain ⟨hstart,hstop,p,hp,hlen,hoccurs⟩ := ih hfront hm
        rw [append_nil] at hoccurs
        rw [length_append] at hpos
        exact ⟨by omega,by omega,p,hp,hlen,hoccurs⟩
    case h_2 =>
      obtain ⟨hstart,hstop,hrest⟩ := ih hnext hm
      exact ⟨hstart,by omega,hrest⟩

/-- Every occurrence that ends in the rest is reported, or one inside it, or it began before the last
restart. -/
theorem scan_covers (hpos : (front++window).length = pos) (hp : p ∈ patterns)
    (hoccurs : Occurs (front++window++rest) p s) (hstart : front.length ≤ s)
    (hne : p ≠ []) (hend : pos < s+p.length) :
    ∃ m ∈ scan patterns window pos rest, s < m.stop ∧ m.stop ≤ s+p.length := by
  induction rest generalizing front window pos with
  | nil =>
    have hfit := hoccurs.le_length hne
    rw [append_nil] at hfit
    omega
  | cons a rest ih =>
    have hnext : (front++(window++[a])).length = pos+1 := by simp [← hpos,Nat.add_assoc]
    have htext : front++window++a::rest = front++(window++[a])++rest := by simp
    rw [htext] at hoccurs
    rw [scan]
    split
    case h_1 k hk =>
      by_cases hs : s < pos+1
      · exact ⟨_,mem_cons_self,hs,hend⟩
      · have hfront : ((front++(window++[a]))++[]).length = pos+1 := by rw [append_nil,hnext]
        have hlong := length_pos_of_ne_nil hne
        obtain ⟨m,hm,hcover⟩ := ih hfront (by rwa [append_nil]) (by omega) (by omega)
        exact ⟨m,mem_cons_of_mem _ hm,hcover⟩
    case h_2 hnone =>
      have hpast : pos+1 ≠ s+p.length := by
        intro hlast
        rw [findIdx?_eq_none_iff] at hnone
        have hlength : p.length ≤ (window++[a]).length := by
          rw [length_append] at hnext
          omega
        have hsuffix : p <:+ window++[a] :=
          suffix_of_suffix_length_le (hoccurs.suffix (by omega)) (suffix_append front _) hlength
        simpa [hsuffix] using hnone p hp
      exact ih hnext hoccurs hstart (by omega)

theorem scan_pairwise (hpos : (front++window).length = pos) :
    (scan patterns window pos rest).Pairwise (fun m m' => m.stop ≤ m'.start) := by
  induction rest generalizing front window pos with
  | nil => simp [scan]
  | cons a rest ih =>
    have hnext : (front++(window++[a])).length = pos+1 := by simp [← hpos,Nat.add_assoc]
    rw [scan]
    split
    case h_1 k hk =>
      have hfront : ((front++(window++[a]))++[]).length = pos+1 := by rw [append_nil,hnext]
      rw [pairwise_cons]
      refine ⟨?_,ih hfront⟩
      intro m hm
      have hstart := (mem_scan hfront hm).1
      rwa [hnext] at hstart
    case h_2 => exact ih hnext

theorem mem_findIter {m : Match} (hm : m ∈ findIter patterns text) :
    ∃ p, patterns[m.pattern]? = some p ∧ m.stop = m.start+p.length ∧ Occurs text p m.start :=
  (@mem_scan α patterns [] [] text 0 _ m rfl hm).2.2

theorem findIter_pairwise : (findIter patterns text).Pairwise (fun m m' => m.stop ≤ m'.start) :=
  @scan_pairwise α patterns [] [] text 0 _ rfl

theorem findIter_disjoint {m m' : Match} (hm : m ∈ findIter patterns text)
    (hm' : m' ∈ findIter patterns text) (h : m.start < m'.stop) (h' : m'.start < m.stop) : m = m' := by
  obtain ⟨i,hi,rfl⟩ := mem_iff_getElem.mp hm
  obtain ⟨k,hk,rfl⟩ := mem_iff_getElem.mp hm'
  have hpair := pairwise_iff_getElem.mp (@findIter_pairwise α patterns text _)
  rcases lt_trichotomy i k with hik | rfl | hik
  · have := hpair i k hi hk hik
    omega
  · rfl
  · have := hpair k i hk hi hik
    omega

def Antichain (patterns : List (List α)) : Prop :=
  (∀ p ∈ patterns, p ≠ []) ∧ ∀ p ∈ patterns, ∀ q ∈ patterns, p <:+: q → p = q

theorem reported_or_overlapped (hpatterns : Antichain patterns) (hq : q ∈ patterns)
    (hoccurs : Occurs text q s) :
    ∃ m ∈ findIter patterns text, ∃ p, patterns[m.pattern]? = some p ∧ Occurs text p m.start ∧
      m.stop = m.start+p.length ∧
      (m.start = s ∧ p = q ∨ m.start < s ∧ s < m.stop ∧ p.drop (s-m.start) <+: q) := by
  have hne := hpatterns.1 q hq
  have hlong := length_pos_of_ne_nil hne
  obtain ⟨m,hm,hinside,hend⟩ := @scan_covers α patterns q [] [] text s 0 _ rfl hq hoccurs (by simp)
    hne (by omega)
  obtain ⟨p,hp,hstop,hat⟩ := mem_findIter hm
  refine ⟨m,hm,p,hp,hat,hstop,?_⟩
  by_cases hstart : m.start < s
  · exact .inr ⟨hstart,hinside,hat.overlap hoccurs hstart.le (by omega)⟩
  · have heq : p = q := hpatterns.2 p (mem_of_getElem? hp) q hq
      (hat.isInfix hoccurs (by omega) (by omega))
    subst heq
    exact .inl ⟨by omega,rfl⟩
end Hirn.MatchScan
