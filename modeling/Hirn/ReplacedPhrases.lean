import Hirn.SanitizePhrases

/-! What is left of the phrases of a line. Their ranges are replaced from left to right, and one that
begins inside the character in which a replaced one ends is passed over: a phrase that it has kept
from being cleared then stays in the text. -/
namespace Hirn.Sanitize
open Deletions FilterLang MatchScan List DetectionMap

theorem lt_of_border_lt (u : Tables) (line : Text) {i j : ℕ}
    (h : border u line i < border u line j) : i < j := by
  by_contra hle
  have := border_mono u line (not_lt.mp hle)
  omega

theorem lowerBorder_mono (u : Tables) (bs : BinarySearch) (line : Text) {k k' : ℕ} (h : k ≤ k') :
    lowerBorder u bs line k ≤ lowerBorder u bs line k' := by
  rcases h.eq_or_lt with rfl | hlt
  · exact le_rfl
  obtain ⟨hlen,hle⟩ := lowerBorder_le u bs line k
  generalize lowerBorder u bs line k = l at *
  rw [lowerBorder]
  cases hs : bs.search (borders u line) k' with
  | ok i =>
    have hborder := (search_ok hs).2
    have hlt : l < i := lt_of_border_lt u line (by omega)
    exact hlt.le
  | err i =>
    by_contra hgt
    have := (search_err hs).2 l (by dsimp only at hgt; omega) hlen
    omega

theorem upperBorder_le_of_lt {u : Tables} {line : Text} (bs : BinarySearch) {k l : ℕ}
    (hk : k < border u line l) (hl : l ≤ line.length) : upperBorder u bs line k ≤ l := by
  rw [upperBorder]
  cases hs : bs.search (borders u line) k with
  | ok i =>
    have hborder := (search_ok hs).2
    have hlt : i < l := lt_of_border_lt u line (by omega)
    exact hlt.le
  | err i =>
    by_contra hgt
    have := (search_err hs).1 l (not_le.mp hgt) hl
    omega

theorem upperBorder_mono {u : Tables} {line : Text} (bs : BinarySearch) {k k' : ℕ} (h : k ≤ k')
    (hk' : k' ≤ (normalizeForDetection u line).length) :
    upperBorder u bs line k ≤ upperBorder u bs line k' := by
  rcases h.eq_or_lt with rfl | hlt
  · exact le_rfl
  obtain ⟨hlen,hle⟩ := le_upperBorder bs hk'
  exact upperBorder_le_of_lt bs (hlt.trans_le hle) hlen

theorem lowerBorder_lt_upperBorder {u : Tables} {line : Text} (bs : BinarySearch) {k k' : ℕ}
    (h : k < k') (hk' : k' ≤ (normalizeForDetection u line).length) :
    lowerBorder u bs line k < upperBorder u bs line k' := by
  have hlower := (lowerBorder_le u bs line k).2
  have hupper := (le_upperBorder bs hk').2
  exact lt_of_border_lt u line (by omega)

theorem border_succ_le_upperBorder {u : Tables} {line : Text} (bs : BinarySearch) {i k : ℕ}
    (h : border u line i < k) (hk : k ≤ (normalizeForDetection u line).length) :
    border u line (i+1) ≤ border u line (upperBorder u bs line k) := by
  have hupper := (le_upperBorder bs hk).2
  have hi : i < upperBorder u bs line k := lt_of_border_lt u line (by omega)
  exact border_mono u line hi

def snap (u : Tables) (bs : BinarySearch) (line : Text) (r : ℕ × ℕ) : ℕ × ℕ :=
  (lowerBorder u bs line r.1,upperBorder u bs line r.2)

def Meets (u : Tables) (line : Text) (r r' : ℕ × ℕ) : Prop :=
  ∃ i, border u line i < r.2 ∧ r.2 ≤ r'.1 ∧ r'.1 < border u line (i+1)

theorem meets_iff {u : Tables} {line : Text} (bs : BinarySearch) {r r' : ℕ × ℕ}
    (hr : r.2 ≤ (normalizeForDetection u line).length) :
    Meets u line r r' ↔ r.2 ≤ r'.1 ∧ lowerBorder u bs line r'.1 < upperBorder u bs line r.2 := by
  constructor
  · rintro ⟨i,hleft,hle,hright⟩
    have hlower := (lowerBorder_le u bs line r'.1).2
    have hupper := (le_upperBorder bs hr).2
    have hi : lowerBorder u bs line r'.1 < i+1 := lt_of_border_lt u line (by omega)
    have hi' : i < upperBorder u bs line r.2 := lt_of_border_lt u line (by omega)
    exact ⟨hle,by omega⟩
  · rintro ⟨hle,hlt⟩
    obtain ⟨i,c,-,-,hleft,hright⟩ := shared_char hr hle hlt
    exact ⟨i,hleft,hle,hright⟩

inductive Treatment
  | replaced | passedOver
  deriving DecidableEq

/-- A phrase is passed over if it begins inside the character in which a replaced one ends. -/
inductive Treated (u : Tables) (line : Text) : Treatment → ℕ × ℕ → Prop
  | passedOver {r r' : ℕ × ℕ} (h' : Foremost (normalizeForDetection u line) r')
      (h : Treated u line .replaced r) (hmeets : Meets u line r r') : Treated u line .passedOver r'
  | replaced {r' : ℕ × ℕ} (h' : Foremost (normalizeForDetection u line) r')
      (hall : ∀ r, Foremost (normalizeForDetection u line) r → Meets u line r r' →
        Treated u line .passedOver r) : Treated u line .replaced r'

theorem Treated.foremost {u : Tables} {line : Text} {t : Treatment} {r : ℕ × ℕ}
    (h : Treated u line t r) : Foremost (normalizeForDetection u line) r := by
  cases h with
  | passedOver h' _ _ => exact h'
  | replaced h' _ => exact h'

theorem Treated.unique {u : Tables} {line : Text} {t t' : Treatment} {r : ℕ × ℕ}
    (h : Treated u line t r) (h' : Treated u line t' r) : t = t' := by
  induction h generalizing t' with
  | passedOver _ h hmeets ih =>
    cases h' with
    | passedOver _ _ _ => rfl
    | replaced _ hall => cases ih (hall _ h.foremost hmeets)
  | replaced _ hall ih =>
    cases h' with
    | passedOver _ h hmeets => cases ih _ h.foremost hmeets h
    | replaced _ _ => rfl

theorem treated_total {u : Tables} {line : Text} {r : ℕ × ℕ}
    (h : Foremost (normalizeForDetection u line) r) :
    Treated u line .replaced r ∨ Treated u line .passedOver r := by
  induction hn : r.1 using Nat.strong_induction_on generalizing r with
  | _ n ih =>
    by_cases hmet : ∃ r', Treated u line .replaced r' ∧ Meets u line r' r
    · obtain ⟨r',hr',hmeets⟩ := hmet
      exact .inr (.passedOver h hr' hmeets)
    · refine .inl (.replaced h fun r' hr' hmeets => ?_)
      obtain ⟨i,-,hle,-⟩ := id hmeets
      have hpos := hr'.bounds.1
      exact (ih r'.1 (by omega) hr' rfl).resolve_left fun h => hmet ⟨r',h,hmeets⟩

instance : Std.Total rangeLe where
  total r r' := by
    unfold rangeLe
    omega

instance : IsTrans (ℕ × ℕ) rangeLe where
  trans r r' r'' h h' := by
    unfold rangeLe at *
    omega

theorem Foremost.before {normalized : Text} {r r' : ℕ × ℕ} (h : Foremost normalized r)
    (h' : Foremost normalized r') (hle : rangeLe r r') : r = r' ∨ r.2 ≤ r'.1 := by
  by_cases hover : overlapping r r' = true
  · exact .inl (h.eq_of_overlapping h' hover)
  · have hpos := h'.bounds.1
    rw [overlapping_iff] at hover
    unfold rangeLe at hle
    exact .inr (by omega)

def clearedInOrder (normalized : Text) : List (ℕ × ℕ) :=
  (clearedRanges normalized).insertionSort rangeLe

theorem mem_clearedInOrder {normalized : Text} {r : ℕ × ℕ} :
    r ∈ clearedInOrder normalized ↔ Foremost normalized r :=
  (mem_insertionSort rangeLe).trans (mem_clearedRanges normalized r)

theorem clearedInOrder_pairwise (normalized : Text) :
    (clearedInOrder normalized).Pairwise fun r r' => r.2 ≤ r'.1 := by
  have hnodup : (clearedInOrder normalized).Nodup :=
    (perm_insertionSort rangeLe _).nodup_iff.mpr (clearedRanges_spec normalized).1.nodup_starts.of_map
  have hsorted := pairwise_insertionSort rangeLe (clearedRanges normalized)
  refine (hsorted.and hnodup).imp_of_mem fun {r r'} hr hr' h => ?_
  exact ((mem_clearedInOrder.mp hr).before (mem_clearedInOrder.mp hr') h.1).resolve_left h.2

/-- Characters keep the order of the phrases they cover. -/
theorem neutralize_eq (u : Tables) (bs : BinarySearch) (line : Text) :
    neutralizeInjectionPhrases u bs line =
    assemble line 0 ((clearedInOrder (normalizeForDetection u line)).map (snap u bs line)) := by
  have hnormalized : (build u line).normalized = normalizeForDetection u line := by rw [build_eq]
  rw [neutralizeInjectionPhrases,hnormalized]
  by_cases hnil : clearedRanges (normalizeForDetection u line) = []
  · simp [clearedInOrder,hnil,assemble]
  rw [if_neg hnil]
  have hmap : (clearedRanges (normalizeForDetection u line)).map
    (fun r => (build u line).toOriginal bs r.1 r.2) =
      (clearedRanges (normalizeForDetection u line)).map (snap u bs line) :=
    map_congr_left fun r hr => toOriginal_eq r.1 ((mem_clearedRanges _ r).mp hr).bounds.2
  rw [hmap]
  refine congrArg (assemble line 0) (Perm.eq_of_pairwise ?_ (pairwise_insertionSort rangeLe _) ?_ ?_)
  · intro r r' _ _ h h'
    unfold rangeLe at h h'
    exact Prod.ext (by omega) (by omega)
  · refine pairwise_map.mpr ((clearedInOrder_pairwise _).imp_of_mem fun {r r'} hr hr' hle => ?_)
    have hr := (mem_clearedInOrder.mp hr).bounds
    have hr' := (mem_clearedInOrder.mp hr').bounds
    have hlower := lowerBorder_mono u bs line (show r.1 ≤ r'.1 by omega)
    have hupper := upperBorder_mono bs (show r.2 ≤ r'.2 by omega) hr'.2
    unfold rangeLe snap
    dsimp only
    omega
  · exact (perm_insertionSort rangeLe _).trans ((perm_insertionSort rangeLe _).map _).symm

/-- The ranges that `assemble` replaces. -/
def taken (snap : ℕ × ℕ → ℕ × ℕ) : ℕ → List (ℕ × ℕ) → List (ℕ × ℕ)
  | _, [] => []
  | cursor, r::ranges =>
    if (snap r).1 < cursor then taken snap cursor ranges else r::taken snap (snap r).2 ranges

/-- Behind what was looked at, the next range is passed over exactly if the cursor, the end of the
last replaced one, lies inside its first character. -/
theorem mem_taken {u : Tables} {bs : BinarySearch} {line : Text}
    {done todo : List (ℕ × ℕ)} {cursor : ℕ}
    (hall : ∀ r, r ∈ done++todo ↔ Foremost (normalizeForDetection u line) r)
    (hsorted : (done++todo).Pairwise fun r r' => r.2 ≤ r'.1)
    (hend : ∀ r ∈ done, Treated u line .replaced r → upperBorder u bs line r.2 ≤ cursor)
    (hcursor : cursor = 0 ∨ ∃ r ∈ done, Treated u line .replaced r ∧
    upperBorder u bs line r.2 = cursor)
    (r : ℕ × ℕ) : r ∈ taken (snap u bs line) cursor todo ↔ r ∈ todo ∧ Treated u line .replaced r := by
  induction todo generalizing done cursor with
  | nil => simp [taken]
  | cons d todo ih =>
    have hd : Foremost (normalizeForDetection u line) d := (hall d).mp (by simp)
    have hbefore : ∀ r ∈ done, r.2 ≤ d.1 := fun r hr => (pairwise_append.mp hsorted).2.2 r hr d
      mem_cons_self
    have hsplit : done++d::todo = (done++[d])++todo := by simp
    rw [hsplit] at hall hsorted
    rw [taken]
    split
    next hlt =>
      obtain ⟨l,hl,hreplaced,hl2⟩ := hcursor.resolve_left (by omega)
      have hmeets := (meets_iff bs hreplaced.foremost.bounds.2).mpr ⟨hbefore l hl,hl2 ▸ hlt⟩
      have hpassed : Treated u line .passedOver d := .passedOver hd hreplaced hmeets
      have hnot : ¬Treated u line .replaced d := fun h => by cases h.unique hpassed
      rw [ih hall hsorted ?_ (.inr ⟨l,mem_append_left _ hl,hreplaced,hl2⟩)]
      · constructor
        · exact And.imp_left (mem_cons_of_mem d)
        · rintro ⟨hr,h⟩
          refine ⟨(mem_cons.mp hr).resolve_left ?_,h⟩
          rintro rfl
          exact hnot h
      · rw [forall_mem_append,forall_mem_singleton]
        exact ⟨hend,fun h => absurd h hnot⟩
    next hge =>
      have hreplaced : Treated u line .replaced d := by
        refine .replaced hd fun r hr hmeets => (treated_total hr).resolve_left fun h => ?_
        obtain ⟨hle,hlt⟩ := (meets_iff bs hr.bounds.2).mp hmeets
        have hpos := hr.bounds.1
        rcases mem_append.mp ((hall r).mpr hr) with hin | hin
        · rcases mem_append.mp hin with hin | hin
          · have := hend r hin h
            exact hge (hlt.trans_le this)
          · rw [mem_singleton.mp hin] at hle hpos
            omega
        · have := (pairwise_append.mp hsorted).2.2 d (by simp) r hin
          have := hd.bounds.1
          omega
      have hfar := lowerBorder_lt_upperBorder bs hd.bounds.1 hd.bounds.2
      have hend' : ∀ r ∈ done++[d], Treated u line .replaced r →
          upperBorder u bs line r.2 ≤ upperBorder u bs line d.2 := by
        rw [forall_mem_append,forall_mem_singleton]
        refine ⟨fun r hr h => ?_,fun _ => le_rfl⟩
        have := hend r hr h
        dsimp only [snap] at hge
        omega
      have hrest := ih hall hsorted hend' (.inr ⟨d,by simp,hreplaced,rfl⟩)
      rw [mem_cons,mem_cons,or_and_right]
      refine or_congr (iff_self_and.mpr ?_) hrest
      rintro rfl
      exact hreplaced

/-- An occurrence in a stretch of the original is one between its borders. -/
theorem isInfix_slice {u : Tables} {line q : Text} {a b : ℕ} (hab : a ≤ b) (hq : q ≠ []) :
    q <:+: normalizeForDetection u ((line.take b).drop a) ↔
      ∃ o, Occurs (normalizeForDetection u line) q o ∧ border u line a ≤ o ∧
      o+q.length ≤ border u line b := by
  have hfront : line.take a = (line.take b).take a := by rw [take_take,min_eq_left hab]
  have hb : normalizeForDetection u (line.take b) =
      normalizeForDetection u (line.take a)++normalizeForDetection u ((line.take b).drop a) := by
    rw [hfront,← normalize_append,take_append_drop]
  have hlength : border u line b = border u line
    a+(normalizeForDetection u ((line.take b).drop a)).length := by
    rw [border,hb,length_append,border]
  have hwhole : normalizeForDetection u line = normalizeForDetection u (line.take a)++
      (normalizeForDetection u ((line.take b).drop a)++normalizeForDetection u (line.drop b)) := by
    conv_lhs => rw [← take_append_drop b line,normalize_append,hb]
    rw [append_assoc]
  have hdrop : ∀ k, (normalizeForDetection u line).drop (border u line a+k) =
      (normalizeForDetection u ((line.take b).drop a)++
      normalizeForDetection u (line.drop b)).drop k := by
    intro k
    rw [hwhole,← drop_drop,border,drop_left]
  constructor
  · intro h
    obtain ⟨k,hk⟩ := isInfix_iff_occurs.mp h
    have hfit := hk.le_length hq
    refine ⟨border u line a+k,?_,by omega,by omega⟩
    rw [Occurs,hdrop,drop_append_of_le_length (by omega)]
    exact hk.trans ( prefix_append _ _)
  · rintro ⟨o,ho,hleft,hright⟩
    obtain ⟨k,rfl⟩ := Nat.exists_eq_add_of_le hleft
    rw [Occurs,hdrop,drop_append_of_le_length (by omega)] at ho
    refine isInfix_iff_occurs.mpr ⟨k,prefix_of_prefix_length_le ho ( prefix_append _ _) ?_⟩
    rw [length_drop]
    omega

theorem separate_marker : ∀ p ∈ injectionPatterns, Separate p marker := by
  have hcheck : (injectionPatterns.all fun p => neverOverlap p marker) := by decide +kernel
  exact fun p hp => separate_of_neverOverlap (all_eq_true.mp hcheck p hp)

theorem le_of_mem_taken {snap : ℕ × ℕ → ℕ × ℕ}
    {ranges : List (ℕ × ℕ)} (hsnap : ∀ r ∈ ranges, (snap r).1 ≤ (snap r).2)
    {cursor : ℕ} {r : ℕ × ℕ} (h : r ∈ taken snap cursor ranges) : cursor ≤ (snap r).1 := by
  induction ranges generalizing cursor with
  | nil => cases h
  | cons d ranges ih =>
    obtain ⟨hd,hrest⟩ := forall_mem_cons.mp hsnap
    rw [taken] at h
    split at h
    next => exact ih hrest h
    next hge =>
      rcases mem_cons.mp h with rfl | h
      · exact not_lt.mp hge
      · have := ih hrest h
        omega

/-- A phrase is left exactly where it avoids every replaced range. -/
theorem isInfix_assemble (u : Confusables) {line q : Text} (hq : q ∈ injectionPatterns)
    {snap : ℕ × ℕ → ℕ × ℕ}
    {ranges : List (ℕ × ℕ)} (hsnap : ∀ r ∈ ranges, (snap r).1 ≤ (snap r).2) {cursor : ℕ}
    (hcursor : cursor ≤ line.length) (hbound : ∀ r ∈ ranges, (snap r).2 ≤ line.length) :
    q <:+: normalizeForDetection u (assemble line cursor (ranges.map snap)) ↔
      ∃ o, Occurs (normalizeForDetection u line) q o ∧ border u line cursor ≤ o ∧
        ∀ r ∈ taken snap cursor ranges, o+q.length ≤ border u line (snap r).1 ∨
        border u line (snap r).2 ≤ o := by
  have hne := patterns_ne_nil q hq
  induction ranges generalizing cursor with
  | nil =>
    have hslice : q <:+: normalizeForDetection u ((line.take line.length).drop cursor) ↔ _ :=
      isInfix_slice hcursor hne
    rw [take_length] at hslice
    refine hslice.trans (exists_congr fun o => and_congr_right fun ho => and_congr_right fun _ => ?_)
    have := ho.le_length hne
    rw [border_length]
    simp [taken,this]
  | cons d ranges ih =>
    obtain ⟨hd,hrest⟩ := forall_mem_cons.mp hsnap
    obtain ⟨hdbound,hbound⟩ := forall_mem_cons.mp hbound
    rw [map_cons,assemble,taken]
    split
    next => exact ih hrest hcursor hbound
    next hge =>
      have hlast := ih hrest hdbound hbound
      rw [normalize_append,normalize_append,normalize_marker,(separate_marker q hq).isInfix_around,
        isInfix_slice (not_lt.mp hge) hne]
      refine (or_congr_right hlast).trans ⟨?_,?_⟩
      · rintro (⟨o,ho,hleft,hright⟩ | ⟨o,ho,hleft,hrest'⟩)
        · refine ⟨o,ho,hleft,forall_mem_cons.mpr ⟨.inl hright,fun r hr => .inl ?_⟩⟩
          have := border_mono u line (hd.trans (le_of_mem_taken hrest hr))
          omega
        · have := border_mono u line ((not_lt.mp hge).trans hd)
          exact ⟨o,ho,by omega,forall_mem_cons.mpr ⟨.inr hleft,hrest'⟩⟩
      · rintro ⟨o,ho,hleft,havoid⟩
        obtain ⟨hfirst,hlater⟩ := forall_mem_cons.mp havoid
        exact hfirst.imp (fun h => ⟨o,ho,hleft,h⟩) fun h => ⟨o,ho,h,hlater⟩

/-- An "ignore the above" begins inside the character in which a replaced phrase ends, and its end
begins an "override:" behind that character; no phrase begins inside the one in which this ends. -/
def Leaves (u : Tables) (line : Text) : Prop :=
  ∃ r i k, Treated u line .replaced r ∧ border u line i < r.2 ∧ r.2 ≤ k ∧ k < border u line (i+1) ∧
    border u line (i+1) ≤ k+13 ∧
    Occurs (normalizeForDetection u line) "ignore the above".toList k ∧
    Occurs (normalizeForDetection u line) "override:".toList (k+13) ∧
    ∀ s, Foremost (normalizeForDetection u line) s → ¬Meets u line (k+13,k+22) s

def Avoids (u : Tables) (bs : BinarySearch) (line : Text) (o stop : ℕ) : Prop :=
  ∀ r, Treated u line .replaced r →
    stop ≤ border u line (lowerBorder u bs line r.1) ∨ border u line (upperBorder u bs line r.2) ≤ o

/-- What is left overlaps a phrase that was passed over, and that can only be the beginning of an
"override:". -/
theorem Avoids.leaves {u : Tables} {bs : BinarySearch} {line q : Text} {j o : ℕ}
    (hq : injectionPatterns[j]? = some q) (ho : Occurs (normalizeForDetection u line) q o)
    (havoids : Avoids u bs line o (o+q.length)) : Leaves u line := by
  obtain ⟨d,hd,hover⟩ := (clearedRanges_spec _).2 q (mem_of_getElem? hq) o ho
  have hd := (mem_clearedRanges _ d).mp hd
  obtain ⟨hod,hdo⟩ := overlapping_iff.mp hover
  dsimp only at hod hdo
  have hpassed : Treated u line .passedOver d := by
    refine (treated_total hd).resolve_left fun h => ?_
    have hlower := (lowerBorder_le u bs line d.1).2
    have hupper := (le_upperBorder bs hd.bounds.2).2
    have := havoids d h
    omega
  cases hpassed with
  | @passedOver r _ _ hr hmeets =>
    obtain ⟨i,hleft,hle,hright⟩ := hmeets
    have hrpos := hr.foremost.bounds.1
    have hlower := (lowerBorder_le u bs line r.1).2
    have hupper := border_succ_le_upperBorder bs hleft hr.foremost.bounds.2
    have hbehind : border u line (i+1) ≤ o := by
      have := havoids r hr
      omega
    obtain ⟨k,p,hp,hd2,hat,hfirst⟩ := id hd
    rcases phrase_overlap hp hq hat ho (by omega) (by omega) with ⟨-,h⟩ | ⟨rfl,rfl,hstart⟩ | ⟨hk,-,rfl⟩
    · omega
    · cases hp
      cases hq
      rw [hstart] at ho hbehind
      refine ⟨r,i,d.1,hr,hleft,hle,hright,hbehind,hat,ho,fun s hs hmeets => ?_⟩
      obtain ⟨i',hleft',hle',hright'⟩ := hmeets
      dsimp only at hleft' hle'
      -- A replaced phrase begins in that character: this one, or the one for which it is passed over.
      obtain ⟨s',hs',hpos,hbefore⟩ : ∃ s', Treated u line .replaced s' ∧
          (d.1+22 ≤ s'.1 ∨ s.1 < border u line (upperBorder u bs line s'.2)) ∧ s'.1 ≤ s.1 := by
        rcases treated_total hs with h | h
        · exact ⟨s,h,.inl hle',le_rfl⟩
        · cases h with
          | @passedOver r' _ _ hr' hmeets' =>
            obtain ⟨i'',hleft'',hle'',hright''⟩ := hmeets'
            have hupper'' := border_succ_le_upperBorder bs hleft'' hr'.foremost.bounds.2
            have := hr'.foremost.bounds.1
            exact ⟨r',hr',.inr (by omega),by omega⟩
      have hlower' := (lowerBorder_le u bs line s'.1).2
      have hlow : lowerBorder u bs line s'.1 < i'+1 := lt_of_border_lt u line (by omega)
      have hmono' := border_mono u line (Nat.le_of_lt_succ hlow)
      have hupper' := (le_upperBorder bs hs'.foremost.bounds.2).2
      have hpos' := hs'.foremost.bounds.1
      have hlength : "override:".toList.length = 9 := by decide
      have := havoids s' hs'
      omega
    · have := hfirst 5 q o hk hq ho
      rw [← Bool.not_eq_true,overlapping_iff] at this
      exact absurd ⟨hod,hdo⟩ this

theorem Leaves.avoids {u : Tables} {line : Text} (h : Leaves u line) (bs : BinarySearch) :
    ∃ o, Occurs (normalizeForDetection u line) "override:".toList o ∧ Avoids u bs line o (o+9) := by
  obtain ⟨r,i,k,hr,hleft,hle,hright,hbehind,hignore,hoverride,hfree⟩ := h
  have hd := foremost_ignore hignore
  have hpassed : Treated u line .passedOver (k,k+16) := .passedOver hd hr ⟨i,hleft,hle,hright⟩
  refine ⟨k+13,hoverride,fun s hs => ?_⟩
  have hs' := hs.foremost
  have hne : s ≠ (k,k+16) := by
    rintro rfl
    cases hs.unique hpassed
  have hapart : s.2 ≤ k ∨ k+16 ≤ s.1 := by
    by_contra hshare
    refine hne (hs'.eq_of_overlapping hd (overlapping_iff.mpr ?_))
    dsimp only
    omega
  rcases hapart with hbefore | hafter
  · right
    have hi : i < line.length := by
      by_contra hlen
      have hfull : ∀ j, line.length ≤ j → border u line j = (normalizeForDetection u line).length :=
        fun j hj => by rw [border,take_of_length_le hj]
      rw [hfull _ (by omega)] at hleft hright
      omega
    have hupper := upperBorder_le_of_lt bs (hbefore.trans_lt hright) hi
    exact (border_mono u line hupper).trans hbehind
  · left
    have hstart : k+22 ≤ s.1 := by
      obtain ⟨j,p,hp,hs2,hat,-⟩ := hs'
      have hten : injectionPatterns[10]? = some "override:".toList := rfl
      by_contra hlt
      rcases phrase_overlap hten hp hoverride hat (by omega) (by have := not_le.mp hlt; exact this) with
        ⟨-,h⟩ | ⟨h,-⟩ | ⟨-,h,-⟩ <;> omega
    have hfit := hoverride.le_length (by decide)
    have hno := hfree s hs'
    rw [meets_iff bs hfit,not_and,not_lt] at hno
    have hlower := border_mono u line (hno hstart)
    have hupper := (le_upperBorder bs hfit).2
    exact hupper.trans hlower

/-- Which phrases a line is left with. -/
theorem phrase_left_iff (u : Confusables) (bs : BinarySearch) (line : Text) :
    (∃ q ∈ injectionPatterns, q <:+: normalizeForDetection u (neutralizeInjectionPhrases u bs line)) ↔
      Leaves u line := by
  have hbounds : ∀ r ∈ clearedInOrder (normalizeForDetection u line),
      (snap u bs line r).1 ≤ (snap u bs line r).2 ∧ (snap u bs line r).2 ≤ line.length := by
    intro r hr
    obtain ⟨hpos,hfit⟩ := (mem_clearedInOrder.mp hr).bounds
    exact ⟨(lowerBorder_lt_upperBorder bs hpos hfit).le,(le_upperBorder bs hfit).1⟩
  have htaken : ∀ r, r ∈ taken (snap u bs line) 0 (clearedInOrder (normalizeForDetection u line)) ↔
      Treated u line .replaced r := by
    intro r
    have hall : ∀ r, r ∈ []++clearedInOrder (normalizeForDetection u line) ↔
        Foremost (normalizeForDetection u line) r := fun r => mem_clearedInOrder
    refine (mem_taken hall (clearedInOrder_pairwise _) (by simp) (.inl rfl) r).trans ?_
    exact and_iff_right_of_imp fun h => mem_clearedInOrder.mpr h.foremost
  have hleft : ∀ q ∈ injectionPatterns, (q <:+: normalizeForDetection u
    (neutralizeInjectionPhrases u bs line) ↔
      ∃ o, Occurs (normalizeForDetection u line) q o ∧ Avoids u bs line o (o+q.length)) := by
    intro q hq
    rw [neutralize_eq,isInfix_assemble u hq (fun r hr => (hbounds r hr).1) (Nat.zero_le _)
      fun r hr => (hbounds r hr).2]
    simp only [htaken,border_zero,Nat.zero_le,true_and]
    rfl
  constructor
  · rintro ⟨q,hq,hin⟩
    obtain ⟨o,ho,havoids⟩ := (hleft q hq).mp hin
    obtain ⟨j,hj⟩ := mem_iff_getElem?.mp hq
    exact havoids.leaves hj ho
  · intro h
    obtain ⟨o,ho,havoids⟩ := h.avoids bs
    have hq : "override:".toList ∈ injectionPatterns := by decide
    exact ⟨_,hq,(hleft _ hq).mpr ⟨o,ho,havoids⟩⟩
end Hirn.Sanitize
