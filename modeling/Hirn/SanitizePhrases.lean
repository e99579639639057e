import Hirn.MatchScan
import Hirn.Sanitize

/-! Phrases of a line are cleared in the normalized text: all that no phrase earlier in the table
overlaps. Each is taken to the whole characters of the original that cover it. -/
namespace Hirn.Sanitize
open Deletions FilterLang MatchScan List DetectionMap
variable {p q : Text} {i : ℕ}

theorem find_eq_some (h : find pattern text = some i) :
    Occurs text pattern i ∧ ∀ j, j < i → ¬Occurs text pattern j := by
  induction text generalizing i with
  | nil =>
    rw [find] at h
    split at h
    · rename_i hnil
      cases h
      subst hnil
      exact ⟨ nil_prefix,by simp⟩
    · cases h
  | cons c text ih =>
    rw [find] at h
    split at h
    · rename_i hfront
      cases h
      exact ⟨ isPrefixOf_iff_prefix.mp hfront,by simp⟩
    · rename_i hfront
      obtain ⟨k,hk,rfl⟩ := Option.map_eq_some_iff.mp h
      obtain ⟨hat,hbefore⟩ := ih hk
      refine ⟨hat,fun j hj => ?_⟩
      cases j with
      | zero => exact fun h => hfront ( isPrefixOf_iff_prefix.mpr h)
      | succ j => exact hbefore j (by omega)

theorem find_eq_none : find pattern text = none ↔ ¬pattern <:+: text := by
  induction text with
  | nil => simp [find]
  | cons c text ih =>
    rw [find,infix_cons_iff,← isPrefixOf_iff_prefix]
    split
    · rename_i hfront
      simp [hfront]
    · rename_i hfront
      rw [Option.map_eq_none_iff,ih]
      simp [hfront]

theorem findAll_eq_nil (fuel : ℕ) : findAll pattern text (fuel+1) 0 = [] ↔ ¬pattern <:+: text := by
  rw [← find_eq_none,findAll,drop_zero]
  cases find pattern text <;> simp

variable {line : Text} {c : Char} {j : ℕ}

theorem toLower_graphic : ∀ n, n < 128 → isGraphic (Char.ofNat n) →
    isGraphic (Char.ofNat n).toLower ∧ (Char.ofNat n).toLower.toNat < 128 ∧
      (Char.ofNat n).toLower.toLower = (Char.ofNat n).toLower := by
  decide +kernel

theorem detectionChars_graphic (u : Confusables) (h : isGraphic c) :
    detectionChars u c = [c.toLower] := by
  have hlt : c.toNat < 128 := by
    simp only [isGraphic,Bool.and_eq_true,decide_eq_true_eq] at h
    omega
  have hc : Char.ofNat c.toNat = c := Char.ofNat_toNat c
  obtain ⟨hgraphic,hascii,hlower⟩ := toLower_graphic c.toNat hlt (by rwa [hc])
  rw [hc] at hgraphic hascii hlower
  simp [detectionChars,u.toLowercase_ascii c hlt,u.skeleton_graphic _ hgraphic,
    u.toLowercase_ascii _ hascii]

theorem normalize_append (u : Tables) (s t : Text) :
    normalizeForDetection u (s++t) = normalizeForDetection u s++normalizeForDetection u t :=
    flatMap_append

theorem normalize_graphic (u : Confusables) {s : Text} (h : ∀ c ∈ s, isGraphic c) :
    normalizeForDetection u s = s.map Char.toLower := by
  induction s with
  | nil => rfl
  | cons c s ih =>
    have htail := ih fun d hd => h d (mem_cons_of_mem c hd)
    rw [normalizeForDetection] at htail ⊢
    rw [flatMap_cons,detectionChars_graphic u (h c mem_cons_self),htail]
    rfl

theorem normalize_marker (u : Confusables) : normalizeForDetection u marker = marker := by
  have hgraphic : marker.all isGraphic := by decide
  have hlower : marker.map Char.toLower = marker := by decide
  rw [normalize_graphic u (all_eq_true.mp hgraphic),hlower]

variable (u : Tables)

def border (line : Text) (i : ℕ) : ℕ := (normalizeForDetection u (line.take i)).length

variable {u}

theorem border_zero : border u line 0 = 0 := rfl

theorem border_length : border u line line.length = (normalizeForDetection u line).length := by
  rw [border,take_length]

theorem border_succ (h : (line)[i]? = some c) :
    border u line (i+1) = border u line i+(detectionChars u c).length := by
  rw [border,take_add_one,h,normalize_append,length_append,← border]
  simp [normalizeForDetection]

theorem border_mono (u : Tables) (line : Text) (h : i ≤ j) : border u line i ≤ border u line j := by
  have hfront : line.take i = (line.take j).take i := by rw [take_take,min_eq_left h]
  rw [border,border,hfront,← take_append_drop i (line.take j),normalize_append,length_append,
    take_append_drop]
  exact Nat.le_add_right _ _

theorem build_eq (line : Text) : build u line = ⟨normalizeForDetection u line,
    (List.range (line.length+1)).map fun i => (border u line i,i)⟩ := by
  induction line using List.reverseRecOn with
  | nil => rfl
  | append_singleton line c ih =>
    rw [build] at ih ⊢
    have hsame : ∀ i ∈ List.range (line.length+1), (border u (line++[c]) i,i) =
      (border u line i,i) := by
      intro i hi
      rw [border,border,take_append_of_le_length (by simpa using hi)]
    rw [zipIdx_append,foldl_append,ih,length_append,length_singleton,
      range_succ (n := line.length+1),map_append,map_congr_left hsame]
    simp [border,normalizeForDetection]

variable {k k' : ℕ} (u) (bs : BinarySearch) (line : Text)

def borders : List ℕ := (List.range (line.length+1)).map (border u line)

def lowerBorder (k : ℕ) : ℕ :=
  match bs.search (borders u line) k with
  | .ok i => i
  | .err i => i-1

def upperBorder (k : ℕ) : ℕ :=
  match bs.search (borders u line) k with
  | .ok i => i
  | .err i => i

variable {u bs line}

theorem borders_sorted : (borders u line).Pairwise (· ≤ ·) := by
  rw [borders,pairwise_map]
  exact pairwise_le_range.imp fun h => border_mono u line h

theorem getElem?_borders {x : ℕ} : (borders u line)[i]? = some x ↔ i ≤ line.length ∧
    border u line i = x := by
  rw [borders,getElem?_map,Option.map_eq_some_iff]
  constructor
  · rintro ⟨j,hj,rfl⟩
    obtain ⟨hlt,rfl⟩ := List.getElem?_eq_some_iff.mp hj
    rw [length_range] at hlt
    rw [getElem_range]
    exact ⟨by omega,rfl⟩
  · rintro ⟨hle,rfl⟩
    exact ⟨i,by simp [hle],rfl⟩

theorem search_ok (h : bs.search (borders u line) k = .ok i) : i ≤ line.length ∧ border u line i = k :=
  getElem?_borders.mp (bs.found _ k i borders_sorted h)

theorem search_err (h : bs.search (borders u line) k = .err i) :
    (∀ j, j < i → j ≤ line.length → border u line j < k) ∧ ∀ j, i ≤ j → j ≤ line.length →
    k < border u line j := by
  obtain ⟨-,hkeys⟩ := bs.missed _ k i borders_sorted h
  constructor
  · intro j hji hj
    exact (hkeys j _ (getElem?_borders.mpr ⟨hj,rfl⟩)).1 hji
  · intro j hij hj
    exact (hkeys j _ (getElem?_borders.mpr ⟨hj,rfl⟩)).2 hij

theorem lowerBorder_le (u : Tables) (bs : BinarySearch) (line : Text) (k : ℕ) :
    lowerBorder u bs line k ≤ line.length ∧ border u line (lowerBorder u bs line k) ≤ k := by
  unfold lowerBorder
  cases h : bs.search (borders u line) k with
  | ok i =>
    obtain ⟨hi,hborder⟩ := search_ok h
    exact ⟨hi,hborder.le⟩
  | err i =>
    obtain ⟨hbelow,habove⟩ := search_err h
    obtain ⟨hle,-⟩ := bs.missed _ k i borders_sorted h
    have hlength : (borders u line).length = line.length+1 := by simp [borders]
    have hpos : 0 < i := by
      by_contra hzero
      have := habove 0 (by omega) (Nat.zero_le _)
      rw [border_zero] at this
      omega
    exact ⟨by dsimp only; omega,(hbelow (i-1) (by omega) (by omega)).le⟩

theorem le_upperBorder (bs : BinarySearch) (hk : k ≤ (normalizeForDetection u line).length) :
    upperBorder u bs line k ≤ line.length ∧ k ≤ border u line (upperBorder u bs line k) := by
  unfold upperBorder
  cases h : bs.search (borders u line) k with
  | ok i =>
    obtain ⟨hi,hborder⟩ := search_ok h
    exact ⟨hi,hborder.ge⟩
  | err i =>
    obtain ⟨hbelow,habove⟩ := search_err h
    have hle : i ≤ line.length := by
      by_contra hgt
      have := hbelow line.length (by omega) le_rfl
      rw [border_length] at this
      omega
    exact ⟨hle,(habove i le_rfl hle).le⟩

/-- Where a range begins before the border at which another ends, both lie in one character. -/
theorem shared_char (hk' : k' ≤ (normalizeForDetection u line).length) (hkk : k' ≤ k)
    (h : lowerBorder u bs line k < upperBorder u bs line k') :
    ∃ i c, upperBorder u bs line k' = i+1 ∧ (line)[i]? = some c ∧ border u line i < k' ∧
    k < border u line (i+1) := by
  have hupper := (le_upperBorder bs hk').1
  unfold lowerBorder upperBorder at h
  unfold upperBorder at hupper ⊢
  cases h' : bs.search (borders u line) k' with
  | ok i' =>
    rw [h'] at h hupper
    obtain ⟨hi',hborder'⟩ := search_ok h'
    cases hs : bs.search (borders u line) k with
    | ok i =>
      rw [hs] at h
      dsimp only at h
      obtain ⟨hi,hborder⟩ := search_ok hs
      have hmono := border_mono u line h.le
      have heq : k = k' := by omega
      subst heq
      rw [hs] at h'
      cases h'
      omega
    | err i =>
      rw [hs] at h
      dsimp only at h
      have := (search_err hs).2 i' (by omega) hi'
      omega
  | err i' =>
    rw [h'] at h hupper
    dsimp only at h hupper ⊢
    obtain ⟨hbelow,habove⟩ := search_err h'
    obtain ⟨i,rfl⟩ : ∃ i, i' = i+1 := ⟨i'-1,by omega⟩
    refine ⟨i,(line)[i],rfl,getElem?_eq_getElem (by omega),hbelow i (by omega) (by omega),?_⟩
    cases hs : bs.search (borders u line) k with
    | ok j =>
      rw [hs] at h
      obtain ⟨hj,hborder⟩ := search_ok hs
      have := hbelow j h hj
      omega
    | err j =>
      rw [hs] at h
      dsimp only at h
      exact (search_err hs).2 (i+1) (by omega) hupper

theorem getD_checkpoints (hi : i ≤ line.length) (d : ℕ × ℕ) :
    ((build u line).checkpoints.getD i d).2 = i := by
  rw [build_eq,getD_eq_getElem?_getD,getElem?_map,getElem?_range (by omega)]
  rfl

theorem toOriginal_eq (k : ℕ) (hk : k' ≤ (normalizeForDetection u line).length) :
    (build u line).toOriginal bs k k' = (lowerBorder u bs line k,upperBorder u bs line k') := by
  have hkeys : (build u line).checkpoints.map Prod.fst = borders u line := by
    rw [build_eq,map_map]
    rfl
  have hlower := (lowerBorder_le u bs line k).1
  have hupper := (le_upperBorder bs hk).1
  rw [toOriginal,hkeys]
  unfold lowerBorder upperBorder at *
  cases hs : bs.search (borders u line) k <;> cases hs' : bs.search (borders u line) k' <;>
    simp only [hs,hs'] at hlower hupper ⊢ <;> rw [getD_checkpoints hlower,getD_checkpoints hupper]

variable {o : ℕ} {r r' : ℕ × ℕ} {cleared : List (ℕ × ℕ)}

section
variable {normalized : Text}

theorem overlapping_iff : overlapping r r' ↔ r.1 < r'.2 ∧ r'.1 < r.2 := by
  simp [overlapping]

theorem findUncleared_some {range : ℕ × ℕ}
    (h : findUncleared normalized pattern cleared = some range) :
    ∃ i, range = (i,i+pattern.length) ∧ Occurs normalized pattern i ∧
    ∀ r ∈ cleared, overlapping range r = false := by
  suffices hloop : ∀ fuel start, findUnclearedFrom normalized pattern cleared fuel start = some range →
      ∃ i, range = (i,i+pattern.length) ∧ Occurs normalized pattern i ∧
      ∀ r ∈ cleared, overlapping range r = false from
    hloop _ _ h
  intro fuel
  induction fuel with
  | zero => intro start h; cases h
  | succ fuel ih =>
    intro start h
    rw [findUnclearedFrom] at h
    split at h
    · cases h
    · rename_i rel hrel
      dsimp only at h
      split at h
      · exact ih _ h
      · rename_i hnone
        cases h
        refine ⟨start+rel,rfl,?_,fun r hr => by simpa using find?_eq_none.mp hnone r hr⟩
        have hat := (find_eq_some hrel).1
        rwa [Occurs,drop_drop] at hat

/-- Whatever the search passes over overlaps a range that is cleared. -/
theorem findUncleared_none (hp : pattern ≠ []) (h : findUncleared normalized pattern cleared = none)
    (hat : Occurs normalized pattern i) : ∃ r ∈ cleared, overlapping (i,i+pattern.length) r := by
  suffices hloop : ∀ fuel start, normalized.length+1 ≤ fuel+start → start ≤ i →
      findUnclearedFrom normalized pattern cleared fuel start = none →
      ∃ r ∈ cleared, overlapping (i,i+pattern.length) r = true from hloop _ 0 le_rfl (Nat.zero_le i) h
  have hfit := hat.le_length hp
  intro fuel
  induction fuel with
  | zero => intro start hfuel hstart _; omega
  | succ fuel ih =>
    intro start hfuel hstart h
    have hrest : Occurs (normalized.drop start) pattern (i-start) := by
      rw [Occurs,drop_drop,Nat.add_sub_cancel' hstart]
      exact hat
    rw [findUnclearedFrom] at h
    split at h
    · rename_i hnone
      exact absurd (isInfix_iff_occurs.mpr ⟨_,hrest⟩) (find_eq_none.mp hnone)
    · rename_i rel hrel
      have hfirst : start+rel ≤ i := by
        by_contra hlt
        exact (find_eq_some hrel).2 (i-start) (by omega) hrest
      dsimp only at h
      split at h
      · rename_i r hr
        obtain ⟨hleft,hright⟩ := overlapping_iff.mp (find?_some hr)
        by_cases hbehind : r.2 ≤ i
        · exact ih r.2 (by omega) hbehind h
        · exact ⟨r,mem_of_find?_eq_some hr,overlapping_iff.mpr ⟨by dsimp only; omega,by dsimp only; omega⟩⟩
      · cases h

/-- The ranges as they are cleared: each overlaps none before it, and every occurrence of higher
priority does. -/
inductive Cleared (normalized : Text) : List (ℕ × ℕ) → Prop
  | nil : Cleared normalized []
  | snoc {cleared : List (ℕ × ℕ)} {k i : ℕ} {p : Text} : Cleared normalized cleared →
      injectionPatterns[k]? = some p →
      Occurs normalized p i → (∀ r ∈ cleared, overlapping (i,i+p.length) r = false) →
      (∀ j q o, j < k → injectionPatterns[j]? = some q → Occurs normalized q o →
        ∃ r ∈ cleared, overlapping (o,o+q.length) r = true) →
        Cleared normalized (cleared++[(i,i+p.length)])

theorem patterns_ne_nil : ∀ p ∈ injectionPatterns, p ≠ [] := by decide

variable (h : Cleared normalized cleared)
include h

theorem Cleared.mem (hr : r ∈ cleared) : ∃ (k : ℕ) (p : Text),
    injectionPatterns[k]? = some p ∧ r.2 = r.1+p.length ∧ Occurs normalized p r.1 ∧
      ∀ j q o, j < k → injectionPatterns[j]? = some q → Occurs normalized q o →
        ∃ r' ∈ cleared, r' ≠ r ∧ overlapping (o,o+q.length) r' := by
  induction h with
  | nil => cases hr
  | @snoc cleared k i p _ hp hat hapart hpriority ih =>
    rcases mem_append.mp hr with hr | hr
    · obtain ⟨k',p',hp',hr2,hat',hpriority'⟩ := ih hr
      refine ⟨k',p',hp',hr2,hat',fun j q o hj hq ho => ?_⟩
      obtain ⟨r',hr',hrest⟩ := hpriority' j q o hj hq ho
      exact ⟨r',mem_append_left _ hr',hrest⟩
    · rw [mem_singleton.mp hr]
      refine ⟨k,p,hp,rfl,hat,fun j q o hj hq ho => ?_⟩
      obtain ⟨r',hr',hover⟩ := hpriority j q o hj hq ho
      refine ⟨r',mem_append_left _ hr',?_,hover⟩
      rintro rfl
      have hpos := length_pos_of_ne_nil (patterns_ne_nil p (mem_of_getElem? hp))
      have := hapart _ hr'
      simp [overlapping,hpos] at this

theorem Cleared.disjoint (hr : r ∈ cleared) (hr' : r' ∈ cleared) (hne : r ≠ r') :
    r.2 ≤ r'.1 ∨ r'.2 ≤ r.1 := by
  induction h with
  | nil => cases hr
  | @snoc cleared k i p _ hp hat hapart hpriority ih =>
    have hnew : ∀ s ∈ cleared, s.2 ≤ i ∨ i+p.length ≤ s.1 := by
      intro s hs
      have := hapart s hs
      simp only [overlapping,Bool.and_eq_false_iff,decide_eq_false_iff_not,not_lt] at this
      exact this
    rcases mem_append.mp hr with hr | hr <;> rcases mem_append.mp hr' with hr' | hr'
    · exact ih hr hr'
    · rw [mem_singleton.mp hr']
      exact hnew r hr
    · rw [mem_singleton.mp hr]
      exact (hnew r' hr').symm
    · exact absurd ((mem_singleton.mp hr).trans (mem_singleton.mp hr').symm) hne

theorem Cleared.bounds (hr : r ∈ cleared) : r.1 < r.2 ∧ r.2 ≤ normalized.length := by
  obtain ⟨k,p,hp,hr2,hat,-⟩ := h.mem hr
  have hne := patterns_ne_nil p (mem_of_getElem? hp)
  have hpos := length_pos_of_ne_nil hne
  have hfit := hat.le_length hne
  omega

theorem Cleared.nodup_starts : (cleared.map Prod.fst).Nodup := by
  induction h with
  | nil => simp
  | @snoc cleared k i p h hp hat hapart hpriority ih =>
    rw [map_append,nodup_append]
    refine ⟨ih,nodup_singleton i,?_⟩
    rintro a ha b hb rfl
    obtain ⟨r,hr,rfl⟩ := mem_map.mp ha
    obtain rfl := mem_singleton.mp hb
    have hpos := length_pos_of_ne_nil (patterns_ne_nil p (mem_of_getElem? hp))
    have := hapart r hr
    simp [overlapping,hpos,(h.bounds hr).1] at this

theorem Cleared.length_le : cleared.length ≤ normalized.length := by
  have hsub : cleared.map Prod.fst ⊆ List.range normalized.length := by
    intro a ha
    obtain ⟨r,hr,rfl⟩ := mem_map.mp ha
    have := h.bounds hr
    exact mem_range.mpr (by omega)
  have := (subperm_of_subset h.nodup_starts hsub).length_le
  rwa [length_map,length_range] at this

omit h

theorem clearedRanges_spec (normalized : Text) : Cleared normalized (clearedRanges normalized) ∧
    ∀ p ∈ injectionPatterns, ∀ o, Occurs normalized p o →
      ∃ r ∈ clearedRanges normalized, overlapping (o,o+p.length) r := by
  suffices hloop : ∀ fuel cleared, normalized.length+1 ≤ fuel+cleared.length →
    Cleared normalized cleared →
      Cleared normalized (clearLoop normalized fuel cleared) ∧ ∀ p ∈ injectionPatterns, ∀ o,
      Occurs normalized p o →
        ∃ r ∈ clearLoop normalized fuel cleared, overlapping (o,o+p.length) r = true from hloop _ []
        (by simp) .nil
  intro fuel
  induction fuel with
  | zero =>
    intro cleared hfuel h
    have := h.length_le
    omega
  | succ fuel ih =>
    intro cleared hfuel h
    rw [clearLoop]
    split
    · rename_i range hrange
      obtain ⟨before,p,behind,hpatterns,hsome,hbefore⟩ := findSome?_eq_some_iff.mp hrange
      obtain ⟨i,rfl,hat,hapart⟩ := findUncleared_some hsome
      refine ih _ (by simp; omega) (h.snoc (k := before.length) ?_ hat hapart fun j q o hj hq ho => ?_)
      · rw [hpatterns]
        simp
      · rw [hpatterns,getElem?_append_left hj] at hq
        have hmem : q ∈ injectionPatterns := by
          rw [hpatterns]
          exact mem_append_left _ (mem_of_getElem? hq)
        exact findUncleared_none (patterns_ne_nil q hmem) (hbefore q (mem_of_getElem? hq)) ho
    · rename_i hnone
      exact ⟨h,fun p hp o ho => findUncleared_none (patterns_ne_nil p hp)
        (findSome?_eq_none_iff.mp hnone p hp) ho⟩

theorem overlaps_table : ((List.range 12).all fun k => (List.range 12).all fun j =>
    (List.range 32).all fun d =>
    decide (d = 0) && decide (k = j) ||
      !overlapsAt (injectionPatterns.getD k []) (injectionPatterns.getD j []) d ||
      decide (k = 2) && decide (j = 10) && decide (d = 13) ||
      decide (5 < k) && decide (k < 9) && decide (j = 5)) := by
  decide +kernel

theorem patterns_length : ∀ p ∈ injectionPatterns, p.length ≤ 32 := by decide

theorem phrase_overlap {c : ℕ} (hp : injectionPatterns[k]? = some p)
    (hq : injectionPatterns[j]? = some q) (hc : Occurs text p c) (ho : Occurs text q o) (hle : c ≤ o)
    (hin : o < c+p.length) : k = j ∧ c = o ∨ k = 2 ∧ j = 10 ∧ o = c+13 ∨ 5 < k ∧ k < 9 ∧ j = 5 := by
  have hover := hc.overlapsAt ho hle hin
  have hk : k < 12 := (List.getElem?_eq_some_iff.mp hp).1
  have hj : j < 12 := (List.getElem?_eq_some_iff.mp hq).1
  have hd : o-c < 32 := by
    have := patterns_length p (mem_of_getElem? hp)
    omega
  have hrow := all_eq_true.mp overlaps_table k (mem_range.mpr hk)
  have hentry := all_eq_true.mp (all_eq_true.mp hrow j (mem_range.mpr hj)) (o-c) (mem_range.mpr hd)
  simp only [List.getD_eq_getElem?_getD,hp,hq,Option.getD_some,hover,Bool.not_true,Bool.or_false,
    Bool.or_eq_true,Bool.and_eq_true,decide_eq_true_eq] at hentry
  omega

def Foremost (normalized : Text) (r : ℕ × ℕ) : Prop :=
  ∃ (k : ℕ) (p : Text), injectionPatterns[k]? = some p ∧ r.2 = r.1+p.length ∧ Occurs normalized p r.1 ∧
    ∀ (j : ℕ) (q : Text) (o : ℕ), j < k → injectionPatterns[j]? = some q → Occurs normalized q o →
      overlapping (o,o+q.length) r = false

theorem Foremost.bounds {r : ℕ × ℕ} (h : Foremost normalized r) :
    r.1 < r.2 ∧ r.2 ≤ normalized.length := by
  obtain ⟨k,p,hp,hr2,hat,-⟩ := h
  have hne := patterns_ne_nil p (mem_of_getElem? hp)
  have hpos := length_pos_of_ne_nil hne
  have hfit := hat.le_length hne
  omega

theorem Foremost.eq_of_overlapping {r d : ℕ × ℕ} (h : Foremost normalized r)
    (hd : Foremost normalized d) (hover : overlapping r d) : r = d := by
  wlog hle : r.1 ≤ d.1 generalizing r d
  · refine (this hd h ?_ (by omega)).symm
    rw [overlapping_iff] at hover ⊢
    exact hover.symm
  obtain ⟨hleft,hright⟩ := overlapping_iff.mp hover
  obtain ⟨k,p,hp,hr2,hat,hfirst⟩ := h
  obtain ⟨kd,pd,hpd,hd2,hatd,hfirstd⟩ := hd
  rcases phrase_overlap hp hpd hat hatd hle (by omega) with ⟨rfl,hstart⟩ | ⟨rfl,rfl,-⟩ | ⟨hk,-,rfl⟩
  · cases hp.symm.trans hpd
    exact Prod.ext hstart (by omega)
  · have := hfirstd 2 p r.1 (by omega) hp hat
    rw [← hr2,hover] at this
    cases this
  · have := hfirst 5 pd d.1 hk hpd hatd
    rw [← hd2,← Bool.not_eq_true,overlapping_iff] at this
    exact absurd ⟨hright,hleft⟩ this

theorem foremost_ignore {k : ℕ} (h : Occurs normalized "ignore the above".toList k) :
    Foremost normalized (k,k+16) := by
  have hignore : injectionPatterns[2]? = some "ignore the above".toList := rfl
  refine ⟨2,_,hignore,rfl,h,fun j q o hj hq ho => ?_⟩
  rw [← Bool.not_eq_true,overlapping_iff]
  rintro ⟨hleft,hright⟩
  rcases le_total k o with hle | hle
  · rcases phrase_overlap hignore hq h ho hle hleft with ⟨rfl,-⟩ | ⟨-,rfl,-⟩ | ⟨-,-,rfl⟩ <;> omega
  · rcases phrase_overlap hq hignore ho h hle hright with ⟨rfl,-⟩ | ⟨rfl,-,-⟩ | ⟨h,-,-⟩ <;> omega

/-- What is cleared in place of an earlier phrase that overlaps a range would overlap it as well. -/
theorem Cleared.foremost {cleared : List (ℕ × ℕ)} {r : ℕ × ℕ} (h : Cleared normalized cleared)
    (hr : r ∈ cleared) : Foremost normalized r := by
  obtain ⟨k,p,hp,hr2,hat,hpriority⟩ := h.mem hr
  refine ⟨k,p,hp,hr2,hat,fun j q o hj hq ho => ?_⟩
  rw [← Bool.not_eq_true,overlapping_iff]
  rintro ⟨hleft,hright⟩
  obtain ⟨d,hd,hdr,hover⟩ := hpriority j q o hj hq ho
  obtain ⟨hod,hdo⟩ := overlapping_iff.mp hover
  obtain ⟨kd,pd,hpd,hd2,hatd,-⟩ := h.mem hd
  have hapart := h.disjoint hd hr hdr
  have hsome := h.bounds hd
  rcases le_total r.1 o with hle | hle
  · rcases phrase_overlap hp hq hat ho hle (by omega) with ⟨rfl,-⟩ | ⟨rfl,rfl,-⟩ | ⟨-,-,rfl⟩
    · omega
    · omega
    · rcases phrase_overlap hq hpd ho hatd (by omega) hdo with ⟨-,h⟩ | ⟨h,-⟩ | ⟨h,-⟩ <;> omega
  · rcases phrase_overlap hq hp ho hat hle hright with ⟨rfl,-⟩ | ⟨rfl,rfl,hstart⟩ | ⟨hj5,-,rfl⟩
    · omega
    · have hq16 : q.length = 16 := by
        cases hq
        decide
      have hp9 : p.length = 9 := by
        cases hp
        decide
      rcases le_total d.1 o with hdle | hdle
      · rcases phrase_overlap hpd hq hatd ho hdle (by omega) with ⟨rfl,h⟩ | ⟨-,h,-⟩ | ⟨-,-,h⟩
        · cases hpd.symm.trans hq
          omega
        · omega
        · omega
      · rcases phrase_overlap hq hpd ho hatd hdle hdo with ⟨rfl,h⟩ | ⟨-,-,h⟩ | ⟨h,-,-⟩
        · cases hpd.symm.trans hq
          omega
        · omega
        · omega
    · omega

theorem mem_clearedRanges (normalized : Text) (r : ℕ × ℕ) :
    r ∈ clearedRanges normalized ↔ Foremost normalized r := by
  obtain ⟨hcleared,hcomplete⟩ := clearedRanges_spec normalized
  refine ⟨hcleared.foremost,fun h => ?_⟩
  obtain ⟨k,p,hp,hr2,hat,-⟩ := id h
  obtain ⟨d,hd,hover⟩ := hcomplete p (mem_of_getElem? hp) r.1 hat
  rw [← hr2] at hover
  rwa [h.eq_of_overlapping (hcleared.foremost hd) hover]
end
end Hirn.Sanitize
