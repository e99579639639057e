import Hirn.SanitizedText

/-! The two ways back from a match in the skeleton to the line: the detector's walk, and the search
of the sanitizer. The walk takes note of an offset only where it meets it, so the two part on a
match that begins or ends inside what a character expands to. -/
namespace Hirn.Sanitize
open Deletions FilterLang MatchScan List DetectionMap
variable {u : Tables} {bs : BinarySearch} {line rest : Text} {s e i j start stop : ℕ}

def byteAt (line : Text) (i : ℕ) : ℕ := utf8Len (line.take i)

/-- The smallest range of whole characters whose expansion covers `[s,e)`. -/
structure Smallest (u : Tables) (line : Text) (s e : ℕ) (r : ℕ × ℕ) : Prop where
  bounded : r.1 ≤ line.length ∧ r.2 ≤ line.length
  (covers_start : border u line r.1 ≤ s) (covers_end : e ≤ border u line r.2)
  least : ∀ i, border u line i ≤ s → i ≤ r.1
  greatest : ∀ j, j ≤ line.length → e ≤ border u line j → r.2 ≤ j

def MappingsAgree (u : Tables) (bs : BinarySearch) (line : Text) (s e : ℕ) : Prop :=
  let r := (build u line).toOriginal bs s e
  charByteRange u line s e = (byteAt line r.1,byteAt line r.2) ∧ Smallest u line s e r

/-- The walk meets the start and the end, or ends where they lie inside the first and the last
character. -/
structure Met (u : Tables) (line : Text) (s e : ℕ) : Prop where
  start : s < border u line 1 ∨ ∃ i ≤ line.length, border u line i = s
  stop : border u line (line.length-1) < e ∨ ∃ i ≤ line.length, border u line i = e

theorem detectionCharCount_eq (c : Char) : detectionCharCount u c = (detectionChars u c).length := by
  rw [detectionCharCount,detectionChars,length_flatMap]

theorem byteAt_succ {c : Char} (hc : (line)[i]? = some c) :
    byteAt line (i+1) = byteAt line i+c.utf8Size := by
  rw [byteAt,byteAt,take_add_one,hc]
  simp [utf8Len]

theorem byteAt_lt (hij : i < j) (hj : j ≤ line.length) : byteAt line i < byteAt line j := by
  induction hij with
  | refl =>
    rw [byteAt_succ (getElem?_eq_getElem hj)]
    exact Nat.lt_add_of_pos_right (Char.utf8Size_pos _)
  | step hij ih =>
    rw [byteAt_succ (getElem?_eq_getElem hj)]
    omega

section
variable (hne : ∀ c ∈ line, detectionChars u c ≠ [])
include hne

theorem border_lt_succ (hi : i < line.length) : border u line i < border u line (i+1) := by
  rw [border_succ (getElem?_eq_getElem hi)]
  have := length_pos_iff.mpr (hne _ (getElem_mem hi))
  omega

theorem border_lt (hij : i < j) (hj : j ≤ line.length) : border u line i < border u line j :=
  (border_lt_succ hne (by omega)).trans_le (border_mono u line hij)

theorem walk_eq (hse : s < e) (hrest : line.drop i = rest) (hi : i ≤ line.length) :
    charByteRangeFrom u s e rest (byteAt line i) (border u line i) (start,stop) =
      (((range' i (rest.length+1)).find? (border u line · = s)).elim start (byteAt line),
        ((range' i (rest.length+1)).find? (border u line · = e)).elim stop (byteAt line)) := by
  induction rest generalizing i start with
  | nil =>
    rw [charByteRangeFrom]
    by_cases hs : border u line i = s <;> by_cases he : border u line i = e <;> simp [hs,he,hse.ne,
      hse.ne']
  | cons c rest ih =>
    have hc : (line)[i]? = some c := by rw [← head?_drop,hrest]; rfl
    have htail : line.drop (i+1) = rest := by rw [← tail_drop,hrest]; rfl
    have hlen : line.length = i+rest.length+1 := by
      have := congrArg length hrest
      simp at this
      omega
    have hbehind : ∀ k ≤ border u line i, (range' (i+1) (rest.length+1)).find?
      (border u line · = k) = none := by
      intro k hk
      rw [find?_eq_none]
      intro j hj
      have := border_lt hne (i := i) (j := j) (by simp at hj; omega) (by simp at hj; omega)
      simp
      omega
    rw [charByteRangeFrom,range'_succ]
    by_cases he : border u line i = e
    · simp [he,hse.ne',hbehind s (by omega)]
    · rw [detectionCharCount_eq,← border_succ hc,← byteAt_succ hc,ih htail (by omega)]
      by_cases hs : border u line i = s
      · simp [hs,hse.ne,hbehind s hs.ge]
      · simp [he,hs]

theorem smallest_toOriginal (bs : BinarySearch) (hse : s < e)
    (he : e ≤ (normalizeForDetection u line).length) :
    Smallest u line s e ((build u line).toOriginal bs s e) := by
  rw [toOriginal_eq s he]
  obtain ⟨hupper,hend⟩ := le_upperBorder bs he
  refine ⟨⟨(lowerBorder_le u bs line s).1,hupper⟩,(lowerBorder_le u bs line s).2,hend,
    fun i hi => ?_,fun j hj hej => ?_⟩
  · have hlen : i ≤ line.length := by
      by_contra hlt
      have := border_mono u line (Nat.le_of_not_le hlt)
      rw [border_length] at this
      omega
    cases i with
    | zero => exact Nat.zero_le _
    | succ i => exact le_lowerBorder hi (border_lt_succ hne hlen) hlen
  · rcases hj.eq_or_lt with rfl | hlt
    · exact hupper
    · exact upperBorder_le hej (border_lt_succ hne hlt) hj
end

theorem elim_find_iff {k d r : ℕ} (hd : d ≤ line.length) (hr : r ≤ line.length)
    (hmet : ∀ i ≤ line.length, border u line i = k → i = r) :
    ((range' 0 (line.length+1)).find? (border u line · = k)).elim (byteAt line d)
    (byteAt line) = byteAt line r ↔
      r = d ∨ ∃ i ≤ line.length, border u line i = k := by
  cases hfind : (range' 0 (line.length+1)).find? (border u line · = k) with
  | none =>
    have hnone : ¬ ∃ i ≤ line.length, border u line i = k := by
      rintro ⟨i,hi,hborder⟩
      exact find?_eq_none.mp hfind i (by simp; omega) (by simpa using hborder)
    rw [or_iff_left hnone]
    refine ⟨fun h => ?_,fun h => by rw [h]; rfl⟩
    rcases lt_trichotomy r d with hlt | rfl | hlt
    · exact absurd h (byteAt_lt hlt hd).ne'
    · rfl
    · exact absurd h (byteAt_lt hlt hr).ne
  | some i =>
    have hborder : border u line i = k := by simpa using find?_some hfind
    have hi : i ≤ line.length := by
      have := mem_of_find?_eq_some hfind
      simp at this
      omega
    exact iff_of_true (congrArg (byteAt line) (hmet i hi hborder)) (.inr ⟨i,hi,hborder⟩)

namespace Smallest
variable {r : ℕ × ℕ} (h : Smallest u line s e r)
include h

theorem start_eq_zero : r.1 = 0 ↔ s < border u line 1 := by
  constructor
  · by_contra hle
    have := h.least 1 (by omega)
    omega
  · intro hlt
    by_contra hpos
    have := border_mono u line (Nat.one_le_iff_ne_zero.mpr hpos)
    have := h.covers_start
    omega

theorem end_eq_length (hse : s < e) : r.2 = line.length ↔ border u line (line.length-1) < e := by
  have hbounded := h.bounded.2
  constructor
  · by_contra hle
    have := h.greatest (line.length-1) (by omega) (by omega)
    have hzero : line.length-1 = 0 := by omega
    rw [hzero,border_zero] at hle
    omega
  · by_contra hlen
    have := border_mono u line (show r.2 ≤ line.length-1 by omega)
    have := h.covers_end
    omega

variable (hne : ∀ c ∈ line, detectionChars u c ≠ [])
include hne

theorem eq_start (hborder : border u line i = s) : i = r.1 := by
  refine (h.least i hborder.le).antisymm ?_
  by_contra hlt
  have := border_lt hne (Nat.lt_of_not_le hlt) h.bounded.1
  have := h.covers_start
  omega

theorem eq_end (hi : i ≤ line.length) (hborder : border u line i = e) : i = r.2 := by
  refine le_antisymm ?_ (h.greatest i hi hborder.ge)
  by_contra hlt
  have := border_lt hne (Nat.lt_of_not_le hlt) hi
  have := h.covers_end
  omega
end Smallest

/-- The mappings agree exactly on the matches whose ends the walk meets. -/
theorem mappings_agree_iff {u : Tables} {bs : BinarySearch} {line : Text} {s e : ℕ}
    (hne : ∀ c ∈ line, detectionChars u c ≠ []) (hse : s < e)
    (he : e ≤ (normalizeForDetection u line).length) :
    MappingsAgree u bs line s e ↔ Met u line s e := by
  have hsmall := smallest_toOriginal hne bs hse he
  have hwalk : charByteRangeFrom u s e line _ _ (byteAt line 0,byteAt line line.length) = _ :=
    walk_eq hne hse drop_zero (Nat.zero_le _)
  have hfull : byteAt line line.length = utf8Len line := by rw [byteAt,take_length]
  rw [hfull] at hwalk
  have hrange : charByteRange u line s e = _ := hwalk
  rw [MappingsAgree,and_iff_left hsmall,hrange,← hfull,Prod.mk.injEq,
    elim_find_iff (Nat.zero_le _) hsmall.bounded.1 fun i _ => hsmall.eq_start hne,
    elim_find_iff le_rfl hsmall.bounded.2 fun i => hsmall.eq_end hne,hsmall.start_eq_zero,
    hsmall.end_eq_length hse]
  exact ⟨fun h => ⟨h.1,h.2⟩,fun h => ⟨h.start,h.stop⟩⟩

theorem mappings_agree_ligature : MappingsAgree ligatureTables linearSearch
    "aﬁjailbreak".toList 3 12 := by
  have hne : ∀ c, detectionChars ligatureTables c ≠ [] := by
    intro c
    simp only [detectionChars,ligatureTables,flatMap_singleton]
    split <;> simp
  exact (mappings_agree_iff (fun c _ => hne c) (by decide) (by decide +kernel)).mpr
    ⟨.inr ⟨2,by decide,by decide⟩,.inr ⟨11,by decide,by decide⟩⟩

/-- A phrase that begins with the second half of a ligature is reported from the start of the line. -/
theorem split_match_widens : detectInjection ligatureTables "aﬁgnore the above".toList =
      [⟨.injectionPhrase,"ignore the above".toList,0,19⟩] ∧
    (build ligatureTables "aﬁgnore the above".toList).toOriginal linearSearch 2 18 = (1,17) ∧
    ¬MappingsAgree ligatureTables linearSearch "aﬁgnore the above".toList 2 18 := by
  refine ⟨by decide +kernel,by decide +kernel,fun h => ?_⟩
  exact absurd h.1 (by decide +kernel)
end Hirn.Sanitize
