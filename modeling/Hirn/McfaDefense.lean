import Hirn.Bytes
import Hirn.MatchScan

/-! Detection of injected instructions in retrieved contents. The automaton reports matches that
do not overlap, and only then is the word boundary looked at: a match that is thrown away may have
covered a phrase that stands at word boundaries. -/
namespace Hirn.Mcfa
open MatchScan Bytes List

def toAsciiLowercase (b : UInt8) : UInt8 := if 65 ≤ b ∧ b ≤ 90 then b+32 else b
def isAsciiAlphanumeric (b : UInt8) : Bool :=
  (48 ≤ b ∧ b ≤ 57) ∨ (65 ≤ b ∧ b ≤ 90) ∨ (97 ≤ b ∧ b ≤ 122)

structure McfaConfig where
  minContentLength : ℕ := 5
  maxContentLength : ℕ := 50000

def injectionPatterns : List String :=
  ["ignore previous instructions","ignore all previous","disregard all prior",
  "forget your instructions",
    "forget all previous","override your instructions","you are now dan","pretend you are",
    "system prompt:","[system]","[inst]","[/inst]","<|im_start|>system","do not follow your original",
    "ignore the above","disregard the above","reveal your system prompt","output your instructions",
    "repeat your prompt"]

def fold (text : List UInt8) : List UInt8 := text.map toAsciiLowercase

def phrases : List (List UInt8) := injectionPatterns.map (fun p => fold (bytes p))

/-- Matches come as they are seen, not leftmost-first, and case is folded. -/
def injectionAutomaton (content : List UInt8) : List Match := findIter phrases (fold content)
def continuesWord (b : UInt8) : Bool := isAsciiAlphanumeric b || b == 95

variable (content : List UInt8)

def isWordByte (idx : ℕ) : Bool := content[idx]?.any continuesWord

def checkInjectionPatterns : Option String :=
  ((injectionAutomaton content).find? (fun m =>
    (m.start == 0 || !isWordByte content (m.start-1)) &&
      (content.length ≤ m.stop || !isWordByte content m.stop))).map
      (fun m => injectionPatterns.getD m.pattern "")

def checkLengthAnomaly (config : McfaConfig) : Option String :=
  if content.length < config.minContentLength then
    some ("content too short ("++toString content.length++" bytes, min " ++
      toString config.minContentLength++")")
  else if config.maxContentLength < content.length then
    some ("content too long ("++toString content.length++" bytes, max " ++
      toString config.maxContentLength++")")
  else none

def injectionReason (pattern : String) : String := "prompt injection pattern: '"++pattern++"'"

def detectThreat (content : List UInt8) (config : McfaConfig) : Option String :=
  match checkInjectionPatterns content with
  | some pattern => some (injectionReason pattern)
  | none => checkLengthAnomaly content config

/-- A phrase at `s`, in any case, with no word byte at its ends. -/
structure Standalone (content : List UInt8) (pattern : String) (s : ℕ) : Prop where
  listed : pattern ∈ injectionPatterns
  occurs : Occurs (fold content) (fold (bytes pattern)) s
  before : s ≠ 0 → isWordByte content (s-1) = false
  behind : isWordByte content (s+(bytes pattern).length) = false

/-- A phrase that runs into another: the stem, and the phrase behind it. -/
structure Cover where
  (pattern stem hidden : String)

def covers : List Cover :=
  [⟨"pretend you are","pretend ","you are now dan"⟩,
  ⟨"<|im_start|>system","<|im_start|>","system prompt:"⟩,
    ⟨"reveal your system prompt","reveal your ","system prompt:"⟩]

/-- Two phrases end as `reveal` begins: inside them it is not seen and covers nothing. -/
def swallowed : List String := ["disregard all prioreveal your ","pretend you areveal your "]

/-- The phrase at `s` follows the stem of a covering phrase that continues a word. -/
def Masked (content : List UInt8) (pattern : String) (s : ℕ) : Prop :=
  ∃ c ∈ covers, c.hidden = pattern ∧ fold (bytes c.stem) <:+ (fold content).take s ∧
    (bytes c.stem).length < s ∧ isWordByte content (s-(bytes c.stem).length-1) = true ∧
    ∀ u ∈ swallowed, ¬bytes u <:+ (fold content).take s

theorem length_fold (text : List UInt8) : (fold text).length = text.length := length_map _

theorem continuesWord_toAsciiLowercase (b : UInt8) :
    continuesWord (toAsciiLowercase b) = continuesWord b := by
  have hall : ∀ n : Fin 256, continuesWord (toAsciiLowercase (UInt8.ofNat n)) =
      continuesWord (UInt8.ofNat n) := by decide +kernel
  have hb := hall ⟨b.toNat,b.toNat_lt⟩
  rwa [UInt8.ofNat_toNat] at hb

theorem isWordByte_fold (content : List UInt8) (i : ℕ) :
    isWordByte (fold content) i = isWordByte content i := by
  rw [isWordByte,isWordByte,fold,getElem?_map]
  cases content[i]? with
  | none => rfl
  | some b => exact continuesWord_toAsciiLowercase b

theorem antichain_phrases : Antichain phrases := by
  unfold Antichain
  decide +kernel

theorem overlap_cases : ∀ p ∈ phrases, ∀ q ∈ phrases, ∀ n < p.length, 0 < n → p.drop n <+: q →
    isWordByte p (n-1) ∨ ∃ c ∈ covers, p = fold (bytes c.pattern) ∧ q = fold (bytes c.hidden) ∧
      n = (bytes c.stem).length := by
  decide +kernel

variable {m : Match}

theorem phrase_getD {p : List UInt8} (h : phrases[m.pattern]? = some p) :
    injectionPatterns.getD m.pattern "" ∈ injectionPatterns ∧
      p = fold (bytes (injectionPatterns.getD m.pattern "")) := by
  rw [phrases,getElem?_map,Option.map_eq_some_iff] at h
  obtain ⟨pattern,hget,rfl⟩ := h
  rw [getD_eq_getElem?_getD,hget]
  exact ⟨mem_of_getElem? hget,rfl⟩

theorem covers_phrases : ∀ c ∈ covers, fold (bytes c.pattern) ∈ phrases ∧
    fold (bytes c.pattern) <+: fold (bytes c.stem)++fold (bytes c.hidden) ∧
    fold (bytes c.stem) <+: fold (bytes c.pattern) ∧ 0 < (bytes c.stem).length ∧
    (bytes c.stem).length < (bytes c.pattern).length ∧
    (bytes c.pattern).length-(bytes c.stem).length < (bytes c.hidden).length ∧
    isWordByte (fold (bytes c.hidden)) ((bytes c.pattern).length-(bytes c.stem).length) = false := by
  decide +kernel

theorem covers_hidden : ∀ c ∈ covers, ∀ pattern ∈ injectionPatterns,
    fold (bytes pattern) = fold (bytes c.hidden) → c.hidden = pattern := by
  decide +kernel

theorem covers_overlapped : ∀ c ∈ covers, ∀ p ∈ phrases, ∀ n < p.length, 0 < n →
    p.drop n <+: fold (bytes c.pattern) → ∃ u ∈ swallowed, p.take n++fold (bytes c.stem) =
    bytes u := by
  decide +kernel

theorem swallowed_phrases : ∀ c ∈ covers, ∀ u ∈ swallowed, (bytes c.stem).length <
    (bytes u).length ∧ (fold (bytes c.stem) <:+ bytes u → ∃ p ∈ phrases, p <+: bytes u ∧
      (bytes u).length < p.length+(bytes c.stem).length ∧
      ∀ q ∈ phrases, ∀ n < q.length, 0 < n → ¬q.drop n <+: p) := by
  decide +kernel

variable {content : List UInt8}

theorem standalone_of_match (hm : m ∈ injectionAutomaton content)
    (hbefore : m.start ≠ 0 → isWordByte content (m.start-1) = false)
    (hbehind : isWordByte content m.stop = false) :
    Standalone content (injectionPatterns.getD m.pattern "") m.start := by
  obtain ⟨p,hp,hstop,hoccurs⟩ := mem_findIter hm
  obtain ⟨hlisted,rfl⟩ := phrase_getD hp
  refine ⟨hlisted,hoccurs,hbefore,?_⟩
  rwa [hstop,length_fold] at hbehind

variable {pattern : String}

theorem check_eq_some (h : checkInjectionPatterns content = some pattern) :
    ∃ m ∈ injectionAutomaton content, Standalone content pattern m.start := by
  rw [checkInjectionPatterns,Option.map_eq_some_iff] at h
  obtain ⟨m,hm,rfl⟩ := h
  have hbounded := find?_some hm
  have hmem := mem_of_find?_eq_some hm
  simp only [Bool.and_eq_true,Bool.or_eq_true,beq_iff_eq,Bool.not_eq_true',
    decide_eq_true_eq] at hbounded
  refine ⟨m,hmem,standalone_of_match hmem ?_ ?_⟩
  · intro hstart
    exact hbounded.1.resolve_left hstart
  · rcases hbounded.2 with hlength | hbehind
    · rw [isWordByte,getElem?_eq_none hlength]
      rfl
    · exact hbehind

theorem check_ne_none (hm : m ∈ injectionAutomaton content)
    (hbefore : m.start ≠ 0 → isWordByte content (m.start-1) = false)
    (hbehind : isWordByte content m.stop = false) : checkInjectionPatterns content ≠ none := by
  rw [checkInjectionPatterns,Ne,Option.map_eq_none_iff,find?_eq_none]
  intro hnone
  apply hnone m hm
  simp only [Bool.and_eq_true,Bool.or_eq_true,beq_iff_eq,Bool.not_eq_true']
  exact ⟨or_iff_not_imp_left.mpr hbefore,.inr hbehind⟩

/-- A masked phrase is not reported: the covering phrase is, and reaches into it. -/
theorem start_ne_of_masked {s : ℕ}
    (hat : Occurs (fold content) (fold (bytes pattern)) s) (hmasked : Masked content pattern s) :
    ∀ m ∈ injectionAutomaton content, m.start ≠ s := by
  obtain ⟨c,hc,rfl,hstem,hlong,-,hswallowed⟩ := hmasked
  obtain ⟨hphrase,hfront,-,hstempos,hstemlt,hhidden,-⟩ := covers_phrases c hc
  rintro m hm rfl
  have hs : m.start ≤ (fold content).length := by
    have := hat.le_length (ne_nil_of_length_pos (by rw [length_fold]; omega))
    omega
  have hstemAt := occurs_of_suffix_take hstem hs
  rw [length_fold] at hstemAt
  have hcover : Occurs (fold content) (fold (bytes c.pattern)) (m.start-(bytes c.stem).length) := by
    refine (hstemAt.append ?_).of_front hfront
    rwa [length_fold,Nat.sub_add_cancel hlong.le]
  obtain ⟨m',hm',p,hp,hat',hstop,hcase⟩ := reported_or_overlapped antichain_phrases hphrase hcover
  obtain ⟨q,hq,hmstop,-⟩ := mem_findIter hm
  rcases hcase with ⟨hstart,rfl⟩ | ⟨hstart,hinside,hoverlap⟩
  · rw [length_fold] at hstop
    have hsame : m = m' := findIter_disjoint hm hm' (by omega) (by omega)
    subst hsame
    omega
  · obtain ⟨u,hu,htake⟩ := covers_overlapped c hc p (mem_of_getElem? hp) _ (by omega)
      (by omega) hoverlap
    have hfirst := hat'.of_front ( take_prefix (m.start-(bytes c.stem).length-m'.start) p)
    have hlast : m'.start+(p.take (m.start-(bytes c.stem).length-m'.start)).length =
        m.start-(bytes c.stem).length := by
      rw [length_take_of_le (by omega)]
      omega
    rw [← hlast] at hstemAt
    have hwhole := hfirst.append hstemAt
    have hend : m'.start+(bytes u).length = m.start := by
      rw [← htake,length_append,length_fold]
      omega
    rw [htake] at hwhole
    have hsuffix := hwhole.suffix_take (hend.trans_le hs)
    rw [hend] at hsuffix
    exact hswallowed u hu hsuffix

theorem not_swallowed {c : Cover} (hc : c ∈ covers) {s : ℕ}
    (hm : m ∈ injectionAutomaton content) (hstart : m.start+(bytes c.stem).length = s)
    (hlt : m.start < m.stop)
    (hs : s ≤ (fold content).length) (hstem : fold (bytes c.stem) <:+ (fold content).take s) :
    ∀ u ∈ swallowed, ¬bytes u <:+ (fold content).take s := by
  intro u hu hsuffix
  obtain ⟨hlen,hfacts⟩ := swallowed_phrases c hc u hu
  have hends : fold (bytes c.stem) <:+ bytes u :=
    suffix_of_suffix_length_le hstem hsuffix (by rw [length_fold]; omega)
  obtain ⟨p,hp,hfront,hreach,hfree⟩ := hfacts hends
  have hat := (occurs_of_suffix_take hsuffix hs).of_front hfront
  have hulen := hsuffix.length_le
  rw [length_take_of_le hs] at hulen
  obtain ⟨m',hm',q,hq,-,hstop,hcase⟩ := reported_or_overlapped antichain_phrases hp hat
  rcases hcase with ⟨hat',rfl⟩ | ⟨hearly,hinside,hoverlap⟩
  · have hsame : m = m' := findIter_disjoint hm hm' (by omega) (by omega)
    subst hsame
    omega
  · exact hfree q (mem_of_getElem? hq) _ (by omega) (by omega) hoverlap

/-- A phrase at word boundaries that is not masked leads to a report. -/
theorem check_of_standalone {s : ℕ} (h : Standalone content pattern s)
    (hmasked : ¬Masked content pattern s) : checkInjectionPatterns content ≠ none := by
  have hphrase : fold (bytes pattern) ∈ phrases := mem_map.mpr ⟨pattern,h.listed,rfl⟩
  obtain ⟨m,hm,p,hp,hat,hstop,hcase⟩ := reported_or_overlapped antichain_phrases hphrase h.occurs
  rcases hcase with ⟨rfl,rfl⟩ | ⟨hstart,hinside,hoverlap⟩
  · apply check_ne_none hm h.before
    rw [hstop,length_fold]
    exact h.behind
  · rcases overlap_cases p (mem_of_getElem? hp) _ hphrase _ (by omega) (by omega) hoverlap with
      hword | ⟨c,hc,rfl,hhidden,hlength⟩
    · -- the phrase would begin inside a word
      have hbefore := h.before (by omega)
      rw [← isWordByte_fold,isWordByte,show s-1 = m.start+(s-m.start-1) by omega,
        hat.getElem? (by omega)] at hbefore
      rw [isWordByte,hbefore] at hword
      cases hword
    · obtain ⟨-,-,hstem,-,hstemlt,hhid,hends⟩ := covers_phrases c hc
      have hpattern : c.hidden = pattern := covers_hidden c hc pattern h.listed hhidden
      subst hpattern
      have hfit := h.occurs.le_length (antichain_phrases.1 _ hphrase)
      have hs : m.start+(bytes c.stem).length = s := by omega
      have hstemAt : fold (bytes c.stem) <:+ (fold content).take s := by
        have hsuffix := (hat.of_front hstem).suffix_take (by rw [length_fold]; omega)
        rwa [length_fold,hs] at hsuffix
      have hbehind : isWordByte content m.stop = false := by
        rw [← isWordByte_fold,isWordByte,hstop,length_fold]
        rw [isWordByte] at hends
        rw [← hends,← h.occurs.getElem? (by rw [length_fold]; omega)]
        congr 2
        omega
      by_contra hnone
      apply hmasked
      have hword : m.start ≠ 0 ∧ isWordByte content (m.start-1) := by
        by_contra hcon
        rw [not_and,Bool.not_eq_true] at hcon
        exact check_ne_none hm hcon hbehind hnone
      refine ⟨c,hc,rfl,hstemAt,by omega,?_,?_⟩
      · rw [← hs,Nat.add_sub_cancel]
        exact hword.2
      · exact not_swallowed hc hm hs (by omega) (by omega) hstemAt

theorem check_ne_none_iff (content : List UInt8) : checkInjectionPatterns content ≠ none ↔
    ∃ pattern s, Standalone content pattern s ∧ ¬Masked content pattern s := by
  constructor
  · intro h
    obtain ⟨pattern,hpattern⟩ := Option.ne_none_iff_exists'.mp h
    obtain ⟨m,hm,hstandalone⟩ := check_eq_some hpattern
    refine ⟨pattern,m.start,hstandalone,?_⟩
    intro hmasked
    exact start_ne_of_masked hstandalone.occurs hmasked m hm rfl
  · rintro ⟨pattern,s,hstandalone,hmasked⟩
    exact check_of_standalone hstandalone hmasked

theorem head_append {a : String} {c : Char} (b : String) (h : a.toList.head? = some c) :
    (a++b).toList.head? = some c := by
  rw [String.toList_append,head?_append,h]
  rfl

theorem checkLengthAnomaly_ne {config : McfaConfig} :
    checkLengthAnomaly content config ≠ some (injectionReason pattern) := by
  have hinjection : (injectionReason pattern).toList.head? = some 'p' :=
    head_append _ (head_append _ (by decide))
  intro h
  rw [checkLengthAnomaly] at h
  split_ifs at h
  all_goals
    rw [← Option.some.inj h,head_append _ (head_append _ (head_append _ (head_append _
      (show _ = some 'c' by decide))))] at hinjection
    cases hinjection

def ReportsInjection (content : List UInt8) (config : McfaConfig) : Prop :=
  ∃ pattern ∈ injectionPatterns, detectThreat content config = some (injectionReason pattern)

theorem reportsInjection_iff (content : List UInt8) (config : McfaConfig) :
    ReportsInjection content config ↔ checkInjectionPatterns content ≠ none := by
  constructor
  · rintro ⟨pattern,-,h⟩ hnone
    rw [detectThreat,hnone] at h
    exact checkLengthAnomaly_ne h
  · intro h
    obtain ⟨pattern,hpattern⟩ := Option.ne_none_iff_exists'.mp h
    obtain ⟨m,hm,hstandalone⟩ := check_eq_some hpattern
    refine ⟨pattern,hstandalone.listed,?_⟩
    rw [detectThreat,hpattern]

/-- Detection is right exactly if, where phrases stand at word boundaries, one is not masked. -/
theorem detection_complete_iff (content : List UInt8) (config : McfaConfig) :
    (ReportsInjection content config ↔ ∃ pattern s, Standalone content pattern s) ↔
      ((∃ pattern s, Standalone content pattern s) →
        ∃ pattern s, Standalone content pattern s ∧ ¬Masked content pattern s) := by
  rw [reportsInjection_iff,check_ne_none_iff]
  constructor
  · intro h hfound
    exact h.mpr hfound
  · intro h
    refine ⟨?_,h⟩
    rintro ⟨pattern,s,hstandalone,-⟩
    exact ⟨pattern,s,hstandalone⟩

/-- The discarded match on `pretend you are` hides the phrase behind it. -/
theorem detection_misses_masked : Standalone (bytes "xpretend you are now dan") "you are now dan"
      9 ∧ detectThreat (bytes "xpretend you are now dan") {} = none := by
  refine ⟨⟨by decide,by decide +kernel,?_,by decide +kernel⟩,by decide +kernel⟩
  decide +kernel
end Hirn.Mcfa
