import Hirn.ReplacedPhrases

/-! What the detector finds in sanitized text. Tokens are deleted in one pass over their table, so
one whose turn is past may come up again, and a phrase that hides another may be passed over. Nothing
else is left. -/
namespace Hirn.Sanitize
open Deletions FilterLang MatchScan List
variable {line : Text} {u : Tables} {bs : BinarySearch} {a b : Text}

theorem line_induction {motive : Text → Prop} (hline : ∀ a, '\n' ∉ a → motive a)
    (hbreak : ∀ a b, '\n' ∉ a → motive b → motive (a ++ '\n'::b)) (text : Text) : motive text := by
  induction hn : text.length using Nat.strong_induction_on generalizing text with
  | _ n ih =>
    by_cases h : '\n' ∈ text
    · obtain ⟨a,b,rfl,ha⟩ := eq_append_cons_of_mem h
      have hlt : b.length < n := by
        rw [length_append,length_cons] at hn
        omega
      exact hbreak a b ha (ih b.length hlt b rfl)
    · exact hline text h

theorem splitInclusive_append (h : '\n' ∉ a) (b : Text) :
    splitInclusive (a ++ '\n'::b) = (a++['\n'])::splitInclusive b := by
  induction a with
  | nil => simp [splitInclusive]
  | cons c a ih =>
    have hc : c ≠ '\n' := fun heq => h (by simp [heq])
    rw [cons_append,splitInclusive,if_neg hc,ih fun ha => h (mem_cons_of_mem c ha)]
    rfl

theorem splitInclusive_line (h : '\n' ∉ a) (hne : a ≠ []) : splitInclusive a = [a] := by
  induction a with
  | nil => exact absurd rfl hne
  | cons c a ih =>
    have hc : c ≠ '\n' := fun heq => h (by simp [heq])
    rw [splitInclusive,if_neg hc]
    by_cases ha : a = []
    · subst ha
      rfl
    · rw [ih (fun hin => h (mem_cons_of_mem c hin)) ha]

theorem mem_splitInclusive {raw : Text} (h : raw ∈ splitInclusive text) :
    ∃ a, '\n' ∉ a ∧ (raw = a ∨ raw = a++['\n']) ∧ ∀ c ∈ a, c ∈ text := by
  induction text using line_induction with
  | hline a ha =>
    by_cases hne : a = []
    · subst hne
      cases h
    · rw [splitInclusive_line ha hne,mem_singleton] at h
      exact ⟨a,ha,.inl h,fun c hc => hc⟩
  | hbreak a b ha ih =>
    rw [splitInclusive_append ha] at h
    rcases mem_cons.mp h with rfl | h
    · exact ⟨a,ha,.inr rfl,fun c hc => mem_append_left _ hc⟩
    · obtain ⟨a',ha',hraw,hsub⟩ := ih h
      exact ⟨a',ha',hraw,fun c hc => mem_append_right a (mem_cons_of_mem _ (hsub c hc))⟩

theorem mem_lines (h : line ∈ lines text) : '\n' ∉ line ∧ ∀ c ∈ line, c ∈ text := by
  obtain ⟨raw,hraw,rfl⟩ := mem_map.mp h
  obtain ⟨a,ha,heq,hsub⟩ := mem_splitInclusive hraw
  have hline : ∀ c ∈ lineOf raw, c ∈ a := by
    intro c hc
    rcases heq with rfl | rfl
    · have hlast : raw.getLast? ≠ some '\n' := fun hlast => ha (mem_of_getLast? hlast)
      rwa [lineOf,if_neg hlast] at hc
    · simp only [lineOf,getLast?_append,getLast?_singleton,Option.some_or,if_true,
        dropLast_concat] at hc
      split at hc
      · exact dropLast_subset a hc
      · exact hc
  exact ⟨fun hin => ha (hline _ hin),fun c hc => hsub c (hline c hc)⟩

def EachLine (Q : Text → Prop) (text : Text) : Prop := ∀ raw ∈ splitInclusive text, Q (trimLineEnd raw)

theorem eachLine_line (hnil : Q []) (h : '\n' ∉ a) : EachLine Q a ↔ Q (trimLineEnd a) := by
  rw [EachLine]
  by_cases hne : a = []
  · subst hne
    simpa [splitInclusive,trimLineEnd] using hnil
  · rw [splitInclusive_line h hne]
    simp

theorem trimLineEnd_break (a : Text) : trimLineEnd (a++['\n']) = trimLineEnd a := by
  simp [trimLineEnd]

theorem eachLine_append (hnil : Q []) (a b : Text) :
    EachLine Q (a ++ '\n'::b) ↔ EachLine Q a ∧ EachLine Q b := by
  induction a using line_induction with
  | hline a ha =>
    rw [eachLine_line hnil ha,EachLine,splitInclusive_append ha,forall_mem_cons,trimLineEnd_break]
    rfl
  | hbreak a a' ha ih =>
    rw [EachLine,EachLine,append_assoc,cons_append,splitInclusive_append ha,
      splitInclusive_append ha,forall_mem_cons,forall_mem_cons,and_assoc]
    exact and_congr_right fun _ => ih

/-- The body of the loop of `sanitizeForLlm`. -/
def joinLine (u : Tables) (bs : BinarySearch) (output line : Text) : Text :=
  match sanitizeLine u bs line with
  | none => output
  | some cleaned => if output = [] then cleaned else output ++ '\n'::cleaned

theorem eachLine_sanitizeForLlm (hnil : Q []) {input : Text}
    (hbreak : ∀ line ∈ lines input, ∀ out, sanitizeLine u bs line = some out → '\n' ∉ out) :
    EachLine Q (sanitizeForLlm u bs input) ↔
      ∀ line ∈ lines input, ∀ out, sanitizeLine u bs line = some out → Q (trimLineEnd out) := by
  suffices hloop : ∀ output, EachLine Q ((lines input).foldl (joinLine u bs) output) ↔
      EachLine Q output ∧ ∀ line ∈ lines input, ∀ out, sanitizeLine u bs line = some out →
      Q (trimLineEnd out) by
    have hempty : EachLine Q [] := by simp [EachLine,splitInclusive]
    exact (hloop []).trans (and_iff_right hempty)
  generalize lines input = ls at hbreak ⊢
  induction ls with
  | nil => simp
  | cons line ls ih =>
    intro output
    have hrest := ih fun l hl => hbreak l (mem_cons_of_mem line hl)
    rw [foldl_cons,forall_mem_cons]
    cases hout : sanitizeLine u bs line with
    | none => simpa [joinLine,hout] using hrest output
    | some cleaned =>
      have hlast := eachLine_line hnil (hbreak line mem_cons_self cleaned hout)
      simp only [Option.some.injEq,forall_eq']
      rw [hrest,joinLine,hout]
      dsimp only
      split
      · rename_i hempty
        subst hempty
        have hnone : EachLine Q [] := by simp [EachLine,splitInclusive]
        rw [hlast,and_iff_right hnone]
      · rw [eachLine_append hnil,hlast,and_assoc]

/-- A line in which the detector finds nothing. -/
structure Clean (u : Tables) (line : Text) : Prop where
  tokens : ∀ t ∈ chatTemplateTokens, ¬t <:+: line
  system : startsSystem (trimStart line) = false
  phrases : ∀ p ∈ injectionPatterns, ¬p <:+: normalizeForDetection u line

theorem tokens_ne_nil : ∀ t ∈ chatTemplateTokens, t ≠ [] := by decide

theorem clean_nil : Clean u [] where
  tokens t ht := by
    rw [infix_nil]
    exact tokens_ne_nil t ht
  system := rfl
  phrases p hp := by
    rw [normalizeForDetection,flatMap_nil,infix_nil]
    exact patterns_ne_nil p hp

theorem detectLine_eq_nil (line : Text) (lineStart : ℕ) :
    detectLine u line lineStart = [] ↔ Clean u line := by
  have htokens : detectTokens line lineStart = [] ↔ ∀ t ∈ chatTemplateTokens, ¬t <:+: line := by
    rw [detectTokens,flatMap_eq_nil_iff]
    refine forall₂_congr fun t ht => ?_
    rw [map_eq_nil_iff,findAll_eq_nil]
  have hsystem : detectSystem line lineStart = [] ↔ startsSystem (trimStart line) = false := by
    rw [detectSystem]
    cases startsSystem (trimStart line) with
    | false => exact ⟨fun _ => rfl,fun _ => rfl⟩
    | true => constructor <;> intro h <;> cases h
  have hphrases : detectPhrases u line lineStart = [] ↔
      ∀ p ∈ injectionPatterns, ¬p <:+: normalizeForDetection u line := by
    rw [detectPhrases,flatMap_eq_nil_iff]
    refine forall₂_congr fun p hp => ?_
    rw [map_eq_nil_iff,findAll_eq_nil]
  rw [detectLine,append_eq_nil_iff,append_eq_nil_iff,htokens,hsystem,hphrases]
  exact ⟨fun ⟨⟨ht,hs⟩,hp⟩ => ⟨ht,hs,hp⟩,fun h => ⟨⟨h.tokens,h.system⟩,h.phrases⟩⟩

theorem detectInjection_eq_nil (input : Text) :
    detectInjection u input = [] ↔ EachLine (Clean u) input := by
  have hlines : ∀ raws lineStart, detectLines u lineStart raws = [] ↔
    ∀ raw ∈ raws, Clean u (trimLineEnd raw) := by
    intro raws
    induction raws with
    | nil => simp [detectLines]
    | cons raw raws ih =>
      intro lineStart
      rw [detectLines,append_eq_nil_iff,detectLine_eq_nil,ih,forall_mem_cons]
  have hperm := perm_insertionSort findingLe (detectLines u 0 (splitInclusive input))
  rw [detectInjection,EachLine,← hlines _ 0]
  constructor
  · intro h
    rw [h] at hperm
    exact hperm.symm.eq_nil
  · intro h
    rw [h]
    rfl

variable {a b cursor : ℕ} {t : Text}

theorem tokens_plain (ht : t ∈ chatTemplateTokens) (hc : c ∈ t) :
    isGraphic c ∧ isWhitespace c = false := by
  have hall : (chatTemplateTokens.all fun t => t.all fun c => isGraphic c && !isWhitespace c) := by
    decide
  have hboth := all_eq_true.mp (all_eq_true.mp hall t ht) c hc
  rwa [Bool.and_eq_true,Bool.not_eq_true'] at hboth

theorem tokens_head (ht : t ∈ chatTemplateTokens) : t.head? = some '<' ∨ t.head? = some '[' := by
  revert t
  decide

theorem tokens_apart : Apart chatTemplateTokens :=
  apart_of_drop (by decide) (by decide) (by decide +kernel) (by decide +kernel)

theorem stripChatTokens_eq (line : Text) :
    stripChatTokens line = deleteEach chatTemplateTokens line := by
  rw [stripChatTokens]
  split
  · rfl
  · rename_i hnone
    have habsent : ∀ t ∈ chatTemplateTokens, remove t line = line := by
      intro t ht
      refine remove_of_not_isInfix (tokens_ne_nil t ht) (find_eq_none.mp ?_)
      simp only [any_eq_true,contains,not_exists,not_and,Bool.not_eq_true,
        Option.isSome_eq_false_iff,Option.isNone_iff_eq_none] at hnone
      exact hnone t ht
    rw [deleteEach]
    generalize chatTemplateTokens = ts at habsent ⊢
    induction ts with
    | nil => rfl
    | cons t ts ih =>
      rw [foldl_cons,habsent t mem_cons_self]
      exact ih fun t ht => habsent t (mem_cons_of_mem _ ht)

theorem isInfix_dropWhile (hne : t ≠ []) (ht : ∀ c ∈ t, f c = false) :
    t <:+: s.dropWhile f ↔ t <:+: s := by
  refine ⟨fun h => h.trans (dropWhile_suffix f).isInfix,fun h => ?_⟩
  induction s with
  | nil => exact h
  | cons c s ih =>
    by_cases hc : f c = true
    · rw [dropWhile_cons_of_pos hc]
      rcases infix_cons_iff.mp h with hfront | hlater
      · obtain ⟨d,t,rfl⟩ := exists_cons_of_ne_nil hne
        obtain ⟨rfl,-⟩ := cons_prefix_cons.mp hfront
        rw [ht d mem_cons_self] at hc
        cases hc
      · exact ih hlater
    · rwa [dropWhile_cons_of_neg hc]

theorem isInfix_rdropWhile (hne : t ≠ []) (ht : ∀ c ∈ t, f c = false) :
    t <:+: s.rdropWhile f ↔ t <:+: s := by
  rw [List.rdropWhile,← reverse_infix,reverse_reverse,
    isInfix_dropWhile (by simpa using hne) (by simpa using ht), reverse_infix]

section
variable (ht : t ∈ chatTemplateTokens)
include ht

theorem token_trim : t <:+: trim s ↔ t <:+: s := by
  have hplain : ∀ c ∈ t, isWhitespace c = false := fun c hc => (tokens_plain ht hc).2
  rw [trim,isInfix_rdropWhile (tokens_ne_nil t ht) hplain,trimStart,
    isInfix_dropWhile (tokens_ne_nil t ht) hplain]

theorem not_isPureDelimiter (h : t <:+: s) : isPureDelimiter s = false := by
  have hhead : ∃ c ∈ trim s, c = '<' ∨ c = '[' := by
    have hsub := ((token_trim ht).mpr h).subset
    rcases tokens_head ht with hc | hc
    · exact ⟨_,hsub (mem_of_head? hc),.inl rfl⟩
    · exact ⟨_,hsub (mem_of_head? hc),.inr rfl⟩
  obtain ⟨c,hc,hcase⟩ := hhead
  rw [isPureDelimiter]
  split
  · rfl
  · rw [Bool.and_eq_false_iff]
    right
    rw [all_eq_false]
    refine ⟨c,hc,?_⟩
    rcases hcase with rfl | rfl <;> decide

theorem separate_markers : Separate t marker ∧ Separate t "[SYSTEM]".toList := by
  have hcheck : (chatTemplateTokens.all fun t => neverOverlap t marker &&
    neverOverlap t "[SYSTEM]".toList) := by
    decide +kernel
  have := all_eq_true.mp hcheck t ht
  rw [Bool.and_eq_true] at this
  exact ⟨separate_of_neverOverlap this.1,separate_of_neverOverlap this.2⟩
end

theorem separate_phrases {p : Text} (hp : p ∈ injectionPatterns) (ht : t ∈ chatTemplateTokens) :
    Separate p (t.map Char.toLower) := by
  have hcheck : (injectionPatterns.all fun p => chatTemplateTokens.all fun t =>
    neverOverlap p (t.map Char.toLower)) =
      true := by decide +kernel
  exact separate_of_neverOverlap (all_eq_true.mp (all_eq_true.mp hcheck p hp) t ht)

theorem token_neutralizeSystemOverride (ht : t ∈ chatTemplateTokens) :
    t <:+: neutralizeSystemOverride line ↔ t <:+: line := by
  rw [neutralizeSystemOverride]
  split
  · rename_i hstarts
    rw [startsSystem,decide_eq_true_eq] at hstarts
    have haround := (separate_markers ht).2.isInfix_around [] (line.drop 7)
    rw [nil_append,infix_nil,or_iff_right (tokens_ne_nil t ht)] at haround
    rw [haround]
    refine ⟨fun h => h.trans (drop_suffix 7 line).isInfix,fun h => ?_⟩
    obtain ⟨i,hi⟩ := isInfix_iff_occurs.mp h
    have hpos := length_pos_of_ne_nil (tokens_ne_nil t ht)
    have hbehind : 7 ≤ i := by
      by_contra hlt
      have hat := hi.getElem? hpos
      rw [← head?_eq_getElem?] at hat
      have hin : ∀ c, (line)[i]? = some c → c.toLower ∈ "system:".toList := by
        intro c hc
        rw [← hstarts]
        refine mem_map_of_mem (mem_of_getElem? (i := i) ?_)
        rw [getElem?_take,if_pos (by omega),hc]
      rcases tokens_head ht with hc | hc
      · exact absurd (hin '<' (hat.trans hc)) (by decide)
      · exact absurd (hin '[' (hat.trans hc)) (by decide)
    have hrest : Occurs (line.drop 7) t (i-7) := by
      rw [Occurs,drop_drop,Nat.add_sub_cancel' hbehind]
      exact hi
    exact isInfix_iff_occurs.mpr ⟨_,hrest⟩
  · rfl

variable {ranges : List (ℕ × ℕ)}

theorem token_of_assemble (ht : t ∈ chatTemplateTokens) (h : t <:+: assemble line cursor ranges) :
    t <:+: line := by
  induction ranges generalizing cursor with
  | nil => exact h.trans (drop_suffix cursor line).isInfix
  | cons r ranges ih =>
    rw [assemble] at h
    split at h
    · exact ih h
    · rcases ((separate_markers ht).1.isInfix_around _ _).mp h with hkept | hrest
      · exact hkept.trans ((drop_suffix _ _).isInfix.trans ( take_prefix _ line).isInfix)
      · exact ih hrest

theorem slice_isInfix (line : Text) {e : ℕ} (ha : cursor ≤ a) (hb : b ≤ e) :
    (line.take b).drop a <:+: (line.take e).drop cursor := by
  have hfront : (line.take b).drop a <+: (line.take e).drop a := (take_prefix_take_left hb).drop a
  have hback : (line.take e).drop a <:+ (line.take e).drop cursor := by
    rw [← Nat.add_sub_cancel' ha,← drop_drop]
    exact drop_suffix _ _
  exact hfront.isInfix.trans hback.isInfix

theorem assemble_keeps (hranges : ∀ r ∈ ranges, r.2 ≤ a ∨ b ≤ r.1)
    (hcursor : cursor ≤ a) (hb : b ≤ line.length) :
    (line.take b).drop a <:+: assemble line cursor ranges := by
  induction ranges generalizing cursor with
  | nil =>
    have := slice_isInfix line hcursor hb
    rwa [take_length] at this
  | cons r ranges ih =>
    obtain ⟨hr,hrest⟩ := forall_mem_cons.mp hranges
    rw [assemble]
    split
    · exact ih hrest hcursor
    · rcases hr with hr | hr
      · exact (ih hrest hr).trans (suffix_append _ _).isInfix
      · rw [append_assoc]
        exact (slice_isInfix line hcursor hr).trans (prefix_append _ _).isInfix

theorem upperBorder_le (hk : k ≤ border u line a) (hnext : border u line a < border u line (a+1))
    (ha : a ≤ line.length) : upperBorder u bs line k ≤ a := by
  unfold upperBorder
  cases h : bs.search (borders u line) k with
  | ok i =>
    by_contra hlt
    have hnext' : a+1 ≤ i := not_le.mp hlt
    have hmono := border_mono u line hnext'
    have hborder := (search_ok h).2
    omega
  | err i =>
    by_contra hlt
    have := (search_err h).1 a (not_le.mp hlt) ha
    omega

theorem le_lowerBorder (hk : border u line (b+1) ≤ k) (hprev : border u line b < border u line (b+1))
    (hb : b+1 ≤ line.length) : b+1 ≤ lowerBorder u bs line k := by
  unfold lowerBorder
  cases h : bs.search (borders u line) k with
  | ok i =>
    by_contra hlt
    have hmono := border_mono u line (Nat.lt_succ_iff.mp (not_le.mp hlt))
    have hborder := (search_ok h).2
    dsimp only at hmono
    omega
  | err i =>
    by_contra hlt
    have := (search_err h).2 (b+1) (by dsimp only at hlt; omega) hb
    omega

theorem border_graphic (u : Confusables) (hgraphic : ∀ c ∈ t, isGraphic c) (hat : Occurs line t a)
    (hj : j ≤ t.length) : border u line (a+j) = border u line a+j := by
  induction j with
  | zero => rfl
  | succ j ih =>
    have hc := hat.getElem? (Nat.lt_of_succ_le hj)
    rw [getElem?_eq_getElem (Nat.lt_of_succ_le hj)] at hc
    rw [← Nat.add_assoc,border_succ hc,ih (by omega),
      detectionChars_graphic u (hgraphic _ (getElem_mem _))]
    rfl

theorem occurs_lowered (u : Confusables) (hgraphic : ∀ c ∈ t, isGraphic c) (hat : Occurs line t a) :
    Occurs (normalizeForDetection u line) (t.map Char.toLower) (border u line a) := by
  obtain ⟨rest,hrest⟩ := hat
  have hline : normalizeForDetection u line =
      normalizeForDetection u (line.take a)++(t.map Char.toLower++normalizeForDetection u rest) := by
    conv_lhs => rw [← take_append_drop a line,← hrest,normalize_append,normalize_append,
      normalize_graphic u hgraphic]
  rw [Occurs,hline,border,drop_left]
  exact prefix_append _ _

/-- Phrases and tokens do not overlap, and a token's characters are borders. -/
theorem token_neutralizeInjectionPhrases (u : Confusables) (bs : BinarySearch)
    (ht : t ∈ chatTemplateTokens) : t <:+: neutralizeInjectionPhrases u bs line ↔ t <:+: line := by
  rw [neutralize_eq]
  refine ⟨token_of_assemble ht,fun h => ?_⟩
  obtain ⟨a,hat⟩ := isInfix_iff_occurs.mp h
  have hgraphic : ∀ c ∈ t, isGraphic c := fun c hc => (tokens_plain ht hc).1
  have hne := tokens_ne_nil t ht
  have hfit := hat.le_length hne
  obtain ⟨n,hn⟩ := Nat.exists_eq_succ_of_ne_zero (length_pos_of_ne_nil hne).ne'
  have hslice : (line.take (a+t.length)).drop a = t := by
    rw [drop_take,Nat.add_sub_cancel_left]
    exact (prefix_iff_eq_take.mp hat).symm
  rw [← hslice]
  refine assemble_keeps (fun r hr => ?_) (Nat.zero_le a) hfit
  obtain ⟨s,hs,rfl⟩ := mem_map.mp hr
  obtain ⟨k,p,hp,hs2,hoccurs,-⟩ := mem_clearedInOrder.mp hs
  have hborder : ∀ j, j ≤ t.length → border u line (a+j) = border u line a+j :=
    fun j hj => border_graphic u hgraphic hat hj
  rcases separate_phrases (mem_of_getElem? hp) ht _ _ _ hoccurs
    (occurs_lowered u hgraphic hat) with hleft | hright
  · left
    refine upperBorder_le (by omega) ?_ (by omega)
    rw [hborder 1 (by omega)]
    omega
  · right
    have hend := hborder (n+1) hn.ge
    have hlast := hborder n (by omega)
    have hstop : a+t.length = a+n+1 := by omega
    rw [length_map] at hright
    rw [← Nat.add_assoc] at hend
    rw [hstop]
    exact le_lowerBorder (by omega) (by omega) (by omega)

theorem token_sanitizeLine (u : Confusables) (bs : BinarySearch) (ht : t ∈ chatTemplateTokens) :
    (∃ out, sanitizeLine u bs line = some out ∧ t <:+: out) ↔
    t <:+: deleteEach chatTemplateTokens (trim line) := by
  rw [sanitizeLine,stripChatTokens_eq,← token_trim ht]
  split
  · rename_i hdelimiter
    constructor
    · rintro ⟨out,hout,-⟩
      cases hout
    · intro h
      rw [not_isPureDelimiter ht h] at hdelimiter
      cases hdelimiter
  · rw [← token_neutralizeSystemOverride ht,← token_neutralizeInjectionPhrases u bs ht]
    simp

theorem mem_deleteEach {ts : List Text} (hts : ∀ t ∈ ts, t ≠ []) (h : c ∈ deleteEach ts line) :
    c ∈ line := by
  induction ts generalizing line with
  | nil => exact h
  | cons t ts ih =>
    obtain ⟨ht,hrest⟩ := forall_mem_cons.mp hts
    exact mem_of_mem_remove ht (ih hrest h)

theorem mem_of_mem_trim (h : c ∈ trim line) : c ∈ line :=
  (dropWhile_suffix isWhitespace).subset (( rdropWhile_prefix isWhitespace _).subset h)

theorem mem_neutralizeSystemOverride (h : c ∈ neutralizeSystemOverride line) :
    c ∈ line ∨ c ∈ "[SYSTEM]".toList := by
  rw [neutralizeSystemOverride] at h
  split at h
  · rcases mem_append.mp h with h | h
    · exact .inr h
    · exact .inl (mem_of_mem_drop h)
  · exact .inl h

theorem mem_neutralizeInjectionPhrases (h : c ∈ neutralizeInjectionPhrases u bs line) :
    c ∈ line ∨ c ∈ marker := by
  have hassemble : ∀ ranges cursor, c ∈ assemble line cursor ranges → c ∈ line ∨ c ∈ marker := by
    intro ranges
    induction ranges with
    | nil => exact fun cursor h => .inl (mem_of_mem_drop h)
    | cons r ranges ih =>
      intro cursor h
      rw [assemble] at h
      split at h
      · exact ih cursor h
      · rcases mem_append.mp h with h | h
        · rcases mem_append.mp h with h | h
          · exact .inl (mem_of_mem_take (mem_of_mem_drop h))
          · exact .inr h
        · exact ih _ h
  rw [neutralize_eq] at h
  exact hassemble _ _ h

def prepared (line : Text) : Text := neutralizeSystemOverride (trim (stripChatTokens (trim line)))

theorem sanitizeLine_eq_some (h : sanitizeLine u bs line = some out) :
    out = neutralizeInjectionPhrases u bs (prepared line) := by
  rw [sanitizeLine] at h
  split at h
  · cases h
  · exact (Option.some.inj h).symm

theorem mem_prepared (h : c ∈ prepared line) : c ∈ line ∨ isGraphic c := by
  rcases mem_neutralizeSystemOverride h with h | h
  · left
    rw [stripChatTokens_eq] at h
    exact mem_of_mem_trim (mem_deleteEach tokens_ne_nil (mem_of_mem_trim h))
  · right
    have hall : "[SYSTEM]".toList.all isGraphic := by decide
    exact all_eq_true.mp hall c h

theorem no_break_sanitizeLine (hline : '\n' ∉ line) (h : sanitizeLine u bs line = some out) :
    '\n' ∉ out := by
  rw [sanitizeLine_eq_some h]
  intro hin
  rcases mem_neutralizeInjectionPhrases hin with hin | hin
  · rcases mem_prepared hin with hin | hin
    · exact hline hin
    · cases hin
  · exact absurd hin (by decide)

def Settled (line : Text) : Prop := startsSystem line = false ∧ ∀ c, line.head? = some c →
    isWhitespace c = false

theorem startsSystem_of_isPrefix (h : s <+: t) (hs : startsSystem s) : startsSystem t := by
  rw [startsSystem,decide_eq_true_eq] at hs ⊢
  have hlength := congrArg List.length hs
  rw [length_map,length_take] at hlength
  have hseven : 7 ≤ s.length := by
    have : "system:".toList.length = 7 := by decide
    omega
  obtain ⟨rest,rfl⟩ := h
  rw [take_append_of_le_length hseven,hs]

theorem Settled.trimStart (h : Settled line) : startsSystem (trimStart line) = false := by
  cases line with
  | nil => rfl
  | cons c line =>
    have hc : ¬isWhitespace c := by simp [h.2 c rfl]
    rw [Sanitize.trimStart,dropWhile_cons_of_neg hc]
    exact h.1

theorem settled_bracket (s : Text) : Settled ('['::s) := by
  constructor
  · rw [startsSystem,decide_eq_false_iff_not]
    intro h
    exact absurd (List.cons.inj h).1 (by decide)
  · intro c hc
    cases hc
    decide

theorem settled_prepared (line : Text) : Settled (prepared line) := by
  have htrimmed : ∀ s c, (trim s).head? = some c → isWhitespace c = false := by
    intro s c hc
    have hfront : (trimStart s).head? = some c := by
      obtain ⟨rest,hrest⟩ := rdropWhile_prefix isWhitespace (trimStart s)
      rw [← hrest,head?_append,← trim,hc]
      rfl
    have hnot := head?_dropWhile_not isWhitespace s
    rw [Sanitize.trimStart] at hfront
    rw [hfront] at hnot
    simpa using hnot
  rw [prepared,neutralizeSystemOverride]
  split
  · exact settled_bracket _
  · rename_i hstarts
    exact ⟨by simpa using hstarts,htrimmed _⟩

theorem Settled.marked (h : Settled line) (k : ℕ) (rest : Text) :
    Settled (line.take k ++ '['::rest) := by
  cases k with
  | zero => exact settled_bracket rest
  | succ k =>
    cases line with
    | nil => exact settled_bracket rest
    | cons c line =>
      refine ⟨?_,fun d hd => h.2 d hd⟩
      by_contra hstarts
      rw [Bool.not_eq_false] at hstarts
      by_cases hfar : 7 ≤ ((c::line).take (k+1)).length
      · have hfront : startsSystem ((c::line).take (k+1)) := by
          rw [startsSystem,← take_append_of_le_length hfar]
          exact hstarts
        have hwhole := startsSystem_of_isPrefix ( take_prefix _ _) hfront
        rw [h.1] at hwhole
        cases hwhole
      · rw [startsSystem,decide_eq_true_eq] at hstarts
        have hbracket : '[' ∈ ((c::line).take (k+1) ++ '['::rest).take 7 := by
          rw [take_append,mem_append]
          right
          obtain ⟨n,hn⟩ := Nat.exists_eq_succ_of_ne_zero (Nat.sub_ne_zero_of_lt (not_le.mp hfar))
          rw [hn]
          exact mem_cons_self
        have hlower := mem_map_of_mem (f := Char.toLower) hbracket
        rw [hstarts] at hlower
        exact absurd hlower (by decide)

theorem Settled.assemble (h : Settled line) (ranges : List (ℕ × ℕ)) :
    Settled (assemble line 0 ranges) := by
  cases ranges with
  | nil => exact h
  | cons r ranges =>
    rw [Sanitize.assemble,append_assoc]
    exact h.marked r.1 _

theorem Settled.neutralizeInjectionPhrases (h : Settled line) :
    Settled (neutralizeInjectionPhrases u bs line) := by
  rw [neutralize_eq]
  exact h.assemble _

theorem getLast?_assemble {line : Text} {ranges : List (ℕ × ℕ)} {cursor : ℕ} {c : Char}
    (h : (assemble line cursor ranges).getLast? = some c) : c = ']' ∨ line.getLast? = some c := by
  induction ranges generalizing cursor with
  | nil =>
    rw [assemble,getLast?_drop] at h
    split at h
    · cases h
    · exact .inr h
  | cons r ranges ih =>
    rw [assemble] at h
    split at h
    · exact ih h
    · rw [getLast?_append,Option.or_eq_some_iff] at h
      rcases h with h | ⟨-,h⟩
      · exact ih h
      · rw [getLast?_append] at h
        exact .inl (Option.some.inj h).symm

theorem getLast?_prepared {line : Text} {c : Char} (h : (prepared line).getLast? = some c) :
    isWhitespace c = false := by
  have htrimmed : ∀ s d, (trim s).getLast? = some d → isWhitespace d = false := by
    intro s d hd
    have hne : trim s ≠ [] := ne_nil_of_mem (mem_of_getLast? hd)
    rw [getLast?_eq_some_getLast hne,Option.some.injEq] at hd
    rw [← hd]
    exact Bool.not_eq_true _ ▸ rdropWhile_last_not isWhitespace (trimStart s) hne
  rw [prepared,neutralizeSystemOverride] at h
  split at h
  · rw [getLast?_append,Option.or_eq_some_iff,getLast?_drop] at h
    rcases h with h | ⟨-,h⟩
    · split at h
      · cases h
      · exact htrimmed _ _ h
    · cases h
      decide
  · exact htrimmed _ _ h

/-- A line comes out without a line break at its end. -/
theorem trimLineEnd_neutralize (u : Tables) (bs : BinarySearch) (line : Text) :
    trimLineEnd (neutralizeInjectionPhrases u bs (prepared line)) =
      neutralizeInjectionPhrases u bs (prepared line) := by
  rw [trimLineEnd,rdropWhile_eq_self_iff]
  intro hne hlast
  have hc := getLast?_eq_some_getLast hne
  generalize (neutralizeInjectionPhrases u bs (prepared line)).getLast hne = c at *
  rw [neutralize_eq] at hc
  simp only [Bool.or_eq_true,decide_eq_true_eq] at hlast
  rcases getLast?_assemble hc with rfl | h
  · rcases hlast with h | h <;> cases h
  · have hspace := getLast?_prepared h
    rcases hlast with rfl | rfl <;> revert hspace <;> decide

/-- What becomes of a line is clean exactly if no token is spliced and no phrase is left. -/
theorem clean_sanitizeLine (u : Confusables) (bs : BinarySearch) (line : Text) :
    (∀ out, sanitizeLine u bs line = some out → Clean u (trimLineEnd out)) ↔
      Unspliced chatTemplateTokens (trim line) ∧
        (isPureDelimiter (trim (stripChatTokens (trim line))) = false →
        ¬Leaves u (prepared line)) := by
  constructor
  · intro hclean
    constructor
    · refine (tokens_apart.deleteEach_clean_iff _).mp fun t ht hin => ?_
      obtain ⟨out,hout,hleft⟩ := (token_sanitizeLine u bs ht).mpr hin
      have htokens := (hclean out hout).tokens t ht
      rw [sanitizeLine_eq_some hout] at htokens hleft
      rw [trimLineEnd_neutralize] at htokens
      exact htokens hleft
    · intro hkept hleaves
      have hout : sanitizeLine u bs line = some (neutralizeInjectionPhrases u bs (prepared line)) := by
        rw [sanitizeLine,if_neg (by simp [hkept])]
        rfl
      obtain ⟨q,hq,hin⟩ := (phrase_left_iff u bs _).mpr hleaves
      have hphrases := (hclean _ hout).phrases q hq
      rw [trimLineEnd_neutralize] at hphrases
      exact hphrases hin
  · rintro ⟨hspliced,hleaves⟩ out hout
    have hkept : isPureDelimiter (trim (stripChatTokens (trim line))) = false := by
      by_contra hdelimiter
      rw [sanitizeLine,if_pos (by simpa using hdelimiter)] at hout
      cases hout
    have htokens : ∀ t ∈ chatTemplateTokens, ¬t <:+: out := fun t ht hin =>
      (tokens_apart.deleteEach_clean_iff _).mpr hspliced t ht
        ((token_sanitizeLine u bs ht).mp ⟨out,hout,hin⟩)
    rw [sanitizeLine_eq_some hout] at htokens ⊢
    rw [trimLineEnd_neutralize]
    refine ⟨htokens,(settled_prepared line).neutralizeInjectionPhrases.trimStart,fun p hp hin => ?_⟩
    exact hleaves hkept ((phrase_left_iff u bs _).mp ⟨p,hp,hin⟩)

/-- Nothing is found in the sanitized text if and only if, in each line, the deletion of tokens never leaves
one interrupted by itself or a later one, and no phrase is left where one was passed over. -/
theorem detectInjection_sanitizeForLlm (u : Confusables) (bs : BinarySearch) (input : Text) :
    detectInjection u (sanitizeForLlm u bs input) = [] ↔
      ∀ line ∈ lines input, Unspliced chatTemplateTokens (trim line) ∧
        (isPureDelimiter (trim (stripChatTokens (trim line))) = false →
        ¬Leaves u (prepared line)) := by
  have hbreak : ∀ line ∈ lines input, ∀ out, sanitizeLine u bs line = some out → '\n' ∉ out :=
    fun line hline out hout => no_break_sanitizeLine (mem_lines hline).1 hout
  rw [detectInjection_eq_nil,eachLine_sanitizeForLlm clean_nil hbreak]
  exact forall₂_congr fun line _ => clean_sanitizeLine u bs line

/-- Tables in which the ligature fi stands for two letters. -/
def ligatureTables : Confusables where
  toLowercase c := [c.toLower]
  skeleton c := if c = 'ﬁ' then ['f','i'] else [c]
  toLowercase_ascii _ _ := rfl
  skeleton_graphic c hc := by
    refine if_neg ?_
    rintro rfl
    revert hc
    decide

theorem takeWhile_missed {keys : List ℕ} {key x : ℕ}
    (hsorted : keys.Pairwise (· ≤ ·)) (hx : keys[j]? = some x)
    (habsent : keys[(keys.takeWhile (· < key)).length]? ≠ some key) :
    (j < (keys.takeWhile (· < key)).length → x < key) ∧
    ((keys.takeWhile (· < key)).length ≤ j → key < x) := by
  induction keys generalizing j with
  | nil => simp at hx
  | cons k keys ih =>
    obtain ⟨hfirst,hrest⟩ := pairwise_cons.mp hsorted
    by_cases hk : k < key
    · have htake : (k::keys).takeWhile (· < key) = k::keys.takeWhile (· < key) :=
        takeWhile_cons_of_pos (by simpa using hk)
      rw [htake,length_cons] at habsent ⊢
      cases j with
      | zero =>
        cases hx
        exact ⟨fun _ => hk,fun h => absurd h (by omega)⟩
      | succ j =>
        obtain ⟨hbelow,habove⟩ := ih hrest hx habsent
        exact ⟨fun h => hbelow (by omega),fun h => habove (by omega)⟩
    · have htake : (k::keys).takeWhile (· < key) = [] := takeWhile_cons_of_neg (by simpa using hk)
      rw [htake,length_nil,getElem?_cons_zero,Ne,Option.some.injEq] at habsent
      rw [htake,length_nil]
      rcases mem_cons.mp (mem_of_getElem? hx) with rfl | hin
      · omega
      · have := hfirst x hin
        omega

/-- The first place at which the key is reached. -/
def linearSearch : BinarySearch where
  search keys key :=
    let i := (keys.takeWhile (· < key)).length
    if keys[i]? = some key then .ok i else .err i
  found keys key i _ h := by
    dsimp only at h
    split at h
    · rename_i hkey
      cases h
      exact hkey
    · cases h
  missed keys key i hsorted h := by
    dsimp only at h
    split at h
    · cases h
    · rename_i habsent
      cases h
      exact ⟨( takeWhile_prefix _).length_le,fun j x hx => takeWhile_missed hsorted hx habsent⟩

/-- A token interrupted by itself comes out whole. -/
theorem sanitized_text_detected :
    sanitizeForLlm ligatureTables linearSearch "<|im_<|im_start|>start|>".toList =
    "<|im_start|>".toList ∧ detectInjection ligatureTables "<|im_start|>".toList =
      [⟨.chatTemplateToken,"<|im_start|>".toList,0,12⟩] := by
  decide +kernel
end Hirn.Sanitize
