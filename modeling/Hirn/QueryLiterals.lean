import Hirn.QueryShapes

/-! Quoted texts: what stands between the quotes, and what it means. -/
namespace Hirn.Query
open Peg Fallible

def escapeMeaning (c : Char) : Char :=
  if c = 'n' then '\n' else if c = 't' then '\t' else if c = 'r' then '\r' else c

/-- The text that is meant by what stands between quotes. -/
def unescaped : Text → Text
  | [] => []
  | ['\\'] => ['\\']
  | '\\'::c::cs => escapeMeaning c::unescaped cs
  | c::cs => c::unescaped cs

/-- Escape sequences, and other characters than the quote. -/
inductive WellEscaped (quote : Char) : Text → Prop
  | nil : WellEscaped quote []
  | escape {c cs} (hc : c ∈ ['"', '\'', '\\', 'n', 't', 'r']) (h : WellEscaped quote cs) :
      WellEscaped quote ('\\'::c::cs)
  | plain {c cs} (hquote : c ≠ quote) (hslash : c ≠ '\\') (h : WellEscaped quote cs) :
      WellEscaped quote (c::cs)

variable {c : Char}

theorem unescapeString_plain (hc : c ≠ '\\') (cs : Text) :
    unescapeString (c::cs) = (unescapeString cs).map (c::·) := by
  rw [unescapeString]
  · rintro rfl
    exact absurd rfl hc
  · rintro _ _ rfl
    exact absurd rfl hc

theorem unescaped_plain (hc : c ≠ '\\') (cs : Text) : unescaped (c::cs) = c::unescaped cs := by
  rw [unescaped]
  · rintro rfl
    exact absurd rfl hc
  · rintro _ _ rfl
    exact absurd rfl hc

variable {content : Text} {quote : Char}

theorem WellEscaped.unescapeString_eq (h : WellEscaped quote content) :
    unescapeString content = .ok (unescaped content) := by
  induction h with
  | nil => rfl
  | escape hc _ ih =>
    simp only [List.mem_cons,List.not_mem_nil,or_false] at hc
    rcases hc with rfl | rfl | rfl | rfl | rfl | rfl
    all_goals
      rw [unescapeString,unescaped,ih]
      rfl
  | plain _ hslash _ ih => rw [unescapeString_plain hslash,unescaped_plain hslash,ih,map_ok]

theorem wellEscaped_of_reads {inner : List (Item Rule)}
    (h : Reads noSkip (.star (alts [Grammar.escapeSeq,noneOf [quote, '\\']])) content inner) :
    WellEscaped quote content := by
  induction h with
  | nil => exact .nil
  | cons first _ ih =>
    obtain ⟨gap,text',hgap,hread,rfl⟩ := first
    obtain rfl : gap = [] := by simpa using hgap
    rcases hread with ⟨_,hescape,-⟩ | ⟨⟨⟨c,hc,rfl⟩,-⟩,-⟩
    · obtain ⟨_,_,gap',text₂,_,⟨rfl,-⟩,hsecond,hgap',rfl,-⟩ := hescape
      obtain rfl := gap_noSkip.1 hgap'
      obtain ⟨e,he,hsecond⟩ := exists_of_reads_alts hsecond
      simp only [List.mem_cons,List.not_mem_nil,or_false] at he
      rcases he with rfl | rfl | rfl | rfl | rfl | rfl
      all_goals
        obtain ⟨rfl,-⟩ := hsecond
        exact .escape (by decide) ih
    · simp only [List.contains_cons,List.contains_nil,Bool.or_false,Bool.not_or,Bool.and_eq_true,
        Bool.not_eq_true',beq_eq_false_iff_ne] at hc
      exact .plain hc.1 hc.2 ih

theorem of_stringLiteral (h : Of sk Grammar.stringLiteral p) :
    ∃ quote content r inner, (quote = '"' ∨ quote = '\'') ∧ WellEscaped quote content ∧
      p = .pair .stringLiteral (quote::(content++[quote])) [.pair r content inner] := by
  obtain ⟨text,items,hread,rfl⟩ := of_compound h
  rcases hread with hread | ⟨hread,-⟩
  all_goals
    obtain ⟨_,_,_,_,_,⟨rfl,rfl⟩,⟨content,_,_,_,_,⟨inner,hcontent,rfl⟩,⟨rfl,rfl⟩,hgap₂,rfl,rfl⟩,
      hgap₁,rfl,rfl⟩ := hread
    obtain rfl := gap_noSkip.1 hgap₁
    obtain rfl := gap_noSkip.1 hgap₂
  · exact ⟨'"',content,_,inner,.inl rfl,wellEscaped_of_reads hcontent,rfl⟩
  · exact ⟨'\'',content,_,inner,.inr rfl,wellEscaped_of_reads hcontent,rfl⟩

def contentOf (p : Item Rule) : Text := p.asStr.tail.dropLast

theorem extractStringValue_eq (h : Of sk Grammar.stringLiteral p) :
    extractStringValue p = .ok (unescaped (contentOf p)) := by
  obtain ⟨quote,content,r,inner,-,hcontent,rfl⟩ := of_stringLiteral h
  have hcontentOf : contentOf (.pair .stringLiteral (quote::(content++[quote]))
    [.pair r content inner]) = content := by
    simp [contentOf,Item.asStr]
  rw [hcontentOf,← hcontent.unescapeString_eq]
  rfl
end Hirn.Query
