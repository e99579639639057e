import Hirn.Peg

/-! What the trees of a parsing expression look like: a relation that holds of every match, and from
it which parts a rule has. -/
namespace Hirn.Peg
open List Option Prod Bool
variable {ρ : Type} {b body e : Expr ρ} {es : List (Expr ρ)} {r : ρ} {kind : Kind}
    {s text : List Char} {sk : Skip}
  {items : List (Item ρ)} {p : Item ρ}

def Gap (sk : Skip) (gap : List Char) : Prop := ∃ input, (sk input).1 = gap

@[simp] theorem gap_noSkip : Gap noSkip gap ↔ gap = [] := by
  constructor
  · rintro ⟨input,rfl⟩
    rfl
  · rintro rfl
    exact ⟨[],rfl⟩

inductive Repeats (P : List Char → List (Item ρ) → Prop) : List Char → List (Item ρ) → Prop
  | nil : Repeats P [] []
  | cons {text items text' items'} (first : P text items) (others : Repeats P text' items') :
      Repeats P (text++text') (items++items')

/-- The expression takes a start of the text, whatever follows, judged by words. -/
def Expr.takes : Expr ρ → List Char → Bool
  | .text s, input => (literal sameExact s input).isSome
  | .word s, input => (literal sameFolded s input).isSome
  | _, _ => false

variable {a : Expr ρ}

theorem run_isSome_of_takes (h : a.takes text) (sk : Skip) (rest : List Char) :
    (run sk a (text++rest)).isSome := by
  cases a with
  | text s | word s =>
    obtain ⟨m,hm⟩ := isSome_iff_exists.1 h
    simp [run,literal_append hm]
  | _ => simp [Expr.takes] at h

/-- The texts an expression stands for, with their parts; not only the reading found. -/
def Reads : Skip → Expr ρ → List Char → List (Item ρ) → Prop
  | _, .text s, text, items => text = s ∧ items = []
  | _, .word s, text, items => text.map Char.toLower = s ∧ items = [.word s]
  | _, .char p, text, items => (∃ c, p c ∧ text = [c]) ∧ items = []
  | _, .stop, text, items => text = [] ∧ items = []
  | sk, .seq a b, text, items =>
    ∃ text₁ items₁ gap text₂ items₂, Reads sk a text₁ items₁ ∧ Reads sk b text₂ items₂ ∧ Gap sk gap ∧
      text = text₁++(gap++text₂) ∧ items = items₁++items₂
  | sk, .alt a b, text, items => Reads sk a text items ∨ Reads sk b text items ∧ a.takes text = false
  | sk, .opt a, text, items => Reads sk a text items ∨ text = [] ∧ items = []
  | sk, .star a, text, items =>
    Repeats (fun text items => ∃ gap text', (Gap sk gap ∨ gap = []) ∧ Reads sk a text' items ∧
      text = gap++text')
      text items
  | sk, .rule r kind body, text, items =>
    ∃ inner, Reads (if kind = .normal then sk else noSkip) body text inner ∧
      items = [.pair r text (if kind = .atomic then [] else inner)]

theorem exists_of_reads_alts (h : Reads sk (alts es) text items) :
    ∃ e ∈ es, Reads sk e text items := by
  induction es with
  | nil =>
    obtain ⟨⟨c,hc,-⟩,-⟩ := h
    simp at hc
  | cons a es ih =>
    cases es with
    | nil => exact ⟨a,by simp,h⟩
    | cons b es =>
      rcases h with h | ⟨h,-⟩
      · exact ⟨a,by simp,h⟩
      · obtain ⟨e,he,h⟩ := ih h
        exact ⟨e,by simp [he],h⟩

variable {P : List Char → List (Item ρ) → Prop}

theorem many_repeats (hf : ∀ input m, f input = some m → P m.text m.items) (n : ℕ)
    (input : List Char) : Repeats P (many f n input).text (many f n input).items := by
  induction n generalizing input with
  | zero => exact .nil
  | succ n ih =>
    rw [many]
    cases hm : f input with
    | none => exact .nil
    | some m =>
      by_cases hempty : m.text = []
      · simpa [hempty,Match.empty] using Repeats.nil
      · simpa [hempty,Match.append] using Repeats.cons (hf _ _ hm) (ih m.rest)

/-- Every match is a reading. -/
theorem run_reads (hsk : Splits sk) (h : run sk e input = some m) : Reads sk e m.text m.items := by
  induction e generalizing sk input m with
  | text s =>
    simp only [run,map_eq_some_iff,Prod.exists] at h
    obtain ⟨text,rest,h,rfl⟩ := h
    exact ⟨literal_exact h,rfl⟩
  | word s =>
    simp only [run,map_eq_some_iff,Prod.exists] at h
    obtain ⟨text,rest,h,rfl⟩ := h
    exact ⟨literal_folded h,rfl⟩
  | char p =>
    cases input with
    | nil => simp [run] at h
    | cons c input =>
      simp only [run,ite_none_right_eq_some,some.injEq] at h
      obtain ⟨hc,rfl⟩ := h
      exact ⟨⟨c,hc,rfl⟩,rfl⟩
  | stop =>
    simp only [run,ite_none_right_eq_some,some.injEq] at h
    obtain ⟨-,rfl⟩ := h
    exact ⟨rfl,rfl⟩
  | seq a b iha ihb =>
    simp only [run,bind_eq_some_iff,map_eq_some_iff] at h
    obtain ⟨m₁,h₁,m₂,h₂,rfl⟩ := h
    exact ⟨m₁.text,m₁.items,_,m₂.text,m₂.items,iha hsk h₁,ihb hsk h₂,⟨m₁.rest,rfl⟩,rfl,rfl⟩
  | alt a b iha ihb =>
    rw [run] at h
    cases ha : run sk a input with
    | some m' =>
      rw [ha] at h
      exact .inl (iha hsk (ha.trans h))
    | none =>
      rw [ha] at h
      refine .inr ⟨ihb hsk h,?_⟩
      by_contra htakes
      have hsome := run_isSome_of_takes (Bool.eq_true_of_not_eq_false htakes) sk m.rest
      rw [← run_split hsk h,ha] at hsome
      exact absurd hsome (by simp)
  | opt a iha =>
    simp only [run,some.injEq] at h
    cases ha : run sk a input with
    | some m' =>
      rw [ha,getD_some] at h
      exact .inl (iha hsk (h ▸ ha))
    | none =>
      rw [ha] at h
      exact .inr (h ▸ ⟨rfl,rfl⟩)
  | star a iha =>
    rw [run] at h
    cases ha : run sk a input with
    | none =>
      rw [ha] at h
      obtain rfl := some.inj h
      exact .nil
    | some m' =>
      rw [ha] at h
      obtain rfl := some.inj h
      by_cases hempty : m'.text = []
      · rw [if_pos hempty]
        exact .nil
      · rw [if_neg hempty]
        refine .cons ⟨[],m'.text,.inr rfl,iha hsk ha,rfl⟩ (many_repeats ?_ _ _)
        intro next m'' hnext
        obtain ⟨n,hn,rfl⟩ := map_eq_some_iff.1 hnext
        exact ⟨_,n.text,.inl ⟨next,rfl⟩,iha hsk hn,rfl⟩
  | rule r kind body ih =>
    simp only [run,map_eq_some_iff] at h
    obtain ⟨m',h',rfl⟩ := h
    refine ⟨m'.items,ih ?_ h',rfl⟩
    split
    · exact hsk
    · exact splits_noSkip

def Of (sk : Skip) (e : Expr ρ) (p : Item ρ) : Prop := ∃ text, Reads sk e text [p]

theorem of_rule (h : Of sk (.rule r kind body) p) :
    ∃ text inner, Reads (if kind = .normal then sk else noSkip) body text inner ∧
      p = .pair r text (if kind = .atomic then [] else inner) := by
  obtain ⟨text,inner,hbody,hitems⟩ := h
  exact ⟨text,inner,hbody,singleton_inj.1 hitems⟩

theorem of_normal (h : Of sk (normal r body) p) :
    ∃ text inner, Reads sk body text inner ∧ p = .pair r text inner := of_rule h

theorem of_compound (h : Of sk (compound r body) p) :
    ∃ text inner, Reads noSkip body text inner ∧ p = .pair r text inner := of_rule h

theorem of_atomic (h : Of sk (atomic r body) p) :
    ∃ text inner, Reads noSkip body text inner ∧ p = .pair r text [] := of_rule h

def Expr.parts : Expr ρ → List (Expr ρ)
  | .seq a b => a.parts++b.parts
  | .alt a b => a.parts++b.parts
  | .opt a => a.parts
  | .star a => a.parts
  | .rule r kind body => [.rule r kind body]
  | _ => []

def Expr.name : Expr ρ → Option ρ
  | .rule r _ _ => some r
  | _ => none

theorem of_asRule (h : Of sk e p) (he : e.name.isSome) : p.asRule = e.name := by
  cases e with
  | rule r kind body =>
    obtain ⟨text,inner,-,rfl⟩ := of_rule h
    rfl
  | _ => simp [Expr.name] at he

theorem Repeats.exists_of_mem (h : Repeats P text items) (hp : p ∈ items) :
    ∃ text' items', P text' items' ∧ p ∈ items' := by
  induction h with
  | nil => simp at hp
  | cons first _ ih =>
    rcases mem_append.1 hp with hp | hp
    · exact ⟨_,_,first,hp⟩
    · exact ih hp

theorem Reads.part (h : Reads sk e text items) (hp : p ∈ items) (hr : p.asRule = some r) :
    ∃ e' ∈ e.parts, e'.name = some r ∧ Of sk e' p := by
  induction e generalizing text items with
  | text | char | stop =>
    obtain ⟨-,rfl⟩ := h
    simp at hp
  | word s =>
    obtain ⟨-,rfl⟩ := h
    obtain rfl := mem_singleton.1 hp
    simp [Item.asRule] at hr
  | seq a b iha ihb =>
    obtain ⟨text₁,items₁,gap,text₂,items₂,ha,hb,-,-,rfl⟩ := h
    rcases mem_append.1 hp with hp | hp
    · obtain ⟨e',he',h'⟩ := iha ha hp
      exact ⟨e',by simp [Expr.parts,he'],h'⟩
    · obtain ⟨e',he',h'⟩ := ihb hb hp
      exact ⟨e',by simp [Expr.parts,he'],h'⟩
  | alt a b iha ihb =>
    rcases h with ha | ⟨hb,-⟩
    · obtain ⟨e',he',h'⟩ := iha ha hp
      exact ⟨e',by simp [Expr.parts,he'],h'⟩
    · obtain ⟨e',he',h'⟩ := ihb hb hp
      exact ⟨e',by simp [Expr.parts,he'],h'⟩
  | opt a iha =>
    rcases h with ha | ⟨-,rfl⟩
    · exact iha ha hp
    · simp at hp
  | star a iha =>
    obtain ⟨_,items',⟨gap,text',-,ha,-⟩,hp⟩ := Repeats.exists_of_mem h hp
    exact iha ha hp
  | rule r' kind body _ =>
    obtain ⟨inner,hbody,rfl⟩ := h
    obtain rfl := mem_singleton.1 hp
    exact ⟨_,mem_singleton_self _,hr,text,inner,hbody,rfl⟩

/-- The parts that are rules, as an expression puts them together. -/
def Shape (sk : Skip) : Expr ρ → List (Item ρ) → Prop
  | .seq a b, ps => ∃ as bs, Shape sk a as ∧ Shape sk b bs ∧ ps = as++bs
  | .alt a b, ps => Shape sk a ps ∨ Shape sk b ps
  | .opt a, ps => Shape sk a ps ∨ ps = []
  | .star a, ps => ∃ pss : List (List (Item ρ)), (∀ qs ∈ pss, Shape sk a qs) ∧ ps = pss.flatten
  | .rule r kind body, ps => ∃ p, Of sk (.rule r kind body) p ∧ ps = [p]
  | _, ps => ps = []

theorem Reads.shape (h : Reads sk e text items) : Shape sk e (items.filter (·.asRule.isSome)) := by
  induction e generalizing text items with
  | text | char | stop | word =>
    obtain ⟨-,rfl⟩ := h
    rfl
  | seq a b iha ihb =>
    obtain ⟨text₁,items₁,gap,text₂,items₂,ha,hb,-,-,rfl⟩ := h
    exact ⟨_,_,iha ha,ihb hb,filter_append ..⟩
  | alt a b iha ihb => exact h.imp iha fun hb => ihb hb.1
  | opt a iha =>
    rcases h with ha | ⟨-,rfl⟩
    · exact .inl (iha ha)
    · exact .inr rfl
  | star a iha =>
    induction h with
    | nil => exact ⟨[],by simp,rfl⟩
    | cons first _ ih =>
      obtain ⟨gap,text',-,ha,-⟩ := first
      obtain ⟨pss,hall,heq⟩ := ih
      refine ⟨_::pss,forall_mem_cons.2 ⟨iha ha,hall⟩,?_⟩
      rw [filter_append,heq,flatten_cons]
  | rule r kind body _ =>
    obtain ⟨inner,hbody,rfl⟩ := h
    exact ⟨_,⟨text,inner,hbody,rfl⟩,rfl⟩

variable {ps : List (Item ρ)}

theorem shape_part (he : e.name.isSome) : Shape sk e ps ↔ ∃ p, Of sk e p ∧ ps = [p] := by
  cases e with
  | rule r kind body => rfl
  | _ => simp [Expr.name] at he

theorem shape_opt_part (he : e.name.isSome) :
    Shape sk (.opt e) ps ↔ ∃ o : Option (Item ρ), (∀ p ∈ o, Of sk e p) ∧ ps = o.toList := by
  rw [Shape,shape_part he]
  constructor
  · rintro (⟨p,hp,rfl⟩ | rfl)
    · exact ⟨some p,by simpa using hp,rfl⟩
    · exact ⟨none,by simp,rfl⟩
  · rintro ⟨_ | p,hp,rfl⟩
    · exact .inr rfl
    · exact .inl ⟨p,hp p rfl,rfl⟩

theorem shape_eq_nil (h : Shape sk e ps) (he : e.parts = []) : ps = [] := by
  induction e generalizing ps with
  | text | char | stop | word => exact h
  | seq a b iha ihb =>
    obtain ⟨as,bs,ha,hb,rfl⟩ := h
    obtain ⟨hea,heb⟩ := append_eq_nil_iff.1 he
    rw [iha ha hea,ihb hb heb,append_nil]
  | alt a b iha ihb =>
    obtain ⟨hea,heb⟩ := append_eq_nil_iff.1 he
    rcases h with ha | hb
    · exact iha ha hea
    · exact ihb hb heb
  | opt a iha =>
    rcases h with ha | rfl
    · exact iha ha he
    · rfl
  | star a iha =>
    obtain ⟨pss,hall,rfl⟩ := h
    exact flatten_eq_nil_iff.2 fun qs hqs => iha (hall qs hqs) he
  | rule r kind body _ => simp [Expr.parts] at he

theorem exists_of_shape_alts (hes : ∀ e ∈ es, e.name.isSome)
    (hne : es ≠ []) (h : Shape sk (alts es) ps) : ∃ e ∈ es, ∃ p, Of sk e p ∧ ps = [p] := by
  induction es with
  | nil => simp at hne
  | cons a es ih =>
    cases es with
    | nil => exact ⟨a,by simp,(shape_part (hes a (by simp))).1 h⟩
    | cons b es =>
      rcases h with h | h
      · exact ⟨a,by simp,(shape_part (hes a (by simp))).1 h⟩
      · obtain ⟨e,he,h⟩ := ih (fun e he => hes e (by simp [he])) (by simp) h
        exact ⟨e,by simp [he],h⟩

variable [DecidableEq ρ]

theorem Reads.named (h : Reads sk e text items) (hp : p ∈ items) (hr : p.asRule = some r)
    (hone : e.parts.filter (·.name = some r) = [e']) : Of sk e' p := by
  obtain ⟨e'',he'',hname,hof⟩ := h.part hp hr
  have hmem : e'' ∈ e.parts.filter (·.name = some r) := mem_filter.2 ⟨he'',by simpa using hname⟩
  rw [hone,mem_singleton] at hmem
  exact hmem ▸ hof

def Expr.mentions (r : ρ) : Expr ρ → Bool
  | .seq a b => a.mentions r || b.mentions r
  | .alt a b => a.mentions r || b.mentions r
  | .opt a => a.mentions r
  | .star a => a.mentions r
  | .rule r' _ body => r' = r || body.mentions r
  | _ => false

@[simp] theorem withinAll_append (r : ρ) (as bs : List (Item ρ)) :
    withinAll r (as++bs) = withinAll r as++withinAll r bs := by
  induction as with
  | nil => simp [withinAll]
  | cons a as ih => simp [withinAll,ih]

theorem withinAll_eq_flatMap (r : ρ) (ps : List (Item ρ)) :
    withinAll r ps = (ps.filter (·.asRule.isSome)).flatMap (·.within r) := by
  induction ps with
  | nil => rfl
  | cons p ps ih =>
    cases p with
    | word s => simpa [withinAll,Item.within,Item.asRule] using ih
    | pair r' text inner => simp [withinAll,Item.asRule,ih]

theorem Reads.withinAll_eq_nil (h : Reads sk e text items) (hr : e.mentions r = false) :
    withinAll r items = [] := by
  induction e generalizing sk text items with
  | text | char | stop | word =>
    obtain ⟨-,rfl⟩ := h
    simp [withinAll,Item.within]
  | seq a b iha ihb =>
    obtain ⟨text₁,items₁,gap,text₂,items₂,ha,hb,-,-,rfl⟩ := h
    simp only [Expr.mentions,or_eq_false_iff] at hr
    rw [withinAll_append,iha ha hr.1,ihb hb hr.2,append_nil]
  | alt a b iha ihb =>
    simp only [Expr.mentions,or_eq_false_iff] at hr
    rcases h with ha | ⟨hb,-⟩
    · exact iha ha hr.1
    · exact ihb hb hr.2
  | opt a iha =>
    rcases h with ha | ⟨-,rfl⟩
    · exact iha ha hr
    · rfl
  | star a iha =>
    induction h with
    | nil => rfl
    | cons first _ ih =>
      obtain ⟨gap,text',-,ha,-⟩ := first
      rw [withinAll_append,iha ha hr,ih,append_nil]
  | rule r' kind body ih =>
    simp only [Expr.mentions,or_eq_false_iff,decide_eq_false_iff_not] at hr
    obtain ⟨inner,hbody,rfl⟩ := h
    have hinner : withinAll r (if kind = .atomic then [] else inner) = [] := by
      split
      · rfl
      · exact ih hbody hr.2
    simp [withinAll,Item.within,hr.1,hinner]

theorem within_pair (hr : r' ≠ r) (text : List Char) (inner : List (Item ρ)) :
    (Item.pair r' text inner).within r = (Item.pair r' text inner).intoInner.flatMap (·.within r) := by
  rw [Item.within,if_neg hr,withinAll_eq_flatMap]
  rfl

theorem of_rule_within (h : Of sk (.rule r kind body) p) (hr : body.mentions r = false) :
    p.within r = [p] := by
  obtain ⟨text,inner,hbody,rfl⟩ := of_rule h
  have hinner : withinAll r (if kind = .atomic then [] else inner) = [] := by
    split
    · rfl
    · exact hbody.withinAll_eq_nil hr
  rw [Item.within,if_pos rfl,hinner,append_nil]

theorem Of.within_eq_nil (h : Of sk e p) (hr : e.mentions r = false) : p.within r = [] := by
  obtain ⟨text,h⟩ := h
  simpa [withinAll] using h.withinAll_eq_nil hr
end Hirn.Peg
