import Hirn.FilterTemplate

/-! What becomes of a guard when a foreign text is spliced in front of it, as in
`({f}) AND {guard}`. If the text has an even number of quotes, the guard is scanned by
itself, and every tree the parser accepts ends in the guard: it is a conjunction with the
guard, or an alternative to such a conjunction. -/
namespace Hirn.FilterLang
open Fallible List

def quotes (s : Text) : ℕ := s.count '\''
@[simp] theorem quotes_cons_quote (s : Text) : quotes ('\''::s) = quotes s+1 := by simp [quotes]

variable {c : Char}

theorem quotes_cons_of_ne (h : c ≠ '\'') (s : Text) : quotes (c::s) = quotes s := by
  simp [quotes,h]

variable {rest : Text} {s : Text}

theorem scanString_append (hs : Odd (quotes s)) (hr : r.head? ≠ some '\'') :
    scanString (s++r) = ((scanString s).1,(scanString s).2++r) ∧
      Even (quotes (scanString s).2) := by
  induction s using scanString.induct with
  | case1 => simp [quotes] at hs
  | case2 s ih =>
    have hs' : Odd (quotes s) := by
      exact (by simpa [Nat.odd_add_one] using hs)
    obtain ⟨h1,h2⟩ := ih hs'
    refine ⟨?_,h2⟩
    change scanString ('\'' :: '\''::(s++r)) = _
    rw [scanString,h1]
    rfl
  | case3 s hne =>
    have hs' : Even (quotes s) := by simpa [Nat.odd_add_one] using hs
    refine ⟨?_,by rw [scanString.eq_3 s hne]; exact hs'⟩
    rw [scanString.eq_3 s hne,cons_append,scanString.eq_3]
    intro cs hcs
    cases s with
    | nil => simp only [nil_append] at hcs; simp [hcs] at hr
    | cons c s => simp only [cons_append,List.cons.injEq] at hcs; exact hne s (by rw [hcs.1])
  | case4 c s h1 h2 ih =>
    have hc : c ≠ '\'' := h2
    obtain ⟨ih1,ih2⟩ := ih (by rwa [quotes_cons_of_ne hc] at hs)
    rw [cons_append,scanString.eq_4 c s h1 h2,scanString.eq_4 c (s++r) (by simp [hc]) h2,ih1]
    exact ⟨rfl,ih2⟩

theorem scanOperator_append (hr : ∀ d ∈ r.head?, d ≠ '=' ∧ d ≠ '>') :
    scanOperator c (s++r) = (scanOperator c s).map fun p => (p.1,p.2++r) := by
  have hhead : ∀ d : Char, d = '=' ∨ d = '>' → ((s++r).head? = some d ↔ s.head? = some d) := by
    intro d hd
    cases s with
    | nil =>
      simp only [nil_append,head?_nil,reduceCtorEq,iff_false]
      intro h
      have := hr d (by simp [h])
      tauto
    | cons a s => simp
  have htail : ∀ d : Char, s.head? = some d → (s++r).tail = s.tail++r := by
    intro d hd
    cases s with
    | nil => simp at hd
    | cons a s => rfl
  unfold scanOperator
  simp only [hhead '=' (.inl rfl)]
  split_ifs with h1 h2 h3 h4 <;> simp_all

theorem nextToken_append (hc : c ≠ '\'') (hr : r.head? = some ')') :
    nextToken u c (s++r) = (nextToken u c s).map fun p => (p.1,p.2++r) := by
  have hword : ∀ d ∈ r.head?, isWordChar u d = false := by
    intro d hd
    obtain rfl : ')' = d := by simpa [hr] using hd
    rw [isWordChar_ascii (by decide)]
    decide
  have hsplit : (s++r).takeWhile (isWordChar u) = s.takeWhile (isWordChar u) ∧
      (s++r).dropWhile (isWordChar u) = s.dropWhile (isWordChar u)++r := by
    obtain ⟨d,r,rfl⟩ : ∃ d r', r = d::r' := by cases r <;> simp_all
    have hd := hword d (by simp)
    constructor
    · induction s with
      | nil => simp [hd]
      | cons a s ih => cases ha : isWordChar u a <;> simp_all
    · induction s with
      | nil => simp [hd]
      | cons a s ih => cases ha : isWordChar u a <;> simp_all
  have hop := scanOperator_append (c := c) (s := s) (r := r) (by
    intro d hd
    obtain rfl : ')' = d := by simpa [hr] using hd
    decide)
  unfold nextToken
  rw [hop,hsplit.1,hsplit.2]
  cases scanOperator c s with
  | none => split_ifs <;> rfl
  | some p => split_ifs <;> rfl

theorem quotes_tail {d : Char} (hd : d ≠ '\'') (h : s.head? = some d) : quotes s.tail = quotes s := by
  obtain ⟨s,rfl⟩ := head?_eq_some_iff.mp h
  rw [quotes_cons_of_ne hd]
  rfl

theorem quotes_dropWhile (s : Text) : quotes (s.dropWhile (isWordChar u)) = quotes s := by
  induction s with
  | nil => rfl
  | cons a s ih =>
    cases ha : isWordChar u a with
    | false => simp [ha]
    | true =>
      have hq : a ≠ '\'' := by
        rintro rfl
        rw [isWordChar_ascii (by decide)] at ha
        exact absurd ha (by decide)
      rw [dropWhile_cons_of_pos ha,ih,quotes_cons_of_ne hq]

theorem quotes_scanOperator {t : Text} (h : scanOperator c s = some (t,rest)) :
    quotes rest = quotes s := by
  unfold scanOperator at h
  split_ifs at h with h1 h2 h3 h4 <;> cases h
  · exact quotes_tail (by decide) h1.2
  · exact quotes_tail (by decide) h2.2
  · exact quotes_tail (by decide) h3.2
  · exact quotes_tail (by decide) h4.2
  all_goals rfl

theorem quotes_nextToken {t : Option Token} (hc : c ≠ '\'')
    (h : nextToken u c s = .ok (t,rest)) : quotes rest = quotes s := by
  unfold nextToken at h
  cases hop : scanOperator c s with
  | none =>
    rw [hop] at h
    split_ifs at h <;> cases h
    all_goals first | rfl | exact quotes_dropWhile s
  | some p =>
    rw [hop] at h
    split_ifs at h <;> cases h
    all_goals first | rfl | exact quotes_scanOperator hop

theorem tokenize_append_rparen (hf : Even (quotes f)) (hr : r.head? = some ')') :
    tokenize u (f++r) = do
      let a ← tokenize u f
      let b ← tokenize u r
      return a++b := by
  induction hn : f.length using Nat.strong_induction_on generalizing f with
  | _ n ih =>
    cases f with
    | nil => cases h : tokenize u r <;> simp [h]
    | cons c f =>
      simp only [length_cons] at hn
      by_cases hc : c = '\''
      · subst hc
        obtain ⟨hs,hev⟩ := scanString_append (s := f) (r := r)
          (by simpa [Nat.even_add_one] using hf) (by simp [hr])
        have hlen := scanString_length f
        rw [cons_append,tokenize_string,tokenize_string,hs,ih _ (by omega) hev rfl]
        cases tokenize u (scanString f).2 <;> cases tokenize u r <;> simp
      · rw [cons_append,tokenize_cons,tokenize_cons,nextToken_append hc hr]
        cases hnt : nextToken u c f with
        | error e => rfl
        | ok p =>
          have hlen := nextToken_length hnt
          have hq : Even (quotes p.2) := by
            rw [quotes_nextToken hc hnt]
            rwa [quotes_cons_of_ne hc] at hf
          simp only [map_ok,ok_bind]
          rw [ih _ (by omega) hq rfl]
          cases tokenize u p.2 <;> cases tokenize u r <;> simp

def NoAndRead (ts rest : List Token) : Prop := ∃ pre, ts = pre++rest ∧ Token.and ∉ pre

variable {rest : List Token}

theorem NoAndRead.cons {t : Token} (h : NoAndRead ts rest) (ht : t ≠ .and) :
    NoAndRead (t::ts) rest := by
  obtain ⟨pre,rfl,hpre⟩ := h
  exact ⟨t::pre,rfl,by simp [hpre,ht.symm]⟩

theorem NoAndRead.refl (ts : List Token) : NoAndRead ts ts := ⟨[],rfl,by simp⟩

theorem parseInList_noAnd {vs : List Text} (h : parseInList ts = .ok (vs,rest)) :
    NoAndRead ts rest := by
  induction ts using parseInList.induct generalizing vs rest with
  | case1 => simp [parseInList] at h
  | case2 ts =>
    simp only [parseInList,Except.ok.injEq,Prod.mk.injEq] at h
    exact h.2 ▸ (NoAndRead.refl _).cons (by simp)
  | case3 s ts ih | case5 s ts ih =>
    simp only [parseInList,map_eq_ok,Prod.exists] at h
    obtain ⟨vs,rest,h,_,rfl⟩ := h
    exact ((ih h).cons (by simp)).cons (by simp)
  | case4 s ts _ ih | case6 s ts _ ih =>
    simp only [parseInList,map_eq_ok,Prod.exists] at h
    obtain ⟨vs,rest,h,_,rfl⟩ := h
    exact (ih h).cons (by simp)
  | case7 t ts => simp_all [parseInList]

theorem parseComparison_noAnd {column : Text} (h : parseComparison column ts = .ok (e,rest)) :
    NoAndRead ts rest := by
  unfold parseComparison at h
  split at h
  · cases h
  · unfold parseIsNull at h
    split at h <;> cases h
    · exact (((NoAndRead.refl _).cons (by simp)).cons (by simp)).cons (by simp)
    · exact ((NoAndRead.refl _).cons (by simp)).cons (by simp)
  · simp only [map_eq_ok,Prod.exists] at h
    obtain ⟨vs,rest,h,_,rfl⟩ := h
    exact ((parseInList_noAnd h).cons (by simp)).cons (by simp)
  · cases h
  · obtain ⟨op,_,h⟩ := bind_eq_ok.mp h
    unfold parseValue at h
    split at h <;> cases h
    · exact ((NoAndRead.refl _).cons (by simp)).cons (by simp)
    · exact ((NoAndRead.refl _).cons (by simp)).cons (by simp)
  · cases h

theorem NoAndRead.suffix (h : NoAndRead (ts++.and::G) rest) : ∃ ts', rest = ts'++.and::G := by
  obtain ⟨pre,hpre,hnot⟩ := h
  rcases append_eq_append_iff.mp hpre with ⟨a,rfl,hG⟩ | ⟨c,rfl,rfl⟩
  · cases a with
    | nil => exact ⟨[],by simpa using hG.symm⟩
    | cons t a =>
      simp only [cons_append,List.cons.injEq] at hG
      exact absurd (by simp [← hG.1]) hnot
  · exact ⟨c,rfl⟩

/-- A conjunction with the guard, or an alternative to one. -/
def EndsIn (g : FilterExpr) : FilterExpr → Prop
  | .and _ rhs => rhs = g
  | .or _ (.and _ rhs) => rhs = g
  | _ => False

/-- Each level leaves the guard `G` behind an `AND` alone, or reads all and ends in it. -/
structure GuardLast (G : List Token) (g : FilterExpr) (n : ℕ) : Prop where
  parseOr : ∀ {ts e rest}, parseOr n (ts++.and::G) = .ok (e,rest) →
    (∃ ts', rest = ts'++.and::G) ∨ rest = [] ∧ EndsIn g e
  orLoop : ∀ {l ts e rest}, orLoop n l (ts++.and::G) = .ok (e,rest) →
    (∃ ts', rest = ts'++.and::G) ∨ rest = [] ∧ ∃ l x, e = .or l (.and x g)
  parseAnd : ∀ {ts e rest}, parseAnd n (ts++.and::G) = .ok (e,rest) →
    (∃ ts', rest = ts'++.and::G) ∨ rest = [] ∧ ∃ x, e = .and x g
  andLoop : ∀ {l ts e rest}, andLoop n l (ts++.and::G) = .ok (e,rest) →
    (∃ ts', rest = ts'++.and::G) ∨ rest = [] ∧ ∃ x, e = .and x g
  parseAtom : ∀ {ts e rest}, parseAtom n (ts++.and::G) = .ok (e,rest) →
    ∃ ts', rest = ts'++.and::G

theorem guardLast (hg : ∀ n e rest, parseAtom n G = .ok (e,rest) → e = g ∧ rest = []) (n : ℕ) :
    GuardLast G g n := by
  induction n with
  | zero => constructor <;> simp [FilterLang.parseOr,FilterLang.orLoop,FilterLang.parseAnd,
      FilterLang.andLoop,FilterLang.parseAtom]
  | succ n ih =>
    refine ⟨?_,?_,?_,?_,?_⟩
    · intro ts e rest h
      obtain ⟨⟨l,mid⟩,hl,h⟩ := bind_eq_ok.mp h
      rcases ih.parseAnd hl with ⟨ts',rfl⟩ | ⟨rfl,x,rfl⟩
      · rcases ih.orLoop h with hrest | ⟨hrest,l,x,rfl⟩
        · exact .inl hrest
        · exact .inr ⟨hrest,rfl⟩
      · cases n with
        | zero => cases h
        | succ n =>
          cases h
          exact .inr ⟨rfl,rfl⟩
    · intro l ts e rest h
      rw [orLoop_succ] at h
      split at h
      next ts' hts =>
        obtain ⟨⟨r,mid⟩,hr,h⟩ := bind_eq_ok.mp h
        obtain ⟨ts'',rfl⟩ : ∃ ts'', ts' = ts''++.and::G := by
          cases ts with
          | nil => simp at hts
          | cons t ts => exact ⟨ts,by simpa using (List.cons.inj hts).2.symm⟩
        rcases ih.parseAnd hr with ⟨mid,rfl⟩ | ⟨rfl,x,rfl⟩
        · exact ih.orLoop h
        · cases n with
          | zero => cases h
          | succ n =>
            cases h
            exact .inr ⟨rfl,_,_,rfl⟩
      next => cases h; exact .inl ⟨ts,rfl⟩
    · intro ts e rest h
      obtain ⟨⟨l,mid⟩,hl,h⟩ := bind_eq_ok.mp h
      obtain ⟨ts',rfl⟩ := ih.parseAtom hl
      exact ih.andLoop h
    · intro l ts e rest h
      rw [andLoop_succ] at h
      split at h
      next ts' hts =>
        obtain ⟨⟨r,mid⟩,hr,h⟩ := bind_eq_ok.mp h
        cases ts with
        | nil =>
          obtain rfl : G = ts' := by simpa using hts
          obtain ⟨rfl,rfl⟩ := hg n r mid hr
          cases n with
          | zero => cases h
          | succ n =>
            cases h
            exact .inr ⟨rfl,_,rfl⟩
        | cons t ts =>
          obtain rfl : ts++.and::G = ts' := by simpa using (List.cons.inj hts).2
          obtain ⟨mid,rfl⟩ := ih.parseAtom hr
          exact ih.andLoop h
      next => cases h; exact .inl ⟨ts,rfl⟩
    · intro ts e rest h
      rw [parseAtom_succ] at h
      cases ts with
      | nil => cases h
      | cons t ts =>
        split at h
        next h0 => cases h0
        next ts' hts =>
          obtain ⟨rfl,rfl⟩ := List.cons.inj hts
          obtain ⟨⟨inner,mid⟩,hin,h⟩ := bind_eq_ok.mp h
          obtain ⟨hmid,_⟩ := closeParen_eq_ok.mp h
          rcases ih.parseOr hin with ⟨mid',rfl⟩ | ⟨rfl,_⟩
          · cases mid' with
            | nil => simp at hmid
            | cons t mid' => exact ⟨mid',by simpa using (List.cons.inj hmid).2.symm⟩
          · cases hmid
        next ts' hts =>
          obtain ⟨rfl,rfl⟩ := List.cons.inj hts
          obtain ⟨r,hr,h⟩ := map_eq_ok.mp h
          cases h
          exact ih.parseAtom hr
        next column ts' hts =>
          obtain ⟨rfl,rfl⟩ := List.cons.inj hts
          exact (parseComparison_noAnd h).suffix
        next => cases h

theorem endsIn_of_parse_splice {G : Text} {gts : List Token}
    (hf : Even (quotes f)) (hG : tokenize u G = .ok gts)
    (hg : ∀ n e rest, parseAtom n gts = .ok (e,rest) → e = g ∧ rest = [])
    (h : parseFilterExpr u ('('::(f++") AND ".toList++G)) = .ok e) : EndsIn g e := by
  obtain ⟨ts,hts,hparse⟩ := parseFilterExpr_eq_ok.mp h
  have htext : f++") AND ".toList++G = f ++ ')' :: ' '::("AND".toList ++ ' '::G) := by
    simp
  rw [htext,tokenize_lparen,tokenize_append_rparen hf (by simp),tokenize_rparen,tokenize_space,
    tokenize_and,hG] at hts
  simp only [map_ok,ok_bind,pure_eq_ok,map_eq_ok,bind_eq_ok,Except.ok.injEq] at hts
  obtain ⟨_,⟨a,_,rfl⟩,rfl⟩ := hts
  have hshape : Token.lparen::(a++.rparen::.and::gts) =
      (.lparen::(a++[.rparen]))++.and::gts := by simp
  rw [hshape] at hparse
  rcases (guardLast hg _).parseOr hparse with ⟨ts',hts'⟩ | ⟨_,he⟩
  · simp at hts'
  · exact he
end Hirn.FilterLang
