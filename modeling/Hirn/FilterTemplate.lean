import Hirn.FilterParser

/-! Predicates built by splicing quoted literals into a template. Columns carry the proof
that the scanner reads them as plain identifiers, and the level of a template is in its
type, so that a template without its parentheses cannot be built. -/
namespace Hirn.FilterLang
open Fallible List
variable {u : Unicode}

/-- `s.replace('\'', "''")`. -/
def escape (s : Text) : Text := s.flatMap fun c => if c = '\'' then ['\'','\''] else [c]

/-- `format!("'{}'", s.replace('\'', "''"))`. -/
def quote (s : Text) : Text := '\''::(escape s++['\''])

/-- The literals of an `IN` list as callers render them: quoted, joined by `", "`. -/
def quoteList (values : List Text) : Text := ", ".toList.intercalate (values.map quote)

section

theorem isWordChar_ascii (hc : c.toNat < 128) :
    isWordChar u c = (c.isAlphanum || c == '_' || c == '.') := by
  simp [isWordChar,u.ascii_alphanumeric c hc]

theorem isWordStart_ascii (hc : c.toNat < 128) : isWordStart u c = (c.isAlphanum || c == '_') := by
  simp [isWordStart,u.ascii_alphanumeric c hc]

theorem ne_of_isWordStart {d : Char} (hc : isWordStart u c) (hd : d.toNat < 128)
    (h : (d.isAlphanum || d == '_') = false) : c ≠ d := by
  rintro rfl
  rw [isWordStart_ascii hd,h] at hc
  exact absurd hc (by decide)

theorem isWhitespace_of_isWordStart (hc : isWordStart u c) : isWhitespace c = false := by
  simp only [isWordStart,Bool.or_eq_true,beq_iff_eq] at hc
  rcases hc with h | rfl
  · exact u.alphanumeric_not_whitespace c h
  · decide

theorem nextToken_word (hc : isWordStart u c) (cs : Text) : nextToken u c cs =
      .ok (some (keyword u (c::cs.takeWhile (isWordChar u))),cs.dropWhile (isWordChar u)) := by
  have hne : ∀ d : Char, d.toNat < 128 → (d.isAlphanum || d == '_') = false → c ≠ d :=
    fun _ => ne_of_isWordStart hc
  have hop : scanOperator c cs = none := by
    simp [scanOperator,hne '!' (by decide) (by decide),hne '<' (by decide) (by decide),
      hne '>' (by decide) (by decide),hne '=' (by decide) (by decide)]
  simp [nextToken,isWhitespace_of_isWordStart hc,hne '(' (by decide) (by decide),
    hne ')' (by decide) (by decide),hne ',' (by decide) (by decide),
    hne '\'' (by decide) (by decide),hop,hc]
end
section

def IsWord (u : Unicode) (w : Text) : Prop :=
  ∃ c cs, w = c::cs ∧ isWordStart u c = true ∧ ∀ d ∈ cs, isWordChar u d = true

theorem tokenize_of_nextToken {c : Char} {cs : Text} {t : Option Token}
    (h : nextToken u c cs = .ok (t,r)) : tokenize u (c::cs) = (tokenize u r).map (t.toList++·) := by
  rw [tokenize_cons,h]
  cases ht : tokenize u r <;> simp [ht]

theorem tokenize_word {w : Text} (hw : IsWord u w) (hr : ∀ d ∈ r.head?, isWordChar u d = false) :
    tokenize u (w++r) = (tokenize u r).map (keyword u w::·) := by
  obtain ⟨c,cs,rfl,hc,hcs⟩ := hw
  have hr' : r.takeWhile (isWordChar u) = [] ∧ r.dropWhile (isWordChar u) = r := by
    cases r with
    | nil => simp
    | cons d r => simp [hr d (by simp)]
  have htake : (cs++r).takeWhile (isWordChar u) = cs := by
    rw [takeWhile_append_of_pos hcs,hr'.1,append_nil]
  have hdrop : (cs++r).dropWhile (isWordChar u) = r := by
    rw [dropWhile_append_of_pos hcs,hr'.2]
  have hn := nextToken_word hc (cs++r)
  rw [htake,hdrop] at hn
  exact tokenize_of_nextToken hn

variable (cs : Text)

@[simp] theorem tokenize_space : tokenize u (' '::cs) = tokenize u cs := by
  rw [tokenize_of_nextToken (t := none) (r := cs) rfl]
  cases tokenize u cs <;> rfl

@[simp] theorem tokenize_lparen : tokenize u ('('::cs) = (tokenize u cs).map (.lparen::·) :=
  tokenize_of_nextToken (t := some .lparen) rfl

@[simp] theorem tokenize_rparen : tokenize u (')'::cs) = (tokenize u cs).map (.rparen::·) :=
  tokenize_of_nextToken (t := some .rparen) rfl

@[simp] theorem tokenize_comma : tokenize u (','::cs) = (tokenize u cs).map (.comma::·) :=
  tokenize_of_nextToken (t := some .comma) rfl

theorem tokenize_string : tokenize u ('\''::cs) =
      (tokenize u (scanString cs).2).map (.stringLit (scanString cs).1::·) :=
  tokenize_of_nextToken (t := some (.stringLit (scanString cs).1)) rfl

theorem scanString_escape (s : Text) (hr : r.head? ≠ some '\'') :
    scanString (escape s ++ '\''::r) = (s,r) := by
  induction s with
  | nil =>
    cases r with
    | nil => rfl
    | cons d r =>
      have hd : d ≠ '\'' := by simpa using hr
      simp [escape,scanString,hd]
  | cons c s ih =>
    by_cases hc : c = '\''
    · subst hc
      have : escape ('\''::s) = '\'' :: '\''::escape s := rfl
      rw [this,cons_append,cons_append,scanString,ih]
    · have : escape (c::s) = c::escape s := by simp [escape,hc]
      rw [this,cons_append,scanString.eq_4 _ _ (by simp [hc]) (by simp [hc]),ih]

theorem tokenize_quote (s : Text) (hr : r.head? ≠ some '\'') :
    tokenize u (quote s++r) = (tokenize u r).map (.stringLit s::·) := by
  have h : quote s++r = '\''::(escape s ++ '\''::r) := by simp [quote]
  rw [h,tokenize_string,scanString_escape s hr]

/-- The tokens of a rendered `IN` list. -/
def listTokens (values : List Text) : List Token :=
  [Token.comma].intercalate (values.map fun v => [.stringLit v])

theorem tokenize_quoteList (values : List Text) (hr : r.head? ≠ some '\'') :
    tokenize u (quoteList values++r) = (tokenize u r).map (listTokens values++·) := by
  induction values with
  | nil => cases h : tokenize u r <;> simp [quoteList,listTokens,h]
  | cons v values ih =>
    cases values with
    | nil =>
      have h : quoteList [v] = quote v := by simp [quoteList]
      rw [h,tokenize_quote v hr]
      rfl
    | cons w values =>
      have h : quoteList (v::w::values)++r =
          quote v++(',' :: ' '::(quoteList (w::values)++r)) := by
        simp [quoteList]
      rw [h,tokenize_quote v (by simp),tokenize_comma,tokenize_space,ih]
      cases tokenize u r <;> simp [listTokens]
end
section

/-- A column that the scanner reads as an identifier: a word that is no keyword. -/
structure Column (u : Unicode) where
  name : Text
  word : IsWord u name
  plain : keyword u name = .ident name

/-- The comparison operators as they can be spelled. -/
inductive OpSpelling
  | eq | bangEq | ltGt | gt | lt | ge | le

def OpSpelling.render : OpSpelling → Text
  | .eq => "=".toList | .bangEq => "!=".toList | .ltGt => "<>".toList
  | .gt => ">".toList | .lt => "<".toList | .ge => ">=".toList | .le => "<=".toList

def OpSpelling.op : OpSpelling → CmpOp
  | .eq => .eq | .bangEq => .ne | .ltGt => .ne | .gt => .gt | .lt => .lt | .ge => .ge | .le => .le

def OpSpelling.token : OpSpelling → Text
  | .ltGt => "!=".toList
  | s => s.render

inductive Level
  | atom | conj | disj

/-- Predicates with holes `ι` for their literals. -/
inductive Template (u : Unicode) (ι : Type*) : Level → Type _
  | comparison (column : Column u) (op : OpSpelling) (literal : ι) : Template u ι .atom
  | inList (column : Column u) (literals : List ι) : Template u ι .atom
  | paren (inner : Template u ι .disj) : Template u ι .atom
  | atom (a : Template u ι .atom) : Template u ι .conj
  | and (lhs : Template u ι .conj) (rhs : Template u ι .atom) : Template u ι .conj
  | conj (c : Template u ι .conj) : Template u ι .disj
  | or (lhs : Template u ι .disj) (rhs : Template u ι .conj) : Template u ι .disj

namespace Template
variable {ι : Type*} (σ : ι → Text)

def render : ∀ {l : Level}, Template u ι l → Text
  | _, .comparison c op x => c.name ++ ' '::(op.render ++ ' '::quote (σ x))
  | _, .inList c xs => c.name++" IN (".toList++quoteList (xs.map σ)++[')']
  | _, .paren t => '('::(render t++[')'])
  | _, .atom a => render a
  | _, .and l r => render l++" AND ".toList++render r
  | _, .conj c => render c
  | _, .or l r => render l++" OR ".toList++render r

/-- The tree that a template stands for; parentheses only group. -/
def tree : ∀ {l : Level}, Template u ι l → FilterExpr
  | _, .comparison c op x => .comparison c.name op.op (σ x)
  | _, .inList c xs => .inList c.name (xs.map σ)
  | _, .paren t => tree t
  | _, .atom a => tree a
  | _, .and l r => .and (tree l) (tree r)
  | _, .conj c => tree c
  | _, .or l r => .or (tree l) (tree r)

def tokens : ∀ {l : Level}, Template u ι l → List Token
  | _, .comparison c op x => [.ident c.name,.op op.token,.stringLit (σ x)]
  | _, .inList c xs => .ident c.name::.in::.lparen::(listTokens (xs.map σ)++[.rparen])
  | _, .paren t => .lparen::(tokens t++[.rparen])
  | _, .atom a => tokens a
  | _, .and l r => tokens l++.and::tokens r
  | _, .conj c => tokens c
  | _, .or l r => tokens l++.or::tokens r
end Template

theorem space_not_wordChar (d : Char) (cs : Text) (h : d ∈ (' '::cs).head?) :
    isWordChar u d = false := by
  obtain rfl : ' ' = d := by simpa using h
  rw [isWordChar_ascii (by decide)]
  decide

theorem tokenize_keyword (t : Token) (cs : Text) (hw : IsWord u w)
    (hk : keyword u w = t) : tokenize u (w ++ ' '::cs) = (tokenize u cs).map (t::·) := by
  rw [tokenize_word hw fun d hd => space_not_wordChar d cs hd,hk,tokenize_space]

/-- ASCII words, on which the Unicode tables play no part. -/
def asciiWord : Text → Bool
  | [] => false
  | c::cs => (c.isAlphanum || c == '_') && (c::cs).all fun d =>
      decide (d.toNat < 128) && (d.isAlphanum || d == '_' || d == '.')

theorem upper_ascii (hw : ∀ c ∈ w, c.toNat < 128) : upper u w = w.map Char.toUpper := by
  induction w with
  | nil => rfl
  | cons c w ih =>
    have hc := u.ascii_uppercase c (hw c (by simp))
    simp_all [upper]

theorem lt_of_asciiWord (h : asciiWord w) : ∀ c ∈ w, c.toNat < 128 := by
  cases w with
  | nil => simp
  | cons c cs =>
    simp only [asciiWord,Bool.and_eq_true,all_eq_true,decide_eq_true_eq] at h
    exact fun d hd => (h.2 d hd).1

theorem isWord_of_asciiWord (h : asciiWord w) : IsWord u w := by
  cases w with
  | nil => cases h
  | cons c cs =>
    have hlt := lt_of_asciiWord h
    simp only [asciiWord,Bool.and_eq_true,all_eq_true] at h
    refine ⟨c,cs,rfl,?_,fun d hd => ?_⟩
    · rw [isWordStart_ascii (hlt c (by simp))]; exact h.1
    · rw [isWordChar_ascii (hlt d (by simp [hd]))]; exact (h.2 d (by simp [hd])).2

/-- Whether an ASCII word is a keyword is decided without the Unicode tables. -/
def asciiKeyword (w : Text) : Token :=
  let w' := w.map Char.toUpper
  if w' = "AND".toList then .and
  else if w' = "OR".toList then .or
  else if w' = "IN".toList then .in
  else if w' = "IS".toList then .is
  else if w' = "NOT".toList then .not
  else if w' = "NULL".toList then .null
  else .ident w

theorem keyword_of_asciiWord (h : asciiWord w) : keyword u w = asciiKeyword w := by
  simp [keyword,asciiKeyword,upper_ascii (lt_of_asciiWord h)]

theorem tokenize_asciiWord (h : asciiWord w) (cs : Text) :
    tokenize u (w ++ ' '::cs) = (tokenize u cs).map (asciiKeyword w::·) :=
  tokenize_keyword _ cs (isWord_of_asciiWord h) (keyword_of_asciiWord h)

variable (cs : Text)

theorem tokenize_and : tokenize u ("AND".toList ++ ' '::cs) = (tokenize u cs).map (.and::·) :=
  tokenize_asciiWord (by decide) cs

theorem tokenize_or : tokenize u ("OR".toList ++ ' '::cs) = (tokenize u cs).map (.or::·) :=
  tokenize_asciiWord (by decide) cs

theorem tokenize_in : tokenize u ("IN".toList ++ ' '::cs) = (tokenize u cs).map (.in::·) :=
  tokenize_asciiWord (by decide) cs

theorem tokenize_op (op : OpSpelling) (cs : Text) :
    tokenize u (op.render ++ ' '::cs) = (tokenize u cs).map (.op op.token::·) := by
  have h : ∀ (c : Char) (r : Text) (s : Text), nextToken u c r = .ok (some (.op s),' '::cs) →
      tokenize u (c::r) = (tokenize u cs).map (.op s::·) := by
    intro c r s hn
    rw [tokenize_of_nextToken hn,tokenize_space]
    rfl
  cases op <;> exact h _ _ _ rfl

theorem Column.tokenize (c : Column u) (cs : Text) :
    FilterLang.tokenize u (c.name ++ ' '::cs) = (FilterLang.tokenize u cs).map (.ident c.name::·) :=
  tokenize_keyword _ cs c.word c.plain

namespace Template
variable {ι : Type*} {σ : ι → Text} {l : Level} (t : Template u ι l)

/-- A rendered template scans as its tokens, if what follows does not continue a literal. -/
theorem tokenize_render {r : Text} (hr : r.head? ≠ some '\'') :
    tokenize u (t.render σ++r) = (tokenize u r).map (t.tokens σ++·) := by
  induction t generalizing r with
  | comparison c op x =>
    simp only [render,append_assoc,cons_append]
    rw [c.tokenize,tokenize_op,tokenize_quote _ hr]
    cases tokenize u r <;> rfl
  | inList c xs =>
    have h : render σ (.inList c xs)++r =
        c.name ++ ' '::("IN".toList ++ ' ' :: '('::(quoteList (xs.map σ) ++ ')'::r)) := by
      simp [render]
    rw [h,c.tokenize,tokenize_in,tokenize_lparen,tokenize_quoteList _ (by simp),
      tokenize_rparen]
    cases tokenize u r <;> simp [tokens]
  | paren t ih =>
    simp only [render,append_assoc,cons_append,nil_append]
    rw [tokenize_lparen,ih (by simp),tokenize_rparen]
    cases tokenize u r <;> simp [tokens]
  | atom a ih => exact ih hr
  | and lhs rhs ihl ihr =>
    have h : render σ (.and lhs rhs)++r =
        render σ lhs ++ ' '::("AND".toList ++ ' '::(render σ rhs++r)) := by
      simp [render]
    rw [h,ihl (by simp),tokenize_space,tokenize_and,ihr hr]
    cases tokenize u r <;> simp [tokens]
  | conj c ih => exact ih hr
  | or lhs rhs ihl ihr =>
    have h : render σ (.or lhs rhs)++r =
        render σ lhs ++ ' '::("OR".toList ++ ' '::(render σ rhs++r)) := by
      simp [render]
    rw [h,ihl (by simp),tokenize_space,tokenize_or,ihr hr]
    cases tokenize u r <;> simp [tokens]

theorem parseInList_listTokens (values : List Text) (rest : List Token) :
    parseInList (listTokens values++.rparen::rest) = .ok (values,rest) := by
  induction values with
  | nil => simp [listTokens,parseInList]
  | cons v values ih =>
    cases values with
    | nil => simp [listTokens,parseInList]
    | cons w values =>
      have h : listTokens (v::w::values) = .stringLit v::.comma::listTokens (w::values) := by
        simp [listTokens]
      rw [h,cons_append,cons_append,parseInList,ih]
      rfl

theorem cmpOp_token (op : OpSpelling) : cmpOp op.token = .ok op.op := by
  cases op <;> rfl

/-- An atom is read whole, a chain up to the loop that waits for the next member. -/
def Reads (σ : ι → Text) : ∀ {l : Level}, Template u ι l → Prop
  | .atom, t => ∀ n rest, 3*(t.tokens σ++rest).length+1 ≤ n →
      parseAtom n (t.tokens σ++rest) = .ok (t.tree σ,rest)
  | .conj, t => ∀ n rest, 3*(t.tokens σ++rest).length+2 ≤ n →
      parseAnd n (t.tokens σ++rest) = andLoop n (t.tree σ) rest
  | .disj, t => ∀ n rest, 3*(t.tokens σ++rest).length+3 ≤ n → rest.head? ≠ some .and →
      parseOr n (t.tokens σ++rest) = orLoop n (t.tree σ) rest

theorem tokens_pos : 0 < (t.tokens σ).length := by
  induction t <;> simp [tokens] <;> omega

theorem orLoop_stop {n : ℕ} (hn : 0 < n) (e : FilterExpr) {ts : List Token}
    (h : ts.head? ≠ some .or) : orLoop n e ts = .ok (e,ts) := by
  obtain ⟨n,rfl⟩ : ∃ k, n = k+1 := ⟨n-1,by omega⟩
  rw [orLoop_succ]
  split
  · simp at h
  · rfl

theorem andLoop_stop {n : ℕ} (hn : 0 < n) (e : FilterExpr) {ts : List Token}
    (h : ts.head? ≠ some .and) : andLoop n e ts = .ok (e,ts) := by
  obtain ⟨n,rfl⟩ : ∃ k, n = k+1 := ⟨n-1,by omega⟩
  rw [andLoop_succ]
  split
  · simp at h
  · rfl

theorem reads : Reads σ t := by
  induction t with
  | comparison c op x =>
    intro n rest hn
    obtain ⟨n,rfl⟩ : ∃ k, n = k+1 := ⟨n-1,by omega⟩
    simp [tokens,parseAtom_succ,parseComparison,cmpOp_token,parseValue,tree]
  | inList c xs =>
    intro n rest hn
    obtain ⟨n,rfl⟩ : ∃ k, n = k+1 := ⟨n-1,by omega⟩
    simp [tokens,parseAtom_succ,parseComparison,parseInList_listTokens,tree]
  | paren t ih =>
    intro n rest hn
    obtain ⟨n,rfl⟩ : ∃ k, n = k+1 := ⟨n-1,by omega⟩
    have h : tokens σ (.paren t)++rest = .lparen::(tokens σ t++.rparen::rest) := by
      simp [tokens]
    rw [h] at hn ⊢
    simp only [length_cons] at hn
    simp only [parseAtom_succ]
    rw [ih n (.rparen::rest) (by omega) (by simp),orLoop_stop (by omega) _ (by simp)]
    rfl
  | atom a ih =>
    intro n rest hn
    obtain ⟨n,rfl⟩ : ∃ k, n = k+1 := ⟨n-1,by omega⟩
    have hpos := tokens_pos (σ := σ) a
    have hlen : (tokens σ a++rest).length = (tokens σ a).length + rest.length := by simp
    change 3*(tokens σ a++rest).length+2 ≤ n+1 at hn
    change parseAnd (n+1) (tokens σ a++rest) = andLoop (n+1) (tree σ a) rest
    rw [parseAnd,ih n rest (by omega)]
    change andLoop n (tree σ a) rest = _
    exact (fuelAgrees n).andLoop (by omega) (by omega)
  | and lhs rhs ihl ihr =>
    intro n rest hn
    obtain ⟨n,rfl⟩ : ∃ k, n = k+1 := ⟨n-1,by omega⟩
    have h : tokens σ (.and lhs rhs)++rest = tokens σ lhs++.and::(tokens σ rhs++rest) := by
      simp [tokens]
    have hlen : (tokens σ lhs++.and::(tokens σ rhs++rest)).length =
        (tokens σ lhs).length + 1 + (tokens σ rhs++rest).length := by simp; omega
    have hlen' : (tokens σ rhs++rest).length = (tokens σ rhs).length + rest.length := by simp
    rw [h] at hn ⊢
    rw [ihl (n+1) _ hn]
    simp only [andLoop_succ]
    rw [ihr n rest (by omega)]
    change andLoop n (tree σ (.and lhs rhs)) rest = andLoop (n+1) _ rest
    exact (fuelAgrees n).andLoop (by omega) (by omega)
  | conj c ih =>
    intro n rest hn hrest
    obtain ⟨n,rfl⟩ : ∃ k, n = k+1 := ⟨n-1,by omega⟩
    have hlen : (tokens σ c++rest).length = (tokens σ c).length + rest.length := by simp
    have hpos := tokens_pos (σ := σ) c
    change 3*(tokens σ c++rest).length+3 ≤ n+1 at hn
    change parseOr (n+1) (tokens σ c++rest) = orLoop (n+1) (tree σ c) rest
    rw [parseOr,ih n rest (by omega),andLoop_stop (by omega) _ hrest]
    change orLoop n (tree σ c) rest = _
    exact (fuelAgrees n).orLoop (by omega) (by omega)
  | or lhs rhs ihl ihr =>
    intro n rest hn hrest
    obtain ⟨n,rfl⟩ : ∃ k, n = k+1 := ⟨n-1,by omega⟩
    have h : tokens σ (.or lhs rhs)++rest = tokens σ lhs++.or::(tokens σ rhs++rest) := by
      simp [tokens]
    have hlen : (tokens σ lhs++.or::(tokens σ rhs++rest)).length =
        (tokens σ lhs).length + 1 + (tokens σ rhs++rest).length := by simp; omega
    have hlen' : (tokens σ rhs++rest).length = (tokens σ rhs).length + rest.length := by simp
    rw [h] at hn ⊢
    rw [ihl (n+1) _ hn (by simp)]
    simp only [orLoop_succ]
    rw [ihr n rest (by omega),andLoop_stop (by omega) _ hrest]
    change orLoop n (tree σ (.or lhs rhs)) rest = orLoop (n+1) _ rest
    exact (fuelAgrees n).orLoop (by omega) (by omega)

theorem tokenize_render_end (σ : ι → Text) : tokenize u (t.render σ) = .ok (t.tokens σ) := by
  simpa using tokenize_render (σ := σ) t (r := []) (by simp)

theorem parseOr_tokens (t : Template u ι .disj) (σ : ι → Text) :
    parseOr (parserFuel (t.tokens σ)) (t.tokens σ) = .ok (t.tree σ,[]) := by
  have h := reads (σ := σ) t (parserFuel (t.tokens σ)) [] (by simp [parserFuel]) (by simp)
  rw [append_nil] at h
  rw [h,orLoop_stop (by simp [parserFuel]) _ (by simp)]

/-- Doubling quotes is sound: a rendered template reads back as its tree. -/
theorem parseFilterExpr_render {u : Unicode} {ι : Type*} (t : Template u ι .disj) (σ : ι → Text) :
    parseFilterExpr u (t.render σ) = .ok (t.tree σ) :=
  parseFilterExpr_eq_ok.mpr ⟨_,t.tokenize_render_end σ,t.parseOr_tokens σ⟩
end Template
end
end Hirn.FilterLang
