import Hirn.Fallible

/-! The storage filter language of `scan.rs`: its scanner and its recursive-descent
parser. Text is the list of its characters, so that splicing one text into another is
list append, and the parser reads the remaining tokens instead of a position. -/
namespace Hirn.FilterLang
open Fallible List FilterLang

abbrev Text := List Char

/-- `char::is_whitespace`: the Unicode property `White_Space`. -/
def isWhitespace (c : Char) : Bool :=
  let n := c.toNat
  (9 ≤ n && n ≤ 13) || n == 0x20 || n == 0x85 || n == 0xA0 || n == 0x1680 ||
    (0x2000 ≤ n && n ≤ 0x200A) || n == 0x2028 || n == 0x2029 || n == 0x202F ||
    n == 0x205F || n == 0x3000

/-- The tables of `char::is_alphanumeric` and `char::to_uppercase`, and what they say of ASCII. -/
structure Unicode where
  isAlphanumeric : Char → Bool
  toUppercase : Char → Text
  ascii_alphanumeric : ∀ c : Char, c.toNat < 128 → isAlphanumeric c = c.isAlphanum
  ascii_uppercase : ∀ c : Char, c.toNat < 128 → toUppercase c = [c.toUpper]
  alphanumeric_not_whitespace : ∀ c, isAlphanumeric c = true → isWhitespace c = false

inductive Token
  | ident (s : Text) | stringLit (s : Text) | op (s : Text)
  | lparen | rparen | comma | and | or | in | is | not | null
  deriving DecidableEq

inductive CmpOp
  | eq | ne | gt | lt | ge | le
  deriving DecidableEq

inductive FilterExpr
  | comparison (column : Text) (op : CmpOp) (value : Text)
  | inList (column : Text) (values : List Text)
  | isNull (column : Text) (negated : Bool)
  | not (inner : FilterExpr)
  | and (lhs rhs : FilterExpr)
  | or (lhs rhs : FilterExpr)
  deriving DecidableEq

/-- The `InvalidPredicate` messages and their values. No text reaches `outOfFuel`. -/
inductive PredicateError
  | unexpectedCharacter (c : Char)
  | unexpectedToken (pos : ℕ) (t : Token)
  | unexpectedEnd
  | missingClosingParenthesis
  | expectedColumnName (got : Token)
  | expectedOperatorAfter (column : Text)
  | expectedNullAfterIs (column : Text)
  | expectedParenAfterIn
  | unexpectedEndOfInList
  | expectedValueInList (got : Token)
  | unsupportedOperator (op : Text)
  | expectedOperator (got : Token)
  | expectedValueAfterOperator (column : Text)
  | expectedValue (got : Token)
  | columnNotInSchema (column : Text)
  | outOfFuel
  deriving DecidableEq

variable (u : Unicode)

def isWordStart (c : Char) : Bool := u.isAlphanumeric c || c == '_'
def isWordChar (c : Char) : Bool := u.isAlphanumeric c || c == '_' || c == '.'

/-- The body of a string literal: its value and what follows, or the end of the input. -/
def scanString : Text → Text × Text
  | [] => ([],[])
  | '\'' :: '\''::cs => let r := scanString cs; ('\''::r.1,r.2)
  | '\''::cs => ([],cs)
  | c::cs => let r := scanString cs; (c::r.1,r.2)

/-- `str::to_uppercase` on a scanned word. -/
def upper (w : Text) : Text := w.flatMap u.toUppercase

def keyword (w : Text) : Token :=
  if upper u w = "AND".toList then .and
  else if upper u w = "OR".toList then .or
  else if upper u w = "IN".toList then .in
  else if upper u w = "IS".toList then .is
  else if upper u w = "NOT".toList then .not
  else if upper u w = "NULL".toList then .null
  else .ident w

/-- The operator that starts at `c` with `cs` behind it, and the text it leaves. -/
def scanOperator (c : Char) (cs : Text) : Option (Text × Text) :=
  if c = '!' ∧ cs.head? = some '=' then some ("!=".toList,cs.tail)
  else if c = '<' ∧ cs.head? = some '>' then some ("!=".toList,cs.tail)
  else if c = '>' ∧ cs.head? = some '=' then some (">=".toList,cs.tail)
  else if c = '<' ∧ cs.head? = some '=' then some ("<=".toList,cs.tail)
  else if c = '=' then some ("=".toList,cs)
  else if c = '>' then some (">".toList,cs)
  else if c = '<' then some ("<".toList,cs)
  else none

/-- One round of the scanner at `c`: the token, none for white space, and the rest. -/
def nextToken (c : Char) (cs : Text) : Except PredicateError (Option Token × Text) :=
  if isWhitespace c then .ok (none,cs)
  else if c = '(' then .ok (some .lparen,cs)
  else if c = ')' then .ok (some .rparen,cs)
  else if c = ',' then .ok (some .comma,cs)
  else if c = '\'' then .ok (some (.stringLit (scanString cs).1),(scanString cs).2)
  else match scanOperator c cs with
    | some (s,rest) => .ok (some (.op s),rest)
    | none =>
      if isWordStart u c then
        .ok (some (keyword u (c::cs.takeWhile (isWordChar u))),cs.dropWhile (isWordChar u))
      else .error (.unexpectedCharacter c)

/-- The scanner's loop. A round consumes a character, so `cs.length + 1` suffice. -/
def tokenizeFrom : ℕ → Text → Except PredicateError (List Token)
  | 0, _ => .error .outOfFuel
  | _+1, [] => .ok []
  | n+1, c::cs => do
    let r ← nextToken u c cs
    let ts ← tokenizeFrom n r.2
    return r.1.toList++ts

def tokenize (input : Text) : Except PredicateError (List Token) :=
  tokenizeFrom u (input.length+1) input

variable {u}

theorem scanString_length (cs : Text) : (scanString cs).2.length ≤ cs.length := by
  fun_induction scanString cs with
  | case1 => simp
  | case2 cs r ih => simp only [length_cons]; change (scanString cs).2.length ≤ _; omega
  | case3 cs _ => simp
  | case4 c cs _ _ r ih => simp only [length_cons]; change (scanString cs).2.length ≤ _; omega

theorem scanOperator_length {s rest : Text} (h : scanOperator c cs = some (s,rest)) :
    rest.length ≤ cs.length := by
  unfold scanOperator at h
  split_ifs at h <;> cases h <;> simp

theorem nextToken_length {rest : Text} (h : nextToken u c cs = .ok (t,rest)) :
    rest.length ≤ cs.length := by
  unfold nextToken at h
  split_ifs at h
  · cases h; rfl
  · cases h; rfl
  · cases h; rfl
  · cases h; rfl
  · cases h; exact scanString_length cs
  · split at h <;> cases h
    · exact scanOperator_length (by assumption)
    · exact length_dropWhile_le _ _
  · split at h <;> cases h
    exact scanOperator_length (by assumption)

theorem tokenizeFrom_eq_tokenize (h : cs.length < n) : tokenizeFrom u n cs = tokenize u cs := by
  suffices H : ∀ n m (cs : Text), cs.length < n → cs.length < m →
      tokenizeFrom u n cs = tokenizeFrom u m cs from H _ _ _ h (by omega)
  intro n
  induction n with
  | zero => intro m cs h _; omega
  | succ n ih =>
    intro m cs hn hm
    obtain ⟨m,rfl⟩ : ∃ k, m = k+1 := ⟨m-1,by omega⟩
    cases cs with
    | nil => rfl
    | cons c cs =>
      simp only [tokenizeFrom]
      cases hr : nextToken u c cs with
      | error e => rfl
      | ok r =>
        have hl := nextToken_length hr
        simp only [length_cons] at hn hm
        simp [ih m r.2 (by omega) (by omega)]

@[simp] theorem tokenize_nil : tokenize u [] = .ok [] := rfl

theorem tokenize_cons (c : Char) (cs : Text) : tokenize u (c::cs) = do
      let r ← nextToken u c cs
      let ts ← tokenize u r.2
      return r.1.toList++ts := by
  conv_lhs => rw [tokenize,length_cons,tokenizeFrom]
  cases hr : nextToken u c cs with
  | error e => rfl
  | ok r => simp only [ok_bind,tokenizeFrom_eq_tokenize (Nat.lt_succ_of_le (nextToken_length hr))]

abbrev Parsed := Except PredicateError (FilterExpr × List Token)

/-- The values of an `IN` list; the comma between two is optional, as in the source. -/
def parseInList : List Token → Except PredicateError (List Text × List Token)
  | [] => .error .unexpectedEndOfInList
  | .rparen::ts => .ok ([],ts)
  | .stringLit s::.comma::ts => (parseInList ts).map fun r => (s::r.1,r.2)
  | .stringLit s::ts => (parseInList ts).map fun r => (s::r.1,r.2)
  | .ident s::.comma::ts => (parseInList ts).map fun r => (s::r.1,r.2)
  | .ident s::ts => (parseInList ts).map fun r => (s::r.1,r.2)
  | t::_ => .error (.expectedValueInList t)

def cmpOp (s : Text) : Except PredicateError CmpOp :=
  if s = "=".toList then .ok .eq
  else if s = "!=".toList then .ok .ne
  else if s = ">".toList then .ok .gt
  else if s = "<".toList then .ok .lt
  else if s = ">=".toList then .ok .ge
  else if s = "<=".toList then .ok .le
  else .error (.unsupportedOperator s)

def parseIsNull (column : Text) : List Token → Parsed
  | .not::.null::ts => .ok (.isNull column true,ts)
  | .null::ts => .ok (.isNull column false,ts)
  | _ => .error (.expectedNullAfterIs column)

def parseValue (column : Text) (op : CmpOp) : List Token → Parsed
  | [] => .error (.expectedValueAfterOperator column)
  | .stringLit s::ts => .ok (.comparison column op s,ts)
  | .ident s::ts => .ok (.comparison column op s,ts)
  | t::_ => .error (.expectedValue t)

/-- What may follow a column name: `IS [NOT] NULL`, `IN (..)` or a comparison. -/
def parseComparison (column : Text) : List Token → Parsed
  | [] => .error (.expectedOperatorAfter column)
  | .is::ts => parseIsNull column ts
  | .in::.lparen::ts => (parseInList ts).map fun r => (.inList column r.1,r.2)
  | .in::_ => .error .expectedParenAfterIn
  | .op s::ts => do
    let op ← cmpOp s
    parseValue column op ts
  | t::_ => .error (.expectedOperator t)

def closeParen (inner : FilterExpr × List Token) : Parsed :=
  match inner.2 with
  | .rparen::rest => .ok (inner.1,rest)
  | _ => .error .missingClosingParenthesis

mutual

def parseOr : ℕ → List Token → Parsed
  | 0, _ => .error .outOfFuel
  | n+1, ts => do
    let left ← parseAnd n ts
    orLoop n left.1 left.2

/-- The `while tokens[pos] == Or` loop of `parse_or`. -/
def orLoop : ℕ → FilterExpr → List Token → Parsed
  | 0, _, _ => .error .outOfFuel
  | n+1, left, ts => match ts with
    | .or::ts => do
      let right ← parseAnd n ts
      orLoop n (.or left right.1) right.2
    | _ => .ok (left,ts)

def parseAnd : ℕ → List Token → Parsed
  | 0, _ => .error .outOfFuel
  | n+1, ts => do
    let left ← parseAtom n ts
    andLoop n left.1 left.2

/-- The `while tokens[pos] == And` loop of `parse_and`. -/
def andLoop : ℕ → FilterExpr → List Token → Parsed
  | 0, _, _ => .error .outOfFuel
  | n+1, left, ts => match ts with
    | .and::ts => do
      let right ← parseAtom n ts
      andLoop n (.and left right.1) right.2
    | _ => .ok (left,ts)

def parseAtom : ℕ → List Token → Parsed
  | 0, _ => .error .outOfFuel
  | n+1, ts => match ts with
    | [] => .error .unexpectedEnd
    | .lparen::ts => do
      let inner ← parseOr n ts
      closeParen inner
    | .not::ts => (parseAtom n ts).map fun r => (.not r.1,r.2)
    | .ident column::ts => parseComparison column ts
    | t::_ => .error (.expectedColumnName t)
end

/-- Rounds that suffice: each token takes the parser through three levels at most. -/
def parserFuel (ts : List Token) : ℕ := 3*ts.length+3

def parseFilterExpr (u : Unicode) (input : Text) : Except PredicateError FilterExpr := do
  let tokens ← tokenize u input
  let r ← parseOr (parserFuel tokens) tokens
  match r.2 with
  | [] => .ok r.1
  | t::rest => .error (.unexpectedToken (tokens.length-(rest.length+1)) t)

theorem parseInList_length (h : parseInList ts = .ok (vs,rest)) : rest.length < ts.length := by
  induction ts using parseInList.induct generalizing vs rest with
  | case1 => simp [parseInList] at h
  | case2 ts => simp [parseInList] at h; simp [h]
  | case3 s ts ih | case4 s ts _ ih | case5 s ts ih | case6 s ts _ ih =>
    simp only [parseInList,map_eq_ok,Prod.exists] at h
    obtain ⟨vs,rest,h,_,rfl⟩ := h
    have := ih h
    simp only [length_cons]
    omega
  | case7 t ts => simp_all [parseInList]

theorem parseIsNull_length (h : parseIsNull column ts = .ok (e,rest)) : rest.length < ts.length := by
  unfold parseIsNull at h
  split at h <;> cases h <;> simp

theorem parseValue_length (h : parseValue column op ts = .ok (e,rest)) : rest.length < ts.length := by
  unfold parseValue at h
  split at h <;> cases h <;> simp

theorem parseComparison_length (h : parseComparison column ts = .ok (e,rest)) :
    rest.length < ts.length := by
  unfold parseComparison at h
  split at h
  · cases h
  · have := parseIsNull_length h
    simp; omega
  · simp only [map_eq_ok,Prod.exists] at h
    obtain ⟨vs,rest,h,_,rfl⟩ := h
    have := parseInList_length h
    simp; omega
  · cases h
  · obtain ⟨op,_,h⟩ := bind_eq_ok.mp h
    have := parseValue_length h
    simp; omega
  · cases h

theorem orLoop_succ (n : ℕ) (left : FilterExpr) (ts : List Token) :
    orLoop (n+1) left ts = match ts with
      | .or::ts => parseAnd n ts >>= fun right => orLoop n (.or left right.1) right.2
      | _ => .ok (left,ts) := by
  rw [orLoop.eq_def]

theorem andLoop_succ (n : ℕ) (left : FilterExpr) (ts : List Token) :
    andLoop (n+1) left ts = match ts with
      | .and::ts => parseAtom n ts >>= fun right => andLoop n (.and left right.1) right.2
      | _ => .ok (left,ts) := by
  rw [andLoop.eq_def]

theorem parseAtom_succ (n : ℕ) (ts : List Token) :
    parseAtom (n+1) ts = match ts with
      | [] => .error .unexpectedEnd
      | .lparen::ts => parseOr n ts >>= closeParen
      | .not::ts => (parseAtom n ts).map fun r => (.not r.1,r.2)
      | .ident column::ts => parseComparison column ts
      | t::_ => .error (.expectedColumnName t) := by
  rw [parseAtom.eq_def]

theorem closeParen_eq_ok {inner r : FilterExpr × List Token} :
    closeParen inner = .ok r ↔ inner.2 = .rparen::r.2 ∧ inner.1 = r.1 := by
  unfold closeParen
  split
  next rest h => rw [h,Except.ok.injEq,List.cons.injEq,Prod.ext_iff]; tauto
  next h => simpa using fun h' => (h _ h').elim

/-- Every level of the parser consumes a token; its loops may consume none. -/
structure Consumes (n : ℕ) : Prop where
  parseOr : ∀ {ts e rest}, parseOr n ts = .ok (e,rest) → rest.length < ts.length
  orLoop : ∀ {l ts e rest}, orLoop n l ts = .ok (e,rest) → rest.length ≤ ts.length
  parseAnd : ∀ {ts e rest}, parseAnd n ts = .ok (e,rest) → rest.length < ts.length
  andLoop : ∀ {l ts e rest}, andLoop n l ts = .ok (e,rest) → rest.length ≤ ts.length
  parseAtom : ∀ {ts e rest}, parseAtom n ts = .ok (e,rest) → rest.length < ts.length

theorem consumes (n : ℕ) : Consumes n := by
  induction n with
  | zero => constructor <;> simp [parseOr,orLoop,parseAnd,andLoop,
      parseAtom]
  | succ n ih =>
    refine ⟨?_,?_,?_,?_,?_⟩
    · intro ts e rest h
      obtain ⟨r,hr,h⟩ := bind_eq_ok.mp (by simpa only [parseOr] using h)
      exact (ih.orLoop h).trans_lt (ih.parseAnd hr)
    · intro l ts e rest h
      rw [orLoop_succ] at h
      split at h
      · obtain ⟨r,hr,h⟩ := bind_eq_ok.mp h
        have h1 := ih.parseAnd hr
        have h2 := ih.orLoop h
        simp; omega
      · cases h; rfl
    · intro ts e rest h
      obtain ⟨r,hr,h⟩ := bind_eq_ok.mp (by simpa only [parseAnd] using h)
      exact (ih.andLoop h).trans_lt (ih.parseAtom hr)
    · intro l ts e rest h
      rw [andLoop_succ] at h
      split at h
      · obtain ⟨r,hr,h⟩ := bind_eq_ok.mp h
        have h1 := ih.parseAtom hr
        have h2 := ih.andLoop h
        simp; omega
      · cases h; rfl
    · intro ts e rest h
      rw [parseAtom_succ] at h
      split at h
      · cases h
      · obtain ⟨r,hr,h⟩ := bind_eq_ok.mp h
        have hl := ih.parseOr hr
        rw [(closeParen_eq_ok.mp h).1] at hl
        simp only [length_cons] at hl ⊢; omega
      · obtain ⟨r,hr,h⟩ := map_eq_ok.mp h
        cases h
        exact (ih.parseAtom hr).trans (Nat.lt_succ_self _)
      · exact (parseComparison_length h).trans (Nat.lt_succ_self _)
      · cases h

/-- Two fuels that suffice for the tokens give the same result, at each level. -/
structure FuelAgrees (n : ℕ) : Prop where
  parseOr : ∀ {m ts}, 3*ts.length+3 ≤ n → 3*ts.length+3 ≤ m →
    parseOr n ts = parseOr m ts
  orLoop : ∀ {m l ts}, 3*ts.length+3 ≤ n → 3*ts.length+3 ≤ m →
    orLoop n l ts = orLoop m l ts
  parseAnd : ∀ {m ts}, 3*ts.length+2 ≤ n → 3*ts.length+2 ≤ m →
    parseAnd n ts = parseAnd m ts
  andLoop : ∀ {m l ts}, 3*ts.length+2 ≤ n → 3*ts.length+2 ≤ m →
    andLoop n l ts = andLoop m l ts
  parseAtom : ∀ {m ts}, 3*ts.length+1 ≤ n → 3*ts.length+1 ≤ m →
    parseAtom n ts = parseAtom m ts

theorem bind_congr_ok {α β : Type} {x y : Except PredicateError α}
    {f g : α → Except PredicateError β} (hxy : x = y) (h : ∀ a, x = .ok a → f a = g a) :
    (x >>= f) = (y >>= g) := by
  subst hxy
  cases hx : x with
  | error e => rfl
  | ok a => exact h a hx

theorem fuelAgrees (n : ℕ) : FuelAgrees n := by
  induction n with
  | zero => constructor <;> intros <;> omega
  | succ n ih =>
    refine ⟨?_,?_,?_,?_,?_⟩
    all_goals
      intro m
      cases m with
      | zero => intros; omega
      | succ m => ?_
    · intro ts hn hm
      refine bind_congr_ok (ih.parseAnd (by omega) (by omega)) fun r hr => ?_
      have := (consumes n).parseAnd hr
      exact ih.orLoop (by omega) (by omega)
    · intro l ts hn hm
      rw [orLoop_succ,orLoop_succ]
      split
      · simp only [length_cons] at hn hm
        refine bind_congr_ok (ih.parseAnd (by omega) (by omega)) fun r hr => ?_
        have := (consumes n).parseAnd hr
        exact ih.orLoop (by omega) (by omega)
      · rfl
    · intro ts hn hm
      refine bind_congr_ok (ih.parseAtom (by omega) (by omega)) fun r hr => ?_
      have := (consumes n).parseAtom hr
      exact ih.andLoop (by omega) (by omega)
    · intro l ts hn hm
      rw [andLoop_succ,andLoop_succ]
      split
      · simp only [length_cons] at hn hm
        refine bind_congr_ok (ih.parseAtom (by omega) (by omega)) fun r hr => ?_
        have := (consumes n).parseAtom hr
        exact ih.andLoop (by omega) (by omega)
      · rfl
    · intro ts hn hm
      rw [parseAtom_succ,parseAtom_succ]
      split
      · rfl
      · simp only [length_cons] at hn hm
        exact bind_congr_ok (ih.parseOr (by omega) (by omega)) fun r hr => rfl
      · simp only [length_cons] at hn hm
        rw [ih.parseAtom (m := m) (by omega) (by omega)]
      · rfl
      · rfl

theorem parseFilterExpr_eq_ok {u : Unicode} : parseFilterExpr u input = .ok e ↔
      ∃ ts, tokenize u input = .ok ts ∧ parseOr (parserFuel ts) ts = .ok (e,[]) := by
  rw [parseFilterExpr,bind_eq_ok]
  refine exists_congr fun ts => and_congr_right fun _ => ?_
  rw [bind_eq_ok]
  constructor
  · rintro ⟨⟨e',rest⟩,hr,h⟩
    cases rest with
    | nil => cases h; exact hr
    | cons t rest => cases h
  · exact fun hr => ⟨_,hr,rfl⟩
end Hirn.FilterLang
