import Mathlib

/-! Parsing expressions whose rules do not call each other in a circle. Between the parts of a
sequence that is not atomic some text is skipped. The result is a tree of the rules that matched,
in which the words of the grammar are kept. -/
namespace Hirn.Peg
open Option Prod

/-- In an atomic rule nothing is skipped; an atomic one also hides its parts. -/
inductive Kind
  | normal | compound | atomic
  deriving DecidableEq

inductive Expr (ρ : Type)
  | text (s : List Char)
  /-- A word in any case, given in lower case. -/
  | word (s : List Char)
  | char (p : Char → Bool)
  | stop
  | seq (a b : Expr ρ)
  | alt (a b : Expr ρ)
  | opt (a : Expr ρ)
  | star (a : Expr ρ)
  | rule (r : ρ) (kind : Kind) (body : Expr ρ)

inductive Item (ρ : Type)
  | word (s : List Char)
  | pair (r : ρ) (text : List Char) (inner : List (Item ρ))

structure Match (ρ : Type) where
  items : List (Item ρ)
  (text rest : List Char)

variable {ρ : Type}

def Item.asRule : Item ρ → Option ρ
  | .word _ => none
  | .pair r _ _ => some r

def Item.asStr : Item ρ → List Char
  | .word s => s
  | .pair _ text _ => text

def Item.intoInner : Item ρ → List (Item ρ)
  | .word _ => []
  | .pair _ _ inner => inner.filter (·.asRule.isSome)

def Item.words : Item ρ → List (List Char)
  | .word _ => []
  | .pair _ _ inner => inner.filterMap fun
      | .word s => some s
      | .pair _ _ _ => none

section
variable [DecidableEq ρ]

mutual

def Item.within (r : ρ) : Item ρ → List (Item ρ)
  | .word _ => []
  | .pair r' text inner => (if r' = r then [.pair r' text inner] else [])++withinAll r inner

def withinAll (r : ρ) : List (Item ρ) → List (Item ρ)
  | [] => []
  | p::ps => p.within r++withinAll r ps
end

def Item.children (r : ρ) (p : Item ρ) : List (Item ρ) := p.intoInner.filter (·.asRule = some r)
end

def Match.empty (input : List Char) : Match ρ := ⟨[],[],input⟩
def Match.append (m n : Match ρ) : Match ρ := ⟨m.items++n.items,m.text++n.text,n.rest⟩

def Match.behind (skipped : List Char) (m : Match ρ) : Match ρ := ⟨m.items,skipped++m.text,m.rest⟩

def Match.wrap (r : ρ) (kind : Kind) (m : Match ρ) : Match ρ :=
  ⟨[.pair r m.text (if kind = .atomic then [] else m.items)],m.text,m.rest⟩

/-- The text of a given form at the start of the input. -/
def literal (same : Char → Char → Bool) : List Char → List Char → Option (List Char × List Char)
  | [], input => some ([],input)
  | _::_, [] => none
  | p::ps, c::input =>
    if same p c then (literal same ps input).map fun (text,rest) => (c::text,rest) else none

def sameExact (p c : Char) : Bool := p == c
def sameFolded (p c : Char) : Bool := p == c.toLower

def many (f : List Char → Option (Match ρ)) : ℕ → List Char → Match ρ
  | 0, input => .empty input
  | n+1, input =>
    match f input with
    | none => .empty input
    | some m => if m.text = [] then .empty input else m.append (many f n m.rest)

abbrev Skip := List Char → List Char × List Char
def noSkip : Skip := fun input => ([],input)

def run : Skip → Expr ρ → List Char → Option (Match ρ)
  | _, .text s, input => (literal sameExact s input).map fun (text,rest) => ⟨[],text,rest⟩
  | _, .word s, input => (literal sameFolded s input).map fun (text,rest) => ⟨[.word s],text,rest⟩
  | _, .char _, [] => none
  | _, .char p, c::input => if p c then some ⟨[],[c],input⟩ else none
  | _, .stop, input => if input = [] then some (.empty []) else none
  | sk, .seq a b, input =>
    (run sk a input).bind fun m =>
      (run sk b (sk m.rest).2).map fun n => m.append (n.behind (sk m.rest).1)
  | sk, .alt a b, input =>
    match run sk a input with
    | some m => some m
    | none => run sk b input
  | sk, .opt a, input => some ((run sk a input).getD (.empty input))
  | sk, .star a, input =>
    match run sk a input with
    | none => some (.empty input)
    | some m =>
      some (if m.text = [] then .empty input
        else m.append (many (fun next => (run sk a (sk next).2).map (·.behind (sk next).1))
          m.rest.length m.rest))
  | sk, .rule r kind body, input =>
    (run (if kind = .normal then sk else noSkip) body input).map (·.wrap r kind)

def skipOf (whitespace comment : Expr ρ) : Skip := fun input =>
  match run noSkip (.seq (.star whitespace) (.star (.seq comment (.star whitespace)))) input with
  | some m => (m.text,m.rest)
  | none => ([],input)

def seqs : List (Expr ρ) → Expr ρ
  | [] => .text []
  | [a] => a
  | a::as => .seq a (seqs as)

def alts : List (Expr ρ) → Expr ρ
  | [] => .char fun _ => false
  | [a] => a
  | a::as => .alt a (alts as)

def plus (a : Expr ρ) : Expr ρ := .seq a (.star a)
def commaList (a : Expr ρ) : Expr ρ := .seq a (.star (.seq (.text [',']) a))
def kw (s : String) : Expr ρ := .word s.toList
def lit (s : String) : Expr ρ := .text s.toList
def words (ss : List String) : Expr ρ := alts (ss.map kw)
def normal (r : ρ) (body : Expr ρ) : Expr ρ := .rule r .normal body
def compound (r : ρ) (body : Expr ρ) : Expr ρ := .rule r .compound body
def atomic (r : ρ) (body : Expr ρ) : Expr ρ := .rule r .atomic body

/-- Any character but these: in a grammar the denial of each before any character. -/
def noneOf (cs : List Char) : Expr ρ := .char fun c => !cs.contains c
def asciiDigit : Expr ρ := .char Char.isDigit
def asciiAlpha : Expr ρ := .char Char.isAlpha
def asciiAlphanumeric : Expr ρ := .char Char.isAlphanum

theorem literal_some (h : literal same ps input = some (text,rest)) :
    input = text++rest ∧ List.Forall₂ (fun p c => same p c) ps text := by
  induction ps generalizing input text with
  | nil =>
    obtain ⟨rfl,rfl⟩ := h
    exact ⟨rfl,.nil⟩
  | cons p ps ih =>
    cases input with
    | nil => simp [literal] at h
    | cons c input =>
      simp only [literal,ite_none_right_eq_some,map_eq_some_iff,Prod.exists] at h
      obtain ⟨hc,text',rest',h',heq⟩ := h
      obtain ⟨rfl,rfl⟩ := mk.injEq .. ▸ heq
      obtain ⟨rfl,hall⟩ := ih h'
      exact ⟨rfl,.cons hc hall⟩

theorem literal_exact (h : literal sameExact s input = some (text,rest)) : text = s := by
  have hall := (literal_some h).2
  simp only [sameExact,beq_iff_eq,List.forall₂_eq_eq_eq] at hall
  exact hall.symm

theorem literal_folded (h : literal sameFolded s input = some (text,rest)) :
    text.map Char.toLower = s := by
  have hall := (literal_some h).2
  simp only [sameFolded,beq_iff_eq] at hall
  have hmap : List.Forall₂ Eq s (text.map Char.toLower) := List.forall₂_map_right_iff.2 hall
  exact (List.forall₂_eq_eq_eq ▸ hmap).symm

theorem literal_append (h : literal same ps input = some (text,rest)) (more : List Char) :
    literal same ps (input++more) = some (text,rest++more) := by
  induction ps generalizing input text with
  | nil =>
    simp only [literal,some.injEq,mk.injEq] at h ⊢
    obtain ⟨rfl,rfl⟩ := h
    exact ⟨rfl,rfl⟩
  | cons p ps ih =>
    cases input with
    | nil => simp [literal] at h
    | cons c input =>
      simp only [literal,ite_none_right_eq_some,map_eq_some_iff,Prod.exists] at h
      obtain ⟨hc,text',rest',h',heq⟩ := h
      obtain ⟨rfl,rfl⟩ := mk.injEq .. ▸ heq
      simp [literal,hc,ih h']

def Splits (sk : Skip) : Prop := ∀ input, input = (sk input).1++(sk input).2
theorem splits_noSkip : Splits noSkip := fun _ => rfl

theorem many_split {f : List Char → Option (Match ρ)} (hf : ∀ input m, f input = some m →
    input = m.text++m.rest)
    (n : ℕ) (input : List Char) : input = (many f n input).text++(many f n input).rest := by
  induction n generalizing input with
  | zero => rfl
  | succ n ih =>
    rw [many]
    cases hm : f input with
    | none => rfl
    | some m =>
      by_cases hempty : m.text = []
      · simp [hempty,Match.empty]
      · simp only [hempty,if_false,Match.append,List.append_assoc]
        rw [← ih m.rest]
        exact hf input m hm

theorem run_split {e : Expr ρ} {sk : Skip} (hsk : Splits sk) {m : Match ρ}
    (h : run sk e input = some m) : input = m.text++m.rest := by
  induction e generalizing sk input m with
  | text s | word s =>
    simp only [run,map_eq_some_iff,Prod.exists] at h
    obtain ⟨text,rest,h,rfl⟩ := h
    exact (literal_some h).1
  | char p =>
    cases input with
    | nil => simp [run] at h
    | cons c input =>
      simp only [run,ite_none_right_eq_some,some.injEq] at h
      obtain ⟨-,rfl⟩ := h
      rfl
  | stop =>
    simp only [run,ite_none_right_eq_some,some.injEq] at h
    obtain ⟨rfl,rfl⟩ := h
    rfl
  | seq a b iha ihb =>
    simp only [run,bind_eq_some_iff,map_eq_some_iff] at h
    obtain ⟨m₁,h₁,m₂,h₂,rfl⟩ := h
    simp only [Match.append,Match.behind,List.append_assoc]
    rw [← ihb hsk h₂,← hsk m₁.rest]
    exact iha hsk h₁
  | alt a b iha ihb =>
    rw [run] at h
    cases ha : run sk a input with
    | some m' => exact iha hsk (by rw [ha] at h; rwa [ha])
    | none => exact ihb hsk (by rwa [ha] at h)
  | opt a iha =>
    simp only [run,some.injEq] at h
    cases ha : run sk a input with
    | some m' =>
      rw [ha] at h
      exact iha hsk (h ▸ ha)
    | none =>
      rw [ha] at h
      exact h ▸ rfl
  | star a iha =>
    rw [run] at h
    cases ha : run sk a input with
    | none =>
      rw [ha] at h
      obtain rfl := some.inj h
      rfl
    | some m' =>
      rw [ha] at h
      obtain rfl := some.inj h
      by_cases hempty : m'.text = []
      · rw [if_pos hempty]
        rfl
      · rw [if_neg hempty]
        simp only [Match.append,List.append_assoc]
        rw [← many_split]
        · exact iha hsk ha
        · intro next m'' hnext
          obtain ⟨n,hn,rfl⟩ := map_eq_some_iff.1 hnext
          simp only [Match.behind,List.append_assoc]
          rw [← iha hsk hn,← hsk next]
  | rule r kind body ih =>
    simp only [run,map_eq_some_iff] at h
    obtain ⟨m',h',rfl⟩ := h
    show input = m'.text++m'.rest
    refine ih ?_ h'
    split
    · exact hsk
    · exact splits_noSkip

theorem splits_skipOf (whitespace comment : Expr ρ) : Splits (skipOf whitespace comment) := by
  intro input
  rw [skipOf]
  split
  · rename_i m hm
    exact run_split splits_noSkip hm
  · rfl
end Hirn.Peg
