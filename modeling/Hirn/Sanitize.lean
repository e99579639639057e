import Hirn.Deletions
import Hirn.FilterParser

/-! The sanitizer of text that goes into a prompt, and the detector of what it is to remove. Both
see a text through the lowercased confusables skeleton of its characters, of which one may
expand to several or to none. Offsets count characters, but for those of a finding. -/
namespace Hirn.Sanitize
open Deletions FilterLang

def isGraphic (c : Char) : Bool := decide (33 ≤ c.toNat) && decide (c.toNat ≤ 126)

/-- The tables of `char::to_lowercase` and of the skeleton. -/
structure Tables where
  (toLowercase skeleton : Char → Text)

/-- Tables that change no letter, digit or punctuation of ASCII but for its case. -/
structure Confusables extends Tables where
  toLowercase_ascii : ∀ c : Char, c.toNat < 128 → toLowercase c = [c.toLower]
  skeleton_graphic : ∀ c, isGraphic c = true → skeleton c = [c]

instance : Coe Confusables Tables := ⟨Confusables.toTables⟩

def chatTemplateTokens : List Text :=
  ["<|im_start|>".toList,"<|im_end|>".toList,"<|system|>".toList,"<|user|>".toList,
  "<|assistant|>".toList,
    "[INST]".toList,"[/INST]".toList,"<<SYS>>".toList,"<</SYS>>".toList]

def injectionPatterns : List Text :=
  ["ignore previous instructions".toList,"ignore all previous instructions".toList,
  "ignore the above".toList,
    "disregard previous instructions".toList,"disregard all previous".toList,"you are now".toList,
    "pretend you are".toList,"act as if you are".toList,"from now on you".toList,
    "new instructions:".toList,"override:".toList,"jailbreak".toList]

/-- `str::find`. -/
def find (pattern : Text) : Text → Option ℕ
  | [] => if pattern = [] then some 0 else none
  | c::text => if pattern.isPrefixOf (c::text) then some 0 else (find pattern text).map (· + 1)

/-- Where the pattern stands from `start` on, each behind the last find. -/
def findAll (pattern text : Text) : ℕ → ℕ → List ℕ
  | 0,_ => []
  | fuel+1,start =>
    match find pattern (text.drop start) with
    | none => []
    | some rel => (start+rel)::findAll pattern text fuel (start+rel+pattern.length)

def trimStart (s : Text) : Text := s.dropWhile isWhitespace
def trim (s : Text) : Text := (trimStart s).rdropWhile isWhitespace

/-- `str::split_inclusive` at line feeds. -/
def splitInclusive : Text → List Text
  | [] => []
  | c::text =>
    if c = '\n' then [c]::splitInclusive text
    else
      match splitInclusive text with
      | [] => [[c]]
      | line::lines => (c::line)::lines

/-- A line without its line feed and the carriage return in front of that. -/
def lineOf (raw : Text) : Text :=
  if raw.getLast? = some '\n' then
    if raw.dropLast.getLast? = some '\r' then raw.dropLast.dropLast else raw.dropLast
  else raw

/-- `str::lines`. -/
def lines (text : Text) : List Text := (splitInclusive text).map lineOf

variable (u : Tables)

def detectionChars (c : Char) : Text :=
  (u.toLowercase c).flatMap fun lowered => (u.skeleton lowered).flatMap u.toLowercase

def normalizeForDetection (s : Text) : Text := s.flatMap (detectionChars u)

def detectionCharCount (c : Char) : ℕ :=
  ((u.toLowercase c).map fun lowered => ((u.skeleton lowered).flatMap u.toLowercase).length).sum

structure DetectionMap where
  normalized : Text
  checkpoints : List (ℕ × ℕ)

/-- An offset in the normalized text and in the original, at each border of characters. -/
def DetectionMap.build (original : Text) : DetectionMap :=
  original.zipIdx.foldl (fun m oc =>
    let normalized := m.normalized++detectionChars u oc.1
    ⟨normalized,m.checkpoints++[(normalized.length,oc.2+1)]⟩) ⟨[],[(0,0)]⟩

inductive Searched
  | ok (i : ℕ)
  | err (i : ℕ)

/-- `binary_search` in a sorted list: any index of the key, or where it would go. -/
structure BinarySearch where
  search : List ℕ → ℕ → Searched
  found : ∀ keys key i, keys.Pairwise (· ≤ ·) → search keys key = .ok i → keys[i]? = some key
  missed : ∀ keys key i, keys.Pairwise (· ≤ ·) → search keys key = .err i → i ≤ keys.length ∧
    ∀ j x, keys[j]? = some x → (j < i → x < key) ∧ (i ≤ j → key < x)

variable (bs : BinarySearch)

def DetectionMap.toOriginal (m : DetectionMap) (normStart normEnd : ℕ) : ℕ × ℕ :=
  let keys := m.checkpoints.map Prod.fst
  let start :=
    match bs.search keys normStart with
    | .ok i => (m.checkpoints.getD i (0,0)).2
    | .err i => (m.checkpoints.getD (i-1) (0,0)).2
  let stop :=
    match bs.search keys normEnd with
    | .ok i => (m.checkpoints.getD i (0,0)).2
    | .err i => (m.checkpoints.getD i (m.checkpoints.getLastD (0,0))).2
  (start,stop)

def overlapping (r r' : ℕ × ℕ) : Bool := decide (r.1 < r'.2) && decide (r'.1 < r.2)

def findUnclearedFrom (normalized pattern : Text) (cleared : List (ℕ × ℕ)) : ℕ → ℕ → Option (ℕ × ℕ)
  | 0,_ => none
  | fuel+1,start =>
    match find pattern (normalized.drop start) with
    | none => none
    | some rel =>
      let range := (start+rel,start+rel+pattern.length)
      match cleared.find? (overlapping range) with
      | some r => findUnclearedFrom normalized pattern cleared fuel r.2
      | none => some range

def findUncleared (normalized pattern : Text) (cleared : List (ℕ × ℕ)) : Option (ℕ × ℕ) :=
  findUnclearedFrom normalized pattern cleared (normalized.length+1) 0

def clearLoop (normalized : Text) : ℕ → List (ℕ × ℕ) → List (ℕ × ℕ)
  | 0,cleared => cleared
  | fuel+1,cleared =>
    match injectionPatterns.findSome? fun pattern => findUncleared normalized pattern cleared with
    | some range => clearLoop normalized fuel (cleared++[range])
    | none => cleared

/-- The ranges are disjoint, so there are no more rounds than characters. -/
def clearedRanges (normalized : Text) : List (ℕ × ℕ) := clearLoop normalized (normalized.length+1) []
def marker : Text := "[sanitized]".toList

/-- A range that begins before the last replaced one ends is passed over. -/
def assemble (line : Text) : ℕ → List (ℕ × ℕ) → Text
  | cursor,[] => line.drop cursor
  | cursor,r::ranges =>
    if r.1 < cursor then assemble line cursor ranges
    else (line.take r.1).drop cursor++marker++assemble line r.2 ranges

def rangeLe (r r' : ℕ × ℕ) : Prop := r.1 < r'.1 ∨ r.1 = r'.1 ∧ r.2 ≤ r'.2

instance : DecidableRel rangeLe := fun _ _ => inferInstanceAs (Decidable (_ ∨ _))

variable (line : Text)

def neutralizeInjectionPhrases : Text :=
  let m := DetectionMap.build u line
  let cleared := clearedRanges m.normalized
  if cleared = [] then line
  else
    let origRanges := (cleared.map fun r => m.toOriginal bs r.1 r.2).insertionSort rangeLe
    assemble line 0 origRanges

def startsSystem : Bool := decide ((line.take 7).map Char.toLower = "system:".toList)

def neutralizeSystemOverride : Text :=
  if startsSystem line then "[SYSTEM]".toList++line.drop 7 else line

def isPureDelimiter : Bool :=
  if line = [] then false
  else decide (3 ≤ (trim line).length) && (trim line).all fun c => c = '-' || c = '=' || c = '#' ||
    c = '*' || c = Char.ofNat 96

def contains (pattern line : Text) : Bool := (find pattern line).isSome

def stripChatTokens (line : Text) : Text :=
  if chatTemplateTokens.any (contains · line) then deleteEach chatTemplateTokens line else line

def sanitizeLine (line : Text) : Option Text :=
  let cleaned := trim (stripChatTokens (trim line))
  if isPureDelimiter cleaned then none
  else some (neutralizeInjectionPhrases u bs (neutralizeSystemOverride cleaned))

def sanitizeForLlm (input : Text) : Text :=
  (lines input).foldl (fun output line =>
    match sanitizeLine u bs line with
    | none => output
    | some cleaned => if output = [] then cleaned else output ++ '\n'::cleaned) []

inductive InjectionFindingKind
  | chatTemplateToken | systemOverride | injectionPhrase
  deriving DecidableEq

/-- Offsets of a finding are bytes of the input. -/
structure InjectionFinding where
  kind : InjectionFindingKind
  pattern : Text
  (start stop : ℕ)
  deriving DecidableEq

def utf8Len (s : Text) : ℕ := (s.map Char.utf8Size).sum

def charByteRangeFrom (normStart normEnd : ℕ) : Text → ℕ → ℕ → ℕ × ℕ → ℕ × ℕ
  | rest,origByte,norm,result =>
    let start := if norm = normStart then origByte else result.1
    if norm = normEnd then (start,origByte)
    else
      match rest with
      | [] => (start,result.2)
      | c::rest =>
        charByteRangeFrom normStart normEnd rest (origByte+c.utf8Size) (norm+detectionCharCount u c)
          (start,result.2)

def charByteRange (original : Text) (normStart normEnd : ℕ) : ℕ × ℕ :=
  charByteRangeFrom u normStart normEnd original 0 0 (0,utf8Len original)

variable (lineStart : ℕ)

def detectTokens : List InjectionFinding :=
  chatTemplateTokens.flatMap fun token => (findAll token line (line.length+1) 0).map fun i =>
    let start := lineStart+utf8Len (line.take i)
    ⟨.chatTemplateToken,token,start,start+utf8Len token⟩

def detectSystem : List InjectionFinding :=
  let trimmed := trimStart line
  let start := lineStart+(utf8Len line-utf8Len trimmed)
  if startsSystem trimmed then [⟨.systemOverride,"system:".toList,start,start+7⟩] else []

def detectPhrases : List InjectionFinding :=
  let normalized := normalizeForDetection u line
  injectionPatterns.flatMap fun pattern =>
  (findAll pattern normalized (normalized.length+1) 0).map fun i =>
    let range := charByteRange u line i (i+pattern.length)
    ⟨.injectionPhrase,pattern,lineStart+range.1,lineStart+range.2⟩

def detectLine : List InjectionFinding :=
  detectTokens line lineStart++detectSystem line lineStart++detectPhrases u line lineStart

def trimLineEnd (raw : Text) : Text := raw.rdropWhile fun c => c = '\n' || c = '\r'

def detectLines : ℕ → List Text → List InjectionFinding
  | _,[] => []
  | lineStart,raw::rest => detectLine u (trimLineEnd raw) lineStart++
      detectLines (lineStart+utf8Len raw) rest

def findingLe (f g : InjectionFinding) : Prop := rangeLe (f.start,f.stop) (g.start,g.stop)

instance : DecidableRel findingLe := fun f g =>
    inferInstanceAs (Decidable (rangeLe (f.start,f.stop) (g.start,g.stop)))

def detectInjection (input : Text) : List InjectionFinding :=
  (detectLines u 0 (splitInclusive input)).insertionSort findingLe
end Hirn.Sanitize
