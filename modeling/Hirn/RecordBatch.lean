import Hirn.FilterParser

/-! Arrow record batches, row by row. A batch carries the proof that its rows conform to
its schema, so the checks of `RecordBatch::try_new` are made once, where a batch is
built. Floating point and the Arrow kernels are parameters with the laws used. -/
namespace Hirn.Storage
open FilterLang Fallible List

inductive DataType
  | utf8 | boolean | int32 | int64 | uint32 | uint64 | float32 | float64
  | vector | multivector
  | other (name : Text) (numeric : Bool)
  deriving DecidableEq

def DataType.isNumeric : DataType → Bool
  | .int32 | .int64 | .uint32 | .uint64 | .float32 | .float64 => true
  | .other _ numeric => numeric
  | _ => false

/-- One slot of an Arrow array: floats as bits, other types as `Debug` text. -/
inductive Cell
  | null
  | utf8 (s : Text) | boolean (b : Bool) | int (i : ℤ)
  | float32 (x : BitVec 32) | float64 (x : BitVec 64)
  | vector (v : List (BitVec 32)) | multivector (vs : List (List (BitVec 32)))
  | other (debug : Text)
  deriving DecidableEq

def Cell.isNull : Cell → Bool
  | .null => true
  | _ => false

def Cell.hasType : Cell → DataType → Bool
  | .null, _ => true
  | .utf8 _, .utf8 => true
  | .boolean _, .boolean => true
  | .int i, .int32 => -2^31 ≤ i && i < 2^31
  | .int i, .int64 => -2^63 ≤ i && i < 2^63
  | .int i, .uint32 => 0 ≤ i && i < 2^32
  | .int i, .uint64 => 0 ≤ i && i < 2^64
  | .float32 _, .float32 => true
  | .float64 _, .float64 => true
  | .vector _, .vector => true
  | .multivector _, .multivector => true
  | .other _, .other _ _ => true
  | _, _ => false

theorem Cell.hasType_utf8 {c : Cell} (h : c.hasType .utf8) : c = .null ∨ ∃ s, c = .utf8 s := by
  cases c <;> simp_all [Cell.hasType]

structure Field where
  name : Text
  dataType : DataType
  nullable : Bool
  deriving DecidableEq

def Field.admits (f : Field) (c : Cell) : Bool := (f.nullable || !c.isNull) && c.hasType f.dataType
abbrev Schema := List Field
abbrev Row := List Cell

/-- `Schema::index_of`: the first field of that name. -/
def Schema.indexOf (S : Schema) (name : Text) : Option ℕ := S.findIdx? (·.name = name)

def Schema.conforms : Schema → Row → Bool
  | [], [] => true
  | f::S, c::r => f.admits c && Schema.conforms S r
  | _, _ => false

structure RecordBatch where
  schema : Schema
  rows : List Row
  wf : ∀ r ∈ rows, schema.conforms r = true

def RecordBatch.numRows (b : RecordBatch) : ℕ := b.rows.length

/-- What `HirnDbError` distinguishes; a kernel's panic comes before any write. -/
inductive StoreError
  | invalidPredicate (e : PredicateError)
  | invalidArgument (message : Text)
  | policyViolation (message : Text)
  | datasetNotFound (dataset : Text)
  | unsupported (message : Text)
  | arrow
  | panicked
  deriving DecidableEq

def RecordBatch.tryNew (S : Schema) (rows : List Row) : Except StoreError RecordBatch :=
  if h : ∀ r ∈ rows, S.conforms r = true then .ok ⟨S,rows,h⟩ else .error .arrow

def RecordBatch.filter (b : RecordBatch) (p : Row → Bool) : RecordBatch :=
  ⟨b.schema,b.rows.filter p,fun r hr => b.wf r (mem_of_mem_filter hr)⟩

/-- `slice`: `len` rows from row `start` on. -/
def RecordBatch.slice (b : RecordBatch) (start len : ℕ) : RecordBatch :=
  ⟨b.schema,(b.rows.drop start).take len,
    fun r hr => b.wf r (mem_of_mem_drop (mem_of_mem_take hr))⟩

/-- `arrow_select::concat::concat_batches` goes by position: the inputs' schemas are not looked at, and
columns behind the last field of `S` are dropped. -/
def concatBatches (S : Schema) (batches : List RecordBatch) : Except StoreError RecordBatch :=
  if batches.any fun b => b.schema.length < S.length then .error .panicked
  else if batches.any fun b => (b.schema.take S.length).map (·.dataType) ≠ S.map (·.dataType) then
    .error .arrow
  else RecordBatch.tryNew S (batches.flatMap fun b => b.rows.map (·.take S.length))

def totalRowCount (batches : List RecordBatch) : ℕ := (batches.map (·.numRows)).sum

def allRows (batches : List RecordBatch) : List Row := batches.flatMap (·.rows)
def Over (S : Schema) (batches : List RecordBatch) : Prop := ∀ b ∈ batches, b.schema = S

variable {S : Schema} {r : Row} {name : Text} {i : ℕ}

namespace Schema

theorem conforms_length (h : S.conforms r) : r.length = S.length := by
  induction S generalizing r with
  | nil => cases r <;> simp_all [conforms]
  | cons f S ih =>
    cases r with
    | nil => simp [conforms] at h
    | cons c r => simp only [conforms,Bool.and_eq_true] at h; simp [ih h.2]

theorem admits_of_conforms (h : S.conforms r) {f : Field} (hf : S[i]? = some f) :
    f.admits (r.getD i .null) := by
  induction S generalizing r i with
  | nil => simp at hf
  | cons g S ih =>
    cases r with
    | nil => simp [conforms] at h
    | cons c r =>
      simp only [conforms,Bool.and_eq_true] at h
      cases i with
      | zero => simpa using (by simpa using hf) ▸ h.1
      | succ i => simpa using ih h.2 (by simpa using hf)

theorem indexOf_lt (h : S.indexOf name = some i) : i < S.length := by
  obtain ⟨hi,_⟩ := findIdx?_eq_some_iff_getElem.mp h
  exact hi

theorem name_of_indexOf (h : S.indexOf name = some i) : ∃ f, S[i]? = some f ∧ f.name = name := by
  obtain ⟨hi,hn,_⟩ := findIdx?_eq_some_iff_getElem.mp h
  exact ⟨S[i],by simp,by simpa using hn⟩
end Schema
variable {batches : List RecordBatch}

theorem mem_allRows : r ∈ allRows batches ↔ ∃ b ∈ batches, r ∈ b.rows := by
  simp [allRows]

theorem conforms_of_mem_allRows (h : Over S batches) (hr : r ∈ allRows batches) : S.conforms r := by
  obtain ⟨b,hb,hr⟩ := mem_allRows.mp hr
  exact h b hb ▸ b.wf r hr

@[simp] theorem allRows_nil : allRows [] = [] := rfl

@[simp] theorem allRows_cons (b : RecordBatch) (bs : List RecordBatch) :
    allRows (b::bs) = b.rows++allRows bs := by simp [allRows]

/-- Batches over `S`, none of them empty, that hold exactly `rows`. -/
structure Holds (S : Schema) (batches : List RecordBatch) (rows : List Row) : Prop where
  schema_eq : Over S batches
  pos : ∀ b ∈ batches, 0 < b.numRows
  rows_eq : allRows batches = rows

theorem Holds.nil (S : Schema) : Holds S [] [] := ⟨by simp [Over],by simp,rfl⟩

variable {rows : List Row} {b : RecordBatch}

theorem Holds.cons (h : Holds S bs rows) (hb : b.schema = S) :
    Holds S (if 0 < b.numRows then b::bs else bs) (b.rows++rows) := by
  split
  next hpos =>
    refine ⟨?_,?_,by simp [h.rows_eq]⟩
    · exact fun b' hb' => (mem_cons.mp hb').elim (fun e => e ▸ hb) (h.schema_eq b')
    · exact fun b' hb' => (mem_cons.mp hb').elim (fun e => e ▸ hpos) (h.pos b')
  next hpos =>
    have hnil : b.rows = [] := length_eq_zero_iff.mp (Nat.eq_zero_of_not_pos hpos)
    simpa [hnil] using h

theorem Holds.eq_nil_iff (h : Holds S bs rows) : bs = [] ↔ rows = [] := by
  rw [← h.rows_eq]
  cases bs with
  | nil => simp
  | cons b bs =>
    have := h.pos b (by simp)
    have hne : b.rows ≠ [] := by
      intro h0
      simp [RecordBatch.numRows,h0] at this
    simp [hne]

theorem totalRowCount_eq (batches : List RecordBatch) :
    totalRowCount batches = (allRows batches).length := by
  simp [totalRowCount,allRows,RecordBatch.numRows]

theorem RecordBatch.tryNew_eq_ok : RecordBatch.tryNew S rows = .ok b ↔ b.schema = S ∧
    b.rows = rows := by
  unfold RecordBatch.tryNew
  split
  next h =>
    rw [Except.ok.injEq]
    refine ⟨?_,?_⟩
    · rintro rfl; exact ⟨rfl,rfl⟩
    · rintro ⟨rfl,rfl⟩; rfl
  next h =>
    simp only [reduceCtorEq,false_iff,not_and]
    rintro rfl rfl
    exact h b.wf

theorem RecordBatch.tryNew_of_conforms (h : ∀ r ∈ rows, S.conforms r) :
    RecordBatch.tryNew S rows = .ok ⟨S,rows,h⟩ :=
  dif_pos h

theorem concatBatches_of_over (h : Over S batches) : concatBatches S batches =
      .ok ⟨S,allRows batches,fun _ hr => conforms_of_mem_allRows h hr⟩ := by
  have h1 : (batches.any fun b => b.schema.length < S.length) = false := by
    simp only [any_eq_false,decide_eq_true_eq,not_lt]
    exact fun b hb => (h b hb).symm ▸ le_rfl
  have h2 : (batches.any fun b =>
      (b.schema.take S.length).map (·.dataType) ≠ S.map (·.dataType)) = false := by
    simp only [any_eq_false,decide_eq_true_eq,not_not]
    intro b hb
    rw [h b hb,take_length]
  have h3 : (batches.flatMap fun b => b.rows.map (·.take S.length)) = allRows batches := by
    refine flatMap_congr fun b hb => ?_
    rw [map_congr_left (g := id),map_id]
    intro r hr
    exact take_of_length_le (Schema.conforms_length (h b hb ▸ b.wf r hr)).le
  rw [concatBatches,h1,h2,h3]
  exact RecordBatch.tryNew_of_conforms _

/-- What filters and updates take from Rust's floats and `Debug`. -/
structure Numerics where
  /-- `a.parse::<f64>()` against `b.parse::<f64>()`, `none` if one fails. -/
  cmpF64 : Text → Text → Option Ordering
  showF32 : BitVec 32 → Text
  showF64 : BitVec 64 → Text
  parseF32 : Text → Option (BitVec 32)
  (addF32 mulF32 minF32 : BitVec 32 → BitVec 32 → BitVec 32)
  /-- `format!("{:?}", column.slice(row, 1))` -/
  debug : DataType → Cell → Text
  /-- What `Schema::index_of` says about a name that is none of these. -/
  indexOfError : List Text → Text → Text

inductive DistanceMetric
  | l2 | cosine | dotProduct

/-- The kernels of ordering and search. Sorting gives positions in their new order. -/
structure Kernels where
  lexsortToIndices : List (List Cell × Bool × Bool) → Option (List ℕ)
  sortScores : (descending : Bool) → List (BitVec 32) → List ℕ
  computeDistance : List (BitVec 32) → List (BitVec 32) → DistanceMetric → BitVec 32
  maxsimScore : List (List (BitVec 32)) → List (List (BitVec 32)) → BitVec 32
  /-- The values that a null slot of a vector column happens to hold. -/
  nullVector : List (BitVec 32)
  toLowercase : Text → Text
  /-- The `f32` sum of occurrence counts. -/
  sumCounts : List ℕ → BitVec 32
  isPositive : BitVec 32 → Bool
  lexsort_perm : ∀ columns n indices, columns ≠ [] → (∀ c ∈ columns, c.1.length = n) →
    lexsortToIndices columns = some indices → indices.Perm (List.range n)
  sortScores_perm : ∀ descending scores,
    (sortScores descending scores).Perm (List.range scores.length)

/-- Everything the storage layer takes from outside the crate. -/
structure Externals extends Unicode, Numerics, Kernels

theorem isAlphanum_not_whitespace (c : Char) (h : c.isAlphanum) : isWhitespace c = false := by
  have hn : c.toNat = c.val.toNat := rfl
  simp only [Char.isAlphanum,Char.isAlpha,Char.isUpper,Char.isLower,Char.isDigit,
    Bool.or_eq_true,Bool.and_eq_true,decide_eq_true_eq,UInt32.le_iff_toNat_le] at h
  simp only [isWhitespace,Bool.or_eq_false_iff,Bool.and_eq_false_iff,decide_eq_false_iff_not,
    beq_eq_false_iff_ne,ne_eq,hn]
  simp at h
  omega

/-- ASCII tables and idle kernels, enough to run the store on texts. -/
def asciiExternals : Externals where
  isAlphanumeric := Char.isAlphanum
  toUppercase c := [c.toUpper]
  ascii_alphanumeric _ _ := rfl
  ascii_uppercase _ _ := rfl
  alphanumeric_not_whitespace := isAlphanum_not_whitespace
  cmpF64 _ _ := none
  showF32 _ := []
  showF64 _ := []
  parseF32 _ := none
  addF32 a _ := a
  mulF32 a _ := a
  minF32 a _ := a
  debug _ c := match c with
    | .utf8 s => s
    | _ => []
  indexOfError _ name := name
  lexsortToIndices _ := none
  sortScores _ l := List.range l.length
  computeDistance _ _ _ := 0
  maxsimScore _ _ := 0
  nullVector := []
  toLowercase := id
  sumCounts _ := 0
  isPositive _ := true
  lexsort_perm _ _ _ _ _ h := by cases h
  sortScores_perm _ _ := .refl _
end Hirn.Storage
