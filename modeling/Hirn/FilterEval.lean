import Hirn.RecordBatch

/-! Evaluation of a parsed predicate in SQL's three-valued logic: batch by batch and
column by column as `eval_expr` does it, and row by row as it is reasoned about. -/
namespace Hirn.Storage
open FilterLang Fallible List
variable (u : Numerics)

/-- `array_value_to_string`: `none` for a NULL cell. -/
def arrayValueToString (dt : DataType) : Cell → Option Text
  | .null => none
  | .utf8 s => some s
  | .boolean b => some (if b then "true".toList else "false".toList)
  | .int i => some (toString i).toList
  | .float32 x => some (u.showF32 x)
  | .float64 x => some (u.showF64 x)
  | c => some (u.debug dt c)

/-- `str::cmp`: UTF-8 bytes and code points order texts the same way. -/
def cmpText : Text → Text → Ordering
  | [], [] => .eq
  | [], _::_ => .lt
  | _::_, [] => .gt
  | a::as, b::bs => (compare a.toNat b.toNat).then (cmpText as bs)

def cmpValues (a b : Text) (columnIsNumeric : Bool) : Ordering :=
  if columnIsNumeric then (u.cmpF64 a b).getD (cmpText a b) else cmpText a b

def opHolds : CmpOp → Ordering → Bool
  | .eq, o => o == .eq
  | .ne, o => o != .eq
  | .gt, o => o == .gt
  | .lt, o => o == .lt
  | .ge, o => o != .lt
  | .le, o => o != .gt

def kleeneAnd : Option Bool → Option Bool → Option Bool
  | some false, _ => some false
  | _, some false => some false
  | some true, some true => some true
  | _, _ => none

def kleeneOr : Option Bool → Option Bool → Option Bool
  | some true, _ => some true
  | _, some true => some true
  | some false, some false => some false
  | _, _ => none

@[simp] theorem kleeneAnd_eq_true : kleeneAnd a b = some true ↔ a = some true ∧ b = some true := by
  revert a b; decide

@[simp] theorem kleeneOr_eq_true : kleeneOr a b = some true ↔ a = some true ∨ b = some true := by
  revert a b; decide

/-- `column_for_expr`: the position of the column and its type. -/
def columnForExpr (S : Schema) (column : Text) : Except PredicateError (ℕ × DataType) :=
  match S.indexOf column with
  | none => .error (.columnNotInSchema column)
  | some i => .ok (i,(S.map (·.dataType)).getD i .utf8)

def comparisonCell (op : CmpOp) (value : Text) (dt : DataType) (c : Cell) : Option Bool :=
  (arrayValueToString u dt c).map fun cell => opHolds op (cmpValues u cell value dt.isNumeric)

def inListCell (values : List Text) (dt : DataType) (c : Cell) : Option Bool :=
  (arrayValueToString u dt c).map fun cell => values.contains cell

def evalExpr : FilterExpr → RecordBatch → Except PredicateError (List (Option Bool))
  | .comparison column op value, b => do
    let (i,dt) ← columnForExpr b.schema column
    return b.rows.map fun r => comparisonCell u op value dt (r.getD i .null)
  | .inList column values, b => do
    let (i,dt) ← columnForExpr b.schema column
    return b.rows.map fun r => inListCell u values dt (r.getD i .null)
  | .isNull column negated, b => do
    let (i,_) ← columnForExpr b.schema column
    return b.rows.map fun r => some ((r.getD i .null).isNull != negated)
  | .not inner, b => do
    let m ← evalExpr inner b
    return m.map fun v => v.map (!·)
  | .and lhs rhs, b => do
    let l ← evalExpr lhs b
    let r ← evalExpr rhs b
    return List.zipWith kleeneAnd l r
  | .or lhs rhs, b => do
    let l ← evalExpr lhs b
    let r ← evalExpr rhs b
    return List.zipWith kleeneOr l r

/-- `filter_record_batch`. -/
def RecordBatch.filterMask (b : RecordBatch) (mask : List Bool) : RecordBatch :=
  ⟨b.schema,((b.rows.zip mask).filter (·.2)).map (·.1),fun r hr => by
    obtain ⟨⟨r',m⟩,h,rfl⟩ := mem_map.mp hr
    exact b.wf _ (of_mem_zip (mem_of_mem_filter h)).1⟩

/-- The loop of `filter_batches_impl`; batches left without rows are dropped. -/
def filterLoop (e : FilterExpr) (invert : Bool) :
    List RecordBatch → Except StoreError (List RecordBatch)
  | [] => .ok []
  | b::bs => do
    let triMask ← (evalExpr u e b).mapError .invalidPredicate
    let filtered := b.filterMask (triMask.map fun v => (v == some true) != invert)
    let rest ← filterLoop e invert bs
    return if 0 < filtered.numRows then filtered::rest else rest

variable (u : Externals) (predicate : Text)

def parsePredicate : Except StoreError FilterExpr :=
  (parseFilterExpr u.toUnicode predicate).mapError .invalidPredicate

variable (batches : List RecordBatch)

def filterBatchesImpl (invert : Bool) : Except StoreError (List RecordBatch) := do
  let e ← parsePredicate u predicate
  filterLoop u.toNumerics e invert batches

def filterBatches : Except StoreError (List RecordBatch) :=
  filterBatchesImpl u predicate batches false

def filterBatchesInverted : Except StoreError (List RecordBatch) :=
  filterBatchesImpl u predicate batches true

/-- `evaluate_predicate_mask`: one flag for each row. -/
def evaluatePredicateMask (b : RecordBatch) : Except StoreError (List Bool) := do
  let e ← parsePredicate u predicate
  let triMask ← (evalExpr u.toNumerics e b).mapError .invalidPredicate
  return triMask.map (· == some true)

variable (u : Numerics)

def columnCell (S : Schema) (column : Text) (r : Row) : Cell :=
  ((S.indexOf column).map fun i => r.getD i .null).getD .null

def columnType (S : Schema) (column : Text) : DataType :=
  ((S.indexOf column).map fun i => (S.map (·.dataType)).getD i .utf8).getD .utf8

/-- The value of a predicate on one row, when all its columns are in the schema. -/
def evalRow (S : Schema) : FilterExpr → Row → Option Bool
  | .comparison column op value, r =>
    comparisonCell u op value (columnType S column) (columnCell S column r)
  | .inList column values, r => inListCell u values (columnType S column) (columnCell S column r)
  | .isNull column negated, r => some ((columnCell S column r).isNull != negated)
  | .not inner, r => (evalRow S inner r).map (!·)
  | .and lhs rhs, r => kleeneAnd (evalRow S lhs r) (evalRow S rhs r)
  | .or lhs rhs, r => kleeneOr (evalRow S lhs r) (evalRow S rhs r)

/-- The first column, in the order of evaluation, that the schema does not have. -/
def missingColumn (S : Schema) : FilterExpr → Option Text
  | .comparison column _ _ => if (S.indexOf column).isSome then none else some column
  | .inList column _ => if (S.indexOf column).isSome then none else some column
  | .isNull column _ => if (S.indexOf column).isSome then none else some column
  | .not inner => missingColumn S inner
  | .and lhs rhs => (missingColumn S lhs).or (missingColumn S rhs)
  | .or lhs rhs => (missingColumn S lhs).or (missingColumn S rhs)

variable {u}

theorem evalExpr_eq (e : FilterExpr) (b : RecordBatch) :
    evalExpr u e b = match missingColumn b.schema e with
      | some c => .error (.columnNotInSchema c)
      | none => .ok (b.rows.map (evalRow u b.schema e)) := by
  induction e with
  | comparison column op value | inList column values | isNull column negated =>
    rw [evalExpr]
    cases h : b.schema.indexOf column with
    | none => simp [columnForExpr,h,missingColumn]
    | some i => simp [columnForExpr,h,missingColumn,evalRow,columnCell,columnType]
  | not inner ih =>
    rw [evalExpr,ih,missingColumn]
    cases missingColumn b.schema inner with
    | some c => rfl
    | none => simp [evalRow]
  | and lhs rhs ihl ihr | or lhs rhs ihl ihr =>
    rw [evalExpr,ihl,ihr,missingColumn]
    cases missingColumn b.schema lhs with
    | some c => rfl
    | none =>
      cases missingColumn b.schema rhs with
      | some c => rfl
      | none => simp [evalRow,zipWith_map_left,zipWith_map_right]

theorem filterMask_rows (b : RecordBatch) (p : Row → Bool) :
    (b.filterMask (b.rows.map p)).rows = b.rows.filter p := by
  change (((b.rows.zip (b.rows.map p)).filter (·.2)).map (·.1)) = _
  induction b.rows with
  | nil => rfl
  | cons r rows ih => cases h : p r <;> simp_all

def keeps (u : Numerics) (S : Schema) (e : FilterExpr) (invert : Bool) (r : Row) : Bool :=
  (evalRow u S e r == some true) != invert

theorem filterLoop_ok (hm : missingColumn S e = none)
    (invert : Bool) (hD : Over S D) : ∃ bs, filterLoop u e invert D = .ok bs ∧
      Holds S bs ((allRows D).filter (keeps u S e invert)) := by
  induction D with
  | nil => exact ⟨[],rfl,Holds.nil S⟩
  | cons b D ih =>
    obtain ⟨bs,hbs,h⟩ := ih fun b' hb' => hD b' (by simp [hb'])
    have hb : b.schema = S := hD b (by simp)
    have heval : evalExpr u e b = .ok (b.rows.map (evalRow u S e)) := by
      rw [evalExpr_eq,hb,hm]
    set filtered := b.filterMask (b.rows.map (keeps u S e invert)) with hf
    have hstep : filterLoop u e invert (b::D) =
        .ok (if 0 < filtered.numRows then filtered::bs else bs) := by
      rw [filterLoop,heval,hbs]
      simp only [Except.mapError,ok_bind,map_map]
      rfl
    refine ⟨_,hstep,?_⟩
    rw [allRows_cons,filter_append,← filterMask_rows b]
    exact h.cons hb

theorem filterLoop_missing {c : Text} (hm : missingColumn S e = some c) (invert : Bool)
    (hD : Over S D) (hne : D ≠ []) :
    filterLoop u e invert D = .error (.invalidPredicate (.columnNotInSchema c)) := by
  obtain ⟨b,D,rfl⟩ := exists_cons_of_ne_nil hne
  rw [filterLoop,evalExpr_eq,hD b (by simp),hm]
  rfl
end Hirn.Storage
