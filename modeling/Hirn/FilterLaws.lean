import Hirn.FilterEval

/-! The laws of the filter language: lists as alternatives, De Morgan, and the two sides of
a filter. Membership compares spellings and equality compares numbers, so the first law
holds up to the spelling of numbers. -/
namespace Hirn.Storage
open FilterLang Fallible List
variable {u : Numerics} {b : RecordBatch} {p q e e' : FilterExpr} {column v : Text} {vs : List Text}
    {S : Schema} {r : Row}

/-- `column = v OR … OR column = vn`. -/
def eqAny (column v : Text) (vs : List Text) : FilterExpr :=
  vs.foldl (fun e w => .or e (.comparison column .eq w)) (.comparison column .eq v)

def cellText (u : Numerics) (S : Schema) (column : Text) (r : Row) : Option Text :=
  arrayValueToString u (columnType S column) (columnCell S column r)

structure FilterLaws (u : Numerics) (b : RecordBatch) (p q : FilterExpr) (column v : Text)
    (vs : List Text) : Prop where
  inList : filterLoop u (.inList column (v::vs)) false [b] = filterLoop u (eqAny column v vs) false [b]
  not_and : filterLoop u (.not (.and p q)) false [b] = filterLoop u (.or (.not p) (.not q)) false [b]
  not_or : filterLoop u (.not (.or p q)) false [b] = filterLoop u (.and (.not p) (.not q)) false [b]
  exclusive : ∀ m m', evalExpr u p b = .ok m → evalExpr u (.not p) b = .ok m' →
    ∀ i : ℕ, m[i]? = some (some true) → m'[i]? ≠ some (some true)
  sides : (∃ e, ∀ invert, filterLoop u p invert [b] = .error e) ∨ ∃ k : Row → Bool, ∀ invert, ∃ bs,
    filterLoop u p invert [b] = .ok bs ∧ allRows bs = b.rows.filter (k · != invert)

theorem cmpText_eq_eq (a b : Text) : cmpText a b = .eq ↔ a = b := by
  induction a generalizing b with
  | nil => cases b <;> simp [cmpText]
  | cons c a ih =>
    cases b with
    | nil => simp [cmpText]
    | cons d b => simp [cmpText,ih,Char.toNat_inj]

theorem kleeneOr_some (x y : Bool) : kleeneOr (some x) (some y) = some (x || y) := by
  revert x y; decide

theorem kleeneAnd_not (x y : Option Bool) :
    (kleeneAnd x y).map (!·) = kleeneOr (x.map (!·)) (y.map (!·)) := by
  revert x y; decide

theorem kleeneOr_not (x y : Option Bool) :
    (kleeneOr x y).map (!·) = kleeneAnd (x.map (!·)) (y.map (!·)) := by
  revert x y; decide

theorem filterLoop_congr (hm : missingColumn b.schema e = missingColumn b.schema e')
    (h : ∀ r ∈ b.rows, evalRow u b.schema e r = evalRow u b.schema e' r) :
    filterLoop u e false [b] = filterLoop u e' false [b] := by
  simp [filterLoop,evalExpr_eq,hm,map_congr_left h]

theorem evalRow_foldl {f : Text → Bool} (he : evalRow u S e r = (cellText u S column r).map f) :
    evalRow u S (vs.foldl (fun e w => .or e (.comparison column .eq w)) e) r =
    (cellText u S column r).map fun t =>
      f t || vs.any fun w => cmpValues u t w (columnType S column).isNumeric == .eq := by
  induction vs generalizing e f with
  | nil => simpa using he
  | cons w vs ih =>
    rw [foldl_cons,ih (f := fun t => f t || cmpValues u t w (columnType S column).isNumeric == .eq)]
    · simp [Bool.or_assoc]
    · rw [evalRow,he,evalRow,comparisonCell,← cellText]
      cases cellText u S column r with
      | none => rfl
      | some t => exact kleeneOr_some _ _

theorem evalRow_eqAny : evalRow u S (eqAny column v vs) r = (cellText u S column r).map fun t =>
      (v::vs).any fun w => cmpValues u t w (columnType S column).isNumeric == .eq :=
  evalRow_foldl rfl

theorem missingColumn_eqAny : missingColumn S (eqAny column v vs) = missingColumn S
    (.inList column (v::vs)) := by
  suffices h : ∀ e, missingColumn S e = missingColumn S (.inList column []) →
      missingColumn S (vs.foldl (fun e w => .or e (.comparison column .eq w)) e) =
        missingColumn S (.inList column []) from h _ rfl
  intro e he
  induction vs generalizing e with
  | nil => exact he
  | cons w vs ih =>
    refine ih _ ?_
    simp [missingColumn,he]

/-- A listed number that equals a cell is listed in the cell's spelling. -/
def Spelled (u : Numerics) (b : RecordBatch) (column : Text) (values : List Text) : Prop :=
  (columnType b.schema column).isNumeric = true → ∀ r ∈ b.rows, ∀ t,
  cellText u b.schema column r = some t →
    ∀ w ∈ values, u.cmpF64 t w = some .eq → t ∈ values

section
variable (hu : ∀ t, (u.cmpF64 t t).getD .eq = .eq)
include hu

theorem cmpValues_self (t : Text) (numeric : Bool) : cmpValues u t t numeric = .eq := by
  have ht := hu t
  have hself : cmpText t t = .eq := (cmpText_eq_eq t t).mpr rfl
  cases numeric <;> cases h : u.cmpF64 t t <;> simp_all [cmpValues]

theorem evalRow_inList (h : Spelled u b column (v::vs)) (hr : r ∈ b.rows) :
    evalRow u b.schema (.inList column (v::vs)) r = evalRow u b.schema (eqAny column v vs) r := by
  rw [evalRow_eqAny,evalRow,inListCell,← cellText]
  cases ht : cellText u b.schema column r with
  | none => rfl
  | some t =>
    refine congrArg some (Bool.eq_iff_iff.mpr ⟨fun hmem => ?_,fun hany => ?_⟩)
    · exact any_eq_true.mpr ⟨t,by simpa using hmem,by simp [cmpValues_self hu]⟩
    · obtain ⟨w,hw,heq⟩ := any_eq_true.mp hany
      suffices hmem : t ∈ v::vs by simpa using hmem
      by_cases hcmp : (columnType b.schema column).isNumeric ∧ u.cmpF64 t w = some .eq
      · exact h hcmp.1 r hr t ht w hw hcmp.2
      · have htext : cmpText t w = .eq := by
          cases hnum : (columnType b.schema column).isNumeric <;> cases ho : u.cmpF64 t w <;>
            simp_all [cmpValues]
        exact (cmpText_eq_eq t w).mp htext ▸ hw
end

theorem filterLoop_single (hm : missingColumn b.schema e = none) (invert : Bool) : ∃ bs,
    filterLoop u e invert [b] = .ok bs ∧ allRows bs = b.rows.filter (keeps u b.schema e invert) := by
  obtain ⟨bs,hbs,h⟩ := filterLoop_ok (u := u) hm invert (D := [b]) (by simp [Over])
  exact ⟨bs,hbs,by simpa using h.rows_eq⟩

theorem spelled_of_inList
    (h : filterLoop u (.inList column (v::vs)) false [b] = filterLoop u (eqAny column v vs) false
    [b]) : Spelled u b column (v::vs) := by
  intro hnum r hr t ht w hw heq
  have hany : evalRow u b.schema (eqAny column v vs) r = some true := by
    rw [evalRow_eqAny,ht]
    exact congrArg some (any_eq_true.mpr ⟨w,hw,by simp [cmpValues,hnum,heq]⟩)
  have hm : missingColumn b.schema (.inList column (v::vs)) = none := by
    cases hi : b.schema.indexOf column <;> simp_all [missingColumn,columnType,DataType.isNumeric]
  obtain ⟨bs,hbs,hrows⟩ := filterLoop_single (u := u) hm false
  obtain ⟨bs',hbs',hrows'⟩ := filterLoop_single (u := u) (missingColumn_eqAny.trans hm) false
  obtain rfl : bs = bs' := by simpa [hbs,hbs'] using h
  have hmem : r ∈ b.rows.filter (keeps u b.schema (eqAny column v vs) false) :=
    mem_filter.mpr ⟨hr,by simp [keeps,hany]⟩
  rw [← hrows',hrows,mem_filter] at hmem
  rw [cellText] at ht
  simpa [keeps,evalRow,inListCell,ht] using hmem.2

/-- The laws hold exactly when listed numbers are spelled as in the column. -/
theorem filterLaws_iff {u : Numerics} {b : RecordBatch} {p q : FilterExpr} {column v : Text}
    {vs : List Text} (hu : ∀ t, (u.cmpF64 t t).getD .eq = .eq) :
    FilterLaws u b p q column v vs ↔ Spelled u b column (v::vs) := by
  refine ⟨fun h => spelled_of_inList h.inList,fun h => ⟨?_,?_,?_,?_,?_⟩⟩
  · exact filterLoop_congr missingColumn_eqAny.symm fun r hr => evalRow_inList hu h hr
  · exact filterLoop_congr (by rfl) fun r _ => kleeneAnd_not _ _
  · exact filterLoop_congr (by rfl) fun r _ => kleeneOr_not _ _
  · intro m m' hm hm' i hi
    rw [evalExpr,hm] at hm'
    obtain rfl : m.map (fun v => v.map (!·)) = m' := by simpa using hm'
    simp [hi]
  · cases hm : missingColumn b.schema p with
    | some c => exact .inl ⟨_,fun invert => filterLoop_missing hm invert (by simp [Over]) (by simp)⟩
    | none => exact .inr ⟨_,fun invert => filterLoop_single hm invert⟩

def decimals (s t : Text) : Option Ordering :=
  let whole := fun t : Text => (t.filter (· ≠ '.')).foldl (fun n c => 10*n+(c.toNat-48)) 0
  let places := fun t : Text => ((t.dropWhile (· ≠ '.')).drop 1).length
  if (s++t).all fun c => c.isDigit || c = '.' then
    some (compare (whole s*10^places t) (whole t*10^places s))
  else none

def decimalExternals : Externals := {asciiExternals with cmpF64 := decimals}
def oneBatch : RecordBatch := ⟨[⟨"n".toList,.int64,true⟩],[[.int 1],[.null]],by decide⟩

theorem filterLaws_one : FilterLaws decimalExternals.toNumerics oneBatch (.isNull "n".toList false)
    (.comparison "n".toList .lt "2".toList) "n".toList "1".toList ["1.0".toList] := by
  refine (filterLaws_iff fun t => ?_).mpr fun _ r hr t ht w hw heq => ?_
  · simp [decimalExternals,decimals]; split <;> simp
  · fin_cases hr
    · cases (show some "1".toList = some t from ht); simp
    · cases (show none = some t from ht)

/-- `1.0` equals the integer 1 and is not a member of the list that holds it. -/
theorem inList_misses_equal_number :
    (filterBatches decimalExternals "n = 1.0".toList [oneBatch]).map allRows = .ok [[.int 1]] ∧
    (filterBatches decimalExternals "n IN (1.0)".toList [oneBatch]).map allRows = .ok [] ∧
    ¬ FilterLaws decimalExternals.toNumerics oneBatch (.isNull "n".toList false)
    (.isNull "n".toList true)
      "n".toList "1.0".toList [] := by
  refine ⟨by decide +kernel,by decide +kernel,fun h => ?_⟩
  have := spelled_of_inList h.inList rfl [.int 1] (by decide) "1".toList rfl "1.0".toList
    (by decide) (by decide)
  exact absurd this (by decide)
end Hirn.Storage
