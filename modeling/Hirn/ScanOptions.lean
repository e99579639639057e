import Hirn.FilterEval

/-! The scan pipeline of `apply_scan_options`: exact filter, predicate, ordering,
projection, offset and limit. After the filters only the rows count, not how they are
cut into batches. -/
namespace Hirn.Storage
open FilterLang Fallible List RecordBatch

structure ScanOrdering where
  column : Text
  (ascending nullsFirst : Bool)

inductive ExactMatchFilter
  | utf8In (column : Text) (values : List Text)
  | utf8MultiColumnOr (columns : List Text) (value : Text)

structure ScanOptions where
  filter : Option Text
  exactFilter : Option ExactMatchFilter
  columns : Option (List Text)
  orderBy : Option (List ScanOrdering)
  (limit offset : Option ℕ)

def columnNotFound (column : Text) : StoreError :=
  .invalidArgument ("column `".toList++column++"` not found in schema".toList)

variable {S : Schema} {f : ExactMatchFilter}

/-- The loop of both exact filters; batches left without rows are dropped. -/
def filterEach (test : Schema → Except StoreError (Row → Bool)) :
    List RecordBatch → Except StoreError (List RecordBatch)
  | [] => .ok []
  | b::bs => do
    let p ← test b.schema
    let filtered := b.filter p
    let rest ← filterEach test bs
    return if 0 < filtered.numRows then filtered::rest else rest

def exactUtf8In (column : Text) (values : List Text) (S : Schema) : Except StoreError (Row → Bool) :=
  match S.indexOf column with
  | none => .error (columnNotFound column)
  | some i =>
    if (S.map (·.dataType)).getD i .boolean = .utf8 then
      .ok fun r => values.any fun v => r.getD i .null = .utf8 v
    else .error (.invalidArgument
      ("exact UTF-8 filter requires Utf8 column `".toList++column++"`".toList))

def filterBatchesUtf8In (column : Text) (values : List Text) (batches : List RecordBatch) :
    Except StoreError (List RecordBatch) :=
  if values = [] then .ok [] else filterEach (exactUtf8In column values) batches

/-- A column that is missing is skipped, one that is not Utf8 is an error. -/
def exactUtf8MultiColumnOr (value : Text) : List Text → Schema → Except StoreError (Row → Bool)
  | [], _ => .ok fun _ => false
  | column::columns, S =>
    match S.indexOf column with
    | none => exactUtf8MultiColumnOr value columns S
    | some i =>
      if (S.map (·.dataType)).getD i .boolean = .utf8 then
        (exactUtf8MultiColumnOr value columns S).map fun p r => r.getD i .null = .utf8 value || p r
      else .error (.invalidArgument
        ("multi-column OR filter requires Utf8 column `".toList++column++"`".toList))

def filterBatchesUtf8MultiColumnOr (columns : List Text) (value : Text)
    (batches : List RecordBatch) : Except StoreError (List RecordBatch) :=
  filterEach (exactUtf8MultiColumnOr value columns) batches

def filterBatchesExact (filter : ExactMatchFilter) (batches : List RecordBatch) :
    Except StoreError (List RecordBatch) :=
  match filter with
  | .utf8In column values => filterBatchesUtf8In column values batches
  | .utf8MultiColumnOr columns value => filterBatchesUtf8MultiColumnOr columns value batches

/-- An exact filter over one schema: fail, or keep the rows that pass a test. -/
def ExactMatchFilter.test : ExactMatchFilter → Schema → Except StoreError (Row → Bool)
  | .utf8In column values, S => if values = [] then .ok fun _ => false else exactUtf8In column values S
  | .utf8MultiColumnOr columns value, S => exactUtf8MultiColumnOr value columns S

theorem filterEach_ok (hp : test S = .ok p) (hD : Over S D) :
    ∃ bs, filterEach test D = .ok bs ∧ Holds S bs ((allRows D).filter p) := by
  induction D with
  | nil => exact ⟨[],rfl,Holds.nil S⟩
  | cons b D ih =>
    obtain ⟨bs,hbs,h⟩ := ih fun b' hb' => hD b' (by simp [hb'])
    have hb : b.schema = S := hD b (by simp)
    have hstep : filterEach test (b::D) =
        .ok (if 0 < (b.filter p).numRows then b.filter p::bs else bs) := by
      rw [filterEach,hb,hp,hbs]
      rfl
    refine ⟨_,hstep,?_⟩
    rw [allRows_cons,filter_append]
    exact h.cons (b := b.filter p) hb

theorem filterBatchesExact_ok (hp : f.test S = .ok p) (hD : Over S D) :
    ∃ bs, filterBatchesExact f D = .ok bs ∧ Holds S bs ((allRows D).filter p) := by
  cases f with
  | utf8In column values =>
    by_cases hv : values = []
    · simp only [ExactMatchFilter.test,hv,if_true,Except.ok.injEq] at hp
      subst hp
      refine ⟨[],by simp [filterBatchesExact,filterBatchesUtf8In,hv],?_⟩
      simpa using Holds.nil S
    · simp only [ExactMatchFilter.test,hv] at hp
      simpa [filterBatchesExact,filterBatchesUtf8In,hv] using filterEach_ok hp hD
  | utf8MultiColumnOr columns value => exact filterEach_ok hp hD

theorem filterBatchesExact_error {e : StoreError}
    (he : f.test S = .error e) (hD : Over S D) (hne : D ≠ []) : filterBatchesExact f D = .error e := by
  obtain ⟨b,D,rfl⟩ := exists_cons_of_ne_nil hne
  have hb : b.schema = S := hD b (by simp)
  cases f with
  | utf8In column values =>
    by_cases hv : values = []
    · simp [ExactMatchFilter.test,hv] at he
    · simp only [ExactMatchFilter.test,hv,if_false] at he
      simp [filterBatchesExact,filterBatchesUtf8In,hv,filterEach,hb,he]
  | utf8MultiColumnOr columns value =>
    simp only [ExactMatchFilter.test] at he
    simp [filterBatchesExact,filterBatchesUtf8MultiColumnOr,filterEach,hb,he]

def projectIndices (S : Schema) : List Text → Except StoreError (List ℕ)
  | [] => .ok []
  | column::columns =>
    match S.indexOf column with
    | none => .error (columnNotFound column)
    | some i => (projectIndices S columns).map (i::·)

def projectBatch (columns : List Text) (b : RecordBatch) : Except StoreError RecordBatch := do
  let is ← projectIndices b.schema columns
  tryNew (is.filterMap (b.schema[·]?)) (b.rows.map fun r => is.filterMap (r[·]?))

def projectBatches (batches : List RecordBatch) (columns : List Text) :
    Except StoreError (List RecordBatch) :=
  batches.mapM (projectBatch columns)

/-- The columns to sort by, each with `descending` and `nulls_first`. -/
def sortColumns (S : Schema) (rows : List Row) :
    List ScanOrdering → Except StoreError (List (List Cell × Bool × Bool))
  | [] => .ok []
  | o::os =>
    match S.indexOf o.column with
    | none => .error (columnNotFound o.column)
    | some i => (sortColumns S rows os).map
        ((rows.map (·.getD i .null),!o.ascending,o.nullsFirst)::·)

def applyOrdering (x : Kernels) (batches : List RecordBatch) (ordering : List ScanOrdering) :
    Except StoreError (List RecordBatch) :=
  match batches with
  | [] => .ok []
  | b::_ =>
    if ordering = [] then .ok batches
    else do
      let combined ← concatBatches b.schema batches
      if combined.numRows = 0 then return []
      let columns ← sortColumns b.schema combined.rows ordering
      match x.lexsortToIndices columns with
      | none => .error .arrow
      | some indices => do
        let sorted ← tryNew b.schema (indices.filterMap (combined.rows[·]?))
        return [sorted]

def usizeMax : ℕ := 2^64-1

/-- The loop of `apply_limit_offset`. -/
def limitLoop (limit offset : ℕ) : ℕ → ℕ → List RecordBatch → List RecordBatch
  | _, _, [] => []
  | skipped, taken, b::bs =>
    if limit ≤ taken then []
    else if skipped+b.numRows ≤ offset then limitLoop limit offset (skipped+b.numRows) taken bs
    else
      let start := offset-skipped
      let stop := min (start+(limit-taken)) b.numRows
      let skipped := max (skipped+start) offset
      if 0 < stop-start then
        b.slice start (stop-start)::limitLoop limit offset skipped (taken+(stop-start)) bs
      else limitLoop limit offset skipped taken bs

def applyLimitOffset (batches : List RecordBatch) (limit offset : Option ℕ) : List RecordBatch :=
  limitLoop (limit.getD usizeMax) (offset.getD 0) 0 0 batches

variable (x : Externals)

def applyScanOptions (batches : List RecordBatch) (opts : ScanOptions) :
    Except StoreError (List RecordBatch) :=
  if batches = [] then .ok []
  else do
    let result ← optionally opts.exactFilter filterBatchesExact batches
    let result ← optionally opts.filter (filterBatches x) result
    let result ← optionally opts.orderBy (fun o r => applyOrdering x.toKernels r o) result
    let result ← optionally opts.columns (fun c r => projectBatches r c) result
    return applyLimitOffset result opts.limit opts.offset

variable {f : Text} {e : FilterExpr}

/-- Batch code with a result on rows: the same error, or the rows. -/
def Computes (S : Schema) (r : Except StoreError (List RecordBatch))
    (spec : Except StoreError (List Row)) : Prop :=
  match spec with
  | .error e => r = .error e
  | .ok rows => ∃ bs, r = .ok bs ∧ Holds S bs rows

theorem Computes.bind {f : List RecordBatch → Except StoreError (List RecordBatch)}
    (h : Computes S r spec)
    (hfg : ∀ bs rows, Holds S bs rows → Computes T (f bs) (g rows)) :
    Computes T (r >>= f) (spec >>= g) := by
  cases spec with
  | error e => rw [show r = .error e from h]; rfl
  | ok rows =>
    obtain ⟨bs,rfl,hbs⟩ := h
    exact hfg bs rows hbs

theorem filterMap_range_getElem? (l : List α) : (List.range l.length).filterMap (l[·]?) = l := by
  induction l with
  | nil => rfl
  | cons a l ih => simpa [range_succ_eq_map] using ih

theorem perm_filterMap_getElem? (l : List α) {indices : List ℕ}
    (h : indices.Perm (List.range l.length)) : (indices.filterMap (l[·]?)).Perm l := by
  simpa [filterMap_range_getElem?] using h.filterMap (l[·]?)

variable (x : Kernels)

def orderRows (S : Schema) (ordering : List ScanOrdering) (rows : List Row) :
    Except StoreError (List Row) :=
  if rows = [] ∨ ordering = [] then .ok rows
  else do
    let columns ← sortColumns S rows ordering
    match x.lexsortToIndices columns with
    | none => .error .arrow
    | some indices => .ok (indices.filterMap (rows[·]?))

def projectRows (S : Schema) (columns : List Text) (rows : List Row) : Except StoreError (List Row) :=
  if rows = [] then .ok []
  else (projectIndices S columns).map fun is => rows.map fun r => is.filterMap (r[·]?)

def projectSchema (S : Schema) (columns : List Text) : Schema :=
  match projectIndices S columns with
  | .error _ => S
  | .ok is => is.filterMap (S[·]?)

variable {x} {rows : List Row}

theorem sortColumns_spec {columns : List (List Cell × Bool × Bool)} (h : sortColumns S rows os =
    .ok columns) : columns.length = os.length ∧ ∀ c ∈ columns, c.1.length = rows.length := by
  induction os generalizing columns with
  | nil => cases h; simp
  | cons o os ih =>
    rw [sortColumns] at h
    split at h
    · cases h
    · obtain ⟨cs,hcs,rfl⟩ := map_eq_ok.mp h
      obtain ⟨h1,h2⟩ := ih hcs
      refine ⟨by simp [h1],fun c hc => ?_⟩
      rcases mem_cons.mp hc with rfl | hc
      · simp
      · exact h2 c hc

theorem orderRows_perm (h : orderRows x S ordering rows = .ok rows') : rows'.Perm rows := by
  unfold orderRows at h
  split_ifs at h with h0
  · cases h; rfl
  · obtain ⟨columns,hc,h⟩ := bind_eq_ok.mp h
    obtain ⟨hlen,hcells⟩ := sortColumns_spec hc
    split at h
    · cases h
    next indices hi =>
      cases h
      refine perm_filterMap_getElem? rows (x.lexsort_perm columns _ _ ?_ hcells hi)
      rintro rfl
      rw [not_or] at h0
      exact h0.2 (length_eq_zero_iff.mp hlen.symm)

variable {bs : List RecordBatch}

theorem computes_applyOrdering (h : Holds S bs rows) (ordering : List ScanOrdering) :
    Computes S (applyOrdering x bs ordering) (orderRows x S ordering rows) := by
  cases bs with
  | nil =>
    obtain rfl := h.eq_nil_iff.mp rfl
    exact ⟨[],rfl,Holds.nil S⟩
  | cons b bs =>
    have hb : b.schema = S := h.schema_eq b (by simp)
    have hne : rows ≠ [] := fun h0 => by simpa using h.eq_nil_iff.mpr h0
    by_cases ho : ordering = []
    · simp only [orderRows,ho,or_true]
      exact ⟨_,rfl,h⟩
    · have hconf : ∀ r ∈ rows, S.conforms r := fun r hr =>
        conforms_of_mem_allRows h.schema_eq (h.rows_eq ▸ hr)
      have hn : ¬ (rows.length = 0) := fun h0 => hne (length_eq_zero_iff.mp h0)
      simp only [applyOrdering,orderRows,ho,hne,or_self,if_false,hb,
        concatBatches_of_over h.schema_eq,ok_bind,numRows,h.rows_eq,hn]
      cases hc : sortColumns S rows ordering with
      | error e => rfl
      | ok columns =>
        simp only [ok_bind]
        cases hi : x.lexsortToIndices columns with
        | none => rfl
        | some indices =>
          have hperm : (indices.filterMap (rows[·]?)).Perm rows := by
            have hord : orderRows x S ordering rows = .ok (indices.filterMap (rows[·]?)) := by
              simp [orderRows,ho,hne,hc,hi]
            exact orderRows_perm hord
          have hconf' : ∀ r ∈ indices.filterMap (rows[·]?), S.conforms r := fun r hr =>
            hconf r (hperm.mem_iff.mp hr)
          simp only [tryNew_of_conforms hconf']
          refine ⟨_,rfl,?_,?_,by simp⟩
          · simp [Over]
          · simpa [numRows,hperm.length_eq] using Nat.pos_of_ne_zero hn

variable {columns : List Text} {is : List ℕ}

theorem projectIndices_lt (h : projectIndices S columns = .ok is) : ∀ i ∈ is, i < S.length := by
  induction columns generalizing is with
  | nil => cases h; simp
  | cons c cs ih =>
    rw [projectIndices] at h
    split at h
    · cases h
    next i hi =>
      obtain ⟨is',his,rfl⟩ := map_eq_ok.mp h
      intro j hj
      rcases mem_cons.mp hj with rfl | hj
      · exact Schema.indexOf_lt hi
      · exact ih his j hj

theorem conforms_project (h : S.conforms r) (his : ∀ i ∈ is, i < S.length) :
    Schema.conforms (is.filterMap (S[·]?)) (is.filterMap (r[·]?)) := by
  have hlen := Schema.conforms_length h
  induction is with
  | nil => rfl
  | cons i is ih =>
    have hi : i < S.length := his i (by simp)
    have hi' : i < r.length := by omega
    have hadm := Schema.admits_of_conforms h (getElem?_eq_getElem hi)
    rw [getD_eq_getElem _ _ hi'] at hadm
    rw [filterMap_cons_some (getElem?_eq_getElem hi),
      filterMap_cons_some (getElem?_eq_getElem hi')]
    simp [Schema.conforms,hadm,ih fun j hj => his j (by simp [hj])]

theorem projectBatch_ok (hp : projectIndices S columns = .ok is) (hb : b.schema = S) :
    ∃ b', projectBatch columns b = .ok b' ∧ b'.schema = is.filterMap (S[·]?) ∧
      b'.rows = b.rows.map fun r => is.filterMap (r[·]?) := by
  have hconf : ∀ r ∈ b.rows.map fun r => is.filterMap (r[·]?),
      Schema.conforms (is.filterMap (S[·]?)) r = true := by
    intro r' hr'
    obtain ⟨r,hr,rfl⟩ := mem_map.mp hr'
    exact conforms_project (hb ▸ b.wf r hr) (projectIndices_lt hp)
  refine ⟨⟨_,_,hconf⟩,?_,rfl,rfl⟩
  rw [projectBatch,hb,hp]
  exact tryNew_of_conforms hconf

theorem projectBatches_ok (hp : projectIndices S columns = .ok is) (h : Holds S bs rows) :
    ∃ bs', projectBatches bs columns = .ok bs' ∧
      Holds (is.filterMap (S[·]?)) bs' (rows.map fun r => is.filterMap (r[·]?)) := by
  obtain ⟨hS,hpos,rfl⟩ := h
  induction bs with
  | nil => exact ⟨[],rfl,Holds.nil _⟩
  | cons b bs ih =>
    obtain ⟨b',hb',hschema,hrows⟩ := projectBatch_ok hp (hS b (by simp))
    obtain ⟨bs',hbs',h'⟩ := ih (fun c hc => hS c (by simp [hc])) (fun c hc => hpos c (by simp [hc]))
    refine ⟨b'::bs',?_,?_,?_,?_⟩
    · rw [projectBatches] at hbs' ⊢
      rw [mapM_cons,hb',hbs']
      rfl
    · exact fun c hc => (mem_cons.mp hc).elim (fun e => e ▸ hschema) (h'.schema_eq c)
    · intro c hc
      rcases mem_cons.mp hc with rfl | hc
      · simpa [numRows,hrows] using hpos b (by simp)
      · exact h'.pos c hc
    · simp [hrows,h'.rows_eq]

theorem computes_projectBatches (h : Holds S bs rows) (columns : List Text) :
    Computes (projectSchema S columns) (projectBatches bs columns) (projectRows S columns rows) := by
  cases hp : projectIndices S columns with
  | error e =>
    cases bs with
    | nil =>
      obtain rfl := h.eq_nil_iff.mp rfl
      exact ⟨[],rfl,Holds.nil _⟩
    | cons b bs =>
      have hne : rows ≠ [] := fun h0 => by simpa using h.eq_nil_iff.mpr h0
      have hb : projectBatch columns b = .error e := by
        simp [projectBatch,h.schema_eq b (by simp),hp]
      simp [projectRows,hne,hp,projectBatches,hb,Computes]
  | ok is =>
    have hrows : projectRows S columns rows = .ok (rows.map fun r => is.filterMap (r[·]?)) := by
      by_cases h0 : rows = [] <;> simp [projectRows,hp]
    have hT : projectSchema S columns = is.filterMap (S[·]?) := by simp [projectSchema,hp]
    rw [hrows,hT]
    exact projectBatches_ok hp h

/-- Offset and limit cut the rows, wherever the batches end. -/
theorem holds_limitLoop (hs : skipped ≤ offset) (h : Holds S bs rows) :
    Holds S (limitLoop limit offset skipped taken bs)
      ((rows.drop (offset-skipped)).take (limit-taken)) := by
  obtain ⟨hS,hpos,rfl⟩ := h
  induction bs generalizing skipped taken with
  | nil => simpa [limitLoop] using Holds.nil S
  | cons b bs ih =>
    have hS' : Over S bs := fun c hc => hS c (by simp [hc])
    have hpos' : ∀ c ∈ bs, 0 < c.numRows := fun c hc => hpos c (by simp [hc])
    have hlen : b.numRows = b.rows.length := rfl
    rw [limitLoop]
    split_ifs with h1 h2
    · simpa [Nat.sub_eq_zero_of_le h1] using Holds.nil S
    · have := @ih (skipped+b.numRows) taken h2 hS' hpos'
      rw [allRows_cons,drop_append,drop_eq_nil_of_le (by omega)]
      rwa [show offset-skipped-b.rows.length = offset-(skipped+b.numRows) by omega]
    · have hstop : min (offset-skipped+(limit-taken)) b.numRows-(offset-skipped) =
          min (limit-taken) (b.numRows-(offset-skipped)) := by omega
      have hmax : max (skipped+(offset-skipped)) offset = offset := by omega
      have hcut : ((allRows (b::bs)).drop (offset-skipped)).take (limit-taken) =
          (b.rows.drop (offset-skipped)).take (limit-taken) ++
            (allRows bs).take (limit-taken-(b.numRows-(offset-skipped))) := by
        rw [allRows_cons,drop_append_of_le_length (by omega),take_append,
          length_drop,hlen]
      simp only [hstop,hmax]
      have hpos0 : 0 < min (limit-taken) (b.numRows-(offset-skipped)) := by omega
      set k := min (limit-taken) (b.numRows-(offset-skipped)) with hk
      have hrest := @ih offset (taken+k) le_rfl hS' hpos'
      have hslice : (b.slice (offset-skipped) k).rows =
          (b.rows.drop (offset-skipped)).take (limit-taken) := by
        rw [slice,take_eq_take_iff,length_drop]
        omega
      rw [if_pos hpos0,hcut,← hslice]
      rw [Nat.sub_self,drop_zero,
        show limit-(taken+k) = limit-taken-(b.numRows-(offset-skipped)) by omega] at hrest
      have hcons := hrest.cons (b := b.slice (offset-skipped) k) (hS b (by simp))
      rwa [if_pos] at hcons
      rw [numRows,hslice,length_take,length_drop]
      omega

def presentRows (x : Kernels) (S : Schema) (opts : ScanOptions) (rows : List Row) :
    Except StoreError (List Row) := do
  let rows ← optionally opts.orderBy (orderRows x S) rows
  let rows ← optionally opts.columns (projectRows S) rows
  return (rows.drop (opts.offset.getD 0)).take (opts.limit.getD usizeMax)

def presentSchema (S : Schema) (opts : ScanOptions) : Schema :=
  match opts.columns with
  | some columns => projectSchema S columns
  | none => S

theorem presentRows_nil (x : Kernels) (S : Schema) (opts : ScanOptions) :
    presentRows x S opts [] = .ok [] := by
  unfold presentRows
  cases opts.orderBy <;> cases opts.columns <;> simp [orderRows,projectRows]

def exactTest (S : Schema) : Option ExactMatchFilter → Except StoreError (Row → Bool)
  | none => .ok fun _ => true
  | some f => f.test S

theorem filterBatches_ok {x : Externals}
    (he : parsePredicate x f = .ok e) (hm : missingColumn S e = none) (invert : Bool)
    (hD : Over S D) : ∃ bs, filterBatchesImpl x f D invert = .ok bs ∧
      Holds S bs ((allRows D).filter (keeps x.toNumerics S e invert)) := by
  rw [filterBatchesImpl,he]
  exact filterLoop_ok hm invert hD

/-- With its filters accepted, a scan is a function of the rows that pass. -/
theorem computes_applyScanOptions {x : Externals} {opts : ScanOptions}
    (hp : exactTest S opts.exactFilter = .ok p)
    (hf : opts.filter = some f) (he : parsePredicate x f = .ok e) (hm : missingColumn S e = none)
    (hD : Over S D) : Computes (presentSchema S opts) (applyScanOptions x D opts)
      (presentRows x.toKernels S opts
        (((allRows D).filter p).filter (keeps x.toNumerics S e false))) := by
  by_cases hne : D = []
  · subst hne
    simp only [allRows_nil,filter_nil,presentRows_nil]
    exact ⟨[],rfl,Holds.nil _⟩
  · obtain ⟨bs,hbs,hover,hrows⟩ : ∃ bs, optionally opts.exactFilter filterBatchesExact D = .ok bs ∧
        Over S bs ∧ allRows bs = (allRows D).filter p := by
      cases hx : opts.exactFilter with
      | none =>
        rw [hx] at hp
        cases hp
        exact ⟨D,rfl,hD,by simp⟩
      | some g =>
        rw [hx] at hp
        obtain ⟨bs,hbs,h⟩ := filterBatchesExact_ok hp hD
        exact ⟨bs,hbs,h.schema_eq,h.rows_eq⟩
    obtain ⟨cs,hcs,hholds⟩ := filterBatches_ok he hm false hover
    rw [hrows] at hholds
    rw [applyScanOptions,if_neg hne,hbs,ok_bind,hf,optionally_some,filterBatches,hcs,ok_bind,
      presentRows]
    refine Computes.bind (S := S) ?_ fun bs rows h => ?_
    · cases opts.orderBy with
      | none => exact ⟨cs,rfl,hholds⟩
      | some ordering => exact computes_applyOrdering hholds ordering
    refine Computes.bind (S := presentSchema S opts) ?_ fun bs rows h => ?_
    · unfold presentSchema
      cases opts.columns with
      | none => exact ⟨bs,rfl,h⟩
      | some columns => exact computes_projectBatches h columns
    exact ⟨_,rfl,holds_limitLoop (Nat.zero_le _) h⟩
end Hirn.Storage
