import Hirn.PolicyStore

/-! Isolation of policy-enforced reads. Once a request's filters are accepted over the
schema, a read is a function of the rows that pass them; what can go wrong is a part of
the spliced predicate that the guard does not reach. -/
namespace Hirn.Storage
open FilterLang Fallible List PolicyStore MemoryStore

/-- A schema with a Utf8 column `namespace`. -/
structure NamespacedSchema where
  schema : Schema
  index : ℕ
  indexOf_eq : schema.indexOf PolicyStore.namespaceColumn = some index
  utf8 : ∃ f, schema[index]? = some f ∧ f.dataType = .utf8

def namespaceCell (S : Schema) (r : Row) : Cell := columnCell S PolicyStore.namespaceColumn r
def visible (A : List Text) (S : Schema) (r : Row) : Bool :=
  A.any fun ns => namespaceCell S r = .utf8 ns

/-- Contents of a namespaced dataset. The empty text is no namespace; a row may lack one. -/
structure Dataset (S : NamespacedSchema) where
  batches : List RecordBatch
  schema_eq : Over S.schema batches
  named : ∀ r ∈ allRows batches, namespaceCell S.schema r ≠ .utf8 []

def Dataset.visibleRows {S : NamespacedSchema} (A : List Text) (D : Dataset S) : List Row :=
  (allRows D.batches).filter (visible A S.schema)

def labelled (batches : List RecordBatch) : List (Schema × Row) :=
  batches.flatMap fun b => b.rows.map (b.schema,·)

/-- A returned row shows a stored one: the columns they have in common agree. -/
def Shows (S : Schema) (r : Row) (p : Schema × Row) : Prop :=
  ∀ name, name ≠ "_relevance_score".toList → (S.indexOf name).isSome → (p.1.indexOf name).isSome →
    columnCell p.1 name p.2 = columnCell S name r

inductive ReadKind
  | scan (columns : Option (List Text)) (orderBy : Option (List ScanOrdering))
      (limit offset : Option ℕ)
  | count
  | vectorSearch (column : Text) (query : List (BitVec 32)) (metric : DistanceMetric) (limit : ℕ)
  | ftsSearch (columns : List Text) (query : Text) (limit : ℕ)
  | multivectorSearch (column : Text) (query : MemoryStore.MultivectorQuery) (limit : ℕ)
  | hybridSearch (vectorColumn : Text) (queryVector : List (BitVec 32)) (ftsColumns : List Text)
      (ftsQuery : Text) (metric : DistanceMetric) (limit : ℕ) (reranker : MemoryStore.Reranker)

inductive Answer
  | rows (l : List (Schema × Row))
  | count (n : ℕ)
  deriving DecidableEq

/-- The filters that a caller supplies; only scans have an exact filter. -/
structure Filters where
  filter : Option Text
  exactFilter : Option ExactMatchFilter

/-- A read through the policy store. -/
def read (x : Externals) (s : Session) (dataset : Text) (fs : Filters) (kind : ReadKind)
    (st : MemoryStore) : Except StoreError Answer :=
  let rows := fun r : Except StoreError (List RecordBatch) => r.map fun bs => Answer.rows (labelled bs)
  match kind with
  | .scan columns orderBy limit offset =>
    rows (PolicyStore.scan x s st dataset ⟨fs.filter,fs.exactFilter,columns,orderBy,limit,offset⟩)
  | .count => (PolicyStore.count x s st dataset fs.filter).map .count
  | .vectorSearch column query metric limit =>
    rows (PolicyStore.vectorSearch x s st dataset ⟨column,query,metric,limit,fs.filter⟩)
  | .ftsSearch columns query limit =>
    rows (PolicyStore.ftsSearch x s st dataset ⟨columns,query,limit,fs.filter⟩)
  | .multivectorSearch column query limit =>
    rows (PolicyStore.multivectorSearch x s st dataset ⟨column,query,limit,fs.filter⟩)
  | .hybridSearch vectorColumn queryVector ftsColumns ftsQuery metric limit reranker =>
    rows (PolicyStore.hybridSearch x s st dataset
      ⟨vectorColumn,queryVector,ftsColumns,ftsQuery,metric,limit,fs.filter,reranker⟩)

def Answer.Confined (A : List Text) {S : NamespacedSchema} (D : Dataset S) : Answer → Prop
  | .rows l => ∀ p ∈ l, ∃ r ∈ D.visibleRows A, Shows S.schema r p
  | .count n => n ≤ (D.visibleRows A).length

def Answer.isEmpty : Answer → Prop
  | .rows l => l = []
  | .count n => n = 0

/-- Reads with these filters stay inside `A`, whatever the dataset holds. -/
structure Isolated (x : Externals) (s : Session) (dataset : Text) (A : List Text)
    (S : NamespacedSchema) (fs : Filters) : Prop where
  confined : ∀ (kind : ReadKind) (D : Dataset S) (st : MemoryStore) (ans : Answer),
    st.tables dataset = some D.batches → read x s dataset fs kind st = .ok ans → ans.Confined A D
  unchanged : ∀ (kind : ReadKind) (D D' : Dataset S) (st st' : MemoryStore) (ans : Answer),
    st.tables dataset = some D.batches → st'.tables dataset = some D'.batches →
    D.visibleRows A = D'.visibleRows A →
    read x s dataset fs kind st = .ok ans → read x s dataset fs kind st' = .ok ans
  denied : A = [] → ∀ (kind : ReadKind) (D : Dataset S) (st : MemoryStore) (ans : Answer),
    st.tables dataset = some D.batches → read x s dataset fs kind st = .ok ans → ans.isEmpty

def guardNames (A : List Text) : List Text := if A = [] then [[]] else A

theorem buildNamespacePredicateFor_eq (column : Text) (A : List Text) :
    buildNamespacePredicateFor column A =
      column++" IN (".toList++quoteList (guardNames A)++[')'] := by
  unfold buildNamespacePredicateFor guardNames
  split_ifs with h
  · simp [quoteList,quote,escape]
  · rfl

theorem asciiWord_namespace : asciiWord namespaceColumn := by decide

/-- The guard's column, which is a plain word whatever the Unicode tables say. -/
def namespaceColumnOf (u : Unicode) : Column u where
  name := PolicyStore.namespaceColumn
  word := isWord_of_asciiWord asciiWord_namespace
  plain := by rw [keyword_of_asciiWord asciiWord_namespace]; decide

def guardTemplate (u : Unicode) (A : List Text) : Template u Text .atom :=
  .inList (namespaceColumnOf u) (guardNames A)

def guardExpr (A : List Text) : FilterExpr := .inList PolicyStore.namespaceColumn (guardNames A)

variable (u : Unicode) (A : List Text)

theorem render_guardTemplate : (guardTemplate u A).render id = buildNamespacePredicate A := by
  simp [guardTemplate,Template.render,buildNamespacePredicate,
    buildNamespacePredicateFor_eq,namespaceColumnOf]

theorem tokenize_guard : tokenize u (buildNamespacePredicate A) =
    .ok ((guardTemplate u A).tokens id) := by
  rw [← render_guardTemplate u A]
  exact (guardTemplate u A).tokenize_render_end id

theorem parseAtom_guard (n : ℕ) (e : FilterExpr) (rest : List Token)
    (h : parseAtom n ((guardTemplate u A).tokens id) = .ok (e,rest)) : e = guardExpr A ∧
    rest = [] := by
  cases n with
  | zero => cases h
  | succ n =>
    have h' := Template.parseInList_listTokens (guardNames A) []
    simp only [guardTemplate,Template.tokens,parseAtom_succ,parseComparison,map_id,h',map_ok,
      Except.ok.injEq,Prod.mk.injEq] at h
    exact ⟨h.1.symm,h.2.symm⟩

theorem parse_guard : parseFilterExpr u (buildNamespacePredicate A) = .ok (guardExpr A) := by
  have htree : (Template.conj (.atom (guardTemplate u A))).tree id = guardExpr A := by
    simp [Template.tree,guardTemplate,guardExpr,namespaceColumnOf]
  rw [← htree]
  exact parseFilterExpr_eq_ok.mpr
    ⟨_,tokenize_guard u A,Template.parseOr_tokens (.conj (.atom (guardTemplate u A))) id⟩

variable {S : NamespacedSchema} {f : Text} {A : List Text} {x : Externals} {r : Row}

/-- The part of the spliced predicate `e` that the guard does not reach: what stands before the last
alternative, or all of it where an odd number of quotes puts the guard inside a literal. -/
def unguarded (f : Text) (e : FilterExpr) : Option FilterExpr :=
  if Even (quotes f) then
    match e with
    | .or l _ => some l
    | _ => none
  else some e

/-- A row of the dataset outside the allow-list. -/
structure Foreign (A : List Text) (S : NamespacedSchema) (r : Row) : Prop where
  conforms : S.schema.conforms r = true
  named : namespaceCell S.schema r ≠ .utf8 []
  hidden : visible A S.schema r = false

/-- The predicate is accepted, and what the guard misses is true of no foreign row. -/
def SafeFilter (x : Externals) (A : List Text) (S : NamespacedSchema) (filter : Option Text) : Prop :=
  ∃ e, parsePredicate x (PolicyStore.injectFilter filter
  (PolicyStore.buildNamespacePredicate A)) = .ok e ∧
    missingColumn S.schema e = none ∧
    ∀ f ∈ filter, f ≠ [] → ∀ l ∈ unguarded f e, ∀ r, Foreign A S r →
      evalRow x.toNumerics S.schema l r ≠ some true

theorem parsePredicate_eq_ok : parsePredicate x predicate = .ok e ↔
    parseFilterExpr x.toUnicode predicate = .ok e := by
  unfold parsePredicate
  cases parseFilterExpr x.toUnicode predicate <;> simp [Except.mapError]

theorem namespaceCell_cases (h : S.schema.conforms r) :
    namespaceCell S.schema r = .null ∨ ∃ ns, namespaceCell S.schema r = .utf8 ns := by
  have hcell : namespaceCell S.schema r = r.getD S.index .null := by
    simp [namespaceCell,columnCell,S.indexOf_eq]
  obtain ⟨f,hf,hft⟩ := S.utf8
  have hadm := Schema.admits_of_conforms h hf
  rw [Field.admits,hft,Bool.and_eq_true] at hadm
  rw [hcell]
  exact Cell.hasType_utf8 hadm.2

theorem visible_of_guard (hconf : S.schema.conforms r) (hnamed : namespaceCell S.schema r ≠ .utf8 [])
    (h : evalRow x.toNumerics S.schema (guardExpr A) r = some true) : visible A S.schema r := by
  change inListCell _ _ _ (namespaceCell S.schema r) = _ at h
  rcases namespaceCell_cases hconf with hn | ⟨ns,hns⟩
  · simp [hn,inListCell,arrayValueToString] at h
  · have hmem : ns ∈ guardNames A := by
      simpa [hns,inListCell,arrayValueToString] using h
    unfold guardNames at hmem
    split_ifs at hmem with hA
    · obtain rfl : ns = [] := by simpa using hmem
      exact absurd hns hnamed
    · simpa [visible,hns] using hmem

theorem evalRow_of_endsIn (h : EndsIn g e)
    (htrue : evalRow x.toNumerics S.schema e r = some true) :
    evalRow x.toNumerics S.schema g r = some true ∨
      ∃ l m, e = .or l m ∧ evalRow x.toNumerics S.schema l r = some true := by
  cases e with
  | and lhs rhs =>
    obtain rfl : rhs = g := h
    exact .inl (kleeneAnd_eq_true.mp htrue).2
  | or lhs rhs =>
    rcases kleeneOr_eq_true.mp htrue with hl | hr
    · exact .inr ⟨lhs,rhs,rfl,hl⟩
    · cases rhs with
      | and a b =>
        obtain rfl : b = g := h
        exact .inl (kleeneAnd_eq_true.mp hr).2
      | _ => exact h.elim
  | _ => exact h.elim

def guarded (A : List Text) (f : Text) : Text :=
  '('::(f++") AND ".toList++PolicyStore.buildNamespacePredicate A)

theorem unguarded_of_match (he : parsePredicate x (guarded A f) = .ok e)
    (hr : Foreign A S r) (htrue : evalRow x.toNumerics S.schema e r = some true) :
    ∃ l ∈ unguarded f e, evalRow x.toNumerics S.schema l r = some true := by
  by_cases hq : Even (quotes f)
  · have hends : EndsIn (guardExpr A) e := endsIn_of_parse_splice hq (tokenize_guard x.toUnicode A)
      (parseAtom_guard x.toUnicode A) (parsePredicate_eq_ok.mp he)
    rcases evalRow_of_endsIn hends htrue with h | ⟨l,m,rfl,hl⟩
    · exact absurd (visible_of_guard hr.conforms hr.named h) (by simp [hr.hidden])
    · exact ⟨l,by simp [unguarded,hq],hl⟩
  · exact ⟨e,by simp [unguarded,hq],htrue⟩

theorem visible_of_match {filter : Option Text} (he : parsePredicate x
      (injectFilter filter (buildNamespacePredicate A)) = .ok e)
    (hsafe : ∀ f ∈ filter, f ≠ [] → ∀ l ∈ unguarded f e, ∀ r, Foreign A S r →
      evalRow x.toNumerics S.schema l r ≠ some true)
    (hconf : S.schema.conforms r) (hnamed : namespaceCell S.schema r ≠ .utf8 [])
    (htrue : evalRow x.toNumerics S.schema e r = some true) : visible A S.schema r := by
  by_contra hhid
  have hforeign : Foreign A S r := ⟨hconf,hnamed,by simpa using hhid⟩
  have hplain : injectFilter filter (buildNamespacePredicate A) =
      buildNamespacePredicate A → False := by
    intro h
    rw [h,parsePredicate_eq_ok,parse_guard] at he
    cases he
    exact hhid (visible_of_guard hconf hnamed htrue)
  cases filter with
  | none => exact hplain rfl
  | some f =>
    by_cases hf : f = []
    · exact hplain (by simp [injectFilter,hf])
    · rw [injectFilter,if_pos hf] at he
      obtain ⟨l,hl,hltrue⟩ := unguarded_of_match he hforeign htrue
      exact hsafe f rfl hf l hl r hforeign hltrue

theorem evalRow_of_unguarded (hl : l ∈ unguarded f e)
    (h : evalRow x.toNumerics S.schema l r = some true) :
    evalRow x.toNumerics S.schema e r = some true := by
  unfold unguarded at hl
  split_ifs at hl
  · cases e with
    | or a b =>
      obtain rfl : a = l := by simpa using hl
      exact kleeneOr_eq_true.mpr (.inl h)
    | _ => simp at hl
  · obtain rfl : e = l := by simpa using hl
    exact h

variable {S : Schema} {fs : Filters} {dataset : Text} {s : Session}

section
variable (x : Externals)

/-- A search on the rows that its filter leaves. -/
def searchRows (limit : ℕ) (scoreName : Text) (descending : Bool)
    (scorer : Schema → Except StoreError (Row → Except StoreError (Option (BitVec 32))))
    (S : Schema) (rows : List Row) : Except StoreError (List RecordBatch) :=
  if rows = [] then .ok [] else MemoryStore.rankRows x limit scoreName descending scorer S rows

def vectorRows (opts : MemoryStore.VectorSearchOptions) (S : Schema) (rows : List Row) :
    Except StoreError (List RecordBatch) :=
  searchRows x opts.limit "_distance".toList false (MemoryStore.vectorScorer x opts) S rows

def ftsRows (opts : MemoryStore.FtsSearchOptions) (S : Schema) (rows : List Row) :
    Except StoreError (List RecordBatch) :=
  searchRows x opts.limit "_score".toList true (MemoryStore.ftsScorer x opts) S rows

def multivectorRows (opts : MemoryStore.MultivectorSearchOptions) (S : Schema) (rows : List Row) :
    Except StoreError (List RecordBatch) :=
  searchRows x opts.limit "_score".toList true (MemoryStore.multivectorScorer x opts) S rows

def hybridRows (opts : MemoryStore.HybridSearchOptions) (S : Schema) (rows : List Row) :
    Except StoreError (List RecordBatch) := do
  let vectorResults ← vectorRows x ⟨opts.vectorColumn,opts.queryVector,opts.metric,
    opts.limit*2 % 2^64,opts.filter⟩ S rows
  let ftsResults ← ftsRows x ⟨opts.ftsColumns,opts.ftsQuery,opts.limit*2 % 2^64,opts.filter⟩ S rows
  let vecBatch ← MemoryStore.concatMemBatches vectorResults
  let ftsBatch ← MemoryStore.concatMemBatches ftsResults
  let reranked ← opts.reranker.rerankHybrid vecBatch ftsBatch
  return [if reranked.numRows ≤ opts.limit then reranked else reranked.slice 0 opts.limit]

/-- A read of rows: for a scan both filters count, otherwise the predicate. -/
def answerRows (S : Schema) (kind : ReadKind) (scanned matched : List Row) :
    Except StoreError Answer :=
  let rows := fun r : Except StoreError (List RecordBatch) => r.map fun bs => Answer.rows (labelled bs)
  match kind with
  | .scan columns orderBy limit offset =>
    let opts : ScanOptions := ⟨none,none,columns,orderBy,limit,offset⟩
    (presentRows x.toKernels S opts scanned).map fun rows =>
      .rows (rows.map (presentSchema S opts,·))
  | .count => .ok (.count matched.length)
  | .vectorSearch column query metric limit =>
    rows (vectorRows x ⟨column,query,metric,limit,none⟩ S matched)
  | .ftsSearch columns query limit => rows (ftsRows x ⟨columns,query,limit,none⟩ S matched)
  | .multivectorSearch column query limit =>
    rows (multivectorRows x ⟨column,query,limit,none⟩ S matched)
  | .hybridSearch vectorColumn queryVector ftsColumns ftsQuery metric limit reranker =>
    rows (hybridRows x ⟨vectorColumn,queryVector,ftsColumns,ftsQuery,metric,limit,none,
      reranker⟩ S matched)

variable {x}

theorem labelled_of_over (h : Over S bs) : labelled bs = (allRows bs).map (S,·) := by
  induction bs with
  | nil => rfl
  | cons b bs ih =>
    have hb := h b (by simp)
    have := ih fun c hc => h c (by simp [hc])
    simp_all [labelled]

theorem Computes.answer {r : Except StoreError (List RecordBatch)} (h : Computes S r spec) :
    (r.map fun bs => Answer.rows (labelled bs)) = spec.map fun rows => .rows (rows.map (S,·)) := by
  cases spec with
  | error e =>
    obtain rfl : r = .error e := h
    rfl
  | ok rows =>
    obtain ⟨bs,rfl,hbs⟩ := h
    rw [map_ok,map_ok,labelled_of_over hbs.schema_eq,hbs.rows_eq]

theorem searchWith_eq (he : parsePredicate x pred = .ok e) (hm : missingColumn S e = none)
    (hD : Over S D) (limit : ℕ) (scoreName : Text) (descending : Bool)
    (scorer : Schema → Except StoreError (Row → Except StoreError (Option (BitVec 32)))) :
    searchWith x (some pred) limit scoreName descending scorer D =
      searchRows x limit scoreName descending scorer S
        ((allRows D).filter (keeps x.toNumerics S e false)) := by
  obtain ⟨bs,hbs,h⟩ := filterBatches_ok he hm false hD
  rw [searchWith,optionally_some,filterBatches,hbs,ok_bind,searchRows]
  cases bs with
  | nil => rw [if_pos (h.eq_nil_iff.mp rfl)]
  | cons b bs =>
    have hne : ¬ ((allRows D).filter (keeps x.toNumerics S e false) = []) := fun h0 => by
      simpa using h.eq_nil_iff.mpr h0
    have hall : ¬ (((b::bs).all fun b => decide (b.numRows = 0))) := by
      have := h.pos b (by simp)
      simp only [all_cons,Bool.and_eq_true,decide_eq_true_eq]
      omega
    rw [if_neg hne]
    simp only [hall,h.rows_eq,h.schema_eq b (by simp)]
    rfl

variable {S : NamespacedSchema}

theorem enforceFilter_eq (hs : resolveAllowed s = .ok (some A))
    (hd : dataset ≠ resourceBlob) (filter : Option Text) : enforceFilter s dataset filter =
      .ok (some (injectFilter filter (buildNamespacePredicate A))) := by
  simp [enforceFilter,shouldEnforceNamespaceFilter,hd,hs]

/-- With its filters accepted, a read is a function of the rows that pass them. -/
theorem read_eq (hs : PolicyStore.resolveAllowed s = .ok (some A))
    (hd : dataset ≠ PolicyStore.resourceBlob)
    (hp : exactTest S.schema fs.exactFilter = .ok p) (he : parsePredicate x
      (PolicyStore.injectFilter fs.filter (PolicyStore.buildNamespacePredicate A)) = .ok e)
    (hm : missingColumn S.schema e = none) (D : Dataset S)
    (hst : st.tables dataset = some D.batches) (kind : ReadKind) :
    read x s dataset fs kind st = answerRows x S.schema kind
      (((allRows D.batches).filter p).filter (keeps x.toNumerics S.schema e false))
      ((allRows D.batches).filter (keeps x.toNumerics S.schema e false)) := by
  have htable : st.table dataset = D.batches := by simp [MemoryStore.table,hst]
  have hget : st.getBatches dataset = .ok D.batches := by simp [MemoryStore.getBatches,hst]
  set pred := PolicyStore.injectFilter fs.filter (PolicyStore.buildNamespacePredicate A) with hpred
  have hsearch := fun limit scoreName descending scorer =>
    searchWith_eq he hm D.schema_eq limit scoreName descending scorer
  cases kind with
  | scan columns orderBy limit offset =>
    have h := @computes_applyScanOptions _ pred e p _ x
      ⟨some pred,fs.exactFilter,columns,orderBy,limit,offset⟩ hp rfl he hm D.schema_eq
    simp only [read,PolicyStore.scan,PolicyStore.enforceScan,enforceFilter_eq hs hd,map_ok,ok_bind,
      MemoryStore.scan,htable]
    exact h.answer
  | count =>
    obtain ⟨bs,hbs,hholds⟩ := filterBatches_ok he hm false D.schema_eq
    simp only [read,PolicyStore.count,enforceFilter_eq hs hd,ok_bind,MemoryStore.count,htable,
      optionally_some,filterBatches,← hpred,hbs,map_ok,answerRows,totalRowCount_eq,
      hholds.rows_eq]
  | vectorSearch column query metric limit =>
    simp only [read,PolicyStore.vectorSearch,enforceFilter_eq hs hd,ok_bind,
      MemoryStore.vectorSearch,hget,MemoryStore.vectorSearchIn,← hpred,hsearch]
    rfl
  | ftsSearch columns query limit =>
    simp only [read,PolicyStore.ftsSearch,enforceFilter_eq hs hd,ok_bind,
      MemoryStore.ftsSearch,hget,MemoryStore.ftsSearchIn,← hpred,hsearch]
    rfl
  | multivectorSearch column query limit =>
    simp only [read,PolicyStore.multivectorSearch,enforceFilter_eq hs hd,ok_bind,
      MemoryStore.multivectorSearch,hget,MemoryStore.multivectorSearchIn,← hpred,hsearch]
    rfl
  | hybridSearch vectorColumn queryVector ftsColumns ftsQuery metric limit reranker =>
    simp only [read,PolicyStore.hybridSearch,enforceFilter_eq hs hd,ok_bind,
      MemoryStore.hybridSearch,hget,MemoryStore.hybridSearchIn,MemoryStore.vectorSearchIn,
      MemoryStore.ftsSearchIn,← hpred,hsearch]
    rfl
end
variable {f : Field}

theorem indexOf_cons (f : Field) (S : Schema) (name : Text) :
    Schema.indexOf (f::S) name = if f.name = name then some 0 else (S.indexOf name).map (·+1) := by
  simp [Schema.indexOf,findIdx?_cons]

theorem columnCell_cons_self (h : f.name = name) (S : Schema) (c : Cell)
    (r : Row) : columnCell (f::S) name (c::r) = c := by
  simp [columnCell,indexOf_cons,h]

theorem columnCell_cons_of_ne (h : f.name ≠ name) (S : Schema) (c : Cell)
    (r : Row) : columnCell (f::S) name (c::r) = columnCell S name r := by
  cases hi : S.indexOf name <;> simp [columnCell,indexOf_cons,h,hi]

theorem Shows.refl (S : Schema) (r : Row) : Shows S r (S,r) := fun _ _ _ _ => rfl

theorem shows_project (hr : S.conforms r) (h : projectIndices S columns = .ok is) :
    Shows S r (is.filterMap (S[·]?),is.filterMap (r[·]?)) := by
  intro name _ _ hT
  have hlen := Schema.conforms_length hr
  induction columns generalizing is with
  | nil => cases h; simp [Schema.indexOf] at hT
  | cons c cs ih =>
    rw [projectIndices] at h
    split at h
    · cases h
    next i hi =>
      obtain ⟨is',his,rfl⟩ := map_eq_ok.mp h
      have hlt := Schema.indexOf_lt hi
      obtain ⟨f,hf,hfc⟩ := Schema.name_of_indexOf hi
      have hr' : r[i]? = some (r.getD i .null) := by
        rw [getD_eq_getElem _ _ (by omega),getElem?_eq_getElem (by omega)]
      simp only [filterMap_cons_some (f := (S[·]?)) hf,
        filterMap_cons_some (f := (r[·]?)) hr'] at hT ⊢
      by_cases hn : f.name = name
      · rw [columnCell_cons_self hn]
        simp [columnCell,← hn,hfc,hi]
      · rw [columnCell_cons_of_ne hn]
        refine ih his ?_
        simpa [indexOf_cons,hn] using hT

theorem indexOf_append (h : S.indexOf name = some i) : Schema.indexOf (S++T) name = some i := by
  simp only [Schema.indexOf] at h ⊢
  rw [findIdx?_append,h]
  rfl

theorem shows_append (hr : S.conforms r) (f : Field) (c : Cell) : Shows S r (S++[f],r++[c]) := by
  intro name _ hS _
  obtain ⟨i,hi⟩ := Option.isSome_iff_exists.mp hS
  have hlt : i < r.length := by
    rw [Schema.conforms_length hr]
    exact Schema.indexOf_lt hi
  simp [columnCell,indexOf_append hi,hi,getElem?_append_left hlt]

variable {rows : List Row}

theorem mem_scoreRows (h : scoreRows score rows = .ok scored) : ∀ p ∈ scored, p.1 ∈ rows := by
  induction rows generalizing scored with
  | nil => cases h; simp
  | cons r rows ih =>
    obtain ⟨a,ha,h⟩ := bind_eq_ok.mp h
    obtain ⟨rest,hrest,h⟩ := bind_eq_ok.mp h
    cases h
    intro p hp
    rcases mem_append.mp hp with hp | hp
    · cases a with
      | none => simp at hp
      | some a => simp_all
    · exact mem_cons_of_mem _ (ih hrest p hp)

theorem labelled_searchRows (h : searchRows x limit scoreName descending scorer S rows = .ok bs) :
    ∀ b ∈ bs, b.schema = S++[⟨scoreName,.float32,false⟩] ∧
      ∀ r' ∈ b.rows, ∃ r ∈ rows, ∃ c, r' = r++[c] := by
  unfold searchRows at h
  split_ifs at h
  · cases h; simp
  · obtain ⟨score,_,h⟩ := bind_eq_ok.mp h
    obtain ⟨scored,hscored,h⟩ := bind_eq_ok.mp h
    dsimp only at h
    split_ifs at h
    · cases h; simp
    · obtain ⟨b,hb,rfl⟩ := map_eq_ok.mp h
      obtain ⟨hschema,hrows⟩ := RecordBatch.tryNew_eq_ok.mp hb
      intro b' hb'
      obtain rfl : b' = b := by simpa using hb'
      refine ⟨hschema,fun r' hr' => ?_⟩
      rw [hrows] at hr'
      obtain ⟨p,hp,rfl⟩ := mem_map.mp hr'
      obtain ⟨i,_,hi⟩ := mem_filterMap.mp (mem_of_mem_take hp)
      exact ⟨p.1,mem_scoreRows hscored p (mem_of_getElem? hi),_,rfl⟩

theorem shows_searchRows (hconf : ∀ r ∈ rows, S.conforms r)
    (h : searchRows x limit scoreName descending scorer S rows = .ok bs) :
    ∀ p ∈ labelled bs, ∃ r ∈ rows, Shows S r p := by
  intro p hp
  obtain ⟨b,hb,hp⟩ := mem_flatMap.mp hp
  obtain ⟨r',hr',rfl⟩ := mem_map.mp hp
  obtain ⟨hschema,hrows⟩ := labelled_searchRows h b hb
  obtain ⟨r,hr,c,rfl⟩ := hrows r' hr'
  refine ⟨r,hr,?_⟩
  rw [hschema]
  exact shows_append (hconf r hr) _ c

theorem rows_concatMemBatches (hT : Over T bs)
    (h : concatMemBatches bs = .ok b) : ∀ r ∈ b.rows, b.schema = T ∧ ∃ c ∈ bs, r ∈ c.rows := by
  cases bs with
  | nil => cases h; simp
  | cons c cs =>
    have hc : c.schema = T := hT c (by simp)
    rw [concatMemBatches,hc,concatBatches_of_over hT] at h
    cases h
    exact fun r hr => ⟨rfl,mem_allRows.mp hr⟩

section
variable (hconf : ∀ r ∈ rows, S.conforms r)
include hconf

theorem shows_concat_searchRows (h : searchRows x limit scoreName descending scorer S rows = .ok bs)
    (hb : concatMemBatches bs = .ok b) : ∀ r' ∈ b.rows, ∃ r ∈ rows, ∀ name, (S.indexOf name).isSome →
      (b.schema.indexOf name).isSome ∧ columnCell b.schema name r' = columnCell S name r := by
  have hl := labelled_searchRows h
  intro r' hr'
  obtain ⟨hschema,c,hc,hr'⟩ := rows_concatMemBatches (fun c hc => (hl c hc).1) hb r' hr'
  obtain ⟨r,hr,v,rfl⟩ := (hl c hc).2 r' hr'
  refine ⟨r,hr,fun name hname => ?_⟩
  obtain ⟨i,hi⟩ := Option.isSome_iff_exists.mp hname
  have hlt : i < r.length := by
    rw [Schema.conforms_length (hconf r hr)]
    exact Schema.indexOf_lt hi
  rw [hschema]
  simp [columnCell,indexOf_append hi,hi,getElem?_append_left hlt]

theorem shows_hybridRows (h : hybridRows x opts S rows = .ok bs) :
    ∀ p ∈ labelled bs, ∃ r ∈ rows, Shows S r p := by
  obtain ⟨vs,hvs,h⟩ := bind_eq_ok.mp h
  obtain ⟨fs,hfs,h⟩ := bind_eq_ok.mp h
  obtain ⟨v,hv,h⟩ := bind_eq_ok.mp h
  obtain ⟨f,hf,h⟩ := bind_eq_ok.mp h
  obtain ⟨out,hout,h⟩ := bind_eq_ok.mp h
  cases h
  have hshow : ∀ r' ∈ out.rows, ∃ r ∈ rows, Shows S r (out.schema,r') := by
    intro r' hr'
    obtain ⟨b,hb,q,hq,hcols⟩ := opts.reranker.reranks v f out hout r' hr'
    have hsrc : ∃ r ∈ rows, ∀ name, (S.indexOf name).isSome →
        (b.schema.indexOf name).isSome ∧ columnCell b.schema name q = columnCell S name r := by
      rcases mem_cons.mp hb with rfl | hb
      · exact shows_concat_searchRows hconf hvs hv q hq
      · obtain rfl : b = f := by simpa using hb
        exact shows_concat_searchRows hconf hfs hf q hq
    obtain ⟨r,hr,hcols'⟩ := hsrc
    refine ⟨r,hr,fun name hn hS hT => ?_⟩
    rw [hcols name hn (hcols' name hS).1 hT,(hcols' name hS).2]
  intro p hp
  obtain ⟨b,hb,hp⟩ := mem_flatMap.mp hp
  obtain ⟨r',hr',rfl⟩ := mem_map.mp hp
  obtain rfl := mem_singleton.mp hb
  split_ifs at hr' ⊢
  · exact hshow r' hr'
  · exact hshow r' (mem_of_mem_drop (mem_of_mem_take hr'))

theorem shows_presentRows (h : presentRows x.toKernels S opts rows = .ok out) :
    ∀ r' ∈ out, ∃ r ∈ rows, Shows S r (presentSchema S opts,r') := by
  obtain ⟨ordered,hord,h⟩ := bind_eq_ok.mp h
  obtain ⟨projected,hproj,h⟩ := bind_eq_ok.mp h
  cases h
  have hmem : ∀ r ∈ ordered, r ∈ rows := by
    cases ho : opts.orderBy with
    | none => rw [ho] at hord; cases hord; exact fun r hr => hr
    | some o =>
      rw [ho] at hord
      exact fun r hr => (orderRows_perm hord).mem_iff.mp hr
  have hshow : ∀ r' ∈ projected, ∃ r ∈ ordered, Shows S r (presentSchema S opts,r') := by
    unfold presentSchema
    cases hc : opts.columns with
    | none => rw [hc] at hproj; cases hproj; exact fun r hr => ⟨r,hr,Shows.refl S r⟩
    | some columns =>
      rw [hc,optionally_some,projectRows] at hproj
      split_ifs at hproj
      · cases hproj; simp
      · obtain ⟨is,his,rfl⟩ := map_eq_ok.mp hproj
        intro r' hr'
        obtain ⟨r,hr,rfl⟩ := mem_map.mp hr'
        refine ⟨r,hr,?_⟩
        simpa [projectSchema,his] using shows_project (hconf r (hmem r hr)) his
  intro r' hr'
  obtain ⟨r,hr,hs⟩ := hshow r' (mem_of_mem_drop (mem_of_mem_take hr'))
  exact ⟨r,hmem r hr,hs⟩
end

theorem answerRows_confined {S : NamespacedSchema} {D : Dataset S} {kind : ReadKind}
    {scanned matched : List Row} {ans : Answer} (hscan : ∀ r ∈ scanned, r ∈ D.visibleRows A)
    (hmatch : matched.Sublist (D.visibleRows A))
    (h : answerRows x S.schema kind scanned matched = .ok ans) : ans.Confined A D := by
  have hconf : ∀ r ∈ D.visibleRows A, S.schema.conforms r := fun r hr =>
    conforms_of_mem_allRows D.schema_eq (mem_of_mem_filter hr)
  have hmem : ∀ r ∈ matched, r ∈ D.visibleRows A := fun r hr => hmatch.subset hr
  have hlift : ∀ {l : List (Schema × Row)}, (∀ p ∈ l, ∃ r ∈ matched, Shows S.schema r p) →
      (Answer.rows l).Confined A D := fun hl p hp =>
    let ⟨r,hr,hs⟩ := hl p hp
    ⟨r,hmem r hr,hs⟩
  cases kind with
  | scan columns orderBy limit offset =>
    obtain ⟨out,hout,rfl⟩ := map_eq_ok.mp h
    intro p hp
    obtain ⟨r',hr',rfl⟩ := mem_map.mp hp
    obtain ⟨r,hr,hs⟩ := shows_presentRows (fun r hr => hconf r (hscan r hr)) hout r' hr'
    exact ⟨r,hscan r hr,hs⟩
  | count => cases h; exact hmatch.length_le
  | vectorSearch | ftsSearch | multivectorSearch =>
    obtain ⟨bs,hbs,rfl⟩ := map_eq_ok.mp h
    exact hlift (shows_searchRows (fun r hr => hconf r (hmem r hr)) hbs)
  | hybridSearch =>
    obtain ⟨bs,hbs,rfl⟩ := map_eq_ok.mp h
    exact hlift (shows_hybridRows (fun r hr => hconf r (hmem r hr)) hbs)

variable {x : Externals} {s : Session} {dataset : Text} {A : List Text} {S : NamespacedSchema}
    {fs : Filters}

theorem filter_filter_of_imp {α : Type*} {v k : α → Bool} (p : α → Bool) {l : List α}
    (h : ∀ a ∈ l, k a → v a) : (l.filter p).filter k = ((l.filter v).filter p).filter k := by
  simp only [filter_filter]
  refine filter_congr fun a ha => ?_
  cases hk : k a with
  | false => simp
  | true => simp [h a ha hk]

theorem isolated_of_safe (hs : resolveAllowed s = .ok (some A)) (hd : dataset ≠ resourceBlob)
    (hp : exactTest S.schema fs.exactFilter = .ok p) (hsafe : SafeFilter x A S fs.filter) :
    Isolated x s dataset A S fs := by
  obtain ⟨e,he,hm,hsafe⟩ := hsafe
  have hkeep : ∀ (D : Dataset S), ∀ r ∈ allRows D.batches,
      keeps x.toNumerics S.schema e false r = true → visible A S.schema r = true := by
    intro D r hr hk
    have htrue : evalRow x.toNumerics S.schema e r = some true := by simpa [keeps] using hk
    exact visible_of_match he hsafe (conforms_of_mem_allRows D.schema_eq hr) (D.named r hr) htrue
  have hread : ∀ (kind : ReadKind) (D : Dataset S) (st : MemoryStore),
      st.tables dataset = some D.batches → read x s dataset fs kind st =
        answerRows x S.schema kind
          (((D.visibleRows A).filter p).filter (keeps x.toNumerics S.schema e false))
          ((D.visibleRows A).filter (keeps x.toNumerics S.schema e false)) := by
    intro kind D st hst
    rw [read_eq hs hd hp he hm D hst kind,filter_filter_of_imp p (hkeep D)]
    congr 1
    have h := filter_filter_of_imp (fun _ => true) (hkeep D)
    simp only [filter_true] at h
    exact h
  have hconfined : ∀ (kind : ReadKind) (D : Dataset S) (st : MemoryStore) (ans : Answer),
      st.tables dataset = some D.batches → read x s dataset fs kind st = .ok ans →
        ans.Confined A D := by
    intro kind D st ans hst h
    rw [hread kind D st hst] at h
    exact answerRows_confined (fun r hr => mem_of_mem_filter (mem_of_mem_filter hr))
      filter_sublist h
  refine ⟨hconfined,?_,?_⟩
  · intro kind D D' st st' ans hst hst' hagree h
    rw [hread kind D st hst,hagree] at h
    rw [hread kind D' st' hst',h]
  · rintro rfl kind D st ans hst h
    have hnone : D.visibleRows [] = [] := by simp [Dataset.visibleRows,visible]
    have := hconfined kind D st ans hst h
    cases ans with
    | rows l =>
      refine eq_nil_iff_forall_not_mem.mpr fun q hq => ?_
      obtain ⟨r,hr,_⟩ := this q hq
      simp [hnone] at hr
    | count n =>
      change n ≤ (D.visibleRows []).length at this
      rw [hnone] at this
      exact Nat.le_zero.mp this

def MemoryStore.single (dataset : Text) (batches : List RecordBatch) : MemoryStore :=
  ⟨fun d => if d = dataset then some batches else none,fun _ => 0,fun _ => []⟩

@[simp] theorem MemoryStore.single_tables (dataset : Text) (batches : List RecordBatch) :
    (single dataset batches).tables dataset = some batches := by
  simp [single]

@[simp] theorem MemoryStore.single_table (dataset : Text) (batches : List RecordBatch) :
    (single dataset batches).table dataset = batches := by
  simp [table]

/-- The dataset without batches, and the one with a single batch of no rows. -/
def Dataset.empty (S : NamespacedSchema) : Dataset S := ⟨[],by simp [Over],by simp⟩

def Dataset.blank (S : NamespacedSchema) : Dataset S :=
  ⟨[⟨S.schema,[],by simp⟩],by simp [Over],by simp⟩

def Dataset.ofRow {S : NamespacedSchema} {r : Row} (h : Foreign A S r) : Dataset S :=
  ⟨[⟨S.schema,[r],by simp [h.conforms]⟩],by simp [Over],by simpa using h.named⟩

theorem Isolated.blank (h : Isolated x s dataset A S fs) (kind : ReadKind) (ans : Answer)
    (hread : read x s dataset fs kind (.single dataset []) = .ok ans) :
    read x s dataset fs kind (.single dataset (Dataset.blank S).batches) = .ok ans :=
  h.unchanged kind (Dataset.empty S) (Dataset.blank S) _ _ ans (by simp [Dataset.empty]) (by simp)
    (by simp [Dataset.visibleRows,Dataset.empty,Dataset.blank]) hread

section
variable (hs : PolicyStore.resolveAllowed s = .ok (some A))
include hs

theorem read_scan_eq (hd : dataset ≠ PolicyStore.resourceBlob) (batches : List RecordBatch) :
    read x s dataset fs (.scan none none none none) (.single dataset batches) =
      (applyScanOptions x batches
        ⟨some (PolicyStore.injectFilter fs.filter (PolicyStore.buildNamespacePredicate A)),
          fs.exactFilter,none,none,none,none⟩).map fun bs => .rows (labelled bs) := by
  simp [read,PolicyStore.scan,PolicyStore.enforceScan,enforceFilter_eq hs hd,MemoryStore.scan]

theorem read_count_eq (hd : dataset ≠ PolicyStore.resourceBlob) (batches : List RecordBatch) :
    read x s dataset fs .count (.single dataset batches) =
      (filterBatches x (PolicyStore.injectFilter fs.filter (PolicyStore.buildNamespacePredicate A))
        batches).map fun bs => .count (totalRowCount bs) := by
  simp only [read,PolicyStore.count,enforceFilter_eq hs hd,ok_bind,MemoryStore.count,
    MemoryStore.single_table,optionally_some]
  cases filterBatches x _ batches <;> rfl
end

/-- Isolated reads have an exact filter and a predicate that the schema accepts. -/
theorem accepted_of_isolated (hs : resolveAllowed s = .ok (some A))
    (hd : dataset ≠ resourceBlob) (h : Isolated x s dataset A S fs) :
    (∃ p, exactTest S.schema fs.exactFilter = .ok p) ∧
      ∃ e, parsePredicate x
        (injectFilter fs.filter (buildNamespacePredicate A)) = .ok e ∧
        missingColumn S.schema e = none := by
  set pred := injectFilter fs.filter (buildNamespacePredicate A) with hpred
  have hover := (Dataset.blank S).schema_eq
  -- a scan of the empty dataset answers before it looks at the filters
  have hscan := h.blank (.scan none none none none) (.rows [])
    (by rw [read_scan_eq hs hd]; simp [applyScanOptions,labelled])
  rw [read_scan_eq hs hd] at hscan
  obtain ⟨bs,hbs,_⟩ := map_eq_ok.mp hscan
  have hne : (Dataset.blank S).batches ≠ [] := by simp [Dataset.blank]
  obtain ⟨cs,hcs,hbs⟩ := bind_eq_ok.mp hbs
  obtain ⟨ds,hds,_⟩ := bind_eq_ok.mp hbs
  have hexact : ∃ p, exactTest S.schema fs.exactFilter = .ok p := by
    cases hx : fs.exactFilter with
    | none => exact ⟨_,rfl⟩
    | some f =>
      cases ht : f.test S.schema with
      | ok p => exact ⟨p,ht⟩
      | error err =>
        rw [show (⟨some pred,fs.exactFilter,none,none,none,none⟩ : ScanOptions).exactFilter = some f
          from hx,optionally_some,filterBatchesExact_error ht hover hne] at hcs
        cases hcs
  obtain ⟨e,he,_⟩ := bind_eq_ok.mp (show filterBatchesImpl x pred cs false = .ok ds from hds)
  refine ⟨hexact,e,he,?_⟩
  cases hm : missingColumn S.schema e with
  | none => rfl
  | some c =>
    have hcount := h.blank .count (.count 0) (by
      rw [read_count_eq hs hd,filterBatches,filterBatchesImpl,he]
      rfl)
    rw [read_count_eq hs hd,← hpred,filterBatches,filterBatchesImpl,he,ok_bind,
      filterLoop_missing hm false hover hne] at hcount
    cases hcount

theorem safe_of_isolated (hs : resolveAllowed s = .ok (some A))
    (hd : dataset ≠ resourceBlob) (h : Isolated x s dataset A S fs) :
    (∃ p, exactTest S.schema fs.exactFilter = .ok p) ∧ SafeFilter x A S fs.filter := by
  obtain ⟨hexact,e,he,hm⟩ := accepted_of_isolated hs hd h
  refine ⟨hexact,e,he,hm,fun f _ _ l hl r hr htrue => ?_⟩
  obtain ⟨p,hp⟩ := hexact
  have hmatch := evalRow_of_unguarded hl htrue
  have hread : read x s dataset fs .count (.single dataset (Dataset.ofRow hr).batches) =
      .ok (.count 1) := by
    rw [read_eq hs hd hp he hm (Dataset.ofRow hr) (by simp) .count]
    simp [answerRows,Dataset.ofRow,keeps,hmatch]
  have hconf := h.confined .count (Dataset.ofRow hr) _ _ (by simp) hread
  have hnone : (Dataset.ofRow hr).visibleRows A = [] := by
    simp [Dataset.visibleRows,Dataset.ofRow,hr.hidden]
  change 1 ≤ ((Dataset.ofRow hr).visibleRows A).length at hconf
  rw [hnone] at hconf
  simp at hconf

/-- Reads are isolated exactly when the exact filter and the guarded predicate are accepted, and what
the guard does not reach is true of no foreign row. -/
theorem isolated_iff_safeFilter {x : Externals} {s : Session} {dataset : Text} {A : List Text}
    {S : NamespacedSchema} {fs : Filters} (hs : PolicyStore.resolveAllowed s = .ok (some A))
    (hd : dataset ≠ PolicyStore.resourceBlob) :
    Isolated x s dataset A S fs ↔
      (∃ p, exactTest S.schema fs.exactFilter = .ok p) ∧ SafeFilter x A S fs.filter :=
  ⟨safe_of_isolated hs hd,fun ⟨⟨_,hp⟩,hsafe⟩ => isolated_of_safe hs hd hp hsafe⟩

def sampleSchema : NamespacedSchema := ⟨[⟨"namespace".toList,.utf8,true⟩],0,rfl,⟨_,rfl,rfl⟩⟩
def sampleSession : Session := ⟨some "alice".toList,fun _ => some ["mine".toList]⟩

theorem foreign_theirs : Foreign ["mine".toList] sampleSchema [.utf8 "theirs".toList] :=
  ⟨by decide,by decide,by decide⟩

theorem isolated_without_filter : Isolated asciiExternals sampleSession "semantic".toList
    ["mine".toList] sampleSchema ⟨none,none⟩ :=
  (isolated_iff_safeFilter rfl (by decide)).mpr
    ⟨⟨_,rfl⟩,guardExpr ["mine".toList],by decide +kernel,by decide,by simp⟩

/-- A filter that closes the parenthesis reads a row of another namespace. -/
theorem scan_escapes_guard : read asciiExternals sampleSession "semantic".toList
        ⟨some "namespace = 'theirs') OR (namespace = 'mine'".toList,none⟩ (.scan none none none none)
        (.single "semantic".toList (Dataset.ofRow foreign_theirs).batches) =
      .ok (.rows [(sampleSchema.schema,[.utf8 "theirs".toList])]) ∧
    ¬ Isolated asciiExternals sampleSession "semantic".toList ["mine".toList] sampleSchema
        ⟨some "namespace = 'theirs') OR (namespace = 'mine'".toList,none⟩ := by
  have hread : read asciiExternals sampleSession "semantic".toList
      ⟨some "namespace = 'theirs') OR (namespace = 'mine'".toList,none⟩ (.scan none none none none)
      (.single "semantic".toList (Dataset.ofRow foreign_theirs).batches) =
      .ok (.rows [(sampleSchema.schema,[.utf8 "theirs".toList])]) := by decide +kernel
  refine ⟨hread,fun h => ?_⟩
  obtain ⟨r,hr,_⟩ := h.confined _ (Dataset.ofRow foreign_theirs) _ _ (by simp) hread _
    (mem_singleton_self _)
  cases hr
end Hirn.Storage
