import Hirn.ScanOptions

/-! `MemoryStore`: the tables with their version history, the writes that step from one
state to the next, and the reads. -/
namespace Hirn.Storage
open FilterLang Fallible

/-- The maps of the store; a dataset without an entry does not exist. -/
structure MemoryStore where
  tables : Text → Option (List RecordBatch)
  versions : Text → ℕ
  snapshots : Text → List (List RecordBatch)

namespace MemoryStore
variable (x : Externals) (st : MemoryStore) (dataset : Text)

/-- `tables.get(dataset)` with `unwrap_or_default`. -/
def table : List RecordBatch := (st.tables dataset).getD []

/-- `bump_version`: version `0` is the empty state before the first write. -/
def bumpVersion (snapshot : List RecordBatch) : MemoryStore :=
  let version := st.versions dataset+1
  let hist := st.snapshots dataset
  let hist := if hist = [] then [[]] else hist
  let hist := hist++List.replicate (version-hist.length) []
  {st with
    versions := Function.update st.versions dataset version
    snapshots := Function.update st.snapshots dataset (hist++[snapshot])}

def setTable (batches : List RecordBatch) : MemoryStore :=
  bumpVersion {st with tables := Function.update st.tables dataset (some batches)} dataset batches

/-- `entry(dataset).or_default()`: the entry exists from then on. -/
def touch : MemoryStore :=
  {st with tables := Function.update st.tables dataset (some (st.table dataset))}

def append (dataset : Text) (b : RecordBatch) : MemoryStore :=
  st.setTable dataset (st.table dataset++[b])

def appendBatches (dataset : Text) (bs : List RecordBatch) : MemoryStore :=
  bs.foldl (fun st b => st.append dataset b) st

/-- The result of a write beside the state it leaves, also where it fails. -/
abbrev Write (α : Type) := Except StoreError α × MemoryStore

def delete (dataset predicate : Text) : Write ℕ :=
  let entry := st.table dataset
  let st := st.touch dataset
  if entry = [] then (.ok 0,st)
  else match filterBatches x predicate entry with
    | .error e => (.error e,st)
    | .ok matching =>
      if totalRowCount matching = 0 then (.ok 0,st)
      else match filterBatchesInverted x predicate entry with
        | .error e => (.error e,st)
        | .ok kept => (.ok (totalRowCount matching),st.setTable dataset kept)

/-- `cond.replace("target.", "")`. -/
def stripTarget : Text → Text
  | 't' :: 'a' :: 'r' :: 'g' :: 'e' :: 't' :: '.'::cs => stripTarget cs
  | c::cs => c::stripTarget cs
  | [] => []

def keyIndices (S : Schema) : List Text → Except StoreError (List ℕ)
  | [] => .ok []
  | column::on =>
    match S.indexOf column with
    | none => .error (.invalidArgument
        ("merge_insert key column `".toList++column++"` not found".toList))
    | some i => (keyIndices S on).map (i::·)

/-- `row_key`: the `Debug` texts of the key cells, joined by `|`. -/
def rowKey (S : Schema) (indices : List ℕ) (r : Row) : Text :=
  ['|'].intercalate (indices.map fun i =>
    x.debug ((S.map (·.dataType)).getD i .utf8) (r.getD i .null))

/-- The last row with that key: later insertions into the map win. -/
def lastWithKey (key : Text) (keys : List Text) : Option ℕ :=
  ((keys.zipIdx).filter fun k => k.1 = key).getLast?.map (·.2)

/-- The new row for the row at `i`: the last with its key, if its guard bit is set. -/
def overwriting (key : Row → Text) (allowed : ℕ → Bool) (keys : List Text) (new : List Row)
    (i : ℕ) : Option Row :=
  (new.filter fun r => lastWithKey (key r) keys = some i && allowed i).getLast?

/-- What `merge_insert` makes of the rows: matched ones are overwritten in place, unmatched new ones
appended. -/
def mergeRows (key : Row → Text) (allowed : ℕ → Bool) (existing new : List Row) : List Row :=
  let keys := existing.map key
  (existing.zipIdx.map fun p => (overwriting key allowed keys new p.2).getD p.1) ++
    new.filter fun r => (lastWithKey (key r) keys).isNone

/-- The new content of a table that is not empty. -/
def mergedBatches (b : RecordBatch) (indices : List ℕ) (condition : Option Text)
    (entry : List RecordBatch) : Except StoreError (List RecordBatch) := do
  let existing ← concatBatches b.schema entry
  let mask ← match condition with
    | some cond => (evaluatePredicateMask x cond existing).map some
    | none => .ok none
  let allowed := fun i => match mask with
    | some mask => mask.getD i false
    | none => true
  let rows := mergeRows (rowKey x b.schema indices) allowed existing.rows b.rows
  if rows = [] then .ok [] else (RecordBatch.tryNew b.schema rows).map ([·])

def mergeInsertWhere (dataset : Text) (on : List Text) (b : RecordBatch)
    (whenMatched : Option Text) : Write Unit :=
  if on = [] then
    (.error (.invalidArgument "merge_insert requires at least one key column".toList),st)
  else match keyIndices b.schema on with
    | .error e => (.error e,st)
    | .ok indices =>
      let entry := st.table dataset
      let st := st.touch dataset
      if entry = [] then (.ok (),st.setTable dataset [b])
      else match mergedBatches x b indices (whenMatched.map stripTarget) entry with
        | .error e => (.error e,st)
        | .ok batches => (.ok (),st.setTable dataset batches)

def trim (s : Text) : Text :=
  ((s.dropWhile isWhitespace).reverse.dropWhile isWhitespace).reverse

/-- The text before the first occurrence of `pat` and the text behind it. -/
def splitAtFirst (pat : Text) : Text → Option (Text × Text)
  | [] => if pat = [] then some ([],[]) else none
  | c::cs =>
    if pat.isPrefixOf (c::cs) then some ([],(c::cs).drop pat.length)
    else (splitAtFirst pat cs).map fun r => (c::r.1,r.2)

def stripPrefix (pat s : Text) : Option Text :=
  if pat.isPrefixOf s then some (s.drop pat.length) else none

def stripSuffix (pat s : Text) : Option Text :=
  (stripPrefix pat.reverse s.reverse).map List.reverse

variable (column expr : Text)

/-- `LEAST(col + delta, cap)` on a Float32 column: the new value of a cell. -/
def applyLeastIncrement (dt : DataType) : Option (Cell → Cell) := do
  let rest ← stripPrefix ("LEAST(".toList++column++" + ".toList) expr
  let (deltaText,tail) ← splitAtFirst [','] rest
  let delta ← x.parseF32 (trim deltaText)
  let capText ← stripSuffix [')'] (trim tail)
  let cap ← x.parseF32 (trim capText)
  if dt = .float32 then
    some fun
      | .float32 v => .float32 (x.minF32 (x.addF32 v delta) cap)
      | c => c
  else none

/-- `CAST(col * factor AS FLOAT)` on a Float32 column: the new value of a cell. -/
def applyFloatMultiply (dt : DataType) : Option (Cell → Cell) := do
  let rest ← stripPrefix ("CAST(".toList++column++" * ".toList) (trim expr)
  let (factorText,_) ← splitAtFirst " AS FLOAT)".toList rest
  let factor ← x.parseF32 (trim factorText)
  if dt = .float32 then
    some fun
      | .float32 v => .float32 (x.mulF32 v factor)
      | c => c
  else none

/-- One assignment on its column; arithmetic reads the column as before. -/
def assignment (dt : DataType) : Except StoreError (Cell → Cell) :=
  if trim expr = "true".toList then .ok fun _ => .boolean true
  else if trim expr = "false".toList then .ok fun _ => .boolean false
  else match applyLeastIncrement x column (trim expr) dt with
    | some f => .ok f
    | none => match applyFloatMultiply x column (trim expr) dt with
      | some f => .ok f
      | none => .error (.unsupported
          ("MemoryStore::update_where: expression '".toList++trim expr++"' not supported".toList))

/-- The assignments as position and function; a later one on a column wins. -/
def assignments (S : Schema) : List (Text × Text) → Except StoreError (List (ℕ × (Cell → Cell)))
  | [] => .ok []
  | (column,expr)::updates =>
    match S.indexOf column with
    | none => .error (.invalidArgument
        ("update_where: unknown column '".toList++column++"': ".toList++
        x.indexOfError (S.map (·.name)) column))
    | some i => do
      let f ← assignment x column expr ((S.map (·.dataType)).getD i .utf8)
      let fs ← assignments S updates
      return (i,f)::fs

def updateRow (fs : List (ℕ × (Cell → Cell))) (r : Row) : Row :=
  fs.foldl (fun acc p => acc.set p.1 (p.2 (r.getD p.1 .null))) r

/-- The new content of a table, changed rows in front, with their number; `none` for no match. -/
def updatedBatch (S : Schema) (batches : List RecordBatch) (filter : Text)
    (updates : List (Text × Text)) : Except StoreError (Option (ℕ × RecordBatch)) := do
  let matching ← filterBatches x filter batches
  let others ← filterBatchesInverted x filter batches
  if matching = [] then return none
  else
    let concat ← concatBatches S matching
    let fs ← assignments x S updates
    let changed ← RecordBatch.tryNew S (concat.rows.map (updateRow fs))
    let final ← concatBatches S (changed::others)
    return some (concat.numRows,final)

def updateWhere (st : MemoryStore) (dataset filter : Text) (updates : List (Text × Text)) : Write ℕ :=
  if updates = [] then (.ok 0,st)
  else match st.table dataset with
    | [] => (.ok 0,st)
    | first::rest => match updatedBatch x first.schema (first::rest) filter updates with
      | .error e => (.error e,st)
      | .ok none => (.ok 0,st)
      | .ok (some (n,final)) => (.ok n,st.setTable dataset [final])

structure VectorSearchOptions where
  column : Text
  query : List (BitVec 32)
  metric : DistanceMetric
  limit : ℕ
  filter : Option Text

structure FtsSearchOptions where
  columns : List Text
  query : Text
  limit : ℕ
  filter : Option Text

inductive MultivectorQuery
  | single (v : List (BitVec 32))
  | multi (vs : List (List (BitVec 32)))

structure MultivectorSearchOptions where
  column : Text
  query : MultivectorQuery
  limit : ℕ
  filter : Option Text

/-- A reranker makes one batch of two result sets: their rows with a relevance score. -/
structure Reranker where
  rerankHybrid : RecordBatch → RecordBatch → Except StoreError RecordBatch
  reranks : ∀ v f out, rerankHybrid v f = .ok out → ∀ r ∈ out.rows,
    ∃ b ∈ [v,f], ∃ r' ∈ b.rows, ∀ name, name ≠ "_relevance_score".toList →
      (b.schema.indexOf name).isSome → (out.schema.indexOf name).isSome →
      columnCell out.schema name r = columnCell b.schema name r'

structure HybridSearchOptions where
  vectorColumn : Text
  queryVector : List (BitVec 32)
  ftsColumns : List Text
  ftsQuery : Text
  metric : DistanceMetric
  limit : ℕ
  filter : Option Text
  reranker : Reranker

def scan (st : MemoryStore) (dataset : Text) (opts : ScanOptions) :
    Except StoreError (List RecordBatch) :=
  applyScanOptions x (st.table dataset) opts

def count (st : MemoryStore) (dataset : Text) (filter : Option Text) : Except StoreError ℕ :=
  (optionally filter (filterBatches x) (st.table dataset)).map totalRowCount

def getBatches (st : MemoryStore) (dataset : Text) : Except StoreError (List RecordBatch) :=
  match st.tables dataset with
  | some batches => .ok batches
  | none => .error (.datasetNotFound dataset)

/-- The scoring loop: rows without a score are left out, an error ends the search. -/
def scoreRows (score : Row → Except StoreError (Option (BitVec 32))) :
    List Row → Except StoreError (List (Row × BitVec 32))
  | [] => .ok []
  | r::rows => do
    let s ← score r
    let rest ← scoreRows score rows
    return (s.map fun s => (r,s)).toList++rest

/-- What the three searches share: the best `limit` rows, with the score as last column. -/
def rankRows (limit : ℕ) (scoreName : Text) (descending : Bool)
    (scorer : Schema → Except StoreError (Row → Except StoreError (Option (BitVec 32))))
    (S : Schema) (rows : List Row) : Except StoreError (List RecordBatch) := do
  let score ← scorer S
  let scored ← scoreRows score rows
  let ranked := (x.sortScores descending (scored.map (·.2))).filterMap (scored[·]?)
  let top := ranked.take limit
  if top = [] then .ok []
  else (RecordBatch.tryNew (S++[⟨scoreName,.float32,false⟩])
    (top.map fun p => p.1++[.float32 p.2])).map ([·])

/-- The filter comes before scoring; without rows left nothing else is looked at. -/
def searchWith (filter : Option Text) (limit : ℕ) (scoreName : Text) (descending : Bool)
    (scorer : Schema → Except StoreError (Row → Except StoreError (Option (BitVec 32))))
    (batches : List RecordBatch) : Except StoreError (List RecordBatch) :=
  optionally filter (filterBatches x) batches >>= fun batches =>
    match batches with
    | [] => .ok []
    | first::_ =>
      if batches.all fun b => b.numRows = 0 then .ok []
      else rankRows x limit scoreName descending scorer first.schema (allRows batches)

def searchColumn (S : Schema) (column : Text) : Except StoreError ℕ :=
  match S.indexOf column with
  | some i => .ok i
  | none => .error (.invalidArgument ("column `".toList++column++"` not found".toList))

def vectorScorer (opts : VectorSearchOptions) (S : Schema) :
    Except StoreError (Row → Except StoreError (Option (BitVec 32))) :=
  (searchColumn S opts.column).map fun i r =>
    match r.getD i .null with
    | .null => .ok none
    | .vector v => .ok (some (x.computeDistance opts.query v opts.metric))
    | _ => .error (.invalidArgument "vector column must be FixedSizeList<Float32>".toList)

def vectorSearchIn (opts : VectorSearchOptions) (batches : List RecordBatch) :
    Except StoreError (List RecordBatch) :=
  searchWith x opts.filter opts.limit "_distance".toList false (vectorScorer x opts) batches

/-- Occurrences of `pat` from the left, without overlaps; the fuel is the text's length. -/
def countMatches (pat : Text) : ℕ → Text → ℕ
  | 0, _ => 0
  | _+1, [] => 0
  | n+1, c::cs =>
    if pat.isPrefixOf (c::cs) then countMatches pat n ((c::cs).drop pat.length)+1
    else countMatches pat n cs

/-- `text.matches(pat).count()`; the empty pattern matches at every boundary. -/
def matchCount (pat text : Text) : ℕ :=
  if pat = [] then text.length+1 else countMatches pat text.length text

def searchColumns (S : Schema) : List Text → Except StoreError (List ℕ)
  | [] => .ok []
  | column::columns => do
    let i ← searchColumn S column
    let is ← searchColumns S columns
    return i::is

def ftsScorer (opts : FtsSearchOptions) (S : Schema) :
    Except StoreError (Row → Except StoreError (Option (BitVec 32))) :=
  (searchColumns S opts.columns).map fun is r =>
    let counts := is.filterMap fun i => match r.getD i .null with
      | .utf8 s => some (matchCount (x.toLowercase opts.query) (x.toLowercase s))
      | _ => none
    let score := x.sumCounts counts
    .ok (if x.isPositive score then some score else none)

def ftsSearchIn (opts : FtsSearchOptions) (batches : List RecordBatch) :
    Except StoreError (List RecordBatch) :=
  searchWith x opts.filter opts.limit "_score".toList true (ftsScorer x opts) batches

def queryVecs : MultivectorQuery → List (List (BitVec 32))
  | .single v => [v]
  | .multi vs => vs

/-- `extract_multivectors`; nulls are not skipped here. -/
def extractMultivectors (dt : DataType) (c : Cell) : Except StoreError (List (List (BitVec 32))) :=
  match dt, c with
  | .multivector, .multivector vs => .ok vs
  | .multivector, _ => .ok []
  | .vector, .vector v => .ok [v]
  | .vector, _ => .ok [x.nullVector]
  | _, _ => .error (.invalidArgument "column type not supported for multivector extraction".toList)

def multivectorScorer (opts : MultivectorSearchOptions) (S : Schema) :
    Except StoreError (Row → Except StoreError (Option (BitVec 32))) :=
  (searchColumn S opts.column).map fun i r =>
    (extractMultivectors x ((S.map (·.dataType)).getD i .utf8) (r.getD i .null)).map fun vs =>
      some (x.maxsimScore (queryVecs opts.query) vs)

def multivectorSearchIn (opts : MultivectorSearchOptions) (batches : List RecordBatch) :
    Except StoreError (List RecordBatch) :=
  searchWith x opts.filter opts.limit "_score".toList true (multivectorScorer x opts) batches

def concatMemBatches (batches : List RecordBatch) : Except StoreError RecordBatch :=
  match batches with
  | [] => .ok ⟨[],[],by simp⟩
  | b::_ => concatBatches b.schema batches

def hybridSearchIn (opts : HybridSearchOptions) (batches : List RecordBatch) :
    Except StoreError (List RecordBatch) := do
  let vectorResults ← vectorSearchIn x ⟨opts.vectorColumn,opts.queryVector,opts.metric,
    opts.limit*2 % 2^64,opts.filter⟩ batches
  let ftsResults ← ftsSearchIn x ⟨opts.ftsColumns,opts.ftsQuery,opts.limit*2 % 2^64,
    opts.filter⟩ batches
  let vecBatch ← concatMemBatches vectorResults
  let ftsBatch ← concatMemBatches ftsResults
  let reranked ← opts.reranker.rerankHybrid vecBatch ftsBatch
  return [if reranked.numRows ≤ opts.limit then reranked else reranked.slice 0 opts.limit]

def vectorSearch (opts : VectorSearchOptions) : Except StoreError (List RecordBatch) :=
  getBatches st dataset >>= vectorSearchIn x opts

def ftsSearch (opts : FtsSearchOptions) : Except StoreError (List RecordBatch) :=
  getBatches st dataset >>= ftsSearchIn x opts

def multivectorSearch (opts : MultivectorSearchOptions) : Except StoreError (List RecordBatch) :=
  getBatches st dataset >>= multivectorSearchIn x opts

def hybridSearch (opts : HybridSearchOptions) : Except StoreError (List RecordBatch) :=
  getBatches st dataset >>= hybridSearchIn x opts
end MemoryStore
end Hirn.Storage
