import Hirn.FilterSplice
import Hirn.MemoryStore

/-! `PolicyEnforcedStore`: the guards it puts in front of each operation of the store, as
predicate text spliced into the caller's, as a check of incoming batches, or both. -/
namespace Hirn.Storage
open FilterLang Fallible

/-- The task's principal and the policy's answers; `none` permits all namespaces. -/
structure Session where
  principal : Option Text
  policy : Text → Option (List Text)

namespace PolicyStore

def resourceBlob : Text := "_resource_blobs".toList

variable (s : Session)

def resolveAllowed : Except StoreError (Option (List Text)) :=
  match s.principal with
  | none => .error (.policyViolation "no principal set for current task".toList)
  | some p => .ok (s.policy p)

/-- The source wraps the text in a `Some` that never is `None`. -/
def buildNamespacePredicateFor (column : Text) (allowed : List Text) : Text :=
  if allowed = [] then column++" IN ('')".toList
  else column++" IN (".toList++quoteList allowed++[')']

def namespaceColumn : Text := "namespace".toList

def buildNamespacePredicate (allowed : List Text) : Text :=
  buildNamespacePredicateFor namespaceColumn allowed

def injectFilter (existing : Option Text) (nsPred : Text) : Text :=
  match existing with
  | some f => if f ≠ [] then '('::(f++") AND ".toList++nsPred) else nsPred
  | none => nsPred

variable (dataset : Text)

def shouldEnforceNamespaceFilter : Bool := dataset ≠ resourceBlob

/-- `enforce_scan` and `enforce_filter` on the filter text. -/
def enforceFilter (filter : Option Text) : Except StoreError (Option Text) :=
  if !shouldEnforceNamespaceFilter dataset then .ok filter
  else do
    match ← resolveAllowed s with
    | some allowed => return some (injectFilter filter (buildNamespacePredicate allowed))
    | none => return filter

def enforceScan (opts : ScanOptions) : Except StoreError ScanOptions :=
  (enforceFilter s dataset opts.filter).map fun f => {opts with filter := f}

def enforceDeletePredicate (dataset predicate : Text) : Except StoreError Text :=
  if !shouldEnforceNamespaceFilter dataset then .ok predicate
  else do
    match ← resolveAllowed s with
    | some allowed => return '('::(predicate++") AND ".toList++buildNamespacePredicate allowed)
    | none => return predicate

/-- The values of a namespace column, checked in order; nulls are skipped. -/
def checkNamespaces (allowed : List Text) : List Cell → Except StoreError Unit
  | [] => .ok ()
  | .utf8 ns::cells =>
    if allowed.contains ns then checkNamespaces allowed cells
    else .error (.policyViolation
      ("write to namespace '".toList++ns++"' denied for current principal".toList))
  | _::cells => checkNamespaces allowed cells

def enforceAppend (b : RecordBatch) : Except StoreError Unit := do
  match ← resolveAllowed s with
  | none => return ()
  | some allowed =>
    match b.schema.indexOf namespaceColumn with
    | none => return ()
    | some i =>
      if (b.schema.map (·.dataType)).getD i .boolean = .utf8 then
        checkNamespaces allowed (b.rows.map (·.getD i .null))
      else .error (.policyViolation "namespace column is not Utf8".toList)

def targetNamespaceColumn : Text := "target.namespace".toList

/-- The condition that `enforce_merge_insert` hands to the store. -/
def mergeCondition (caller : Option Text) : Except StoreError (Option Text) := do
  let policy ← if shouldEnforceNamespaceFilter dataset then
      (resolveAllowed s).map fun a => a.map (buildNamespacePredicateFor targetNamespaceColumn)
    else .ok none
  return match caller, policy with
    | some caller, some policy => some ('('::(caller++") AND (".toList++policy++[')']))
    | some caller, none => some caller
    | none, some policy => some policy
    | none, none => none

open MemoryStore (Write)
variable (x : Externals) (s : Session)

def append (st : MemoryStore) (dataset : Text) (b : RecordBatch) : Write Unit :=
  match enforceAppend s b with
  | .error e => (.error e,st)
  | .ok () => (.ok (),st.append dataset b)

def enforceAll : List RecordBatch → Except StoreError Unit
  | [] => .ok ()
  | b::bs => do
    enforceAppend s b
    enforceAll bs

def appendBatches (st : MemoryStore) (dataset : Text) (bs : List RecordBatch) : Write Unit :=
  match enforceAll s bs with
  | .error e => (.error e,st)
  | .ok () => (.ok (),st.appendBatches dataset bs)

def maxStreamBatchRows : ℕ := 50000

/-- The loop of `append_stream`; flushed batches stay when a later one fails. -/
def streamLoop (dataset : Text) (buffer : List RecordBatch) (bufferedRows : ℕ) :
    List (Except StoreError RecordBatch) → MemoryStore → Write Unit
  | [], st => (.ok (),if buffer = [] then st else st.appendBatches dataset buffer)
  | .error e::_, st => (.error e,st)
  | .ok b::stream, st =>
    if b.numRows = 0 then streamLoop dataset buffer bufferedRows stream st
    else match enforceAppend s b with
      | .error e => (.error e,st)
      | .ok () =>
        if maxStreamBatchRows ≤ bufferedRows+b.numRows then
          streamLoop dataset [] 0 stream (st.appendBatches dataset (buffer++[b]))
        else streamLoop dataset (buffer++[b]) (bufferedRows+b.numRows) stream st

variable (st : MemoryStore)

def appendStream (dataset : Text) (stream : List (Except StoreError RecordBatch)) : Write Unit :=
  streamLoop s dataset [] 0 stream st

def delete (dataset predicate : Text) : Write ℕ :=
  match enforceDeletePredicate s dataset predicate with
  | .error e => (.error e,st)
  | .ok predicate => st.delete x dataset predicate

def updateWhere (dataset filter : Text) (updates : List (Text × Text)) : Write ℕ :=
  match enforceDeletePredicate s dataset filter with
  | .error e => (.error e,st)
  | .ok filter => st.updateWhere x dataset filter updates

def mergeInsertWhere (dataset : Text) (on : List Text) (b : RecordBatch)
    (whenMatched : Option Text) : Write Unit :=
  match enforceAppend s b >>= fun _ => mergeCondition s dataset whenMatched with
  | .error e => (.error e,st)
  | .ok condition => st.mergeInsertWhere x dataset on b condition

def mergeInsert (dataset : Text) (on : List Text) (b : RecordBatch) : Write Unit :=
  mergeInsertWhere x s st dataset on b none

variable (x : Externals) (s : Session) (st : MemoryStore) (dataset : Text)

def scan (opts : ScanOptions) : Except StoreError (List RecordBatch) :=
  enforceScan s dataset opts >>= fun opts => st.scan x dataset opts

def count (filter : Option Text) : Except StoreError ℕ :=
  enforceFilter s dataset filter >>= fun filter => st.count x dataset filter

def vectorSearch (opts : MemoryStore.VectorSearchOptions) : Except StoreError (List RecordBatch) :=
  enforceFilter s dataset opts.filter >>= fun f => st.vectorSearch x dataset {opts with filter := f}

def ftsSearch (opts : MemoryStore.FtsSearchOptions) : Except StoreError (List RecordBatch) :=
  enforceFilter s dataset opts.filter >>= fun f => st.ftsSearch x dataset {opts with filter := f}

def multivectorSearch (opts : MemoryStore.MultivectorSearchOptions) :
    Except StoreError (List RecordBatch) :=
  enforceFilter s dataset opts.filter >>= fun f =>
    st.multivectorSearch x dataset {opts with filter := f}

def hybridSearch (opts : MemoryStore.HybridSearchOptions) : Except StoreError (List RecordBatch) :=
  enforceFilter s dataset opts.filter >>= fun f => st.hybridSearch x dataset {opts with filter := f}
end PolicyStore
end Hirn.Storage
