import Hirn.PolicyReads

/-! The frame of policy-enforced writes: which requests leave the multiset of rows outside
the allow-list as it was. Appends are checked row by row, deletions and updates guarded by
a spliced predicate. -/
namespace Hirn.Storage
open FilterLang Fallible List PolicyStore MemoryStore Dataset
variable {r : Row}

def namedRow (S : Schema) (r : Row) : List (Text × Cell) := (S.map (·.name)).zip r

def foreignRows (A : List Text) (batches : List RecordBatch) : List (List (Text × Cell)) :=
  batches.flatMap fun b => (b.rows.filter fun r => !visible A b.schema r).map (namedRow b.schema)

inductive WriteRequest
  | append (b : RecordBatch)
  | appendBatches (bs : List RecordBatch)
  | appendStream (stream : List (Except StoreError RecordBatch))
  | delete (predicate : Text)
  | updateWhere (filter : Text) (updates : List (Text × Text))
  | mergeInsert (on : List Text) (b : RecordBatch)
  | mergeInsertWhere (on : List Text) (b : RecordBatch) (whenMatched : Option Text)

/-- The state that a request leaves, whether it succeeds or fails. -/
def write (x : Externals) (s : Session) (dataset : Text) (req : WriteRequest) (st : MemoryStore) :
    MemoryStore :=
  match req with
  | .append b => (PolicyStore.append s st dataset b).2
  | .appendBatches bs => (PolicyStore.appendBatches s st dataset bs).2
  | .appendStream stream => (PolicyStore.appendStream s st dataset stream).2
  | .delete predicate => (PolicyStore.delete x s st dataset predicate).2
  | .updateWhere filter updates => (PolicyStore.updateWhere x s st dataset filter updates).2
  | .mergeInsert on b => (PolicyStore.mergeInsert x s st dataset on b).2
  | .mergeInsertWhere on b whenMatched =>
    (PolicyStore.mergeInsertWhere x s st dataset on b whenMatched).2

/-- Whatever the dataset holds, the rows outside `A` stay. -/
def Framed (x : Externals) (s : Session) (dataset : Text) (A : List Text) (S : NamespacedSchema)
    (req : WriteRequest) : Prop :=
  ∀ (D : Dataset S) (st : MemoryStore), st.tables dataset = some D.batches →
    (foreignRows A ((write x s dataset req st).table dataset)).Perm (foreignRows A D.batches)

variable (st : MemoryStore) (dataset : Text)

@[simp] theorem table_setTable (batches : List RecordBatch) :
    (st.setTable dataset batches).table dataset = batches := by
  simp [setTable,bumpVersion,table]

@[simp] theorem table_touch : (st.touch dataset).table dataset = st.table dataset := by
  simp [touch,table]

@[simp] theorem table_append (b : RecordBatch) :
    (st.append dataset b).table dataset = st.table dataset++[b] := by
  simp [MemoryStore.append]

@[simp] theorem table_appendBatches (bs : List RecordBatch) :
    (st.appendBatches dataset bs).table dataset = st.table dataset++bs := by
  induction bs generalizing st with
  | nil => simp [MemoryStore.appendBatches]
  | cons b bs ih =>
    have h := ih (st.append dataset b)
    rw [table_append,append_assoc] at h
    exact h

variable {A : List Text}

@[simp] theorem foreignRows_nil : foreignRows A [] = [] := rfl

@[simp] theorem foreignRows_append (as bs : List RecordBatch) :
    foreignRows A (as++bs) = foreignRows A as++foreignRows A bs := by simp [foreignRows]

theorem foreignRows_singleton (b : RecordBatch) :
    foreignRows A [b] = (b.rows.filter fun r => !visible A b.schema r).map (namedRow b.schema) := by
  simp [foreignRows]

theorem foreignRows_of_over {S : Schema} (h : Over S bs) :
    foreignRows A bs = ((allRows bs).filter fun r => !visible A S r).map (namedRow S) := by
  induction bs with
  | nil => rfl
  | cons b bs ih =>
    have hb := h b (by simp)
    have := ih fun c hc => h c (by simp [hc])
    simp_all [foreignRows]

theorem foreignRows_eq_nil : foreignRows A bs = [] ↔ ∀ b ∈ bs, ∀ r ∈ b.rows, visible A b.schema r := by
  simp [foreignRows]

variable {final : RecordBatch} {st : MemoryStore} {S : NamespacedSchema} {n : ℕ} {x : Externals}
  {dataset pred : Text} {D : List RecordBatch} {s : Session}

section

def Namespaced (b : RecordBatch) : Prop := ∀ r ∈ b.rows, namespaceCell b.schema r ≠ .null

theorem checkNamespaces_ok : checkNamespaces A cells = .ok () ↔ ∀ ns, .utf8 ns ∈ cells → ns ∈ A := by
  induction cells with
  | nil => simp [checkNamespaces]
  | cons c cells ih =>
    cases c with
    | utf8 ns =>
      rw [checkNamespaces]
      split_ifs with h <;> rw [contains_iff_mem] at h
      · rw [ih]; simp [h]
      · simpa using fun h' => absurd h' h
    | _ => simp [checkNamespaces,ih]

theorem visible_of_enforceAppend (hs : resolveAllowed s = .ok (some A))
    (h : enforceAppend s b = .ok ()) (hr : r ∈ b.rows) : visible A b.schema r ↔
    namespaceCell b.schema r ≠ .null := by
  rw [enforceAppend,hs,ok_bind] at h
  cases hi : b.schema.indexOf namespaceColumn with
  | none => simp [visible,namespaceCell,columnCell,hi]
  | some i =>
    rw [hi] at h
    dsimp only at h
    split_ifs at h with ht
    obtain ⟨f,hf,_⟩ := Schema.name_of_indexOf hi
    have hft : f.dataType = .utf8 := by simpa [hf] using ht
    have hadm := Schema.admits_of_conforms (b.wf r hr) hf
    rw [Field.admits,hft,Bool.and_eq_true] at hadm
    have hcell : namespaceCell b.schema r = r.getD i .null := by simp [namespaceCell,columnCell,hi]
    rcases Cell.hasType_utf8 hadm.2 with hn | ⟨ns,hns⟩
    · simp only [visible,hcell,hn]
      simp
    · have hmem : ns ∈ A := checkNamespaces_ok.mp h ns (hns ▸ mem_map_of_mem hr)
      simp only [visible,hcell,hns]
      simpa using hmem

theorem foreignRows_of_enforceAppend (hs : resolveAllowed s = .ok (some A))
    (h : ∀ b ∈ bs, enforceAppend s b = .ok ()) : foreignRows A bs = [] ↔ ∀ b ∈ bs, Namespaced b := by
  rw [foreignRows_eq_nil]
  exact forall₂_congr fun b hb => forall₂_congr fun r hr => visible_of_enforceAppend hs (h b hb) hr

theorem enforceAll_ok : enforceAll s bs = .ok () ↔ ∀ b ∈ bs, enforceAppend s b = .ok () := by
  induction bs with
  | nil => simp [enforceAll]
  | cons b bs ih =>
    rw [enforceAll,bind_eq_ok,forall_mem_cons,← ih]
    exact ⟨fun ⟨_,hb,h⟩ => ⟨hb,h⟩,fun ⟨hb,h⟩ => ⟨_,hb,h⟩⟩

/-- The batches of a stream that reach the store: those before the first failure up to the last flush,
or all. -/
def storedBatches (s : Session) (buffer : List RecordBatch) (bufferedRows : ℕ) :
    List (Except StoreError RecordBatch) → List RecordBatch
  | [] => buffer
  | .error _::_ => []
  | .ok b::stream =>
    if b.numRows = 0 then storedBatches s buffer bufferedRows stream
    else match PolicyStore.enforceAppend s b with
      | .error _ => []
      | .ok () =>
        if PolicyStore.maxStreamBatchRows ≤ bufferedRows+b.numRows then
          buffer++[b]++storedBatches s [] 0 stream
        else storedBatches s (buffer++[b]) (bufferedRows+b.numRows) stream

theorem table_streamLoop (dataset : Text) (buffer : List RecordBatch) (n : ℕ)
    (stream : List (Except StoreError RecordBatch)) (st : MemoryStore) :
    (streamLoop s dataset buffer n stream st).2.table dataset =
      st.table dataset++storedBatches s buffer n stream := by
  induction stream generalizing buffer n st with
  | nil =>
    rw [streamLoop,storedBatches]
    by_cases hb : buffer = [] <;> simp [hb]
  | cons a stream ih =>
    cases a with
    | error e => simp [streamLoop,storedBatches]
    | ok b =>
      rw [streamLoop,storedBatches]
      by_cases h0 : b.numRows = 0
      · simpa only [h0,if_true] using ih buffer n st
      · cases hb : enforceAppend s b with
        | error e => simp [h0]
        | ok _ =>
          by_cases hflush : maxStreamBatchRows ≤ n+b.numRows
          · simp [h0,hflush,ih]
          · simpa only [h0,if_false,hflush] using ih (buffer++[b]) (n+b.numRows) st

theorem enforceAppend_storedBatches (h : ∀ b ∈ buffer, enforceAppend s b = .ok ()) :
    ∀ b ∈ storedBatches s buffer n stream, enforceAppend s b = .ok () := by
  induction stream generalizing buffer n with
  | nil => exact h
  | cons a stream ih =>
    cases a with
    | error e => simp [storedBatches]
    | ok c =>
      rw [storedBatches]
      by_cases h0 : c.numRows = 0
      · simpa only [h0,if_true] using ih h
      · cases hc : enforceAppend s c with
        | error e => simp [h0]
        | ok _ =>
          have hbuf : ∀ b ∈ buffer++[c], enforceAppend s b = .ok () := by
            intro b hb
            rcases mem_append.mp hb with hb | hb
            · exact h b hb
            · exact (mem_singleton.mp hb) ▸ hc
          by_cases hflush : maxStreamBatchRows ≤ n+c.numRows
          · simp only [h0,hflush]
            intro b hb
            rcases mem_append.mp hb with hb | hb
            · exact hbuf b hb
            · exact ih (by simp) b hb
          · simpa only [h0,if_false,hflush] using ih hbuf
end
section

theorem table_of_tables {batches : List RecordBatch}
    (h : st.tables dataset = some batches) : st.table dataset = batches := by
  simp [table,h]

theorem framed_iff_of_adds {req : WriteRequest} (bs : List RecordBatch)
    (h : ∀ st, (write x s dataset req st).table dataset = st.table dataset++bs) :
    Framed x s dataset A S req ↔ foreignRows A bs = [] := by
  constructor
  · intro hf
    have := hf (empty S) (.single dataset []) (by simp [empty])
    rw [h] at this
    simpa [empty] using this
  · intro hnil D st hst
    rw [h,table_of_tables hst,foreignRows_append,hnil,append_nil]

variable (hs : resolveAllowed s = .ok (some A))
include hs

theorem framed_append_iff (b : RecordBatch) : Framed x s dataset A S (.append b) ↔
      (enforceAppend s b = .ok () → Namespaced b) := by
  cases hb : enforceAppend s b with
  | error e =>
    rw [framed_iff_of_adds [] fun st => by simp [write,PolicyStore.append,hb]]
    simp
  | ok _ =>
    rw [framed_iff_of_adds [b] fun st => by simp [write,PolicyStore.append,hb],
      foreignRows_of_enforceAppend hs (by simpa using hb)]
    simp

theorem framed_appendBatches_iff (bs : List RecordBatch) : Framed x s dataset A S (.appendBatches bs) ↔
      ((∀ b ∈ bs, enforceAppend s b = .ok ()) → ∀ b ∈ bs, Namespaced b) := by
  cases hb : enforceAll s bs with
  | error e =>
    have hne : ¬ ∀ b ∈ bs, enforceAppend s b = .ok () := fun h => by
      rw [enforceAll_ok.mpr h] at hb
      cases hb
    rw [framed_iff_of_adds [] fun st => by simp [write,PolicyStore.appendBatches,hb]]
    simp [hne]
  | ok _ =>
    have hall := enforceAll_ok.mp hb
    rw [framed_iff_of_adds bs fun st => by simp [write,PolicyStore.appendBatches,hb],
      foreignRows_of_enforceAppend hs hall]
    exact ⟨fun h _ => h,fun h => h hall⟩

theorem framed_appendStream_iff (stream : List (Except StoreError RecordBatch)) :
    Framed x s dataset A S (.appendStream stream) ↔ ∀ b ∈ storedBatches s [] 0 stream,
    Namespaced b := by
  rw [framed_iff_of_adds (storedBatches s [] 0 stream) fun st => by
    simp [write,appendStream,table_streamLoop]]
  exact foreignRows_of_enforceAppend hs (enforceAppend_storedBatches (by simp))
end

theorem enforceDeletePredicate_eq (hs : resolveAllowed s = .ok (some A))
    (hd : dataset ≠ resourceBlob) (predicate : Text) :
    enforceDeletePredicate s dataset predicate = .ok (guarded A predicate) := by
  simp [enforceDeletePredicate,shouldEnforceNamespaceFilter,hd,hs,guarded]

def ReachesOnly (x : Externals) (A : List Text) (S : NamespacedSchema) (predicate : Text)
    (P : Row → Prop) : Prop :=
  ∀ e, parsePredicate x (guarded A predicate) = .ok e → missingColumn S.schema e = none →
    ∀ l ∈ unguarded predicate e, ∀ r, Foreign A S r →
      evalRow x.toNumerics S.schema l r = some true → P r

theorem foreign_of_mem {D : Dataset S} (hr : r ∈ allRows D.batches)
    (hv : visible A S.schema r = false) : Foreign A S r :=
  ⟨conforms_of_mem_allRows D.schema_eq hr,D.named r hr,hv⟩

theorem filterBatchesImpl_error (hD : Over S.schema D)
    (hne : D ≠ []) (invert : Bool) (h : ∀ e, parsePredicate x pred = .ok e →
    missingColumn S.schema e ≠ none) : ∃ err, filterBatchesImpl x pred D invert = .error err := by
  rw [filterBatchesImpl]
  cases he : parsePredicate x pred with
  | error err => exact ⟨err,rfl⟩
  | ok e =>
    obtain ⟨c,hc⟩ := Option.ne_none_iff_exists'.mp (h e he)
    exact ⟨_,filterLoop_missing hc invert hD hne⟩

/-- A deletion leaves the rows the predicate is not true of, or all if it is refused. -/
theorem table_delete (pred : Text) (st : MemoryStore) (hst : st.table dataset = D)
    (hD : Over S.schema D) :
    ((∀ e, parsePredicate x pred = .ok e → missingColumn S.schema e ≠ none) →
      (st.delete x dataset pred).2.table dataset = D) ∧
    ∀ e, parsePredicate x pred = .ok e → missingColumn S.schema e = none →
      Over S.schema ((st.delete x dataset pred).2.table dataset) ∧
      allRows ((st.delete x dataset pred).2.table dataset) =
        (allRows D).filter (keeps x.toNumerics S.schema e true) := by
  by_cases hne : D = []
  · have htable : (st.delete x dataset pred).2.table dataset = D := by
      simp [MemoryStore.delete,hst,hne]
    refine ⟨fun _ => htable,fun e _ _ => ?_⟩
    rw [htable]
    exact ⟨hD,by simp [hne]⟩
  · refine ⟨fun h => ?_,fun e he hm => ?_⟩
    · obtain ⟨err,herr⟩ := filterBatchesImpl_error hD hne false h
      simp [MemoryStore.delete,hst,hne,filterBatches,herr]
    · obtain ⟨ms,hms,hm1⟩ := filterBatches_ok he hm false hD
      obtain ⟨ks,hks,hk1⟩ := filterBatches_ok he hm true hD
      by_cases hz : totalRowCount ms = 0
      · have htable : (st.delete x dataset pred).2.table dataset = D := by
          simp [MemoryStore.delete,hst,filterBatches,hms,hz]
        rw [htable]
        refine ⟨hD,?_⟩
        rw [totalRowCount_eq,hm1.rows_eq,length_eq_zero_iff,filter_eq_nil_iff] at hz
        refine (filter_eq_self.mpr fun r hr => ?_).symm
        simpa [keeps] using hz r hr
      · have htable : (st.delete x dataset pred).2.table dataset = ks := by
          simp [MemoryStore.delete,hst,hne,filterBatches,filterBatchesInverted,hms,hz,hks]
        rw [htable]
        exact ⟨hk1.schema_eq,hk1.rows_eq⟩

theorem framed_delete_iff (hs : PolicyStore.resolveAllowed s = .ok (some A))
    (hd : dataset ≠ PolicyStore.resourceBlob) (predicate : Text) :
    Framed x s dataset A S (.delete predicate) ↔ ReachesOnly x A S predicate fun _ => False := by
  have hw : ∀ st, write x s dataset (.delete predicate) st =
      (st.delete x dataset (guarded A predicate)).2 := fun st => by
    simp [write,PolicyStore.delete,enforceDeletePredicate_eq hs hd]
  constructor
  · intro hf e he hm l hl r hr htrue
    have hmatch := evalRow_of_unguarded hl htrue
    have h := hf (ofRow hr) (.single dataset (ofRow hr).batches) (by simp)
    obtain ⟨hover,hrows⟩ := (table_delete (guarded A predicate)
      (.single dataset (ofRow hr).batches) (MemoryStore.single_table _ _)
      (ofRow hr).schema_eq).2 e he hm
    rw [hw,foreignRows_of_over hover,hrows,foreignRows_of_over (ofRow hr).schema_eq] at h
    simpa [ofRow,keeps,hmatch,hr.hidden] using h.length_eq
  · intro hsafe D st hst
    obtain ⟨hbad,hgood⟩ := table_delete (x := x) (guarded A predicate) st
      (table_of_tables hst) D.schema_eq
    rw [hw]
    by_cases hacc : ∃ e, parsePredicate x (guarded A predicate) = .ok e ∧
        missingColumn S.schema e = none
    · obtain ⟨e,he,hm⟩ := hacc
      obtain ⟨hover,hrows⟩ := hgood e he hm
      rw [foreignRows_of_over hover,hrows,foreignRows_of_over D.schema_eq,filter_filter]
      refine List.Perm.of_eq (congrArg _ (filter_congr fun r hr => ?_))
      cases hv : visible A S.schema r with
      | true => simp
      | false =>
        have hforeign := foreign_of_mem hr hv
        have hnot : evalRow x.toNumerics S.schema e r ≠ some true := by
          intro htrue
          obtain ⟨l,hl,hltrue⟩ := unguarded_of_match he hforeign htrue
          exact hsafe e he hm l hl r hforeign hltrue
        simp [keeps,hnot]
    · rw [hbad fun e he hm => hacc ⟨e,he,hm⟩]

open MemoryStore (updateRow assignments assignment)

theorem assignment_utf8 (h : assignment x column expr .utf8 = .ok f) (c : Cell) :
    ∃ b, f c = .boolean b := by
  unfold assignment at h
  split_ifs at h
  · cases h; exact ⟨_,rfl⟩
  · cases h; exact ⟨_,rfl⟩
  · have h1 : applyLeastIncrement x column (trim expr) .utf8 = none := by
      unfold applyLeastIncrement
      simp
    have h2 : applyFloatMultiply x column (trim expr) .utf8 = none := by
      unfold applyFloatMultiply
      simp
    simp [h1,h2] at h

variable {updates : List (Text × Text)} {fs : List (ℕ × (Cell → Cell))}

theorem assignments_utf8 (h : assignments x T updates = .ok fs) :
    ∀ p ∈ fs, ∀ g, T[p.1]? = some g → g.dataType = .utf8 → ∀ c, ∃ b, p.2 c = .boolean b := by
  induction updates generalizing fs with
  | nil => cases h; simp
  | cons u us ih =>
    rw [assignments] at h
    split at h
    · cases h
    next i hi =>
      obtain ⟨f,hf,h⟩ := bind_eq_ok.mp h
      obtain ⟨rest,hrest,h⟩ := bind_eq_ok.mp h
      cases h
      intro p hp g hg hgt c
      rcases mem_cons.mp hp with rfl | hp
      · rw [getD_eq_getElem?_getD,getElem?_map,hg,Option.map_some,hgt] at hf
        exact assignment_utf8 hf c
      · exact ih hrest p hp g hg hgt c

theorem getD_updateRow (fs : List (ℕ × (Cell → Cell))) (r : Row) (hi : i < r.length) :
    (updateRow fs r).getD i .null = r.getD i .null ∨
      ∃ p ∈ fs, p.1 = i ∧ (updateRow fs r).getD i .null = p.2 (r.getD i .null) := by
  suffices H : ∀ (fs : List (ℕ × (Cell → Cell))) (acc : Row), i < acc.length →
      (fs.foldl (fun acc p => acc.set p.1 (p.2 (r.getD p.1 .null))) acc).getD i .null =
        acc.getD i .null ∨
      ∃ p ∈ fs, p.1 = i ∧
        (fs.foldl (fun acc p => acc.set p.1 (p.2 (r.getD p.1 .null))) acc).getD i .null =
          p.2 (r.getD i .null) from H fs r hi
  intro fs
  induction fs with
  | nil => exact fun acc _ => .inl rfl
  | cons q fs ih =>
    intro acc hacc
    rcases ih (acc.set q.1 (q.2 (r.getD q.1 .null))) (by simpa using hacc) with h | ⟨p,hp,hpi,h⟩
    · by_cases hq : q.1 = i
      · refine .inr ⟨q,by simp,hq,?_⟩
        rw [foldl_cons,h,hq]
        simp [hacc]
      · rw [foldl_cons,h]
        simp [getElem?_set_ne hq]
    · exact .inr ⟨p,by simp [hp],hpi,h⟩

theorem namespaceCell_updateRow (hfs : assignments x S.schema updates = .ok fs)
    (hr : S.schema.conforms r) (hr' : S.schema.conforms (updateRow fs r)) :
    namespaceCell S.schema (updateRow fs r) = namespaceCell S.schema r := by
  obtain ⟨f,hf,hft⟩ := S.utf8
  have hlt : S.index < r.length := by
    rw [Schema.conforms_length hr]
    exact Schema.indexOf_lt S.indexOf_eq
  have hcell : ∀ r, namespaceCell S.schema r = r.getD S.index .null := fun r => by
    simp [namespaceCell,columnCell,S.indexOf_eq]
  rw [hcell,hcell]
  rcases getD_updateRow fs r hlt with h | ⟨p,hp,hpi,h⟩
  · exact h
  · obtain ⟨b,hb⟩ := assignments_utf8 hfs p hp f (hpi ▸ hf) hft (r.getD S.index .null)
    have hadm := Schema.admits_of_conforms hr' hf
    rw [h,hb,Field.admits,hft] at hadm
    simp [Cell.hasType] at hadm

/-- An accepted update puts its assignments on the matching rows in front. -/
theorem updatedBatch_eq (updates : List (Text × Text)) (hD : Over S.schema D)
    (he : parsePredicate x pred = .ok e)
    (hm : missingColumn S.schema e = none) : updatedBatch x S.schema D pred updates =
      let matched := (allRows D).filter (keeps x.toNumerics S.schema e false)
      let others := (allRows D).filter (keeps x.toNumerics S.schema e true)
      if matched = [] then .ok none
      else assignments x S.schema updates >>= fun fs =>
        (RecordBatch.tryNew S.schema (matched.map (updateRow fs)++others)).map fun final =>
          some (matched.length,final) := by
  obtain ⟨ms,hms,hm1⟩ := filterBatches_ok he hm false hD
  obtain ⟨os,hos,ho1⟩ := filterBatches_ok he hm true hD
  rw [updatedBatch,filterBatches,hms,ok_bind,filterBatchesInverted,hos,ok_bind]
  by_cases h0 : ms = []
  · simp [h0,hm1.eq_nil_iff.mp h0]
  · have hM : ¬ ((allRows D).filter (keeps x.toNumerics S.schema e false) = []) := fun h =>
      h0 (hm1.eq_nil_iff.mpr h)
    rw [if_neg h0,concatBatches_of_over hm1.schema_eq,ok_bind]
    simp only [hM,hm1.rows_eq,RecordBatch.numRows]
    refine congrArg _ (funext fun fs => ?_)
    set changed := ((allRows D).filter (keeps x.toNumerics S.schema e false)).map (updateRow fs)
    have hothers : ∀ r ∈ (allRows D).filter (keeps x.toNumerics S.schema e true),
        S.schema.conforms r = true := fun r hr =>
      conforms_of_mem_allRows hD (mem_of_mem_filter hr)
    by_cases hc : ∀ r ∈ changed, S.schema.conforms r = true
    · have hall : ∀ r ∈ changed++(allRows D).filter (keeps x.toNumerics S.schema e true),
          S.schema.conforms r = true := fun r hr =>
        (mem_append.mp hr).elim (hc r) (hothers r)
      have hover : Over S.schema (⟨S.schema,changed,hc⟩::os) := fun b hb =>
        (mem_cons.mp hb).elim (fun h => h ▸ rfl) (ho1.schema_eq b)
      rw [RecordBatch.tryNew_of_conforms hc,ok_bind,concatBatches_of_over hover,
        RecordBatch.tryNew_of_conforms hall]
      simp [ho1.rows_eq]
    · have hall : ¬ ∀ r ∈ changed++(allRows D).filter (keeps x.toNumerics S.schema e true),
          S.schema.conforms r = true := fun h => hc fun r hr => h r (by simp [hr])
      simp only [RecordBatch.tryNew,hc,hall]
      rfl

theorem updateWhere_cases (pred : Text) (updates : List (Text × Text)) (st : MemoryStore)
    (hst : st.table dataset = D) (hD : Over S.schema D) :
    (st.updateWhere x dataset pred updates).2.table dataset = D ∨
    ∃ n final, MemoryStore.updatedBatch x S.schema D pred updates = .ok (some (n,final)) ∧
      (st.updateWhere x dataset pred updates).2.table dataset = [final] := by
  rw [MemoryStore.updateWhere]
  split_ifs with hu
  · exact .inl hst
  · rw [hst]
    cases D with
    | nil => exact .inl hst
    | cons first rest =>
      dsimp only
      rw [hD first (by simp)]
      split
      · exact .inl hst
      · exact .inl hst
      next n final h => exact .inr ⟨n,final,h,by simp⟩

theorem updateWhere_of_updated (hu : updates ≠ []) (hst : st.table dataset = D)
    (hD : Over S.schema D) (hne : D ≠ [])
    (h : MemoryStore.updatedBatch x S.schema D pred updates = .ok (some (n,final))) :
    (st.updateWhere x dataset pred updates).2.table dataset = [final] := by
  rw [MemoryStore.updateWhere,if_neg hu,hst]
  cases D with
  | nil => exact absurd rfl hne
  | cons first rest =>
    dsimp only
    rw [hD first (by simp),h]
    simp

theorem namedRow_injective {S : Schema} (hr : S.conforms r)
    (hr' : S.conforms r') (h : namedRow S r = namedRow S r') : r = r' := by
  have hlen := Schema.conforms_length hr
  have hlen' := Schema.conforms_length hr'
  have := congrArg (List.map Prod.snd) h
  simpa [namedRow,map_snd_zip,hlen,hlen'] using this

theorem accepted_of_updatedBatch (hD : Over S.schema D)
    (h : updatedBatch x S.schema D pred updates = .ok (some (n,final))) :
    ∃ e, parsePredicate x pred = .ok e ∧ missingColumn S.schema e = none := by
  by_contra hacc
  by_cases hne : D = []
  · obtain ⟨ms,hms,h⟩ := bind_eq_ok.mp h
    obtain ⟨e,_,hms⟩ := bind_eq_ok.mp (show filterBatchesImpl x pred D false = .ok ms from hms)
    rw [hne] at hms
    cases hms
    simp at h
  · obtain ⟨err,herr⟩ := filterBatchesImpl_error hD hne false fun e he hm => hacc ⟨e,he,hm⟩
    rw [updatedBatch,filterBatches,herr] at h
    cases h

theorem visible_updateRow (hfs : assignments x S.schema updates = .ok fs) (hr : S.schema.conforms r)
    (hr' : S.schema.conforms (updateRow fs r)) :
    visible A S.schema (updateRow fs r) = visible A S.schema r := by
  simp [visible,namespaceCell_updateRow hfs hr hr']

theorem filter_map_of_eq {α : Type*} {f : α → α} {p : α → Bool} {l : List α}
    (hp : ∀ a ∈ l, p (f a) = p a) (hf : ∀ a ∈ l, p a → f a = a) : (l.map f).filter p = l.filter p := by
  rw [filter_map,filter_congr (q := p) (by simpa using hp)]
  refine (map_congr_left fun a ha => ?_).trans (map_id _)
  exact hf a (mem_of_mem_filter ha) (of_mem_filter ha)

theorem perm_keeps (u : Numerics) (S : Schema) (e : FilterExpr) (l : List Row) :
    (l.filter (keeps u S e false)++l.filter (keeps u S e true)).Perm l := by
  have h : keeps u S e true = fun r => !keeps u S e false r := by
    funext r
    simp [keeps]
  rw [h]
  exact filter_append_perm _ l

theorem framed_updateWhere_iff (hs : PolicyStore.resolveAllowed s = .ok (some A))
    (hd : dataset ≠ PolicyStore.resourceBlob) (filter : Text) (updates : List (Text × Text)) :
    Framed x s dataset A S (.updateWhere filter updates) ↔
      (updates ≠ [] → ∀ fs, assignments x S.schema updates = .ok fs →
        ReachesOnly x A S filter fun r =>
          S.schema.conforms (updateRow fs r) → updateRow fs r = r) := by
  have hw : ∀ st, write x s dataset (.updateWhere filter updates) st =
      (st.updateWhere x dataset (guarded A filter) updates).2 := fun st => by
    simp [write,PolicyStore.updateWhere,enforceDeletePredicate_eq hs hd]
  constructor
  · intro hf hu fs hfs e he hm l hl r hr htrue hconf
    have hmatch := evalRow_of_unguarded hl htrue
    have hover := (ofRow hr).schema_eq
    have h := hf (ofRow hr) (.single dataset (ofRow hr).batches) (by simp)
    have hub : MemoryStore.updatedBatch x S.schema (ofRow hr).batches (guarded A filter) updates =
        .ok (some (1,⟨S.schema,[updateRow fs r],by simpa using hconf⟩)) := by
      rw [updatedBatch_eq updates hover he hm]
      simp [ofRow,keeps,hmatch,hfs,RecordBatch.tryNew,hconf]
    rw [hw,updateWhere_of_updated hu (MemoryStore.single_table _ _) hover (by simp [ofRow]) hub,
      foreignRows_singleton,foreignRows_of_over hover] at h
    have hvis := visible_updateRow (A := A) hfs hr.conforms hconf
    have hnamed : namedRow S.schema (updateRow fs r) = namedRow S.schema r := by
      simpa [ofRow,hvis,hr.hidden] using h
    exact namedRow_injective hconf hr.conforms hnamed
  · intro hsafe D st hst
    rw [hw]
    have hD := D.schema_eq
    by_cases hu : updates = []
    · simp [MemoryStore.updateWhere,hu,table_of_tables hst]
    rcases updateWhere_cases (guarded A filter) updates st (table_of_tables hst) hD with
      hsame | ⟨n,final,hub,htable⟩
    · rw [hsame]
    · obtain ⟨e,he,hm⟩ := accepted_of_updatedBatch hD hub
      rw [updatedBatch_eq updates hD he hm] at hub
      dsimp only at hub
      split_ifs at hub
      · cases hub
      obtain ⟨fs,hfs,hub⟩ := bind_eq_ok.mp hub
      obtain ⟨final',hnew,hub⟩ := map_eq_ok.mp hub
      cases hub
      obtain ⟨hschema,hrows⟩ := RecordBatch.tryNew_eq_ok.mp hnew
      set matched := (allRows D.batches).filter (keeps x.toNumerics S.schema e false) with hM
      have hmem : ∀ r ∈ matched, r ∈ allRows D.batches := fun r hr => mem_of_mem_filter hr
      have hconf : ∀ r ∈ matched, S.schema.conforms (updateRow fs r) := fun r hr =>
        hschema ▸ final.wf _ (by rw [hrows]; exact mem_append_left _ (mem_map_of_mem hr))
      have hsamerows : (matched.map (updateRow fs)).filter (fun r => !visible A S.schema r) =
          matched.filter fun r => !visible A S.schema r := by
        refine filter_map_of_eq (fun r hr => ?_) fun r hr hv => ?_
        · rw [visible_updateRow hfs (conforms_of_mem_allRows hD (hmem r hr)) (hconf r hr)]
        · have hforeign := foreign_of_mem (hmem r hr) (by simpa using hv)
          have hmatch : evalRow x.toNumerics S.schema e r = some true := by
            simpa [keeps] using of_mem_filter hr
          obtain ⟨l,hl,hltrue⟩ := unguarded_of_match he hforeign hmatch
          exact hsafe hu fs hfs e he hm l hl r hforeign hltrue (hconf r hr)
      rw [htable,foreignRows_singleton,hschema,hrows,foreignRows_of_over hD,filter_append,
        hsamerows,← filter_append]
      exact ((perm_keeps _ _ _ _).filter _).map _
end Hirn.Storage
