import Hirn.PolicyWrites

/-! Merges through the policy store, whose guard is a condition on the matched rows, and the
frame of every write request. -/
namespace Hirn.Storage
open FilterLang Fallible List PolicyStore MemoryStore Dataset
variable {x : Externals} {s : Session} {dataset : Text} {A keys : List Text} {S : NamespacedSchema}
    {e : FilterExpr}
  {i : ℕ}

open MemoryStore (mergeRows overwriting lastWithKey rowKey keyIndices mergedBatches stripTarget)

def mergeText (A : List Text) (caller : Option Text) : Text :=
  let policy := PolicyStore.buildNamespacePredicateFor PolicyStore.targetNamespaceColumn A
  match caller with
  | some c => '('::(c++") AND (".toList++policy++[')'])
  | none => policy

def Fits (S T : Schema) : Prop :=
  T.length ≤ S.length ∧ (S.take T.length).map (·.dataType) = T.map (·.dataType)

variable {U T : Schema}

theorem concatBatches_eq_ok (hD : Over U D) (hne : D ≠ []) : concatBatches T D = .ok ex ↔
      Fits U T ∧ ex.schema = T ∧ ex.rows = (allRows D).map (·.take T.length) := by
  have hex : ∃ b, b ∈ D := exists_mem_of_ne_nil D hne
  have h1 : (D.any fun b => decide (b.schema.length < T.length)) = decide (U.length < T.length) := by
    rw [Bool.eq_iff_iff]
    simp only [any_eq_true,decide_eq_true_eq]
    exact ⟨fun ⟨b,hb,h⟩ => hD b hb ▸ h,fun h => let ⟨b,hb⟩ := hex; ⟨b,hb,(hD b hb).symm ▸ h⟩⟩
  have h2 : (D.any fun b => decide ((b.schema.take T.length).map (·.dataType) ≠ T.map (·.dataType))) =
      decide ((U.take T.length).map (·.dataType) ≠ T.map (·.dataType)) := by
    rw [Bool.eq_iff_iff]
    simp only [any_eq_true,decide_eq_true_eq]
    exact ⟨fun ⟨b,hb,h⟩ => hD b hb ▸ h,fun h => let ⟨b,hb⟩ := hex; ⟨b,hb,(hD b hb).symm ▸ h⟩⟩
  have h3 : (D.flatMap fun b => b.rows.map (·.take T.length)) = (allRows D).map (·.take T.length) := by
    simp [allRows,map_flatMap]
  rw [concatBatches,h1,h2,h3,Fits]
  by_cases hlen : U.length < T.length
  · simp [hlen,not_le.mpr hlen]
  · by_cases hty : (U.take T.length).map (·.dataType) = T.map (·.dataType)
    · simp only [hlen,hty,decide_false,ne_eq,not_true_eq_false]
      simpa [not_lt.mp hlen] using RecordBatch.tryNew_eq_ok
    · simp only [hlen,hty,decide_false,ne_eq,not_false_eq_true,decide_true,if_true]
      simp

theorem evaluatePredicateMask_eq_ok : evaluatePredicateMask x pred b = .ok mask ↔
      ∃ e, parsePredicate x pred = .ok e ∧ missingColumn b.schema e = none ∧
        mask = b.rows.map fun r => evalRow x.toNumerics b.schema e r == some true := by
  rw [evaluatePredicateMask,bind_eq_ok]
  refine exists_congr fun e => and_congr_right fun _ => ?_
  rw [evalExpr_eq]
  cases missingColumn b.schema e with
  | some c => simp [Except.mapError]
  | none => simp [Except.mapError,Function.comp_def,eq_comm]

theorem lastWithKey_eq_some {key : Text} (h : lastWithKey key keys = some i) :
    keys[i]? = some key := by
  obtain ⟨p,hp,rfl⟩ := Option.map_eq_some_iff.mp h
  have hmem := mem_of_getLast? hp
  have hkey : p.1 = key := by simpa using of_mem_filter hmem
  have := mem_zipIdx_iff_getElem?.mp (mem_of_mem_filter hmem)
  rw [this,hkey]

theorem filter_map_congr {α β : Type*} {g h : α → β} {p : β → Bool} {l : List α}
    (H : ∀ a ∈ l, g a = h a ∨ p (g a) = false ∧ p (h a) = false) :
    (l.map g).filter p = (l.map h).filter p := by
  induction l with
  | nil => rfl
  | cons a l ih =>
    have ih' := ih fun b hb => H b (by simp [hb])
    rcases H a (by simp) with ha | ⟨h1,h2⟩
    · simp only [map_cons,filter_cons,ha,ih']
    · rw [map_cons,map_cons,filter_cons_of_neg (by simp [h1]),
        filter_cons_of_neg (by simp [h2]),ih']

variable {key : Row → Text} {allowed : ℕ → Bool} {new : List Row} {r : Row}

theorem overwriting_eq_some (h : overwriting key allowed keys new i = some r) :
    r ∈ new ∧ keys[i]? = some (key r) ∧ allowed i := by
  have hr := mem_of_getLast? h
  have hcond := of_mem_filter hr
  simp only [Bool.and_eq_true,decide_eq_true_eq] at hcond
  exact ⟨mem_of_mem_filter hr,lastWithKey_eq_some hcond.1,hcond.2⟩

variable {existing : List Row}

theorem filter_mergeRows {p : Row → Bool} (hnew : ∀ r ∈ new, p r = false)
    (hkeep : ∀ i r, existing[i]? = some r → p r → allowed i →
      ∀ q ∈ new, key q ≠ key r) : (mergeRows key allowed existing new).filter p =
      existing.filter p := by
  have hinserted : (new.filter fun r => (lastWithKey (key r)
    (existing.map key)).isNone).filter p = [] :=
    filter_eq_nil_iff.mpr fun r hr => by simp [hnew r (mem_of_mem_filter hr)]
  have hfst : existing.filter p = (existing.zipIdx.map Prod.fst).filter p := by simp
  rw [mergeRows,filter_append,hinserted,append_nil,hfst]
  refine filter_map_congr fun q hq => ?_
  have hqi := mem_zipIdx_iff_getElem?.mp hq
  cases hu : overwriting key allowed (existing.map key) new q.2 with
  | none => exact .inl rfl
  | some r =>
    obtain ⟨hr,hkeys,hallowed⟩ := overwriting_eq_some hu
    rw [getElem?_map,hqi,Option.map_some,Option.some.injEq] at hkeys
    refine .inr ⟨hnew r hr,?_⟩
    by_contra hp
    exact hkeep q.2 q.1 hqi (by simpa using hp) hallowed r hr hkeys.symm

theorem mem_mergeRows (h : r ∈ mergeRows key allowed existing new) : r ∈ existing ∨ r ∈ new := by
  rcases mem_append.mp h with h | h
  · obtain ⟨p,hp,rfl⟩ := mem_map.mp h
    cases hu : overwriting key allowed (existing.map key) new p.2 with
    | none => exact .inl (mem_of_getElem? (mem_zipIdx_iff_getElem?.mp hp))
    | some q => exact .inr (overwriting_eq_some hu).1
  · exact .inr (mem_of_mem_filter h)

theorem mergeRows_singleton (key : Row → Text) (allowed : ℕ → Bool) (r : Row) (new : List Row) :
    (∃ rest, mergeRows key allowed [r] new = r::rest ∧ (∀ q ∈ rest, q ∈ new) ∧
      (allowed 0 → ∀ q ∈ new, key q ≠ key r)) ∨ ∀ q ∈ mergeRows key allowed [r] new, q ∈ new := by
  have hrest : ∀ q ∈ new.filter fun q => (lastWithKey (key q) [key r]).isNone, q ∈ new := fun q hq =>
    mem_of_mem_filter hq
  cases hu : overwriting key allowed [key r] new 0 with
  | none =>
    refine .inl ⟨_,by simp [mergeRows,hu],hrest,fun hall q hq hkey => ?_⟩
    have := filter_eq_nil_iff.mp (getLast?_eq_none_iff.mp hu) q hq
    simp [lastWithKey,hkey,hall] at this
  | some q =>
    refine .inr fun q' hq' => ?_
    have heq : mergeRows key allowed [r] new =
        q::new.filter fun q => (lastWithKey (key q) [key r]).isNone := by simp [mergeRows,hu]
    rw [heq] at hq'
    rcases mem_cons.mp hq' with rfl | hq'
    · exact (overwriting_eq_some hu).1
    · exact hrest q' hq'

def mergedRows (x : Externals) (b : RecordBatch) (indices : List ℕ) (e : FilterExpr)
    (existing : List Row) : List Row :=
  mergeRows (rowKey x b.schema indices)
    (fun i => (existing.map fun r => evalRow x.toNumerics b.schema e r == some true).getD i false)
    existing b.rows

theorem mergedBatches_of_accepted (hD : Over U D) (hne : D ≠ []) (hfits : Fits U b.schema)
    (hex : (allRows D).map (·.take b.schema.length) = existing) (hconf : ∀ r ∈ existing,
    b.schema.conforms r)
    (he : parsePredicate x pred = .ok e) (hm : missingColumn b.schema e = none) (indices : List ℕ) :
    ∃ bs, mergedBatches x b indices (some pred) D = .ok bs ∧ Over b.schema bs ∧
      allRows bs = mergedRows x b indices e existing := by
  have hconcat : concatBatches b.schema D = .ok ⟨b.schema,existing,hconf⟩ :=
    (concatBatches_eq_ok hD hne).mpr ⟨hfits,rfl,hex.symm⟩
  have hmask : evaluatePredicateMask x pred ⟨b.schema,existing,hconf⟩ =
      .ok (existing.map fun r => evalRow x.toNumerics b.schema e r == some true) :=
    evaluatePredicateMask_eq_ok.mpr ⟨e,he,hm,rfl⟩
  rw [mergedBatches,hconcat,ok_bind]
  dsimp only
  rw [hmask,map_ok,ok_bind]
  change ∃ bs, (if mergedRows x b indices e existing = [] then Except.ok []
    else (RecordBatch.tryNew b.schema (mergedRows x b indices e existing)).map ([·])) = .ok bs ∧ _
  by_cases hnil : mergedRows x b indices e existing = []
  · exact ⟨[],by simp [hnil],by simp [Over],by simp [hnil]⟩
  · have hall : ∀ r ∈ mergedRows x b indices e existing, b.schema.conforms r := fun r hr =>
      (mem_mergeRows hr).elim (hconf r) (b.wf r)
    rw [if_neg hnil,RecordBatch.tryNew_of_conforms hall,map_ok]
    exact ⟨_,rfl,by simp [Over],by simp⟩

theorem accepted_of_mergedBatches (hD : Over U D) (hne : D ≠ [])
    (h : mergedBatches x b indices (some pred) D = .ok bs) :
    Fits U b.schema ∧ (∀ r ∈ allRows D, b.schema.conforms (r.take b.schema.length)) ∧
      ∃ e, parsePredicate x pred = .ok e ∧ missingColumn b.schema e = none := by
  obtain ⟨existing,hex,h⟩ := bind_eq_ok.mp h
  obtain ⟨mask,hmask,_⟩ := bind_eq_ok.mp h
  obtain ⟨hfits,hschema,hrows⟩ := (concatBatches_eq_ok hD hne).mp hex
  obtain ⟨mask',hmask,_⟩ := map_eq_ok.mp hmask
  obtain ⟨e,he,hm,_⟩ := evaluatePredicateMask_eq_ok.mp hmask
  refine ⟨hfits,fun r hr => ?_,e,he,hschema ▸ hm⟩
  have := existing.wf (r.take b.schema.length) (by rw [hrows]; exact mem_map_of_mem hr)
  rwa [hschema] at this

/-- A merge adds no row without a namespace and touches no foreign row. -/
structure MergeSafe (x : Externals) (A : List Text) (S : NamespacedSchema) (b : RecordBatch)
    (indices : List ℕ) (pred : Text) : Prop where
  namespaced : Namespaced b
  keeps : Fits S.schema b.schema → ∀ e, parsePredicate x pred = .ok e →
    missingColumn b.schema e = none →
    ∀ r, Foreign A S r → b.schema.conforms (r.take b.schema.length) = true →
      b.schema.map (·.name) = S.schema.map (·.name) ∧
      ∀ new ∈ b.rows, rowKey x b.schema indices new = rowKey x b.schema indices r →
        evalRow x.toNumerics b.schema e r ≠ some true

theorem mergeCondition_eq (hs : resolveAllowed s = .ok (some A)) (hd : dataset ≠ resourceBlob)
    (caller : Option Text) : mergeCondition s dataset caller = .ok (some (mergeText A caller)) := by
  cases caller <;>
    simp [mergeCondition,shouldEnforceNamespaceFilter,hd,hs,pure_eq_ok,mergeText]

theorem mergeInsertWhere_eq (hs : PolicyStore.resolveAllowed s = .ok (some A))
    (hd : dataset ≠ PolicyStore.resourceBlob)
    (hb : PolicyStore.enforceAppend s b = .ok ()) (hon : on ≠ [])
    (hi : keyIndices b.schema on = .ok indices) (caller : Option Text) (st : MemoryStore) :
    (PolicyStore.mergeInsertWhere x s st dataset on b caller).2.table dataset =
      if st.table dataset = [] then [b]
      else match mergedBatches x b indices (some (stripTarget (mergeText A caller)))
          (st.table dataset) with
        | .error _ => st.table dataset
        | .ok bs => bs := by
  rw [PolicyStore.mergeInsertWhere,hb,ok_bind,mergeCondition_eq hs hd]
  simp only [MemoryStore.mergeInsertWhere,hon,if_false,hi,Option.map_some]
  by_cases h : st.table dataset = []
  · simp [h]
  · simp only [h,if_false]
    cases mergedBatches x b indices _ (st.table dataset) <;> simp

theorem framed_of_rejected (h : ∀ st, (write x s dataset req st).table dataset = st.table dataset) :
    Framed x s dataset A S req := fun D st hst => by rw [h,table_of_tables hst]

theorem conforms_set (h : T.conforms r) (hf : T[i]? = some f) (hc : f.admits c) :
    T.conforms (r.set i c) := by
  induction T generalizing r i with
  | nil => simp at hf
  | cons g T ih =>
    cases r with
    | nil => simp [Schema.conforms] at h
    | cons d r =>
      simp only [Schema.conforms,Bool.and_eq_true] at h
      cases i with
      | zero =>
        obtain rfl : g = f := by simpa using hf
        simp [Schema.conforms,hc,h.2]
      | succ i => simpa [Schema.conforms,h.1] using ih h.2 (by simpa using hf)

theorem exists_foreign (hr : S.schema.conforms r) (hfits : Fits S.schema T)
    (hT : T.conforms (r.take T.length)) : ∃ r', Foreign A S r' ∧ T.conforms (r'.take T.length) := by
  obtain ⟨ns,hns⟩ := Infinite.exists_notMem_finset (insert [] A.toFinset)
  simp only [Finset.mem_insert,mem_toFinset,not_or] at hns
  obtain ⟨f,hf,hft⟩ := S.utf8
  have hlt : S.index < r.length := by
    rw [Schema.conforms_length hr]
    exact Schema.indexOf_lt S.indexOf_eq
  have hcell : namespaceCell S.schema (r.set S.index (.utf8 ns)) = .utf8 ns := by
    simp [namespaceCell,columnCell,S.indexOf_eq,hlt]
  have hadm : ∀ g : Field, g.dataType = .utf8 → g.admits (.utf8 ns) := fun g hg => by
    simp [Field.admits,hg,Cell.isNull,Cell.hasType]
  refine ⟨r.set S.index (.utf8 ns),⟨conforms_set hr hf (hadm f hft),?_,?_⟩,?_⟩
  · rw [hcell]
    simpa using hns.1
  · simp only [visible,hcell,any_eq_false,decide_eq_true_eq,Cell.utf8.injEq]
    rintro a ha rfl
    exact hns.2 ha
  · rw [take_set]
    by_cases hi : S.index < T.length
    · have htype : (T.map (·.dataType))[S.index]? = some .utf8 := by
        rw [← hfits.2,getElem?_map,getElem?_take_of_lt hi,hf]
        simp [hft]
      obtain ⟨g,hg,hgt⟩ : ∃ g, T[S.index]? = some g ∧ g.dataType = .utf8 := by simpa using htype
      exact conforms_set hT hg (hadm g hgt)
    · rw [set_eq_of_length_le (by simp; omega)]
      exact hT

theorem indexOf_congr (h : T.map (·.name) = U.map (·.name)) (name : Text) :
    T.indexOf name = U.indexOf name := by
  have hidx : ∀ V : Schema, V.indexOf name = (V.map (·.name)).findIdx? (· = name) := fun V => by
    simp [Schema.indexOf,findIdx?_map,Function.comp_def]
  rw [hidx,hidx,h]

theorem visible_congr (h : T.map (·.name) = U.map (·.name)) (r : Row) :
    visible A T r = visible A U r := by
  have hcell : namespaceCell T r = namespaceCell U r := by
    rw [namespaceCell,namespaceCell,columnCell,columnCell,indexOf_congr h]
  simp only [visible,hcell]

/-- A merge keeps a foreign row only if it neither renames nor overwrites it. -/
theorem keeps_of_framed_singleton (hb : foreignRows A [b] = [])
    (hr : Foreign A S r) (hlen : b.schema.length ≤ S.schema.length)
    (hover : Over b.schema bs) (hrows : allRows bs = mergedRows x b indices e [r.take b.schema.length])
    (h : (foreignRows A bs).Perm (foreignRows A (ofRow hr).batches)) :
    b.schema.map (·.name) = S.schema.map (·.name) ∧
      ∀ new ∈ b.rows, rowKey x b.schema indices new = rowKey x b.schema indices r →
        evalRow x.toNumerics b.schema e r ≠ some true := by
  have hnew : ∀ q ∈ b.rows, visible A b.schema q := by simpa using foreignRows_eq_nil.mp hb
  have hone : foreignRows A (ofRow hr).batches = [namedRow S.schema r] := by
    rw [foreignRows_of_over (ofRow hr).schema_eq]
    simp [ofRow,hr.hidden]
  rw [hone,perm_singleton,foreignRows_of_over hover,hrows] at h
  rcases mergeRows_singleton (rowKey x b.schema indices)
    (fun i => ([r.take b.schema.length].map fun r =>
      evalRow x.toNumerics b.schema e r == some true).getD i false)
    (r.take b.schema.length) b.rows with ⟨rest,hcons,hrest,hkeys⟩ | hall
  · have hnone : rest.filter (fun q => !visible A b.schema q) = [] :=
      filter_eq_nil_iff.mpr fun q hq => by simp [hnew q (hrest q hq)]
    rw [mergedRows,hcons,filter_cons] at h
    split_ifs at h
    · rw [hnone,map_singleton,List.cons.injEq] at h
      have hl := Schema.conforms_length hr.conforms
      have hnames : b.schema.map (·.name) = S.schema.map (·.name) := by
        have := congrArg (List.map Prod.fst) h.1
        simpa [namedRow,map_fst_zip,hl,hlen] using this
      have hlen' : b.schema.length = S.schema.length := by simpa using congrArg List.length hnames
      have htake : r.take b.schema.length = r := take_of_length_le (by omega)
      refine ⟨hnames,fun new hmem hkey htrue => ?_⟩
      rw [htake] at hkeys
      exact hkeys (by simp [htrue]) new hmem hkey
    · simp [hnone] at h
  · have hnone : (mergedRows x b indices e [r.take b.schema.length]).filter
        (fun q => !visible A b.schema q) = [] :=
      filter_eq_nil_iff.mpr fun q hq => by simp [hnew q (hall q hq)]
    simp [hnone] at h

/-- A safe merge keeps the rows outside the allow-list. -/
theorem foreignRows_of_mergeSafe (hb : foreignRows A [b] = [])
    (hsafe : MergeSafe x A S b indices pred) (D : Dataset S) (hne : D.batches ≠ [])
    (h : mergedBatches x b indices (some pred) D.batches = .ok bs) :
    foreignRows A bs = foreignRows A D.batches := by
  have hnew : ∀ q ∈ b.rows, visible A b.schema q := by simpa using foreignRows_eq_nil.mp hb
  obtain ⟨hfits,hconf,e,he,hm⟩ := accepted_of_mergedBatches D.schema_eq hne h
  obtain ⟨bs',hbs',hover,hrows⟩ := mergedBatches_of_accepted D.schema_eq hne hfits rfl
    (by simpa using hconf) he hm indices
  obtain rfl : bs' = bs := by simpa [hbs'] using h
  rw [foreignRows_of_over hover,foreignRows_of_over D.schema_eq,hrows]
  by_cases hD : allRows D.batches = []
  · have hins : (mergedRows x b indices e []).filter (fun r => !visible A b.schema r) = [] :=
      filter_mergeRows (fun r hr => by simp [hnew r hr]) (by simp)
    simp [hD,hins]
  · obtain ⟨r₀,hr₀⟩ := exists_mem_of_ne_nil _ hD
    obtain ⟨r₁,hr₁,hr₁conf⟩ := exists_foreign (A := A)
      (conforms_of_mem_allRows D.schema_eq hr₀) hfits (hconf r₀ hr₀)
    have hnames := (hsafe.keeps hfits e he hm r₁ hr₁ hr₁conf).1
    have hlen : b.schema.length = S.schema.length := by simpa using congrArg List.length hnames
    have htake : (allRows D.batches).map (·.take b.schema.length) = allRows D.batches := by
      refine (map_congr_left fun r hr => ?_).trans (map_id _)
      have := Schema.conforms_length (conforms_of_mem_allRows D.schema_eq hr)
      exact take_of_length_le (by omega)
    have hvis : (fun r => !visible A b.schema r) = fun r => !visible A S.schema r := by
      funext r
      rw [visible_congr hnames]
    have hkept : (mergedRows x b indices e (allRows D.batches)).filter
      (fun r => !visible A b.schema r) =
        (allRows D.batches).filter fun r => !visible A b.schema r := by
      refine filter_mergeRows (fun r hr => by simp [hnew r hr]) fun i r hi hr hallowed q hq hkey => ?_
      have hmem := mem_of_getElem? hi
      have hforeign := foreign_of_mem hmem (by simpa [visible_congr hnames] using hr)
      refine (hsafe.keeps hfits e he hm r hforeign (hconf r hmem)).2 q hq hkey ?_
      simpa [getElem?_map,hi] using hallowed
    rw [htake,hkept,hvis]
    exact map_congr_left fun r _ => by rw [namedRow,namedRow,hnames]

theorem framed_mergeInsertWhere_iff (hs : PolicyStore.resolveAllowed s = .ok (some A))
    (hd : dataset ≠ PolicyStore.resourceBlob) (on : List Text) (b : RecordBatch)
    (caller : Option Text) : Framed x s dataset A S (.mergeInsertWhere on b caller) ↔
      (PolicyStore.enforceAppend s b = .ok () → on ≠ [] → ∀ indices,
        keyIndices b.schema on = .ok indices →
        MergeSafe x A S b indices (stripTarget (mergeText A caller))) := by
  constructor
  · intro hf hb hon indices hi
    have hw := mergeInsertWhere_eq (x := x) hs hd hb hon hi caller
    have hnil : foreignRows A [b] = [] := by
      have h := hf (empty S) (.single dataset []) (by simp [empty])
      rw [write,hw] at h
      simpa [empty] using h
    refine ⟨by simpa using (foreignRows_of_enforceAppend hs (by simpa using hb)).mp hnil,?_⟩
    intro hfits e he hm r hr hconf
    have hne : (ofRow hr).batches ≠ [] := by simp [ofRow]
    obtain ⟨bs,hbs,hover,hrows⟩ := mergedBatches_of_accepted (ofRow hr).schema_eq hne hfits
      (show _ = [r.take b.schema.length] by simp [ofRow]) (by simpa using hconf) he hm indices
    have h := hf (ofRow hr) (.single dataset (ofRow hr).batches) (by simp)
    rw [write,hw,MemoryStore.single_table,if_neg hne,hbs] at h
    exact keeps_of_framed_singleton hnil hr hfits.1 hover hrows h
  · intro hsafe
    cases hb : PolicyStore.enforceAppend s b with
    | error err =>
      exact framed_of_rejected fun st => by simp [write,PolicyStore.mergeInsertWhere,hb]
    | ok _ =>
      have hcond := mergeCondition_eq hs hd caller
      by_cases hon : on = []
      · exact framed_of_rejected fun st => by
          simp [write,PolicyStore.mergeInsertWhere,hb,hcond,MemoryStore.mergeInsertWhere,hon]
      cases hi : keyIndices b.schema on with
      | error err =>
        exact framed_of_rejected fun st => by
          simp [write,PolicyStore.mergeInsertWhere,hb,hcond,MemoryStore.mergeInsertWhere,hon,hi]
      | ok indices =>
        have hsafe := hsafe hb hon indices hi
        have hnil : foreignRows A [b] = [] :=
          (foreignRows_of_enforceAppend hs (by simpa using hb)).mpr (by simpa using hsafe.namespaced)
        intro D st hst
        rw [write,mergeInsertWhere_eq hs hd hb hon hi caller,table_of_tables hst]
        by_cases hne : D.batches = []
        · simp [hne,hnil]
        · rw [if_neg hne]
          split
          · exact .refl _
          next bs hbs => rw [foreignRows_of_mergeSafe hnil hsafe D hne hbs]

/-- What a request must not do, in terms of its own arguments. -/
def WriteRequest.Safe (x : Externals) (s : Session) (A : List Text) (S : NamespacedSchema) :
    WriteRequest → Prop
  | .append b => PolicyStore.enforceAppend s b = .ok () → Namespaced b
  | .appendBatches bs =>
    (∀ b ∈ bs, PolicyStore.enforceAppend s b = .ok ()) → ∀ b ∈ bs, Namespaced b
  | .appendStream stream => ∀ b ∈ storedBatches s [] 0 stream, Namespaced b
  | .delete predicate => ReachesOnly x A S predicate fun _ => False
  | .updateWhere filter updates =>
    updates ≠ [] → ∀ fs, MemoryStore.assignments x S.schema updates = .ok fs →
      ReachesOnly x A S filter fun r =>
        S.schema.conforms (MemoryStore.updateRow fs r) = true → MemoryStore.updateRow fs r = r
  | .mergeInsert on b =>
    PolicyStore.enforceAppend s b = .ok () → on ≠ [] → ∀ indices,
      MemoryStore.keyIndices b.schema on = .ok indices →
        MergeSafe x A S b indices (MemoryStore.stripTarget (mergeText A none))
  | .mergeInsertWhere on b whenMatched =>
    PolicyStore.enforceAppend s b = .ok () → on ≠ [] → ∀ indices,
      MemoryStore.keyIndices b.schema on = .ok indices →
        MergeSafe x A S b indices (MemoryStore.stripTarget (mergeText A whenMatched))

/-- A policy store's write leaves the foreign rows exactly when it is safe. -/
theorem framed_iff_safe {x : Externals} {s : Session} {dataset : Text} {A : List Text}
    {S : NamespacedSchema} (hs : PolicyStore.resolveAllowed s = .ok (some A))
    (hd : dataset ≠ PolicyStore.resourceBlob) (req : WriteRequest) :
    Framed x s dataset A S req ↔ req.Safe x s A S := by
  cases req with
  | append b => exact framed_append_iff hs b
  | appendBatches bs => exact framed_appendBatches_iff hs bs
  | appendStream stream => exact framed_appendStream_iff hs stream
  | delete predicate => exact framed_delete_iff hs hd predicate
  | updateWhere filter updates => exact framed_updateWhere_iff hs hd filter updates
  | mergeInsert on b => exact framed_mergeInsertWhere_iff hs hd on b none
  | mergeInsertWhere on b whenMatched => exact framed_mergeInsertWhere_iff hs hd on b whenMatched

theorem framed_append_mine : Framed asciiExternals sampleSession "semantic".toList ["mine".toList]
    sampleSchema (.append ⟨sampleSchema.schema,[[.utf8 "mine".toList]],by decide⟩) :=
  (framed_iff_safe rfl (by decide) _).mpr fun _ => by simp [Namespaced]; decide

/-- A predicate that closes the parenthesis deletes a foreign row; rows without namespace pass. -/
theorem writes_escape_guard : (write asciiExternals sampleSession "semantic".toList
        (.delete "namespace = 'theirs') OR (namespace = 'mine'".toList)
        (.single "semantic".toList (Dataset.ofRow foreign_theirs).batches)).table
        "semantic".toList = [] ∧
    ¬ Framed asciiExternals sampleSession "semantic".toList ["mine".toList] sampleSchema
        (.delete "namespace = 'theirs') OR (namespace = 'mine'".toList) ∧
    ¬ Framed asciiExternals sampleSession "semantic".toList ["mine".toList] sampleSchema
        (.append ⟨sampleSchema.schema,[[.null]],by decide⟩) := by
  have hdel : (write asciiExternals sampleSession "semantic".toList
      (.delete "namespace = 'theirs') OR (namespace = 'mine'".toList)
      (.single "semantic".toList (ofRow foreign_theirs).batches)).table "semantic".toList = [] := by
    decide +kernel
  refine ⟨hdel,fun h => ?_,fun h => ?_⟩
  · have := h (ofRow foreign_theirs)
      (.single "semantic".toList (ofRow foreign_theirs).batches) (single_tables _ _)
    rw [hdel] at this
    exact absurd this.length_eq (by decide)
  · have := h (empty sampleSchema) (.single "semantic".toList []) (by simp [empty])
    exact absurd this.length_eq (by decide +kernel)
end Hirn.Storage
