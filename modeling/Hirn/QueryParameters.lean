import Hirn.Fallible
import Hirn.QueryLiterals

/-! Placeholders of a statement: which there are, and what binding values to them does. One kind of
leaf is tagged when it is read; the others are told by their text whenever they are looked at. -/
namespace Hirn.Query
open Fallible List

def note (names : List Text) (name : Text) : List Text :=
  if names.contains name then names else names++[name]

def SemanticTargetRef.rawValue : SemanticTargetRef → Leaf
  | .memory value => value
  | .logical value => value
  | .revision value => value

def SemanticTargetRef.setRawValue (newValue : Leaf) : SemanticTargetRef → SemanticTargetRef
  | .memory _ => .memory newValue
  | .logical _ => .logical newValue
  | .revision _ => .revision newValue

def isParamChar (c : Char) : Bool := c.isAlphanum || c == '_'

def isParam : Text → Bool
  | '$'::cs => !cs.isEmpty && cs.all isParamChar
  | _ => false

variable {φ ψ : Type} (params : List Text)

def check (s : Leaf) : List Text := if isParam s.text then note params s.text else params

def checkOpt (field : Option Leaf) : List Text :=
  match field with
  | some s => check params s
  | none => params

def checkWheres (wcs : List (WhereCondition φ)) : List Text :=
  wcs.foldl (fun params wc =>
    match wc.value with
    | .param p => note params p
    | _ => params) params

def checkStrParam (s : StringOrParam) : List Text :=
  match s with
  | .param name => note params name
  | .literal _ => params

/-- The names in the order in which they are met. -/
def collect : Statement φ ψ → List Text
  | .recall r =>
    let params := checkStrParam [] r.about
    let params := checkOpt params r.topic
    let params := checkOpt params r.ns
    let params := r.subqueryFilters.foldl
      (fun params sf => checkStrParam params sf.subquery.about) params
    checkWheres params r.whereClauses
  | .think t =>
    let params := checkStrParam [] t.about
    let params := checkOpt params t.ns
    checkWheres params t.whereClauses
  | .correct c =>
    let params := check [] c.target.rawValue
    let params := checkOpt params c.reason
    let params := checkOpt params c.observedAt
    checkOpt params c.causedBy
  | .supersede s =>
    let params := check [] s.target.rawValue
    let params := checkOpt params s.reason
    let params := checkOpt params s.observedAt
    checkOpt params s.causedBy
  | .mergeMemory m =>
    let params := m.sources.foldl (fun params source => check params source.rawValue) []
    let params := check params m.target.rawValue
    let params := checkOpt params m.reason
    let params := checkOpt params m.observedAt
    checkOpt params m.causedBy
  | .retract r =>
    let params := check [] r.target.rawValue
    let params := checkOpt params r.reason
    let params := checkOpt params r.observedAt
    checkOpt params r.causedBy
  | .traverse t =>
    let params := check [] t.from_
    let params := checkOpt params t.ns
    checkWheres params t.whereClauses
  | .inspect target => check [] target.rawValue
  | .history h => check [] h.target.rawValue
  | .trace target => check [] target.rawValue
  | .explain _ inner => collect inner
  | .recallEvents r =>
    let params := checkOpt [] r.entityFilter
    checkWheres params r.whereClauses
  | .createRealm _ => []
  | .dropRealm _ => []
  | .grant _ => []
  | .revoke _ => []
  | .showPolicies _ => []
  | .explainPolicy _ => []
  | .showCluster => []
  | .setTierPolicy _ => []
  | .explainCauses e => check [] e.target
  | .whatIf w =>
    let params := check [] w.intervention
    check params w.outcome
  | .counterfactual c =>
    let params := check [] c.intervention
    check params c.outcome

def sorted (names : List Text) : List Text := names.insertionSort (· ≤ ·)
def collectParameters (stmt : Statement φ ψ) : List Text := sorted (collect stmt)

variable (fl : Floats φ ψ) (values : Text → Option Text)

abbrev Missing := StateM (List Text)

def subst (s : Leaf) : Missing Leaf := do
  if isParam s.text then
    match values s.text with
    | some v => return ⟨.bound,v⟩
    | none =>
      modify (note · s.text)
      return s
  else return s

def substOpt (field : Option Leaf) : Missing (Option Leaf) :=
  match field with
  | some s => do return some (← subst values s)
  | none => return none

def substTarget (target : SemanticTargetRef) : Missing SemanticTargetRef := do
  return target.setRawValue (← subst values target.rawValue)

/-- What is tagged as a literal is never looked at again. -/
def substStr (s : StringOrParam) : Missing StringOrParam :=
  match s with
  | .param name =>
    match values name with
    | some v => return .literal v
    | none => do
      modify (note · name)
      return s
  | .literal _ => return s

def boundConditionValue (v : Text) : ConditionValue φ :=
  match parseI64 v with
  | some i => .int i
  | none =>
    match fl.parse64 v with
    | some x => .float x
    | none => .string v

def substValue (value : ConditionValue φ) : Missing (ConditionValue φ) :=
  match value with
  | .param name =>
    match values name with
    | some v => return boundConditionValue fl v
    | none => do
      modify (note · name)
      return value
  | _ => return value

def substWheres (wcs : List (WhereCondition φ)) : Missing (List (WhereCondition φ)) :=
  wcs.mapM fun wc => do return {wc with value := ← substValue fl values wc.value}

def substFilters (filters : List SubqueryFilter) : Missing (List SubqueryFilter) :=
  filters.mapM fun sf => do return {sf with subquery.about := ← substStr values sf.subquery.about}

/-- The statement with its values, field by field. -/
def bindFields : Statement φ ψ → Missing (Statement φ ψ)
  | .recall r => do
    let about ← substStr values r.about
    let topic ← substOpt values r.topic
    let ns ← substOpt values r.ns
    let subqueryFilters ← substFilters values r.subqueryFilters
    let whereClauses ← substWheres fl values r.whereClauses
    return .recall {r with about,topic,ns,subqueryFilters,whereClauses}
  | .think t => do
    let about ← substStr values t.about
    let ns ← substOpt values t.ns
    let whereClauses ← substWheres fl values t.whereClauses
    return .think {t with about,ns,whereClauses}
  | .correct c => do
    let target ← substTarget values c.target
    let reason ← substOpt values c.reason
    let observedAt ← substOpt values c.observedAt
    let causedBy ← substOpt values c.causedBy
    return .correct {c with target,reason,observedAt,causedBy}
  | .supersede s => do
    let target ← substTarget values s.target
    let reason ← substOpt values s.reason
    let observedAt ← substOpt values s.observedAt
    let causedBy ← substOpt values s.causedBy
    return .supersede {s with target,reason,observedAt,causedBy}
  | .mergeMemory m => do
    let sources ← m.sources.mapM (substTarget values)
    let target ← substTarget values m.target
    let reason ← substOpt values m.reason
    let observedAt ← substOpt values m.observedAt
    let causedBy ← substOpt values m.causedBy
    return .mergeMemory {m with sources,target,reason,observedAt,causedBy}
  | .retract r => do
    let target ← substTarget values r.target
    let reason ← substOpt values r.reason
    let observedAt ← substOpt values r.observedAt
    let causedBy ← substOpt values r.causedBy
    return .retract {r with target,reason,observedAt,causedBy}
  | .traverse t => do
    let from_ ← subst values t.from_
    let ns ← substOpt values t.ns
    let whereClauses ← substWheres fl values t.whereClauses
    return .traverse {t with from_,ns,whereClauses}
  | .inspect target => do return .inspect (← substTarget values target)
  | .history h => do return .history {h with target := ← substTarget values h.target}
  | .trace target => do return .trace (← substTarget values target)
  | .explain analyze inner => do return .explain analyze (← bindFields inner)
  | .recallEvents r => do
    let entityFilter ← substOpt values r.entityFilter
    let whereClauses ← substWheres fl values r.whereClauses
    return .recallEvents {r with entityFilter,whereClauses}
  | .explainCauses e => do return .explainCauses {e with target := ← subst values e.target}
  | .whatIf w => do
    let intervention ← subst values w.intervention
    let outcome ← subst values w.outcome
    return .whatIf {w with intervention,outcome}
  | .counterfactual c => do
    let intervention ← subst values c.intervention
    let outcome ← subst values c.outcome
    return .counterfactual {c with intervention,outcome}
  | .createRealm c => return .createRealm c
  | .dropRealm d => return .dropRealm d
  | .grant g => return .grant g
  | .revoke r => return .revoke r
  | .showPolicies principal => return .showPolicies principal
  | .explainPolicy e => return .explainPolicy e
  | .showCluster => return .showCluster
  | .setTierPolicy s => return .setTierPolicy s

def bindParameters (stmt : Statement φ ψ) : Statement φ ψ × List Text :=
  let r := (bindFields fl values stmt).run []
  (r.1,sorted r.2)

inductive Slot (φ : Type)
  | plain (s : Leaf)
  | text (s : StringOrParam)
  | value (v : ConditionValue φ)
  deriving DecidableEq

def Slot.param? : Slot φ → Option Text
  | .plain s => if isParam s.text then some s.text else none
  | .text (.param name) => some name
  | .value (.param name) => some name
  | _ => none

/-- A change of the leaves, for each kind of them. -/
structure Rewriting (φ : Type) where
  plain : Leaf → Leaf
  text : StringOrParam → StringOrParam
  value : ConditionValue φ → ConditionValue φ

def Rewriting.slot (f : Rewriting φ) : Slot φ → Slot φ
  | .plain s => .plain (f.plain s)
  | .text s => .text (f.text s)
  | .value v => .value (f.value v)

def Rewriting.target (f : Rewriting φ) (t : SemanticTargetRef) : SemanticTargetRef :=
  t.setRawValue (f.plain t.rawValue)

def Rewriting.wheres (f : Rewriting φ) (wcs : List (WhereCondition φ)) : List (WhereCondition φ) :=
  wcs.map fun wc => {wc with value := f.value wc.value}

def Rewriting.filters (f : Rewriting φ) (filters : List SubqueryFilter) : List SubqueryFilter :=
  filters.map fun sf => {sf with subquery.about := f.text sf.subquery.about}

/-- The leaves of a statement that binding looks at. -/
def Statement.slots : Statement φ ψ → List (Slot φ)
  | .recall r => [.text r.about]++r.topic.toList.map .plain++r.ns.toList.map .plain ++
      r.subqueryFilters.map (fun sf => .text sf.subquery.about)++
      r.whereClauses.map (fun wc => .value wc.value)
  | .think t => [.text t.about]++t.ns.toList.map .plain++t.whereClauses.map (fun wc => .value wc.value)
  | .correct c => [.plain c.target.rawValue]++c.reason.toList.map .plain++
      c.observedAt.toList.map .plain ++ c.causedBy.toList.map .plain
  | .supersede s => [.plain s.target.rawValue]++s.reason.toList.map .plain++
      s.observedAt.toList.map .plain ++ s.causedBy.toList.map .plain
  | .mergeMemory m => m.sources.map (fun source => .plain source.rawValue)++
      [.plain m.target.rawValue] ++
      m.reason.toList.map .plain++m.observedAt.toList.map .plain++m.causedBy.toList.map .plain
  | .retract r => [.plain r.target.rawValue]++r.reason.toList.map .plain++
      r.observedAt.toList.map .plain ++ r.causedBy.toList.map .plain
  | .traverse t => [.plain t.from_]++t.ns.toList.map .plain++
      t.whereClauses.map (fun wc => .value wc.value)
  | .inspect target => [.plain target.rawValue]
  | .history h => [.plain h.target.rawValue]
  | .trace target => [.plain target.rawValue]
  | .explain _ inner => inner.slots
  | .recallEvents r => r.entityFilter.toList.map .plain++r.whereClauses.map (fun wc => .value wc.value)
  | .explainCauses e => [.plain e.target]
  | .whatIf w => [.plain w.intervention]++[.plain w.outcome]
  | .counterfactual c => [.plain c.intervention]++[.plain c.outcome]
  | _ => []

/-- The statement with these leaves changed, and nothing else. -/
def Statement.mapSlots (f : Rewriting φ) : Statement φ ψ → Statement φ ψ
  | .recall r => .recall {r with about := f.text r.about,topic := r.topic.map f.plain,ns := r.ns.map f.plain,
                                 subqueryFilters := f.filters r.subqueryFilters,
                                 whereClauses := f.wheres r.whereClauses}
  | .think t => .think {t with about := f.text t.about,ns := t.ns.map f.plain,whereClauses := f.wheres t.whereClauses}
  | .correct c => .correct {c with target := f.target c.target,reason := c.reason.map f.plain,
                                   observedAt := c.observedAt.map f.plain,
                                   causedBy := c.causedBy.map f.plain}
  | .supersede s => .supersede {s with target := f.target s.target,reason := s.reason.map f.plain,
                                       observedAt := s.observedAt.map f.plain,
                                       causedBy := s.causedBy.map f.plain}
  | .mergeMemory m => .mergeMemory {m with sources := m.sources.map f.target,target := f.target m.target,
                                           reason := m.reason.map f.plain,
                                           observedAt := m.observedAt.map f.plain,
                                           causedBy := m.causedBy.map f.plain}
  | .retract r => .retract {r with target := f.target r.target,reason := r.reason.map f.plain,
                                   observedAt := r.observedAt.map f.plain,
                                   causedBy := r.causedBy.map f.plain}
  | .traverse t => .traverse {t with from_ := f.plain t.from_,ns := t.ns.map f.plain,
                                     whereClauses := f.wheres t.whereClauses}
  | .inspect target => .inspect (f.target target)
  | .history h => .history {h with target := f.target h.target}
  | .trace target => .trace (f.target target)
  | .explain analyze inner => .explain analyze (inner.mapSlots f)
  | .recallEvents r => .recallEvents {r with entityFilter := r.entityFilter.map f.plain,whereClauses := f.wheres r.whereClauses}
  | .explainCauses e => .explainCauses {e with target := f.plain e.target}
  | .whatIf w => .whatIf {w with intervention := f.plain w.intervention,outcome := f.plain w.outcome}
  | .counterfactual c => .counterfactual
      {c with intervention := f.plain c.intervention,outcome := f.plain c.outcome}
  | s => s

def Statement.blank : Statement φ ψ → Statement φ ψ :=
  Statement.mapSlots ⟨fun _ => ⟨.bare,[]⟩,fun _ => .literal [],fun _ => .int 0⟩

variable (f : Rewriting φ)

open Rewriting

@[simp] theorem rawValue_target (t : SemanticTargetRef) :
    (f.target t).rawValue = f.plain t.rawValue := by
  cases t <;> rfl

variable (s : Statement φ ψ)

theorem slots_mapSlots : (s.mapSlots f).slots = s.slots.map f.slot := by
  induction s with
  | explain analyze inner ih => exact ih
  | _ =>
    simp [Statement.mapSlots,Statement.slots,filters,wheres,slot,Option.toList_map,
      Function.comp_def]

theorem blank_mapSlots : (s.mapSlots f).blank = s.blank := by
  have htarget : ∀ (g : Rewriting φ) t, (∀ x, g.plain (f.plain x) = g.plain x) →
    g.target (f.target t) = g.target t := by
    intro g t h
    cases t <;> simp [target,SemanticTargetRef.setRawValue,SemanticTargetRef.rawValue,h]
  rw [Statement.blank]
  induction s with
  | explain analyze inner ih => simpa [Statement.mapSlots] using ih
  | _ => simp [Statement.mapSlots,filters,wheres,htarget,Function.comp_def]

def names (slots : List (Slot φ)) : List Text := slots.filterMap Slot.param?
@[simp] theorem names_append (a b : List (Slot φ)) : names (a++b) = names a++names b :=
  filterMap_append
@[simp] theorem names_nil : names ([] : List (Slot φ)) = [] := rfl

variable {params}

theorem mem_note : name ∈ note params name' ↔ name ∈ params ∨ name = name' := by
  unfold note
  split
  · rename_i h
    exact ⟨.inl,fun h' => h'.elim id fun heq => heq ▸ contains_iff_mem.mp h⟩
  · simp

variable {l : List Text}

theorem mem_foldl_note : name ∈ l.foldl note params ↔ name ∈ params ∨ name ∈ l := by
  induction l generalizing params with
  | nil => simp
  | cons x l ih => rw [foldl_cons,ih,mem_note,mem_cons,or_assoc]

theorem nodup_foldl_note (h : params.Nodup) : (l.foldl note params).Nodup := by
  induction l generalizing params with
  | nil => exact h
  | cons x l ih =>
    refine ih ?_
    unfold note
    split
    · exact h
    · exact nodup_append.mpr ⟨h,nodup_singleton x,by rintro a ha b hb rfl; simp_all⟩

theorem sorted_ext {l l' : List Text} (h : l.Nodup) (h' : l'.Nodup) (hmem : ∀ x, x ∈ l ↔ x ∈ l') :
    sorted l = sorted l' := by
  refine List.Perm.eq_of_pairwise (fun a b _ _ => le_antisymm) (pairwise_insertionSort _ l)
    (pairwise_insertionSort _ l') ?_
  exact ((perm_insertionSort _ l).trans ((perm_ext_iff_of_nodup h h').mpr hmem)).trans
    (perm_insertionSort _ l').symm

theorem sorted_filter (p : Text → Bool) : (sorted l).filter p = sorted (l.filter p) := by
  refine List.Perm.eq_of_pairwise (fun a b _ _ => le_antisymm)
    ((pairwise_insertionSort _ l).filter p) (pairwise_insertionSort _ _) ?_
  exact ((perm_insertionSort _ l).filter p).trans (perm_insertionSort _ _).symm

variable (φ) in
theorem check_eq (s : Leaf) : check params s = (names [(.plain s : Slot φ)]).foldl note params := by
  unfold check
  split <;> simp_all [names,Slot.param?]

variable (φ) in
theorem checkOpt_eq (field : Option Leaf) :
    checkOpt params field = (names (field.toList.map (.plain : Leaf → Slot φ))).foldl note params := by
  cases field with
  | none => rfl
  | some s => exact check_eq φ s

variable (φ) in
theorem checkStrParam_eq (s : StringOrParam) :
    checkStrParam params s = (names [(.text s : Slot φ)]).foldl note params := by
  cases s <;> rfl

theorem foldl_names {α : Type} {step : List Text → α → List Text} {slot : α → Slot φ}
    (hstep : ∀ params a, step params a = (names [slot a]).foldl note params) (as : List α) :
    as.foldl step params = (names (as.map slot)).foldl note params := by
  induction as generalizing params with
  | nil => rfl
  | cons a as ih =>
    rw [foldl_cons,ih,hstep,← foldl_append,← names_append]
    rfl

theorem checkWheres_eq (wcs : List (WhereCondition φ)) :
    checkWheres params wcs = (names (wcs.map fun wc => .value wc.value)).foldl note params :=
  foldl_names (fun params wc => by cases wc.value <;> rfl) wcs

theorem collect_eq (s : Statement φ ψ) : collect s = (names s.slots).foldl note [] := by
  induction s with
  | explain analyze inner ih => exact ih
  | _ =>
    simp only [collect,Statement.slots,check_eq φ,checkOpt_eq φ,checkStrParam_eq φ,checkWheres_eq,
      foldl_names fun _ _ => rfl,names_append,names_nil,foldl_append,foldl_nil]

def visit (missing : List Text) (a : α) : Missing α := fun noted => (a,missing.foldl note noted)

theorem visit_bind (missing : List Text) (a : α) (next : α → Missing β) (noted : List Text) :
    (visit missing a >>= next) noted = next a (missing.foldl note noted) := rfl

theorem visit_mapM {f : α → β} (hstep : ∀ a, step a = visit (missing a) (f a)) (as : List α) :
    as.mapM step = visit (as.flatMap missing) (as.map f) := by
  induction as with
  | nil => rfl
  | cons a as ih =>
    funext noted
    rw [mapM_cons,hstep,ih,flatMap_cons,visit,foldl_append]
    rfl

/-- What binding makes of each kind of leaf. -/
def bound : Rewriting φ where
  plain s := if isParam s.text then ((values s.text).map fun v => ⟨.bound,v⟩).getD s else s
  text s :=
    match s with
    | .param name => ((values name).map .literal).getD s
    | .literal _ => s
  value v :=
    match v with
    | .param name => ((values name).map (boundConditionValue fl)).getD v
    | _ => v

def missingNames (slots : List (Slot φ)) : List Text :=
  (names slots).filter fun name => (values name).isNone

theorem missingNames_append (a b : List (Slot φ)) :
    missingNames values (a++b) = missingNames values a++missingNames values b := by
  rw [missingNames,names_append,filter_append]
  rfl

theorem subst_eq (s : Leaf) : subst values s = visit (missingNames values [(.plain s : Slot φ)])
    ((bound fl values).plain s) := by
  unfold subst bound missingNames names
  by_cases h : isParam s.text = true
  · cases hv : values s.text <;> simp [Slot.param?,h,hv] <;> rfl
  · simp [Slot.param?,h]
    rfl

theorem substOpt_eq (field : Option Leaf) : substOpt values field =
    visit (missingNames values (field.toList.map (.plain : Leaf → Slot φ)))
    (field.map (bound fl values).plain) := by
  cases field with
  | none => rfl
  | some s =>
    rw [substOpt,subst_eq fl values s]
    rfl

theorem substTarget_eq (t : SemanticTargetRef) : substTarget values t =
    visit (missingNames values [(.plain t.rawValue : Slot φ)]) ((bound fl values).target t) := by
  rw [substTarget,subst_eq fl values]
  rfl

theorem substStr_eq (s : StringOrParam) :
    substStr values s = visit (missingNames values [(.text s : Slot φ)])
    ((bound fl values).text s) := by
  cases s with
  | literal value => rfl
  | param name => cases h : values name <;> simp [substStr,bound,missingNames,names,Slot.param?,
      h] <;> rfl

theorem substValue_eq (v : ConditionValue φ) :
    substValue fl values v = visit (missingNames values [.value v]) ((bound fl values).value v) := by
  cases v with
  | param name => cases h : values name <;> simp [substValue,bound,missingNames,names,Slot.param?,
      h] <;> rfl
  | _ => rfl

theorem missingNames_flatMap {slot : α → Slot φ} (as : List α) :
    (as.flatMap fun a => missingNames values [slot a]) = missingNames values (as.map slot) := by
  induction as with
  | nil => rfl
  | cons a as ih =>
    rw [flatMap_cons,ih,← missingNames_append]
    rfl

theorem substWheres_eq (wcs : List (WhereCondition φ)) : substWheres fl values wcs =
    visit (missingNames values (wcs.map fun wc => .value wc.value))
    ((bound fl values).wheres wcs) := by
  rw [← missingNames_flatMap]
  refine visit_mapM (fun wc => ?_) wcs
  rw [substValue_eq]
  rfl

theorem substFilters_eq (filters : List SubqueryFilter) : substFilters values filters =
    visit (missingNames values (filters.map fun sf => (.text sf.subquery.about : Slot φ)))
      ((bound fl values).filters filters) := by
  rw [← missingNames_flatMap]
  refine visit_mapM (fun sf => ?_) filters
  rw [substStr_eq fl]
  rfl

theorem substTargets_eq (targets : List SemanticTargetRef) : targets.mapM (substTarget values) =
    visit (missingNames values (targets.map fun t => (.plain t.rawValue : Slot φ)))
      (targets.map (bound fl values).target) := by
  rw [← missingNames_flatMap]
  exact visit_mapM (substTarget_eq fl values) targets

theorem bindFields_eq :
    bindFields fl values s = visit (missingNames values s.slots) (s.mapSlots (bound fl values)) := by
  induction s with
  | explain analyze inner ih =>
    rw [bindFields,ih]
    rfl
  | _ =>
    funext noted
    simp only [bindFields,Statement.slots,Statement.mapSlots,subst_eq fl values,substOpt_eq fl values,
      substTarget_eq fl values,substStr_eq fl values,substWheres_eq,substFilters_eq fl values,
      substTargets_eq fl values,visit_bind,missingNames_append,visit,foldl_append]
    rfl

theorem bindParameters_eq : bindParameters fl values s =
    (s.mapSlots (bound fl values),sorted ((missingNames values s.slots).foldl note [])) := by
  rw [bindParameters,bindFields_eq]
  rfl

theorem missing_eq :
    (bindParameters fl values s).2 = (collectParameters s).filter fun name =>
    (values name).isNone := by
  rw [bindParameters_eq,collectParameters,collect_eq,sorted_filter]
  refine sorted_ext (nodup_foldl_note nodup_nil) ((nodup_foldl_note nodup_nil).filter _) fun name => ?_
  rw [mem_foldl_note,mem_filter,mem_foldl_note,missingNames]
  simp

def Slot.IsPlaceholder : Slot φ → Prop
  | .plain s => s.written = .parameter
  | .text s => ∃ name, s = .param name
  | .value v => ∃ name, v = .param name

def Slot.Given (x : Slot φ) : Prop := ∃ name v, x.param? = some name ∧ values name = some v

/-- The leaf without what is only known of how it was written. -/
def Slot.shown : Slot φ → Slot φ
  | .plain s => .plain ⟨.bare,s.text⟩
  | x => x

structure BindsExactly (s : Statement φ ψ) : Prop where
  missing : (bindParameters fl values s).2 = (collectParameters s).filter fun name =>
    (values name).isNone
  frame : (bindParameters fl values s).1.blank = s.blank
  untouched : ∀ (i : ℕ) (x : Slot φ), s.slots[i]? = some x → ¬x.IsPlaceholder →
    (bindParameters fl values s).1.slots[i]?.map Slot.shown = some x.shown
  inert : ∀ (values' : Text → Option Text) (i : ℕ) (x : Slot φ), s.slots[i]? = some x →
    x.Given values →
    (bindParameters fl values' (bindParameters fl values s).1).1.slots[i]? =
    (bindParameters fl values s).1.slots[i]?

variable {fl values} {l : Leaf}

theorem bound_plain (hp : isParam l.text) (hv : values l.text = some v) :
    (bound fl values).plain l = ⟨.bound,v⟩ := by
  simp [bound,hp,hv]

theorem bound_plain_of_not_isParam (h : isParam l.text = false) : (bound fl values).plain l = l := by
  simp [bound,h]

theorem getElem?_slots_bind (s : Statement φ ψ) (i : ℕ) :
    (bindParameters fl values s).1.slots[i]? = s.slots[i]?.map (bound fl values).slot := by
  rw [bindParameters_eq,slots_mapSlots,getElem?_map]

theorem bound_tagged (hx : ∀ l, x ≠ .plain l) (hgiven : x.Given values)
    (values' : Text → Option Text) :
    (bound fl values').slot ((bound fl values).slot x) = (bound fl values).slot x := by
  obtain ⟨name,v,hname,hv⟩ := hgiven
  cases x with
  | plain l => exact absurd rfl (hx l)
  | text s =>
    cases s with
    | literal value => cases hname
    | param name' =>
      cases hname
      simp [slot,bound,hv]
  | value c =>
    cases c with
    | param name' =>
      cases hname
      have hvalue : (bound fl values).value (.param name) = boundConditionValue fl v := by
        simp [bound,hv]
      rw [slot,hvalue,boundConditionValue]
      cases parseI64 v <;> cases fl.parse64 v <;> rfl
    | _ => cases hname

theorem bound_tagged_of_not_isPlaceholder (hx : ∀ l, x ≠ .plain l)
    (hplaceholder : ¬x.IsPlaceholder) : (bound fl values).slot x = x := by
  cases x with
  | plain l => exact absurd rfl (hx l)
  | text s =>
    cases s with
    | literal value => rfl
    | param name => exact absurd ⟨name,rfl⟩ hplaceholder
  | value c =>
    cases c with
    | param name => exact absurd ⟨name,rfl⟩ hplaceholder
    | _ => rfl

variable (fl values)

/-- Binding is exact and inert unless a value goes to a leaf that only looks like a placeholder, or
looks like one itself. -/
theorem bindsExactly_iff {φ ψ : Type} (fl : Floats φ ψ) (values : Text → Option Text)
    (s : Statement φ ψ) : BindsExactly fl values s ↔
      ∀ l v, Slot.plain l ∈ s.slots → isParam l.text = true → values l.text = some v →
        l.written = .parameter ∧ isParam v = false := by
  constructor
  · intro h l v hmem hp hv
    obtain ⟨i,hi⟩ := mem_iff_getElem?.mp hmem
    have hinert : isParam v = false := by
      by_contra hparam
      rw [Bool.not_eq_false] at hparam
      -- another value for the name that has been put in
      have hagain := h.inert (fun _ => some ('x'::v)) i _ hi ⟨l.text,v,by simp [Slot.param?,hp],hv⟩
      have hsecond : (bound fl fun _ => some ('x'::v)).plain ⟨.bound,v⟩ = ⟨.bound,'x'::v⟩ :=
        bound_plain hparam rfl
      rw [getElem?_slots_bind,getElem?_slots_bind,hi,Option.map_some,Option.map_some,
        Option.some.injEq,slot,bound_plain hp hv,slot,hsecond] at hagain
      simp at hagain
    refine ⟨?_,hinert⟩
    by_contra hwritten
    have hsame := h.untouched i _ hi hwritten
    rw [getElem?_slots_bind,hi,Option.map_some,Option.map_some,Option.some.injEq,slot,
      bound_plain hp hv,Slot.shown,Slot.shown] at hsame
    simp only [Slot.plain.injEq,Leaf.mk.injEq,true_and] at hsame
    rw [hsame,hp] at hinert
    cases hinert
  · intro h
    refine ⟨missing_eq fl values s,by rw [bindParameters_eq,blank_mapSlots],?_,?_⟩
    · intro i x hi hplaceholder
      rw [getElem?_slots_bind,hi,Option.map_some,Option.map_some]
      cases x with
      | plain l =>
        by_cases hp : isParam l.text = true
        · cases hv : values l.text with
          | none => simp [slot,bound,hv]
          | some v => exact absurd (h l v (mem_of_getElem? hi) hp hv).1 hplaceholder
        · rw [slot,bound_plain_of_not_isParam (by simpa using hp)]
      | _ => rw [bound_tagged_of_not_isPlaceholder (by simp) hplaceholder]
    · intro values' i x hi hgiven
      rw [getElem?_slots_bind,getElem?_slots_bind,hi,Option.map_some,Option.map_some,Option.some.injEq]
      cases x with
      | plain l =>
        obtain ⟨name,v,hname,hv⟩ := hgiven
        by_cases hp : isParam l.text = true
        · rw [Slot.param?,if_pos hp,Option.some.injEq] at hname
          subst hname
          have hv' := (h l v (mem_of_getElem? hi) hp hv).2
          rw [slot,bound_plain hp hv,slot,bound_plain_of_not_isParam hv']
        · rw [Slot.param?,if_neg hp] at hname
          cases hname
      | _ => exact bound_tagged (by simp) hgiven values'

def single (name value : String) : Text → Option Text :=
  fun n => if n = txt name then some (txt value) else none

/-- A quoted text is replaced, and one placeholder takes another's value. -/
theorem quoted_text_bound : (∃ s, parse noFloats (txt "INSPECT '$id'") = .ok s ∧
      (bindParameters noFloats (single "$id" "other") s).1 = .inspect (.memory ⟨.bound,txt "other"⟩) ∧
      ¬BindsExactly noFloats (single "$id" "other") s) ∧
      ∃ s, parse noFloats (txt "EXPLAIN CAUSES $e") = .ok s ∧
      (bindParameters noFloats (single "$f" "g") (bindParameters noFloats (single "$e" "$f") s).1).1 =
        .explainCauses ⟨⟨.bound,txt "g"⟩,none,none⟩ ∧
      ¬BindsExactly noFloats (single "$e" "$f") s := by
  have hquoted : (parse noFloats (txt "INSPECT '$id'")).toOption =
    some (.inspect (.memory ⟨.quoted,txt "$id"⟩)) := by
    decide +kernel
  have hparameter : (parse noFloats (txt "EXPLAIN CAUSES $e")).toOption =
      some (.explainCauses ⟨⟨.parameter,txt "$e"⟩,none,none⟩) := by
    decide +kernel
  refine ⟨⟨_,eq_ok_of_toOption hquoted,by decide,fun h => ?_⟩,_,
    eq_ok_of_toOption hparameter,by decide,fun h => ?_⟩
  · have hsame := h.untouched 0 (.plain ⟨.quoted,txt "$id"⟩) rfl (by simp [Slot.IsPlaceholder])
    revert hsame
    decide
  · have hsame := h.inert (single "$f" "g") 0 (.plain ⟨.parameter,txt "$e"⟩) rfl ⟨txt "$e",
      txt "$f",by decide,by decide⟩
    revert hsame
    decide
end Hirn.Query
