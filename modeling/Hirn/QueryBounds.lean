import Hirn.QueryShapes

/-! Which numbers of a statement are at most what the limits allow. All that a statement holds
directly are checked; what stands behind LIMIT in a subquery is not. -/
namespace Hirn.Query
open Peg Fallible List Grammar Item Option
variable {φ ψ : Type} (fl : Floats φ ψ)

inductive Bound
  | limit | depth | budget | maxHops | causes | provenance | community
  deriving DecidableEq

variable (limits : QueryLimits)

def QueryLimits.maxFor : Bound → ℕ
  | .limit => limits.maxLimit
  | .depth => limits.maxExpandDepth
  | .budget => limits.maxContextBudget
  | .maxHops => limits.maxIterativeHops
  | .causes => limits.maxCausalDepth
  | .provenance => limits.maxProvenanceDepth
  | .community => limits.maxCommunityDepth

def numbered (b : Bound) (value : Option ℕ) : List (Bound × ℕ) := (value.map (b,·)).toList

def Statement.subqueryLimits : Statement φ ψ → List ℕ
  | .recall r => r.subqueryFilters.filterMap (·.subquery.limit)
  | .explain _ inner => inner.subqueryLimits
  | _ => []

/-- The other numbers of a statement. -/
def Statement.ownNumbers : Statement φ ψ → List (Bound × ℕ)
  | .recall r =>
    numbered .limit r.limit++numbered .budget r.budget++numbered .depth (r.expand.map (·.depth)) ++
      numbered .causes r.followCauses++numbered .provenance r.provenanceDepth
  | .think t =>
    numbered .limit t.limit++numbered .budget t.budget++numbered .maxHops t.maxHops ++
      numbered .depth (t.expand.map (·.depth))++numbered .causes t.followCauses ++
      numbered .provenance t.provenanceDepth++numbered .community t.communityDepth
  | .recallEvents r => numbered .limit r.limit
  | .traverse t => numbered .depth (some t.depth)++numbered .limit t.limit
  | .explain _ inner => inner.ownNumbers
  | .explainCauses e => numbered .causes e.depth
  | _ => []

def Statement.numbers (s : Statement φ ψ) : List (Bound × ℕ) :=
  s.ownNumbers++s.subqueryLimits.map (.limit,·)

def Statement.Within (s : Statement φ ψ) : Prop :=
  ∀ b n, (b,n) ∈ s.numbers → n ≤ limits.maxFor b

def subqueryLimits (tree : Item Rule) : List ℕ :=
  (tree.within .subquery).flatMap fun q =>
    ((q.children .limitClause).flatMap (·.children .integerLiteral)).filterMap fun p =>
      parseUsize p.asStr

/-- The LIMIT of every subquery that is written in a text is within the limits. -/
def SubqueriesWithin (input : Text) : Prop :=
  ∀ tree ∈ parseTree input, ∀ n ∈ subqueryLimits tree, n ≤ limits.maxLimit

variable {name : String} {limits : QueryLimits} {value : Option ℕ} {max : ℕ}

theorem checkAtMost_ok {value : ℕ} : checkAtMost name value max = .ok () ↔ value ≤ max := by
  unfold checkAtMost
  split <;> simp <;> omega

theorem ifSome_ok : ifSome (checkAtMost name) value max = .ok () ↔ ∀ n ∈ value, n ≤ max := by
  cases value <;> simp [ifSome,checkAtMost_ok]

theorem forall_mem_numbered : (∀ x ∈ numbered b value, x.2 ≤ limits.maxFor x.1) ↔
    ∀ n ∈ value, n ≤ limits.maxFor b := by
  cases value <;> simp [numbered]

theorem both_ok {x y : Except ParseError Unit} :
    (x >>= fun _ => y) = .ok () ↔ x = .ok () ∧ y = .ok () := by
  cases x <;> simp

theorem validateLimits_ok : (s : Statement φ ψ) →
    (validateLimits limits s = .ok () ↔ ∀ x ∈ s.ownNumbers, x.2 ≤ limits.maxFor x.1)
  | .recall r => by
    simp only [validateLimits,Statement.ownNumbers,both_ok,forall_mem_append,checkLimit,checkBudget,
      checkDepth,checkCausalDepth,checkProvenanceDepth,ifSome_ok,forall_mem_numbered,and_assoc]
    rfl
  | .think t => by
    simp only [validateLimits,Statement.ownNumbers,both_ok,forall_mem_append,checkLimit,checkBudget,
      checkMaxHops,checkDepth,checkCausalDepth,checkProvenanceDepth,checkCommunityDepth,ifSome_ok,
      forall_mem_numbered,and_assoc]
    rfl
  | .recallEvents r => by
    simp only [validateLimits,Statement.ownNumbers,checkLimit,ifSome_ok,forall_mem_numbered]
    rfl
  | .traverse t => by
    simp only [validateLimits,Statement.ownNumbers,both_ok,forall_mem_append,checkLimit,checkDepth,
      checkAtMost_ok,ifSome_ok,forall_mem_numbered,mem_some_iff,forall_eq']
    rfl
  | .explain _ inner => validateLimits_ok inner
  | .explainCauses e => by
    simp only [validateLimits,Statement.ownNumbers,checkCausalDepth,ifSome_ok,forall_mem_numbered]
    rfl
  | .correct _ | .supersede _ | .mergeMemory _ | .retract _ | .inspect _ | .history _ | .trace
      _ | .whatIf _
  | .counterfactual _ | .createRealm _ | .dropRealm _ | .grant _ | .revoke _ | .showPolicies _
  | .explainPolicy _ | .showCluster | .setTierPolicy _ => by
    simp [validateLimits,Statement.ownNumbers]

variable {q : Subquery} {s : Statement φ ψ} {r : Rule}

theorem subqueryLimits_pair (hr : r ≠ .subquery) (text : Text) (inner : List (Item Rule)) :
    subqueryLimits (.pair r text inner) = (pair r text inner).intoInner.flatMap subqueryLimits := by
  simp only [subqueryLimits,within,if_neg hr,nil_append,withinAll_eq_flatMap,flatMap_assoc]
  rfl

variable {e : Expr Rule} {p : Item Rule}

theorem subqueryLimits_eq_nil (h : Of skip e p) (he : e.mentions .subquery = false) :
    subqueryLimits p = [] := by
  rw [subqueryLimits,h.within_eq_nil he,flatMap_nil]

variable {inner : List (Item Rule)}

theorem subqueryLimits_clause (h : Reads skip e text inner)
    (he : ∀ e' ∈ e.parts, e'.name ≠ some .whereClause → e'.mentions .subquery = false)
    (hp : p ∈ inner) (hwhere : p.asRule ≠ some .whereClause) : subqueryLimits p = [] := by
  cases hr : p.asRule with
  | none =>
    cases p with
    | word s => simp [subqueryLimits,within]
    | pair r text inner => simp [asRule] at hr
  | some r =>
    obtain ⟨e',he',hname,hof⟩ := h.part hp hr
    exact subqueryLimits_eq_nil hof (he e' he' (by rw [hname,← hr]; exact hwhere))

theorem extractInt_limitClause (h : Of skip limitClause p) (hn : extractInt p = .ok n) :
    ((p.children .integerLiteral).filterMap fun q => parseUsize q.asStr) = [n] := by
  obtain ⟨text,inner,q,-,hinner,hq | hq⟩ := of_limitClause h
  · obtain ⟨name,_,_,rfl⟩ := of_atomic hq
    simp [extractInt,hinner,asRule] at hn
  · obtain ⟨digits,_,_,rfl⟩ := of_atomic hq
    simp only [extractInt,hinner,asRule] at hn
    cases hd : parseUsize digits with
    | none => simp [hd,asStr] at hn
    | some k =>
      have hk : k = n := by simpa [hd,asStr] using hn
      simp [children,hinner,asRule,asStr,hd,hk]

theorem subqueryStep_limit (hp : p.asRule ≠ some .limitClause)
    (h : subqueryStep q p = .ok q') : q'.limit = q.limit := by
  unfold subqueryStep at h
  split at h <;> simp at h <;> grind

theorem buildSubquery_limit (h : Of skip subquery p) (hq : buildSubquery p = .ok q) :
    (((p.children .limitClause).flatMap (·.children .integerLiteral)).filterMap fun l =>
    parseUsize l.asStr) =
      q.limit.toList := by
  obtain ⟨text,inner,layers,about,involving,temporal,limit,-,hinner,hl,ha,hi,ht,hlimit⟩ :=
    of_subquery h
  -- the clauses before LIMIT leave it as it was
  have hfront : ∀ c ∈ layers::about::(toList involving++toList temporal),
      c.asRule ≠ some .limitClause := by
    intro c hc
    simp only [mem_cons,mem_append,mem_toList] at hc
    rcases hc with rfl | rfl | hc | hc
    · rw [of_asRule hl rfl]
      decide
    · rw [of_asRule ha rfl]
      decide
    · rw [of_asRule (hi c hc) rfl]
      decide
    · rw [of_asRule (ht c hc) rfl]
      decide
  have hsplit : p.intoInner = (layers::about::(toList involving++toList temporal)) ++
      limit.toList := by simp [hinner]
  rw [buildSubquery,hsplit,foldlM_append,bind_eq_ok] at hq
  obtain ⟨q₁,h₁,h₂⟩ := hq
  have hnone : q₁.limit = none :=
    foldlM_invariant (I := fun q => q.limit = none)
      (fun c hc a a' ha hstep => (subqueryStep_limit (hfront c hc) hstep).trans ha) rfl h₁
  have hchildren : p.children .limitClause = limit.toList.filter (·.asRule = some .limitClause) := by
    rw [children,hsplit,filter_append,filter_eq_nil_iff.2 (by simpa using hfront),nil_append]
  rw [hchildren]
  cases limit with
  | none =>
    have hq : q₁ = q := by simpa using h₂
    simp [← hq,hnone]
  | some l =>
    have hl := hlimit l rfl
    have hrule : l.asRule = some .limitClause := of_asRule hl rfl
    simp only [toList_some,foldlM_cons,foldlM_nil,bind_pure,subqueryStep,hrule,map_eq_ok] at h₂
    obtain ⟨n,hn,rfl⟩ := h₂
    simpa [hrule] using extractInt_limitClause hl hn

theorem buildInSubquery_limits (h : Of skip inSubqueryCondition p)
    (hf : buildInSubquery p = .ok f) : subqueryLimits p = f.subquery.limit.toList := by
  obtain ⟨text,inner,field,q,rfl,hinner,hfield,hq⟩ := of_inSubqueryCondition h
  have hfieldRule : field.asRule = some .identifier := of_asRule hfield rfl
  have hqRule : q.asRule = some .subquery := of_asRule hq rfl
  simp only [buildInSubquery,hinner,foldlM_cons,foldlM_nil,bind_pure,inSubqueryStep,hfieldRule,
    hqRule,ok_bind,map_eq_ok] at hf
  obtain ⟨q',hq',rfl⟩ := hf
  have hrest : subqueryLimits field = [] := subqueryLimits_eq_nil hfield (by decide)
  have hown : q.within .subquery = [q] := by
    obtain ⟨text',inner',hbody,rfl⟩ := of_normal hq
    rw [within,if_pos rfl,hbody.withinAll_eq_nil (by decide),append_nil]
  rw [subqueryLimits_pair (by decide),hinner,flatMap_cons,hrest,flatMap_singleton,subqueryLimits,
    hown,flatMap_singleton]
  exact buildSubquery_limit hq hq'

def RecallStmt.subqueryLimits (stmt : RecallStmt φ ψ) : List ℕ :=
  stmt.subqueryFilters.filterMap (·.subquery.limit)

variable {stmt stmt' : RecallStmt φ ψ}

theorem recallWhere_limits (h : Of skip whereClause p) (hstep : recallWhere fl stmt p = .ok stmt') :
    stmt'.subqueryLimits = stmt.subqueryLimits++Query.subqueryLimits p := by
  obtain ⟨text,inner,q,rfl,hinner,hq⟩ := of_whereClause h
  have hlimits : Query.subqueryLimits (.pair .whereClause text inner) = Query.subqueryLimits q := by
    rw [subqueryLimits_pair (by decide),hinner,flatMap_singleton]
  rw [hlimits]
  rcases hq with hq | hq
  · have hrule : q.asRule = some .inSubqueryCondition := of_asRule hq rfl
    simp only [recallWhere,hinner,head?_cons,hrule,map_eq_ok] at hstep
    obtain ⟨f,hf,rfl⟩ := hstep
    rw [buildInSubquery_limits hq hf]
    cases hlimit : f.subquery.limit <;> simp [RecallStmt.subqueryLimits,hlimit]
  · have hrule : q.asRule = some .condition := of_asRule hq rfl
    simp only [recallWhere,hinner,head?_cons,hrule,map_eq_ok] at hstep
    obtain ⟨c,-,rfl⟩ := hstep
    rw [subqueryLimits_eq_nil hq (by decide),append_nil]
    rfl

theorem recallStep_subqueryFilters (hp : p.asRule ≠ some .whereClause)
    (h : recallStep fl stmt p = .ok stmt') : stmt'.subqueryFilters = stmt.subqueryFilters := by
  unfold recallStep at h
  split at h
  case h_8 hwhere => exact absurd hwhere hp
  all_goals simp only [map_eq_ok,Except.ok.injEq] at h; grind

theorem buildRecall_limits (h : Of skip recallStmt p)
    (hstmt : buildRecall fl p = .ok stmt) : stmt.subqueryLimits = Query.subqueryLimits p := by
  obtain ⟨text,inner,hbody,rfl⟩ := of_normal h
  rw [buildRecall,bind_eq_ok'] at hstmt
  obtain ⟨stmt',hfold,hcheck⟩ := hstmt
  have hsame : stmt' = stmt := by
    split at hcheck
    · simp at hcheck
    · simpa using hcheck
  have hgather := foldlM_gathers RecallStmt.subqueryLimits Query.subqueryLimits ?_ hfold
  · rw [← hsame,hgather,subqueryLimits_pair (by decide)]
    rfl
  · intro c hc a a' hstep
    have hmem : c ∈ inner := mem_of_mem_filter hc
    by_cases hwhere : c.asRule = some .whereClause
    · have hof := hbody.named hmem hwhere rfl
      simp only [recallStep,hwhere] at hstep
      exact recallWhere_limits fl hof hstep
    · rw [subqueryLimits_clause hbody (by decide) hmem hwhere]
      simp [RecallStmt.subqueryLimits,recallStep_subqueryFilters fl hwhere hstep]

theorem subqueryLimits_refused {σ : Type} {step : σ → Item Rule → Except ParseError σ}
    {init stmt : σ} (h : Of skip (normal r e) p) (hr : r ≠ .subquery)
    (he : ∀ e' ∈ e.parts, e'.name ≠ some .whereClause → e'.mentions .subquery = false)
    (hone : e.parts.filter (·.name = some .whereClause) = [whereClause])
    (hstmt : p.intoInner.foldlM step init = .ok stmt)
    (hwhere : ∀ a c a', c.asRule = some .whereClause → step a c = .ok a' →
    ∃ cond, buildWhere fl c = .ok cond) : subqueryLimits p = [] := by
  obtain ⟨text,inner,hbody,rfl⟩ := of_normal h
  rw [subqueryLimits_pair hr]
  refine flatMap_eq_nil_iff.2 fun c hc => ?_
  have hmem : c ∈ inner := mem_of_mem_filter hc
  by_cases hrule : c.asRule = some .whereClause
  · obtain ⟨a,a',hstep⟩ := foldlM_step hstmt hc
    obtain ⟨cond,hcond⟩ := hwhere a c a' hrule hstep
    obtain ⟨text',inner',q,rfl,hinner,hq | hq⟩ := of_whereClause (hbody.named hmem hrule hone)
    · have hq' : q.asRule = some .inSubqueryCondition := of_asRule hq rfl
      simp [buildWhere,findRule,hinner,hq'] at hcond
    · rw [subqueryLimits_pair (by decide),hinner,flatMap_singleton]
      exact subqueryLimits_eq_nil hq (by decide)
  · exact subqueryLimits_clause hbody he hmem hrule

theorem Built.subqueryLimits_eq (h : Built fl p s) : s.subqueryLimits = subqueryLimits p := by
  induction h
  case recallEvents h hr =>
    refine (subqueryLimits_refused fl h (by decide) (by decide) rfl hr fun a c a' hrule hstep =>
      ?_).symm
    simp only [recallEventsStep,hrule,map_eq_ok] at hstep
    exact ⟨_,hstep.choose_spec.1⟩
  case recalls h hr => exact buildRecall_limits fl h hr
  case think h ht =>
    refine (subqueryLimits_refused fl h (by decide) (by decide) rfl ht fun a c a' hrule hstep =>
      ?_).symm
    simp only [thinkStep,hrule,map_eq_ok] at hstep
    exact ⟨_,hstep.choose_spec.1⟩
  case traverse h ht =>
    refine (subqueryLimits_refused fl h (by decide) (by decide) rfl ht fun a c a' hrule hstep =>
      ?_).symm
    simp only [traverseStep,hrule,map_eq_ok] at hstep
    exact ⟨_,hstep.choose_spec.1⟩
  case explain flag _ _ q s hflag hinner hq _ ih =>
    have hnone : flag.toList.flatMap subqueryLimits = [] :=
      flatMap_eq_nil_iff.2 fun f hf =>
        subqueryLimits_eq_nil (hflag f (mem_toList.1 hf)) (by decide)
    rw [subqueryLimits_pair (by decide),hinner,flatMap_append,hnone,nil_append,flatMap_singleton,
      subqueryLimits_pair (by decide),hq,flatMap_singleton]
    exact ih
  -- the others have no WHERE clause
  all_goals exact (subqueryLimits_eq_nil ‹_› (by decide)).symm

theorem buildStatement_limits (h : Of skip statement p)
    (hs : buildStatement fl p = .ok s) : s.subqueryLimits = subqueryLimits p := by
  obtain ⟨text,inner,q,stop,rfl,hinner,hstop,hbuilt⟩ := buildStatement_built fl h hs
  rw [subqueryLimits_pair (by decide),hinner,flatMap_cons,flatMap_singleton,
    subqueryLimits_eq_nil hstop (by decide),append_nil]
  exact hbuilt.subqueryLimits_eq

/-- An accepted statement's numbers are within the limits exactly if those behind LIMIT in its
subqueries are. -/
theorem accepted_within_iff {φ ψ : Type} (fl : Floats φ ψ) (limits : QueryLimits) (input : Text)
    (s : Statement φ ψ) (h : parseWithLimits fl limits input = .ok s) :
    s.Within limits ↔ SubqueriesWithin limits input := by
  obtain ⟨-,tree,htree,hbuild,hvalid⟩ := (parseWithLimits_ok fl).1 h
  have hown := (validateLimits_ok s).1 hvalid
  have hsub : s.subqueryLimits = subqueryLimits tree :=
    buildStatement_limits fl (parseTree_of htree) hbuild
  constructor
  · intro hwithin tree' htree' n hn
    obtain rfl : tree = tree' := some.inj (htree.symm.trans htree')
    refine hwithin .limit n (mem_append.2 (.inr (mem_map.2 ⟨n,?_,rfl⟩)))
    rwa [hsub]
  · intro hsubqueries b n hmem
    rcases mem_append.1 hmem with hmem | hmem
    · exact hown (b,n) hmem
    · obtain ⟨k,hk,heq⟩ := mem_map.1 hmem
      obtain ⟨rfl,rfl⟩ := Prod.mk.inj heq
      exact hsubqueries tree htree k (hsub ▸ hk)

def nestedRecall (limit : String) : Text :=
  txt ("RECALL episodic ABOUT 'a' WHERE id IN (RECALL semantic ABOUT 'b' LIMIT "++limit++") LIMIT 5")

/-- A subquery may ask for more than is allowed. -/
theorem nested_limit_unchecked : ∃ s : Statement Unit Unit,
    parseWithLimits noFloats {} (nestedRecall "20000") = .ok s ∧ ¬ s.Within {} := by
  have hnumbers : (parseWithLimits noFloats {} (nestedRecall "20000")).toOption.map
      Statement.numbers = some [(.limit,5),(.limit,20000)] := by decide +kernel
  obtain ⟨s,hs,hnumbers⟩ := map_eq_some_iff.1 hnumbers
  refine ⟨s,eq_ok_of_toOption hs,fun hwithin => ?_⟩
  have hle := hwithin .limit 20000 (by simp [hnumbers])
  exact absurd hle (by decide)

theorem accepted_within_nested : ∃ s : Statement Unit Unit,
    parseWithLimits noFloats {} (nestedRecall "20") = .ok s ∧ s.Within {} := by
  have hsome : (parseWithLimits noFloats {} (nestedRecall "20")).toOption.isSome := by decide +kernel
  obtain ⟨s,hs⟩ := isSome_iff_exists.1 hsome
  have htree : (parseTree (nestedRecall "20")).map subqueryLimits = some [20] := by decide +kernel
  refine ⟨s,eq_ok_of_toOption hs,(accepted_within_iff noFloats {} _ s (eq_ok_of_toOption hs)).2 ?_⟩
  intro tree hmem n hn
  rw [mem_def.1 hmem,map_some,some.injEq] at htree
  obtain rfl : n = 20 := by simpa [htree] using hn
  decide
end Hirn.Query
