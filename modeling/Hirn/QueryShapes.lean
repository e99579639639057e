import Hirn.Fallible
import Hirn.PegReadings
import Hirn.QueryBuild

/-! What the parts of a tree are, rule by rule, for the rules whose parts the proofs look into. -/
namespace Hirn.Query
open Peg Fallible List Grammar
variable {φ ψ : Type} (fl : Floats φ ψ)

theorem of_whereClause {p : Item Rule} (h : Of skip whereClause p) :
    ∃ text inner q, p = .pair .whereClause text inner ∧ p.intoInner = [q] ∧
      (Of skip inSubqueryCondition q ∨ Of skip condition q) := by
  obtain ⟨text,inner,hbody,rfl⟩ := of_normal h
  obtain ⟨_,_,rfl,⟨q,hq,rfl⟩ | ⟨q,hq,rfl⟩,hinner⟩ := hbody.shape
  · exact ⟨text,inner,q,rfl,hinner,.inl hq⟩
  · exact ⟨text,inner,q,rfl,hinner,.inr hq⟩

theorem of_inSubqueryCondition {p : Item Rule} (h : Of skip inSubqueryCondition p) :
    ∃ text inner field q, p = .pair .inSubqueryCondition text inner ∧ p.intoInner = [field,q] ∧
      Of skip identifier field ∧ Of skip subquery q := by
  obtain ⟨text,inner,hbody,rfl⟩ := of_normal h
  obtain ⟨_,_,⟨field,hfield,rfl⟩,⟨_,_,rfl,⟨_,_,rfl,⟨_,_,⟨q,hq,rfl⟩,rfl,rfl⟩,rfl⟩,rfl⟩,hinner⟩ :=
    hbody.shape
  exact ⟨text,inner,field,q,rfl,hinner,hfield,hq⟩

theorem of_limitClause {p : Item Rule} (h : Of skip limitClause p) :
    ∃ text inner q, p = .pair .limitClause text inner ∧ p.intoInner = [q] ∧
      (Of skip parameter q ∨ Of skip integerLiteral q) := by
  obtain ⟨text,inner,hbody,rfl⟩ := of_normal h
  obtain ⟨_,_,rfl,⟨q,hq,rfl⟩ | ⟨q,hq,rfl⟩,hinner⟩ := hbody.shape
  · exact ⟨text,inner,q,rfl,hinner,.inl hq⟩
  · exact ⟨text,inner,q,rfl,hinner,.inr hq⟩

theorem of_subquery {p : Item Rule} (h : Of skip subquery p) :
    ∃ text inner layers about involving temporal limit, p = .pair .subquery text inner ∧
      p.intoInner = layers::about::(Option.toList involving++Option.toList temporal++
      Option.toList limit) ∧ Of skip layerFilter layers ∧ Of skip aboutClause about ∧
      (∀ q ∈ involving, Of skip involvingClause q) ∧ (∀ q ∈ temporal, Of skip temporalClause q) ∧
      ∀ q ∈ limit, Of skip limitClause q := by
  obtain ⟨text,inner,hbody,rfl⟩ := of_normal h
  obtain ⟨_,_,rfl,⟨_,_,⟨layers,hl,rfl⟩,⟨_,_,⟨about,ha,rfl⟩,⟨_,_,hi,⟨_,_,ht,hlim,rfl⟩,rfl⟩,rfl⟩,rfl⟩,
    hinner⟩ := hbody.shape
  obtain ⟨involving,hi',rfl⟩ := (shape_opt_part rfl).1 hi
  obtain ⟨temporal,ht',rfl⟩ := (shape_opt_part rfl).1 ht
  obtain ⟨limit,hlim',rfl⟩ := (shape_opt_part rfl).1 hlim
  refine ⟨text,inner,layers,about,involving,temporal,limit,rfl,?_,hl,ha,hi',ht',hlim'⟩
  simpa [Item.intoInner] using hinner

inductive Built : Item Rule → Statement φ ψ → Prop
  | recallEvents {p r} (h : Of skip recallEventsStmt p) (hr : buildRecallEvents fl p = .ok r) :
      Built p (.recallEvents r)
  | recalls {p r} (h : Of skip recallStmt p) (hr : buildRecall fl p = .ok r) : Built p (.recall r)
  | think {p t} (h : Of skip thinkStmt p) (ht : buildThink fl p = .ok t) : Built p (.think t)
  | correct {p c} (h : Of skip correctStmt p) (hc : buildCorrect fl p = .ok c) : Built p (.correct c)
  | supersede {p c} (h : Of skip supersedeStmt p) (hc : buildCorrect fl p = .ok c) :
      Built p (.supersede c)
  | mergeMemory {p m} (h : Of skip mergeMemoryStmt p) (hm : buildMergeMemory fl p = .ok m) :
      Built p (.mergeMemory m)
  | retract {p r} (h : Of skip retractStmt p) (hr : buildRetract fl p = .ok r) : Built p (.retract r)
  | inspect {p t} (h : Of skip inspectStmt p) (ht : buildInspect p = .ok t) : Built p (.inspect t)
  | history {p t} (h : Of skip historyStmt p) (ht : buildHistory fl p = .ok t) : Built p (.history t)
  | trace {p t} (h : Of skip traceStmt p) (ht : buildInspect p = .ok t) : Built p (.trace t)
  | traverse {p t} (h : Of skip traverseStmt p) (ht : buildTraverse fl p = .ok t) :
      Built p (.traverse t)
  | explainCauses {p e} (h : Of skip explainCausesStmt p) (he : buildExplainCauses p = .ok e) :
      Built p (.explainCauses e)
  | whatIf {p w} (h : Of skip whatIfStmt p) (hw : buildWhatIf p = .ok w) : Built p (.whatIf w)
  | counterfactual {p w} (h : Of skip counterfactualStmt p) (hw : buildWhatIf p = .ok w) :
      Built p (.counterfactual w)
  | showPolicies {p o} (h : Of skip showPoliciesStmt p) (ho : buildShowPolicies p = .ok o) :
      Built p (.showPolicies o)
  | explainPolicy {p e} (h : Of skip explainPolicyStmt p) (he : buildExplainPolicy p = .ok e) :
      Built p (.explainPolicy e)
  | createRealm {p c} (h : Of skip createRealmStmt p) (hc : buildCreateRealm p = .ok c) :
      Built p (.createRealm c)
  | dropRealm {p d} (h : Of skip dropRealmStmt p) (hd : buildDropRealm p = .ok d) :
      Built p (.dropRealm d)
  | grant {p g} (h : Of skip grantStmt p) (hg : buildGrant p = .ok g) : Built p (.grant g)
  | revoke {p g} (h : Of skip revokeStmt p) (hg : buildRevoke p = .ok g) : Built p (.revoke g)
  | showCluster {p} (h : Of skip showClusterStmt p) : Built p .showCluster
  | setTierPolicy {p s} (h : Of skip setTierPolicyStmt p) (hs : buildSetTierPolicy fl p = .ok s) :
      Built p (.setTierPolicy s)
  | explain {text inner flag text' inner' q s}
      (hflag : ∀ f ∈ flag, Of skip analyzeFlag f)
      (hinner : (Item.pair Rule.explainStmt text inner).intoInner =
        Option.toList flag++[.pair .innerStmt text' inner'])
      (hq : (Item.pair Rule.innerStmt text' inner').intoInner = [q]) (built : Built q s) :
      Built (.pair .explainStmt text inner) (.explain flag.isSome s)

def Grammar.statements : List (Expr Rule) :=
  [explainStmt,explainPolicyStmt,explainCausesStmt,showClusterStmt,
    showPoliciesStmt,setTierPolicyStmt,createRealmStmt,dropRealmStmt,
    grantStmt,revokeStmt,whatIfStmt,counterfactualStmt,
    recallEventsStmt,recallStmt,thinkStmt,rememberStmt,forgetStmt,
    correctStmt,supersedeStmt,mergeMemoryStmt,retractStmt,
    connectStmt,inspectStmt,historyStmt,traceStmt,consolidateStmt,
    watchStmt,traverseStmt]

variable {p : Item Rule}

theorem of_innerStmt (h : Of skip innerStmt p) :
    ∃ text inner q, p = .pair .innerStmt text inner ∧ p.intoInner = [q] ∧ ∃ e ∈ statements,
    Of skip e q := by
  obtain ⟨text,inner,hbody,rfl⟩ := of_normal h
  obtain ⟨e,he,q,hq,hinner⟩ := exists_of_shape_alts (by decide) (by simp) hbody.shape
  refine ⟨text,inner,q,rfl,hinner,e,?_,hq⟩
  simp only [mem_cons,not_mem_nil,or_false] at he
  rcases he with rfl | rfl | rfl | rfl | rfl | rfl | rfl | rfl | rfl | rfl | rfl | rfl | rfl | rfl | rfl | rfl | rfl
  all_goals simp only [statements,mem_cons,true_or,or_true]

theorem of_explainStmt (h : Of skip explainStmt p) :
    ∃ text inner flag q, p = .pair .explainStmt text inner ∧ p.intoInner = Option.toList flag++[q] ∧
      (∀ f ∈ flag, Of skip analyzeFlag f) ∧ Of skip innerStmt q := by
  obtain ⟨text,inner,hbody,rfl⟩ := of_normal h
  obtain ⟨_,_,rfl,⟨_,_,hopt,⟨q,hq,rfl⟩,rfl⟩,hinner⟩ := hbody.shape
  obtain ⟨flag,hflag,rfl⟩ := (shape_opt_part rfl).1 hopt
  exact ⟨text,inner,flag,q,rfl,hinner,hflag,hq⟩

theorem of_statement (h : Of skip statement p) :
    ∃ text inner q stop, p = .pair .statement text inner ∧ p.intoInner = [q,stop] ∧ Of skip eoi stop ∧
      ∃ e ∈ statements, Of skip e q := by
  obtain ⟨text,inner,hbody,rfl⟩ := of_normal h
  obtain ⟨_,_,rfl,⟨_,_,hw₁,⟨_,_,hstmt,⟨_,_,hw₂,⟨stop,hstop,rfl⟩,rfl⟩,rfl⟩,rfl⟩,hinner⟩ := hbody.shape
  obtain ⟨e,he,q,hq,rfl⟩ := exists_of_shape_alts (by decide) (by simp) hstmt
  obtain rfl := shape_eq_nil hw₁ (by decide)
  obtain rfl := shape_eq_nil hw₂ rfl
  exact ⟨text,inner,q,stop,rfl,hinner,hstop,e,he,hq⟩

theorem of_named (hp : ∃ e ∈ statements, Of skip e p) {r : Rule}
    (hr : p.asRule = some r) {e' : Expr Rule} (hone : statements.filter (·.name = some r) = [e']) :
    Of skip e' p := by
  obtain ⟨e,he,hof⟩ := hp
  have hname : e.name = some r := by
    rw [← hr,of_asRule hof]
    exact (by decide : ∀ e ∈ statements, e.name.isSome) e he
  have hmem : e ∈ statements.filter (·.name = some r) := mem_filter.2 ⟨he,by simpa using hname⟩
  rw [hone,mem_singleton] at hmem
  exact hmem ▸ hof

theorem buildInner_built (hp : ∃ e ∈ statements, Of skip e p) (hs : buildInner fl p = .ok s) :
    Built fl p s := by
  unfold buildInner at hs
  split at hs
  case h_4 => simp [unsupportedEmbeddedStatement] at hs
  case h_18 => simp at hs
  all_goals
    obtain ⟨x,hx,rfl⟩ := map_eq_ok.1 hs
    constructor
    · exact of_named hp ‹_› rfl
    · exact hx

theorem buildExplain_built (h : Of skip explainStmt p) (hs : buildExplain fl p = .ok s) :
    Built fl p s := by
  obtain ⟨text,inner,flag,stmt,rfl,hinner,hflag,hstmt⟩ := of_explainStmt h
  obtain ⟨text',inner',q,rfl,hq,hof⟩ := of_innerStmt hstmt
  simp only [buildExplain,hinner,foldlM_append,foldlM_cons,foldlM_nil,bind_eq_ok,pure_eq_ok,
    explainStep,Item.asRule,hq,head?_cons,map_eq_ok,Except.ok.injEq] at hs
  obtain ⟨_,⟨s₁,hs₁,_,⟨inner₀,hbuild,rfl⟩,rfl⟩,inner₁,horError,rfl⟩ := hs
  obtain rfl : inner₀ = inner₁ := by simpa [orError] using horError
  have hanalyze : s₁.1 = flag.isSome := by
    cases flag with
    | none =>
      have hfirst : (false,none) = s₁ := by simpa using hs₁
      rw [← hfirst]
      rfl
    | some f =>
      have hf : f.asRule = some .analyzeFlag := of_asRule (hflag f rfl) rfl
      simp [explainStep,hf] at hs₁
      simp [← hs₁]
  rw [hanalyze]
  exact .explain hflag hinner hq (buildInner_built fl hof hbuild)

theorem buildStatement_built (h : Of skip statement p) (hs : buildStatement fl p = .ok s) :
    ∃ text inner q stop, p = .pair .statement text inner ∧ p.intoInner = [q,stop] ∧ Of skip eoi stop ∧
      Built fl q s := by
  obtain ⟨text,inner,q,stop,rfl,hinner,hstop,hof⟩ := of_statement h
  refine ⟨text,inner,q,stop,rfl,hinner,hstop,?_⟩
  simp only [buildStatement,hinner,head?_cons] at hs
  split at hs
  case h_1 | h_2 | h_3 | h_4 => simp [unsupportedEmbeddedStatement] at hs
  case h_5 => exact buildExplain_built fl (of_named hof ‹_› rfl) hs
  case h_10 =>
    obtain rfl := Except.ok.inj hs
    exact .showCluster (of_named hof ‹_› rfl)
  case h_12 => exact buildInner_built fl hof hs
  all_goals
    obtain ⟨x,hx,rfl⟩ := map_eq_ok.1 hs
    constructor
    · exact of_named hof ‹_› rfl
    · exact hx

theorem splits_skip : Splits skip := splits_skipOf _ _

variable {input : Text}

theorem parseTree_of {tree : Item Rule} (h : parseTree input = some tree) :
    Of skip statement tree := by
  obtain ⟨m,hm,hhead⟩ := Option.bind_eq_some_iff.1 h
  have hread := run_reads splits_skip hm
  obtain ⟨inner,-,hitems⟩ := run_reads splits_skip hm
  have htree : m.items = [tree] := by
    rw [hitems] at hhead ⊢
    simpa using hhead
  exact ⟨m.text,htree ▸ hread⟩

theorem parseWithLimits_ok {limits : QueryLimits} :
    parseWithLimits fl limits input = .ok s ↔ byteLength input ≤ limits.maxQueryLength ∧
      ∃ tree, parseTree input = some tree ∧ buildStatement fl tree = .ok s ∧
      validateLimits limits s = .ok () := by
  unfold parseWithLimits
  by_cases hlong : limits.maxQueryLength < byteLength input
  · simp [hlong]
  · rw [if_neg hlong]
    cases htree : parseTree input with
    | none => simp
    | some tree =>
      simp only [bind_eq_ok,pure_eq_ok,Except.ok.injEq,Nat.not_lt.1 hlong,true_and,
        Option.some.injEq,exists_eq_left']
      constructor
      · rintro ⟨s',hbuild,⟨⟩,hvalid,rfl⟩
        exact ⟨hbuild,hvalid⟩
      · rintro ⟨hbuild,hvalid⟩
        exact ⟨s,hbuild,(),hvalid,rfl⟩
end Hirn.Query
