import Hirn.QueryLiterals

/-! Whom and what a policy statement is about, as written and as the parser takes it. The parser tells
the kinds by searching the text of a clause, so that a name may speak for the keyword. -/
namespace Hirn.Query
open Peg Fallible List Grammar
variable {φ ψ : Type} (fl : Floats φ ψ)

structure Policy where
  principal : Option PrincipalRef
  target : Option GrantTarget
  deriving DecidableEq

def PrincipalRef.name : PrincipalRef → Text
  | .agent name => name
  | .team name => name

def GrantTarget.name : GrantTarget → Text
  | .namespace_ name => name
  | .realm name => name

def Policy.names (x : Policy) : Option Text × Option Text :=
  (x.principal.map PrincipalRef.name,x.target.map GrantTarget.name)

def ExplainPolicyStmt.target (e : ExplainPolicyStmt) : Option GrantTarget :=
  if e.resourceType = txt "namespace" then some (.namespace_ e.resourceName)
  else if e.resourceType = txt "realm" then some (.realm e.resourceName)
  else none

/-- The policy of GRANT, REVOKE, SHOW POLICIES or EXPLAIN POLICY, also behind EXPLAIN. -/
def Statement.policy : Statement φ ψ → Option Policy
  | .grant g => some ⟨some g.principal,some g.target⟩
  | .revoke g => some ⟨some g.principal,some g.target⟩
  | .showPolicies principal => some ⟨principal,none⟩
  | .explainPolicy e => some ⟨some e.principal,e.target⟩
  | .explain _ inner => inner.policy
  | _ => none

variable (p : Item Rule)

def quotedName : Text :=
  ((p.children .stringLiteral).head?.map fun q => unescaped (contentOf q)).getD []

def writtenPrincipal : PrincipalRef :=
  if txt "team" ∈ p.words then .team (quotedName p) else .agent (quotedName p)

def writtenTarget : GrantTarget :=
  if txt "namespace" ∈ p.words then .namespace_ (quotedName p) else .realm (quotedName p)

def policyRules : List Rule := [.grantStmt,.revokeStmt,.showPoliciesStmt,.explainPolicyStmt]
def policyStatements (tree : Item Rule) : List (Item Rule) :=
  policyRules.flatMap fun r => tree.within r

/-- The policy of one statement; EXPLAIN POLICY has its target in the statement. -/
def writtenIn : Policy :=
  ⟨(p.children .principalRef).head?.map writtenPrincipal,
    if p.asRule = some .explainPolicyStmt then some (writtenTarget p)
    else (p.children .grantTarget).head?.map writtenTarget⟩

def writtenPolicy (tree : Item Rule) : Option Policy := (policyStatements tree).head?.map writtenIn

def Clear (keyword : String) (p : Item Rule) : Prop :=
  txt keyword ∈ p.words ∨ contains (txt keyword) (lower p.asStr) = false
  deriving Decidable

/-- No agent's clause has the letters of TEAM, and no realm's those of NAMESPACE. -/
def ClearIn : Prop :=
  (∀ q ∈ p.children .principalRef, Clear "team" q) ∧
  (∀ q ∈ p.children .grantTarget, Clear "namespace" q) ∧
    (p.asRule = some .explainPolicyStmt → Clear "namespace" p)
  deriving Decidable

def KindsClear (tree : Item Rule) : Prop := ∀ p ∈ policyStatements tree, ClearIn p
  deriving Decidable

variable {p : Item Rule}

theorem contains_iff : contains part t ↔ part <:+: t := by
  induction t with
  | nil => simp [contains]
  | cons c t ih => simp [contains,infix_cons_iff,ih]

theorem contains_keyword (front : Text) (back : Text) (h : word.map Char.toLower = keyword) :
    contains keyword (lower (front++(word++back))) := by
  rw [contains_iff,lower,map_append,map_append,h]
  exact ⟨front.map Char.toLower,back.map Char.toLower,by simp⟩

theorem stringOrEmpty_eq (hp : p.children .stringLiteral = [q])
    (hq : Of skip stringLiteral q) : stringOrEmpty p = .ok (quotedName p) := by
  have hfind : findRule .stringLiteral p.intoInner = some q := by
    rw [findRule,← head?_filter]
    exact congrArg List.head? hp
  rw [stringOrEmpty,hfind,quotedName,hp]
  exact extractStringValue_eq hq

theorem of_principalRef (h : Of skip principalRef p) :
    ∃ q, p.intoInner = [q] ∧ Of skip stringLiteral q ∧ p.asRule = some .principalRef ∧
      (p.words = [txt "agent"] ∨ p.words = [txt "team"] ∧ contains (txt "team") (lower p.asStr)) := by
  obtain ⟨text,inner,hbody,rfl⟩ := of_normal h
  rcases hbody with hbody | ⟨hbody,-⟩
  all_goals obtain ⟨word,_,gap,name,_,⟨hword,rfl⟩,⟨_,hname,rfl⟩,-,rfl,rfl⟩ := hbody
  · exact ⟨_,rfl,⟨name,_,hname,rfl⟩,rfl,.inl rfl⟩
  · exact ⟨_,rfl,⟨name,_,hname,rfl⟩,rfl,.inr ⟨rfl,contains_keyword [] _ hword⟩⟩

theorem of_grantTarget (h : Of skip grantTarget p) :
    ∃ q, p.intoInner = [q] ∧ Of skip stringLiteral q ∧ p.asRule = some .grantTarget ∧
      (p.words = [txt "on",txt "realm"] ∨
        p.words = [txt "on",txt "namespace"] ∧ contains (txt "namespace") (lower p.asStr)) := by
  obtain ⟨text,inner,hbody,rfl⟩ := of_normal h
  rcases hbody with hbody | ⟨hbody,-⟩
  all_goals
    obtain ⟨on,_,gap,_,_,⟨hon,rfl⟩,⟨word,_,gap',name,_,⟨hword,rfl⟩,⟨_,hname,rfl⟩,-,rfl,rfl⟩,-,rfl,
      rfl⟩ := hbody
  · refine ⟨_,rfl,⟨name,_,hname,rfl⟩,rfl,.inr ⟨rfl,?_⟩⟩
    have hcontains := contains_keyword (on++gap) (gap'++name) hword
    rwa [append_assoc] at hcontains
  · exact ⟨_,rfl,⟨name,_,hname,rfl⟩,rfl,.inl rfl⟩

theorem children_singleton (hp : p.intoInner = [q]) (hq : q.asRule = some r) : p.children r = [q] := by
  simp [Item.children,hp,hq]

@[simp] theorem writtenPrincipal_name (p : Item Rule) : (writtenPrincipal p).name = quotedName p := by
  unfold writtenPrincipal
  split <;> rfl

@[simp] theorem writtenTarget_name (p : Item Rule) : (writtenTarget p).name = quotedName p := by
  unfold writtenTarget
  split <;> rfl

theorem buildPrincipalRef_kept (h : Of skip principalRef p)
    (hx : buildPrincipalRef p = .ok x) : x.name = quotedName p ∧
    (x = writtenPrincipal p ↔ Clear "team" p) := by
  obtain ⟨q,hp,hq,-,hwords⟩ := of_principalRef h
  rw [buildPrincipalRef,stringOrEmpty_eq (children_singleton hp (of_asRule hq rfl)) hq,map_ok,
    Except.ok.injEq] at hx
  rw [← hx,writtenPrincipal,Clear]
  rcases hwords with hwords | ⟨hwords,hteam⟩
  · cases hteam : contains (txt "team") (lower p.asStr) <;> simp [hwords,txt,PrincipalRef.name]
  · simp [hteam,PrincipalRef.name]

theorem buildGrantTarget_kept (h : Of skip grantTarget p)
    (hx : buildGrantTarget p = .ok x) : x.name = quotedName p ∧
    (x = writtenTarget p ↔ Clear "namespace" p) := by
  obtain ⟨q,hp,hq,-,hwords⟩ := of_grantTarget h
  rw [buildGrantTarget,stringOrEmpty_eq (children_singleton hp (of_asRule hq rfl)) hq,map_ok,
    Except.ok.injEq] at hx
  rw [← hx,writtenTarget,Clear]
  rcases hwords with hwords | ⟨hwords,hnamespace⟩
  · cases hnamespace : contains (txt "namespace") (lower p.asStr) <;> simp [hwords,txt,
      GrantTarget.name]
  · simp [hnamespace,GrantTarget.name]

/-- Names are as written, and kinds are if the clauses are clear. -/
def Kept (x : Policy) (p : Item Rule) : Prop :=
  x.names = (writtenIn p).names ∧ (x = writtenIn p ↔ ClearIn p)

theorem of_grant (h : Of skip (normal r (seqs [.word keyword,actionList,grantTarget,.word link,
      principalRef])) p) :
    ∃ actions target principal, p.intoInner = [actions,target,principal] ∧ Of skip actionList actions ∧
      Of skip grantTarget target ∧ Of skip principalRef principal := by
  obtain ⟨text,inner,hbody,rfl⟩ := of_normal h
  obtain ⟨_,_,rfl,⟨_,_,⟨actions,ha,rfl⟩,⟨_,_,⟨target,ht,rfl⟩,⟨_,_,rfl,⟨principal,hp,rfl⟩,rfl⟩,rfl⟩,
    rfl⟩,hinner⟩ :=
    hbody.shape
  exact ⟨actions,target,principal,hinner,ha,ht,hp⟩

theorem of_showPoliciesStmt (h : Of skip showPoliciesStmt p) :
    ∃ principal, p.intoInner = Option.toList principal ∧ ∀ q ∈ principal, Of skip principalRef q := by
  obtain ⟨text,inner,hbody,rfl⟩ := of_normal h
  obtain ⟨_,_,rfl,⟨_,_,rfl,⟨_,_,rfl,⟨principal,hp,rfl⟩,rfl⟩ | rfl,rfl⟩,hinner⟩ := hbody.shape
  · exact ⟨some principal,hinner,fun q hq => Option.mem_some_iff.1 hq ▸ hp⟩
  · exact ⟨none,hinner,by simp⟩

theorem of_explainPolicyStmt (h : Of skip explainPolicyStmt p) :
    ∃ principal name action, p.intoInner = [principal,name,action] ∧ Of skip principalRef principal ∧
      Of skip stringLiteral name ∧ Of skip actionName action ∧
      ∃ kind, (kind = txt "namespace" ∨ kind = txt "realm") ∧
        p.words = [txt "explain",txt "policy",txt "for",txt "on",kind,txt "action"] ∧
        contains kind (lower p.asStr) := by
  obtain ⟨text,inner,hbody,rfl⟩ := of_normal h
  obtain ⟨explain,_,g₁,_,_,⟨-,rfl⟩,hbody,-,rfl,rfl⟩ := hbody
  obtain ⟨policy,_,g₂,_,_,⟨-,rfl⟩,hbody,-,rfl,rfl⟩ := hbody
  obtain ⟨for_,_,g₃,_,_,⟨-,rfl⟩,hbody,-,rfl,rfl⟩ := hbody
  obtain ⟨principal,_,g₄,_,_,⟨_,hprincipal,rfl⟩,hbody,-,rfl,rfl⟩ := hbody
  obtain ⟨on,_,g₅,_,_,⟨-,rfl⟩,hbody,-,rfl,rfl⟩ := hbody
  obtain ⟨kind,_,g₆,_,_,hkind,hbody,-,rfl,rfl⟩ := hbody
  obtain ⟨name,_,g₇,_,_,⟨_,hname,rfl⟩,hbody,-,rfl,rfl⟩ := hbody
  obtain ⟨action,_,g₈,verb,_,⟨-,rfl⟩,⟨_,haction,rfl⟩,-,rfl,rfl⟩ := hbody
  have hcontains := fun {keyword} (h : kind.map Char.toLower = keyword) =>
    contains_keyword (explain++(g₁++(policy++(g₂++(for_++(g₃++(principal++(g₄++(on++g₅)))))))))
      (g₆++(name++(g₇++(action++(g₈++verb))))) h
  simp only [append_assoc] at hcontains
  rcases hkind with ⟨hkind,rfl⟩ | ⟨⟨hkind,rfl⟩,-⟩
  · exact ⟨_,_,_,rfl,⟨_,_,hprincipal,rfl⟩,⟨_,_,hname,rfl⟩,⟨_,_,haction,rfl⟩,_,.inl rfl,rfl,
      hcontains hkind⟩
  · exact ⟨_,_,_,rfl,⟨_,_,hprincipal,rfl⟩,⟨_,_,hname,rfl⟩,⟨_,_,haction,rfl⟩,_,.inr rfl,rfl,
      hcontains hkind⟩

theorem buildGrantWith_kept (hr : r ≠ .explainPolicyStmt)
    (h : Of skip (normal r (seqs [.word keyword,actionList,grantTarget,.word link,
      principalRef])) p) (hg : buildGrantWith noTarget noPrincipal p = .ok g) :
    Kept ⟨some g.principal,some g.target⟩ p := by
  obtain ⟨actions,target,principal,hinner,ha,ht,hp⟩ := of_grant h
  have hrule : p.asRule = some r := of_asRule h rfl
  have haRule : actions.asRule = some .actionList := of_asRule ha rfl
  have htRule : target.asRule = some .grantTarget := of_asRule ht rfl
  have hpRule : principal.asRule = some .principalRef := of_asRule hp rfl
  simp only [buildGrantWith,hinner,foldlM_cons,foldlM_nil,grantStep,haRule,htRule,hpRule,bind_eq_ok,
    map_eq_ok,pure_eq_ok,Except.ok.injEq] at hg
  obtain ⟨_,⟨_,rfl,_,⟨t,hbuildTarget,rfl⟩,_,⟨x,hbuildPrincipal,rfl⟩,rfl⟩,t',ht',x',hx',rfl⟩ := hg
  obtain rfl : t = t' := by simpa [orError] using ht'
  obtain rfl : x = x' := by simpa [orError] using hx'
  have hchildren : p.children .principalRef = [principal] ∧ p.children .grantTarget = [target] := by
    simp [Item.children,hinner,haRule,htRule,hpRule]
  obtain ⟨hpName,hpKind⟩ := buildPrincipalRef_kept hp hbuildPrincipal
  obtain ⟨htName,htKind⟩ := buildGrantTarget_kept ht hbuildTarget
  simp [Kept,Policy.names,writtenIn,ClearIn,hchildren.1,hchildren.2,hrule,hr,hpName,htName,hpKind,
    htKind]

theorem buildShowPolicies_kept (h : Of skip showPoliciesStmt p)
    (ho : buildShowPolicies p = .ok o) : Kept ⟨o,none⟩ p := by
  obtain ⟨principal,hinner,hp⟩ := of_showPoliciesStmt h
  have hrule : p.asRule = some .showPoliciesStmt := of_asRule h rfl
  cases principal with
  | none =>
    have hnone : o = none := by simpa [buildShowPolicies,hinner,eq_comm] using ho
    simp [Kept,writtenIn,ClearIn,Item.children,hinner,hrule,hnone]
  | some q =>
    have hq := hp q rfl
    have hqRule : q.asRule = some .principalRef := of_asRule hq rfl
    simp only [buildShowPolicies,hinner,Option.toList_some,filter_cons,hqRule,decide_true,if_true,
      filter_nil,foldlM_cons,foldlM_nil,bind_pure,map_eq_ok] at ho
    obtain ⟨x,hx,rfl⟩ := ho
    have hchildren : p.children .principalRef = [q] ∧ p.children .grantTarget = [] := by
      simp [Item.children,hinner,hqRule]
    obtain ⟨hqName,hqKind⟩ := buildPrincipalRef_kept hq hx
    simp [Kept,Policy.names,writtenIn,ClearIn,hchildren.1,hchildren.2,hrule,hqName,hqKind]

theorem buildExplainPolicy_kept (h : Of skip explainPolicyStmt p)
    (he : buildExplainPolicy p = .ok e) : Kept ⟨some e.principal,e.target⟩ p := by
  obtain ⟨principal,name,action,hinner,hp,hn,ha,kind,hkind,hwords,hcontains⟩ := of_explainPolicyStmt h
  have hrule : p.asRule = some .explainPolicyStmt := of_asRule h rfl
  have hpRule : principal.asRule = some .principalRef := of_asRule hp rfl
  have hnRule : name.asRule = some .stringLiteral := of_asRule hn rfl
  have haRule : action.asRule = some .actionName := of_asRule ha rfl
  simp only [buildExplainPolicy,hinner,foldlM_cons,foldlM_nil,explainPolicyStep,hpRule,hnRule,
    haRule,extractStringValue_eq hn,map_ok,bind_eq_ok,map_eq_ok,pure_eq_ok,Except.ok.injEq] at he
  obtain ⟨_,⟨_,⟨x,hx,rfl⟩,_,hname,_,rfl,rfl⟩,x',hx',rfl⟩ := he
  rw [if_pos rfl,Except.ok.injEq] at hname
  subst hname
  obtain rfl : x = x' := by simpa [orError] using hx'
  have hquoted : quotedName p = unescaped (contentOf name) := by
    simp [quotedName,Item.children,hinner,hpRule,hnRule]
  have hchildren : p.children .principalRef = [principal] ∧ p.children .grantTarget = [] := by
    simp [Item.children,hinner,hpRule,hnRule,haRule]
  obtain ⟨hpName,hpKind⟩ := buildPrincipalRef_kept hp hx
  -- the search finds a keyword, so that one of the kinds is told
  have htarget : ∃ t, ExplainPolicyStmt.target
      ⟨x,resourceTypeOf p.asStr,unescaped (contentOf name),lower action.asStr⟩ = some t ∧
      t.name = quotedName p ∧ (t = writtenTarget p ↔ Clear "namespace" p) := by
    rcases hkind with rfl | rfl
    · refine ⟨.namespace_ (quotedName p),?_,rfl,?_⟩
      · simp [ExplainPolicyStmt.target,resourceTypeOf,hcontains,hquoted]
      · simp [writtenTarget,Clear,hwords]
    · have hword : txt "namespace" ∉ p.words := by
        rw [hwords]
        decide
      have hne : txt "realm" ≠ txt "namespace" := by decide
      cases hnamespace : contains (txt "namespace") (lower p.asStr) with
      | false =>
        refine ⟨.realm (quotedName p),?_,rfl,?_⟩
        · simp [ExplainPolicyStmt.target,resourceTypeOf,hcontains,hquoted,hnamespace,hne]
        · simp [writtenTarget,Clear,hword,hnamespace]
      | true =>
        refine ⟨.namespace_ (quotedName p),?_,rfl,?_⟩
        · simp [ExplainPolicyStmt.target,resourceTypeOf,hquoted,hnamespace]
        · simp [writtenTarget,Clear,hnamespace]
  obtain ⟨t,ht,htName,htKind⟩ := htarget
  simp [Kept,Policy.names,writtenIn,ClearIn,hchildren.1,hchildren.2,hrule,ht,hpName,htName,hpKind,
    htKind]

theorem policyStatements_self (h : Of skip (.rule r kind body) p) (hr : r ∈ policyRules)
    (hbody : ∀ r' ∈ policyRules, body.mentions r' = false) : policyStatements p = [p] := by
  have hwithin : ∀ r' ∈ policyRules, p.within r' = if r = r' then [p] else [] := by
    intro r' hr'
    by_cases hself : r = r'
    · rw [if_pos hself]
      exact of_rule_within (hself ▸ h) (hbody r' hr')
    · rw [if_neg hself]
      exact h.within_eq_nil (by simp [Expr.mentions,hself,hbody r' hr'])
  rw [policyStatements,flatMap_congr hwithin]
  simp only [policyRules,mem_cons,not_mem_nil,or_false] at hr
  rcases hr with rfl | rfl | rfl | rfl <;> rfl

theorem policyStatements_eq_nil (h : Of skip e p)
    (he : ∀ r ∈ policyRules, e.mentions r = false) : policyStatements p = [] :=
  flatMap_eq_nil_iff.2 fun r hr => h.within_eq_nil (he r hr)

theorem policyStatements_pair (hr : r ∉ policyRules) {text : Text} {inner : List (Item Rule)}
    (front back : List (Item Rule)) (hinner : (Item.pair r text inner).intoInner = front++q::back)
    (hnone : ∀ p ∈ front++back, policyStatements p = []) :
    policyStatements (.pair r text inner) = policyStatements q := by
  refine flatMap_congr fun r' hr' => ?_
  have hempty : ∀ ps : List (Item Rule), (∀ p ∈ ps, p ∈ front++back) → ps.flatMap (·.within r') = [] :=
    fun ps hps => flatMap_eq_nil_iff.2 fun p hp => flatMap_eq_nil_iff.1 (hnone p (hps p hp)) r' hr'
  have hne : r ≠ r' := fun heq => hr (heq ▸ hr')
  rw [within_pair hne,hinner,flatMap_append,flatMap_cons]
  rw [hempty front (by simp +contextual),hempty back (by simp +contextual),nil_append,append_nil]

theorem Built.policy_kept {s : Statement φ ψ} (h : Built fl p s) :
    s.policy.map Policy.names = (writtenPolicy p).map Policy.names ∧
      (s.policy = writtenPolicy p ↔ KindsClear p) := by
  induction h
  case showPolicies h ho =>
    have hself := policyStatements_self h (by decide) (by decide)
    simpa [writtenPolicy,KindsClear,hself,Statement.policy,Kept] using buildShowPolicies_kept h ho
  case explainPolicy h he =>
    have hself := policyStatements_self h (by decide) (by decide)
    simpa [writtenPolicy,KindsClear,hself,Statement.policy,Kept] using buildExplainPolicy_kept h he
  case grant h hg =>
    have hself := policyStatements_self h (by decide) (by decide)
    simpa [writtenPolicy,KindsClear,hself,Statement.policy,Kept] using buildGrantWith_kept
      (by decide) h hg
  case revoke h hg =>
    have hself := policyStatements_self h (by decide) (by decide)
    simpa [writtenPolicy,KindsClear,hself,Statement.policy,Kept] using buildGrantWith_kept
      (by decide) h hg
  case explain flag _ _ q s hflag hinner hq _ ih =>
    have hsame := policyStatements_pair (by decide) _ [] hinner fun f hf =>
      policyStatements_eq_nil (hflag f (by simpa using hf)) (by decide)
    rw [policyStatements_pair (by decide) [] [] hq (by simp)] at hsame
    simpa only [writtenPolicy,KindsClear,hsame,Statement.policy] using ih
  -- the others are no policy statements
  all_goals
    have hnone := policyStatements_eq_nil ‹_› (by decide)
    simp [writtenPolicy,KindsClear,hnone,Statement.policy]

/-- The names of a policy statement are those that are quoted; its kinds are right exactly if no name or
comment has the letters of the other keyword. -/
theorem policy_kept_iff {φ ψ : Type} (fl : Floats φ ψ) (input : Text) (s : Statement φ ψ)
    (tree : Item Rule) (h : parse fl input = .ok s) (htree : parseTree input = some tree) :
    s.policy.map Policy.names = (writtenPolicy tree).map Policy.names ∧
      (s.policy = writtenPolicy tree ↔ KindsClear tree) := by
  obtain ⟨-,tree',htree',hbuild,-⟩ := (parseWithLimits_ok fl).1 h
  obtain rfl : tree' = tree := Option.some.inj (htree'.symm.trans htree)
  obtain ⟨text,inner,q,stop,rfl,hinner,hstop,hbuilt⟩ :=
    buildStatement_built fl (parseTree_of htree) hbuild
  have hsame := policyStatements_pair (by decide) [] _ hinner fun p hp => by
    rw [mem_singleton.1 hp]
    exact policyStatements_eq_nil hstop (by decide)
  simpa only [writtenPolicy,KindsClear,hsame] using hbuilt.policy_kept

/-- The name of an agent makes it a team. -/
theorem agent_taken_for_team :
    (parse noFloats (txt "GRANT recall ON REALM 'main' TO AGENT 'steam'")).toOption.map
    Statement.policy =
        some (some ⟨some (.team (txt "steam")),some (.realm (txt "main"))⟩) ∧
      (parseTree (txt "GRANT recall ON REALM 'main' TO AGENT 'steam'")).map writtenPolicy =
        some (some ⟨some (.agent (txt "steam")),some (.realm (txt "main"))⟩) := by
  decide +kernel

def teamGrant : Text := txt "REVOKE recall, think ON NAMESPACE 'the realm of agents' FROM TEAM 'agent \\'x\\''"

theorem policy_kept_teamGrant : ∃ (s : Statement Unit Unit) (tree : Item Rule),
    parse noFloats teamGrant = .ok s ∧ parseTree teamGrant = some tree ∧
    s.policy = writtenPolicy tree := by
  have hparse : (parse noFloats teamGrant).toOption.isSome := by decide +kernel
  have hclear : (parseTree teamGrant).any (fun tree => KindsClear tree) := by decide +kernel
  obtain ⟨s,hs⟩ := Option.isSome_iff_exists.1 hparse
  obtain ⟨tree,htree,hclear⟩ := (Option.any_eq_true ..).1 hclear
  have hs' := eq_ok_of_toOption hs
  exact ⟨s,tree,hs',htree,(policy_kept_iff noFloats teamGrant s tree hs' htree).2.2
    (by simpa using hclear)⟩
end Hirn.Query
