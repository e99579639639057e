import Hirn.Token

/-! Attenuation along chains of tokens that were issued to the holders of tokens. Operations
only narrow. Namespaces can widen where a request leaves them out, and nothing relates the
child's lifetime to its parent's. -/
namespace Hirn.Token
open Fallible List

/-- An issuance whose request was authenticated by the token `parent`. -/
structure Link (x : Externals) (st : AuthState) where
  (parent child : TokenClaims)
  rs : Revocations
  env : Env
  inbound : Inbound
  body : TokenRequest
  headers : Headers
  expiresAt : ℕ
  enabled : st.keys.isNone = false
  noCert : (inbound.clientCn.bind fun cn => (st.clientCerts cn).map (cn,·)) = none
  bearer : inbound.bearer = some (.jwt parent)
  valid : validateToken st rs (env.now 0) (.jwt parent) = .ok parent
  passed : authMiddleware x st rs (env.now 0) inbound = .ok headers
  issued : issueToken x st rs env headers body = .ok (.jwt child,expiresAt)

/-- Issuances of which each is authenticated by the token of the one before. -/
structure Chain (x : Externals) (st : AuthState) where
  links : List (Link x st)
  linked : links.IsChain fun a b => b.parent = a.child

/-- The authority of `child` is part of the authority of `parent`. -/
structure Contained (child parent : TokenClaims) : Prop where
  operations : ∀ op, tokenAllowsOperation child.operations op = true →
    tokenAllowsOperation parent.operations op = true
  namespaces : ∀ ns, tokenAllowsNamespace child.agentId child.namespaces ns = true →
    tokenAllowsNamespace parent.agentId parent.namespaces ns = true
  exp : child.exp ≤ parent.exp

theorem implies_trans {a b c : Operation} (h : a.implies b) (h' : b.implies c) : a.implies c := by
  simp only [Operation.implies,decide_eq_true_eq] at *
  omega

theorem tokenAllowsOperation_of_forall (hne : ops ≠ [])
    (h : ∀ op ∈ ops, tokenAllowsOperation allowed op)
    (hr : tokenAllowsOperation ops required) : tokenAllowsOperation allowed required := by
  have hempty : ops.isEmpty = false := by simpa using hne
  rw [tokenAllowsOperation,hempty,Bool.false_or,any_eq_true] at hr
  obtain ⟨op,hop,himp⟩ := hr
  have hop' := h op hop
  rw [tokenAllowsOperation,Bool.or_eq_true] at hop' ⊢
  refine hop'.imp_right fun hany => ?_
  obtain ⟨a,ha,haop⟩ := any_eq_true.mp hany
  exact any_eq_true.mpr ⟨a,ha,implies_trans haop himp⟩

theorem tokenAllowsNamespace_mono (hne : small ≠ []) (h : ∀ ns ∈ small, ns ∈ large)
    (hs : tokenAllowsNamespace agent small ns) : tokenAllowsNamespace agent large ns := by
  have hsmall : small.isEmpty = false := by simpa using hne
  obtain ⟨a,ha⟩ := exists_mem_of_ne_nil small hne
  have hlarge : large.isEmpty = false := by
    simpa using ne_nil_of_mem (h a ha)
  simp only [tokenAllowsNamespace,hsmall,hlarge] at hs ⊢
  obtain ⟨b,hb,hbns⟩ := any_eq_true.mp hs
  exact any_eq_true.mpr ⟨b,h b hb,hbns⟩

theorem tokenAllowsNamespace_congr (allowed : List String)
    (h : effectiveNamespace agent ns = effectiveNamespace agent ns') :
    tokenAllowsNamespace agent allowed ns = tokenAllowsNamespace agent allowed ns' := by
  simp [tokenAllowsNamespace,h]

theorem tokenAllowsNamespace_nil_iff : (∀ ns, tokenAllowsNamespace agent [] ns →
      tokenAllowsNamespace agent large ns) ↔ tokenAllowsNamespace agent large none ∧
        tokenAllowsNamespace agent large (some "shared") := by
  have hprivate : effectiveNamespace agent none = privateFor agent := rfl
  have hshared : effectiveNamespace agent (some "shared") = "shared" := by simp [effectiveNamespace]
  constructor
  · intro h
    exact ⟨h none (by simp [tokenAllowsNamespace,hprivate]),
      h (some "shared") (by simp [tokenAllowsNamespace,hshared])⟩
  · rintro ⟨h1,h2⟩ ns hns
    simp only [tokenAllowsNamespace,isEmpty_nil,if_true,Bool.or_eq_true,decide_eq_true_eq] at hns
    rcases hns with hns | hns
    · rw [tokenAllowsNamespace_congr large (hns.trans hprivate.symm)]
      exact h1
    · rw [tokenAllowsNamespace_congr large (hns.trans hshared.symm)]
      exact h2

theorem headerValue_eq_ok (h : headerValue s = .ok v) : v = s := by
  unfold headerValue at h
  split_ifs at h
  exact (Except.ok.inj h).symm

theorem toStr_eq_some (h : toStr s = some v) : v = s := by
  unfold toStr at h
  split_ifs at h
  exact (Option.some.inj h).symm

variable {h : Headers}

theorem injectIdentity_eq_ok (hi : injectIdentity ki h = .ok h') :
    h' = {h with realmId := some ki.realm,agentId := some ki.agentId} := by
  obtain ⟨realm,hr,hi⟩ := bind_eq_ok.mp hi
  obtain ⟨agent,ha,hi⟩ := bind_eq_ok.mp hi
  cases hi
  rw [headerValue_eq_ok hr,headerValue_eq_ok ha]

theorem injectKid_eq_ok (hi : injectKid kid h = .ok h') : h' = {h with issuerKid := some kid} := by
  obtain ⟨kid',hk,hi⟩ := bind_eq_ok.mp hi
  cases hi
  rw [headerValue_eq_ok hk]

theorem injectToken_eq_ok (hi : injectToken claims h = .ok h') :
    h'.realmId = some claims.realm ∧ h'.agentId = some claims.agentId ∧
      h'.tokenNamespaces = some claims.namespaces ∧ h'.tokenOperations = some claims.operations := by
  obtain ⟨_,_,hi⟩ := bind_eq_ok.mp hi
  obtain ⟨_,_,hi⟩ := bind_eq_ok.mp hi
  obtain ⟨h₁,hk,hi⟩ := bind_eq_ok.mp hi
  rw [injectIdentity_eq_ok hi]
  cases hkid : claims.issKid with
  | none =>
    rw [hkid] at hk
    cases hk
    exact ⟨rfl,rfl,rfl,rfl⟩
  | some kid =>
    rw [hkid] at hk
    rw [injectKid_eq_ok hk]
    exact ⟨rfl,rfl,rfl,rfl⟩

theorem Link.headers_eq (l : Link x st) :
    l.headers.realmId = some l.parent.realm ∧ l.headers.agentId = some l.parent.agentId ∧
      l.headers.tokenNamespaces = some l.parent.namespaces ∧
      l.headers.tokenOperations = some l.parent.operations := by
  have h := l.passed
  have hconf : st.tokenConfig.isSome := by
    have hv := l.valid
    cases htc : st.tokenConfig with
    | none => simp [validateToken,htc] at hv
    | some tc => rfl
  simp only [authMiddleware,l.enabled,l.noCert,l.bearer,authenticateBearer,hconf,l.valid] at h
  exact injectToken_eq_ok h

theorem validateToken_eq_ok (h : validateToken st rs now (.jwt c) = .ok c') : c' = c := by
  unfold validateToken at h
  split at h
  · cases h
  · cases h
  next heq =>
    cases heq
    split_ifs at h
    exact (Except.ok.inj h).symm

variable {h : Headers}

theorem extractAgentId_eq_ok (hh : h.agentId = some agent')
    (ha : extractAgentId h missing = .ok agent) : agent = agent' := by
  rw [extractAgentId,hh] at ha
  split at ha
  · cases ha
  next v hv => rw [← Except.ok.inj ha,toStr_eq_some hv]

theorem parseTokenOperations_eq_ok (hh : h.tokenOperations = some ops)
    (hr : parseTokenOperations h = .ok r) : r = some ops := by
  rw [parseTokenOperations,hh] at hr
  dsimp only at hr
  split at hr
  · cases hr
  · exact (Except.ok.inj hr).symm

theorem parseTokenNamespaces_eq_ok (hh : h.tokenNamespaces = some ns)
    (hr : parseTokenNamespaces h = .ok r) : r = some ns := by
  rw [parseTokenNamespaces,hh] at hr
  dsimp only at hr
  split at hr
  · cases hr
  · exact (Except.ok.inj hr).symm

theorem scopedOperations_eq_ok (h : scopedOperations (some callerOps) ops = .ok r) :
      ops = [] ∧ r = callerOps ∨ r ≠ [] ∧ ∀ op ∈ r, tokenAllowsOperation callerOps op := by
  rw [scopedOperations] at h
  split_ifs at h with hempty
  · exact .inl ⟨by simpa using hempty,(Except.ok.inj h).symm⟩
  · split at h
    · cases h
    next hnone =>
      cases h
      exact .inr ⟨by simpa using hempty,by simpa using hnone⟩

theorem scopedNamespaces_eq_ok
    (h : scopedNamespaces x (some callerNs) ns = .ok r) : r = ns ∧ ∀ n ∈ ns, n ∈ callerNs := by
  rw [scopedNamespaces] at h
  split at h
  · cases h
  next hnone =>
    cases h
    exact ⟨rfl,by simpa using hnone⟩

/-- What a request authenticated by a token makes of that token. -/
theorem Link.child_eq (l : Link x st) : l.child.agentId = l.parent.agentId ∧
      l.child.namespaces = l.body.namespaces ∧ (∀ n ∈ l.body.namespaces, n ∈ l.parent.namespaces) ∧
      (l.child.operations = l.parent.operations ∨ l.child.operations ≠ [] ∧
        ∀ op ∈ l.child.operations, tokenAllowsOperation l.parent.operations op) ∧
      l.child.exp = (l.env.now 1+l.body.ttlSecs.getD st.tokenTtlSecs) % 2^64 := by
  obtain ⟨hrealm,hagent,hns,hops⟩ := l.headers_eq
  have h := l.issued
  obtain ⟨_,_,h⟩ := bind_eq_ok.mp h
  split at h
  · cases h
  next tc htc =>
    obtain ⟨realm,hr,h⟩ := bind_eq_ok.mp h
    obtain ⟨agent,ha,h⟩ := bind_eq_ok.mp h
    obtain ⟨callerOps,hco,h⟩ := bind_eq_ok.mp h
    obtain ⟨ops,ho,h⟩ := bind_eq_ok.mp h
    obtain ⟨callerNs,hcn,h⟩ := bind_eq_ok.mp h
    obtain ⟨ns,hn,h⟩ := bind_eq_ok.mp h
    rw [parseTokenOperations_eq_ok hops hco] at ho
    rw [parseTokenNamespaces_eq_ok hns hcn] at hn
    obtain ⟨rfl,hsub⟩ := scopedNamespaces_eq_ok hn
    dsimp only at h
    split at h
    · cases h
    next claims hclaims =>
      have hc := validateToken_eq_ok hclaims
      have hchild : l.child = claims := by
        have := congrArg Prod.fst (Except.ok.inj h)
        exact (Credential.jwt.inj this).symm
      rw [hchild,hc]
      refine ⟨extractAgentId_eq_ok hagent ha,rfl,hsub,?_,?_⟩
      · exact (scopedOperations_eq_ok ho).imp_left And.right
      · simp [issueClaims,AuthState.tokenTtlSecs,htc]

/-- It names namespaces or its token has the default ones, and its token outlives it. -/
structure Link.Safe (l : Link x st) : Prop where
  namespaces : l.body.namespaces = [] →
    tokenAllowsNamespace l.parent.agentId l.parent.namespaces none = true ∧
      tokenAllowsNamespace l.parent.agentId l.parent.namespaces (some "shared") = true
  exp : (l.env.now 1+l.body.ttlSecs.getD st.tokenTtlSecs) % 2^64 ≤ l.parent.exp

theorem Link.contained_iff (l : Link x st) : Contained l.child l.parent ↔ l.Safe := by
  obtain ⟨hagent,hns,hsub,hops,hexp⟩ := l.child_eq
  constructor
  · intro h
    refine ⟨fun hnil => tokenAllowsNamespace_nil_iff.mp fun ns hall => h.namespaces ns ?_,hexp ▸ h.exp⟩
    rwa [hagent,hns,hnil]
  · intro h
    refine ⟨fun op hop => ?_,fun ns hall => ?_,hexp.trans_le h.exp⟩
    · rcases hops with heq | ⟨hne,hall⟩
      · rwa [heq] at hop
      · exact tokenAllowsOperation_of_forall hne hall hop
    · rw [hagent,hns] at hall
      by_cases hnil : l.body.namespaces = []
      · rw [hnil] at hall
        exact tokenAllowsNamespace_nil_iff.mpr (h.namespaces hnil) ns hall
      · exact tokenAllowsNamespace_mono hnil hsub hall

/-- Authority narrows at every link of a chain exactly when every link is safe. -/
theorem chain_attenuates_iff {x : Externals} {st : AuthState} (c : Chain x st) :
    (∀ l ∈ c.links, Contained l.child l.parent) ↔ ∀ l ∈ c.links, l.Safe :=
  forall₂_congr fun l _ => l.contained_iff

/-- A team token's holder asks for one without naming namespaces, for a week. -/
def widening : Link sampleExternals sampleAuth where
  parent := sampleToken
  child := {sampleToken with namespaces := [],iat := 1000,exp := 605800,jti := "child"}
  rs := .empty
  env := ⟨fun _ => 1000,"child",true⟩
  inbound := ⟨none,some (.jwt sampleToken),none,none⟩
  body := ⟨[],[],some 604800⟩
  headers := ⟨some "default",some "alice",some ["team_a"],some [.read],none⟩
  expiresAt := 605800
  enabled := rfl
  noCert := rfl
  bearer := rfl
  valid := by decide +kernel
  passed := by decide +kernel
  issued := by decide +kernel

theorem widening_widens : tokenAllowsNamespace "alice" widening.child.namespaces (some "shared") =
    true ∧ tokenAllowsNamespace "alice" widening.parent.namespaces (some "shared") = false ∧
    widening.parent.exp < widening.child.exp ∧
    ¬ ∀ l ∈ (⟨[widening],by simp⟩ : Chain sampleExternals sampleAuth).links,
    Contained l.child l.parent := by
  refine ⟨by decide +kernel,by decide +kernel,by decide +kernel,fun h => ?_⟩
  have hexp := (h widening (by simp)).exp
  exact absurd hexp (by decide +kernel)
end Hirn.Token
