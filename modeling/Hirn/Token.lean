import Hirn.Fallible

/-! hirnd's scoped tokens: the authentication middleware, the handlers that issue and revoke
tokens, and their validation. Signatures are ideal: a credential either is a token that
this server signed, and then it is its claims, or any other text. -/
namespace Hirn.Token
open Fallible

inductive Operation
  | read | write | admin
  deriving DecidableEq

def Operation.rank : Operation → ℕ
  | .read => 0
  | .write => 1
  | .admin => 2

def Operation.implies (o required : Operation) : Bool := required.rank ≤ o.rank

/-- The `Debug` text of an operation; in JSON it is in lower case. -/
def Operation.debug : Operation → String
  | .read => "Read"
  | .write => "Write"
  | .admin => "Admin"

def Operation.name : Operation → String
  | .read => "read"
  | .write => "write"
  | .admin => "admin"

structure TokenClaims where
  (realm agentId : String)
  namespaces : List String
  operations : List Operation
  (iss aud : String)
  (iat exp : ℕ)
  jti : String
  issKid : Option String
  deriving DecidableEq

def tokenIssuer : String := "hirnd"

/-- What stands behind `Bearer` in a request, or in the body of a revocation. -/
inductive Credential
  | jwt (claims : TokenClaims)
  | text (s : String)
  deriving DecidableEq

structure KeyIdentity where
  (realm agentId : String)

structure TokenConfig where
  (ttlSecs clockSkewLeewaySecs : ℕ)

/-- The configuration of a node. API keys are looked up by their digest. -/
structure AuthState where
  keys : Option (Credential → Option KeyIdentity)
  clientCerts : String → Option KeyIdentity
  tokenConfig : Option TokenConfig
  allowUnauthenticated : Bool

def AuthState.validate (st : AuthState) (key : Credential) : Option KeyIdentity :=
  st.keys.bind fun keys => keys key

def AuthState.tokenTtlSecs (st : AuthState) : ℕ := (st.tokenConfig.map (·.ttlSecs)).getD 0

/-- The fingerprints of credentials, and `Debug` on strings. -/
structure Externals where
  credentialKid : String → Credential → String
  debug : String → String

def tokenAllowsOperation (allowed : List Operation) (required : Operation) : Bool :=
  allowed.isEmpty || allowed.any (·.implies required)

def privateFor (agentId : String) : String := "private:"++agentId

/-- No namespace, and the default one, stand for the agent's private namespace. -/
def effectiveNamespace (agentId : String) (ns : Option String) : String :=
  match ns with
  | some ns => if ns ≠ "default" then ns else privateFor agentId
  | none => privateFor agentId

def tokenAllowsNamespace (agentId : String) (allowed : List String) (ns : Option String) : Bool :=
  let effective := effectiveNamespace agentId ns
  if allowed.isEmpty then effective = privateFor agentId || effective = "shared"
  else allowed.any fun a =>
    if a = "private" ∨ a = "default" then effective = privateFor agentId
    else if a = "shared" then effective = "shared"
    else effective = a

/-- Both maps are keyed by realm, with an expiry and a time of revocation. -/
structure Revocations where
  (jtis issuers : String × String → Option ℕ)

def Revocations.empty : Revocations := ⟨fun _ => none,fun _ => none⟩
def revocationPruneLeewaySecs : ℕ := 300
def saturatingAdd (a b : ℕ) : ℕ := min (a+b) (2^64-1)

variable (rs : Revocations)

def Revocations.revokeJti (now : ℕ) (realm jti : String) (exp : ℕ) : Revocations :=
  let kept := fun k => (rs.jtis k).filter fun e => now < saturatingAdd e revocationPruneLeewaySecs
  {rs with jtis := Function.update kept (realm,jti) (some exp)}

def Revocations.revokeIssuer (now : ℕ) (realm kid : String) : Revocations :=
  {rs with issuers := Function.update rs.issuers (realm,kid) (some now)}

def Revocations.isJtiRevoked (realm jti : String) : Bool :=
  (rs.jtis (realm,jti)).isSome

def Revocations.isIssuerRevoked (realm kid : String) (iat : ℕ) : Bool :=
  (rs.issuers (realm,kid)).any fun revokedAt => iat ≤ revokedAt

inductive TokenError
  | expired | revoked | invalid | notConfigured
  deriving DecidableEq

/-- A token is rejected once `exp` is further past than the leeway, then for another issuer. -/
def validateToken (st : AuthState) (rs : Revocations) (now : ℕ) (token : Credential) :
    Except TokenError TokenClaims :=
  match st.tokenConfig, token with
  | none, _ => .error .notConfigured
  | some _, .text _ => .error .invalid
  | some tc, .jwt claims =>
    if claims.exp+tc.clockSkewLeewaySecs < now then .error .expired
    else if claims.iss ≠ tokenIssuer then .error .invalid
    else if claims.aud ≠ claims.realm then .error .invalid
    else if rs.isJtiRevoked claims.realm claims.jti then .error .revoked
    else if claims.issKid.any fun kid => rs.isIssuerRevoked claims.realm kid claims.iat then
      .error .revoked
    else .ok claims

def decodeForRevocation (st : AuthState) (token : Credential) : Except TokenError TokenClaims :=
  match st.tokenConfig, token with
  | none, _ => .error .notConfigured
  | some _, .text _ => .error .invalid
  | some _, .jwt claims => if claims.iss = tokenIssuer then .ok claims else .error .invalid

inductive StatusCode
  | badRequest | unauthorized | forbidden | tooManyRequests | internalServerError
  deriving DecidableEq

/-- The headers that the middleware writes; JSON stands as what it encodes. -/
structure Headers where
  (realmId agentId : Option String)
  tokenNamespaces : Option (List String)
  tokenOperations : Option (List Operation)
  issuerKid : Option String
  deriving DecidableEq

/-- `HeaderValue::from_str` refuses control characters. -/
def headerValue (s : String) : Except StatusCode String :=
  if s.toList.all fun c => (32 ≤ c.toNat && c.toNat ≠ 127) || c.toNat = 9 then .ok s
  else .error .internalServerError

/-- `HeaderValue::to_str` reads visible ASCII only. -/
def toStr (s : String) : Option String :=
  if s.toList.all fun c => (32 ≤ c.toNat && c.toNat < 127) || c.toNat = 9 then some s else none

def hexDigit (n : ℕ) : Char := if n < 10 then Char.ofNat (48+n) else Char.ofNat (87+n)

def jsonEscape (c : Char) : List Char :=
  if c = '"' then ['\\','"']
  else if c = '\\' then ['\\','\\']
  else if c.toNat = 8 then ['\\','b']
  else if c.toNat = 9 then ['\\','t']
  else if c.toNat = 10 then ['\\','n']
  else if c.toNat = 12 then ['\\','f']
  else if c.toNat = 13 then ['\\','r']
  else if c.toNat < 32 then ['\\','u','0','0',hexDigit (c.toNat/16),hexDigit (c.toNat%16)]
  else [c]

/-- `serde_json::to_string` on a list of strings. -/
def jsonStrings (l : List String) : String :=
  String.ofList ('['::([','].intercalate
  (l.map fun s => '"'::(s.toList.flatMap jsonEscape++['"']))++[']']))

structure HttpError where
  status : StatusCode
  error : String
  retryable : Option Bool
  deriving DecidableEq

variable (h : Headers)

def extractRealmId : Except HttpError String :=
  match h.realmId with
  | none => .error ⟨.badRequest,"missing X-Realm-ID header",none⟩
  | some realm => match toStr realm with
    | none => .error ⟨.badRequest,"X-Realm-ID header is not valid UTF-8",none⟩
    | some realm => .ok realm

def extractAgentId (missing : String) : Except HttpError String :=
  match h.agentId.bind toStr with
  | none => .error ⟨.badRequest,missing,none⟩
  | some agent => .ok agent

def parseTokenOperations : Except HttpError (Option (List Operation)) :=
  match h.tokenOperations with
  | none => .ok none
  | some ops => match toStr (jsonStrings (ops.map (·.name))) with
    | none => .error ⟨.internalServerError,"invalid x-token-operations header",none⟩
    | some _ => .ok (some ops)

def parseTokenNamespaces : Except HttpError (Option (List String)) :=
  match h.tokenNamespaces with
  | none => .ok none
  | some ns => match toStr (jsonStrings ns) with
    | none => .error ⟨.internalServerError,"invalid x-token-namespaces header",none⟩
    | some _ => .ok (some ns)

def enforceRateLimit (withinLimit : Bool) : Except HttpError Unit := do
  let _ ← extractRealmId h
  let _ ← extractAgentId h "missing X-Agent-ID header"
  if withinLimit then .ok ()
  else .error ⟨.tooManyRequests,"auth rate limit exceeded — try again later",some true⟩

/-- What a request brings along; internal headers are stripped. -/
structure Inbound where
  clientCn : Option String
  bearer : Option Credential
  (realmId agentId : Option String)

def injectIdentity (ki : KeyIdentity) (h : Headers) : Except StatusCode Headers := do
  let realm ← headerValue ki.realm
  let agent ← headerValue ki.agentId
  return {h with realmId := some realm,agentId := some agent}

def injectKid (kid : String) (h : Headers) : Except StatusCode Headers := do
  let kid ← headerValue kid
  return {h with issuerKid := some kid}

def injectToken (claims : TokenClaims) (h : Headers) : Except StatusCode Headers := do
  let _ ← headerValue (jsonStrings claims.namespaces)
  let _ ← headerValue (jsonStrings (claims.operations.map (·.name)))
  let h := {h with tokenNamespaces := some claims.namespaces,tokenOperations := some claims.operations}
  let h ← optionally claims.issKid injectKid h
  injectIdentity ⟨claims.realm,claims.agentId⟩ h

variable (x : Externals) (st : AuthState)

def injectKey (bearer : Credential) (h : Headers) : Except StatusCode Headers :=
  match st.validate bearer with
  | some ki => injectKid (x.credentialKid "key" bearer) h >>= injectIdentity ki
  | none => .error .unauthorized

def authenticateBearer (rs : Revocations) (now : ℕ) (bearer : Option Credential) (h : Headers) :
    Except StatusCode Headers :=
  match bearer with
  | none => .error .unauthorized
  | some bearer =>
    if st.tokenConfig.isSome then
      match validateToken st rs now bearer with
      | .ok claims => injectToken claims h
      | .error .expired => .error .unauthorized
      | .error .revoked => .error .unauthorized
      | .error .notConfigured => .error .internalServerError
      | .error .invalid => injectKey x st bearer h
    else injectKey x st bearer h

def authMiddleware (rs : Revocations) (now : ℕ) (req : Inbound) : Except StatusCode Headers :=
  let h : Headers := ⟨req.realmId,req.agentId,none,none,none⟩
  if st.keys.isNone then
    if st.allowUnauthenticated then .ok h else .error .unauthorized
  else match req.clientCn.bind fun cn => (st.clientCerts cn).map (cn,·) with
    | some (cn,ki) => injectKid (x.credentialKid "cn" (.text cn)) h >>= injectIdentity ki
    | none => authenticateBearer x st rs now req.bearer h

structure TokenRequest where
  namespaces : List String
  operations : List Operation
  ttlSecs : Option ℕ

/-- The clock's readings during a request, the fresh ULID, the limiter's verdict. -/
structure Env where
  now : ℕ → ℕ
  jti : String
  withinLimit : Bool

/-- `now + ttl` wraps in release builds. -/
def issueClaims (tc : TokenConfig) (now : ℕ) (jti : String) (identity : KeyIdentity)
    (namespaces : List String) (operations : List Operation) (ttlOverride : Option ℕ)
    (issKid : Option String) : TokenClaims where
  realm := identity.realm
  agentId := identity.agentId
  namespaces := namespaces
  operations := operations
  iss := tokenIssuer
  aud := identity.realm
  iat := now
  exp := (now+ttlOverride.getD tc.ttlSecs) % 2^64
  jti := jti
  issKid := issKid

/-- An empty list of operations stands for the caller's own. -/
def scopedOperations (callerOps : Option (List Operation)) (operations : List Operation) :
    Except HttpError (List Operation) :=
  match callerOps with
  | none => .ok operations
  | some callerOps =>
    if operations.isEmpty then .ok callerOps
    else match operations.find? fun op => !tokenAllowsOperation callerOps op with
      | some op => .error ⟨.forbidden,"cannot issue a token with operation "++op.debug ++
          ": outside the caller's own scope",none⟩
      | none => .ok operations

def scopedNamespaces (callerNs : Option (List String)) (namespaces : List String) :
    Except HttpError (List String) :=
  match callerNs with
  | none => .ok namespaces
  | some callerNs => match namespaces.find? fun ns => !callerNs.contains ns with
    | some ns => .error ⟨.forbidden,"cannot issue a token for namespace "++x.debug ns ++
        ": outside the caller's own scope",none⟩
    | none => .ok namespaces

/-- The handler of `/v1/auth/token`: the token and its expiry. -/
def issueToken (rs : Revocations) (env : Env) (h : Headers) (body : TokenRequest) :
    Except HttpError (Credential × ℕ) := do
  enforceRateLimit h env.withinLimit
  match st.tokenConfig with
  | none => .error ⟨.badRequest,"token issuance not configured",none⟩
  | some tc =>
    let realm ← extractRealmId h
    let agentId ← extractAgentId h "missing agent identity"
    let callerOps ← parseTokenOperations h
    let operations ← scopedOperations callerOps body.operations
    let callerNs ← parseTokenNamespaces h
    let namespaces ← scopedNamespaces x callerNs body.namespaces
    let claims := issueClaims tc (env.now 1) env.jti ⟨realm,agentId⟩ namespaces operations body.ttlSecs
      (h.issuerKid.bind toStr)
    match validateToken st rs (env.now 2) (.jwt claims) with
    | .error _ => .error ⟨.internalServerError,"internal error decoding issued token",some true⟩
    | .ok claims => return (.jwt claims,claims.exp)

structure RevokeRequest where
  token : Option Credential
  jti : Option String
  exp : Option ℕ
  issKid : Option String
  apiKey : Option Credential

structure RevokeResponse where
  (revokedJtis revokedIssuers : List String)
  deriving DecidableEq

/-- An outcome and the revocations that the request leaves, also when it fails. -/
abbrev Outcome (α : Type) := Except HttpError α × Revocations

def revokeByToken (now : ℕ) (realm : String) (token : Option Credential)
    (r : RevokeResponse) (rs : Revocations) : Outcome RevokeResponse :=
  match token with
  | none => (.ok r,rs)
  | some token => match decodeForRevocation st token with
    | .error _ => (.error ⟨.badRequest,"not a token issued by this server",none⟩,rs)
    | .ok claims =>
      if claims.realm ≠ realm then
        (.error ⟨.forbidden,"cannot revoke a token belonging to another realm",none⟩,rs)
      else (.ok {r with revokedJtis := r.revokedJtis++[claims.jti]},
        rs.revokeJti now realm claims.jti claims.exp)

def bareExp (now : ℕ) (exp : Option ℕ) : ℕ := exp.getD ((now+st.tokenTtlSecs) % 2^64)

def revokeByJti (now : ℕ → ℕ) (realm : String) (jti : Option String) (exp : Option ℕ)
    (r : RevokeResponse) (rs : Revocations) : Outcome RevokeResponse :=
  match jti with
  | none => (.ok r,rs)
  | some jti => (.ok {r with revokedJtis := r.revokedJtis++[jti]},
      rs.revokeJti (now 1) realm jti (bareExp st (now 0) exp))

def revokeByKid (now : ℕ) (realm : String) (kid : Option String) (r : RevokeResponse)
    (rs : Revocations) : Outcome RevokeResponse :=
  match kid with
  | none => (.ok r,rs)
  | some kid => (.ok {r with revokedIssuers := r.revokedIssuers++[kid]},rs.revokeIssuer now realm kid)

def revokeByApiKey (now : ℕ) (realm : String) (apiKey : Option Credential) (r : RevokeResponse)
    (rs : Revocations) : Outcome RevokeResponse :=
  match apiKey with
  | none => (.ok r,rs)
  | some key => match st.validate key with
    | none => (.error ⟨.badRequest,"unknown API key",none⟩,rs)
    | some identity =>
      if identity.realm ≠ realm then
        (.error ⟨.forbidden,"cannot revoke an API key belonging to another realm",none⟩,rs)
      else
        let kid := x.credentialKid "key" key
        (.ok {r with revokedIssuers := r.revokedIssuers++[kid]},rs.revokeIssuer now realm kid)

/-- A failed part ends the request with what the earlier parts have revoked. -/
def andThen {α β : Type} (o : Outcome α) (f : α → Revocations → Outcome β) : Outcome β :=
  match o with
  | (.error e,rs) => (.error e,rs)
  | (.ok a,rs) => f a rs

def revokeTokens (env : Env) (realm : String) (body : RevokeRequest) (rs : Revocations) :
    Outcome RevokeResponse :=
  andThen (revokeByToken st (env.now 1) realm body.token ⟨[],[]⟩ rs)
    (revokeByJti st (fun i => env.now (2+i)) realm body.jti body.exp)

def revokeIssuers (env : Env) (realm : String) (body : RevokeRequest) (r : RevokeResponse)
    (rs : Revocations) : Outcome RevokeResponse :=
  andThen (revokeByKid (env.now 4) realm body.issKid r rs)
  (revokeByApiKey x st (env.now 5) realm body.apiKey)

def requireRevoked (r : RevokeResponse) (rs : Revocations) : Outcome RevokeResponse :=
  if r.revokedJtis.isEmpty && r.revokedIssuers.isEmpty then
    (.error ⟨.badRequest,"nothing to revoke: provide token, jti, iss_kid, or api_key",none⟩,rs)
  else (.ok r,rs)

/-- Restricted callers need the admin operation. -/
def revocationScope (h : Headers) (withinLimit : Bool) : Except HttpError String := do
  enforceRateLimit h withinLimit
  if st.tokenConfig.isNone then .error ⟨.badRequest,"token sessions not configured",none⟩
  else match ← parseTokenOperations h with
    | some callerOps =>
      if !callerOps.isEmpty && !callerOps.contains .admin then
        .error ⟨.forbidden,"token revocation requires the admin operation",none⟩
      else extractRealmId h
    | none => extractRealmId h

/-- The handler of `/v1/auth/revoke`. -/
def revokeToken (env : Env) (h : Headers) (body : RevokeRequest) (rs : Revocations) :
    Outcome RevokeResponse :=
  match revocationScope st h env.withinLimit with
  | .error e => (.error e,rs)
  | .ok realm =>
    andThen (andThen (revokeTokens st env realm body rs) (revokeIssuers x st env realm body))
      requireRevoked

def sampleExternals : Externals := ⟨fun kind _ => kind,id⟩
def sampleAuth : AuthState := ⟨some fun _ => none,fun _ => none,some ⟨3600,30⟩,false⟩

def sampleToken : TokenClaims where
  realm := "default"
  agentId := "alice"
  namespaces := ["team_a"]
  operations := [.read]
  iss := tokenIssuer
  aud := "default"
  iat := 1000
  exp := 4600
  jti := "parent"
  issKid := none
end Hirn.Token
