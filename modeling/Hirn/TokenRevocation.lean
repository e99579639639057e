import Hirn.Runs
import Hirn.Token

/-! Revocation over whole runs of a node. An issuer's revocation lasts. The entry of a single
token is pruned by an expiry that may not be the token's own, so the token can come back;
it does not where every entry made for it outlives it. -/
namespace Hirn.Token
open Fallible Runs
variable {r : RevokeResponse}

/-- A call to the node, with the readings of its clock. -/
inductive Call
  | issue (env : Env) (h : Headers) (body : TokenRequest)
  | revoke (env : Env) (h : Headers) (body : RevokeRequest)
  | validate (now : ℕ) (token : Credential)

structure Node where
  revocations : Revocations
  clock : ℕ

variable (x : Externals) (st : AuthState)

def step (n : Node) : Call → Node
  | .issue env _ _ => ⟨n.revocations,env.now 5⟩
  | .revoke env h body => ⟨(revokeToken x st env h body n.revocations).2,env.now 5⟩
  | .validate now _ => ⟨n.revocations,now⟩

/-- The clock does not go back, during a call or between calls. -/
def Timely (n : Node) : Call → Prop
  | .issue env _ _ => n.clock ≤ env.now 0 ∧ Monotone env.now
  | .revoke env _ _ => n.clock ≤ env.now 0 ∧ Monotone env.now
  | .validate now _ => n.clock ≤ now

def AuthState.leeway : ℕ := (st.tokenConfig.map (·.clockSkewLeewaySecs)).getD 0

variable (c : TokenClaims)

/-- An entry with expiry `exp`, made at `now`, is kept while the token is accepted. -/
def Outlives (now exp : ℕ) : Prop :=
  c.exp+st.leeway < max now (saturatingAdd exp revocationPruneLeewaySecs)

def TokenAccepted (realm : String) (body : RevokeRequest) : Prop :=
  ∀ token ∈ body.token, ∃ claims, decodeForRevocation st token = .ok claims ∧ claims.realm = realm

def SafeFor : Call → Prop
  | .revoke env h body => revocationScope st h env.withinLimit = .ok c.realm →
      (∀ claims, body.token = some (.jwt claims) → claims.jti = c.jti →
        Outlives st c (env.now 1) claims.exp) ∧
      (TokenAccepted st c.realm body → body.jti = some c.jti →
        Outlives st c (env.now 3) (bareExp st (env.now 2) body.exp))
  | _ => True

/-- The revocation names the token's id or issuer in its realm, not before its issue. -/
def Names (env : Env) (h : Headers) (body : RevokeRequest) : Prop :=
  extractRealmId h = .ok c.realm ∧
  ((∃ claims, body.token = some (.jwt claims) ∧ claims.jti = c.jti) ∨
    body.jti = some c.jti ∨
    (∃ kid, c.issKid = some kid ∧ body.issKid = some kid ∧ c.iat ≤ env.now 4) ∨
    ∃ key, body.apiKey = some key ∧ c.issKid = some (x.credentialKid "key" key) ∧ c.iat ≤ env.now 5)

def Dead (rs : Revocations) (clock : ℕ) : Prop :=
  (∃ e, rs.jtis (c.realm,c.jti) = some e ∧
    c.exp+st.leeway < saturatingAdd e revocationPruneLeewaySecs) ∨
  (∃ kid t, c.issKid = some kid ∧ rs.issuers (c.realm,kid) = some t ∧ c.iat ≤ t ∧ c.iat ≤ clock) ∨
  c.exp+st.leeway < clock

variable {x st} {c : TokenClaims} {rs : Revocations} {t now : ℕ} (h : Dead st c rs t)
include h

variable {realm : String}

section
variable (ht : t ≤ now)
include ht

theorem Dead.mono : Dead st c rs now := by
  rcases h with h | ⟨kid,r,hk,hr,hiat,hclock⟩ | h
  · exact .inl h
  · exact .inr (.inl ⟨kid,r,hk,hr,hiat,hclock.trans ht⟩)
  · exact .inr (.inr (h.trans_le ht))

theorem Dead.rejected : ∃ err, validateToken st rs now (.jwt c) = .error err := by
  unfold validateToken
  split
  · exact ⟨_,rfl⟩
  · exact ⟨_,rfl⟩
  next tc claims htc heq =>
    cases heq
    have hleeway : st.leeway = tc.clockSkewLeewaySecs := by simp [AuthState.leeway,htc]
    split_ifs with hexp _ _ hjti hkid
    · exact ⟨_,rfl⟩
    · exact ⟨_,rfl⟩
    · exact ⟨_,rfl⟩
    · exact ⟨_,rfl⟩
    · exact ⟨_,rfl⟩
    · rcases h with ⟨e,he,_⟩ | ⟨kid,r,hk,hr,hiat,_⟩ | h
      · simp [Revocations.isJtiRevoked,he] at hjti
      · simp [hk,Revocations.isIssuerRevoked,hr,hiat] at hkid
      · omega

theorem Dead.revokeJti (hsafe : realm = c.realm → jti = c.jti → Outlives st c now exp) :
    Dead st c (rs.revokeJti now realm jti exp) now := by
  by_cases hkey : (c.realm,c.jti) = (realm,jti)
  · obtain ⟨hrealm,hjti⟩ := Prod.mk.inj hkey
    rcases lt_max_iff.mp (hsafe hrealm.symm hjti.symm) with hs | hs
    · exact .inr (.inr hs)
    · exact .inl ⟨exp,by simp [Revocations.revokeJti,hkey],hs⟩
  · rcases h with ⟨e,he,hlt⟩ | ⟨kid,r,hk,hr,hiat,hclock⟩ | h
    · by_cases hkept : now < saturatingAdd e revocationPruneLeewaySecs
      · exact .inl ⟨e,by simp [Revocations.revokeJti,Function.update_of_ne hkey,he,hkept],hlt⟩
      · exact .inr (.inr (by omega))
    · exact .inr (.inl ⟨kid,r,hk,hr,hiat,hclock.trans ht⟩)
    · exact .inr (.inr (h.trans_le ht))

theorem Dead.revokeIssuer (realm kid : String) : Dead st c (rs.revokeIssuer now realm kid) now := by
  rcases h with h | ⟨kid',r,hk,hr,hiat,hclock⟩ | h
  · exact .inl h
  · by_cases hkey : (c.realm,kid') = (realm,kid)
    · exact .inr (.inl ⟨kid',now,hk,by simp [Revocations.revokeIssuer,hkey],hclock.trans ht,hclock.trans ht⟩)
    · exact .inr (.inl ⟨kid',r,hk,by simp [Revocations.revokeIssuer,Function.update_of_ne hkey,hr],
        hiat,hclock.trans ht⟩)
  · exact .inr (.inr (h.trans_le ht))
end

omit h

variable {α β : Type} {f : α → Revocations → Outcome β} {o : Outcome α}

theorem andThen_state {P : Revocations → Prop} (herr : ∀ e, o.1 = .error e → P o.2)
    (hok : ∀ a, o.1 = .ok a → P (f a o.2).2) : P (andThen o f).2 := by
  obtain ⟨r,rs⟩ := o
  cases r with
  | error e => exact herr e rfl
  | ok a => exact hok a rfl

theorem andThen_eq_ok (h : (andThen o f).1 = .ok b) : ∃ a, o.1 = .ok a ∧ andThen o f = f a o.2 := by
  obtain ⟨r,rs⟩ := o
  cases r with
  | error e => cases h
  | ok a => exact ⟨a,rfl,rfl⟩

variable {body : RevokeRequest}

theorem decodeForRevocation_eq_ok {token : Credential}
    (h : decodeForRevocation st token = .ok claims) : token = .jwt claims := by
  unfold decodeForRevocation at h
  split at h
  · cases h
  · cases h
  · split_ifs at h
    rw [Except.ok.inj h]

variable {token : Option Credential}

theorem revokeByToken_eq_ok (h : (revokeByToken st now realm token r rs).1 = .ok r') :
    token = none ∧ (revokeByToken st now realm token r rs).2 = rs ∨
    ∃ claims, token = some (.jwt claims) ∧ decodeForRevocation st (.jwt claims) = .ok claims ∧
      claims.realm = realm ∧
      (revokeByToken st now realm token r rs).2 = rs.revokeJti now realm claims.jti claims.exp := by
  unfold revokeByToken at h ⊢
  cases token with
  | none => exact .inl ⟨rfl,rfl⟩
  | some token =>
    dsimp only at h ⊢
    cases hdec : decodeForRevocation st token with
    | error e => rw [hdec] at h; cases h
    | ok claims =>
      rw [hdec] at h
      obtain rfl := decodeForRevocation_eq_ok hdec
      by_cases hrealm : claims.realm = realm
      · exact .inr ⟨claims,rfl,hdec,hrealm,by simp [hrealm]⟩
      · simp [hrealm] at h

theorem revokeByToken_eq_error (h : (revokeByToken st now realm token r rs).1 = .error e) :
    (revokeByToken st now realm token r rs).2 = rs := by
  unfold revokeByToken at h ⊢
  cases token with
  | none => cases h
  | some token =>
    dsimp only at h ⊢
    cases hdec : decodeForRevocation st token with
    | error e => rfl
    | ok claims =>
      by_cases hrealm : claims.realm = realm
      · simp [hdec,hrealm] at h
      · simp [hrealm]

theorem tokenAccepted_of_ok
    (h : (revokeByToken st now realm body.token r rs).1 = .ok r') : TokenAccepted st realm body := by
  intro token htoken
  rcases revokeByToken_eq_ok h with ⟨hnone,_⟩ | ⟨claims,hsome,hdec,hrealm,_⟩
  · rw [hnone] at htoken
    cases htoken
  · obtain rfl : Credential.jwt claims = token := by simpa [hsome] using htoken
    exact ⟨claims,hdec,hrealm⟩

theorem Dead.revokeByToken (h : Dead st c rs t) (ht : t ≤ now)
    (hsafe : realm = c.realm → ∀ claims, token = some (.jwt claims) → claims.jti = c.jti →
      Outlives st c now claims.exp) : Dead st c (Token.revokeByToken st now realm token r rs).2
      now := by
  cases ho : (Token.revokeByToken st now realm token r rs).1 with
  | error e =>
    rw [revokeByToken_eq_error ho]
    exact h.mono ht
  | ok r' =>
    rcases revokeByToken_eq_ok ho with ⟨_,heq⟩ | ⟨claims,hsome,_,_,heq⟩
    · rw [heq]
      exact h.mono ht
    · rw [heq]
      exact h.revokeJti ht fun hr hj => hsafe hr claims hsome hj

theorem Dead.revokeByJti (times : ℕ → ℕ) (h : Dead st c rs t) (ht : t ≤ times 1) {exp : Option ℕ}
    (hsafe : realm = c.realm → jti = some c.jti → Outlives st c (times 1) (bareExp st (times 0) exp)) :
    Dead st c (Token.revokeByJti st times realm jti exp r rs).2 (times 1) := by
  cases jti with
  | none => exact h.mono ht
  | some jti => exact h.revokeJti ht fun hr hj => hsafe hr (congrArg some hj)

theorem Dead.revokeByKid (h : Dead st c rs t) (ht : t ≤ now) (realm : String) (kid : Option String)
    (r : RevokeResponse) : Dead st c (Token.revokeByKid now realm kid r rs).2 now := by
  cases kid with
  | none => exact h.mono ht
  | some kid => exact h.revokeIssuer ht realm kid

theorem Dead.revokeByApiKey (h : Dead st c rs t) (ht : t ≤ now) (realm : String)
    (key : Option Credential) (r : RevokeResponse) :
    Dead st c (Token.revokeByApiKey x st now realm key r rs).2 now := by
  unfold Token.revokeByApiKey
  cases key with
  | none => exact h.mono ht
  | some key =>
    dsimp only
    cases st.validate key with
    | none => exact h.mono ht
    | some identity =>
      dsimp only
      split_ifs
      · exact h.mono ht
      · exact h.revokeIssuer ht realm _

variable {env : Env} {h : Headers}

theorem requireRevoked_state (r : RevokeResponse) (rs : Revocations) :
    (requireRevoked r rs).2 = rs := by
  unfold requireRevoked
  split_ifs <;> rfl

section
variable (hmono : Monotone env.now)
include hmono

theorem Dead.revokeTokens (hd : Dead st c rs (env.now 0))
    (htoken : realm = c.realm → ∀ claims, body.token = some (.jwt claims) → claims.jti = c.jti →
      Outlives st c (env.now 1) claims.exp)
    (hjti : realm = c.realm → TokenAccepted st realm body → body.jti = some c.jti →
      Outlives st c (env.now 3) (bareExp st (env.now 2) body.exp)) :
    Dead st c (Token.revokeTokens st env realm body rs).2 (env.now 3) := by
  have h1 := hd.revokeByToken (r := ⟨[],[]⟩) (hmono (Nat.zero_le 1)) htoken
  refine andThen_state (P := fun rs => Dead st c rs (env.now 3))
    (fun _ _ => h1.mono (hmono (by decide))) fun r hr => ?_
  exact h1.revokeByJti (fun i => env.now (2+i)) (hmono (by decide)) fun heq hj =>
    hjti heq (tokenAccepted_of_ok hr) hj

theorem Dead.revokeIssuers (hd : Dead st c rs (env.now 3)) (r : RevokeResponse) :
    Dead st c (Token.revokeIssuers x st env realm body r rs).2 (env.now 5) := by
  have h4 := hd.revokeByKid (hmono (by decide : 3 ≤ 4)) realm body.issKid r
  refine andThen_state (P := fun rs => Dead st c rs (env.now 5))
    (fun _ _ => h4.mono (hmono (by decide))) fun a _ => ?_
  exact h4.revokeByApiKey (hmono (by decide)) realm body.apiKey a

theorem Dead.revokeToken (hd : Dead st c rs (env.now 0))
    (hsafe : SafeFor st c (.revoke env h body)) :
    Dead st c (Token.revokeToken x st env h body rs).2 (env.now 5) := by
  unfold Token.revokeToken
  cases hscope : revocationScope st h env.withinLimit with
  | error e => exact hd.mono (hmono (Nat.zero_le 5))
  | ok realm =>
    have hs : realm = c.realm → _ := fun heq => hsafe (heq ▸ hscope)
    have h3 := hd.revokeTokens hmono (fun heq => (hs heq).1)
      fun heq hacc => (hs heq).2 (heq ▸ hacc)
    have h5 : Dead st c (andThen (Token.revokeTokens st env realm body rs)
        (Token.revokeIssuers x st env realm body)).2 (env.now 5) :=
      andThen_state (P := fun rs => Dead st c rs (env.now 5))
        (fun _ _ => h3.mono (hmono (by decide))) fun r _ => h3.revokeIssuers hmono r
    exact andThen_state (P := fun rs => Dead st c rs (env.now 5)) (fun _ _ => h5) fun r _ => by
      rw [requireRevoked_state]
      exact h5
end

theorem dead_of_revokeJti (h : Outlives st c now exp) :
    Dead st c (rs.revokeJti now c.realm c.jti exp) now := by
  rcases lt_max_iff.mp h with hs | hs
  · exact .inr (.inr hs)
  · exact .inl ⟨exp,by simp [Revocations.revokeJti],hs⟩

theorem dead_of_revokeIssuer (hk : c.issKid = some kid) (hiat : c.iat ≤ now) :
    Dead st c (rs.revokeIssuer now c.realm kid) now :=
  .inr (.inl ⟨kid,now,hk,by simp [Revocations.revokeIssuer],hiat,hiat⟩)

theorem revocationScope_eq_ok (hs : revocationScope st h withinLimit = .ok realm) :
    extractRealmId h = .ok realm := by
  obtain ⟨_,_,hs⟩ := bind_eq_ok.mp hs
  split_ifs at hs
  obtain ⟨ops,_,hs⟩ := bind_eq_ok.mp hs
  split at hs
  · split_ifs at hs
    exact hs
  · exact hs

theorem revokeByApiKey_eq_ok (hr : (revokeByApiKey x st now realm (some key) r rs).1 = .ok r') :
    (revokeByApiKey x st now realm (some key) r rs).2 =
      rs.revokeIssuer now realm (x.credentialKid "key" key) := by
  unfold revokeByApiKey at hr ⊢
  cases hv : st.validate key with
  | none => simp [hv] at hr
  | some identity =>
    by_cases hrealm : identity.realm = realm
    · simp [hv,hrealm]
    · simp [hv,hrealm] at hr

/-- A safe revocation that names a token and succeeds leaves it dead. -/
theorem dead_of_revokeToken (hmono : Monotone env.now)
    (hsafe : SafeFor st c (.revoke env h body)) (hnames : Names x c env h body)
    (hok : (revokeToken x st env h body rs).1 = .ok resp) :
    Dead st c (revokeToken x st env h body rs).2 (env.now 5) := by
  unfold revokeToken at hok ⊢
  cases hscope : revocationScope st h env.withinLimit with
  | error e => rw [hscope] at hok; cases hok
  | ok realm =>
    rw [hscope] at hok
    dsimp only at hok ⊢
    obtain rfl : realm = c.realm := by
      have := revocationScope_eq_ok hscope
      rw [hnames.1] at this
      exact (Except.ok.inj this).symm
    obtain ⟨hst,hsj⟩ := hsafe hscope
    obtain ⟨r,hr,heq⟩ := andThen_eq_ok hok
    rw [heq,requireRevoked_state]
    obtain ⟨r₂,hr₂,heq₂⟩ := andThen_eq_ok hr
    rw [heq₂] at hr ⊢
    obtain ⟨r₁,hr₁,heq₁⟩ := andThen_eq_ok hr₂
    obtain ⟨r₃,_,heq₃⟩ := andThen_eq_ok hr
    have hjti : Outlives st c (env.now 3) (bareExp st (env.now 2) body.exp) ∨
      body.jti ≠ some c.jti := by
      by_cases hj : body.jti = some c.jti
      · exact .inl (hsj (tokenAccepted_of_ok hr₁) hj)
      · exact .inr hj
    rcases hnames.2 with ⟨claims,htok,hcj⟩ | hj | ⟨kid,hk,hkid,hiat⟩ | ⟨key,hkey,hk,hiat⟩
    · refine Dead.revokeIssuers hmono ?_ r₂
      have h1 : Dead st c (revokeByToken st (env.now 1) c.realm body.token ⟨[],[]⟩ rs).2
        (env.now 1) := by
        rcases revokeByToken_eq_ok hr₁ with ⟨hnone,_⟩ | ⟨claims',hsome,_,_,hstate⟩
        · rw [htok] at hnone
          cases hnone
        · obtain rfl : claims = claims' := by simpa [htok] using hsome
          rw [hstate,hcj]
          exact dead_of_revokeJti (hst claims htok hcj)
      unfold revokeTokens
      rw [heq₁]
      exact h1.revokeByJti (fun i => env.now (2+i)) (hmono (by decide : 1 ≤ 3))
        fun _ hj => hjti.resolve_right (not_not.mpr hj)
    · refine Dead.revokeIssuers hmono ?_ r₂
      unfold revokeTokens
      rw [heq₁,hj]
      exact dead_of_revokeJti (hjti.resolve_right (not_not.mpr hj))
    · unfold revokeIssuers
      rw [hkid]
      exact (dead_of_revokeIssuer hk hiat).revokeByApiKey (hmono (by decide)) _ _ _
    · unfold revokeIssuers at hr ⊢
      rw [heq₃,hkey] at hr ⊢
      rw [revokeByApiKey_eq_ok hr]
      exact dead_of_revokeIssuer hk hiat

theorem Dead.step (hd : Dead st c n.revocations n.clock) (htime : Timely n call)
    (hsafe : SafeFor st c call) :
    Dead st c (Token.step x st n call).revocations (Token.step x st n call).clock := by
  cases call with
  | issue env h body => exact hd.mono (htime.1.trans (htime.2 (Nat.zero_le 5)))
  | revoke env h body => exact (hd.mono htime.1).revokeToken htime.2 hsafe
  | validate now token => exact hd.mono htime

/-- Where the clock does not go back and calls are safe for a token, it is rejected behind every
revocation that names it. -/
theorem revoked_rejected {x : Externals} {st : AuthState} {c : TokenClaims} {now : ℕ} {start : Node}
    {pre mid : List Call} {env : Env} {h : Headers} {body : RevokeRequest} {resp : RevokeResponse}
    (hclock : Admissible (step x st) Timely start
      (pre++.revoke env h body::(mid++[.validate now (.jwt c)])))
    (hsafe : ∀ call ∈ pre++.revoke env h body::(mid++[.validate now (.jwt c)]), SafeFor st c call)
    (hok : (revokeToken x st env h body (exec (step x st) start pre).revocations).1 = .ok resp)
    (hnames : Names x c env h body) :
    ∃ err, validateToken st (exec (step x st) start (pre++.revoke env h body::mid)).revocations now
      (.jwt c) = .error err := by
  obtain ⟨_,⟨_,hmono⟩,hrest⟩ := admissible_append.mp hclock
  obtain ⟨hmid,⟨hnow,_⟩⟩ := admissible_append.mp hrest
  have hdead := dead_of_revokeToken hmono (hsafe _ (by simp)) hnames hok
  have hend := invariant (I := fun n => Dead st c n.revocations n.clock)
    (fun n call hcall hd => hd.step hcall.1 hcall.2) hdead
    (hmid.and_forall (P := SafeFor st c) fun call hcall => hsafe call (by simp [hcall]))
  rw [exec_append]
  exact Dead.rejected hend hnow

def sampleHeaders : Headers := ⟨some "default",some "operator",none,none,none⟩

/-- A revocation of the sample token, and one of another token behind it. -/
theorem sampleToken_stays_revoked : ∃ err,
    validateToken sampleAuth (exec (step sampleExternals sampleAuth)
    ⟨.empty,0⟩ [.revoke ⟨fun _ => 1000,"",true⟩ sampleHeaders ⟨some (.jwt sampleToken),none,none,
    none,none⟩,
      .revoke ⟨fun _ => 4630,"",true⟩ sampleHeaders ⟨none,some "other",none,none,
      none⟩]).revocations 4630
    (.jwt sampleToken) = .error err := by
  refine @revoked_rejected sampleExternals sampleAuth sampleToken 4630 ⟨.empty,0⟩ []
    [.revoke ⟨fun _ => 4630,"",true⟩ sampleHeaders ⟨none,some "other",none,none,none⟩]
    ⟨fun _ => 1000,"",true⟩ sampleHeaders ⟨some (.jwt sampleToken),none,none,none,none⟩ ⟨["parent"],
    []⟩ ?_ ?_ ?_ ?_
  · exact ⟨⟨Nat.zero_le _,monotone_const⟩,⟨(by decide : 1000 ≤ 4630),monotone_const⟩,le_rfl,trivial⟩
  · have houtlives : Outlives sampleAuth sampleToken 1000 4600 := by
      unfold Outlives
      decide +kernel
    intro call hcall
    simp only [List.nil_append,List.cons_append,List.mem_cons,List.not_mem_nil,or_false] at hcall
    rcases hcall with rfl | rfl | rfl
    · refine fun _ => ⟨fun claims hclaims _ => ?_,fun _ hj => by cases hj⟩
      cases hclaims
      exact houtlives
    · refine fun _ => ⟨fun claims hclaims => (by cases hclaims),fun _ hj => ?_⟩
      exact absurd (Option.some.inj hj) (by decide)
    · trivial
  · decide +kernel
  · exact ⟨by decide +kernel,.inl ⟨sampleToken,rfl,rfl⟩⟩

def longToken : TokenClaims := {sampleToken with exp := 605800}

/-- Revoked by id it gets an entry for the configured hour; once pruned, it is accepted. -/
theorem longToken_comes_back : let revocation :
    RevokeRequest := ⟨none,some longToken.jti,none,none,none⟩
    (revokeToken sampleExternals sampleAuth ⟨fun _ => 1000,"",true⟩ sampleHeaders revocation
    .empty).1 =
      .ok ⟨["parent"],[]⟩ ∧
    Names sampleExternals longToken ⟨fun _ => 1000,"",true⟩ sampleHeaders revocation ∧
    validateToken sampleAuth (exec (step sampleExternals sampleAuth) ⟨.empty,0⟩
      [.revoke ⟨fun _ => 1000,"",true⟩ sampleHeaders revocation,
        .revoke ⟨fun _ => 5000,"",true⟩ sampleHeaders ⟨none,some "other",none,none,
        none⟩]).revocations 5001
      (.jwt longToken) = .ok longToken := by
  refine ⟨by decide +kernel,⟨by decide +kernel,.inr (.inl rfl)⟩,by decide +kernel⟩
end Hirn.Token
