import Hirn.Token

/-! The namespaces of a token are read in three places: in the check of a request, in the scope
that the engine is given and in the filter of WATCH. They agree on every namespace. -/
namespace Hirn.Token
open Fallible List

/-- The tables of `char`, and whether the interner takes a name. -/
structure NamespaceRules where
  (isWhitespace isAlphanumeric : Char → Bool)
  tryIntern : String → Except String Unit

variable (x : NamespaceRules) (agent name : String) (allowed : List String)

/-- `Namespace::new`; a namespace is its name. -/
def namespaceNew : Except String String := do
  let text := name.toList
  let trimmed := (text.dropWhile x.isWhitespace).rdropWhile x.isWhitespace
  if trimmed = [] ∨ trimmed ≠ text then
    throw ("invalid input: invalid namespace: '"++name++"' (empty or has leading/trailing whitespace)")
  if !text.all fun c => x.isAlphanumeric c || c = '_' || c = ':' || c = '-' then
    throw ("invalid input: invalid namespace: '"++name++
      "' (only alphanumeric, underscore, colon, hyphen allowed)")
  if name = "private:" then throw "invalid input: invalid namespace: 'private:' requires an agent suffix"
  x.tryIntern name
  return name

def resolveNamespace : Except String String :=
  if name = "private" ∨ name = "default" then .ok (privateFor agent)
  else if name = "shared" then .ok "shared"
  else (namespaceNew x name).mapError fun error => "invalid token namespace '"++name++"': "++error

def pushNamespace (resolved : List String) (name : String) : Except String (List String) := do
  let ns ← resolveNamespace x agent name
  return if resolved.contains ns then resolved else resolved++[ns]

def tokenNamespaceScope : Except String (List String) :=
  if allowed.isEmpty then .ok [privateFor agent,"shared"] else
    allowed.foldlM (pushNamespace x agent) []

structure WatchNamespaceScope where
  requestedNamespace : Option String
  tokenAllowedNamespaces : Option (List String)
  (privateNamespace sharedNamespace : Option String)

/-- `WatchNamespaceScope::token_scoped`. -/
def tokenScoped (requested : Option String) : WatchNamespaceScope :=
  ⟨requested,some allowed,some (privateFor agent),some "shared"⟩

/-- The outer option is `none` where an `expect` panics. -/
def WatchNamespaceScope.allowsNamespace (w : WatchNamespaceScope) : Option String → Option Bool
  | none => some (w.requestedNamespace.isNone && w.tokenAllowedNamespaces.isNone)
  | some event =>
    if w.requestedNamespace.any (· ≠ event) then some false
    else
      match w.tokenAllowedNamespaces with
      | none => some true
      | some allowed => do
        let privateNs ← w.privateNamespace
        let sharedNs ← w.sharedNamespace
        return if allowed.isEmpty then event = privateNs || event = sharedNs
          else allowed.any fun a =>
            if a = "private" ∨ a = "default" then event = privateNs
            else if a = "shared" then event = sharedNs
            else event = a

variable {x agent name allowed} {scope : List String} {ns : String}

theorem namespaceNew_eq_ok (h : namespaceNew x name = .ok ns) : ns = name := by
  simp only [namespaceNew] at h
  split_ifs at h <;> simp_all

/-- How the checks read an entry of the claim. -/
def entryAllows (agent effective name : String) : Bool :=
  if name = "private" ∨ name = "default" then effective = privateFor agent
  else if name = "shared" then effective = "shared"
  else effective = name

theorem resolveNamespace_iff (h : resolveNamespace x agent name = .ok ns) {effective : String} :
    entryAllows agent effective name ↔ effective = ns := by
  rw [resolveNamespace] at h
  rw [entryAllows]
  split_ifs at h ⊢
  · cases h; simp
  · cases h; simp
  · cases hnew : namespaceNew x name with
    | error e => simp [hnew,Except.mapError] at h
    | ok ns' =>
      rw [hnew] at h
      cases h
      simp [namespaceNew_eq_ok hnew]

theorem mem_tokenNamespaceScope (hne : allowed.isEmpty = false)
    (h : tokenNamespaceScope x agent allowed = .ok scope) :
    ns ∈ scope ↔ allowed.any (entryAllows agent ns) := by
  suffices hloop : ∀ resolved, allowed.foldlM (pushNamespace x agent) resolved = .ok scope →
      (ns ∈ scope ↔ ns ∈ resolved ∨ allowed.any (entryAllows agent ns)) by
    rw [tokenNamespaceScope,hne] at h
    simpa using hloop [] h
  clear h hne
  induction allowed with
  | nil => simp
  | cons name allowed ih =>
    intro resolved h
    rw [foldlM_cons,bind_eq_ok] at h
    obtain ⟨next,hnext,h⟩ := h
    rw [pushNamespace,bind_eq_ok] at hnext
    obtain ⟨ns',hns',hnext⟩ := hnext
    cases hnext
    rw [ih _ h,any_cons,Bool.or_eq_true,resolveNamespace_iff hns',← or_assoc]
    by_cases hmem : ns' ∈ resolved
    · grind
    · simp [hmem]

def laxRules : NamespaceRules := ⟨fun _ => false,fun _ => true,fun _ => .ok ()⟩

end Hirn.Token
