import Hirn.RecordBatch
import Hirn.SettledChains

/-! HISTORY: visibility is decided for the target, the rows are fetched by its chain. A caller
sees only what is allowed where each chain stays in one namespace. Edits keep chains where they
are; sharing into another namespace does not. -/
namespace Hirn.Engine
open Chains Effects Fallible Runs

inductive SemanticTargetKind
  | memory | logical | revision
  deriving DecidableEq

/-- The column that a target of the kind names. -/
def SemanticTargetKind.column : SemanticTargetKind → SemanticRecord → ℕ
  | .memory => (·.id)
  | .logical => (·.logicalMemoryId)
  | .revision => (·.revisionId)

/-- `Namespace::new`: what it accepts and what it says otherwise. -/
def namespaceNew (u : FilterLang.Unicode) (name : String) : Except String Namespace :=
  if (trim name).isEmpty || trim name != name then
    .error ("invalid input: invalid namespace: '"++name++
    "' (empty or has leading/trailing whitespace)")
  else if !name.toList.all fun c => u.isAlphanumeric c || c == '_' || c == ':' || c == '-' then
    .error ("invalid input: invalid namespace: '"++name ++
      "' (only alphanumeric, underscore, colon, hyphen allowed)")
  else if name == "private:" then
    .error "invalid input: invalid namespace: 'private:' requires an agent suffix"
  else .ok name

variable (u : FilterLang.Unicode) (b : Backend SemanticRecord)

/-- The rows that a target names. The newest revision of a chain comes first. -/
def targetRows (rows : List SemanticRecord) (target : ℕ) (kind : SemanticTargetKind) :
    List SemanticRecord :=
  let found := rows.filter (kind.column · == target)
  if kind = .logical then b.latest found else found

def resolveTargetRecord (rows : List SemanticRecord) (target : ℕ) (kind : SemanticTargetKind) :
    Except String SemanticRecord :=
  match ((targetRows b rows target kind).take 1).getLast? with
  | some record => .ok record
  | none => .error ("semantic history target '"++ulid target++"' was not found")

variable (current : SemanticRecord)

def inRequestedNamespace : Option String → Except String Unit
  | none => .ok ()
  | some name => do
    let ns ← namespaceNew u name
    if current.ns = ns then .ok () else
      .error ("HISTORY target is in namespace '"++current.ns++"' but query specified '"++ns++"'")

def inAllowedNamespace : Option (List Namespace) → Except String Unit
  | none => .ok ()
  | some allowed => if current.ns ∈ allowed then .ok () else
      .error ("HISTORY cannot access namespace '"++current.ns++"'")

def ensureNamespaceVisible (requested : Option String) (allowed : Option (List Namespace)) :
    Except String Unit := do
  inRequestedNamespace u current requested
  inAllowedNamespace current allowed

variable (rows : List SemanticRecord)

/-- The revisions of the target's chain, each with whether it is the target. -/
def scanSemanticHistory (target : ℕ) (kind : SemanticTargetKind)
    (requested : Option String) (allowed : Option (List Namespace)) :
    Except String (List (SemanticRecord × Bool)) := do
  let current ← resolveTargetRecord b rows target kind
  ensureNamespaceVisible u current requested allowed
  .ok ((b.oldest (rows.filter (·.logicalMemoryId == current.logicalMemoryId))).map fun r =>
    (r,r.revisionId == current.revisionId))

def visibleRows (allowed : List Namespace) (rows : List SemanticRecord) : List SemanticRecord :=
  rows.filter (·.ns ∈ allowed)

/-- Each history is allowed, and the one that the allowed revisions give. -/
def Confined : Prop :=
  ∀ target kind requested allowed history,
    (scanSemanticHistory u b rows target kind requested (some allowed) = .ok history →
      ∀ entry ∈ history, entry.1.ns ∈ allowed) ∧
    (scanSemanticHistory u b rows target kind requested (some allowed) = .ok history ↔
      scanSemanticHistory u b (visibleRows allowed rows) target kind requested (some allowed) =
      .ok history)

/-- Revisions that share an id, a chain or a revision id share a namespace. -/
def OneNamespace : Prop :=
  ∀ kind : SemanticTargetKind, ∀ r ∈ rows, ∀ r' ∈ rows, kind.column r = kind.column r' → r.ns = r'.ns

variable {u b} {rows} {current}

theorem mem_targetRows : r ∈ targetRows b rows target kind ↔ r ∈ rows ∧ kind.column r = target := by
  unfold targetRows
  split
  · simp [(b.latest_perm _).mem_iff]
  · simp

theorem resolveTargetRecord_congr (h : rows'.filter (kind.column · == target) =
    rows.filter (kind.column · == target)) :
    resolveTargetRecord b rows' target kind = resolveTargetRecord b rows target kind := by
  simp [resolveTargetRecord,targetRows,h]

theorem mem_of_resolveTargetRecord (h : resolveTargetRecord b rows target kind = .ok current) :
    current ∈ rows ∧ kind.column current = target := by
  unfold resolveTargetRecord at h
  split at h
  next record hrecord =>
    cases h
    exact mem_targetRows.mp (List.mem_of_mem_take (List.mem_of_getLast? hrecord))
  · cases h

theorem scanSemanticHistory_eq_ok {allowed : Option (List Namespace)} :
    scanSemanticHistory u b rows target kind requested allowed = .ok history ↔
      ∃ current, resolveTargetRecord b rows target kind = .ok current ∧
        inRequestedNamespace u current requested = .ok () ∧
        inAllowedNamespace current allowed = .ok () ∧
        (b.oldest (rows.filter (·.logicalMemoryId == current.logicalMemoryId))).map (fun r =>
          (r,r.revisionId == current.revisionId)) = history := by
  simp [scanSemanticHistory,ensureNamespaceVisible,Unique.exists_iff]

theorem inAllowedNamespace_some : inAllowedNamespace current (some allowed) = .ok () ↔
    current.ns ∈ allowed := by simp [inAllowedNamespace]

theorem OneNamespace.filter_visibleRows (h : OneNamespace rows) (hr : r ∈ rows)
    (hvis : r.ns ∈ allowed) (kind : SemanticTargetKind) :
    (visibleRows allowed rows).filter (kind.column · == kind.column r) =
      rows.filter (kind.column · == kind.column r) := by
  rw [visibleRows,List.filter_filter]
  refine List.filter_congr fun x hx => ?_
  by_cases hcol : kind.column x = kind.column r
  · simp [h kind x hx r hr hcol,hvis]
  · simp [hcol]

theorem OneNamespace.confined (h : OneNamespace rows) : Confined u b rows := by
  intro target kind requested allowed history
  have hsame : ∀ current ∈ rows, kind.column current = target → current.ns ∈ allowed →
      resolveTargetRecord b (visibleRows allowed rows) target kind =
        resolveTargetRecord b rows target kind ∧
      (visibleRows allowed rows).filter (·.logicalMemoryId == current.logicalMemoryId) =
        rows.filter (·.logicalMemoryId == current.logicalMemoryId) := by
    rintro current hmem rfl hvis
    exact ⟨resolveTargetRecord_congr (h.filter_visibleRows hmem hvis kind),
      h.filter_visibleRows hmem hvis .logical⟩
  simp only [scanSemanticHistory_eq_ok,inAllowedNamespace_some]
  refine ⟨?_,?_,?_⟩
  · rintro ⟨current,hres,-,hvis,rfl⟩ entry hentry
    obtain ⟨r,hr,rfl⟩ := List.mem_map.mp hentry
    have hrow := (b.oldest_perm _).mem_iff.mp hr
    rw [List.mem_filter,beq_iff_eq] at hrow
    rw [show r.ns = current.ns from h .logical r hrow.1 current
      (mem_of_resolveTargetRecord hres).1 hrow.2]
    exact hvis
  · rintro ⟨current,hres,hreq,hvis,rfl⟩
    obtain ⟨hmem,hcol⟩ := mem_of_resolveTargetRecord hres
    obtain ⟨hresolve,hchain⟩ := hsame current hmem hcol hvis
    exact ⟨current,hresolve.trans hres,hreq,hvis,by rw [hchain]⟩
  · rintro ⟨current,hres,hreq,hvis,rfl⟩
    obtain ⟨hmem,hcol⟩ := mem_of_resolveTargetRecord hres
    obtain ⟨hresolve,hchain⟩ := hsame current (List.mem_of_mem_filter hmem) hcol hvis
    exact ⟨current,hresolve.symm.trans hres,hreq,hvis,by rw [hchain]⟩

theorem Settled.oneNamespace (h : Settled s) : OneNamespace s.rows := by
  intro kind r hr r' hr' hcol
  cases kind with
  | memory => exact h.byId r r' (.inl hr) (.inl hr') hcol
  | logical => exact h.byChain r r' (.inl hr) (.inl hr') hcol
  | revision => exact h.byRevision r r' (.inl hr) (.inl hr') hcol

/-- A request as it comes: its identifiers are new, and what it brings fits. -/
def Admitted (db : Db) (request : Call × Request) : Prop :=
  Fresh request.1 db.semantic ∧ Fitting db request.2

/-- In every run whose requests bring in only what fits, HISTORY is confined. -/
theorem history_confined (u : FilterLang.Unicode) (env : Env) {requests : List (Call × Request)}
    (h : Admissible (step env) Admitted Db.empty requests) :
    Confined u env.semanticBackend (exec (step env) Db.empty requests).semantic.rows := by
  have hsettled : Settled (exec (step env) Db.empty requests).semantic :=
    invariant (I := fun db => Settled db.semantic)
      (fun db request hadm hs => settled_step hs hadm.1 hadm.2) Settled.empty h
  exact hsettled.oneNamespace.confined

/-- A database without a policy engine and with the gates open. -/
def openEnv : Env where
  denial _ _ _ := none
  poisoning _ _ := none
  embedText _ := .ok []
  embeddingDimensions := 0
  textRetention := .full
  showF32 _ := ""
  contradictionLinks _ := []
  semanticBackend := Backend.stable
  episodicBackend := Backend.stable

def callAt (now : Timestamp) (first : MemoryId) : Call :=
  ⟨now,fun i => first+i,.accept,fun body => body,none,none⟩

def newSemantic (id : MemoryId) (ns : Namespace) (agentId : AgentId) (concept : String) :
    SemanticRecord where
  id := id
  logicalMemoryId := id
  revisionId := id
  concept := concept
  description := "the launch code"
  embedding := none
  confidence := 1/2
  sourceEpisodes := []
  evidenceCount := 0
  contradictionIds := []
  accessCount := 0
  version := 1
  revisionOperation := .create
  revisionReason := none
  revisionCausationId := none
  provenance := .withOrigin .directObservation agentId
  ns := ns
  createdAt := 0
  updatedAt := 0
  validFrom := 0
  validUntil := none
  supersededBy := none
  mergedInto := none
  functionalRole := .stableFact

def secret : SemanticRecord := newSemantic 1 "private:ada" "ada" "launch"
def correction : SemanticUpdate := ⟨some "changed",none,none,none,"ada",none,1⟩

theorem history_confined_correction : Confined Storage.asciiExternals.toUnicode
      openEnv.semanticBackend (exec (step openEnv) Db.empty
        [(callAt 0 10,.storeSemantic secret),(callAt 1 20,.correct 1 correction)]).semantic.rows := by
  have hno : ∀ r : SemanticRecord, ¬Db.empty.semantic.Present r := by
    rintro r (h | ⟨c,h⟩) <;> cases h
  have hstored : (step openEnv Db.empty (callAt 0 10,.storeSemantic secret)).semantic =
      (Db.empty.semantic.append [secret]).cacheHead secret := rfl
  have honly : ∀ r, (step openEnv Db.empty (callAt 0 10,.storeSemantic secret)).semantic.Present r →
      r = secret := by
    intro r hr
    rw [hstored] at hr
    rcases hr.of_cacheHead with hr | hr
    · exact hr.of_append.elim (fun h => absurd h (hno r)) (by simp)
    · exact hr
  refine history_confined _ _ ⟨⟨⟨fun i r hr => absurd hr (hno r),fun i r hr => absurd hr (hno r)⟩,
    ?_⟩,⟨⟨fun i r hr => ?_,fun i r hr => ?_⟩,trivial⟩,trivial⟩
  · exact ⟨fun r hr => absurd hr (hno r),fun r hr => absurd hr (hno r),fun r hr => absurd hr (hno r)⟩
  · rw [honly r hr]
    show (1 : ℕ) ≠ 20+i
    omega
  · rw [honly r hr]
    show (1 : ℕ) ≠ 20+i
    omega

def ada : AgentContext := ⟨"ada",["private:ada","shared"]⟩

def shareSecret : List (Call × Request) :=
  [(callAt 0 10,.storeSemantic secret),(callAt 1 20,.promote ada 1)]

/-- A reader of `shared` asks for the copy's history and gets the private revision. -/
theorem history_shows_private_source : ¬Confined Storage.asciiExternals.toUnicode
      openEnv.semanticBackend (exec (step openEnv) Db.empty shareSecret).semantic.rows := by
  intro h
  have hscan : scanSemanticHistory Storage.asciiExternals.toUnicode openEnv.semanticBackend
      (exec (step openEnv) Db.empty shareSecret).semantic.rows 21 .memory none (some ["shared"]) =
      .ok [(secret,true),(semanticCopy (callAt 1 20) ada secret "shared",true)] := by decide +kernel
  have hmem := (h _ _ _ _ _).1 hscan (secret,true) (by simp)
  revert hmem
  decide
end Hirn.Engine
