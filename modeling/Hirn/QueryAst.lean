import Mathlib

/-! The statements of the query language as the parser builds them. Floating-point numbers are of
two types, with what the standard library does with them as a parameter. -/
namespace Hirn.Query

abbrev Text := List Char

def txt (s : String) : Text := s.toList

def lower (t : Text) : Text := t.map Char.toLower

/-- How a text was written. Nothing the program does depends on it. -/
inductive Written
  | quoted | bare | parameter | bound
  deriving DecidableEq

/-- A text that the program tests for the form of a placeholder. -/
structure Leaf where
  written : Written
  text : Text
  deriving DecidableEq

inductive StringOrParam
  | literal (value : Text)
  | param (name : Text)
  deriving DecidableEq

inductive Layer
  | episodic | semantic | working | procedural
  deriving DecidableEq

inductive TemporalClause
  | after (at_ : Text)
  | before (at_ : Text)
  | between (start stop : Text)
  deriving DecidableEq

inductive RecallSnapshotAst
  | unqualified (value : Text)
  | observed (value : Text)
  | recorded (value : Text)
  | revision (value : Text)
  deriving DecidableEq

inductive ActivationModeAst
  | none | static | spreading | ppr
  deriving DecidableEq

inductive DepthModeAst
  | auto | full | summary
  deriving DecidableEq

inductive ComparisonOp
  | gt | lt | gte | lte | eq | neq
  deriving DecidableEq

inductive OutputFormat
  | narrative | context | graph | causalChain | json | csv | structured
  deriving DecidableEq

inductive AggFunction
  | count | avg | sum | min | max
  deriving DecidableEq

inductive ConsistencyLevel
  | linearizable | eventual | session
  deriving DecidableEq

inductive RetrievalMode
  | local_ | global | hybrid | raptor | adaptive | iterative
  deriving DecidableEq

inductive SemanticTargetRef
  | memory (value : Leaf)
  | logical (value : Leaf)
  | revision (value : Leaf)
  deriving DecidableEq

inductive GrantTarget
  | namespace_ (name : Text)
  | realm (name : Text)
  deriving DecidableEq

inductive PrincipalRef
  | agent (name : Text)
  | team (name : Text)
  deriving DecidableEq

structure GroupByClause where
  field : Text
  function : AggFunction
  deriving DecidableEq

structure Subquery where
  layers : List Layer
  about : StringOrParam
  involving : Option (List Text)
  temporal : Option TemporalClause
  limit : Option ℕ
  deriving DecidableEq

structure SubqueryFilter where
  field : Text
  subquery : Subquery
  deriving DecidableEq

inductive ConditionValue (φ : Type)
  | float (value : φ)
  | int (value : ℤ)
  | string (value : Text)
  | param (name : Text)
  deriving DecidableEq

structure WhereCondition (φ : Type) where
  field : Text
  op : ComparisonOp
  value : ConditionValue φ
  deriving DecidableEq

structure ExpandClause (ψ : Type) where
  depth : ℕ
  minWeight : Option ψ
  activation : Option ActivationModeAst
  deriving DecidableEq

inductive SetValue (φ : Type)
  | float (value : φ)
  | int (value : ℤ)
  | string (value : Text)
  | max (field : Text) (value : φ)
  | min (field : Text) (value : φ)
  deriving DecidableEq

structure SetAssignment (φ : Type) where
  field : Text
  value : SetValue φ
  deriving DecidableEq

inductive TierPolicyValue (φ : Type)
  | str (value : Text)
  | float (value : φ)
  | int (value : ℤ)
  deriving DecidableEq

structure RecallStmt (φ ψ : Type) where
  layers : List Layer
  about : StringOrParam
  involving : Option (List Text)
  temporal : Option TemporalClause
  asOf : Option RecallSnapshotAst
  expand : Option (ExpandClause ψ)
  followCauses : Option ℕ
  whereClauses : List (WhereCondition φ)
  subqueryFilters : List SubqueryFilter
  (modality resourceRoles hydrationModes artifactKinds : Option (List Text))
  depthMode : Option DepthModeAst
  (withProspective withMcfa : Option Bool)
  withConflicts : Bool
  provenanceDepth : Option ℕ
  topic : Option Leaf
  groupBy : Option GroupByClause
  projection : Option (List Text)
  (outputFormat resultFormat : Option OutputFormat)
  budget : Option ℕ
  ns : Option Leaf
  fromRealms : Option (List Text)
  consistency : Option ConsistencyLevel
  limit : Option ℕ
  hybrid : Bool
  deriving DecidableEq

structure RecallEventsStmt (φ : Type) where
  entityFilter : Option Leaf
  whereClauses : List (WhereCondition φ)
  temporal : Option TemporalClause
  ns : Option Leaf
  limit : Option ℕ
  deriving DecidableEq

structure ThinkStmt (φ ψ : Type) where
  about : StringOrParam
  involving : Option (List Text)
  temporal : Option TemporalClause
  expand : Option (ExpandClause ψ)
  followCauses : Option ℕ
  whereClauses : List (WhereCondition φ)
  outputFormat : Option OutputFormat
  budget : Option ℕ
  ns : Option Leaf
  consistency : Option ConsistencyLevel
  limit : Option ℕ
  hybrid : Bool
  mode : RetrievalMode
  depthMode : Option DepthModeAst
  (withProspective withMcfa : Option Bool)
  (provenanceDepth maxHops communityDepth : Option ℕ)
  deriving DecidableEq

/-- What CORRECT and SUPERSEDE, and but for the updates RETRACT, have in common. -/
structure CorrectStmt (φ : Type) where
  target : SemanticTargetRef
  updates : List (SetAssignment φ)
  (reason observedAt causedBy ns : Option Leaf)
  deriving DecidableEq

structure MergeMemoryStmt (φ : Type) where
  sources : List SemanticTargetRef
  target : SemanticTargetRef
  updates : List (SetAssignment φ)
  (reason observedAt causedBy ns : Option Leaf)
  deriving DecidableEq

structure RetractStmt where
  target : SemanticTargetRef
  (reason observedAt causedBy ns : Option Leaf)
  deriving DecidableEq

structure HistoryStmt where
  target : SemanticTargetRef
  ns : Option Leaf
  deriving DecidableEq

structure TraverseStmt (φ : Type) where
  from_ : Leaf
  via : Option (List Text)
  depth : ℕ
  whereClauses : List (WhereCondition φ)
  limit : Option ℕ
  ns : Option Leaf
  deriving DecidableEq

structure ExplainCausesStmt where
  target : Leaf
  ns : Option Leaf
  depth : Option ℕ
  deriving DecidableEq

/-- WHAT_IF with intervention and outcome, COUNTERFACTUAL with antecedent and consequent. -/
structure WhatIfStmt where
  (intervention outcome : Leaf)
  ns : Option Leaf
  deriving DecidableEq

structure CreateRealmStmt where
  name : Text
  description : Option Text
  deriving DecidableEq

structure DropRealmStmt where
  name : Text
  confirm : Bool
  deriving DecidableEq

structure GrantStmt where
  actions : List Text
  target : GrantTarget
  principal : PrincipalRef
  deriving DecidableEq

structure ExplainPolicyStmt where
  principal : PrincipalRef
  (resourceType resourceName action : Text)
  deriving DecidableEq

structure SetTierPolicyStmt (φ : Type) where
  field : Text
  value : TierPolicyValue φ
  deriving DecidableEq

inductive Statement (φ ψ : Type)
  | recall (r : RecallStmt φ ψ)
  | recallEvents (r : RecallEventsStmt φ)
  | think (t : ThinkStmt φ ψ)
  | correct (c : CorrectStmt φ)
  | supersede (s : CorrectStmt φ)
  | mergeMemory (m : MergeMemoryStmt φ)
  | retract (r : RetractStmt)
  | inspect (target : SemanticTargetRef)
  | history (h : HistoryStmt)
  | trace (target : SemanticTargetRef)
  | traverse (t : TraverseStmt φ)
  | explain (analyze : Bool) (inner : Statement φ ψ)
  | explainCauses (e : ExplainCausesStmt)
  | whatIf (w : WhatIfStmt)
  | counterfactual (c : WhatIfStmt)
  | createRealm (c : CreateRealmStmt)
  | dropRealm (d : DropRealmStmt)
  | grant (g : GrantStmt)
  | revoke (r : GrantStmt)
  | showPolicies (principal : Option PrincipalRef)
  | explainPolicy (e : ExplainPolicyStmt)
  | showCluster
  | setTierPolicy (s : SetTierPolicyStmt φ)
  deriving DecidableEq

/-- What the standard library does with numbers of the types `f64` and `f32`. -/
structure Floats (φ ψ : Type) where
  parse64 : Text → Option φ
  parse32 : Text → Option ψ
  fromF32 : ψ → φ
  isFinite : φ → Bool
  /-- The fractional part is zero. -/
  isWhole : φ → Bool
  display : φ → Text
  /-- With one digit behind the point. -/
  displayOne : φ → Text

def noFloats : Floats Unit Unit where
  parse64 _ := none
  parse32 _ := none
  fromF32 := id
  isFinite _ := true
  isWhole _ := true
  display _ := []
  displayOne _ := []

def decimal (t : Text) : ℕ := t.foldl (fun n c => 10*n+(c.toNat-48)) 0
def digits? (t : Text) : Option ℕ := if t ≠ [] ∧ t.all Char.isDigit then some (decimal t) else none

/-- `str::parse` at the type `usize`. -/
def parseUsize (t : Text) : Option ℕ :=
  (digits? (if t.head? = some '+' then t.tail else t)).filter (· < 2^64)

/-- `str::parse` at the type `i64`. -/
def parseI64 (t : Text) : Option ℤ :=
  match t with
  | '-'::ds => ((digits? ds).filter (· ≤ 2^63)).map fun n => -(n : ℤ)
  | '+'::ds => ((digits? ds).filter (· < 2^63)).map fun n => (n : ℤ)
  | ds => ((digits? ds).filter (· < 2^63)).map fun n => (n : ℤ)

/-- `White_Space`, by which `char::is_whitespace` and `str::trim` go. -/
def isWhitespace (c : Char) : Bool :=
  let n := c.toNat
  (9 ≤ n && n ≤ 13) || n = 0x20 || n = 0x85 || n = 0xA0 || n = 0x1680 || (0x2000 ≤ n && n ≤ 0x200A) ||
    n = 0x2028 || n = 0x2029 || n = 0x202F || n = 0x205F || n = 0x3000
end Hirn.Query
