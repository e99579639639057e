import Hirn.QueryAst
import Hirn.QueryGrammar

/-! From the tree of a text to its statement, with the limits that are checked at the end. -/
namespace Hirn.Query
open Peg

/-- The grammar's errors carry the generator's message, which is left out. -/
inductive ParseError
  | syntaxError
  | simple (message : String)

variable {φ ψ : Type} (fl : Floats φ ψ)

/-- Escape sequences of a quoted text. -/
def unescapeString : Text → Except ParseError Text
  | [] => .ok []
  | ['\\'] => .ok ['\\']
  | '\\'::c::cs =>
    if c = 'n' then (unescapeString cs).map ('\n'::·)
    else if c = 't' then (unescapeString cs).map ('\t'::·)
    else if c = 'r' then (unescapeString cs).map ('\r'::·)
    else if c = '\\' ∨ c = '"' ∨ c = '\'' then (unescapeString cs).map (c::·)
    else .error (.simple ("invalid escape sequence: '\\"++String.singleton c++"'"))
  | c::cs => (unescapeString cs).map (c::·)

variable (pair : Item Rule)

def extractStringValue : Except ParseError Text :=
  unescapeString ((pair.intoInner.head?.map Item.asStr).getD [])

def findRule (r : Rule) (pairs : List (Item Rule)) : Option (Item Rule) :=
  pairs.find? (·.asRule = some r)

def stringOrEmpty : Except ParseError Text :=
  match findRule .stringLiteral pair.intoInner with
  | some p => extractStringValue p
  | none => .ok []

def extractStringFromClause : Except ParseError Leaf :=
  match pair.intoInner.find? (fun p => p.asRule = some .parameter ∨
    p.asRule = some .stringLiteral) with
  | none => .ok ⟨.quoted,[]⟩
  | some p =>
    if p.asRule = some .parameter then .ok ⟨.parameter,p.asStr⟩ else (extractStringValue p).map
      (⟨.quoted,·⟩)

def extractAbout : Except ParseError StringOrParam :=
  match pair.intoInner.head? with
  | none => .error (.simple "empty ABOUT clause")
  | some inner =>
    match inner.asRule with
    | some .parameter => .ok (.param inner.asStr)
    | some .stringLiteral => (extractStringValue inner).map .literal
    | _ => .ok (.literal [])

def StringOrParam.isBlankLiteral : StringOrParam → Bool
  | .literal value => value.all isWhitespace
  | .param _ => false

/-- The quoted texts of a part, one level down where they stand in a list. -/
def stringsOf (p : Item Rule) : Except ParseError (List Text) :=
  match p.asRule with
  | some .stringList => (p.intoInner.filter (·.asRule = some .stringLiteral)).mapM extractStringValue
  | some .stringLiteral => (extractStringValue p).map ([·])
  | _ => .ok []

def extractStringList : Except ParseError (List Text) :=
  (pair.intoInner.mapM stringsOf).map List.flatten

def extractNamespace : Leaf :=
  (pair.intoInner.findSome? fun p =>
    match p.asRule with
    | some .namespaceIdentifier => some ⟨.bare,p.asStr⟩
    | some .stringLiteral => (extractStringValue p).toOption.map (⟨.quoted,·⟩)
    | _ => none).getD ⟨.quoted,[]⟩

def extractRealmList : List Text :=
  (pair.intoInner.filter (·.asRule = some .stringLiteral)).filterMap fun p =>
  (extractStringValue p).toOption

def buildLayerFilter : List Layer :=
  (pair.intoInner.filter (·.asRule = some .layerName)).map fun p =>
    let s := lower p.asStr
    if s = txt "episodic" then .episodic
    else if s = txt "semantic" then .semantic
    else if s = txt "working" then .working
    else if s = txt "procedural" then .procedural
    else .episodic

def extractFloat : Except ParseError ψ :=
  match findRule .floatLiteral pair.intoInner with
  | none => .error (.simple "expected float literal")
  | some p =>
    match fl.parse32 p.asStr with
    | some v => .ok v
    | none => .error (.simple ("invalid float literal: '"++String.ofList p.asStr++"'"))

/-- Stands behind LIMIT, BUDGET, DEPTH and MAX_HOPS alike. -/
def extractInt : Except ParseError ℕ :=
  match pair.intoInner.find? (fun p => p.asRule = some .integerLiteral ∨
    p.asRule = some .parameter) with
  | none => .error (.simple "expected integer literal")
  | some p =>
    if p.asRule = some .parameter then
      .error (.simple ("parameter '"++String.ofList p.asStr ++
        "' is not allowed here — LIMIT/BUDGET/DEPTH require an integer literal"))
    else
      match parseUsize p.asStr with
      | some n => .ok n
      | none => .error (.simple ("invalid integer literal: '"++String.ofList p.asStr++"'"))

def buildTemporal : Except ParseError TemporalClause :=
  match pair.intoInner.head? with
  | none => .error (.simple "empty temporal clause")
  | some inner =>
    match inner.asRule with
    | some .afterClause => (stringOrEmpty inner).map .after
    | some .beforeClause => (stringOrEmpty inner).map .before
    | some .betweenClause =>
      ((inner.intoInner.filter (·.asRule = some .stringLiteral)).mapM extractStringValue).map
        fun strings =>
        .between (strings.head?.getD []) (strings[1]?.getD [])
    | _ => .ok (.after [])

def parseDepth (p : Item Rule) : Except ParseError ℕ :=
  match parseUsize p.asStr with
  | some n => .ok n
  | none => .error (.simple ("invalid DEPTH value: '"++String.ofList p.asStr++"'"))

def buildActivation : ActivationModeAst :=
  let mode := lower (((findRule .activationMode pair.intoInner).map Item.asStr).getD [])
  if mode = txt "spreading" then .spreading
  else if mode = txt "static" then .static
  else if mode = txt "ppr" ∨ mode = txt "pagerank" then .ppr
  else .none

def expandStep (expand : ExpandClause ψ) (inner : Item Rule) : Except ParseError (ExpandClause ψ) :=
  match inner.asRule with
  | some .integerLiteral => (parseDepth inner).map fun depth => {expand with depth := depth}
  | some .minWeightClause => (extractFloat fl inner).map fun w => {expand with minWeight := some w}
  | some .activationClause => .ok {expand with activation := some (buildActivation inner)}
  | _ => .ok expand

def buildExpand : Except ParseError (ExpandClause ψ) :=
  pair.intoInner.foldlM (expandStep fl) ⟨1,none,none⟩

def extractFollowCauses : Except ParseError ℕ :=
  match findRule .integerLiteral pair.intoInner with
  | none => .error (.simple "FOLLOW CAUSES requires an integer depth")
  | some p =>
    match parseUsize p.asStr with
    | some n => .ok n
    | none => .error (.simple ("invalid FOLLOW CAUSES depth: '"++String.ofList p.asStr++"'"))

def buildComparisonOp (s : Text) : ComparisonOp :=
  if s = txt ">=" then .gte
  else if s = txt "<=" then .lte
  else if s = txt "!=" then .neq
  else if s = txt ">" then .gt
  else if s = txt "<" then .lt
  else .eq

def orError {α : Type} (o : Option α) (message : String) : Except ParseError α :=
  match o with
  | some a => .ok a
  | none => .error (.simple message)

/-- A condition starts out as a comparison of no field with the number 0. -/
def conditionStep (c : WhereCondition φ) (inner : Item Rule) : Except ParseError (WhereCondition φ) :=
  match inner.asRule with
  | some .identifier => .ok {c with field := inner.asStr}
  | some .comparisonOp => .ok {c with op := buildComparisonOp inner.asStr}
  | some .floatLiteral =>
    (orError (fl.parse64 inner.asStr) ("invalid float in WHERE: '"++String.ofList inner.asStr++
      "'")).map
      fun v => {c with value := .float v}
  | some .integerLiteral =>
    (orError (parseI64 inner.asStr) ("invalid integer in WHERE: '"++String.ofList inner.asStr++
      "'")).map
      fun v => {c with value := .int v}
  | some .stringLiteral => (extractStringValue inner).map fun v => {c with value := .string v}
  | some .parameter => .ok {c with value := .param inner.asStr}
  | _ => .ok c

/-- The value before one has been read is an integer here, a float in the source, never used. -/
def buildCondition : Except ParseError (WhereCondition φ) :=
  pair.intoInner.foldlM (conditionStep fl) ⟨[],.gt,.int 0⟩

def buildWhere : Except ParseError (WhereCondition φ) :=
  match findRule .condition pair.intoInner with
  | none => .error (.simple "WHERE clause missing condition")
  | some c => buildCondition fl c

def subqueryStep (q : Subquery) (inner : Item Rule) : Except ParseError Subquery :=
  match inner.asRule with
  | some .layerFilter => .ok {q with layers := buildLayerFilter inner}
  | some .aboutClause => (extractAbout inner).map fun a => {q with about := a}
  | some .involvingClause => (extractStringList inner).map fun l => {q with involving := some l}
  | some .temporalClause => (buildTemporal inner).map fun t => {q with temporal := some t}
  | some .limitClause => (extractInt inner).map fun n => {q with limit := some n}
  | _ => .ok q

def Subquery.empty : Subquery := ⟨[],.literal [],none,none,none⟩

def buildSubquery : Except ParseError Subquery :=
  pair.intoInner.foldlM subqueryStep Subquery.empty

def inSubqueryStep (f : SubqueryFilter) (inner : Item Rule) : Except ParseError SubqueryFilter :=
  match inner.asRule with
  | some .identifier => .ok {f with field := inner.asStr}
  | some .subquery => (buildSubquery inner).map fun q => {f with subquery := q}
  | _ => .ok f

def buildInSubquery : Except ParseError SubqueryFilter :=
  pair.intoInner.foldlM inSubqueryStep ⟨[],Subquery.empty⟩

def buildAsOf : Except ParseError RecallSnapshotAst :=
  let single (inner : Item Rule) (clause : String) : Except ParseError Text :=
    match findRule .stringLiteral inner.intoInner with
    | some p => extractStringValue p
    | none => .error (.simple (clause++" requires a string literal"))
  match pair.intoInner.head? with
  | none => .error (.simple "AS OF clause requires a snapshot target")
  | some inner =>
    match inner.asRule with
    | some .stringLiteral => (extractStringValue inner).map .unqualified
    | some .asOfObserved => (single inner "AS OF OBSERVED").map .observed
    | some .asOfRecorded => (single inner "AS OF RECORDED").map .recorded
    | some .asOfRevision => (single inner "AS OF REVISION").map .revision
    | _ => .error (.simple "unexpected AS OF target")

def parseOutputFormat (s : Text) : OutputFormat :=
  if s = txt "narrative" then .narrative
  else if s = txt "context" then .context
  else if s = txt "graph" then .graph
  else if s = txt "causal_chain" then .causalChain
  else if s = txt "json" then .json
  else if s = txt "csv" then .csv
  else if s = txt "structured" then .structured
  else .context

def buildOutputFormat : OutputFormat :=
  parseOutputFormat (lower (((findRule .outputFormat pair.intoInner).map Item.asStr).getD []))

def buildAggFunction (s : Text) : AggFunction :=
  if s = txt "count" then .count
  else if s = txt "avg" then .avg
  else if s = txt "sum" then .sum
  else if s = txt "min" then .min
  else if s = txt "max" then .max
  else .count

def groupByStep (g : GroupByClause) (inner : Item Rule) : GroupByClause :=
  match inner.asRule with
  | some .identifier => {g with field := inner.asStr}
  | some .aggFunction => {g with function := buildAggFunction (lower inner.asStr)}
  | _ => g

def buildGroupBy : GroupByClause := pair.intoInner.foldl groupByStep ⟨[],.count⟩

def identifiersOf (list : Rule) (pair : Item Rule) : List Text :=
  (pair.intoInner.filter (·.asRule = some list)).flatMap fun l =>
    (l.intoInner.filter (·.asRule = some .identifier)).map Item.asStr

def buildConsistency : ConsistencyLevel :=
  let level := lower (((findRule .consistencyLevel pair.intoInner).map Item.asStr).getD [])
  if level = txt "linearizable" then .linearizable
  else if level = txt "eventual" then .eventual
  else .session

def parseRetrievalMode (s : Text) : RetrievalMode :=
  if s = txt "global" then .global
  else if s = txt "hybrid" then .hybrid
  else if s = txt "raptor" then .raptor
  else if s = txt "adaptive" then .adaptive
  else if s = txt "iterative" then .iterative
  else .local_

def retrievalModeStep (m : RetrievalMode × Option ℕ) (inner : Item Rule) :
    Except ParseError (RetrievalMode × Option ℕ) :=
  match inner.asRule with
  | some .retrievalMode => .ok (parseRetrievalMode (lower inner.asStr),m.2)
  | some .maxHopsClause =>
    (extractInt inner).bind fun hops =>
      if hops = 0 ∨ 5 < hops then
        .error (.simple ("MAX_HOPS must be between 1 and 5, got "++toString hops))
      else .ok (m.1,some hops)
  | _ => .ok m

def buildRetrievalModeWithHops : Except ParseError (RetrievalMode × Option ℕ) :=
  (pair.intoInner.foldlM retrievalModeStep (.local_,none)).bind fun m =>
    if m.2.isSome ∧ m.1 ≠ .iterative then
      .error (.simple "MAX_HOPS can only be used with MODE ITERATIVE")
    else .ok m

def buildDepthMode : Except ParseError DepthModeAst :=
  let s := ((findRule .depthMode pair.intoInner).map Item.asStr).getD []
  if lower s = txt "full" then .ok .full
  else if lower s = txt "summary" then .ok .summary
  else if lower s = txt "auto" then .ok .auto
  else .error (.simple ("unknown DEPTH mode '"++String.ofList s++"', expected AUTO, FULL, or SUMMARY"))

def buildOnOff : Except ParseError Bool :=
  let s := ((findRule .onOff pair.intoInner).map Item.asStr).getD []
  if lower s = txt "on" then .ok true
  else if lower s = txt "off" then .ok false
  else .error (.simple ("expected ON or OFF, got '"++String.ofList s++"'"))

def buildNamedList (list item : Rule) (message : String) (pair : Item Rule) :
    Except ParseError (List Text) :=
  match findRule list pair.intoInner with
  | none => .error (.simple message)
  | some l => .ok ((l.intoInner.filter (·.asRule = some item)).map fun p => lower p.asStr)

def buildModalityList : Item Rule → Except ParseError (List Text) :=
  buildNamedList .modalityList .modalityName "MODALITY clause missing modality list"

def buildEvidenceRoleList : Item Rule → Except ParseError (List Text) :=
  buildNamedList .evidenceRoleList .evidenceRoleName "RESOURCE_ROLE clause missing evidence role list"

def buildHydrationModeList : Item Rule → Except ParseError (List Text) :=
  buildNamedList .hydrationModeList .hydrationModeName "HYDRATION clause missing hydration mode list"

def buildArtifactKindList : Item Rule → Except ParseError (List Text) :=
  buildNamedList .artifactKindList .artifactKindName "ARTIFACT clause missing artifact kind list"

def RecallStmt.empty : RecallStmt φ ψ where
  layers := []
  about := .literal []
  involving := none
  temporal := none
  asOf := none
  expand := none
  followCauses := none
  whereClauses := []
  subqueryFilters := []
  modality := none
  resourceRoles := none
  hydrationModes := none
  artifactKinds := none
  depthMode := none
  withProspective := none
  withMcfa := none
  withConflicts := false
  provenanceDepth := none
  topic := none
  groupBy := none
  projection := none
  outputFormat := none
  resultFormat := none
  budget := none
  ns := none
  fromRealms := none
  consistency := none
  limit := none
  hybrid := false

/-- A WHERE clause of RECALL holds a condition or a subquery. -/
def recallWhere (stmt : RecallStmt φ ψ) (pair : Item Rule) : Except ParseError (RecallStmt φ ψ) :=
  match pair.intoInner.head? with
  | none => .error (.simple "empty WHERE clause")
  | some child =>
    match child.asRule with
    | some .inSubqueryCondition =>
      (buildInSubquery child).map fun f => {stmt with subqueryFilters := stmt.subqueryFilters++[f]}
    | some .condition =>
      (buildCondition fl child).map fun c => {stmt with whereClauses := stmt.whereClauses++[c]}
    | _ => .ok stmt

def recallStep (stmt : RecallStmt φ ψ) (inner : Item Rule) : Except ParseError (RecallStmt φ ψ) :=
  match inner.asRule with
  | some .layerFilter => .ok {stmt with layers := buildLayerFilter inner}
  | some .aboutClause => (extractAbout inner).map fun x => {stmt with about := x}
  | some .involvingClause => (extractStringList inner).map fun x => {stmt with involving := some x}
  | some .temporalClause => (buildTemporal inner).map fun x => {stmt with temporal := some x}
  | some .asOfClause => (buildAsOf inner).map fun x => {stmt with asOf := some x}
  | some .expandClause => (buildExpand fl inner).map fun x => {stmt with expand := some x}
  | some .followCausesClause => (extractFollowCauses inner).map fun x =>
      {stmt with followCauses := some x}
  | some .whereClause => recallWhere fl stmt inner
  | some .groupByClause => .ok {stmt with groupBy := some (buildGroupBy inner)}
  | some .selectClause => .ok {stmt with projection := some (identifiersOf .fieldList inner)}
  | some .asClause => .ok {stmt with outputFormat := some (buildOutputFormat inner)}
  | some .formatClause => .ok {stmt with resultFormat := some (buildOutputFormat inner)}
  | some .budgetClause => (extractInt inner).map fun x => {stmt with budget := some x}
  | some .namespaceClause => .ok {stmt with ns := some (extractNamespace inner)}
  | some .fromRealmClause => .ok {stmt with fromRealms := some (extractRealmList inner)}
  | some .consistencyClause => .ok {stmt with consistency := some (buildConsistency inner)}
  | some .limitClause => (extractInt inner).map fun x => {stmt with limit := some x}
  | some .modalityClause => (buildModalityList inner).map fun x => {stmt with modality := some x}
  | some .resourceRoleClause => (buildEvidenceRoleList inner).map fun x =>
      {stmt with resourceRoles := some x}
  | some .hydrationClause => (buildHydrationModeList inner).map fun x =>
      {stmt with hydrationModes := some x}
  | some .artifactClause => (buildArtifactKindList inner).map fun x =>
      {stmt with artifactKinds := some x}
  | some .depthClause => (buildDepthMode inner).map fun x => {stmt with depthMode := some x}
  | some .topicClause => (extractStringFromClause inner).map fun x => {stmt with topic := some x}
  | some .withProspectiveClause => (buildOnOff inner).map fun x =>
      {stmt with withProspective := some x}
  | some .withMcfaClause => (buildOnOff inner).map fun x => {stmt with withMcfa := some x}
  | some .withConflictsClause => .ok {stmt with withConflicts := true}
  | some .withProvenanceClause => (extractInt inner).map fun x => {stmt with provenanceDepth := some x}
  | some .hybridClause => .ok {stmt with hybrid := true}
  | _ => .ok stmt

def buildRecall : Except ParseError (RecallStmt φ ψ) :=
  (pair.intoInner.foldlM (recallStep fl) RecallStmt.empty).bind fun stmt =>
    if stmt.about.isBlankLiteral then .error (.simple "RECALL requires ABOUT clause") else .ok stmt

def recallEventsStep (stmt : RecallEventsStmt φ) (inner : Item Rule) :
    Except ParseError (RecallEventsStmt φ) :=
  match inner.asRule with
  | some .eventsForClause => (extractStringFromClause inner).map fun x =>
      {stmt with entityFilter := some x}
  | some .whereClause =>
    (buildWhere fl inner).map fun c => {stmt with whereClauses := stmt.whereClauses++[c]}
  | some .temporalClause => (buildTemporal inner).map fun x => {stmt with temporal := some x}
  | some .namespaceClause => .ok {stmt with ns := some (extractNamespace inner)}
  | some .limitClause => (extractInt inner).map fun x => {stmt with limit := some x}
  | _ => .ok stmt

def buildRecallEvents : Except ParseError (RecallEventsStmt φ) :=
  pair.intoInner.foldlM (recallEventsStep fl) ⟨none,[],none,none,none⟩

def ThinkStmt.empty : ThinkStmt φ ψ where
  about := .literal []
  involving := none
  temporal := none
  expand := none
  followCauses := none
  whereClauses := []
  outputFormat := none
  budget := none
  ns := none
  consistency := none
  limit := none
  hybrid := false
  mode := .local_
  depthMode := none
  withProspective := none
  withMcfa := none
  provenanceDepth := none
  maxHops := none
  communityDepth := none

def thinkStep (stmt : ThinkStmt φ ψ) (inner : Item Rule) : Except ParseError (ThinkStmt φ ψ) :=
  match inner.asRule with
  | some .aboutClause => (extractAbout inner).map fun x => {stmt with about := x}
  | some .involvingClause => (extractStringList inner).map fun x => {stmt with involving := some x}
  | some .temporalClause => (buildTemporal inner).map fun x => {stmt with temporal := some x}
  | some .expandClause => (buildExpand fl inner).map fun x => {stmt with expand := some x}
  | some .followCausesClause => (extractFollowCauses inner).map fun x =>
      {stmt with followCauses := some x}
  | some .whereClause =>
    (buildWhere fl inner).map fun c => {stmt with whereClauses := stmt.whereClauses++[c]}
  | some .asClause => .ok {stmt with outputFormat := some (buildOutputFormat inner)}
  | some .budgetClause => (extractInt inner).map fun x => {stmt with budget := some x}
  | some .namespaceClause => .ok {stmt with ns := some (extractNamespace inner)}
  | some .consistencyClause => .ok {stmt with consistency := some (buildConsistency inner)}
  | some .limitClause => (extractInt inner).map fun x => {stmt with limit := some x}
  | some .globalClause => .ok {stmt with mode := .global}
  | some .modeClause =>
    (buildRetrievalModeWithHops inner).map fun m =>
      {stmt with mode := m.1,maxHops := if m.2.isSome then m.2 else stmt.maxHops}
  | some .hybridClause => .ok {stmt with hybrid := true}
  | some .depthClause => (buildDepthMode inner).map fun x => {stmt with depthMode := some x}
  | some .withProspectiveClause => (buildOnOff inner).map fun x =>
      {stmt with withProspective := some x}
  | some .withMcfaClause => (buildOnOff inner).map fun x => {stmt with withMcfa := some x}
  | some .withProvenanceClause => (extractInt inner).map fun x => {stmt with provenanceDepth := some x}
  | some .communityDepthClause => (extractInt inner).map fun x => {stmt with communityDepth := some x}
  | _ => .ok stmt

def buildThink : Except ParseError (ThinkStmt φ ψ) :=
  pair.intoInner.foldlM (thinkStep fl) ThinkStmt.empty

def traverseStep (stmt : TraverseStmt φ) (inner : Item Rule) : Except ParseError (TraverseStmt φ) :=
  match inner.asRule with
  | some .stringLiteral => (extractStringValue inner).map fun x => {stmt with from_ := ⟨.quoted,x⟩}
  | some .namespaceClause => .ok {stmt with ns := some (extractNamespace inner)}
  | some .viaClause => .ok {stmt with via := some (identifiersOf .relationList inner)}
  | some .integerLiteral => (parseDepth inner).map fun x => {stmt with depth := x}
  | some .whereClause =>
    (buildWhere fl inner).map fun c => {stmt with whereClauses := stmt.whereClauses++[c]}
  | some .limitClause => (extractInt inner).map fun x => {stmt with limit := some x}
  | _ => .ok stmt

def buildTraverse : Except ParseError (TraverseStmt φ) :=
  pair.intoInner.foldlM (traverseStep fl) ⟨⟨.quoted,[]⟩,none,1,[],none,none⟩

def SemanticTargetRef.empty : SemanticTargetRef := .memory ⟨.quoted,[]⟩

def buildSemanticTargetRef : Except ParseError SemanticTargetRef :=
  match pair.intoInner.head? with
  | none => .ok .empty
  | some inner =>
    match inner.asRule with
    | some .logicalTargetRef => (stringOrEmpty inner).map fun v => .logical ⟨.quoted,v⟩
    | some .revisionTargetRef => (stringOrEmpty inner).map fun v => .revision ⟨.quoted,v⟩
    | some .stringLiteral => (extractStringValue inner).map fun v => .memory ⟨.quoted,v⟩
    | _ => .error (.simple "unexpected semantic target rule")

def buildSemanticTargetList : Except ParseError (List SemanticTargetRef) :=
  (pair.intoInner.filter (·.asRule = some .semanticTargetRef)).mapM buildSemanticTargetRef

/-- The field and the number of a call of MAX or MIN. -/
def setFunctionStep (f : Text × Option φ) (inner : Item Rule) : Except ParseError (Text × Option φ) :=
  match inner.asRule with
  | some .identifier => .ok (inner.asStr,f.2)
  | some .floatLiteral =>
    (orError (fl.parse64 inner.asStr) ("invalid float in SET function: '"++
      String.ofList inner.asStr++"'")).map
      fun v => (f.1,some v)
  | some .integerLiteral =>
    (orError (fl.parse64 inner.asStr) ("invalid integer in SET function: '"++
      String.ofList inner.asStr++"'")).map
      fun v => (f.1,some v)
  | _ => .ok f

/-- The source starts with 0, which is always overwritten; here it is absent. -/
def buildSetFunction : Except ParseError (SetValue φ) :=
  (pair.intoInner.foldlM (setFunctionStep fl) ([],none)).bind fun f =>
    (orError f.2 "").map fun v =>
      if lower (pair.asStr.take 3) = txt "max" then .max f.1 v else .min f.1 v

def buildSetValue (child : Item Rule) : Except ParseError (SetValue φ) :=
  match child.asRule with
  | some .setFunction => buildSetFunction fl child
  | some .floatLiteral =>
    (orError (fl.parse64 child.asStr) ("invalid float in SET: '"++String.ofList child.asStr++
      "'")).map .float
  | some .integerLiteral =>
    (orError (parseI64 child.asStr) ("invalid integer in SET: '"++String.ofList child.asStr++
      "'")).map .int
  | some .stringLiteral => (extractStringValue child).map .string
  | _ => .ok (.int 0)

def setAssignmentStep (a : SetAssignment φ) (inner : Item Rule) :
    Except ParseError (SetAssignment φ) :=
  match inner.asRule with
  | some .identifier => .ok {a with field := inner.asStr}
  | some .setValue =>
    match inner.intoInner.head? with
    | none => .error (.simple "empty set value")
    | some child => (buildSetValue fl child).map fun v => {a with value := v}
  | _ => .ok a

def buildSetAssignment : Except ParseError (SetAssignment φ) :=
  pair.intoInner.foldlM (setAssignmentStep fl) ⟨[],.int 0⟩

def buildSetAssignmentList : Except ParseError (List (SetAssignment φ)) :=
  (pair.intoInner.filter (·.asRule = some .setAssignment)).mapM (buildSetAssignment fl)

/-- The state of the loops that read a change: the first target counts. -/
structure Change (φ : Type) where
  sources : List SemanticTargetRef
  target : Option SemanticTargetRef
  updates : List (SetAssignment φ)
  (reason observedAt causedBy ns : Option Leaf)

def Change.empty : Change φ := ⟨[],none,[],none,none,none,none⟩

/-- The clauses of CORRECT, SUPERSEDE, MERGE MEMORY, RETRACT and HISTORY. -/
def changeStep (c : Change φ) (inner : Item Rule) : Except ParseError (Change φ) :=
  match inner.asRule with
  | some .semanticTargetList =>
    if c.sources.isEmpty then (buildSemanticTargetList inner).map fun x =>
      {c with sources := x} else .ok c
  | some .semanticTargetRef =>
    if c.target.isNone then (buildSemanticTargetRef inner).map fun x =>
      {c with target := some x} else .ok c
  | some .setAssignmentList => (buildSetAssignmentList fl inner).map fun x => {c with updates := x}
  | some .mergeSetClause =>
    (inner.intoInner.filter (·.asRule = some .setAssignmentList)).foldlM
      (fun c child => (buildSetAssignmentList fl child).map fun x => {c with updates := x}) c
  | some .reasonClause => (extractStringFromClause inner).map fun x => {c with reason := some x}
  | some .observedAtClause => (extractStringFromClause inner).map fun x =>
      {c with observedAt := some x}
  | some .causedByClause => (extractStringFromClause inner).map fun x => {c with causedBy := some x}
  | some .namespaceClause => .ok {c with ns := some (extractNamespace inner)}
  | _ => .ok c

def buildChange : Except ParseError (Change φ) :=
  pair.intoInner.foldlM (changeStep fl) Change.empty

def buildCorrect : Except ParseError (CorrectStmt φ) :=
  (buildChange fl pair).map fun c =>
    ⟨c.target.getD .empty,c.updates,c.reason,c.observedAt,c.causedBy,c.ns⟩

def buildMergeMemory : Except ParseError (MergeMemoryStmt φ) :=
  (buildChange fl pair).map fun c =>
    ⟨c.sources,c.target.getD .empty,c.updates,c.reason,c.observedAt,c.causedBy,c.ns⟩

def buildRetract : Except ParseError RetractStmt :=
  (buildChange fl pair).map fun c => ⟨c.target.getD .empty,c.reason,c.observedAt,c.causedBy,c.ns⟩

def buildHistory : Except ParseError HistoryStmt :=
  (buildChange fl pair).map fun c => ⟨c.target.getD .empty,c.ns⟩

def buildInspect : Except ParseError SemanticTargetRef :=
  match findRule .semanticTargetRef pair.intoInner with
  | none => .ok .empty
  | some p => buildSemanticTargetRef p

def explainCausesStep (stmt : ExplainCausesStmt) (inner : Item Rule) :
    Except ParseError ExplainCausesStmt :=
  match inner.asRule with
  | some .stringLiteral => (extractStringValue inner).map fun x => {stmt with target := ⟨.quoted,x⟩}
  | some .parameter => .ok {stmt with target := ⟨.parameter,inner.asStr⟩}
  | some .namespaceClause => .ok {stmt with ns := some (extractNamespace inner)}
  | some .causesDepthClause => (extractInt inner).map fun x => {stmt with depth := some x}
  | _ => .ok stmt

def buildExplainCauses (pair : Item Rule) : Except ParseError ExplainCausesStmt :=
  pair.intoInner.foldlM explainCausesStep ⟨⟨.quoted,[]⟩,none,none⟩

/-- The first text is the intervention, what comes behind it the outcome. -/
def whatIfStep (s : Bool × WhatIfStmt) (inner : Item Rule) : Except ParseError (Bool × WhatIfStmt) :=
  let put (x : Leaf) : Bool × WhatIfStmt :=
    if s.1 then (true,{s.2 with outcome := x}) else (true,{s.2 with intervention := x})
  match inner.asRule with
  | some .stringLiteral => (extractStringValue inner).map fun x => put ⟨.quoted,x⟩
  | some .parameter => .ok (put ⟨.parameter,inner.asStr⟩)
  | some .namespaceClause => .ok (s.1,{s.2 with ns := some (extractNamespace inner)})
  | _ => .ok s

def buildWhatIf (pair : Item Rule) : Except ParseError WhatIfStmt :=
  (pair.intoInner.foldlM whatIfStep (false,⟨⟨.quoted,[]⟩,⟨.quoted,[]⟩,none⟩)).map (·.2)

def createRealmStep (stmt : CreateRealmStmt) (inner : Item Rule) : Except ParseError CreateRealmStmt :=
  match inner.asRule with
  | some .stringLiteral =>
    if stmt.name = [] then (extractStringValue inner).map fun x => {stmt with name := x} else .ok stmt
  | some .realmDescription =>
    (inner.intoInner.filter (·.asRule = some .stringLiteral)).foldlM
      (fun stmt child => (extractStringValue child).map fun x => {stmt with description := some x})
      stmt
  | _ => .ok stmt

def buildCreateRealm : Except ParseError CreateRealmStmt :=
  pair.intoInner.foldlM createRealmStep ⟨[],none⟩

def dropRealmStep (stmt : DropRealmStmt) (inner : Item Rule) : Except ParseError DropRealmStmt :=
  match inner.asRule with
  | some .stringLiteral =>
    if stmt.name = [] then (extractStringValue inner).map fun x => {stmt with name := x} else .ok stmt
  | some .confirmFlag => .ok {stmt with confirm := true}
  | _ => .ok stmt

def buildDropRealm : Except ParseError DropRealmStmt :=
  pair.intoInner.foldlM dropRealmStep ⟨[],false⟩

def buildActionList : List Text :=
  (pair.intoInner.filter (·.asRule = some .actionName)).map fun p => lower p.asStr

def contains (part : Text) : Text → Bool
  | [] => part.isEmpty
  | c::cs => part.isPrefixOf (c::cs) || contains part cs

/-- The kind is told by the text of the clause, name and comments included. -/
def buildGrantTarget : Except ParseError GrantTarget :=
  (stringOrEmpty pair).map fun name =>
    if contains (txt "namespace") (lower pair.asStr) then .namespace_ name else .realm name

def buildPrincipalRef : Except ParseError PrincipalRef :=
  (stringOrEmpty pair).map fun name =>
    if contains (txt "team") (lower pair.asStr) then .team name else .agent name

/-- The state of the loops that read a grant. -/
structure GrantParts where
  actions : List Text
  target : Option GrantTarget
  principal : Option PrincipalRef

def grantStep (g : GrantParts) (inner : Item Rule) : Except ParseError GrantParts :=
  match inner.asRule with
  | some .actionList => .ok {g with actions := buildActionList inner}
  | some .grantTarget => (buildGrantTarget inner).map fun x => {g with target := some x}
  | some .principalRef => (buildPrincipalRef inner).map fun x => {g with principal := some x}
  | _ => .ok g

def buildGrantWith (noTarget noPrincipal : String) (pair : Item Rule) :
    Except ParseError GrantStmt := do
  let g ← pair.intoInner.foldlM grantStep ⟨[],none,none⟩
  let target ← orError g.target noTarget
  let principal ← orError g.principal noPrincipal
  return ⟨g.actions,target,principal⟩

def buildGrant : Item Rule → Except ParseError GrantStmt :=
  buildGrantWith "GRANT requires ON NAMESPACE/REALM clause" "GRANT requires TO AGENT/TEAM clause"

def buildRevoke : Item Rule → Except ParseError GrantStmt :=
  buildGrantWith "REVOKE requires ON NAMESPACE/REALM clause" "REVOKE requires FROM AGENT/TEAM clause"

def buildShowPolicies (pair : Item Rule) : Except ParseError (Option PrincipalRef) :=
  (pair.intoInner.filter (·.asRule = some .principalRef)).foldlM
    (fun _ inner => (buildPrincipalRef inner).map some) none

/-- The resource type is told by the text of the whole statement. -/
def resourceTypeOf (raw : Text) : Text :=
  if contains (txt "namespace") (lower raw) then txt "namespace"
  else if contains (txt "realm") (lower raw) then txt "realm"
  else []

structure ExplainParts where
  principal : Option PrincipalRef
  (resourceName action : Text)

def explainPolicyStep (e : ExplainParts) (inner : Item Rule) : Except ParseError ExplainParts :=
  match inner.asRule with
  | some .principalRef => (buildPrincipalRef inner).map fun x => {e with principal := some x}
  | some .stringLiteral =>
    if e.resourceName = [] then (extractStringValue inner).map fun x =>
      {e with resourceName := x} else .ok e
  | some .actionName => .ok {e with action := lower inner.asStr}
  | _ => .ok e

def buildExplainPolicy (pair : Item Rule) : Except ParseError ExplainPolicyStmt := do
  let e ← pair.intoInner.foldlM explainPolicyStep ⟨none,[],[]⟩
  let principal ← orError e.principal "EXPLAIN POLICY requires FOR AGENT/TEAM clause"
  return ⟨principal,resourceTypeOf pair.asStr,e.resourceName,e.action⟩

def buildTierPolicyValue (inner : Item Rule) : Except ParseError (TierPolicyValue φ) :=
  match inner.intoInner.head? with
  | none => .error (.simple "missing tier policy value")
  | some v =>
    match v.asRule with
    | some .stringLiteral => (extractStringValue v).map .str
    | some .floatLiteral => (orError (fl.parse64 v.asStr)
        "invalid float in SET TIER_POLICY").map .float
    | some .integerLiteral => (orError (parseI64 v.asStr)
        "invalid integer in SET TIER_POLICY").map .int
    | _ => .error (.simple "unexpected tier policy value type")

def setTierPolicyStep (s : Text × Option (TierPolicyValue φ)) (inner : Item Rule) :
    Except ParseError (Text × Option (TierPolicyValue φ)) :=
  match inner.asRule with
  | some .tierPolicyField => .ok (lower inner.asStr,s.2)
  | some .tierPolicyValue => (buildTierPolicyValue fl inner).map fun v => (s.1,some v)
  | _ => .ok s

def buildSetTierPolicy (pair : Item Rule) : Except ParseError (SetTierPolicyStmt φ) := do
  let s ← pair.intoInner.foldlM (setTierPolicyStep fl) ([],none)
  let value ← orError s.2 "missing value in SET TIER_POLICY"
  return ⟨s.1,value⟩

def unsupportedEmbeddedStatement (r : Rule) : Except ParseError (Statement φ ψ) :=
  .error (.simple (match r with
    | .rememberStmt =>
      "REMEMBER is not supported via embedded HirnQL anymore; use the direct memory view APIs instead"
    | .forgetStmt =>
      "FORGET is not supported via embedded HirnQL anymore; use the direct memory view APIs instead"
    | .connectStmt =>
      "CONNECT is not supported via embedded HirnQL anymore; use the graph view APIs instead"
    | .consolidateStmt =>
      "CONSOLIDATE is not supported via HirnQL anymore; use db.admin().consolidate().execute() instead"
    | .watchStmt =>
      "WATCH is not supported via embedded HirnQL anymore; use the event or daemon APIs instead"
    | _ => "statement is not supported via embedded HirnQL anymore"))

/-- The statements that may stand alone and behind EXPLAIN. -/
def buildInner (inner : Item Rule) : Except ParseError (Statement φ ψ) :=
  match inner.asRule with
  | some .recallEventsStmt => (buildRecallEvents fl inner).map .recallEvents
  | some .recallStmt => (buildRecall fl inner).map .recall
  | some .thinkStmt => (buildThink fl inner).map .think
  | some .forgetStmt => unsupportedEmbeddedStatement .forgetStmt
  | some .correctStmt => (buildCorrect fl inner).map .correct
  | some .supersedeStmt => (buildCorrect fl inner).map .supersede
  | some .mergeMemoryStmt => (buildMergeMemory fl inner).map .mergeMemory
  | some .retractStmt => (buildRetract fl inner).map .retract
  | some .inspectStmt => (buildInspect inner).map .inspect
  | some .historyStmt => (buildHistory fl inner).map .history
  | some .traceStmt => (buildInspect inner).map .trace
  | some .traverseStmt => (buildTraverse fl inner).map .traverse
  | some .explainCausesStmt => (buildExplainCauses inner).map .explainCauses
  | some .whatIfStmt => (buildWhatIf inner).map .whatIf
  | some .counterfactualStmt => (buildWhatIf inner).map .counterfactual
  | some .showPoliciesStmt => (buildShowPolicies inner).map .showPolicies
  | some .explainPolicyStmt => (buildExplainPolicy inner).map .explainPolicy
  | _ => .error (.simple "EXPLAIN not supported for this statement")

def explainStep (s : Bool × Option (Statement φ ψ)) (child : Item Rule) :
    Except ParseError (Bool × Option (Statement φ ψ)) :=
  match child.asRule with
  | some .analyzeFlag => .ok (true,s.2)
  | some .innerStmt =>
    match child.intoInner.head? with
    | none => .error (.simple "EXPLAIN requires a statement")
    | some actual => (buildInner fl actual).map fun x => (s.1,some x)
  | _ => .ok s

def buildExplain (pair : Item Rule) : Except ParseError (Statement φ ψ) := do
  let s ← pair.intoInner.foldlM (explainStep fl) (false,none)
  let inner ← orError s.2 "EXPLAIN requires a statement"
  return .explain s.1 inner

def buildStatement (pair : Item Rule) : Except ParseError (Statement φ ψ) :=
  match pair.intoInner.head? with
  | none => .error (.simple "empty statement")
  | some inner =>
    match inner.asRule with
    | some .rememberStmt => unsupportedEmbeddedStatement .rememberStmt
    | some .connectStmt => unsupportedEmbeddedStatement .connectStmt
    | some .consolidateStmt => unsupportedEmbeddedStatement .consolidateStmt
    | some .watchStmt => unsupportedEmbeddedStatement .watchStmt
    | some .explainStmt => buildExplain fl inner
    | some .createRealmStmt => (buildCreateRealm inner).map .createRealm
    | some .dropRealmStmt => (buildDropRealm inner).map .dropRealm
    | some .grantStmt => (buildGrant inner).map .grant
    | some .revokeStmt => (buildRevoke inner).map .revoke
    | some .showClusterStmt => .ok .showCluster
    | some .setTierPolicyStmt => (buildSetTierPolicy fl inner).map .setTierPolicy
    | _ => buildInner fl inner

structure QueryLimits where
  maxQueryLength : ℕ := 1048576
  maxExpandDepth : ℕ := 10
  maxLimit : ℕ := 10000
  maxContextBudget : ℕ := 1000000
  maxIterativeHops : ℕ := 5
  maxCausalDepth : ℕ := 16
  maxProvenanceDepth : ℕ := 16
  maxCommunityDepth : ℕ := 16

def checkAtMost (name : String) (value max : ℕ) : Except ParseError Unit :=
  if max < value then
    .error (.simple (name++" "++toString value++" exceeds maximum allowed value of "++toString max))
  else .ok ()

def checkLimit : ℕ → ℕ → Except ParseError Unit := checkAtMost "LIMIT"
def checkDepth : ℕ → ℕ → Except ParseError Unit := checkAtMost "DEPTH"
def checkBudget : ℕ → ℕ → Except ParseError Unit := checkAtMost "BUDGET"
def checkMaxHops : ℕ → ℕ → Except ParseError Unit := checkAtMost "MAX_HOPS"
def checkCausalDepth : ℕ → ℕ → Except ParseError Unit := checkAtMost "CAUSES DEPTH"
def checkProvenanceDepth : ℕ → ℕ → Except ParseError Unit := checkAtMost "PROVENANCE DEPTH"
def checkCommunityDepth : ℕ → ℕ → Except ParseError Unit := checkAtMost "COMMUNITY_DEPTH"

def ifSome (check : ℕ → ℕ → Except ParseError Unit) (value : Option ℕ) (max : ℕ) :
    Except ParseError Unit :=
  match value with
  | some n => check n max
  | none => .ok ()

def validateLimits (limits : QueryLimits) : Statement φ ψ → Except ParseError Unit
  | .recall r => do
    ifSome checkLimit r.limit limits.maxLimit
    ifSome checkBudget r.budget limits.maxContextBudget
    ifSome checkDepth (r.expand.map (·.depth)) limits.maxExpandDepth
    ifSome checkCausalDepth r.followCauses limits.maxCausalDepth
    ifSome checkProvenanceDepth r.provenanceDepth limits.maxProvenanceDepth
  | .think t => do
    ifSome checkLimit t.limit limits.maxLimit
    ifSome checkBudget t.budget limits.maxContextBudget
    ifSome checkMaxHops t.maxHops limits.maxIterativeHops
    ifSome checkDepth (t.expand.map (·.depth)) limits.maxExpandDepth
    ifSome checkCausalDepth t.followCauses limits.maxCausalDepth
    ifSome checkProvenanceDepth t.provenanceDepth limits.maxProvenanceDepth
    ifSome checkCommunityDepth t.communityDepth limits.maxCommunityDepth
  | .recallEvents r => ifSome checkLimit r.limit limits.maxLimit
  | .traverse t => do
    checkDepth t.depth limits.maxExpandDepth
    ifSome checkLimit t.limit limits.maxLimit
  | .explain _ inner => validateLimits limits inner
  | .explainCauses e => ifSome checkCausalDepth e.depth limits.maxCausalDepth
  | _ => .ok ()

def byteLength (t : Text) : ℕ := (t.map Char.utf8Size).sum

def parseTree (input : Text) : Option (Item Rule) :=
  (run skip Grammar.statement input).bind (·.items.head?)

def parseWithLimits (limits : QueryLimits) (input : Text) : Except ParseError (Statement φ ψ) :=
  if limits.maxQueryLength < byteLength input then
    .error (.simple ("query too large: "++toString (byteLength input)++" bytes exceeds maximum of " ++
      toString limits.maxQueryLength++" bytes"))
  else
    match parseTree input with
    | none => .error .syntaxError
    | some pair => do
      let stmt ← buildStatement fl pair
      validateLimits limits stmt
      return stmt

def parse (input : Text) : Except ParseError (Statement φ ψ) := parseWithLimits fl {} input
end Hirn.Query
