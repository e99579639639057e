import Hirn.Peg

/-! The grammar of the query language, rule by rule. A statement may have text skipped before it:
white space, and comments up to the end of their line. -/
namespace Hirn.Query
open Peg

inductive Rule
  | statement | explainStmt | analyzeFlag | innerStmt | explainCausesStmt | causesDepthClause
  | whatIfStmt | counterfactualStmt | recallEventsStmt | eventsForClause | recallStmt | thinkStmt
  | rememberStmt | rememberLayer | contentClause | modalContent | imageContent | codeContent
  | audioContent | videoContent | documentContent | externalContent | externalTitleClause
  | externalSnippetClause | externalMimeClause | externalChecksumClause | externalFetchPolicyClause
  | externalStaleAtClause | externalFetchPolicyName | toolOutputContent | toolOutputToolClause
  | toolOutputMimeClause | toolOutputSchemaClause | toolOutputCallIdClause | toolOutputChecksumClause
  | structuredContent | conceptClause | typeClause | entitiesClause | importanceClause
  | onConflictClause | setAssignmentList | setAssignment | setValue | setFunction | forgetStmt
  | singleForget | batchForget | forgetMode | correctStmt | supersedeStmt | mergeMemoryStmt
  | mergeSetClause | retractStmt | connectStmt | weightClause | inspectStmt | historyStmt | traceStmt
  | consolidateStmt | watchStmt | watchTarget | formatClause | traverseStmt | viaClause | relationList
  | createRealmStmt | realmDescription | dropRealmStmt | confirmFlag | grantStmt | revokeStmt
  | actionList | actionName | grantTarget | principalRef | showClusterStmt | setTierPolicyStmt
  | tierPolicyField | tierPolicyValue | showPoliciesStmt | explainPolicyStmt | groupByClause
  | aggFunction | selectClause | fieldList | aboutClause | involvingClause | temporalClause
  | afterClause | beforeClause | betweenClause | expandClause | minWeightClause | activationClause
  | activationMode | followCausesClause | whereClause | condition | inSubqueryCondition | subquery
  | asOfClause | asOfObserved | asOfRecorded | asOfRevision | comparisonOp | asClause | outputFormat
  | budgetClause | reasonClause | observedAtClause | causedByClause | namespaceClause | fromRealmClause
  | consistencyClause | consistencyLevel | limitClause | hybridClause | globalClause | modeClause
  | retrievalMode | communityDepthClause | depthClause | depthMode | topicClause | withProspectiveClause
  | withMcfaClause | withConflictsClause | withProvenanceClause | onOff | maxHopsClause | layerFilter
  | layerName | modalityClause | modalityList | modalityName | resourceRoleClause | evidenceRoleList
  | evidenceRoleName | hydrationClause | hydrationModeList | hydrationModeName | artifactClause
  | artifactKindList | artifactKindName | stringList | semanticTargetList | semanticTargetRef
  | logicalTargetRef | revisionTargetRef | stringLiteral | doubleInner | singleInner | escapeSeq
  | parameter | floatLiteral | integerLiteral | identifier | namespaceIdentifier | eoi
  deriving DecidableEq

namespace Grammar

def whitespace : Expr Rule := alts [lit " ",lit "\t",lit "\r",lit "\n"]
def comment : Expr Rule := seqs [lit "--",.star (noneOf ['\n'])]

def escapeSeq : Expr Rule :=
  compound .escapeSeq (seqs [lit "\\",alts [lit "\"",lit "'",lit "\\",lit "n",lit "t",lit "r"]])

def doubleInner := normal Rule.doubleInner (.star (alts [escapeSeq,noneOf ['"', '\\']]))
def doubleQuoted : Expr Rule := seqs [lit "\"",doubleInner,lit "\""]
def singleInner := normal Rule.singleInner (.star (alts [escapeSeq,noneOf ['\'', '\\']]))
def singleQuoted : Expr Rule := seqs [lit "'",singleInner,lit "'"]
def stringLiteral : Expr Rule := compound .stringLiteral (alts [doubleQuoted,singleQuoted])

def parameter :=
  atomic Rule.parameter (seqs [lit "$",alts [plus asciiDigit,
  seqs [asciiAlpha,.star (alts [asciiAlphanumeric,
    lit "_"])]]])

def parameterOrString : Expr Rule := .alt parameter stringLiteral
def floatLiteral := atomic Rule.floatLiteral (seqs [.opt (lit "-"),plus asciiDigit,lit ".",
    plus asciiDigit])
def integerLiteral := atomic Rule.integerLiteral (seqs [.opt (lit "-"),plus asciiDigit])
def identifier := atomic Rule.identifier (plus (alts [asciiAlphanumeric,lit "_",lit "."]))

def namespaceIdentifier :=
  atomic Rule.namespaceIdentifier (plus (alts [asciiAlphanumeric,lit "_",lit ".",lit ":",lit "-"]))

def analyzeFlag := normal Rule.analyzeFlag (kw "analyze")
def eventsForClause := normal Rule.eventsForClause (seqs [kw "for",parameterOrString])
def layerName := normal Rule.layerName (words ["episodic","semantic","working","procedural"])
def layerFilter := normal Rule.layerFilter (commaList layerName)
def aboutClause := normal Rule.aboutClause (seqs [kw "about",parameterOrString])
def stringList := normal Rule.stringList (commaList stringLiteral)
def involvingClause := normal Rule.involvingClause (seqs [kw "involving",stringList])
def afterClause := normal Rule.afterClause (seqs [kw "after",stringLiteral])
def beforeClause := normal Rule.beforeClause (seqs [kw "before",stringLiteral])
def betweenClause := normal Rule.betweenClause (seqs [kw "between",stringLiteral,kw "and",
    stringLiteral])
def temporalClause := normal Rule.temporalClause (alts [afterClause,beforeClause,betweenClause])
def limitClause := normal Rule.limitClause (seqs [kw "limit",alts [parameter,integerLiteral]])

def subquery :=
  normal Rule.subquery (seqs [kw "recall",layerFilter,aboutClause,.opt involvingClause,
  .opt temporalClause,
    .opt limitClause])

def inSubqueryCondition := normal Rule.inSubqueryCondition
    (seqs [identifier,kw "in",lit "(",subquery,lit ")"])
def comparisonOp := normal Rule.comparisonOp (alts [lit ">=",lit "<=",lit "!=",lit ">",lit "<",
    lit "="])

def condition :=
  normal Rule.condition (seqs [identifier,comparisonOp,alts [parameter,floatLiteral,integerLiteral,
    stringLiteral]])

def whereClause := normal Rule.whereClause (seqs [kw "where",alts [inSubqueryCondition,condition]])
def namespaceClause := normal Rule.namespaceClause
    (seqs [kw "namespace",alts [stringLiteral,namespaceIdentifier]])

def recallEventsStmt :=
  normal Rule.recallEventsStmt (seqs [kw "recall",kw "events",.opt eventsForClause,.star whereClause,
    .opt temporalClause,.opt namespaceClause,.opt limitClause])

def asOfObserved := normal Rule.asOfObserved (seqs [kw "observed",stringLiteral])
def asOfRecorded := normal Rule.asOfRecorded (seqs [kw "recorded",stringLiteral])
def asOfRevision := normal Rule.asOfRevision (seqs [kw "revision",stringLiteral])

def asOfClause :=
  normal Rule.asOfClause (seqs [kw "as",kw "of",alts [asOfObserved,asOfRecorded,asOfRevision,
    stringLiteral]])

def minWeightClause := normal Rule.minWeightClause (seqs [kw "min_weight",floatLiteral])
def activationMode := normal Rule.activationMode (words ["spreading","static","ppr","pagerank","none"])
def activationClause := normal Rule.activationClause (seqs [kw "activation",activationMode])

def expandClause :=
  normal Rule.expandClause (seqs [kw "expand",kw "graph",kw "depth",integerLiteral,
  .opt minWeightClause,
    .opt activationClause])

def followCausesClause := normal Rule.followCausesClause (seqs [kw "follow",kw "causes",kw "depth",
    integerLiteral])

def modalityName :=
  normal Rule.modalityName (words ["image","text","code","audio","video","document","structured",
    "composite","external"])

def modalityList := normal Rule.modalityList (commaList modalityName)
def modalityClause := normal Rule.modalityClause (seqs [kw "modality",modalityList])

def evidenceRoleName :=
  normal Rule.evidenceRoleName (words ["source","attachment","proof","output","preview","derived"])

def evidenceRoleList := normal Rule.evidenceRoleList (commaList evidenceRoleName)
def resourceRoleClause := normal Rule.resourceRoleClause (seqs [kw "resource_role",evidenceRoleList])
def hydrationModeName := normal Rule.hydrationModeName (words ["metadata","metadata_only","preview",
    "full"])
def hydrationModeList := normal Rule.hydrationModeList (commaList hydrationModeName)
def hydrationClause := normal Rule.hydrationClause (seqs [kw "hydration",hydrationModeList])

def artifactKindName :=
  normal Rule.artifactKindName (words ["preview","ocr_text","transcript","caption","thumbnail",
    "syntax_summary","schema_summary"])

def artifactKindList := normal Rule.artifactKindList (commaList artifactKindName)
def artifactClause := normal Rule.artifactClause (seqs [words ["artifact","artifacts"],
    artifactKindList])
def depthMode := normal Rule.depthMode (words ["auto","full","summary"])
def depthClause := normal Rule.depthClause (seqs [kw "depth",depthMode])
def topicClause := normal Rule.topicClause (seqs [kw "topic",parameterOrString])
def onOff := normal Rule.onOff (words ["on","off"])
def withProspectiveClause := normal Rule.withProspectiveClause
    (seqs [kw "with",kw "prospective",onOff])
def withMcfaClause := normal Rule.withMcfaClause (seqs [kw "with",kw "mcfa_defense",onOff])
def withConflictsClause := normal Rule.withConflictsClause (seqs [kw "with",kw "conflicts"])

def withProvenanceClause :=
  normal Rule.withProvenanceClause (seqs [kw "with",kw "provenance",kw "depth",integerLiteral])

def aggFunction := normal Rule.aggFunction (words ["count","avg","sum","min","max"])
def groupByClause := normal Rule.groupByClause (seqs [kw "group",kw "by",identifier,aggFunction])
def fieldList := normal Rule.fieldList (commaList identifier)
def selectClause := normal Rule.selectClause (seqs [kw "select",fieldList])

def outputFormat :=
  normal Rule.outputFormat (words ["narrative","context","graph","causal_chain","json","csv",
    "structured"])

def asClause := normal Rule.asClause (seqs [kw "as",outputFormat])
def formatClause := normal Rule.formatClause (seqs [kw "format",outputFormat])
def budgetClause := normal Rule.budgetClause (seqs [kw "budget",alts [parameter,integerLiteral]])
def fromRealmClause := normal Rule.fromRealmClause
    (seqs [kw "from",kw "realm",commaList stringLiteral])
def consistencyLevel := normal Rule.consistencyLevel (words ["linearizable","eventual","session"])
def consistencyClause := normal Rule.consistencyClause (seqs [kw "consistency",consistencyLevel])
def hybridClause := normal Rule.hybridClause (kw "hybrid")

def recallStmt :=
  normal Rule.recallStmt (seqs [kw "recall",layerFilter,aboutClause,.opt involvingClause,
    .opt temporalClause,.opt asOfClause,.opt expandClause,.opt followCausesClause,.star whereClause,
    .opt modalityClause,.opt resourceRoleClause,.opt hydrationClause,.opt artifactClause,
    .opt depthClause,.opt topicClause,.opt withProspectiveClause,.opt withMcfaClause,
    .opt withConflictsClause,.opt withProvenanceClause,.opt groupByClause,.opt selectClause,
    .opt asClause,.opt formatClause,.opt budgetClause,.opt namespaceClause,.opt fromRealmClause,
    .opt consistencyClause,.opt limitClause,.opt hybridClause])

def globalClause := normal Rule.globalClause (kw "global")
def retrievalMode := normal Rule.retrievalMode (words ["iterative","adaptive","global","hybrid",
    "local","raptor"])
def maxHopsClause := normal Rule.maxHopsClause (seqs [kw "max_hops",integerLiteral])
def modeClause := normal Rule.modeClause (seqs [kw "mode",retrievalMode,.opt maxHopsClause])
def communityDepthClause := normal Rule.communityDepthClause
    (seqs [kw "community_depth",integerLiteral])

def thinkStmt :=
  normal Rule.thinkStmt (seqs [kw "think",.opt globalClause,aboutClause,.opt involvingClause,
    .opt temporalClause,.opt expandClause,.opt followCausesClause,.star whereClause,.opt depthClause,
    .opt withProspectiveClause,.opt withMcfaClause,.opt withProvenanceClause,.opt asClause,
    .opt budgetClause,.opt namespaceClause,.opt consistencyClause,.opt limitClause,.opt modeClause,
    .opt communityDepthClause,.opt hybridClause])

def forgetMode := normal Rule.forgetMode (words ["archive","purge","hard"])
def batchForget := normal Rule.batchForget (seqs [layerFilter,plus whereClause,.opt forgetMode])
def singleForget := normal Rule.singleForget (seqs [stringLiteral,.opt forgetMode])
def forgetStmt := normal Rule.forgetStmt (seqs [kw "forget",alts [batchForget,singleForget]])
def logicalTargetRef := normal Rule.logicalTargetRef (seqs [kw "logical",stringLiteral])
def revisionTargetRef := normal Rule.revisionTargetRef (seqs [kw "revision",stringLiteral])
def semanticTargetRef := normal Rule.semanticTargetRef (alts [logicalTargetRef,revisionTargetRef,
    stringLiteral])

def setFunction :=
  normal Rule.setFunction (seqs [words ["max","min"],lit "(",identifier,lit ",",alts [floatLiteral,
    integerLiteral],lit ")"])

def setValue := normal Rule.setValue (alts [setFunction,floatLiteral,integerLiteral,stringLiteral])
def setAssignment := normal Rule.setAssignment (seqs [identifier,lit "=",setValue])
def setAssignmentList := normal Rule.setAssignmentList (commaList setAssignment)
def reasonClause := normal Rule.reasonClause (seqs [kw "reason",parameterOrString])
def observedAtClause := normal Rule.observedAtClause (seqs [kw "observed",kw "at",parameterOrString])
def causedByClause := normal Rule.causedByClause (seqs [kw "caused",kw "by",parameterOrString])

def correctStmt :=
  normal Rule.correctStmt (seqs [kw "correct",semanticTargetRef,kw "set",setAssignmentList,
    .opt reasonClause,.opt observedAtClause,.opt causedByClause,.opt namespaceClause])

def supersedeStmt :=
  normal Rule.supersedeStmt (seqs [kw "supersede",semanticTargetRef,kw "set",setAssignmentList,
    .opt reasonClause,.opt observedAtClause,.opt causedByClause,.opt namespaceClause])

def semanticTargetList := normal Rule.semanticTargetList (commaList semanticTargetRef)
def mergeSetClause := normal Rule.mergeSetClause (seqs [kw "set",setAssignmentList])

def mergeMemoryStmt :=
  normal Rule.mergeMemoryStmt (seqs [kw "merge",kw "memory",semanticTargetList,kw "into",
  semanticTargetRef,
    .opt mergeSetClause,.opt reasonClause,.opt observedAtClause,.opt causedByClause,
    .opt namespaceClause])

def retractStmt :=
  normal Rule.retractStmt (seqs [kw "retract",semanticTargetRef,.opt reasonClause,
  .opt observedAtClause,
    .opt causedByClause,.opt namespaceClause])

def historyStmt := normal Rule.historyStmt (seqs [kw "history",semanticTargetRef,.opt namespaceClause])
def relationList := normal Rule.relationList (commaList identifier)
def viaClause := normal Rule.viaClause (seqs [kw "via",relationList])

def traverseStmt :=
  normal Rule.traverseStmt (seqs [kw "traverse",kw "from",stringLiteral,.opt viaClause,kw "depth",
    integerLiteral,.star whereClause,.opt namespaceClause,.opt limitClause])

def inspectStmt := normal Rule.inspectStmt (seqs [kw "inspect",semanticTargetRef])
def traceStmt := normal Rule.traceStmt (seqs [kw "trace",semanticTargetRef])
def causesDepthClause := normal Rule.causesDepthClause (seqs [kw "depth",integerLiteral])

def explainCausesStmt :=
  normal Rule.explainCausesStmt (seqs [kw "explain",kw "causes",parameterOrString,.opt namespaceClause,
    .opt causesDepthClause])

def whatIfStmt :=
  normal Rule.whatIfStmt (seqs [kw "what_if",parameterOrString,kw "then",parameterOrString,
    .opt namespaceClause])

def counterfactualStmt :=
  normal Rule.counterfactualStmt (seqs [kw "counterfactual",parameterOrString,kw "then",
  parameterOrString,
    .opt namespaceClause])

def principalRef := normal Rule.principalRef (alts [seqs [kw "agent",stringLiteral],
    seqs [kw "team",stringLiteral]])

def showPoliciesStmt :=
  normal Rule.showPoliciesStmt (seqs [kw "show",kw "policies",.opt (seqs [kw "for",principalRef])])

def actionName :=
  normal Rule.actionName (words ["remember","recall","think","forget","consolidate","watch","connect",
    "execute","admin"])

def explainPolicyStmt :=
  normal Rule.explainPolicyStmt (seqs [kw "explain",kw "policy",kw "for",principalRef,kw "on",
    words ["namespace","realm"],stringLiteral,kw "action",actionName])

def innerStmt :=
  normal Rule.innerStmt (alts [recallEventsStmt,recallStmt,thinkStmt,forgetStmt,correctStmt,
  supersedeStmt,
    mergeMemoryStmt,retractStmt,historyStmt,traverseStmt,inspectStmt,traceStmt,explainCausesStmt,
    whatIfStmt,counterfactualStmt,showPoliciesStmt,explainPolicyStmt])

def explainStmt := normal Rule.explainStmt (seqs [kw "explain",.opt analyzeFlag,innerStmt])
def showClusterStmt := normal Rule.showClusterStmt (seqs [kw "show",kw "cluster",.opt (kw "status")])
def tierPolicyField := atomic Rule.tierPolicyField (plus (alts [asciiAlpha,lit "_"]))
def tierPolicyValue := normal Rule.tierPolicyValue (alts [stringLiteral,floatLiteral,integerLiteral])

def setTierPolicyStmt :=
  normal Rule.setTierPolicyStmt (seqs [kw "set",kw "tier_policy",tierPolicyField,lit "=",
  tierPolicyValue])

def realmDescription := normal Rule.realmDescription (seqs [kw "description",stringLiteral])
def createRealmStmt := normal Rule.createRealmStmt (seqs [kw "create",kw "realm",stringLiteral,
    .opt realmDescription])
def confirmFlag := normal Rule.confirmFlag (kw "confirm")
def dropRealmStmt := normal Rule.dropRealmStmt (seqs [kw "drop",kw "realm",stringLiteral,
    .opt confirmFlag])
def actionList := normal Rule.actionList (commaList actionName)

def grantTarget :=
  normal Rule.grantTarget (alts [seqs [kw "on",kw "namespace",stringLiteral],seqs [kw "on",kw "realm",
    stringLiteral]])

def grantStmt := normal Rule.grantStmt (seqs [kw "grant",actionList,grantTarget,kw "to",principalRef])
def revokeStmt := normal Rule.revokeStmt (seqs [kw "revoke",actionList,grantTarget,kw "from",
    principalRef])
def rememberLayer := normal Rule.rememberLayer (words ["episode","semantic"])
def conceptClause := normal Rule.conceptClause (seqs [kw "concept",parameterOrString])
def imageContent := normal Rule.imageContent (seqs [kw "image",parameterOrString,kw "description",
    parameterOrString])
def codeContent := normal Rule.codeContent (seqs [kw "code",parameterOrString,kw "language",
    parameterOrString])
def audioContent := normal Rule.audioContent (seqs [kw "audio",parameterOrString,kw "transcript",
    parameterOrString])

def videoContent :=
  normal Rule.videoContent (seqs [kw "video",parameterOrString,kw "transcript",parameterOrString,
    kw "description",parameterOrString])

def documentContent :=
  normal Rule.documentContent (seqs [kw "document",parameterOrString,kw "title",parameterOrString])

def externalTitleClause := normal Rule.externalTitleClause (seqs [kw "title",parameterOrString])
def externalSnippetClause := normal Rule.externalSnippetClause (seqs [kw "snippet",parameterOrString])
def externalMimeClause := normal Rule.externalMimeClause (seqs [kw "mime",parameterOrString])
def externalChecksumClause := normal Rule.externalChecksumClause
    (seqs [kw "checksum",parameterOrString])
def externalFetchPolicyName := normal Rule.externalFetchPolicyName
    (words ["on_demand","if_stale","never"])

def externalFetchPolicyClause :=
  normal Rule.externalFetchPolicyClause (seqs [kw "fetch_policy",externalFetchPolicyName])

def externalStaleAtClause := normal Rule.externalStaleAtClause (seqs [kw "stale_at",parameterOrString])

def externalContent :=
  normal Rule.externalContent (seqs [kw "external",parameterOrString,externalTitleClause,
    .opt externalSnippetClause,.opt externalMimeClause,.opt externalChecksumClause,
    .opt externalFetchPolicyClause,.opt externalStaleAtClause])

def toolOutputToolClause := normal Rule.toolOutputToolClause (seqs [kw "tool",parameterOrString])
def toolOutputMimeClause := normal Rule.toolOutputMimeClause (seqs [kw "mime",parameterOrString])
def toolOutputSchemaClause := normal Rule.toolOutputSchemaClause (seqs [kw "schema",parameterOrString])
def toolOutputCallIdClause := normal Rule.toolOutputCallIdClause
    (seqs [kw "call_id",parameterOrString])
def toolOutputChecksumClause := normal Rule.toolOutputChecksumClause
    (seqs [kw "checksum",parameterOrString])

def toolOutputContent :=
  normal Rule.toolOutputContent (seqs [kw "tool_output",parameterOrString,toolOutputToolClause,
    .opt toolOutputMimeClause,.opt toolOutputSchemaClause,.opt toolOutputCallIdClause,
    .opt toolOutputChecksumClause])

def structuredContent :=
  normal Rule.structuredContent (seqs [kw "structured",parameterOrString,kw "schema",
  parameterOrString])

def modalContent :=
  normal Rule.modalContent (alts [imageContent,codeContent,audioContent,videoContent,documentContent,
    externalContent,toolOutputContent,structuredContent])

def contentClause := normal Rule.contentClause
    (seqs [kw "content",alts [modalContent,parameter,stringLiteral]])
def typeClause := normal Rule.typeClause (seqs [kw "type",identifier])
def entitiesClause := normal Rule.entitiesClause (seqs [kw "entities",stringList])
def importanceClause := normal Rule.importanceClause (seqs [kw "importance",floatLiteral])

def onConflictClause :=
  normal Rule.onConflictClause (seqs [kw "on",kw "conflict",kw "update",kw "set",setAssignmentList])

def rememberStmt :=
  normal Rule.rememberStmt (seqs [kw "remember",rememberLayer,alts [conceptClause,contentClause],
    .opt typeClause,.opt entitiesClause,.opt importanceClause,.opt onConflictClause])

def weightClause := normal Rule.weightClause (seqs [kw "weight",floatLiteral])

def connectStmt :=
  normal Rule.connectStmt (seqs [kw "connect",stringLiteral,kw "to",stringLiteral,kw "as",identifier,
    .opt weightClause])

def consolidateStmt := normal Rule.consolidateStmt (seqs [kw "consolidate",.star whereClause])
def watchTarget := normal Rule.watchTarget (alts [kw "all",kw "contradictions",layerFilter])

def watchStmt :=
  normal Rule.watchStmt (seqs [kw "watch",watchTarget,.opt involvingClause,.star whereClause,
    .opt namespaceClause,.opt formatClause])

def soi : Expr Rule := .text []
def eoi := normal Rule.eoi .stop

def statement :=
  normal Rule.statement (seqs [soi,.star whitespace,
  alts [explainStmt,explainPolicyStmt,explainCausesStmt,
    showClusterStmt,showPoliciesStmt,setTierPolicyStmt,createRealmStmt,dropRealmStmt,grantStmt,
    revokeStmt,whatIfStmt,counterfactualStmt,recallEventsStmt,recallStmt,thinkStmt,rememberStmt,
    forgetStmt,correctStmt,supersedeStmt,mergeMemoryStmt,retractStmt,connectStmt,inspectStmt,
    historyStmt,traceStmt,consolidateStmt,watchStmt,traverseStmt],.star whitespace,eoi])
end Grammar

def skip : Skip := skipOf Grammar.whitespace Grammar.comment
end Hirn.Query
