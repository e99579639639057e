import Hirn.SettledChains

/-! The cache of heads. No request files a head under another chain than its own. -/
namespace Hirn.Engine
open Chains Chains.Store Effects Runs

def Cached (db : Db) : Prop := db.episodic.Indexed ∧ db.semantic.Indexed

abbrev KeepsCache {α : Type} (m : Op α) : Prop := Triple Cached m (fun _ => Cached) Cached

variable {env : Env} {call : Call}

theorem keepsCache_require (b : Bool) (e : HirnError) : KeepsCache (require b e) :=
  (Triple.require b e fun _ h => h).conseq (fun _ h => h) fun _ _ h => h.2

variable {α : Type}

theorem keepsCache_after (h : KeepsCache m) :
    KeepsCache (raise e >>= fun _ => m) := .bind (.raise e fun _ h => h) fun _ => h

theorem keepsCache_lift (x : Except HirnError α) : KeepsCache (lift x) :=
  (Triple.lift x fun _ h => h).conseq (fun _ h => h) fun _ _ h => h.2

theorem keepsCache_expect (o : Option α) (e : HirnError) : KeepsCache (expect o e) :=
  (Triple.expect o e fun _ h => h).conseq (fun _ h => h) fun _ _ h => h.2

theorem keepsCache_get : KeepsCache (get : Op Db) :=
  Triple.get.conseq (fun _ h => h) fun _ _ h => h.2

theorem keepsCache_pure (a : α) : KeepsCache (pure a : Op α) := .pure fun _ h => h

theorem keepsCache_onSemantic
    (hf : ∀ s, s.Indexed → (f s).Indexed) : KeepsCache (onSemantic f) := .modify fun _ h =>
    ⟨h.1,hf _ h.2⟩

theorem keepsCache_onEpisodic
    (hf : ∀ s, s.Indexed → (f s).Indexed) : KeepsCache (onEpisodic f) := .modify fun _ h =>
    ⟨hf _ h.1,h.2⟩

variable (id : MemoryId)

theorem keepsCache_readSemanticRecord : KeepsCache (readSemanticRecord id) :=
  .bind keepsCache_get fun _ => keepsCache_expect _ _

theorem keepsCache_semanticHeadForLogicalId (c : LogicalMemoryId) :
    KeepsCache (semanticHeadForLogicalId env c) :=
  .bind keepsCache_get fun _ => .bind (keepsCache_onSemantic fun _ h => h.touch) fun _ =>
  keepsCache_expect _ _

theorem keepsCache_resolveActiveSemanticHead : KeepsCache (resolveActiveSemanticHead env id) :=
  .bind (keepsCache_readSemanticRecord id) fun _ =>
  .bind (keepsCache_semanticHeadForLogicalId _) fun _ =>
    .bind (keepsCache_require _ _) fun _ => keepsCache_after <| keepsCache_pure _

theorem keepsCache_storeSemantic (record : SemanticRecord) :
    KeepsCache (storeSemantic env call record) :=
  keepsCache_after <| .bind keepsCache_get fun _ => keepsCache_after <|
    .bind (keepsCache_require _ _) fun _ => keepsCache_after <| keepsCache_after <|
      .bind (keepsCache_onSemantic fun s h => Indexed.cacheHead (s := s.append _) h) fun _ =>
      keepsCache_pure _

theorem keepsCache_appendSemanticSuccessor (current : SemanticRecord) (update : SemanticUpdate)
    (operation : RevisionOperation) (preserve : Bool) (action : Action) :
    KeepsCache (appendSemanticSuccessor env call current update operation preserve action) :=
  keepsCache_after <| .bind (keepsCache_lift _) fun _ => keepsCache_after <|
    .bind (keepsCache_onSemantic fun _ h => h.succeed) fun _ => keepsCache_pure _

theorem keepsCache_overrideSemantic (request : SemanticUpdate) :
    KeepsCache (overrideSemantic env call id request) :=
  .bind (keepsCache_resolveActiveSemanticHead id) fun _ => .bind (keepsCache_expect _ _) fun _ =>
    keepsCache_appendSemanticSuccessor _ _ _ _ _

theorem keepsCache_retractSemantic (retraction : SemanticRetraction) :
    KeepsCache (retractSemantic env call id retraction) :=
  .bind (keepsCache_resolveActiveSemanticHead id) fun _ => keepsCache_after <|
    keepsCache_after <| .bind (keepsCache_onSemantic fun _ h => h.succeed) fun _ => keepsCache_pure _

theorem keepsCache_resolveSources (current : SemanticRecord) (ids : List MemoryId)
    (seen : List LogicalMemoryId) : KeepsCache (resolveSources env current ids seen) := by
  induction ids generalizing seen with
  | nil => exact keepsCache_pure _
  | cons id ids ih =>
    exact .bind (keepsCache_resolveActiveSemanticHead id) fun _ =>
      .bind (keepsCache_require _ _) fun _ =>
      .bind (keepsCache_require _ _) fun _ => .bind (keepsCache_require _ _) fun _ =>
        .bind (keepsCache_require _ _) fun _ => .bind (ih _) fun _ => keepsCache_pure _

theorem keepsCache_mergeSemantic (target : MemoryId) (merge : SemanticMerge) :
    KeepsCache (mergeSemantic env call target merge) :=
  .bind (keepsCache_require _ _) fun _ => .bind (keepsCache_resolveActiveSemanticHead target) fun _ =>
    keepsCache_after <| .bind (keepsCache_resolveSources _ _ _) fun _ =>
      .bind (keepsCache_lift _) fun _ => keepsCache_after <|
        .bind (keepsCache_onSemantic fun s h => indexed_foldl_cacheHead
          (indexed_foldl_closePredecessor (s := s.append _) h)) fun _ => keepsCache_pure _

theorem keepsCache_purgeSemanticAs (actorId : Option AgentId) :
    KeepsCache (purgeSemanticAs env call id actorId) :=
  .bind (keepsCache_readSemanticRecord id) fun _ => keepsCache_after <|
    keepsCache_after <| keepsCache_onSemantic fun s h => Indexed.evict (s := s.dropChain _) h

theorem keepsCache_readEpisodicRecord : KeepsCache (readEpisodicRecord id) :=
  .bind keepsCache_get fun _ => keepsCache_expect _ _

theorem keepsCache_episodicHeadForLogicalId (c : LogicalMemoryId) :
    KeepsCache (episodicHeadForLogicalId env c) :=
  .bind keepsCache_get fun _ => .bind (keepsCache_onEpisodic fun _ h => h.touch) fun _ =>
  keepsCache_expect _ _

theorem keepsCache_episodicEditTarget : KeepsCache (episodicEditTarget env id) :=
  .bind (keepsCache_readEpisodicRecord id) fun _ =>
  .bind (keepsCache_episodicHeadForLogicalId _) fun _ =>
    .bind (keepsCache_require _ _) fun _ => keepsCache_pure _

theorem keepsCache_appendEpisodicSuccessor (current : EpisodicRecord) (operation : RevisionOperation)
    (reason : Option String) (archived : Bool) (update : EpisodicBody → EpisodicBody) :
    KeepsCache (appendEpisodicSuccessor env call current operation reason archived update) :=
  .bind (keepsCache_lift _) fun _ => keepsCache_after <|
    .bind (keepsCache_onEpisodic fun _ h => h.succeed) fun _ => keepsCache_pure _

theorem keepsCache_remember (record : EpisodicRecord) : KeepsCache (remember env call record) := by
  refine keepsCache_after ?_
  cases call.admission with
  | refuse error => exact .throw _ fun _ h => h
  | merge target =>
    exact .bind (keepsCache_episodicEditTarget target) fun _ => .bind (keepsCache_require _ _) fun _ =>
      .bind (keepsCache_appendEpisodicSuccessor _ _ _ _ _) fun _ => keepsCache_pure _
  | accept =>
    exact keepsCache_after <| keepsCache_after <|
      .bind (keepsCache_onEpisodic fun _ h => h) fun _ => keepsCache_pure _

theorem keepsCache_deleteEpisode : KeepsCache (deleteEpisode env call id) :=
  .bind (keepsCache_readEpisodicRecord id) fun _ =>
  .bind (keepsCache_episodicHeadForLogicalId _) fun _ =>
    keepsCache_after <| keepsCache_after <| keepsCache_onEpisodic fun _ h => h

theorem keepsCache_archiveEpisode : KeepsCache (archiveEpisode env call id) :=
  .bind (keepsCache_episodicEditTarget id) fun _ => keepsCache_after <|
    .bind (keepsCache_appendEpisodicSuccessor _ _ _ _ _) fun _ => keepsCache_pure _

theorem keepsCache_shareMemory (ctx : AgentContext) (id : MemoryId) (target : Namespace) :
    KeepsCache (shareMemory env call ctx id target) := by
  refine .bind keepsCache_get fun _ => .bind (keepsCache_lift _) fun record => ?_
  refine .bind (keepsCache_require _ _) fun _ => .bind (keepsCache_require _ _) fun _ => ?_
  cases record with
  | episodic e =>
    exact .bind (keepsCache_remember _) fun _ => keepsCache_after <| keepsCache_pure _
  | semantic s =>
    exact .bind (keepsCache_storeSemantic _) fun _ => keepsCache_after <| keepsCache_pure _
  | working w => exact .throw _ fun _ h => h
  | procedural p => exact .throw _ fun _ h => h

theorem keepsCache_discard (h : KeepsCache m) : KeepsCache (discard m) :=
  .bind h fun _ => keepsCache_pure _

theorem keepsCache_perform (request : Request) : KeepsCache (perform env call request) := by
  cases request with
  | storeSemantic record => exact keepsCache_discard (keepsCache_storeSemantic record)
  | correct id update =>
    exact keepsCache_discard (.bind (keepsCache_resolveActiveSemanticHead id) fun _ =>
      keepsCache_appendSemanticSuccessor _ _ _ _ _)
  | supersede id supersession =>
    exact keepsCache_discard (.bind (keepsCache_resolveActiveSemanticHead id) fun _ =>
      keepsCache_appendSemanticSuccessor _ _ _ _ _)
  | override id request => exact keepsCache_discard (keepsCache_overrideSemantic id request)
  | merge target merge => exact keepsCache_discard (keepsCache_mergeSemantic target merge)
  | retract id retraction => exact keepsCache_discard (keepsCache_retractSemantic id retraction)
  | purge id actorId => exact keepsCache_purgeSemanticAs id actorId
  | remember record => exact keepsCache_discard (keepsCache_remember record)
  | archive id => exact keepsCache_archiveEpisode id
  | delete id => exact keepsCache_deleteEpisode id
  | share ctx id target => exact keepsCache_discard (keepsCache_shareMemory ctx id target)
  | promote ctx id =>
    exact keepsCache_discard (.bind keepsCache_get fun _ => .bind (keepsCache_lift _) fun _ =>
      keepsCache_after <| keepsCache_shareMemory _ _ _)

theorem cached_step (h : Cached db) (request : Call × Request) : Cached (step env db request) :=
  (keepsCache_perform request.2).final h

theorem cached_exec (h : Cached db) (requests : List (Call × Request)) :
    Cached (exec (step env) db requests) := by
  induction requests generalizing db with
  | nil => exact h
  | cons request requests ih => exact ih (cached_step h request)

theorem cached_empty : Cached Db.empty := by
  constructor
  · intro c r h
    cases h
  · intro c r h
    cases h
end Hirn.Engine
