import Hirn.CachedHeads
import Hirn.ChainViews
import Hirn.SemanticHistory

/-! A shared copy and its source. The copy keeps the chain of its source, so an edit of either
that the database accepts is seen on the other side, and only the refused ones are not. -/
namespace Hirn.Engine
open Chains Chains.Store Effects Revision Runs Option Prod
variable {env : Env} {call : Call} {db db' : Db}
  {r : SemanticRecord} {e : EpisodicRecord}

/-- Reading may fill the head cache. It changes no row and no head. -/
structure Unmoved (env : Env) (db db' : Db) : Prop where
  episodicRows : db'.episodic.rows = db.episodic.rows
  episodicHeads : ∀ c, db'.episodic.headFor env.episodicBackend c = db.episodic.headFor
    env.episodicBackend c
  semanticRows : db'.semantic.rows = db.semantic.rows
  semanticHeads : ∀ c, db'.semantic.headFor env.semanticBackend c = db.semantic.headFor
    env.semanticBackend c

theorem Unmoved.refl (env : Env) (db : Db) : Unmoved env db db := ⟨rfl,fun _ => rfl,rfl,fun _ => rfl⟩

theorem unmoved_touchSemantic (c : LogicalMemoryId) :
    Unmoved env db {db with semantic := db.semantic.touch env.semanticBackend c} :=
  ⟨rfl,fun _ => rfl,rows_touch,fun _ => headFor_touch⟩

theorem unmoved_touchEpisodic (c : LogicalMemoryId) :
    Unmoved env db {db with episodic := db.episodic.touch env.episodicBackend c} :=
  ⟨rows_touch,fun _ => headFor_touch,rfl,fun _ => rfl⟩

/-- The identifiers that a call draws name no record of the database. -/
structure Unused (call : Call) (db : Db) : Prop where
  working : ∀ i, ∀ w ∈ db.working, w.id ≠ call.fresh i
  episodic : ∀ i r, db.episodic.Present r → r.id ≠ call.fresh i
  semantic : ∀ i r, db.semantic.Present r → r.id ≠ call.fresh i

section
variable (env : Env)

def activeHead (db : Db) (id : MemoryId) : Option SemanticRecord :=
  (db.semantic.find id).bind fun record =>
    (db.semantic.headFor env.semanticBackend record.logicalMemoryId).filter fun head =>
      !head.isRetracted && head.mergedInto.isNone

def liveEpisode (db : Db) (id : MemoryId) : Option EpisodicRecord :=
  (db.episodic.find id).bind fun record =>
    (db.episodic.headFor env.episodicBackend record.logicalMemoryId).filter (·.isLive)

def Embeds (description : Option String) : Prop :=
  ∀ text ∈ description, ∃ embedding, env.embedText text = .ok embedding

def Revises (call : Call) (db : Db) (id : MemoryId) (update : SemanticUpdate)
    (action : Action) : Prop :=
  ∃ head, activeHead env db id = some head ∧ env.denial update.actorId action head.ns = none ∧
    Embeds env update.description ∧ call.fault = none

/-- The memory is open to the edit, the policy allows it, and nothing it needs fails. -/
def Accepts (db : Db) : Call × Request → Prop
  | (call,.correct id update) => Revises env call db id update .correct
  | (call,.supersede id supersession) => Revises env call db id supersession .supersede
  | (call,.override id request) => overrideReason request.reason ≠ none ∧
      Revises env call db id request .admin
  | (call,.retract id retraction) => ∃ head, activeHead env db id = some head ∧
      env.denial retraction.actorId .retract head.ns = none ∧ call.fault = none
  | (call,.purge id actorId) => ∃ record, db.semantic.find id = some record ∧
      env.denial (actorId.getD record.provenance.createdBy) .purge record.ns = none ∧ call.fault = none
  | (call,.archive id) => ∃ head, liveEpisode env db id = some head ∧
      env.denial head.provenance.createdBy .forget head.ns = none ∧ call.fault = none
  | (call,.delete id) => ∃ record head, db.episodic.find id = some record ∧
      db.episodic.headFor env.episodicBackend record.logicalMemoryId = some head ∧
      env.denial head.provenance.createdBy .forget head.ns = none ∧ call.fault = none
  | _ => False
end

/-- The layer and the id that an edit of a stored memory is about. -/
def Request.edits : Request → Option (Layer × MemoryId)
  | .correct id _ | .supersede id _ | .override id _ | .retract id _ | .purge id _ =>
      some (.semantic,id)
  | .archive id | .delete id => some (.episodic,id)
  | _ => none

variable {α : Type} {id : MemoryId} {request : Request}
variable {x current : SemanticRecord}

theorem run_readSemanticRecord (h : db.semantic.find id = some x) :
    run (readSemanticRecord id) db = (.ok x,db) := by
  rw [readSemanticRecord,run_bind_ok (run_get db),h,run_expect_some]

theorem run_semanticHeadForLogicalId (c : LogicalMemoryId) : run (semanticHeadForLogicalId env c) db =
      (run (expect (db.semantic.headFor env.semanticBackend c)
          (.notFound ("semantic logical memory "++ulid c)) : Op SemanticRecord)
        {db with semantic := db.semantic.touch env.semanticBackend c}) := rfl

theorem run_resolveActiveSemanticHead (env : Env) (hx : db.semantic.find id = some x) :
    ∃ e, run (resolveActiveSemanticHead env id) db = ((activeHead env db id).elim (.error e) .ok,
      {db with semantic := db.semantic.touch env.semanticBackend x.logicalMemoryId}) := by
  rw [resolveActiveSemanticHead,run_bind_ok (run_readSemanticRecord hx),run_bind,
    run_semanticHeadForLogicalId,activeHead,hx,bind_some]
  rcases db.semantic.headFor env.semanticBackend x.logicalMemoryId with _ | head
  · exact ⟨_,rfl⟩
  · simp only [run_expect_some,filter_some]
    rcases head.isRetracted
    · rcases head.mergedInto with _ | into
      · exact ⟨.notFound "",rfl⟩
      · exact ⟨_,rfl⟩
    · exact ⟨_,rfl⟩

section
variable (hx : db.semantic.find id = some x)
include hx

theorem unmoved_resolveActiveSemanticHead (hf : ∀ head d, activeHead env db id = some head →
    (run (f head) d).2 = d) :
    Unmoved env db (run (resolveActiveSemanticHead env id >>= f) db).2 := by
  obtain ⟨e,hrun⟩ := run_resolveActiveSemanticHead env hx
  rcases h : activeHead env db id with _ | head
  · rw [h] at hrun
    rw [run_bind_error hrun]
    exact unmoved_touchSemantic _
  · rw [h] at hrun
    rw [run_bind_ok hrun,hf head _ h]
    exact unmoved_touchSemantic _

theorem state_of_activeHead
    (h : activeHead env db id = some current) : run (resolveActiveSemanticHead env id >>= f) db =
      run (f current) {db with semantic := db.semantic.touch env.semanticBackend x.logicalMemoryId} := by
  obtain ⟨e,hrun⟩ := run_resolveActiveSemanticHead env hx
  rw [h] at hrun
  exact run_bind_ok hrun

theorem headFor_of_activeHead (h : activeHead env db id = some current) :
    db.semantic.headFor env.semanticBackend x.logicalMemoryId = some current := by
  rw [activeHead,hx,bind_some,filter_eq_some_iff] at h
  exact h.1
end

theorem applySemanticUpdateFields_ok_iff :
    (∃ y, applySemanticUpdateFields env current next update reason now = .ok y) ↔
      Embeds env update.description := by
  unfold applySemanticUpdateFields describing Embeds
  rcases update.description with _ | text
  · simp
  · rcases he : env.embedText text with e | embedding <;> simp

theorem run_appendSemanticSuccessor_refused (h : ¬(env.denial update.actorId action current.ns = none ∧
      Embeds env update.description ∧ call.fault = none)) :
    (run (appendSemanticSuccessor env call current update operation preserve action) db).2 = db := by
  unfold appendSemanticSuccessor enforce
  rcases hd : env.denial update.actorId action current.ns with _ | e
  · rw [run_bind_ok (run_raise_none db),run_bind,run_lift]
    split
    next next d hnext =>
      obtain ⟨hok,rfl⟩ := mk.inj hnext
      have hembeds := applySemanticUpdateFields_ok_iff.mp ⟨_,hok⟩
      rcases hf : call.fault with _ | e
      · exact absurd ⟨hd,hembeds,hf⟩ h
      · rfl
    next e d he => exact (mk.inj he).2.symm
  · rfl

theorem run_appendSemanticSuccessor_accepted (operation : RevisionOperation) (preserve : Bool)
    (db : Db) (hd : env.denial update.actorId action current.ns = none)
    (he : Embeds env update.description) (hf : call.fault = none) :
    ∃ next closed, SamePlace next (revised current (call.fresh 0) operation update.reason
    update.causationId
        call.now (update.observedAt.getD (if preserve then current.validFrom else call.now))
        update.actorId) ∧
      (run (appendSemanticSuccessor env call current update operation preserve action) db).2 =
        {db with semantic := db.semantic.succeed next closed} := by
  unfold appendSemanticSuccessor enforce
  rw [hd,hf,run_bind_ok (run_raise_none db)]
  obtain ⟨next,hnext⟩ := applySemanticUpdateFields_ok_iff.mpr he
  rw [run_bind_ok ((run_lift _ db).trans (by rw [hnext]))]
  exact ⟨_,_,(samePlace_attachContradictions env current next).trans
    (samePlace_applySemanticUpdateFields hnext),rfl⟩

theorem succession_of_head (hcache : db.semantic.Indexed) (hunused : Unused call db)
    (hhead : db.semantic.headFor env.semanticBackend c = some current)
    (hnext : SamePlace next
      (revised current (call.fresh i) operation reason causationId now validFrom actorId)) :
    Succession env.semanticBackend (db.semantic.touch env.semanticBackend c) c current next where
  head := headFor_touch.trans hhead
  chain_next := by
    have hchain : chain next = chain current := hnext.chain
    exact hchain.trans (hcache.chain_headFor hhead)
  newer_next := by
    have hversion : version next = version current + 1 := hnext.version
    simp [newer,hversion]
  key_next r hr := by
    have hid : key next = call.fresh i := hnext.id
    rw [hid]
    exact hunused.semantic i r hr.of_touch

theorem moved_appendSemanticSuccessor (hcache : db.semantic.Indexed)
    (hunused : Unused call db) (hhead : db.semantic.headFor env.semanticBackend c = some current)
    (hd : env.denial update.actorId action current.ns = none) (he : Embeds env update.description)
    (hf : call.fault = none) : (run (appendSemanticSuccessor env call current update operation
    preserve action)
        {db with semantic := db.semantic.touch env.semanticBackend c}).2.semantic.headFor
      env.semanticBackend c ≠ db.semantic.headFor env.semanticBackend c := by
  obtain ⟨next,closed,hnext,hrun⟩ := run_appendSemanticSuccessor_accepted operation preserve
    {db with semantic := db.semantic.touch env.semanticBackend c} hd he hf
  rw [hrun]
  exact (succession_of_head hcache hunused hhead hnext).headFor_ne.trans_eq headFor_touch

theorem unmoved_semanticEdit (hx : db.semantic.find id = some x)
    (hedits : request.edits = some (.semantic,id)) (h : ¬Accepts env db (call,request)) :
    Unmoved env db (step env db (call,request)) := by
  cases request with
  | correct | supersede =>
    cases hedits
    rw [step,perform,run_discard]
    exact unmoved_resolveActiveSemanticHead hx fun head d hhead =>
      run_appendSemanticSuccessor_refused fun hok => h ⟨head,hhead,hok⟩
  | override i request =>
    cases hedits
    rw [step,perform,run_discard]
    refine unmoved_resolveActiveSemanticHead hx fun head d hhead => ?_
    rcases hreason : overrideReason request.reason with _ | reason
    · rfl
    · exact run_appendSemanticSuccessor_refused fun hok => h ⟨by simp [hreason],head,hhead,hok⟩
  | retract i retraction =>
    cases hedits
    rw [step,perform,run_discard]
    refine unmoved_resolveActiveSemanticHead hx fun head d hhead => ?_
    rw [enforce]
    rcases hd : env.denial retraction.actorId .retract head.ns with _ | e
    · rcases hf : call.fault with _ | e
      · exact absurd ⟨head,hhead,hd,hf⟩ h
      · rfl
    · rfl
  | purge i actorId =>
    cases hedits
    rw [step,perform,purgeSemanticAs,run_bind_ok (run_readSemanticRecord hx),enforce]
    rcases hd : env.denial (actorId.getD x.provenance.createdBy) .purge x.ns with _ | e
    · rcases hf : call.fault with _ | e
      · exact absurd ⟨x,hx,hd,hf⟩ h
      · exact Unmoved.refl env db
    · exact Unmoved.refl env db
  | _ => cases hedits

theorem moved_semanticEdit (hcache : db.semantic.Indexed) (hunused : Unused call db)
    (hx : db.semantic.find id = some x) (hedits : request.edits = some (.semantic,id))
    (h : Accepts env db (call,request)) :
    (step env db (call,request)).semantic.headFor env.semanticBackend x.logicalMemoryId ≠
      db.semantic.headFor env.semanticBackend x.logicalMemoryId := by
  cases request with
  | correct i update =>
    cases hedits
    obtain ⟨head,hhead,hd,he,hf⟩ := h
    rw [step,perform,run_discard,correctSemantic,state_of_activeHead hx hhead]
    exact moved_appendSemanticSuccessor hcache hunused (headFor_of_activeHead hx hhead) hd he hf
  | supersede i supersession =>
    cases hedits
    obtain ⟨head,hhead,hd,he,hf⟩ := h
    rw [step,perform,run_discard,supersedeSemantic,state_of_activeHead hx hhead]
    exact moved_appendSemanticSuccessor hcache hunused (headFor_of_activeHead hx hhead) hd he hf
  | override i request =>
    cases hedits
    obtain ⟨hreason,head,hhead,hd,he,hf⟩ := h
    obtain ⟨reason,hreason⟩ := ne_none_iff_exists'.mp hreason
    rw [step,perform,run_discard,overrideSemantic,state_of_activeHead hx hhead,hreason,
      run_bind_ok (run_expect_some _ _ _)]
    exact moved_appendSemanticSuccessor hcache hunused (headFor_of_activeHead hx hhead) hd he hf
  | retract i retraction =>
    cases hedits
    obtain ⟨head,hhead,hd,hf⟩ := h
    rw [step,perform,run_discard,retractSemantic,state_of_activeHead hx hhead,enforce,hd,hf]
    exact (succession_of_head hcache hunused (headFor_of_activeHead hx hhead)
      ⟨rfl,rfl,rfl,rfl,rfl⟩).headFor_ne.trans_eq headFor_touch
  | purge i actorId =>
    cases hedits
    obtain ⟨r,hr,hd,hf⟩ := h
    obtain rfl : x = r := some_inj.mp (hx.symm.trans hr)
    rw [step,perform,purgeSemanticAs,run_bind_ok (run_readSemanticRecord hx),enforce,hd,hf]
    obtain ⟨head,hhead⟩ := headFor_of_row (b := env.semanticBackend) (find_eq_some hx).1 rfl
    rw [show x.logicalMemoryId = chain x from rfl,hhead]
    exact headFor_dropChain_evict.trans_ne (some_ne_none head).symm
  | _ => cases hedits

variable {x current : EpisodicRecord}

theorem run_readEpisodicRecord (h : db.episodic.find id = some x) :
    run (readEpisodicRecord id) db = (.ok x,db) := by
  rw [readEpisodicRecord,run_bind_ok (run_get db),h,run_expect_some]

theorem run_episodicHeadForLogicalId
    (h : db.episodic.headFor env.episodicBackend c = some head) :
    run (episodicHeadForLogicalId env c) db =
      (.ok head,{db with episodic := db.episodic.touch env.episodicBackend c}) := by
  rw [episodicHeadForLogicalId,run_bind_ok (run_get db),onEpisodic,run_bind_ok (run_modify _ db),h,
    run_expect_some]

theorem headFor_of_find (env : Env) (hx : db.episodic.find id = some x) :
    ∃ head, db.episodic.headFor env.episodicBackend x.logicalMemoryId = some head :=
  headFor_of_row (find_eq_some hx).1 rfl

def archivedRevision (call : Call) (current : EpisodicRecord) : EpisodicRecord :=
  {revisedEpisode current (call.fresh 0) .retract (some "episodic record archived") call.now with
    archived := true}

theorem run_appendEpisodicSuccessor_archived : run (appendEpisodicSuccessor env call current .retract
      (some "episodic record archived") true fun body => body) db = run (do
      raise call.fault
      onEpisodic (·.succeed (archivedRevision call current) none)
      pure (archivedRevision call current) : Op EpisodicRecord) db := by
  have hsame : reembedded env current (archivedRevision call current) =
    .ok (archivedRevision call current) :=
    if_pos rfl
  exact run_bind_ok ((run_lift _ db).trans (congrArg (·,db) hsame))

theorem run_episodicEditTarget (env : Env) (hx : db.episodic.find id = some x) :
    ∃ e, run (episodicEditTarget env id) db = ((liveEpisode env db id).elim (.error e) .ok,
      {db with episodic := db.episodic.touch env.episodicBackend x.logicalMemoryId}) := by
  obtain ⟨head,hhead⟩ := headFor_of_find env hx
  rw [episodicEditTarget,run_bind_ok (run_readEpisodicRecord hx),
    run_bind_ok (run_episodicHeadForLogicalId hhead),liveEpisode,hx,bind_some,hhead,
    filter_some]
  rcases head.isLive
  · exact ⟨_,rfl⟩
  · exact ⟨.notFound "",rfl⟩

theorem headFor_of_liveEpisode (hx : db.episodic.find id = some x)
    (h : liveEpisode env db id = some current) :
    db.episodic.headFor env.episodicBackend x.logicalMemoryId = some current := by
  rw [liveEpisode,hx,bind_some,filter_eq_some_iff] at h
  exact h.1

theorem unmoved_episodicEdit (hx : db.episodic.find id = some x)
    (hedits : request.edits = some (.episodic,id)) (h : ¬Accepts env db (call,request)) :
    Unmoved env db (step env db (call,request)) := by
  cases request with
  | archive i =>
    cases hedits
    rw [step,perform,archiveEpisode]
    obtain ⟨e,hrun⟩ := run_episodicEditTarget env hx
    rcases hlive : liveEpisode env db id with _ | head
    · rw [hlive] at hrun
      rw [run_bind_error hrun]
      exact unmoved_touchEpisodic _
    · rw [hlive] at hrun
      rw [run_bind_ok hrun,enforce]
      rcases hd : env.denial head.provenance.createdBy .forget head.ns with _ | e
      · rcases hf : call.fault with _ | e
        · exact absurd ⟨head,hlive,hd,hf⟩ h
        · rw [run_bind_ok (run_raise_none _),run_bind,run_appendEpisodicSuccessor_archived,hf]
          exact unmoved_touchEpisodic _
      · exact unmoved_touchEpisodic _
  | delete i =>
    cases hedits
    obtain ⟨head,hhead⟩ := headFor_of_find env hx
    rw [step,perform,deleteEpisode,run_bind_ok (run_readEpisodicRecord hx),
      run_bind_ok (run_episodicHeadForLogicalId hhead),enforce]
    rcases hd : env.denial head.provenance.createdBy .forget head.ns with _ | e
    · rcases hf : call.fault with _ | e
      · exact absurd ⟨x,head,hx,hhead,hd,hf⟩ h
      · exact unmoved_touchEpisodic _
    · exact unmoved_touchEpisodic _
  | _ => cases hedits

theorem moved_episodicEdit (hcache : db.episodic.Indexed) (hunused : Unused call db)
    (hx : db.episodic.find id = some x) (hedits : request.edits = some (.episodic,id))
    (hrow : ∃ y ∈ db.episodic.rows, y.logicalMemoryId = x.logicalMemoryId ∧ y.ns = n)
    (h : Accepts env db (call,request)) :
    ¬SameView env.episodicBackend EpisodicRecord.ns n x.logicalMemoryId db.episodic
      (step env db (call,request)).episodic := by
  cases request with
  | archive i =>
    cases hedits
    obtain ⟨head,hlive,hd,hf⟩ := h
    obtain ⟨e,hrun⟩ := run_episodicEditTarget env hx
    rw [hlive] at hrun
    have hhead := headFor_of_liveEpisode hx hlive
    have hnext : Succession env.episodicBackend
        (db.episodic.touch env.episodicBackend x.logicalMemoryId) x.logicalMemoryId head
        (archivedRevision call head) :=
      ⟨headFor_touch.trans hhead,(hcache.chain_headFor hhead : chain head = _),
        by simp [newer,version,archivedRevision,revisedEpisode],fun r hr => hunused.episodic 0 r hr.of_touch⟩
    rw [step,perform,archiveEpisode,run_bind_ok hrun,enforce,hd,run_bind_ok (run_raise_none _),
      run_bind,run_appendEpisodicSuccessor_archived,hf]
    exact fun hsame => hnext.headFor_ne (hsame.2.trans headFor_touch.symm)
  | delete i =>
    cases hedits
    obtain ⟨r,head,hr,hhead,hd,hf⟩ := h
    obtain rfl : x = r := some_inj.mp (hx.symm.trans hr)
    obtain ⟨y,hy,hchain,rfl⟩ := hrow
    rw [step,perform,deleteEpisode,run_bind_ok (run_readEpisodicRecord hx),
      run_bind_ok (run_episodicHeadForLogicalId hhead),enforce,hd,hf]
    intro hsame
    have hrows : ((db.episodic.touch env.episodicBackend x.logicalMemoryId).dropChain
        x.logicalMemoryId).regionRows EpisodicRecord.ns y.ns =
        db.episodic.regionRows EpisodicRecord.ns y.ns := hsame.1
    apply regionRows_dropChain_ne EpisodicRecord.ns hy
    rw [← hrows,show chain y = x.logicalMemoryId from hchain]
    simp [regionRows,dropChain]
  | _ => cases hedits

def headOf (env : Env) (db : Db) : MemoryRecord → Option MemoryRecord
  | .semantic r => (db.semantic.headFor env.semanticBackend r.logicalMemoryId).map .semantic
  | .episodic e => (db.episodic.headFor env.episodicBackend e.logicalMemoryId).map .episodic
  | _ => none

/-- The rows of the namespace and the head of the record's memory are the same. -/
structure SameFor (env : Env) (ns : Namespace) (record : MemoryRecord) (db db' : Db) : Prop where
  episodic : db'.episodic.regionRows EpisodicRecord.ns ns = db.episodic.regionRows EpisodicRecord.ns ns
  semantic : db'.semantic.regionRows SemanticRecord.ns ns = db.semantic.regionRows SemanticRecord.ns ns
  head : headOf env db' record = headOf env db record

theorem sameFor_equivalence (env : Env) (ns : Namespace) (record : MemoryRecord) :
    Equivalence (SameFor env ns record) where
  refl _ := ⟨rfl,rfl,rfl⟩
  symm h := ⟨h.episodic.symm,h.semantic.symm,h.head.symm⟩
  trans h h' := ⟨h'.episodic.trans h.episodic,h'.semantic.trans h.semantic,h'.head.trans h.head⟩

theorem Unmoved.sameFor (h : Unmoved env db db') (ns : Namespace) (record : MemoryRecord) :
    SameFor env ns record db db' where
  episodic := by rw [regionRows,h.episodicRows,regionRows]
  semantic := by rw [regionRows,h.semanticRows,regionRows]
  head := by
    cases record with
    | semantic r => rw [headOf,h.semanticHeads,headOf]
    | episodic e => rw [headOf,h.episodicHeads,headOf]
    | working w => rfl
    | procedural p => rfl

/-- One side stays the same exactly as long as later requests are refused. -/
def OnlyRefused (env : Env) (db : Db) (later : List (Call × Request)) (ns : Namespace)
    (record : MemoryRecord) : Prop :=
  (∀ done, done <+: later → SameFor env ns record db (exec (step env) db done)) ↔
    Admissible (step env) (fun d x => ¬Accepts env d x) db later

variable {later : List (Call × Request)}

section
variable {ns : Namespace} {ids : List MemoryId}
  (hcache : Cached db) (hfresh : Admissible (step env) (fun d x => Unused x.1 d) db later)

include hcache hfresh

theorem semantic_unchanged_iff
    (hids : ∀ i ∈ ids, ∃ x, db.semantic.find i = some x ∧ x.logicalMemoryId = r.logicalMemoryId)
    (hlater : ∀ x ∈ later, ∃ i ∈ ids, x.2.edits = some (.semantic,i)) :
    OnlyRefused env db later ns (.semantic r) := by
  refine unchanged_iff (sameFor_equivalence env ns (.semantic r)) (I := fun d => Cached d ∧
    ∀ i ∈ ids, ∃ x, d.semantic.find i = some x ∧ x.logicalMemoryId = r.logicalMemoryId) ?_ ?_ hlater
    ⟨hcache,hids⟩ hfresh
  · rintro d ⟨call,request⟩ ⟨i,hi,hedits⟩ ⟨hcached,hnamed⟩ - hrefused
    obtain ⟨x,hx,-⟩ := hnamed i hi
    have hunmoved := unmoved_semanticEdit hx hedits hrefused
    refine ⟨hunmoved.sameFor ns _,cached_step hcached _,fun j hj => ?_⟩
    rw [find_congr hunmoved.semanticRows]
    exact hnamed j hj
  · rintro d ⟨call,request⟩ ⟨i,hi,hedits⟩ ⟨hcached,hnamed⟩ hunused haccepted hsame
    obtain ⟨x,hx,hchain⟩ := hnamed i hi
    have hmoved := moved_semanticEdit hcached.2 hunused hx hedits haccepted
    rw [hchain] at hmoved
    exact hmoved (map_injective (fun _ _ h => by cases h; rfl) hsame.head)

theorem episodic_unchanged_iff
    (hids : ∀ i ∈ ids, ∃ x, db.episodic.find i = some x ∧ x.logicalMemoryId = e.logicalMemoryId)
    (hrow : ∃ y ∈ db.episodic.rows, y.logicalMemoryId = e.logicalMemoryId ∧ y.ns = ns)
    (hlater : ∀ x ∈ later, ∃ i ∈ ids, x.2.edits = some (.episodic,i)) :
    OnlyRefused env db later ns (.episodic e) := by
  refine unchanged_iff (sameFor_equivalence env ns (.episodic e)) (I := fun d => Cached d ∧
    (∀ i ∈ ids, ∃ x, d.episodic.find i = some x ∧ x.logicalMemoryId = e.logicalMemoryId) ∧
    ∃ y ∈ d.episodic.rows, y.logicalMemoryId = e.logicalMemoryId ∧ y.ns = ns) ?_ ?_ hlater
    ⟨hcache,hids,hrow⟩ hfresh
  · rintro d ⟨call,request⟩ ⟨i,hi,hedits⟩ ⟨hcached,hnamed,hkept⟩ - hrefused
    obtain ⟨x,hx,-⟩ := hnamed i hi
    have hunmoved := unmoved_episodicEdit hx hedits hrefused
    refine ⟨hunmoved.sameFor ns _,cached_step hcached _,fun j hj => ?_,?_⟩
    · rw [find_congr hunmoved.episodicRows]
      exact hnamed j hj
    · rwa [hunmoved.episodicRows]
  · rintro d ⟨call,request⟩ ⟨i,hi,hedits⟩ ⟨hcached,hnamed,hkept⟩ hunused haccepted hsame
    obtain ⟨x,hx,hchain⟩ := hnamed i hi
    rw [← hchain] at hkept
    apply moved_episodicEdit hcached.1 hunused hx hedits hkept haccepted
    refine ⟨hsame.episodic,?_⟩
    rw [hchain]
    exact map_injective (fun _ _ h => by cases h; rfl) hsame.head
end
variable {ctx : AgentContext} {copy : MemoryId} {target : Namespace}

theorem storeSemantic_eq_ok (h : run (storeSemantic env call record) db = (.ok copy,db')) :
    ∃ stored, SamePlace stored record ∧ copy = record.id ∧
      db' = {db with semantic := (db.semantic.append [stored]).cacheHead stored} := by
  simp only [storeSemantic,enforce,run_bind_eq_ok,run_raise_eq_ok,run_require_eq_ok,run_get,
    onSemantic,run_modify,run_pure,Prod.mk.injEq,Except.ok.injEq] at h
  obtain ⟨-,_,⟨-,rfl⟩,_,_,⟨rfl,rfl⟩,-,_,⟨-,rfl⟩,-,_,⟨-,rfl⟩,-,_,⟨-,rfl⟩,-,_,⟨-,rfl⟩,-,_,⟨-,rfl⟩,rfl,
    rfl⟩ := h
  refine ⟨_,?_,?_,rfl⟩ <;> split <;> first | exact ⟨rfl,rfl,rfl,rfl,rfl⟩ | rfl

theorem rememberAccepted_eq_ok (h : run (rememberAccepted env call record) db = (.ok copy,db')) :
    copy = record.id ∧
      db' = {db with episodic := db.episodic.append [{record with body := call.ingest record.body}]} := by
  simp only [rememberAccepted,run_bind_eq_ok,run_raise_eq_ok,onEpisodic,run_modify,run_pure,
    Prod.mk.injEq,Except.ok.injEq] at h
  obtain ⟨-,_,⟨-,rfl⟩,-,_,⟨-,rfl⟩,-,_,⟨-,rfl⟩,rfl,rfl⟩ := h
  exact ⟨rfl,rfl⟩

theorem share_semantic (hrecord : getMemory db id = .ok (.semantic r))
    (hshare : run (shareMemory env call ctx id target) db = (.ok copy,db')) :
    ∃ twin : SemanticRecord, twin.id = call.fresh 1 ∧ twin.logicalMemoryId = r.logicalMemoryId ∧
      twin.ns = target ∧ copy = call.fresh 1 ∧
      db' = {db with semantic := (db.semantic.append [twin]).cacheHead twin} := by
  rw [shareMemory,run_bind_ok (run_get db),
    run_bind_ok ((run_lift _ db).trans (by rw [hrecord]))] at hshare
  simp only [run_bind_eq_ok,AgentContext.checkAccess,run_require_eq_ok,run_raise_eq_ok,run_pure,
    Prod.mk.injEq,Except.ok.injEq] at hshare
  obtain ⟨-,_,⟨-,rfl⟩,-,_,⟨-,rfl⟩,i,d,hstore,-,_,⟨-,rfl⟩,rfl,rfl⟩ := hshare
  obtain ⟨twin,hplace,rfl,rfl⟩ := storeSemantic_eq_ok hstore
  exact ⟨twin,hplace.id,hplace.chain,hplace.ns,rfl,rfl⟩

theorem share_episodic (hrecord : getMemory db id = .ok (.episodic e))
    (haccept : call.admission = .accept)
    (hshare : run (shareMemory env call ctx id target) db = (.ok copy,db')) :
    ∃ twin : EpisodicRecord, twin.id = call.fresh 1 ∧ twin.logicalMemoryId = e.logicalMemoryId ∧
      twin.ns = target ∧ copy = call.fresh 1 ∧
      db' = {db with episodic := db.episodic.append [twin]} := by
  rw [shareMemory,run_bind_ok (run_get db),
    run_bind_ok ((run_lift _ db).trans (by rw [hrecord]))] at hshare
  simp only [run_bind_eq_ok,AgentContext.checkAccess,run_require_eq_ok,run_raise_eq_ok,run_pure,
    remember,enforce,haccept,Prod.mk.injEq,Except.ok.injEq] at hshare
  obtain ⟨-,_,⟨-,rfl⟩,-,_,⟨-,rfl⟩,i,d,⟨-,_,⟨-,rfl⟩,hstore⟩,-,_,⟨-,rfl⟩,rfl,rfl⟩ := hshare
  obtain ⟨rfl,rfl⟩ := rememberAccepted_eq_ok hstore
  exact ⟨{episodicCopy call ctx e target with body := call.ingest e.body},rfl,rfl,rfl,rfl,rfl⟩

theorem share_layer (hrecord : getMemory db id = .ok record)
    (hshare : run (shareMemory env call ctx id target) db = (.ok copy,db')) :
    (∃ r, record = .semantic r) ∨ ∃ e, record = .episodic e := by
  rw [shareMemory,run_bind_ok (run_get db),
    run_bind_ok ((run_lift _ db).trans (by rw [hrecord]))] at hshare
  simp only [run_bind_eq_ok,AgentContext.checkAccess,run_require_eq_ok] at hshare
  obtain ⟨-,_,⟨-,rfl⟩,-,_,⟨-,rfl⟩,hshare⟩ := hshare
  cases record with
  | semantic r => exact .inl ⟨r,rfl⟩
  | episodic e => exact .inr ⟨e,rfl⟩
  | working w => cases hshare
  | procedural p => cases hshare

theorem find_of_getMemory_semantic (h : getMemory db id = .ok (.semantic r)) :
    db.semantic.find id = some r := by
  unfold getMemory at h
  split at h <;> cases h
  assumption

theorem find_of_getMemory_episodic (h : getMemory db id = .ok (.episodic e)) :
    db.episodic.find id = some e := by
  unfold getMemory at h
  split at h <;> cases h
  assumption

theorem Unused.working_find (h : Unused call db) (i : ℕ) :
    db.working.find? (·.id == call.fresh i) = none := by
  rw [List.find?_eq_none]
  intro w hw
  simpa using h.working i w hw

theorem semantic_copy_independent_iff (hunused : Unused call db)
    (hrecord : getMemory db id = .ok (.semantic r))
    (hshare : run (shareMemory env call ctx id target) db = (.ok copy,db')) (hcache : Cached db')
    (hlater : ∀ x ∈ later, ∃ i ∈ [copy,id], x.2.edits = some (.semantic,i))
    (hfresh : Admissible (step env) (fun db x => Unused x.1 db) db' later) :
    ∃ twin : SemanticRecord, getMemory db' copy = .ok (.semantic twin) ∧ twin.ns = target ∧
      OnlyRefused env db' later r.ns (.semantic r) ∧
      OnlyRefused env db' later target (.semantic twin) := by
  obtain ⟨twin,hid,hchain,rfl,rfl,rfl⟩ := share_semantic hrecord hshare
  have hsource : ((db.semantic.append [twin]).cacheHead twin).find id = some r :=
    (find_congr rows_cacheHead).trans (find_append _ (find_of_getMemory_semantic hrecord))
  have hcopy : ((db.semantic.append [twin]).cacheHead twin).find (call.fresh 1) = some twin := by
    rw [find_congr rows_cacheHead,← hid]
    exact find_append_new fun x hx => (hunused.semantic 1 x hx).trans_eq hid.symm
  have hget : getMemory {db with semantic := (db.semantic.append [twin]).cacheHead twin}
      (call.fresh 1) = .ok (.semantic twin) := by
    rw [getMemory,hunused.working_find,find_eq_none (hunused.episodic 1),hcopy]
  have hids : ∀ i ∈ [call.fresh 1,id], ∃ x,
      ((db.semantic.append [twin]).cacheHead twin).find i = some x ∧
        x.logicalMemoryId = r.logicalMemoryId := by
    simp only [List.mem_cons,List.not_mem_nil,or_false,forall_eq_or_imp,forall_eq]
    exact ⟨⟨twin,hcopy,hchain⟩,⟨r,hsource,rfl⟩⟩
  exact ⟨twin,hget,rfl,semantic_unchanged_iff hcache hfresh hids hlater,
    semantic_unchanged_iff hcache hfresh (by rwa [hchain]) hlater⟩

theorem episodic_copy_independent_iff (hunused : Unused call db)
    (hrecord : getMemory db id = .ok (.episodic e)) (haccept : call.admission = .accept)
    (hshare : run (shareMemory env call ctx id target) db = (.ok copy,db')) (hcache : Cached db')
    (hlater : ∀ x ∈ later, ∃ i ∈ [copy,id], x.2.edits = some (.episodic,i))
    (hfresh : Admissible (step env) (fun db x => Unused x.1 db) db' later) :
    ∃ twin : EpisodicRecord, getMemory db' copy = .ok (.episodic twin) ∧ twin.ns = target ∧
      OnlyRefused env db' later e.ns (.episodic e) ∧
      OnlyRefused env db' later target (.episodic twin) := by
  obtain ⟨twin,hid,hchain,rfl,rfl,rfl⟩ := share_episodic hrecord haccept hshare
  have hfind := find_of_getMemory_episodic hrecord
  have hcopy : (db.episodic.append [twin]).find (call.fresh 1) = some twin := by
    rw [← hid]
    exact find_append_new fun x hx => (hunused.episodic 1 x hx).trans_eq hid.symm
  have hget : getMemory {db with episodic := db.episodic.append [twin]} (call.fresh 1) =
      .ok (.episodic twin) := by
    rw [getMemory,hunused.working_find,hcopy]
  have hids : ∀ i ∈ [call.fresh 1,id], ∃ x, (db.episodic.append [twin]).find i = some x ∧
      x.logicalMemoryId = e.logicalMemoryId := by
    simp only [List.mem_cons,List.not_mem_nil,or_false,forall_eq_or_imp,forall_eq]
    exact ⟨⟨twin,hcopy,hchain⟩,⟨e,find_append _ hfind,rfl⟩⟩
  refine ⟨twin,hget,rfl,episodic_unchanged_iff hcache hfresh hids ⟨e,?_,rfl,rfl⟩ hlater,
    episodic_unchanged_iff hcache hfresh (by rwa [hchain]) ⟨twin,by simp,rfl,rfl⟩ hlater⟩
  exact List.mem_append_left _ (find_eq_some hfind).1

/-- Edits of a shared copy and of its source leave the other side's rows and head as they were exactly
as long as they are all refused. -/
theorem copy_independent_iff (env : Env) (before : List (Call × Request)) {call : Call}
    {ctx : AgentContext} {id copy : MemoryId} {target : Namespace} {record : MemoryRecord} {db' : Db}
    {later : List (Call × Request)} (hunused : Unused call (exec (step env) Db.empty before))
    (hrecord : getMemory (exec (step env) Db.empty before) id = .ok record)
    (hcopied : record.layer = .episodic → call.admission = .accept)
    (hshare : run (shareMemory env call ctx id target) (exec (step env) Db.empty before) =
      (.ok copy,db'))
    (hlater : ∀ x ∈ later, x.2.edits = some (record.layer,copy) ∨ x.2.edits = some (record.layer,id))
    (hfresh : Admissible (step env) (fun db x => Unused x.1 db) db' later) :
    ∃ twin, getMemory db' copy = .ok twin ∧ twin.effectiveNamespace = target ∧
      ((∀ done, done <+: later →
          SameFor env record.effectiveNamespace record db' (exec (step env) db' done)) ↔
        Admissible (step env) (fun db x => ¬Accepts env db x) db' later) ∧
      ((∀ done, done <+: later → SameFor env target twin db' (exec (step env) db' done)) ↔
        Admissible (step env) (fun db x => ¬Accepts env db x) db' later) := by
  have hcache : Cached db' := by
    have h : Cached (step env (exec (step env) Db.empty before) (call,.share ctx id target)) :=
      cached_step (cached_exec cached_empty before) _
    rwa [step,perform,run_discard,hshare] at h
  have hids : ∀ x ∈ later, ∃ i ∈ [copy,id], x.2.edits = some (record.layer,i) := by
    intro x hx
    rcases hlater x hx with h | h
    · exact ⟨copy,by simp,h⟩
    · exact ⟨id,by simp,h⟩
  rcases share_layer hrecord hshare with ⟨r,rfl⟩ | ⟨e,rfl⟩
  · obtain ⟨twin,h⟩ := semantic_copy_independent_iff hunused hrecord hshare hcache hids hfresh
    exact ⟨.semantic twin,h⟩
  · obtain ⟨twin,h⟩ :=
      episodic_copy_independent_iff hunused hrecord (hcopied rfl) hshare hcache hids hfresh
    exact ⟨.episodic twin,h⟩

def guardedEnv : Env :=
  {openEnv with denial := fun agentId _ ns =>
    if ns == "private:ada" && agentId != "ada" then some (.accessDenied "forbidden") else none}

def storeSecret : List (Call × Request) := [(callAt 0 10,.storeSemantic secret)]
def secretCopy : SemanticRecord := semanticCopy (callAt 1 20) ada secret "shared"

def sharedDb : Db :=
  (run (shareMemory guardedEnv (callAt 1 20) ada 1 "shared")
  (exec (step guardedEnv) Db.empty storeSecret)).2

theorem present_storeSecret (h : (exec (step guardedEnv) Db.empty storeSecret).semantic.Present r) :
    r = secret := by
  have hstored : (exec (step guardedEnv) Db.empty storeSecret).semantic =
      (Store.empty.append [secret]).cacheHead secret := rfl
  rw [hstored] at h
  rcases h.of_cacheHead with h | h
  · rcases h.of_append with (h | ⟨c,h⟩) | h
    · cases h
    · cases h
    · simpa using h
  · exact h

theorem present_sharedDb (h : sharedDb.semantic.Present r) : r = secret ∨ r = secretCopy := by
  have hshared : sharedDb.semantic = ((exec (step guardedEnv) Db.empty storeSecret).semantic.append
      [secretCopy]).cacheHead secretCopy := rfl
  rw [hshared] at h
  rcases h.of_cacheHead with h | h
  · rcases h.of_append with h | h
    · exact .inl (present_storeSecret h)
    · exact .inr (by simpa using h)
  · exact .inr h

/-- A purge of the source that the policy refuses leaves it alone. -/
theorem copy_independent_refused : ¬Accepts guardedEnv sharedDb
    (callAt 2 30,Request.purge 1 (some "bob")) ∧
    ∀ done, done <+: [(callAt 2 30,Request.purge 1 (some "bob"))] →
      SameFor guardedEnv "private:ada" (.semantic secret) sharedDb
      (exec (step guardedEnv) sharedDb done) := by
  have hepisodic : ∀ r : EpisodicRecord, ¬(Store.empty : Store EpisodicRecord).Present r := by
    rintro r (h | ⟨c,h⟩) <;> cases h
  have hunused : Unused (callAt 1 20) (exec (step guardedEnv) Db.empty storeSecret) :=
    ⟨fun i w hw => (by cases hw),fun i r hr => absurd hr (hepisodic r),fun i r hr => by
      rw [present_storeSecret hr]
      show (1 : ℕ) ≠ 20+i
      omega⟩
  have hlater : Unused (callAt 2 30) sharedDb :=
    ⟨fun i w hw => (by cases hw),fun i r hr => absurd hr (hepisodic r),fun i r hr => by
      rcases present_sharedDb hr with rfl | rfl
      · show (1 : ℕ) ≠ 30+i
        omega
      · show (21 : ℕ) ≠ 30+i
        omega⟩
  have hrefused : ¬Accepts guardedEnv sharedDb (callAt 2 30,Request.purge 1 (some "bob")) := by
    rintro ⟨record,hrecord,hallowed,-⟩
    cases hrecord
    cases hallowed
  obtain ⟨twin,-,-,hsource,-⟩ := @copy_independent_iff guardedEnv storeSecret (callAt 1 20) ada 1 21
    "shared" (.semantic secret) sharedDb [(callAt 2 30,.purge 1 (some "bob"))] hunused rfl
    (by simp [MemoryRecord.layer]) rfl (by simp [Request.edits,MemoryRecord.layer]) ⟨hlater,trivial⟩
  exact ⟨hrefused,hsource.mpr ⟨hrefused,trivial⟩⟩

/-- An agent without access to the source purges the shared copy, and the source is gone. -/
theorem purge_of_copy_deletes_source : (run (shareMemory guardedEnv (callAt 1 20) ada 1 "shared")
      (exec (step guardedEnv) Db.empty storeSecret)).1 = .ok 21 ∧
    guardedEnv.denial "bob" .purge "private:ada" ≠ none ∧
    ¬SameFor guardedEnv "private:ada" (.semantic secret) sharedDb
      (exec (step guardedEnv) sharedDb [(callAt 2 30,.purge 21 (some "bob"))]) := by
  refine ⟨by decide +kernel,by decide,fun h => ?_⟩
  have hbefore : sharedDb.semantic.regionRows SemanticRecord.ns "private:ada" = [secret] := by
    decide +kernel
  have hafter : (exec (step guardedEnv) sharedDb
    [(callAt 2 30,.purge 21 (some "bob"))]).semantic.regionRows
      SemanticRecord.ns "private:ada" = [] := by decide +kernel
  exact absurd (hafter.symm.trans (h.semantic.trans hbefore)) (by simp)
end Hirn.Engine
