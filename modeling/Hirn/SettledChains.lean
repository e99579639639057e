import Hirn.AgentContext

/-! Where chains live. A store is settled when an id, a chain or a revision id names revisions of
one namespace only. Edits append to the namespace of the head they resolve, so they keep a store
settled. What is stored from outside has to fit. -/
namespace Hirn.Engine
open Chains Effects Revision List
variable {db : Db}

/-- Each id, chain and revision id belongs to one namespace. -/
structure Settled (s : Store SemanticRecord) : Prop where
  indexed : s.Indexed
  byId : Determines key SemanticRecord.ns s
  byChain : Determines chain SemanticRecord.ns s
  byRevision : Determines revision SemanticRecord.ns s

/-- The record's id, chain and revision id are not those of another namespace. -/
structure Placed (s : Store SemanticRecord) (r : SemanticRecord) : Prop where
  byId : Fits key SemanticRecord.ns s r
  byChain : Fits chain SemanticRecord.ns s r
  byRevision : Fits revision SemanticRecord.ns s r

/-- The identifiers that a call draws are new. -/
structure Fresh (call : Call) (s : Store SemanticRecord) : Prop where
  id : ∀ i r, s.Present r → r.id ≠ call.fresh i
  revisionId : ∀ i r, s.Present r → r.revisionId ≠ call.fresh i

variable {env : Env} {call : Call} {s t : Store SemanticRecord}

theorem Settled.empty : Settled Store.empty := by
  have hno : ∀ r : SemanticRecord, ¬(Store.empty : Store SemanticRecord).Present r := by
    rintro r (h | ⟨c,h⟩) <;> cases h
  exact ⟨fun c r h => absurd (.inr ⟨c,h⟩) (hno r),fun r _ h => absurd h (hno r),
    fun r _ h => absurd h (hno r),fun r _ h => absurd h (hno r)⟩

theorem Settled.mono (h : Settled s) (hidx : t.Indexed) (hsub : ∀ r, t.Present r → s.Present r) :
    Settled t := ⟨hidx,h.byId.mono hsub,h.byChain.mono hsub,h.byRevision.mono hsub⟩

theorem Settled.grow (h : Settled s) (hidx : t.Indexed) (xs : List SemanticRecord)
    (hsub : ∀ r, t.Present r → s.Present r ∨ r ∈ xs) (hplaced : ∀ x ∈ xs, Placed s x)
    (hns : ∀ x ∈ xs, ∀ y ∈ xs, x.ns = y.ns) : Settled t :=
  ⟨hidx,
    h.byId.grow xs hsub (fun x hx => (hplaced x hx).byId) fun x hx y hy _ => hns x hx y hy,
    h.byChain.grow xs hsub (fun x hx => (hplaced x hx).byChain) fun x hx y hy _ => hns x hx y hy,
    h.byRevision.grow xs hsub (fun x hx => (hplaced x hx).byRevision) fun x hx y hy _ => hns x hx y hy⟩

variable {current next : SemanticRecord}

theorem Settled.placed_revision (h : Settled s) (hfresh : Fresh call s)
    (hcurrent : s.Present current) (hid : next.id = call.fresh i)
    (hrev : next.revisionId = call.fresh i) (hchain : next.logicalMemoryId = current.logicalMemoryId)
    (hns : next.ns = current.ns) : Placed s next :=
  ⟨fun r hr hk => absurd (hk.trans hid) (hfresh.id i r hr),h.byChain.fits hcurrent hchain hns,
    fun r hr hk => absurd (hk.trans hrev) (hfresh.revisionId i r hr)⟩

theorem Settled.placed_same (h : Settled s) (hcurrent : s.Present current)
    (hid : next.id = current.id) (hchain : next.logicalMemoryId = current.logicalMemoryId)
    (hrev : next.revisionId = current.revisionId) (hns : next.ns = current.ns) : Placed s next :=
  ⟨h.byId.fits hcurrent hid hns,h.byChain.fits hcurrent hchain hns,h.byRevision.fits hcurrent hrev hns⟩

/-- Reading has added no revision to those of `s`. -/
def Inside (s : Store SemanticRecord) (db : Db) : Prop :=
  db.semantic.Indexed ∧ ∀ r, db.semantic.Present r → s.Present r

theorem Settled.inside (hs : Settled s) (db : Db) (h : Inside s db) : Settled db.semantic :=
  hs.mono h.1 h.2

variable {E : Db → Prop}

section
variable (hE : ∀ db, Inside s db → E db)
include hE

theorem triple_readSemanticRecord (id : MemoryId) :
    Triple (Inside s) (readSemanticRecord id) (fun r db => s.Present r ∧ Inside s db) E := by
  intro db hdb
  rw [readSemanticRecord,run_bind_ok (run_get db)]
  rcases hfind : db.semantic.find id with _ | r
  · exact hE db hdb
  · exact ⟨hdb.2 r (.inl (Store.find_eq_some hfind).1),hdb⟩

theorem triple_semanticHeadForLogicalId (c : LogicalMemoryId) :
    Triple (Inside s) (semanticHeadForLogicalId env c) (fun r db => s.Present r ∧ Inside s db) E := by
  intro db hdb
  have htouch : Inside s {db with semantic := db.semantic.touch env.semanticBackend c} :=
    ⟨hdb.1.touch,fun r hr => hdb.2 r hr.of_touch⟩
  rw [semanticHeadForLogicalId,run_bind_ok (run_get db)]
  rcases hhead : db.semantic.headFor env.semanticBackend c with _ | r
  · exact hE _ htouch
  · exact ⟨hdb.2 r (Store.present_of_headFor hhead),htouch⟩

theorem triple_resolveActiveSemanticHead (id : MemoryId) :
    Triple (Inside s) (resolveActiveSemanticHead env id)
    (fun r db => s.Present r ∧ Inside s db) E := by
  refine .bind (triple_readSemanticRecord hE id) fun record => .given fun _ => ?_
  refine .bind (triple_semanticHeadForLogicalId hE _) fun head => .given fun hhead => ?_
  refine .bind (.require _ _ hE) fun _ => .given fun _ => ?_
  exact .bind (.raise _ hE) fun _ => .pure fun db hdb => ⟨hhead,hdb⟩

theorem triple_resolveSources (current : SemanticRecord) (ids : List MemoryId)
    (seen : List LogicalMemoryId) : Triple (Inside s) (resolveSources env current ids seen)
      (fun sources db => (∀ r ∈ sources, s.Present r ∧ r.ns = current.ns) ∧ Inside s db) E := by
  induction ids generalizing seen with
  | nil => exact .pure fun db hdb => ⟨by simp,hdb⟩
  | cons id ids ih =>
    refine .bind (triple_resolveActiveSemanticHead hE id) fun source => .given fun hsource => ?_
    refine .bind (.require _ _ hE) fun _ => .given fun _ => ?_
    refine .bind (.require _ _ hE) fun _ => .given fun _ => ?_
    refine .bind (.require _ _ hE) fun _ => .given fun hns => ?_
    refine .bind (.require _ _ hE) fun _ => .given fun _ => ?_
    refine .bind (ih _) fun sources => .given fun hsources => .pure fun db hdb => ⟨?_,hdb⟩
    intro r hr
    rcases mem_cons.mp hr with rfl | hr
    · exact ⟨hsource,by simpa using hns⟩
    · exact hsources r hr
end

abbrev Settles (s : Store SemanticRecord) {α : Type} (m : Op α) : Prop :=
  Triple (Inside s) m (fun _ db => Settled db.semantic) fun db => Settled db.semantic

theorem placed_closedPredecessor (hs : Settled s) {t : Timestamp}
    (hcurrent : s.Present current) (h : closedPredecessor current t = some closed) :
    Placed s closed ∧ closed.ns = current.ns := by
  unfold closedPredecessor at h
  split at h
  · cases h
  · cases h
    exact ⟨hs.placed_same hcurrent rfl rfl rfl rfl,rfl⟩

theorem settled_succeed (hs : Settled s) (hdb : Inside s db) (ns : Namespace)
    (hnext : Placed s next) (hns : next.ns = ns)
    (hclosed : ∀ r ∈ closed, Placed s r ∧ r.ns = ns) : Settled (db.semantic.succeed next closed) := by
  refine hs.grow hdb.1.succeed (next::closed.toList) (fun r hr => ?_) (fun x hx => ?_)
    fun x hx y hy => ?_
  · rcases Store.Present.of_succeed hr with hr | rfl | hr
    · exact .inl (hdb.2 r hr)
    · exact .inr (by simp)
    · exact .inr (by simp [hr])
  · rcases mem_cons.mp hx with rfl | hx
    · exact hnext
    · exact (hclosed x (by simpa using hx)).1
  · have hall : ∀ z ∈ next::closed.toList, z.ns = ns := by
      intro z hz
      rcases mem_cons.mp hz with rfl | hz
      · exact hns
      · exact (hclosed z (by simpa using hz)).2
    exact (hall x hx).trans (hall y hy).symm

/-- Two revisions with the same identity and the same place. -/
structure SamePlace (x y : SemanticRecord) : Prop where
  id : x.id = y.id
  revisionId : x.revisionId = y.revisionId
  chain : x.logicalMemoryId = y.logicalMemoryId
  ns : x.ns = y.ns
  version : x.version = y.version

variable {x : SemanticRecord} {now : Timestamp} {reason : String}

theorem samePlace_describing (h : describing env current next reason now d = .ok x) :
    SamePlace x next := by
  cases d with
  | none =>
    cases h
    exact ⟨rfl,rfl,rfl,rfl,rfl⟩
  | some desc =>
    rw [describing,Fallible.bind_eq_ok] at h
    obtain ⟨e,-,he⟩ := h
    cases he
    exact ⟨rfl,rfl,rfl,rfl,rfl⟩

theorem samePlace_applySemanticUpdateFields
    (h : applySemanticUpdateFields env current next update reason now = .ok x) : SamePlace x next := by
  rw [applySemanticUpdateFields,Fallible.bind_eq_ok] at h
  obtain ⟨described,hd,hx⟩ := h
  obtain ⟨hid,hrev,hchain,hns,hver⟩ := samePlace_describing hd
  cases hx
  unfold rating
  split <;> exact ⟨hid,hrev,hchain,hns,hver⟩

theorem samePlace_attachContradictions (env : Env) (current next : SemanticRecord) :
    SamePlace (attachContradictions env current next) next := by
  unfold attachContradictions
  split <;> exact ⟨rfl,rfl,rfl,rfl,rfl⟩

theorem SamePlace.trans (hxy : SamePlace x y) (hyz : SamePlace y z) : SamePlace x z :=
  ⟨hxy.id.trans hyz.id,hxy.revisionId.trans hyz.revisionId,hxy.chain.trans hyz.chain,
  hxy.ns.trans hyz.ns,
    hxy.version.trans hyz.version⟩

theorem settles_appendSemanticSuccessor (hs : Settled s) (hfresh : Fresh call s)
    (hcurrent : s.Present current) (update : SemanticUpdate) (operation : RevisionOperation)
    (preserve : Bool) (action : Action) :
    Settles s (appendSemanticSuccessor env call current update operation preserve action) := by
  have hE := hs.inside
  refine .bind (.raise _ hE) fun _ => .bind (.lift _ hE) fun next => .given fun hnext => ?_
  refine .bind (.raise _ hE) fun _ => .bind (.modify fun db hdb => ?_) fun _ => .pure fun _ h => h
  have hsame := (samePlace_attachContradictions env current next).trans
    (samePlace_applySemanticUpdateFields hnext)
  have hplaced := hs.placed_revision hfresh hcurrent hsame.id hsame.revisionId hsame.chain hsame.ns
  refine settled_succeed hs hdb current.ns hplaced hsame.ns fun r hr => ?_
  split at hr
  · cases hr
  · exact placed_closedPredecessor hs hcurrent hr

section
variable (hs : Settled s) (hfresh : Fresh call s)
include hs hfresh

variable (id : MemoryId)

theorem settles_correctSemantic (update : SemanticUpdate) :
    Settles s (correctSemantic env call id update) :=
  .bind (triple_resolveActiveSemanticHead hs.inside id) fun _ => .given fun hcurrent =>
    settles_appendSemanticSuccessor hs hfresh hcurrent _ _ _ _

theorem settles_supersedeSemantic (supersession : SemanticUpdate) :
    Settles s (supersedeSemantic env call id supersession) :=
  .bind (triple_resolveActiveSemanticHead hs.inside id) fun _ => .given fun hcurrent =>
    settles_appendSemanticSuccessor hs hfresh hcurrent _ _ _ _

theorem settles_overrideSemantic (request : SemanticUpdate) :
    Settles s (overrideSemantic env call id request) :=
  .bind (triple_resolveActiveSemanticHead hs.inside id) fun _ => .given fun hcurrent =>
    .bind (.expect _ _ hs.inside) fun _ => .given fun _ =>
      settles_appendSemanticSuccessor hs hfresh hcurrent _ _ _ _

theorem settles_retractSemantic (retraction : SemanticRetraction) :
    Settles s (retractSemantic env call id retraction) := by
  have hE := hs.inside
  refine .bind (triple_resolveActiveSemanticHead hE id) fun current => .given fun hcurrent => ?_
  refine .bind (.raise _ hE) fun _ => .bind (.raise _ hE) fun _ => ?_
  refine .bind (.modify fun db hdb => ?_) fun _ => .pure fun _ h => h
  exact settled_succeed hs hdb current.ns (hs.placed_revision hfresh hcurrent rfl rfl rfl rfl) rfl
    fun r hr => placed_closedPredecessor hs hcurrent hr
end

theorem settles_purgeSemanticAs (hs : Settled s) (id : MemoryId) (actorId : Option AgentId) :
    Settles s (purgeSemanticAs env call id actorId) := by
  have hE := hs.inside
  refine .bind (triple_readSemanticRecord hE id) fun record => .given fun _ => ?_
  refine .bind (.raise _ hE) fun _ => .bind (.raise _ hE) fun _ => .modify fun db hdb => ?_
  exact hs.mono (Store.Indexed.evict hdb.1) fun r hr => hdb.2 r hr.of_evict.of_dropChain

variable {r : SemanticRecord} {new : List SemanticRecord}

theorem present_foldl_cacheHead (h : (new.foldl Store.cacheHead s).Present r) :
    s.Present r ∨ r ∈ new := by
  induction new generalizing s with
  | nil => exact .inl h
  | cons x new ih =>
    rcases ih h with h | h
    · exact (Store.Present.of_cacheHead h).imp_right fun h => by simp [h]
    · exact .inr (by simp [h])

theorem indexed_foldl_cacheHead (hs : s.Indexed) : (new.foldl Store.cacheHead s).Indexed := by
  induction new generalizing s with
  | nil => exact hs
  | cons x new ih => exact ih hs.cacheHead

variable {observedAt : Timestamp} {p : SemanticRecord}

theorem present_closePredecessor (h : (closePredecessor observedAt s p).Present r) :
    s.Present r ∨ closedPredecessor p (max observedAt p.validFrom) = some r := by
  unfold closePredecessor at h
  split at h
  next closed hclosed =>
    rcases Store.Present.of_overwrite h with h | rfl
    · exact .inl h
    · exact .inr hclosed
  · exact .inl h

theorem indexed_closePredecessor (hs : s.Indexed) : (closePredecessor observedAt s p).Indexed := by
  unfold closePredecessor
  split
  · exact hs.overwrite
  · exact hs

variable {ps : List SemanticRecord}

theorem present_foldl_closePredecessor (h : (ps.foldl (closePredecessor observedAt) s).Present r) :
    s.Present r ∨ ∃ p ∈ ps, closedPredecessor p (max observedAt p.validFrom) = some r := by
  induction ps generalizing s with
  | nil => exact .inl h
  | cons p ps ih =>
    rcases ih h with h | ⟨q,hq,hr⟩
    · exact (present_closePredecessor h).imp_right fun h => ⟨p,by simp,h⟩
    · exact .inr ⟨q,by simp [hq],hr⟩

theorem indexed_foldl_closePredecessor (hs : s.Indexed) :
    (ps.foldl (closePredecessor observedAt) s).Indexed := by
  induction ps generalizing s with
  | nil => exact hs
  | cons p ps ih => exact ih (indexed_closePredecessor hs)

theorem settled_merged (hs : Settled s) (hdb : Inside s db) (ns : Namespace)
    {predecessors : List SemanticRecord} (hnew : ∀ x ∈ new, Placed s x ∧ x.ns = ns)
    (hpred : ∀ p ∈ predecessors, s.Present p ∧ p.ns = ns) : Settled (new.foldl Store.cacheHead
      (predecessors.foldl (closePredecessor observedAt) (db.semantic.append new))) := by
  have hclosed : ∀ p ∈ predecessors, ∀ r, closedPredecessor p (max observedAt p.validFrom) =
      some r → Placed s r ∧ r.ns = ns := by
    intro p hp r hr
    obtain ⟨hpresent,hns⟩ := hpred p hp
    exact (placed_closedPredecessor hs hpresent hr).imp_right fun h => h.trans hns
  let closed := predecessors.filterMap fun p => closedPredecessor p (max observedAt p.validFrom)
  have hall : ∀ x ∈ new++closed, Placed s x ∧ x.ns = ns := by
    intro x hx
    rcases mem_append.mp hx with hx | hx
    · exact hnew x hx
    · obtain ⟨p,hp,hr⟩ := mem_filterMap.mp hx
      exact hclosed p hp x hr
  refine hs.grow (indexed_foldl_cacheHead (indexed_foldl_closePredecessor hdb.1)) (new++closed)
    (fun r hr => ?_) (fun x hx => (hall x hx).1) fun x hx y hy =>
    (hall x hx).2.trans (hall y hy).2.symm
  rcases present_foldl_cacheHead hr with hr | hr
  · rcases present_foldl_closePredecessor hr with hr | ⟨p,hp,hr⟩
    · exact (Store.Present.of_append hr).imp (hdb.2 r) fun h => by simp [h]
    · exact .inr (mem_append.mpr (.inr (mem_filterMap.mpr ⟨p,hp,hr⟩)))
  · exact .inr (by simp [hr])

theorem settles_mergeSemantic (hs : Settled s) (hfresh : Fresh call s) (target : MemoryId)
    (merge : SemanticMerge) : Settles s (mergeSemantic env call target merge) := by
  have hE := hs.inside
  refine .bind (.require _ _ hE) fun _ => .given fun _ => ?_
  refine .bind (triple_resolveActiveSemanticHead hE target) fun current => .given fun hcurrent => ?_
  refine .bind (.raise _ hE) fun _ => ?_
  refine .bind (triple_resolveSources hE current _ _) fun sources => .given fun hsources => ?_
  refine .bind (.lift _ hE) fun new => .given fun hnew => ?_
  refine .bind (.raise _ hE) fun _ => .bind (.modify fun db hdb => ?_) fun _ => .pure fun _ h => h
  have hsame := samePlace_applySemanticUpdateFields hnew
  have htarget := hs.placed_revision hfresh hcurrent hsame.id hsame.revisionId hsame.chain hsame.ns
  refine settled_merged hs hdb current.ns (fun x hx => ?_) fun p hp => ?_
  · rcases mem_cons.mp hx with rfl | hx
    · exact ⟨htarget,hsame.ns⟩
    · obtain ⟨i,hi,rfl⟩ := mem_mapIdx.mp hx
      obtain ⟨hsource,hns⟩ := hsources _ (getElem_mem hi)
      exact ⟨hs.placed_revision hfresh hsource rfl rfl rfl rfl,hns⟩
  · rcases mem_cons.mp hp with rfl | hp
    · exact ⟨hcurrent,rfl⟩
    · exact hsources p hp

theorem settles_storeSemantic (hs : Settled s) (hplaced : Placed s record) :
    Settles s (storeSemantic env call record) := by
  have hE := hs.inside
  refine .bind (.raise _ hE) fun _ => .bind .get fun before => .given fun _ =>
    .bind (.raise _ hE) fun _ => ?_
  refine .bind (.require _ _ hE) fun _ => .given fun _ => ?_
  refine .bind (.raise _ hE) fun _ => .bind (.raise _ hE) fun _ => ?_
  refine .bind (.modify fun db hdb => ?_) fun _ => .pure fun _ h => h
  have hstored : ∀ x : SemanticRecord, SamePlace x record →
      Settled ((db.semantic.append [x]).cacheHead x) := by
    intro x hx
    refine hs.grow (Store.Indexed.cacheHead (s := db.semantic.append [x]) hdb.1) [x]
      (fun r hr => ?_) ?_ (by simp)
    · rcases hr.of_cacheHead with hr | rfl
      · exact hr.of_append.imp_left (hdb.2 r)
      · exact .inr (by simp)
    · simp only [mem_singleton,forall_eq]
      exact ⟨fun r hr hk => (hplaced.byId r hr (hk.trans hx.id)).trans hx.ns.symm,
        fun r hr hk => (hplaced.byChain r hr (hk.trans hx.chain)).trans hx.ns.symm,
        fun r hr hk => (hplaced.byRevision r hr (hk.trans hx.revisionId)).trans hx.ns.symm⟩
  apply hstored
  split <;> exact ⟨rfl,rfl,rfl,rfl,rfl⟩

section
variable (hE : ∀ db, Inside s db → E db)

theorem triple_onEpisodic (f : Store EpisodicRecord → Store EpisodicRecord) :
    Triple (Inside s) (onEpisodic f) (fun _ => Inside s) E := .modify fun _ hdb => hdb

include hE

variable (id : MemoryId)

theorem triple_readEpisodicRecord : Triple (Inside s) (readEpisodicRecord id) (fun _ => Inside s) E :=
  .bind .get fun _ => .given fun _ => (Triple.expect _ _ hE).conseq (fun _ h => h) fun _ _ h => h.2

theorem triple_episodicHeadForLogicalId (c : LogicalMemoryId) :
    Triple (Inside s) (episodicHeadForLogicalId env c) (fun _ => Inside s) E :=
  .bind .get fun _ => .given fun _ => .bind (triple_onEpisodic _) fun _ =>
    (Triple.expect _ _ hE).conseq (fun _ h => h) fun _ _ h => h.2

theorem triple_episodicEditTarget : Triple (Inside s) (episodicEditTarget env id)
    (fun _ => Inside s) E :=
  .bind (triple_readEpisodicRecord hE id) fun _ =>
    .bind (triple_episodicHeadForLogicalId hE _) fun _ =>
      .bind (.require _ _ hE) fun _ => .given fun _ => .pure fun _ h => h

theorem triple_appendEpisodicSuccessor (current : EpisodicRecord) (operation : RevisionOperation)
    (reason : Option String) (archived : Bool) (update : EpisodicBody → EpisodicBody) :
    Triple (Inside s) (appendEpisodicSuccessor env call current operation reason archived update)
      (fun _ => Inside s) E :=
  .bind (.lift _ hE) fun _ => .given fun _ => .bind (.raise _ hE) fun _ =>
    .bind (triple_onEpisodic _) fun _ => .pure fun _ h => h

theorem triple_remember (record : EpisodicRecord) :
    Triple (Inside s) (remember env call record) (fun _ => Inside s) E := by
  refine .bind (.raise _ hE) fun _ => ?_
  cases call.admission with
  | refuse error => exact .throw _ hE
  | merge target =>
    exact .bind (triple_episodicEditTarget hE target) fun _ => .bind (.require _ _ hE) fun _ =>
      .given fun _ => .bind (triple_appendEpisodicSuccessor hE _ _ _ _ _) fun _ => .pure fun _ h => h
  | accept =>
    exact .bind (.raise _ hE) fun _ => .bind (.raise _ hE) fun _ =>
      .bind (triple_onEpisodic _) fun _ =>
      .pure fun _ h => h

theorem triple_deleteEpisode : Triple (Inside s) (deleteEpisode env call id) (fun _ => Inside s) E :=
  .bind (triple_readEpisodicRecord hE id) fun _ =>
  .bind (triple_episodicHeadForLogicalId hE _) fun _ =>
    .bind (.raise _ hE) fun _ => .bind (.raise _ hE) fun _ => triple_onEpisodic _

theorem triple_archiveEpisode : Triple (Inside s) (archiveEpisode env call id) (fun _ => Inside s) E :=
  .bind (triple_episodicEditTarget hE id) fun _ => .bind (.raise _ hE) fun _ =>
    .bind (triple_appendEpisodicSuccessor hE _ _ _ _ _) fun _ => .pure fun _ h => h
end
variable {id : MemoryId}

theorem semantic_of_getMemory (h : getMemory db id = .ok (.semantic r)) :
    r ∈ db.semantic.rows ∧ r.id = id := by
  unfold getMemory at h
  split at h <;> cases h
  next hfind => exact Store.find_eq_some hfind

variable {target : Namespace}

theorem Settled.placed_semanticCopy (hs : Settled s) (hfresh : Fresh call s)
    (hr : s.Present r) (ctx : AgentContext) (hns : target = r.ns) :
    Placed s (semanticCopy call ctx r target) :=
  ⟨fun x hx hk => absurd hk (hfresh.id 1 x hx),hs.byChain.fits hr rfl hns,
  hs.byRevision.fits hr rfl hns⟩

theorem settled_shareMemory (hs : Settled db.semantic) (hfresh : Fresh call db.semantic)
    (hfit : ∀ r, getMemory db id = .ok (.semantic r) → target = r.ns) :
    Settled (run (shareMemory env call ctx id target) db).2.semantic := by
  have hE := hs.inside
  rw [shareMemory,run_bind_ok (run_get db)]
  refine Triple.final (P := Inside db.semantic) (E := fun d => Settled d.semantic) ?_ ⟨hs.indexed,
    fun _ h => h⟩
  refine .bind (.lift _ hE) fun record => .given fun hrecord => ?_
  refine .bind (.require _ _ hE) fun _ => .given fun _ => .bind (.require _ _ hE) fun _ =>
    .given fun _ => ?_
  cases record with
  | working w => exact .throw _ hE
  | procedural p => exact .throw _ hE
  | episodic e =>
    exact .bind (triple_remember hE _) fun _ => .bind (.raise _ hE) fun _ => .pure hE
  | semantic r =>
    have hpresent : db.semantic.Present r := .inl (semantic_of_getMemory hrecord).1
    have hplaced := hs.placed_semanticCopy hfresh hpresent ctx (hfit r hrecord)
    exact .bind (settles_storeSemantic hs hplaced) fun _ => .bind (.raise _ fun _ h => h) fun _ =>
      .pure fun _ h => h

/-- A record whose identifiers no other namespace has, or a copy within its namespace. -/
def Fitting (db : Db) : Request → Prop
  | .storeSemantic record => Placed db.semantic record
  | .share _ id target => ∀ r, getMemory db id = .ok (.semantic r) → target = r.ns
  | .promote _ id => ∀ r, getMemory db id = .ok (.semantic r) → shared = r.ns
  | _ => True

theorem settled_step (hs : Settled db.semantic) (hfresh : Fresh call db.semantic)
    (hfit : Fitting db request) : Settled (step env db (call,request)).semantic := by
  have hE := hs.inside
  have hstart : Inside db.semantic db := ⟨hs.indexed,fun _ h => h⟩
  have hread : ∀ {α : Type} {m : Op α}, Triple (Inside db.semantic) m (fun _ => Inside db.semantic)
      (Inside db.semantic) → Settled (run m db).2.semantic := fun hm => hE _ (hm.final hstart)
  unfold step
  cases request with
  | storeSemantic record => simpa [perform] using (settles_storeSemantic hs hfit).final hstart
  | correct id update =>
    simpa [perform] using (settles_correctSemantic hs hfresh id update).final hstart
  | supersede id update =>
    simpa [perform] using (settles_supersedeSemantic hs hfresh id update).final hstart
  | override id update =>
    simpa [perform] using (settles_overrideSemantic hs hfresh id update).final hstart
  | merge target merge =>
    simpa [perform] using (settles_mergeSemantic hs hfresh target merge).final hstart
  | retract id retraction =>
    simpa [perform] using (settles_retractSemantic hs hfresh id retraction).final hstart
  | purge id actorId => exact (settles_purgeSemanticAs hs id actorId).final hstart
  | remember record => simpa [perform] using hread (triple_remember (fun _ h => h) record)
  | archive id => exact hread (triple_archiveEpisode (fun _ h => h) id)
  | delete id => exact hread (triple_deleteEpisode (fun _ h => h) id)
  | share ctx id target => simpa [perform] using settled_shareMemory hs hfresh hfit
  | promote ctx id =>
    simp only [perform,run_discard]
    rw [promoteToShared,run_bind_ok (run_get db)]
    rcases hrecord : getMemory db id with e | record
    · exact hE _ hstart
    · rw [run_bind_ok (run_lift (.ok record) db)]
      rcases hp : promotable record with _ | e
      · exact settled_shareMemory hs hfresh hfit
      · exact hE _ hstart
end Hirn.Engine
