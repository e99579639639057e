import Hirn.Resources

/-! What the operations on resources give and leave when no storage call fails. -/
namespace Hirn.Resources
open Engine Calls List Option Prod

namespace Store
variable {now : Timestamp}

def head (s : Store) (logicalResourceId : LogicalResourceId) : Option ResourceObject :=
  selectActiveResourceHead (s.revisions logicalResourceId)

def headOf (s : Store) (resourceId : ResourceId) : Option ResourceObject :=
  (s.resourceRaw resourceId).bind fun r => s.head r.logicalResourceId

def bytes? (s : Store) (r : ResourceObject) : Option Bytes :=
  match r.location with
  | .blob blobIndex => s.blob? r.id blobIndex
  | _ => none

def liveMatch (s : Store) (ns : Namespace) (checksum : String) : Option ResourceObject :=
  (s.withChecksum ns checksum).filter fun r => r.storageReady ∧ r.supersededBy = none

variable {s : Store} {r h : ResourceObject}

theorem mem_revisions : r ∈ s.revisions L ↔ r ∈ s.resources ∧ r.logicalResourceId = L ∧
    r.storageReady := by
  simp [revisions]

theorem resourceRaw_eq_some {id : ResourceId} (hnodup : (s.resources.map (·.id)).Nodup) :
    s.resourceRaw id = some r ↔ r ∈ s.resources ∧ r.id = id ∧ r.storageReady := by
  rw [resourceRaw,filter_eq_some_iff,find?_key_eq_some hnodup,and_assoc]

theorem head_mem (hhead : s.head L = some h) :
    h ∈ s.resources ∧ h.logicalResourceId = L ∧ h.storageReady := by
  rw [head,selectActiveResourceHead,or_eq_some_iff] at hhead
  rcases hhead with hlive | ⟨-,hany⟩
  · exact mem_revisions.mp (mem_filter.mp (mem_of_maxByKey hlive)).1
  · exact mem_revisions.mp (mem_filter.mp (mem_of_maxByKey hany)).1

theorem head_eq_some (hmem : h ∈ s.resources) (hready : h.storageReady) (hlive : h.supersededBy = none)
    (hsingle : ∀ r ∈ s.resources, r.logicalResourceId = h.logicalResourceId → r.storageReady →
      r.supersededBy = none → r = h) : s.head h.logicalResourceId = some h := by
  rw [head,selectActiveResourceHead,maxByKey_eq_some_of_forall (x := h),some_or]
  · exact mem_filter.mpr ⟨mem_revisions.mpr ⟨hmem,rfl,hready⟩,by simp [hready,hlive]⟩
  · intro r hr
    obtain ⟨hrev,hsel⟩ := mem_filter.mp hr
    obtain ⟨hstored,hlineage,-⟩ := mem_revisions.mp hrev
    rw [decide_eq_true_eq] at hsel
    exact hsingle r hstored hlineage hsel.1 hsel.2

/-- Each lineage has exactly one visible revision that is not superseded. -/
structure Headed (s : Store) : Prop where
  headed : ∀ r ∈ s.resources, r.storageReady = true → ∃ h ∈ s.resources,
    h.logicalResourceId = r.logicalResourceId ∧ h.storageReady = true ∧ h.supersededBy = none
  single : ∀ r ∈ s.resources, ∀ h ∈ s.resources, r.logicalResourceId = h.logicalResourceId →
    r.storageReady = true → h.storageReady = true → r.supersededBy = none →
    h.supersededBy = none → r = h

theorem Headed.head (hs : s.Headed) (hr : r ∈ s.resources) (hready : r.storageReady)
    (hlive : r.supersededBy = none) : s.head r.logicalResourceId = some r :=
  head_eq_some hr hready hlive fun a ha hsame hreadya hnone => hs.single a ha r hr hsame hreadya
  hready hnone hlive

theorem Headed.of_head (hs : s.Headed) (hhead : s.head L = some h) :
    h ∈ s.resources ∧ h.storageReady ∧ h.supersededBy = none := by
  obtain ⟨hmem,hlineage,hready⟩ := head_mem hhead
  obtain ⟨g,hg,hsame,hreadyg,hnone⟩ := hs.headed h hmem hready
  have hfound := hs.head hg hreadyg hnone
  rw [hsame,hlineage,hhead,some.injEq] at hfound
  exact ⟨hmem,hready,hfound ▸ hnone⟩

theorem Headed.of_headOf (hs : s.Headed) (hhead : s.headOf resourceId = some h) :
    h ∈ s.resources ∧ h.storageReady ∧ h.supersededBy = none := by
  obtain ⟨r,-,hhead⟩ := bind_eq_some_iff.mp hhead
  exact hs.of_head hhead
end Store
variable {backend : Backend} {s : Store} {α : Type}

@[simp] theorem perform_scan (f : Store → α) :
    perform (effect backend) (scan f) s = (.ok (f s),s) := rfl
@[simp] theorem perform_write (o : StoreOp) :
    perform (effect backend) (write o) s = (.ok (),effect backend o s) := rfl

@[simp] theorem perform_getResourceHead (resourceId : ResourceId) :
    perform (effect backend) (getResourceHead resourceId) s = (.ok (s.headOf resourceId),s) := by
  simp only [getResourceHead,listResourceRevisions,getResourceRaw,listResourceRevisionsForLogicalId,
    perform_bind,perform_scan,perform_pure,Store.headOf]
  cases s.resourceRaw resourceId <;> rfl

variable (backend s) in
theorem perform_loadResourceBlobUnchecked (resourceId : ResourceId) (blobIndex : ℕ) :
    perform (effect backend) (loadResourceBlobUnchecked resourceId blobIndex) s =
      ((s.blob? resourceId blobIndex).elim (.error (.blobError "_resource_blobs"
        ("resource blob not found: "++ulid resourceId++":"++toString blobIndex))) .ok,s) := by
  simp only [loadResourceBlobUnchecked,perform_bind,perform_scan]
  cases s.blob? resourceId blobIndex <;> rfl

def Store.appended (backend : Backend) (s : Store) (resource : ResourceObject)
    (blob : Option Bytes) : Store :=
  match resource.location, blob with
  | .blob blobIndex, some data =>
    effect backend (.mergeResource resource.finalized)
      (effect backend (.appendBlob ⟨resource.id,blobIndex,data⟩)
      (effect backend (.appendResource resource.staged) s))
  | _, _ => effect backend (.appendResource resource) s

variable {data : Option Bytes} {resource r : ResourceObject}

@[simp] theorem appended_envelopes : (s.appended backend resource data).envelopes = s.envelopes := by
  unfold Store.appended
  split <;> rfl

theorem appended_blobs : (s.appended backend resource data).blobs =
    s.blobs++(match resource.location,data with
      | .blob blobIndex,some d => [⟨resource.id,blobIndex,d⟩]
      | _,_ => []) := by
  unfold Store.appended
  split
  · rfl
  · exact (append_nil _).symm

theorem mem_appended_resources (hready : resource.storageReady)
    (hfresh : ∀ a ∈ s.resources, a.id ≠ resource.id) :
    r ∈ (s.appended backend resource data).resources ↔ r ∈ s.resources ∨ r = resource := by
  unfold Store.appended
  split
  · simp only [effect,mem_mergeInsert,mem_append,mem_singleton,ResourceObject.finalized_eq_self hready]
    constructor
    · rintro (rfl | ⟨hmem | rfl,hne⟩)
      · exact .inr rfl
      · exact .inl hmem
      · exact absurd rfl hne
    · rintro (hmem | rfl)
      · exact .inr ⟨.inl hmem,hfresh r hmem⟩
      · exact .inl rfl
  · simp [effect]

theorem nodup_append_resource (h : (s.resources.map (·.id)).Nodup) (hfresh : ∀ a ∈ s.resources,
    a.id ≠ resource.id) : ((s.resources++[resource]).map (·.id)).Nodup := by
  rw [map_append,nodup_append]
  refine ⟨h,by simp,fun k hk l hl => ?_⟩
  obtain ⟨a,ha,rfl⟩ := mem_map.mp hk
  rw [map_singleton,mem_singleton] at hl
  exact hl ▸ hfresh a ha

theorem nodup_appended_resources (h : (s.resources.map (·.id)).Nodup) (hfresh : ∀ a ∈ s.resources,
    a.id ≠ resource.id) : ((s.appended backend resource data).resources.map (·.id)).Nodup := by
  unfold Store.appended
  split
  · exact nodup_mergeInsert (nodup_append_resource h hfresh)
  · exact nodup_append_resource h hfresh

@[simp] theorem perform_appendResourceRevision (resource : ResourceObject) (blob : Option Bytes) :
    perform (effect backend) (appendResourceRevision resource blob) s =
    (.ok (),s.appended backend resource blob) := by
  unfold appendResourceRevision Store.appended
  cases resource.location with
  | blob blobIndex =>
    cases blob with
    | none => rfl
    | some data => rfl
  | inline => rfl
  | external uri => rfl

variable {envelope : MutationEnvelopeRecord}

theorem perform_updateMutationEnvelopeState {id : EnvelopeId}
    (h : s.envelope? id = some envelope) (now : Timestamp) (state : MutationEnvelopeState)
    (lastError : Option HirnDbError) :
    perform (effect backend) (updateMutationEnvelopeState now id state lastError) s =
      (.ok (),effect backend (.mergeEnvelope {envelope with state,lastError,updatedAt := now}) s) := by
  simp [updateMutationEnvelopeState,perform_bind,h]

def Store.prepared (s : Store) (env : Env) (current : Option ResourceObject)
    (resource : ResourceObject) (blob : Option Bytes) : Option (ResourceObject × Option Bytes) :=
  match resource.location with
  | .blob _ => (blob.or (current.bind s.bytes?)).map fun data =>
      (syncBlobMetadata env resource data,some data)
  | _ => if blob.isSome then none else some (resource,none)

variable (backend s) in
theorem perform_prepareBlobPayload (env : Env) (current : Option ResourceObject)
    (resource : ResourceObject)
    (blob : Option Bytes) : ∃ e, perform (effect backend)
    (prepareBlobPayload env current resource blob) s =
      ((s.prepared env current resource blob).elim (.error e) .ok,s) := by
  unfold prepareBlobPayload Store.prepared
  cases resource.location with
  | inline =>
    cases blob with
    | none => exact ⟨.backend,rfl⟩
    | some data => exact ⟨_,rfl⟩
  | external uri =>
    cases blob with
    | none => exact ⟨.backend,rfl⟩
    | some data => exact ⟨_,rfl⟩
  | blob index =>
    cases blob with
    | some data => exact ⟨.backend,rfl⟩
    | none =>
      cases current with
      | none => exact ⟨_,rfl⟩
      | some current =>
        simp only [bind_some,none_or,Store.bytes?]
        cases current.location with
        | inline => exact ⟨_,rfl⟩
        | external uri => exact ⟨_,rfl⟩
        | blob blobIndex =>
          simp only [perform_bind,perform_loadResourceBlobUnchecked]
          cases s.blob? current.id blobIndex with
          | none => exact ⟨_,rfl⟩
          | some data => exact ⟨.backend,rfl⟩

variable (env : Env)

theorem perform_findLiveResourceByChecksum (ns : Namespace) (checksum : String) :
    perform (effect backend) (findLiveResourceByChecksum ns checksum) s =
    (.ok (s.liveMatch ns checksum),s) := by
  rw [findLiveResourceByChecksum,perform_scan,Store.liveMatch]
  cases s.withChecksum ns checksum with
  | none => rfl
  | some r =>
    simp only [selectLiveResourceMatch,filter_some]
    cases hready : r.storageReady <;> by_cases hlive : r.supersededBy = none <;> simp [hready,hlive,
      maxByKey]

variable (backend s) in
theorem perform_persistResource (resource : ResourceObject) (blob : Option Bytes) :
    ∃ e, perform (effect backend) (persistResource env resource blob) s =
      match s.prepared env none resource blob with
      | none => (.error e,s)
      | some (r,data) =>
        match r.checksum.bind (s.liveMatch r.ns) with
        | some existing => (.ok existing,s)
        | none => (.ok r,s.appended backend r data) := by
  obtain ⟨e,he⟩ := perform_prepareBlobPayload backend s env none resource blob
  refine ⟨e,?_⟩
  rw [persistResource]
  cases hprepared : s.prepared env none resource blob with
  | none =>
    rw [hprepared] at he
    exact perform_bind_error he
  | some p =>
    obtain ⟨r,data⟩ := p
    rw [hprepared] at he
    rw [perform_bind_ok he]
    dsimp only
    cases r.checksum with
    | none => simp only [perform_bind,perform_pure,bind_none,perform_appendResourceRevision]
    | some checksum =>
      rw [bind_some]
      dsimp only
      rw [perform_bind_ok (perform_findLiveResourceByChecksum r.ns checksum)]
      cases s.liveMatch r.ns checksum with
      | some existing => rfl
      | none => simp only [perform_bind,perform_appendResourceRevision,perform_pure]

variable {current : Option ResourceObject} {env : Env}

theorem prepared_eq_some (h : s.prepared env current resource blob = some (r,data)) :
    (resource.location.isBlob ∧ ∃ d, blob.or (current.bind s.bytes?) = some d ∧ data = some d ∧
      r = syncBlobMetadata env resource d) ∨
    (resource.location.isBlob = false ∧ blob = none ∧ data = none ∧ r = resource) := by
  unfold Store.prepared at h
  split at h
  next hlocation =>
    obtain ⟨d,hd,heq⟩ := map_eq_some_iff.mp h
    exact .inl ⟨by simp [hlocation,ResourceLocation.isBlob],d,hd,(congrArg snd heq).symm,
      (congrArg fst heq).symm⟩
  next hlocation =>
    have hnot : resource.location.isBlob = false := by
      cases hl : resource.location with
      | blob i => exact absurd hl (hlocation i)
      | inline => rfl
      | external uri => rfl
    split at h
    · cases h
    next hblob => exact .inr ⟨hnot,by simpa using hblob,by cases h; rfl,by cases h; rfl⟩

theorem prepared_id (h : s.prepared env current resource blob = some (r,data)) :
    r.id = resource.id := by
  obtain ⟨-,d,-,-,rfl⟩ | ⟨-,-,-,rfl⟩ := prepared_eq_some h
  · rfl
  · rfl

variable (backend) in
/-- The successor is stored, the head gives way, the envelope is applied. -/
def Store.superseded (s : Store) (now : Timestamp) (current successor : ResourceObject)
    (data : Option Bytes) : Store :=
  let envelope := buildResourceHeadTransitionEnvelope now current successor
  effect backend (.mergeEnvelope {envelope with state := .applied}) (effect backend
    (.mergeResource (current.supersede successor.id now))
      ((effect backend (.appendEnvelope envelope) s).appended backend successor data))

variable {t : Store}

theorem envelope?_of_append {current successor : ResourceObject}
    (hfresh : ∀ e ∈ s.envelopes, e.id ≠ .resourceHead successor.id)
    (ht : t.envelopes = s.envelopes++[buildResourceHeadTransitionEnvelope now current successor]) :
    t.envelope? (.resourceHead successor.id) =
    some (buildResourceHeadTransitionEnvelope now current successor) := by
  have hnone : s.envelopes.find? (fun e => e.id = .resourceHead successor.id) = none := by
    simpa using hfresh
  rw [Store.envelope?,ht,find?_append,hnone]
  simp [buildResourceHeadTransitionEnvelope]

variable (backend) in
/-- No envelope of a successor with this identifier is there. -/
theorem perform_supersedeResource {id : ResourceId}
    (hfresh : ∀ e ∈ s.envelopes, e.id ≠ .resourceHead id)
    (now : Timestamp) (resourceId : ResourceId) (u : ResourceSupersession) (blob : Option Bytes) :
    ∃ e, perform (effect backend) (supersedeResource env id now resourceId u blob) s =
      match s.headOf resourceId with
      | none => (.error e,s)
      | some current =>
        match s.prepared env (some current)
          (u.apply (buildSuccessorRevision id current (normalizeOptionalString env u.reason) now))
          blob with
        | none => (.error e,s)
        | some (successor,data) => (.ok successor,s.superseded backend now current successor
            data) := by
  rw [supersedeResource,perform_bind_ok (perform_getResourceHead resourceId)]
  cases s.headOf resourceId with
  | none => exact ⟨_,rfl⟩
  | some current =>
    dsimp only
    generalize hresource : u.apply (buildSuccessorRevision id current
      (normalizeOptionalString env u.reason) now) = resource
    obtain ⟨e,he⟩ := perform_prepareBlobPayload backend s env (some current) resource blob
    refine ⟨e,?_⟩
    cases hprepared : s.prepared env (some current) resource blob with
    | none =>
      rw [hprepared] at he
      exact perform_bind_error he
    | some p =>
      obtain ⟨successor,data⟩ := p
      rw [hprepared] at he
      rw [perform_bind_ok he]
      have hid : successor.id = id := by rw [prepared_id hprepared,← hresource]; rfl
      generalize htt : effect backend (.mergeResource (current.supersede successor.id now))
        ((effect backend (.appendEnvelope
        (buildResourceHeadTransitionEnvelope now current successor)) s).appended
          backend successor data) = t
      have hfound : t.envelope? (.resourceHead successor.id) =
          some (buildResourceHeadTransitionEnvelope now current successor) :=
        envelope?_of_append (hid ▸ hfresh) (by rw [← htt]; exact appended_envelopes)
      simp only [perform_bind,perform_write,perform_attempt,perform_appendResourceRevision,
        supersedeHead,upsertResourceRevision,htt]
      rw [show (buildResourceHeadTransitionEnvelope now current successor).id =
        .resourceHead successor.id from rfl,perform_updateMutationEnvelopeState hfound]
      simp only [perform_pure,Store.superseded,htt]
      rfl

variable {f : Store → α}

@[simp] theorem mem_stops_scan : t ∈ stops (effect backend) (scan f).run s ↔ t = s := by
  change t ∈ [s,s] ↔ _
  simp

@[simp] theorem mem_stops_write : t ∈ stops (effect backend) (write o).run s ↔ t = s ∨
    t = effect backend o s := by
  change t ∈ [s,effect backend o s] ↔ _
  simp

@[simp] theorem mem_stops_pure : t ∈ stops (effect backend) (pure a : Act α).run s ↔ t = s :=
  mem_singleton

@[simp] theorem mem_stops_throw : t ∈ stops (effect backend) (throw e : Act α).run s ↔ t = s :=
  mem_singleton

variable (backend) in
def Store.appendStops (s : Store) (resource : ResourceObject) (data : Option Bytes) : List Store :=
  match resource.location, data with
  | .blob blobIndex, some d =>
    let staged := effect backend (.appendResource resource.staged) s
    [s,staged,effect backend (.appendBlob ⟨resource.id,blobIndex,d⟩) staged,
    s.appended backend resource data]
  | _, _ => [s,s.appended backend resource data]

theorem mem_stops_appendResourceRevision
    (h : t ∈ stops (effect backend) (appendResourceRevision resource data).run s) :
    t ∈ s.appendStops backend resource data := by
  unfold Store.appendStops
  cases hlocation : resource.location with
  | inline => simpa [appendResourceRevision,Store.appended,hlocation] using h
  | external uri => simpa [appendResourceRevision,Store.appended,hlocation] using h
  | blob blobIndex =>
    cases data with
    | none => simpa [appendResourceRevision,Store.appended] using h
    | some d =>
      simp only [appendResourceRevision,hlocation] at h
      rw [mem_stops_action_bind (perform_write _),
        mem_stops_action_bind (by rw [perform_attempt,perform_write]),mem_stops_attempt] at h
      rw [mem_stops_action_bind (by rw [perform_attempt,upsertResourceRevision,perform_write]),
        mem_stops_attempt] at h
      simp only [upsertResourceRevision,mem_stops_write,mem_stops_pure] at h
      simp only [Store.appended,hlocation,mem_cons]
      tauto

@[simp] theorem mem_stops_getResourceHead :
    t ∈ stops (effect backend) (getResourceHead resourceId).run s ↔ t = s := by
  rw [getResourceHead,listResourceRevisions,getResourceRaw]
  cases hraw : s.resourceRaw resourceId with
  | none =>
    rw [mem_stops_action_bind (a := []) (u := s),mem_stops_action_bind (perform_scan _),hraw]
    · simp
    · rw [perform_bind_ok (perform_scan _),hraw,perform_pure]
  | some r =>
    rw [mem_stops_action_bind (a := s.revisions r.logicalResourceId) (u := s),
      mem_stops_action_bind (perform_scan _),hraw]
    · simp [listResourceRevisionsForLogicalId]
    · rw [perform_bind_ok (perform_scan _),hraw]
      rfl

theorem mem_stops_prepareBlobPayload
    (h : t ∈ stops (effect backend) (prepareBlobPayload env current resource blob).run s) : t = s := by
  unfold prepareBlobPayload at h
  cases hresource : resource.location with
  | inline => cases blob <;> simpa [hresource] using h
  | external uri => cases blob <;> simpa [hresource] using h
  | blob index =>
    rw [hresource] at h
    cases blob with
    | some data => simpa using h
    | none =>
      cases current with
      | none => simpa using h
      | some current =>
        dsimp only at h
        cases hlocation : current.location with
        | inline => simpa [hlocation] using h
        | external uri => simpa [hlocation] using h
        | blob blobIndex =>
          rw [hlocation] at h
          have hload : t ∈ stops (effect backend)
            (loadResourceBlobUnchecked current.id blobIndex).run s → t = s := by
            intro h
            rw [loadResourceBlobUnchecked,mem_stops_action_bind (perform_scan _)] at h
            cases hblob : s.blob? current.id blobIndex <;> simpa [hblob] using h
          have hperform := perform_loadResourceBlobUnchecked backend s current.id blobIndex
          cases hblob : s.blob? current.id blobIndex with
          | none =>
            rw [hblob] at hperform
            rw [mem_stops_action_bind_error hperform] at h
            exact hload h
          | some data =>
            rw [hblob] at hperform
            rw [mem_stops_action_bind hperform,mem_stops_pure] at h
            exact h.elim hload id

theorem mem_stops_updateMutationEnvelopeState {id : EnvelopeId}
    (hfound : s.envelope? id = some envelope) {state : MutationEnvelopeState}
    {lastError : Option HirnDbError} :
    t ∈ stops (effect backend) (updateMutationEnvelopeState now id state lastError).run s ↔
      t = s ∨ t = effect backend (.mergeEnvelope {envelope with state,lastError,updatedAt := now})
      s := by
  rw [updateMutationEnvelopeState,mem_stops_action_bind (perform_scan _),mem_stops_scan,hfound]
  rw [mem_stops_write]
  exact or_iff_right_of_imp .inl

/-- Where the process can stop within a supersession. -/
theorem mem_stops_supersedeResource {id : ResourceId}
    {u : ResourceSupersession} (hfresh : ∀ e ∈ s.envelopes, e.id ≠ .resourceHead id)
    (h : t ∈ stops (effect backend) (supersedeResource env id now resourceId u blob).run s) :
    t = s ∨ ∃ current successor data, s.headOf resourceId = some current ∧
      s.prepared env (some current)
        (u.apply (buildSuccessorRevision id current (normalizeOptionalString env u.reason) now)) blob =
          some (successor,data) ∧
      let begun := effect backend (.appendEnvelope
        (buildResourceHeadTransitionEnvelope now current successor)) s
      (t ∈ begun.appendStops backend successor data ∨
        t = effect backend (.mergeResource (current.supersede successor.id now))
          (begun.appended backend successor data) ∨
        t = s.superseded backend now current successor data) := by
  rw [supersedeResource,mem_stops_action_bind (perform_getResourceHead resourceId),
    mem_stops_getResourceHead] at h
  rcases h with rfl | h
  · exact .inl rfl
  cases hhead : s.headOf resourceId with
  | none =>
    rw [hhead] at h
    exact .inl (mem_stops_throw.mp h)
  | some current =>
    rw [hhead] at h
    obtain ⟨e,he⟩ := perform_prepareBlobPayload backend s env (some current)
      (u.apply (buildSuccessorRevision id current (normalizeOptionalString env u.reason) now)) blob
    cases hprepared : s.prepared env (some current)
      (u.apply (buildSuccessorRevision id current (normalizeOptionalString env u.reason) now))
      blob with
    | none =>
      rw [hprepared] at he
      rw [mem_stops_action_bind_error he] at h
      exact .inl (mem_stops_prepareBlobPayload h)
    | some p =>
      obtain ⟨successor,data⟩ := p
      rw [hprepared] at he
      rw [mem_stops_action_bind he] at h
      rcases h with h | h
      · exact .inl (mem_stops_prepareBlobPayload h)
      rw [mem_stops_action_bind (perform_write _),mem_stops_write] at h
      rcases h with (rfl | rfl) | h
      · exact .inl rfl
      · refine .inr ⟨current,successor,data,rfl,hprepared,.inl ?_⟩
        unfold Store.appendStops
        split <;> exact mem_cons_self
      rw [mem_stops_action_bind (by rw [perform_attempt,perform_appendResourceRevision]),
        mem_stops_attempt] at h
      rcases h with h | h
      · exact .inr ⟨current,successor,data,rfl,hprepared,.inl (mem_stops_appendResourceRevision h)⟩
      rw [mem_stops_action_bind (by rw [perform_attempt,supersedeHead,upsertResourceRevision,perform_write]),
        mem_stops_attempt,supersedeHead,upsertResourceRevision,mem_stops_write] at h
      rcases h with (rfl | rfl) | h
      · refine .inr ⟨current,successor,data,rfl,hprepared,.inl ?_⟩
        unfold Store.appendStops
        split <;> simp
      · exact .inr ⟨current,successor,data,rfl,hprepared,.inr (.inl rfl)⟩
      have hid : successor.id = id := prepared_id hprepared
      have hfound : (effect backend (.mergeResource (current.supersede successor.id now))
        (Store.appended backend
          (effect backend (.appendEnvelope
          (buildResourceHeadTransitionEnvelope now current successor)) s)
            successor data)).envelope? (buildResourceHeadTransitionEnvelope now current successor).id =
          some (buildResourceHeadTransitionEnvelope now current successor) :=
        envelope?_of_append (hid ▸ hfresh) appended_envelopes
      rw [mem_stops_action_bind (perform_updateMutationEnvelopeState hfound now .applied none),
        mem_stops_updateMutationEnvelopeState hfound,mem_stops_pure] at h
      rcases h with (h | h) | h
      · exact .inr ⟨current,successor,data,rfl,hprepared,.inr (.inl h)⟩
      · exact .inr ⟨current,successor,data,rfl,hprepared,.inr (.inr h)⟩
      · exact .inr ⟨current,successor,data,rfl,hprepared,.inr (.inr h)⟩

variable {β : Type} {ok : Store → StoreOp → Bool → Prop} {I : Store → Prop}
    {guar : ℕ → Store → Store → Prop} {c : ℕ} {Q : Except HirnDbError β → Store → Prop}
variable (A : Store → Prop)
variable {g : α → Act β}

theorem safe_scan_bind (hs : A s) (hstable : Stable I guar c A) (hself : ∀ t, guar c t t)
    (hnext : ∀ t, I t → A t → ok t .scan true → Safe (effect backend) ok I guar c Q (g (f t)).run t)
    (hfails : ∀ t, I t → A t → ok t .scan false → Q (.error .backend) t) :
    Safe (effect backend) ok I guar c Q (scan f >>= g).run s :=
  ⟨A,hs,hstable,fun t hI hA => ⟨fun hok => ⟨hI,hself t,hnext t hI hA hok⟩,hfails t hI hA⟩⟩

theorem safe_write_bind {g : Unit → Act β} (hs : A s) (hstable : Stable I guar c A)
    (hnext : ∀ t, I t → A t → ok t o true → I (effect backend o t) ∧ guar c t (effect backend o t) ∧
      Safe (effect backend) ok I guar c Q (g ()).run (effect backend o t))
    (hfails : ∀ t, I t → A t → ok t o false → Q (.error .backend) t) :
    Safe (effect backend) ok I guar c Q (write o >>= g).run s :=
  ⟨A,hs,hstable,fun t hI hA => ⟨hnext t hI hA,hfails t hI hA⟩⟩

theorem safe_write {Q : Except HirnDbError Unit → Store → Prop} (hs : A s)
    (hstable : Stable I guar c A) (hnext : ∀ t, I t → A t → ok t o true →
      I (effect backend o t) ∧ guar c t (effect backend o t) ∧ Q (.ok ()) (effect backend o t))
    (hfails : ∀ t, I t → A t → ok t o false → Q (.error .backend) t) :
    Safe (effect backend) ok I guar c Q (write o).run s :=
  ⟨A,hs,hstable,fun t hI hA => ⟨hnext t hI hA,hfails t hI hA⟩⟩

variable {R : Except HirnDbError α → Store → Prop} {m : Act α}

theorem safe_attempt_bind {g : Except HirnDbError α → Act β}
    (hs : I s) (hm : Safe (effect backend) ok I guar c R m.run s)
    (hg : ∀ x t, I t → R x t → Safe (effect backend) ok I guar c Q (g x).run t) :
    Safe (effect backend) ok I guar c Q (attempt m >>= g).run s := by
  have hrun : (attempt m >>= g).run = m.run >>= fun x => (g x).run :=
    Prog.bind_assoc m.run _ (ExceptT.bindCont g)
  rw [hrun]
  exact Safe.bind hs hm hg

theorem safe_bind (hs : I s) (hm : Safe (effect backend) ok I guar c R m.run s)
    (hok : ∀ a t, I t → R (.ok a) t → Safe (effect backend) ok I guar c Q (g a).run t)
    (herror : ∀ e t, I t → R (.error e) t → Q (.error e) t) :
    Safe (effect backend) ok I guar c Q (m >>= g).run s := by
  refine Safe.bind hs hm fun x t hI hR => ?_
  cases x with
  | ok a => exact hok a t hI hR
  | error e => exact herror e t hI hR

def plainEnv : Env := ⟨fun data => String.ofList (data.map fun b => Char.ofNat b.toNat),id⟩

theorem plainEnv_hash_injective : Function.Injective plainEnv.hash := by
  intro a b h
  refine map_injective_iff.mpr (fun x y hxy => ?_) (String.ofList_injective h)
  have hx : ∀ z : UInt8, (Char.ofNat z.toNat).toNat = z.toNat := by
    intro z
    have hvalid : z.toNat.isValidChar := .inl (z.toNat_lt.trans (by decide))
    rw [Char.ofNat,dif_pos hvalid]
    rfl
  exact UInt8.toNat_inj.mp (by rw [← hx x,← hx y,hxy])

def textDraft : ResourceObjectBuilder := ⟨.text,none,none,none,none,.blob 0,none,"shared"⟩
def unchanged : ResourceSupersession := ⟨none,none,none,none,none,none,none⟩
end Hirn.Resources
